import MadKV.Bencher.Stats
import MadKV.Bencher.Translation

/-!
# The feeder thread

It reads the lines of a YCSB driver, has the client execute the calls they stand
for, one at a time, and records how long each took. A `Served` holds what one
iteration takes from outside: what became of the call, and when. A time is a
number of nanoseconds.
-/

namespace MadKV.Bencher

open Runner Support

variable {F : Type}

/-- Statistics with the number of clients they were merged from. -/
structure CliStats (F : Type) extends Stats F where
  merged : ℕ

namespace CliStats

variable (stats : CliStats F)

/-- The latencies of a type of operation. -/
def samplesOf (op : String) : List F := (stats.latSamples.find? op).getD []

def recordOp (op : String) (latencyUs : F) : CliStats F :=
  { stats with latSamples := stats.latSamples.insert op (stats.samplesOf op ++ [latencyUs]) }

theorem samplesOf_recordOp (op : String) (latencyUs : F) (op' : String) :
    (stats.recordOp op latencyUs).samplesOf op' =
      stats.samplesOf op' ++ if op = op' then [latencyUs] else [] := by
  simp only [samplesOf, recordOp, SortedMap.find?_insert]
  by_cases h : op = op'
  · simp [h]
  · simp [h, Ne.symm h]

/-- Each type of operation that is listed has a sample. -/
def Sampled : Prop := ∀ op samples, stats.latSamples.find? op = some samples → samples ≠ []

theorem Sampled.recordOp {stats : CliStats F} (h : stats.Sampled) (op : String) (latencyUs : F) :
    (stats.recordOp op latencyUs).Sampled := by
  intro op' samples hsamples
  rw [CliStats.recordOp, SortedMap.find?_insert] at hsamples
  split_ifs at hsamples
  · obtain rfl := Option.some.inj hsamples
    simp
  · exact h op' samples hsamples

theorem Sampled.mem_ops {stats : CliStats F} (h : stats.Sampled) {op : String} :
    op ∈ stats.ops ↔ stats.samplesOf op ≠ [] := by
  have hops : op ∈ stats.ops ↔ ∃ samples, stats.latSamples.find? op = some samples := by
    simp only [Stats.ops, List.mem_map, Prod.exists, SortedMap.mem_entries_iff]
    constructor
    · rintro ⟨_, samples, hmem, rfl⟩
      exact ⟨samples, hmem⟩
    · rintro ⟨samples, hmem⟩
      exact ⟨op, samples, hmem, rfl⟩
  rw [hops, samplesOf]
  cases hfind : stats.latSamples.find? op with
  | none => simp
  | some samples => simpa using h op samples hfind

def new [OfScientific F] : CliStats F := ⟨⟨0.0, SortedMap.empty⟩, 0⟩

@[simp] theorem samplesOf_new [OfScientific F] (op : String) :
    (new : CliStats F).samplesOf op = [] := rfl

theorem sampled_new [OfScientific F] : (new : CliStats F).Sampled := by
  intro op samples h
  cases h

end CliStats

/-- What one iteration takes from outside: the results of `send_call` and `wait_resp`,
and the readings of the clock. -/
structure Served where
  sendCall : KvCall → Except RunnerError Unit
  waitResp : Except RunnerError KvResp
  start : ℕ
  responded : ℕ
  now : ℕ

/-- The elapsed time, `as_micros` and as `f64`. -/
def Served.latencyUs [NatCast F] (served : Served) : F :=
  ((served.responded - served.start) / 1000 : ℕ)

/-- `as_secs_f64`. -/
def secs [NatCast F] [Add F] [Div F] [OfScientific F] (nanos : ℕ) : F :=
  ((nanos / 10 ^ 9 : ℕ) : F) + ((nanos % 10 ^ 9 : ℕ) : F) / 1e9

/-- The variables of `feeder_thread`. -/
structure Feeder (F : Type) where
  stdout : List UInt8
  ikeys : InsertedKeys
  stats : CliStats F
  ended : Bool
  started : Option ℕ
  lastEnd : Option ℕ

namespace Feeder

def start [OfScientific F] (stdout : List UInt8) (ikeys : InsertedKeys) : Feeder F :=
  ⟨stdout, ikeys, .new, false, none, none⟩

variable [NatCast F] (s : Feeder F)

/-- An operation call has been done. -/
def called (served : Served) (op : String) (ikeys : InsertedKeys) : Feeder F :=
  { s with
    ikeys
    stats := s.stats.recordOp op served.latencyUs
    started := s.started.or (some served.start)
    lastEnd := some served.now }

/-- Feed a line of YCSB basic driver output to the KV client. -/
def feedALine (build : Build) (served : Served) : Except Failure (Feeder F) :=
  match readLine s.stdout [] with
  | (.error err, _) => .error (.err (.io err))
  | (.ok (size, line), stdout) =>
    -- EOF reached, workload completed
    if size = 0 then .ok { s with stdout, ended := true }
    -- skip empty line
    else if trim isWhitespace line = [] then .ok { s with stdout }
    else
      match interpretYcsbCall build line s.ikeys with
      | .error failure => .error failure
      | .ok (some (call, op), ikeys) =>
        match served.sendCall call with
        | .error err => .error (.err err)
        | .ok () =>
          match served.waitResp with
          | .error err => .error (.err err)
          | .ok _ => .ok ({ s with stdout }.called served op ikeys)
      | .ok (none, _) =>
        -- performance reporting line from YCSB, ignored
        if line.head? = some '[' then .ok { s with stdout }
        else if "No such file".toList <:+: line then .error (.err (.io (String.ofList line)))
        else .ok { s with stdout }

end Feeder

/-- How the loop ends, `running` while it goes on. -/
inductive FeederEnd (F : Type)
  | running
  | panic (why : Panic)
  | err (err : RunnerError)
  | ended (s : Feeder F)

def feederLoop [NatCast F] (build : Build) : List Served → Feeder F → FeederEnd F
  | [], _ => .running
  | served :: rest, s =>
    match s.feedALine build served with
    | .error (.panic why) => .panic why
    | .error (.err err) => .err err
    | .ok s => if s.ended then .ended s else feederLoop build rest s

section Thread

variable [NatCast F] [Add F] [Mul F] [Div F] [OfScientific F]

/-- The statistics that the thread returns. -/
def Feeder.finalStats (s : Feeder F) : CliStats F :=
  { s.stats with
    totalMs :=
      match s.started, s.lastEnd with
      | some start, some last => secs (last - start) * 1000.0
      | _, _ => s.stats.totalMs
    merged := 1 }

/-- How `feeder_thread` ends: it returns the statistics and the inserted keys, or
nothing after an error. -/
inductive FeederResult (F : Type)
  | running
  | panic (why : Panic)
  | returned (result : Option (CliStats F × InsertedKeys))

def feederThread (build : Build) (served : List Served) (stdout : List UInt8)
    (ikeys : InsertedKeys) : FeederResult F :=
  match feederLoop build served (.start stdout ikeys) with
  | .running => .running
  | .panic why => .panic why
  | .err _ => .returned none
  | .ended s => .returned (some (s.finalStats, s.ikeys))

end Thread

end MadKV.Bencher
