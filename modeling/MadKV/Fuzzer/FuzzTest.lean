import MadKV.Fuzzer.Drive
import MadKV.Fuzzer.Random
import MadKV.Runner.IoApi

/-!
# The fuzz testing loop

`fuzz_test` issues random calls to idle clients and harvests responses of flying
ones. A `Round` holds all that one iteration takes from outside: the random
draws, what became of a sent call, and the response that arrived. Assertions and
arithmetic are those of a debug build, so a violated one is a panic.
-/

namespace MadKV.Fuzzer

open Runner

variable {n : ℕ}

/-! ## The checker's methods with their assertions -/

def History.addToQueueChecked (h : History n) (tsCall tsResp : ℕ) (resp : KvResp) :
    Except Panic (History n) :=
  if ¬ tsCall < tsResp then .error (.assertion "ts_call < ts_resp")
  else if ¬ ∀ back ∈ h.queue.getLast?, back.tsResp < tsResp then
    .error (.assertion "self.queue.is_empty() || self.queue.back().unwrap().ts_resp < ts_resp")
  else .ok (h.addToQueue tsCall tsResp resp)

/-- The bounds on `cidx` that the source also asserts are part of its type. -/
def History.applyUpdateChecked (h : History n) (cidx : Fin n) (tsCall tsResp : ℕ) (key : String)
    (value : Option String) : Except Panic (Option (Option KvResp) × History n) :=
  match h.spans.lookup key with
  | none => .ok (h.applyUpdate cidx tsCall tsResp key value)
  | some keySpans =>
    if ∀ back ∈ (keySpans cidx).getLast?, back.tsResp < tsCall then
      .ok (h.applyUpdate cidx tsCall tsResp key value)
    else .error (.assertion
      "key_spans[cidx].is_empty() || key_spans[cidx].back().unwrap().ts_resp < ts_call")

/-! ## State -/

/-- The variables of `fuzz_test`. The last two record what the source does not:
the calls the clients are still working on, and the harvested responses with the
calls they answer. -/
structure FuzzState (n : ℕ) where
  flying : Fin n → Bool
  timestamp : ℕ
  /-- start_ts, put_value -/
  callMemo : Fin n → ℕ × Option (String × Option String)
  history : History n
  opsCalled : ℕ
  opsWaited : ℕ
  outstanding : Fin n → List (ℕ × KvCall)
  harvested : List (Harvest n)

/-- The pool of keys, by client. -/
abbrev Pool (n : ℕ) := Fin n → List String

def Pool.lists (keys : Pool n) : List (List String) := List.ofFn keys

def FuzzState.new (keys : Pool n) : FuzzState n where
  flying := fun _ => false
  timestamp := 0
  callMemo := fun _ => (0, none)
  history := .new n keys.lists
  opsCalled := 0
  opsWaited := 0
  outstanding := fun _ => []
  harvested := []

/-- What one iteration takes from outside. -/
structure Round where
  coin : Bool
  clients : List ℕ
  call : CallDraws
  sendCall : Except RunnerError Unit
  waitResp : Except RunnerError KvResp
  flush : Except RunnerError Unit

/-- Why `passed` was set to false. -/
inductive Failure
  | unexpectedStop
  | violation (resp : KvResp)
  | unexpectedKey
deriving DecidableEq, Repr

/-- How one iteration ends; `drawing` while `gen_rand_client` is still retrying. -/
inductive Iteration (n : ℕ)
  | drawing
  | panic (why : Panic)
  | err (err : RunnerError)
  | failed (why : Failure)
  | next (s : FuzzState n)

namespace FuzzState

variable (s : FuzzState n)

def called (cidx : Fin n) (call : KvCall) : FuzzState n :=
  { s with
    callMemo := Function.update s.callMemo cidx (s.timestamp, call.updateInfo)
    outstanding := Function.update s.outstanding cidx
      (s.outstanding cidx ++ [(s.timestamp, call)])
    flying := Function.update s.flying cidx true
    opsCalled := s.opsCalled + 1 }

/-- Make a new call. -/
def makeCall (keys : Pool n) (round : Round) : Iteration n :=
  match genRandClient round.clients s.flying false with
  | none => .drawing
  | some (.error why) => .panic why
  | some (.ok cidx) =>
    match genRandKvcall (keys cidx) round.call with
    | .error why => .panic why
    | .ok call =>
      match round.sendCall with
      | .error err => .err err
      | .ok () => .next (s.called cidx call)

/-- The response `r` has been queued, and `history` is what the checker made of it. -/
def answered (r : Harvest n) (rest : List (ℕ × KvCall)) (history : History n) : FuzzState n :=
  { s with
    callMemo := Function.update s.callMemo r.cidx (0, none)
    outstanding := Function.update s.outstanding r.cidx rest
    history
    flying := Function.update s.flying r.cidx false
    opsWaited := s.opsWaited + 1
    harvested := s.harvested ++ [r] }

/-- The progress printing at the end of a harvest. -/
def progress (totalOps : ℕ) (round : Round) : Iteration n :=
  if totalOps / 100 = 0 then .panic .divisionByZero
  else if s.opsWaited % (totalOps / 100) = 0 ∨ s.opsWaited = totalOps then
    match round.flush with
    | .error err => .err err
    | .ok () => .next s
  else .next s

/-- Harvest a response. -/
def harvestResp (totalOps : ℕ) (round : Round) : Iteration n :=
  match genRandClient round.clients s.flying true with
  | none => .drawing
  | some (.error why) => .panic why
  | some (.ok cidx) =>
    match s.outstanding cidx, round.waitResp with
    -- nobody is going to answer
    | [], _ => .err (.chan "timed out waiting on channel")
    | _ :: _, .error err => .err err
    | (_, call) :: rest, .ok resp =>
      if resp = .stop then .failed .unexpectedStop
      else
        let (tsCall, updateInfo) := s.callMemo cidx
        let tsResp := s.timestamp
        let r : Harvest n := ⟨cidx, tsCall, tsResp, call, resp⟩
        match s.history.addToQueueChecked tsCall tsResp resp with
        | .error why => .panic why
        | .ok history =>
          match updateInfo with
          | none => (s.answered r rest history).progress totalOps round
          | some (key, value) =>
            match history.applyUpdateChecked cidx tsCall tsResp key value with
            | .error why => .panic why
            | .ok (some (some resp), _) => .failed (.violation resp)
            | .ok (some none, _) => .failed .unexpectedKey
            | .ok (none, history) => (s.answered r rest history).progress totalOps round

/-- The clock, a `u64`, advances. -/
def tick : FuzzState n := { s with timestamp := s.timestamp + 1 }

/-- The body of the loop. The total `numOps * n` is taken to fit a `usize`. -/
def iterate (numOps : ℕ) (keys : Pool n) (round : Round) : Iteration n :=
  if s.timestamp = u64Max then .panic .overflow
  else if genCallVsWait round.coin s.opsCalled (numOps * n) s.flying then
    s.tick.makeCall keys round
  else s.tick.harvestResp (numOps * n) round

end FuzzState

/-! ## Runs -/

/-- How the loop ends, `running` while it goes on. -/
inductive LoopEnd (n : ℕ)
  | running
  | panic (why : Panic)
  | err (err : RunnerError)
  | failed (why : Failure)
  | finished (s : FuzzState n)

def fuzzLoop (numOps : ℕ) (keys : Pool n) : List Round → FuzzState n → LoopEnd n
  | [], s => if s.opsWaited < numOps * n then .running else .finished s
  | round :: rounds, s =>
    if s.opsWaited < numOps * n then
      match s.iterate numOps keys round with
      | .drawing => .running
      | .panic why => .panic why
      | .err err => .err err
      | .failed why => .failed why
      | .next s => fuzzLoop numOps keys rounds s
    else .finished s

/-- How `fuzz_test` ends: `ok` with the number of pending checks upon a seemingly
successful test, or with nothing if it failed explicitly. -/
inductive FuzzResult
  | running
  | panic (why : Panic)
  | err (err : RunnerError)
  | ok (remaining : Option ℕ)
deriving DecidableEq, Repr

/-- Fuzz testing logic; `stop` is what became of stopping the clients. -/
def fuzzTest (numOps : ℕ) (keys : Pool n) (rounds : List Round) (stop : Except RunnerError Unit) :
    FuzzResult :=
  match fuzzLoop numOps keys rounds (.new keys) with
  | .running => .running
  | .panic why => .panic why
  | .err err => .err err
  | .failed _ => .ok none
  | .finished s =>
    match stop with
    | .error err => .err err
    | .ok () => .ok (some s.history.queueLen)

def remainThresh : ℕ := 1000

/-- The result `main` prints. -/
inductive Verdict
  | passed
  | unfair
  | failed
deriving DecidableEq, Repr

def verdict : Option ℕ → Verdict
  | some remaining => if remaining ≥ remainThresh then .unfair else .passed
  | none => .failed

/-- The states the loop passes through. -/
inductive Reachable (numOps : ℕ) (keys : Pool n) : FuzzState n → Prop
  | new : Reachable numOps keys (.new keys)
  | next {s s' : FuzzState n} {round : Round} : Reachable numOps keys s →
      s.opsWaited < numOps * n → s.iterate numOps keys round = .next s' → Reachable numOps keys s'

theorem fuzzLoop_reachable {numOps : ℕ} {keys : Pool n} {rounds : List Round} {s s' : FuzzState n}
    (h : fuzzLoop numOps keys rounds s = .finished s') (hs : Reachable numOps keys s) :
    Reachable numOps keys s' ∧ numOps * n ≤ s'.opsWaited := by
  induction rounds generalizing s with
  | nil =>
    unfold fuzzLoop at h
    split_ifs at h with hlt
    cases h
    exact ⟨hs, not_lt.mp hlt⟩
  | cons round rounds ih =>
    unfold fuzzLoop at h
    split_ifs at h with hlt
    · cases hi : s.iterate numOps keys round with
      | next t =>
        rw [hi] at h
        exact ih h (hs.next hlt hi)
      | drawing => simp [hi] at h
      | panic why => simp [hi] at h
      | err err => simp [hi] at h
      | failed why => simp [hi] at h
    · cases h
      exact ⟨hs, not_lt.mp hlt⟩

theorem fuzzTest_finished {numOps : ℕ} {keys : Pool n} {rounds : List Round} {s : FuzzState n}
    (h : fuzzLoop numOps keys rounds (.new keys) = .finished s) :
    fuzzTest numOps keys rounds (.ok ()) = .ok (some s.history.queueLen) := by
  unfold fuzzTest
  rw [h]

/-- A test that returns a number of pending checks went through the whole loop. -/
theorem fuzzTest_some {numOps : ℕ} {keys : Pool n} {rounds : List Round}
    {stop : Except RunnerError Unit} {remaining : ℕ}
    (h : fuzzTest numOps keys rounds stop = .ok (some remaining)) :
    ∃ s, fuzzLoop numOps keys rounds (.new keys) = .finished s ∧ Reachable numOps keys s ∧
      numOps * n ≤ s.opsWaited ∧ remaining = s.history.queueLen := by
  unfold fuzzTest at h
  cases hl : fuzzLoop numOps keys rounds (.new keys) with
  | finished s =>
    obtain ⟨hreach, hwaited⟩ := fuzzLoop_reachable hl .new
    cases stop with
    | error err => simp [hl] at h
    | ok _ =>
      simp only [hl, FuzzResult.ok.injEq, Option.some.injEq] at h
      exact ⟨s, rfl, hreach, hwaited, h.symm⟩
  | running => simp [hl] at h
  | panic why => simp [hl] at h
  | err err => simp [hl] at h
  | failed why => simp [hl] at h

end MadKV.Fuzzer
