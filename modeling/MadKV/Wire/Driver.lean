import MadKV.Store.Transcript
import MadKV.Support.Lists
import MadKV.Wire.Framing

/-!
# Driver threads and client processes

The runner keeps a driver thread for each client process. The thread writes a
call, reads the response from what the process prints, and only then takes the
next call; the processes share one server, which others may use as well.
-/

namespace MadKV.Wire

open Runner Support Spec Store

/-- A client process, its two pipes and its driver thread. -/
structure ClientProc where
  /-- The calls written so far. -/
  calls : List KvCall
  /-- The lines the process has not read yet. -/
  stdin : List String
  /-- The contents of the store before each line the process executed. -/
  before : List KvMap
  /-- What the process printed and the driver has not read yet. -/
  stdout : List UInt8
  /-- The responses the driver has passed on. -/
  responses : List KvResp
  /-- The driver has written a call and waits for its response. -/
  waiting : Bool
  /-- The process has not exited. -/
  running : Bool
  /-- The driver has not left its loop. -/
  driving : Bool

namespace ClientProc

def new : ClientProc := ⟨[], [], [], [], [], false, true, true⟩

/-- The first half of `driver_iter`: write the call. -/
def write (p : ClientProc) (call : KvCall) : ClientProc :=
  { p with
    calls := p.calls ++ [call]
    stdin := p.stdin ++ Client.getlines call.intoWrite
    waiting := true }

/-- The second half: pass on the response that was read, or leave the loop. -/
def read (p : ClientProc) : Except RunnerError KvResp × List UInt8 → ClientProc
  | (.ok resp, rest) =>
    { p with stdout := rest, responses := p.responses ++ [resp], waiting := false }
  | (.error _, rest) => { p with stdout := rest, driving := false }

/-- The process has executed its next line. -/
def execute (p : ClientProc) (rest : List String) (m : KvMap)
    (done : Client.Progress InMemoryKVStore) : ClientProc :=
  { p with
    stdin := rest
    before := p.before ++ [m]
    stdout := p.stdout ++ bytes done.out
    running := decide (done.flow = .next) }

/-- The calls executed so far, each with the contents of the store before it. -/
def operations (p : ClientProc) : List (KvCall × KvMap) := p.calls.zip p.before

/-- What the abstract store answers to them. -/
def answers (p : ClientProc) : List KvResp := p.operations.map fun op => (apply op.2 op.1).1

end ClientProc

/-- The server's store and the client processes. -/
structure Session (ι : Type*) where
  store : InMemoryKVStore
  procs : ι → ClientProc

variable {ι : Type*} [DecidableEq ι]

def Session.update (s : Session ι) (i : ι) (p : ClientProc) : Session ι :=
  { s with procs := Function.update s.procs i p }

@[simp] theorem Session.update_self (s : Session ι) (i : ι) (p : ClientProc) :
    (s.update i p).procs i = p := by
  simp [Session.update]

/-- One step of a driver, of a process, or of somebody else. -/
inductive Step : Session ι → Session ι → Prop
  | write {s : Session ι} {i : ι} {call : KvCall} : (s.procs i).driving = true →
      (s.procs i).waiting = false → WellFormed isWhitespace call →
      Step s (s.update i ((s.procs i).write call))
  | execute {s : Session ι} {i : ι} {line : String} {rest : List String} :
      (s.procs i).running = true → (s.procs i).stdin = line :: rest →
      Step s
        { s.update i ((s.procs i).execute rest s.store.contents
            (Client.runLine serverStub line s.store)) with
          store := (Client.runLine serverStub line s.store).world }
  | read {s : Session ι} {i : ι} {fuel : ℕ} {result : Except RunnerError KvResp × List UInt8} :
      (s.procs i).driving = true → (s.procs i).waiting = true →
      KvResp.fromRead fuel (s.procs i).stdout = some result →
      Step s (s.update i ((s.procs i).read result))
  -- the process dies, or fails to reach the server
  | exit {s : Session ι} {i : ι} : Step s (s.update i { s.procs i with running := false })
  -- the call cannot be written, or nobody wants the response
  | hangUp {s : Session ι} {i : ι} : Step s (s.update i { s.procs i with driving := false })
  -- another client of the server
  | request {s : Session ι} {request : Request} : WellFormed isWhitespace request.call →
      Step s { s with store := (ServiceImpl.handle s.store request).2 }

inductive Reachable : Session ι → Prop
  | new : Reachable ⟨.empty, fun _ => .new⟩
  | step {s s' : Session ι} : Reachable s → Step s s' → Reachable s'

/-! ## Operations -/

/-- A call that is only written is no operation yet. -/
theorem ClientProc.operations_write {p : ClientProc} (h : p.before.length ≤ p.calls.length)
    (call : KvCall) : (p.write call).operations = p.operations :=
  zip_append_of_le h [call]

theorem ClientProc.operations_execute {p : ClientProc} {call : KvCall}
    (h : p.calls[p.before.length]? = some call) (rest : List String) (m : KvMap)
    (done : Client.Progress InMemoryKVStore) :
    (p.execute rest m done).operations = p.operations ++ [(call, m)] :=
  zip_concat h m

/-! ## One line per call -/

/-- The line of a call. -/
def callLine (call : KvCall) : String := String.ofList (wordsLine (callWords call))

theorem intoWrite_eq (call : KvCall) : call.intoWrite = unlines [callLine call] := by
  cases call <;> simp [KvCall.intoWrite, unlines, callLine, wordsLine, callWords,
    ← String.toList_inj]

/-- A well-formed call is written as one line. -/
theorem getlines_intoWrite {call : KvCall} (h : WellFormed isWhitespace call) :
    Client.getlines call.intoWrite = [callLine call] := by
  refine Client.getlines_input ⟨fun line hline => ?_, .inl (intoWrite_eq call)⟩
  rw [List.mem_singleton.mp hline, callLine, String.toList_ofList]
  exact newline_not_mem_line h

/-- The client process splits the line into the words of the call. -/
theorem splitBySpace_callLine {call : KvCall} (h : WellFormed isWhitespace call) :
    Client.splitBySpace (callLine call) = callWords call := by
  refine Client.splitBySpace_eq (spaced_iff.mpr ?_)
  rw [callLine, String.toList_ofList]
  refine words_intercalate (by decide) fun w hw => ?_
  obtain ⟨s, hs, rfl⟩ := List.mem_map.mp hw
  refine ⟨(h s hs).1, fun c hc => ?_⟩
  by_contra hspace
  have hwhite := Client.isWhitespace_of_isspace c (by simpa using hspace)
  rw [(h s hs).2 c hc] at hwhite
  exact absurd hwhite (by simp)

end MadKV.Wire
