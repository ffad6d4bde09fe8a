import MadKV.Store.Transcript

/-!
# What a command line makes the client do

The client takes a line for the RPC whose words it consists of, and for nothing
else: any other line that is not blank is reported on the standard error, and no
RPC is made.
-/

namespace MadKV.Store.Client

open Runner Spec

variable {World : Type}

/-- The RPC of a call and what is printed of its reply, or the end of the process. -/
def dispatch (stub : Stub World) (call : KvCall) (world : World) : Progress World :=
  match call with
  | .put key value => doPut stub key value world
  | .swap key value => doSwap stub key value world
  | .get key => doGet stub key world
  | .scan keyStart keyEnd => doScan stub keyStart keyEnd world
  | .delete key => doDelete stub key world
  | .stop => ⟨"STOP\n", "", .exit 0, world⟩

/-- Whatever the server, the line is handled as the call. -/
def Executes (line : String) (call : KvCall) : Prop :=
  ∀ (World : Type) (stub : Stub World) (world : World),
    runLine stub line world = dispatch stub call world

/-- The line is complained about and does not reach the server. -/
def Rejects (line : String) : Prop :=
  ∀ (World : Type) (stub : Stub World) (world : World),
    (runLine stub line world).world = world ∧ (runLine stub line world).out = "" ∧
      (runLine stub line world).err ≠ "" ∧ (runLine stub line world).flow ≠ .exit 0

theorem executes_of_words {line : String} {call : KvCall}
    (h : splitBySpace line = callWords call) : Executes line call := by
  intro World stub world
  cases call <;> simp [runLine, h, callWords, dispatch]

theorem rejects_of_words {line : String} (hne : splitBySpace line ≠ [])
    (h : ∀ call, splitBySpace line ≠ callWords call) : Rejects line := by
  intro World stub world
  unfold runLine
  cases hs : splitBySpace line with
  | nil => exact absurd hs hne
  | cons command args =>
    rw [hs] at h
    -- one goal for each command and each number of arguments
    simp only
    split_ifs with hput hswap hget hdelete hscan hstop
    · subst hput
      split
      · exact absurd rfl (h (.put _ _))
      · simp [invalid, ← String.toList_inj]
    · subst hswap
      split
      · exact absurd rfl (h (.swap _ _))
      · simp [invalid, ← String.toList_inj]
    · subst hget
      split
      · exact absurd rfl (h (.get _))
      · simp [invalid, ← String.toList_inj]
    · subst hdelete
      split
      · exact absurd rfl (h (.delete _))
      · simp [invalid, ← String.toList_inj]
    · subst hscan
      split
      · exact absurd rfl (h (.scan _ _))
      · simp [invalid, ← String.toList_inj]
    · subst hstop
      split
      · exact absurd rfl (h .stop)
      · simp [invalid, ← String.toList_inj]
    · simp [← String.toList_inj]

/-! ## Telling calls apart -/

/-- A server that writes down the calls it receives. -/
def recorder : Stub (List KvCall) where
  put request log := (.ok ⟨false⟩, log ++ [.put request.key request.newValue])
  swap request log := (.ok ⟨false, ""⟩, log ++ [.swap request.key request.newValue])
  get request log := (.ok ⟨false, ""⟩, log ++ [.get request.key])
  scan request log := (.ok ⟨[]⟩, log ++ [.scan request.startKey request.endKey])
  delete request log := (.ok ⟨false⟩, log ++ [.delete request.key])

theorem dispatch_recorder (call : KvCall) :
    (dispatch recorder call []).world = (if call = .stop then [] else [call]) ∧
      ((dispatch recorder call []).flow = .exit 0 ↔ call = .stop) := by
  cases call <;> simp [dispatch, recorder, doPut, doSwap, doGet, doScan, doDelete]

/-- A line is executed as one call only. -/
theorem Executes.unique {line : String} {call call' : KvCall} (h : Executes line call)
    (h' : Executes line call') : call = call' := by
  have hsame : dispatch recorder call [] = dispatch recorder call' [] :=
    (h _ recorder []).symm.trans (h' _ recorder [])
  obtain ⟨hlog, hflow⟩ := dispatch_recorder call
  obtain ⟨hlog', hflow'⟩ := dispatch_recorder call'
  rw [← hsame] at hlog' hflow'
  by_cases hstop : call = .stop
  · rw [hstop, hflow'.mp (hflow.mpr hstop)]
  · have hstop' : call' ≠ .stop := fun hs => hstop (hflow.mp (hflow'.mpr hs))
    rw [hlog, if_neg hstop, if_neg hstop', List.singleton_inj] at hlog'
    exact hlog'

theorem Rejects.not_executes {line : String} (h : Rejects line) (call : KvCall) :
    ¬ Executes line call := by
  intro hexec
  obtain ⟨hworld, -, -, hflow⟩ := h _ recorder []
  rw [hexec _ recorder []] at hworld hflow
  obtain ⟨hlog, hexit⟩ := dispatch_recorder call
  by_cases hstop : call = .stop
  · exact hflow (hexit.mpr hstop)
  · rw [hlog, if_neg hstop] at hworld
    exact List.cons_ne_nil _ _ hworld

/-- The client executes a line as a call exactly when the line consists of the
words of the call. -/
theorem executes_iff {line : String} {call : KvCall} :
    Executes line call ↔ splitBySpace line = callWords call := by
  refine ⟨fun h => ?_, executes_of_words⟩
  by_cases hwords : ∃ call', splitBySpace line = callWords call'
  · obtain ⟨call', hcall'⟩ := hwords
    rw [h.unique (executes_of_words hcall'), hcall']
  · by_cases hne : splitBySpace line = []
    · -- a blank line does nothing at all
      have hblank := runLine_blank recorder [] hne
      obtain ⟨hlog, hexit⟩ := dispatch_recorder call
      rw [← h _ recorder [], hblank] at hlog hexit
      by_cases hstop : call = .stop
      · exact absurd (hexit.mpr hstop) (by simp)
      · simp [hstop] at hlog
    · have hrejects : Rejects line := rejects_of_words hne (not_exists.mp hwords)
      exact absurd h (hrejects.not_executes call)

/-- A line that is not blank is executed or rejected. -/
theorem rejects_iff {line : String} (hne : splitBySpace line ≠ []) :
    Rejects line ↔ ∀ call, ¬ Executes line call :=
  ⟨Rejects.not_executes, fun h =>
    rejects_of_words hne fun call hs => h call (executes_of_words hs)⟩

/-! ## Sequences of calls -/

/-- The calls one after another, until one of them ends the process. -/
def perform (stub : Stub World) : List KvCall → World → Progress World
  | [], world => ⟨"", "", .next, world⟩
  | call :: calls, world =>
    let first := dispatch stub call world
    match first.flow with
    | .exit _ => first
    | .next =>
      let later := perform stub calls first.world
      { later with out := first.out ++ later.out, err := first.err ++ later.err }

theorem runLines_executes {ls : List String} {calls : List KvCall}
    (h : List.Forall₂ Executes ls calls) (stub : Stub World) (world : World) :
    runLines stub ls world = perform stub calls world := by
  induction h generalizing world with
  | nil => rfl
  | @cons line call ls calls hline _ ih =>
    rw [runLines, perform, hline World stub world]
    cases (dispatch stub call world).flow with
    | exit code => rfl
    | next => simp only [ih]

end MadKV.Store.Client
