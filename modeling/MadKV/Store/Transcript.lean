import MadKV.Store.Client
import MadKV.Support.Utf8

/-!
# The transcript of a client

One client, a server of its own, RPCs that succeed: whatever calls the input
spells, the output is the rendering of the abstract responses.
-/

namespace MadKV.Store.Client

open Runner Support Spec

theorem splitBySpace_eq {line : String} {ws : List String}
    (h : Spaced isspace (ws.map String.toList) line.toList) : splitBySpace line = ws := by
  rw [splitBySpace, h.words]
  simp [Function.comp_def]

theorem splitBySpace_blank {line : String} (h : Gap isspace line.toList) :
    splitBySpace line = [] := by
  rw [splitBySpace, words_gap h, List.map_nil]

theorem runLine_blank {World : Type} (stub : Stub World) {line : String} (world : World)
    (h : splitBySpace line = []) : runLine stub line world = ⟨"", "", .next, world⟩ := by
  simp [runLine, h]

theorem foundLine (found : Bool) :
    (if found then " found\n" else " not_found\n") = " " ++ foundText found ++ "\n" := by
  cases found <;> rfl

theorem printPairs_eq (pairs : List (String × String)) :
    printPairs (pairs.map fun p => ⟨p.1, p.2⟩) =
      unlines (pairs.map fun p => "  " ++ p.1 ++ " " ++ p.2) := by
  induction pairs with
  | nil => rfl
  | cons p pairs ih => simp [printPairs, unlines, ih, String.append_assoc]

/-- One command line prints the block of the abstract response and changes the
store as the abstract map changes. -/
theorem runLine_call {line : String} {call : KvCall} (h : splitBySpace line = callWords call)
    (store : InMemoryKVStore) :
    (runLine serverStub line store).out = render (apply store.contents call).1 ∧
    (runLine serverStub line store).err = "" ∧
    (runLine serverStub line store).flow = (if call = .stop then .exit 0 else .next) ∧
    (runLine serverStub line store).world.contents = (apply store.contents call).2 := by
  cases call with
  | put key value =>
    obtain ⟨hreply, hstore⟩ := ServiceImpl.put_spec store ⟨key, value⟩
    simp [runLine, h, callWords, doPut, serverStub, foundLine, apply, render, respLines, unlines,
      hreply, hstore, String.append_assoc]
  | swap key value =>
    obtain ⟨hreply, hstore⟩ := ServiceImpl.swap_spec store ⟨key, value⟩
    cases hk : store.contents.lookup key <;>
      simp [runLine, h, callWords, doSwap, serverStub, apply, render, respLines, unlines, valueText,
        hreply, hstore, hk, String.append_assoc]
  | get key =>
    have hreply := ServiceImpl.get_spec store ⟨key⟩
    cases hk : store.contents.lookup key <;>
      simp [runLine, h, callWords, doGet, serverStub, apply, render, respLines, unlines, valueText,
        hreply, hk, String.append_assoc]
  | scan keyStart keyEnd =>
    have hreply := ServiceImpl.scan_spec store ⟨keyStart, keyEnd⟩
    simp [runLine, h, callWords, doScan, serverStub, apply, render, respLines, unlines,
      unlines_append, hreply, printPairs_eq, String.append_assoc]
  | delete key =>
    obtain ⟨hreply, hstore⟩ := ServiceImpl.delete_spec store ⟨key⟩
    simp [runLine, h, callWords, doDelete, serverStub, foundLine, apply, render, respLines,
      unlines, hreply, hstore, String.append_assoc]
  | stop => simp [runLine, h, callWords, apply, render, respLines, unlines]

theorem runLines_cons_next {World : Type} {stub : Stub World} {line : String} {world : World}
    (h : (runLine stub line world).flow = .next) (rest : List String) :
    runLines stub (line :: rest) world =
      { runLines stub rest (runLine stub line world).world with
        out := (runLine stub line world).out ++
          (runLines stub rest (runLine stub line world).world).out
        err := (runLine stub line world).err ++
          (runLines stub rest (runLine stub line world).world).err } := by
  simp [runLines, h]

theorem runLines_cons_exit {World : Type} {stub : Stub World} {line : String} {world : World}
    {code : ℕ} (h : (runLine stub line world).flow = .exit code) (rest : List String) :
    runLines stub (line :: rest) world = runLine stub line world := by
  simp [runLines, h]

/-- The lines of a script are executed up to the first Stop. -/
theorem runLines_script {ls : List String} {calls : List KvCall} (h : Script isspace ls calls)
    (store : InMemoryKVStore) :
    (runLines serverStub ls store).out =
      transcript (replay store.contents (untilStop calls)) ∧
    (runLines serverStub ls store).err = "" ∧
    (runLines serverStub ls store).flow = (if .stop ∈ calls then .exit 0 else .next) ∧
    (runLines serverStub ls store).world.contents =
      contents store.contents (untilStop calls) := by
  induction h generalizing store with
  | nil => exact ⟨rfl, rfl, rfl, rfl⟩
  | blank hgap _ ih =>
    have hline := runLine_blank serverStub store (splitBySpace_blank hgap)
    rw [runLines_cons_next (by rw [hline])]
    simpa [hline] using ih store
  | @call line ls call calls hline _ ih =>
    obtain ⟨hout, herr, hflow, hworld⟩ := runLine_call (splitBySpace_eq hline) store
    by_cases hstop : call = .stop
    · subst hstop
      rw [runLines_cons_exit (by simpa using hflow)]
      simp [untilStop, replay, hout, herr, hflow, hworld]
    · rw [if_neg hstop] at hflow
      obtain ⟨ihout, iherr, ihflow, ihworld⟩ := ih (runLine serverStub line store).world
      rw [runLines_cons_next hflow, untilStop_cons_of_ne hstop]
      simp [replay, hout, herr, hworld, ihout, iherr, ihflow, ihworld, Ne.symm hstop]

theorem getlines_input {ls : List String} {stdin : String} (h : IsInput ls stdin) :
    getlines stdin = ls := by
  rw [getlines, h.lines]
  simp [Function.comp_def]

/-- What the process does with an input made of the lines of a script. -/
theorem main_script {ls : List String} {calls : List KvCall} {stdin : String}
    (hs : Script isspace ls calls) (hin : IsInput ls stdin) :
    (main serverStub stdin .empty).out = transcript (replay ∅ (untilStop calls)) ∧
    (main serverStub stdin .empty).err = "" ∧
    (main serverStub stdin .empty).flow = .exit 0 ∧
    (main serverStub stdin .empty).world.contents = contents ∅ (untilStop calls) := by
  obtain ⟨hout, herr, hflow, hworld⟩ := runLines_script hs .empty
  rw [main, getlines_input hin]
  by_cases hstop : .stop ∈ calls
  · rw [if_pos hstop] at hflow
    simp [hflow, hout, herr, hworld]
  · rw [if_neg hstop] at hflow
    simp [hflow, hout, herr, hworld]

/-- A range query lists, in byte order, exactly the pairs with a key between the bounds. -/
theorem between_bytes (m : KvMap) (lo hi : String) :
    ((between m lo hi).Pairwise fun p q => bytes p.1 < bytes q.1) ∧
    (∀ key value, (key, value) ∈ between m lo hi ↔
      m.lookup key = some value ∧ ¬ bytes key < bytes lo ∧ ¬ bytes hi < bytes key) ∧
    (bytes hi < bytes lo → between m lo hi = []) := by
  simp only [← lt_iff_bytes_lt, not_lt]
  refine ⟨between_sorted m lo hi, fun key value => mem_between, fun hlt => ?_⟩
  refine List.eq_nil_iff_forall_not_mem.mpr fun e he => ?_
  obtain ⟨_, hlo, hhi⟩ := mem_between.mp he
  exact absurd (hlo.trans hhi) hlt.not_ge

/-- The output of a client on a script is the transcript of the abstract run. -/
theorem client_transcript {ls : List String} {calls : List KvCall} {stdin : String}
    (hs : Script isspace ls calls) (hin : IsInput ls stdin) :
    (main serverStub stdin .empty).out = transcript (replay ∅ (untilStop calls)) ∧
    (main serverStub stdin .empty).err = "" ∧
    (main serverStub stdin .empty).flow = .exit 0 ∧
    (main serverStub stdin .empty).world.contents = contents ∅ (untilStop calls) ∧
    ∀ (m : KvMap) (lo hi : String),
      ((between m lo hi).Pairwise fun p q => bytes p.1 < bytes q.1) ∧
      (∀ key value, (key, value) ∈ between m lo hi ↔
        m.lookup key = some value ∧ ¬ bytes key < bytes lo ∧ ¬ bytes hi < bytes key) ∧
      (bytes hi < bytes lo → between m lo hi = []) := by
  obtain ⟨hout, herr, hflow, hworld⟩ := main_script hs hin
  exact ⟨hout, herr, hflow, hworld, between_bytes⟩

/-- A blank line, extra spaces, and a last line without its newline. -/
def sampleLines : List String := ["  PUT k\tv ", " ", "SCAN  a z", "GET k"]

theorem sampleLines_script :
    Script isspace sampleLines [.put "k" "v", .scan "a" "z", .get "k"] :=
  .call (spaced_iff.mpr (by decide)) <| .blank (by decide) <|
    .call (spaced_iff.mpr (by decide)) <| .call (spaced_iff.mpr (by decide)) .nil

theorem sampleLines_input : IsInput sampleLines "  PUT k\tv \n \nSCAN  a z\nGET k" :=
  ⟨by decide, .inr ⟨["  PUT k\tv ", " ", "SCAN  a z"], "GET k", rfl, by decide, by decide⟩⟩

theorem client_transcript_sample :
    (main serverStub "  PUT k\tv \n \nSCAN  a z\nGET k" .empty).out =
      transcript (replay ∅ [.put "k" "v", .scan "a" "z", .get "k"]) :=
  (client_transcript sampleLines_script sampleLines_input).1

end MadKV.Store.Client
