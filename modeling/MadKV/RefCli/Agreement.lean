import MadKV.RefCli.Main
import MadKV.Store.Transcript

/-!
# The reference client and the real one

Both are run on the same script. The reference client takes the end of a Scan
range to be exclusive and panics on a reversed range, the store takes the end to
be inclusive: the two agree exactly when no Scan can tell.
-/

namespace MadKV.RefCli

open Runner Support Spec Store

/-! ## One call -/

theorem writeResponse_eq (resp : KvResp) : writeResponse resp = render resp := by
  have hentries : ∀ entries : List (String × String),
      writeEntries entries = unlines (entries.map fun e => "  " ++ e.1 ++ " " ++ e.2) := by
    intro entries
    induction entries with
    | nil => rfl
    | cons e entries ih => simp [writeEntries, unlines, ih]
  cases resp with
  | swap key oldValue =>
    cases oldValue <;> simp [writeResponse, render, respLines, unlines, valueText]
  | get key value => cases value <;> simp [writeResponse, render, respLines, unlines, valueText]
  | scan keyStart keyEnd entries =>
    simp [writeResponse, render, respLines, unlines, unlines_append, hentries, String.append_assoc]
  | _ => simp [writeResponse, render, respLines, unlines, foundText]

/-- Calls other than Scan are handled as the abstract map answers. -/
theorem handleKvCall_spec {state : State} (hchecks : state.checks = true) {call : KvCall}
    (h : ∀ lo hi, call ≠ .scan lo hi) :
    ∃ state', handleKvCall call state = some ((apply state.map.toFinmap call).1, state') ∧
      state'.map.toFinmap = (apply state.map.toFinmap call).2 ∧ state'.checks = true := by
  cases call with
  | scan lo hi => exact absurd rfl (h lo hi)
  | _ => simp [handleKvCall, apply, State.find?, State.insert, State.erase, hchecks]

theorem range?_eq {state : State} (hchecks : state.checks = true) (lo hi : String) :
    state.range? lo hi = state.map.range? lo hi := if_pos hchecks

theorem parseInputCall_eq {line : List Char} {call : KvCall}
    (h : splitWhitespace line = callWords call) : parseInputCall line = .ok call := by
  cases call <;> simp [parseInputCall, h, callWords, expectNextSeg] <;> rfl

/-! ## One round of the loop -/

/-- One round reads one command line and handles its call. -/
theorem mainLoop_call {fuel : ℕ} {ls : List String} {call : KvCall} {calls : List KvCall}
    (h : Script isWhitespace ls (call :: calls)) (hnl : ∀ line ∈ ls, '\n' ∉ line.toList)
    (hfuel : ls.length ≤ fuel) (state : State) :
    ∃ rest : List String, Script isWhitespace rest calls ∧ (∀ line ∈ rest, '\n' ∉ line.toList) ∧
      rest.length < ls.length ∧
      mainLoop (fuel + 1) (bytes (unlines ls)) state =
        match handleKvCall call state with
        | none => ⟨"", .panic⟩
        | some (resp, state') =>
          if resp = .stop then ⟨writeResponse resp, .ok⟩
          else { mainLoop fuel (bytes (unlines rest)) state' with
            out := writeResponse resp ++ (mainLoop fuel (bytes (unlines rest)) state').out } := by
  obtain ⟨blanks, line, rest, rfl, hblanks, hline, hrest⟩ := h.cons_calls
  refine ⟨rest, hrest, fun l hl => hnl l (by simp [hl]), by simp; omega, ?_⟩
  have htext : bytes (unlines (blanks ++ line :: rest)) =
      utf8 (joinLines '\n' (blanks.map String.toList) ++
        (line.toList ++ '\n' :: (unlines rest).toList)) := by
    simp [bytes, toList_unlines]
  have hnonblank : ¬ Gap isWhitespace line.toList := by
    intro hgap
    have hnil := hline.words.symm.trans (words_gap hgap)
    cases call <;> simp [callWords] at hnil
  have hblanks' : ∀ b ∈ blanks.map String.toList, Gap isWhitespace b ∧ '\n' ∉ b :=
    List.forall_mem_map.mpr fun b hb => ⟨hblanks b hb, hnl b (by simp [hb])⟩
  have hfuel' : (blanks.map String.toList).length < fuel + 1 := by
    simp at hfuel ⊢
    omega
  obtain ⟨gap, size, hgap, hread⟩ :=
    readNonBlank_text gap_nil hblanks' (hnl line (by simp)) hnonblank hfuel'
  have hsegs : splitWhitespace (trim isWhitespace (gap ++ (line.toList ++ ['\n']))) =
      callWords call := by
    rw [splitWhitespace, words_trim, words_gap_append hgap, words_append_gap (by decide),
      hline.words]
    simp [Function.comp_def]
  rw [mainLoop, htext, hread]
  simp only [parseInputCall_eq hsegs]
  rfl

theorem mainLoop_blanks {fuel : ℕ} {ls : List String}
    (h : ∀ line ∈ ls, Gap isWhitespace line.toList) (hnl : ∀ line ∈ ls, '\n' ∉ line.toList)
    (state : State) :
    mainLoop fuel (bytes (unlines ls)) state = ⟨"", .running⟩ := by
  cases fuel with
  | zero => rfl
  | succ fuel =>
    have hread : readNonBlank (fuel + 1) (bytes (unlines ls)) [] = none := by
      rw [bytes, toList_unlines]
      refine readNonBlank_blanks gap_nil ?_
      exact List.forall_mem_map.mpr fun line hl => ⟨h line hl, hnl line hl⟩
    rw [mainLoop, hread]

/-! ## Whole runs -/

/-- No Scan met while executing the calls is reversed or ends at a key of the map. -/
def ScansAgree (m : KvMap) : List KvCall → Prop
  | [] => True
  | call :: calls =>
    (∀ lo hi, call = .scan lo hi → lo ≤ hi ∧ hi ∉ m) ∧ ScansAgree (apply m call).2 calls

/-- The transcript of a Scan that leaves out the last key cannot be continued to
the one that lists it. -/
theorem render_scan_ne (lo hi : String) (entries : List (String × String)) (e : String × String)
    (a b : String) :
    render (.scan lo hi entries) ++ a ≠ render (.scan lo hi (entries ++ [e])) ++ b := by
  let shared := unlines (("SCAN " ++ lo ++ " " ++ hi ++ " BEGIN") ::
    entries.map fun e => "  " ++ e.1 ++ " " ++ e.2)
  have hleft : render (.scan lo hi entries) ++ a = shared ++ ("SCAN END\n" ++ a) := by
    simp [render, respLines, shared, unlines, unlines_append, String.append_assoc]
  have hright : render (.scan lo hi (entries ++ [e])) ++ b =
      shared ++ ("  " ++ (e.1 ++ (" " ++ (e.2 ++ ("\nSCAN END\n" ++ b))))) := by
    simp [render, respLines, shared, unlines, unlines_append, String.append_assoc]
  rw [hleft, hright, ne_eq, String.append_right_inj]
  intro h
  have hhead := congrArg (fun s => s.toList.head?) h
  simp at hhead

theorem mainLoop_agrees_iff {fuel : ℕ} {ls : List String} {calls : List KvCall}
    (h : Script isWhitespace ls calls) (hnl : ∀ line ∈ ls, '\n' ∉ line.toList)
    (hfuel : ls.length < fuel) {state : State} (hchecks : state.checks = true) :
    ((mainLoop fuel (bytes (unlines ls)) state).ending ≠ .panic ∧
      (mainLoop fuel (bytes (unlines ls)) state).out =
        transcript (replay state.map.toFinmap (untilStop calls))) ↔
      ScansAgree state.map.toFinmap (untilStop calls) := by
  induction calls generalizing fuel ls state with
  | nil => simp [mainLoop_blanks h.nil_calls hnl, untilStop, replay, ScansAgree]
  | cons call calls ih =>
    obtain ⟨fuel, rfl⟩ : ∃ k, fuel = k + 1 := ⟨fuel - 1, by omega⟩
    obtain ⟨rest, hrest, hnl', hshort, hloop⟩ := mainLoop_call h hnl (Nat.le_of_lt_succ hfuel) state
    have hfuel' : rest.length < fuel := by omega
    have hlater : ∀ state' : State, state'.checks = true →
        (((mainLoop fuel (bytes (unlines rest)) state').ending ≠ .panic ∧
          (mainLoop fuel (bytes (unlines rest)) state').out =
            transcript (replay state'.map.toFinmap (untilStop calls))) ↔
          ScansAgree state'.map.toFinmap (untilStop calls)) :=
      fun state' hchecks' => ih hrest hnl' hfuel' hchecks'
    rw [hloop]
    by_cases hstop : call = .stop
    · subst hstop
      simp [handleKvCall, untilStop, replay, ScansAgree, apply, writeResponse_eq]
    rw [untilStop_cons_of_ne hstop]
    by_cases hscan : ∃ lo hi, call = .scan lo hi
    · obtain ⟨lo, hi, rfl⟩ := hscan
      simp only [ScansAgree, replay, transcript_cons, KvCall.scan.injEq, and_imp,
        forall_apply_eq_imp_iff, forall_eq', apply]
      rcases lt_or_ge hi lo with hlt | hle
      · have hnone : state.range? lo hi = none := (range?_eq hchecks lo hi).trans (if_pos hlt)
        simp [handleKvCall, hnone, hlt.not_ge]
      have hrange := (range?_eq hchecks lo hi).trans (state.map.range?_of_le hle)
      by_cases hmem : hi ∈ state.map.toFinmap
      · obtain ⟨value, hv⟩ := Finmap.mem_iff.mp hmem
        have hbetween := between_of_lookup hv hle
        generalize (between state.map.toFinmap lo hi).filter (fun p => decide (p.1 < hi)) = short
          at hrange hbetween
        have hne := render_scan_ne lo hi short (hi, value)
        rw [← hbetween] at hne
        simp [handleKvCall, hrange, writeResponse_eq, hmem, hne]
      · rw [between_of_not_mem lo hmem] at hrange
        simpa [handleKvCall, hrange, writeResponse_eq, hmem, hle, String.append_right_inj] using
          hlater state hchecks
    · have hne : ∀ lo hi, call ≠ .scan lo hi := fun lo hi hc => hscan ⟨lo, hi, hc⟩
      obtain ⟨state', hhandle, hstate', hchecks'⟩ := handleKvCall_spec hchecks hne
      have hresp : (apply state.map.toFinmap call).1 ≠ .stop := by
        cases call <;> simp_all [apply]
      rw [hhandle]
      simp only [hresp, ↓reduceIte, writeResponse_eq, replay, transcript_cons,
        String.append_right_inj, ScansAgree, ← hstate',
        hlater state' hchecks']
      simp [hne]

/-- On a script, the reference client does not panic and prints what the real
client prints exactly when no Scan can tell the two apart. -/
theorem refcli_agrees_iff {ls : List String} {calls : List KvCall}
    (hs : Script Client.isspace ls calls) (hnl : ∀ line ∈ ls, '\n' ∉ line.toList)
    (hwf : ∀ call ∈ calls, WellFormed isWhitespace call) :
    (∃ enough, ∀ fuel ≥ enough, (main fuel (bytes (unlines ls))).ending ≠ .panic ∧
      (main fuel (bytes (unlines ls))).out =
        (Client.main serverStub (unlines ls) .empty).out) ↔
      ScansAgree ∅ (untilStop calls) := by
  have hscript := hs.mono Client.isWhitespace_of_isspace hwf
  have hclient := (Client.main_script hs ⟨hnl, .inl rfl⟩).1
  have hloop : ∀ fuel > ls.length, _ := fun fuel hfuel =>
    mainLoop_agrees_iff hscript hnl hfuel (rfl : (State.new true).checks = true)
  rw [hclient]
  constructor
  · rintro ⟨enough, h⟩
    exact (hloop (max enough (ls.length + 1)) (by omega)).mp (h _ (le_max_left _ _))
  · intro h
    exact ⟨ls.length + 1, fun fuel hfuel => (hloop fuel hfuel).mpr h⟩

/-- A Scan between keys, and one without entries. -/
def harmlessScans : List String := ["PUT k v", "SCAN a z", "SCAN b b", "STOP"]

theorem refcli_agrees_harmlessScans :
    ∃ enough, ∀ fuel ≥ enough, (main fuel (bytes (unlines harmlessScans))).ending ≠ .panic ∧
      (main fuel (bytes (unlines harmlessScans))).out =
        (Client.main serverStub (unlines harmlessScans) .empty).out := by
  have hs : Script Client.isspace harmlessScans
      [.put "k" "v", .scan "a" "z", .scan "b" "b", .stop] :=
    .call (spaced_iff.mpr (by decide)) <| .call (spaced_iff.mpr (by decide)) <|
      .call (spaced_iff.mpr (by decide)) <| .call (spaced_iff.mpr (by decide)) .nil
  refine (refcli_agrees_iff hs (by decide) ?_).mpr ?_
  · simp only [List.mem_cons, List.not_mem_nil, or_false, forall_eq_or_imp, forall_eq, WellFormed]
    decide
  · simp [untilStop, ScansAgree, apply]
    decide

/-- A Scan that ends at a key. -/
def scanToKey : List String := ["PUT k v", "SCAN a k"]

theorem refcli_disagrees :
    ¬ ∀ (ls : List String) (calls : List KvCall), Script Client.isspace ls calls →
      (∀ line ∈ ls, '\n' ∉ line.toList) → (∀ call ∈ calls, WellFormed isWhitespace call) →
      ∃ enough, ∀ fuel ≥ enough, (main fuel (bytes (unlines ls))).ending ≠ .panic ∧
        (main fuel (bytes (unlines ls))).out =
          (Client.main serverStub (unlines ls) .empty).out := by
  intro hclaim
  have hs : Script Client.isspace scanToKey [.put "k" "v", .scan "a" "k"] :=
    .call (spaced_iff.mpr (by decide)) <| .call (spaced_iff.mpr (by decide)) .nil
  have hwf : ∀ call ∈ [KvCall.put "k" "v", .scan "a" "k"], WellFormed isWhitespace call := by
    simp only [List.mem_cons, List.not_mem_nil, or_false, forall_eq_or_imp, forall_eq, WellFormed]
    decide
  obtain ⟨enough, h⟩ := hclaim scanToKey _ hs (by decide) hwf
  obtain ⟨hpanic, hout⟩ := h (max enough 3) (le_max_left _ _)
  rw [(Client.main_script hs ⟨by decide, .inl rfl⟩).1] at hout
  have hscans := (mainLoop_agrees_iff (hs.mono Client.isWhitespace_of_isspace hwf) (by decide)
    (show scanToKey.length < max enough 3 by simp [scanToKey])
      (rfl : (State.new true).checks = true)).mp ⟨hpanic, hout⟩
  simp [untilStop, ScansAgree, apply, State.new] at hscans

end MadKV.RefCli
