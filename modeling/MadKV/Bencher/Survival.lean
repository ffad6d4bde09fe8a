import MadKV.Bencher.Translation
import MadKV.Wire.RoundTrip

/-!
# Translated calls on their way to the client

The lines of the YCSB driver are translated one after another, from no inserted
keys on. Keys, bounds and values come out as single words, so that the client
reads each call back, except for a value that nothing was written for.
-/

namespace MadKV.Bencher

open Runner Support Spec Store

/-! ## Single words -/

/-- Non-empty, and free of whitespace. -/
def Word (s : String) : Prop := Token isWhitespace s.toList

instance (s : String) : Decidable (Word s) :=
  inferInstanceAs (Decidable (Token isWhitespace s.toList))

theorem word_ycsbKey {table record : String} (ht : Word table) (hr : Word record) :
    Word (ycsbKey table record) := by
  refine ⟨by simp [ycsbKey], fun c hc => ?_⟩
  simp only [ycsbKey, String.toList_append, List.mem_append] at hc
  rcases hc with (hc | hc) | hc
  · exact ht.2 c hc
  · rw [List.mem_singleton.mp hc]
    decide
  · exact hr.2 c hc

theorem word_joinSegs {fields : List String} (h : ∀ w ∈ fields, Word w) (hne : fields ≠ []) :
    Word (joinSegs fields) := by
  have hfree : ∀ c ∈ (joinSegs fields).toList, isWhitespace c = false := by
    clear hne
    induction fields with
    | nil => simp [joinSegs]
    | cons w fields ih =>
      intro c hc
      simp only [joinSegs, String.toList_append, List.mem_append] at hc
      rcases hc with (hc | hc) | hc
      · rw [List.mem_singleton.mp hc]
        decide
      · exact (h w (by simp)).2 c hc
      · exact ih (fun v hv => h v (by simp [hv])) c hc
  obtain ⟨w, rest, rfl⟩ := List.exists_cons_of_ne_nil hne
  exact ⟨by simp [joinSegs], hfree⟩

/-- Whatever a scan ends at is a word, if the inserted keys are. -/
theorem word_scanEnd {build : Build} {ikeys : InsertedKeys} {keyStart keyEnd : String}
    {segs : List String} (hkeys : ∀ key ∈ ikeys.keys, Word key)
    (h : scanEnd build ikeys keyStart segs = .ok keyEnd) : Word keyEnd := by
  rcases scanEnd_ok h with hmem | rfl
  · exact hkeys keyEnd (List.mem_of_mem_filter hmem)
  · unfold InsertedKeys.farthest
    cases hlast : ikeys.keys.getLast? with
    | none => exact (by decide : Word "zzzzzzzz")
    | some last => exact hkeys last (List.mem_of_getLast? hlast)

/-! ## What the client reads -/

/-- The line written for the call is executed as that call. -/
def ReadBack (call : KvCall) : Prop :=
  ∃ line, Client.getlines call.intoWrite = [line] ∧ Client.Executes line call

theorem command_token (call : KvCall) :
    ∃ command args, callWords call = command :: args ∧ Word command := by
  cases call <;> exact ⟨_, _, rfl, by decide⟩

/-- A call whose arguments are words is read back. -/
theorem readBack_of_args {call : KvCall} (h : ∀ w ∈ (callWords call).tail, Word w) :
    ReadBack call := by
  obtain ⟨command, args, hwords, hcommand⟩ := command_token call
  have hwf : WellFormed isWhitespace call := by
    intro w hw
    rw [hwords] at hw h
    rcases List.mem_cons.mp hw with rfl | hw
    · exact hcommand
    · exact h w hw
  exact ⟨Wire.callLine call, Wire.getlines_intoWrite hwf, Wire.executes_callLine hwf⟩

/-- No line at all is executed as a call with an empty word. -/
theorem not_readBack {call : KvCall} (h : "" ∈ callWords call) : ¬ ReadBack call := by
  rintro ⟨line, -, hexec⟩
  rw [← Client.executes_iff.mp hexec, Client.splitBySpace, List.mem_map] at h
  obtain ⟨w, hw, hempty⟩ := h
  have hnil : w = [] := by simpa [← String.toList_inj] using hempty
  exact (token_of_mem_words hw).1 hnil

/-- A line that yields a call yields one that the client reads back, and any other
line yields nothing or an error. -/
def Survives : Except Failure (Option (KvCall × String) × InsertedKeys) → Prop
  | .ok (some (call, _), _) => ReadBack call
  | .ok (none, _) => True
  | .error (.err _) => True
  | .error (.panic _) => False

/-- The lines that do worse: those with nothing behind the bracket of their value,
and, in a `dev` build, those that ask for a scan of no keys. -/
inductive Degenerate (build : Build) (ikeys : InsertedKeys) : List String → Prop
  | noValue {command table record : String} : command = "INSERT" ∨ command = "UPDATE" →
      Degenerate build ikeys [command, table, record, "["]
  | noCount {table record : String} {segs rest : List String} : build = .dev →
      ikeys.keys ≠ [] → parseYcsbScnt segs = .ok (0, rest) →
      Degenerate build ikeys ("SCAN" :: table :: record :: segs)

theorem Degenerate.not_survives {build : Build} {line : List Char} {ikeys : InsertedKeys}
    (h : Degenerate build ikeys (splitWhitespace line)) :
    ¬ Survives (interpretYcsbCall build line ikeys) := by
  generalize hwords : splitWhitespace line = segs at h
  cases h with
  | @noValue command table record hcommand =>
    rcases hcommand with rfl | rfl
    · rw [interpretYcsbCall_insert hwords]
      exact not_readBack (by simp [callWords, joinSegs])
    · rw [interpretYcsbCall_update hwords]
      exact not_readBack (by simp [callWords, joinSegs])
  | @noCount table record segs rest hbuild hne hscnt =>
    have hpanics : ∃ why, scanEnd build ikeys (ycsbKey table record) segs = .error (.panic why) :=
      scanEnd_panic_iff.mpr ⟨hbuild, hne, rest, hscnt⟩
    obtain ⟨why, hpanic⟩ := hpanics
    rw [ycsbKey] at hpanic
    have hcall : interpretYcsbCall build line ikeys = .error (.panic why) := by
      simp [interpretYcsbCall, hwords, parseYcsbKey, hpanic, Except.mapError, bind, Except.bind]
    rw [hcall]
    exact id

theorem survives_of_not_degenerate {build : Build} {line : List Char} {ikeys : InsertedKeys}
    (hkeys : ∀ key ∈ ikeys.keys, Word key)
    (h : ¬ Degenerate build ikeys (splitWhitespace line)) :
    Survives (interpretYcsbCall build line ikeys) := by
  have htranslates := interpretYcsbCall_translates build line ikeys
  have hword : ∀ w ∈ splitWhitespace line, Word w := fun w hw => token_of_mem_splitWhitespace hw
  generalize splitWhitespace line = segs at htranslates hword h
  generalize interpretYcsbCall build line ikeys = outcome at htranslates
  cases htranslates with
  | notCall => trivial
  | err err => trivial
  | @insert table record fields =>
    have hne : fields ≠ [] := by
      rintro rfl
      exact h (.noValue (.inl rfl))
    have hkey : Word (ycsbKey table record) := word_ycsbKey (hword _ (by simp)) (hword _ (by simp))
    have hvalue : Word (joinSegs fields) := word_joinSegs (fun w hw => hword w (by simp [hw])) hne
    exact readBack_of_args (by simp [callWords, hkey, hvalue])
  | @update table record fields =>
    have hne : fields ≠ [] := by
      rintro rfl
      exact h (.noValue (.inr rfl))
    have hkey : Word (ycsbKey table record) := word_ycsbKey (hword _ (by simp)) (hword _ (by simp))
    have hvalue : Word (joinSegs fields) := word_joinSegs (fun w hw => hword w (by simp [hw])) hne
    exact readBack_of_args (by simp [callWords, hkey, hvalue])
  | @read table record rest =>
    have hkey : Word (ycsbKey table record) := word_ycsbKey (hword _ (by simp)) (hword _ (by simp))
    exact readBack_of_args (by simp [callWords, hkey])
  | @scan table record keyEnd rest hend =>
    have hkey : Word (ycsbKey table record) := word_ycsbKey (hword _ (by simp)) (hword _ (by simp))
    have hkeyEnd : Word keyEnd := word_scanEnd hkeys hend
    exact readBack_of_args (by simp [callWords, hkey, hkeyEnd])
  | @panic table record rest why hpanic =>
    obtain ⟨hbuild, hne, left, hscnt⟩ := scanEnd_panic_iff.mp ⟨why, hpanic⟩
    exact h (.noCount hbuild hne hscnt)

/-! ## Runs -/

/-- Each line fed to the translation, with the keys inserted before it. A line that is
turned down inserts none, and a panic ends the run. -/
def visited (build : Build) : List (List Char) → InsertedKeys → List (List Char × InsertedKeys)
  | [], _ => []
  | line :: lines, ikeys =>
    (line, ikeys) ::
      match interpretYcsbCall build line ikeys with
      | .ok (_, ikeys) => visited build lines ikeys
      | .error (.err _) => visited build lines ikeys
      | .error (.panic _) => []

theorem mem_insert_keys {ikeys : InsertedKeys} {key k : String}
    (h : k ∈ InsertedKeys.keys (ikeys.insert key ())) : k = key ∨ k ∈ ikeys.keys := by
  obtain ⟨p, hp, rfl⟩ := List.mem_map.mp h
  rcases mem_insertEntry hp with rfl | hp
  · exact .inl rfl
  · exact .inr (List.mem_map_of_mem hp)

/-- The inserted keys stay words. -/
theorem interpretYcsbCall_words {build : Build} {line : List Char} {ikeys ikeys' : InsertedKeys}
    {call : Option (KvCall × String)} (hkeys : ∀ key ∈ ikeys.keys, Word key)
    (h : interpretYcsbCall build line ikeys = .ok (call, ikeys')) :
    ∀ key ∈ ikeys'.keys, Word key := by
  have htranslates := interpretYcsbCall_translates build line ikeys
  have hword : ∀ w ∈ splitWhitespace line, Word w := fun w hw => token_of_mem_splitWhitespace hw
  rw [h] at htranslates
  generalize splitWhitespace line = segs at htranslates hword
  cases htranslates with
  | notCall => exact hkeys
  | @insert table record fields =>
    intro key hkey
    rcases mem_insert_keys hkey with rfl | hkey
    · exact word_ycsbKey (hword _ (by simp)) (hword _ (by simp))
    · exact hkeys key hkey
  | update => exact hkeys
  | read => exact hkeys
  | scan _ => exact hkeys

theorem visited_words {build : Build} {lines : List (List Char)} {ikeys : InsertedKeys}
    (hkeys : ∀ key ∈ ikeys.keys, Word key) :
    ∀ p ∈ visited build lines ikeys, ∀ key ∈ p.2.keys, Word key := by
  induction lines generalizing ikeys with
  | nil => simp [visited]
  | cons line lines ih =>
    intro p hp
    rw [visited, List.mem_cons] at hp
    rcases hp with rfl | hp
    · exact hkeys
    · cases hcall : interpretYcsbCall build line ikeys with
      | ok result =>
        simp only [hcall] at hp
        exact ih (interpretYcsbCall_words hkeys hcall) p hp
      | error failure =>
        cases failure with
        | err err =>
          simp only [hcall] at hp
          exact ih hkeys p hp
        | panic why => simp [hcall] at hp

/-- In every run from no inserted keys on, a line is translated to a call that the
client reads back, to nothing or to an error exactly when it is not degenerate. -/
theorem ycsb_calls_survive_iff (build : Build) (lines : List (List Char)) :
    ∀ p ∈ visited build lines SortedMap.empty,
      (Survives (interpretYcsbCall build p.1 p.2) ↔
        ¬ Degenerate build p.2 (splitWhitespace p.1)) := by
  have hempty : ∀ key ∈ InsertedKeys.keys SortedMap.empty, Word key := by
    simp [InsertedKeys.keys, SortedMap.empty]
  intro p hp
  exact ⟨fun hsurvives hdegenerate => hdegenerate.not_survives hsurvives,
    survives_of_not_degenerate (visited_words hempty p hp)⟩

/-- An insertion, a scan, and an update whose line breaks off. -/
def brokenRun : List (List Char) :=
  ["INSERT t a [ field0=x ]\n".toList, "SCAN t a 1\n".toList, "UPDATE t a [\n".toList]

def insertedA : InsertedKeys := SortedMap.empty.insert "t_a" ()

theorem visited_brokenRun (build : Build) : visited build brokenRun SortedMap.empty =
    [("INSERT t a [ field0=x ]\n".toList, SortedMap.empty),
      ("SCAN t a 1\n".toList, insertedA), ("UPDATE t a [\n".toList, insertedA)] := by
  cases build <;> rfl

theorem ycsb_calls_survive_iff_brokenRun :
    Survives (interpretYcsbCall .release "SCAN t a 1\n".toList insertedA) ∧
      ¬ Survives (interpretYcsbCall .release "UPDATE t a [\n".toList insertedA) := by
  have hscan : ¬ Degenerate .release insertedA (splitWhitespace "SCAN t a 1\n".toList) := by
    have hwords : splitWhitespace "SCAN t a 1\n".toList = ["SCAN", "t", "a", "1"] := by decide
    intro hdegenerate
    generalize hsegs : splitWhitespace "SCAN t a 1\n".toList = segs at hdegenerate
    rw [hwords] at hsegs
    cases hdegenerate with
    | noValue _ => simp at hsegs
    | noCount hbuild _ _ => cases hbuild
  have hupdate : splitWhitespace "UPDATE t a [\n".toList = ["UPDATE", "t", "a", "["] := by decide
  refine ⟨(ycsb_calls_survive_iff .release brokenRun ("SCAN t a 1\n".toList, insertedA)
      (by simp [visited_brokenRun])).mpr hscan, fun hsurvives => ?_⟩
  refine (ycsb_calls_survive_iff .release brokenRun ("UPDATE t a [\n".toList, insertedA)
    (by simp [visited_brokenRun])).mp hsurvives ?_
  rw [hupdate]
  exact .noValue (.inr rfl)

/-- A line that breaks off behind the bracket becomes a Swap with an empty value, and
the client gives up on it. -/
theorem broken_update_rejected :
    (¬ ∀ (build : Build) (lines : List (List Char)), ∀ p ∈ visited build lines SortedMap.empty,
      Survives (interpretYcsbCall build p.1 p.2)) ∧
    (∀ build, interpretYcsbCall build "UPDATE t a [\n".toList insertedA =
      .ok (some (.swap "t_a" "", "UPDATE"), insertedA)) ∧
    Client.getlines (KvCall.swap "t_a" "").intoWrite = ["SWAP t_a "] ∧
    Client.Rejects "SWAP t_a " := by
  have hcall : ∀ build, interpretYcsbCall build "UPDATE t a [\n".toList insertedA =
      .ok (some (.swap "t_a" "", "UPDATE"), insertedA) := by
    intro build
    cases build <;> rfl
  have hwords : Client.splitBySpace "SWAP t_a " = ["SWAP", "t_a"] := by decide
  refine ⟨fun hclaim => ?_, hcall, by decide, ?_⟩
  · have hsurvives := hclaim .release brokenRun ("UPDATE t a [\n".toList, insertedA)
      (by simp [visited_brokenRun])
    rw [hcall] at hsurvives
    exact not_readBack (by simp [callWords]) hsurvives
  · refine Client.rejects_of_words (by simp [hwords]) fun call => ?_
    rw [hwords]
    cases call <;> simp [callWords]

end MadKV.Bencher
