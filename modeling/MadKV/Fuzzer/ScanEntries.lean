import MadKV.Fuzzer.Retention

/-!
# Scans and the Gets they stand for

A Scan makes the same statements as one Get for each entry and one for each pool
key in its range that it leaves out. `checkScan` walks over the pool to check
them, so what an entry says of a key outside the pool is never looked at, while
`checkCall` turns down the Get that says the same.
-/

namespace MadKV.Fuzzer

open Runner

variable {n : ℕ} {keys : List (List String)}

/-- The states that `addToQueue` and `applyUpdate` lead to. -/
inductive Built (n : ℕ) (keys : List (List String)) : History n → Prop
  | new : Built n keys (History.new n keys)
  | addToQueue {h : History n} (tsCall tsResp : ℕ) (resp : KvResp) : Built n keys h →
      Built n keys (h.addToQueue tsCall tsResp resp)
  | applyUpdate {h : History n} (cidx : Fin n) (tsCall tsResp : ℕ) (key : String)
      (value : Option String) : Built n keys h →
      Built n keys (h.applyUpdate cidx tsCall tsResp key value).2

/-- No update adds a key or drops one. -/
theorem mem_applyUpdate (h : History n) (cidx : Fin n) (tsCall tsResp : ℕ) (key : String)
    (value : Option String) (k : String) :
    k ∈ (h.applyUpdate cidx tsCall tsResp key value).2.spans ↔ k ∈ h.spans := by
  unfold History.applyUpdate History.pushUpdate
  cases hkey : h.spans.lookup key with
  | none => simp
  | some keySpans =>
    have hmem : key ∈ h.spans := AList.lookup_isSome.mp (by simp [hkey])
    simp only [History.popQueue, AList.mem_insert]
    exact ⟨fun hk => hk.elim (fun he => he ▸ hmem) id, .inr⟩

theorem Built.known {h : History n} (hb : Built n keys h) (key : String) :
    key ∈ h.spans ↔ InPool keys key := by
  induction hb with
  | new => exact (Remembers.new n keys).known key
  | addToQueue _ _ _ _ ih => exact ih
  | applyUpdate cidx tsCall tsResp k value _ ih => rw [mem_applyUpdate, ih]

/-- A Scan as the Gets it stands for, each over the Scan's own interval. -/
structure ByEntries (keys : List (List String)) (spans : SpanMap n) (tsCall tsResp : ℕ)
    (keyStart keyEnd : String) (entries : List (String × String)) : Prop where
  inRange : ∀ e ∈ entries, keyStart ≤ e.1 ∧ e.1 ≤ keyEnd
  distinct : (entries.map Prod.fst).Nodup
  listed : ∀ e ∈ entries, checkCall spans ⟨tsCall, tsResp, .get e.1 (some e.2)⟩ = true
  leftOut : ∀ key, InPool keys key → keyStart ≤ key → key ≤ keyEnd →
    key ∉ entries.map Prod.fst → checkCall spans ⟨tsCall, tsResp, .get key none⟩ = true

theorem mem_iff_lookup {entries : List (String × String)} (hd : (entries.map Prod.fst).Nodup)
    {e : String × String} : e ∈ entries ↔ entries.lookup e.1 = some e.2 := by
  rw [List.lookup_eq_some_iff]
  constructor
  · intro he
    obtain ⟨before, after, rfl⟩ := List.append_of_mem he
    refine ⟨before, after, rfl, fun p hp => ?_⟩
    rw [List.map_append, List.map_cons] at hd
    have hne := (List.nodup_append.mp hd).2.2 p.1 (List.mem_map_of_mem hp) e.1 (by simp)
    simpa using Ne.symm hne
  · rintro ⟨before, after, rfl, -⟩
    simp

/-- For a pool key the Scan's own check is the Get's. -/
theorem checkCall_get {spans : SpanMap n} {key : String} {keySpans : KeySpans n}
    (h : spans.lookup key = some keySpans) (tsCall tsResp : ℕ) (value : Option String) :
    checkCall spans ⟨tsCall, tsResp, .get key value⟩ =
      checkGet keySpans tsCall tsResp value := by
  simp [checkCall, h]

theorem checkCall_get_unknown {spans : SpanMap n} {key : String} (h : key ∉ spans)
    (tsCall tsResp : ℕ) (value : Option String) :
    checkCall spans ⟨tsCall, tsResp, .get key value⟩ = false := by
  simp [checkCall, AList.lookup_eq_none.mpr h]

/-- A Scan is accepted when its shape is right and a Get of each pool key in its
range is, listed or not. -/
theorem checkCall_scan_iff {spans : SpanMap n} (hknown : ∀ key, key ∈ spans ↔ InPool keys key)
    (tsCall tsResp : ℕ) (keyStart keyEnd : String) (entries : List (String × String)) :
    checkCall spans ⟨tsCall, tsResp, .scan keyStart keyEnd entries⟩ = true ↔
      (∀ e ∈ entries, keyStart ≤ e.1 ∧ e.1 ≤ keyEnd) ∧ (entries.map Prod.fst).Nodup ∧
      ∀ key, InPool keys key → keyStart ≤ key → key ≤ keyEnd →
        checkCall spans ⟨tsCall, tsResp, .get key (entries.lookup key)⟩ = true := by
  rw [checkCall, checkScan_iff]
  refine and_congr_right fun _ => and_congr_right fun _ => forall_congr' fun key => ?_
  rw [← hknown key]
  cases hk : spans.lookup key with
  | none => simp [← AList.lookup_isSome, hk]
  | some keySpans =>
    have hmem : key ∈ spans := AList.lookup_isSome.mp (by simp [hk])
    simp [hmem, checkCall_get hk]

/-- The Gets of the entries and of the keys left out are those of all pool keys in
range, together with those of the entries outside the pool. -/
theorem byEntries_iff {spans : SpanMap n} (hknown : ∀ key, key ∈ spans ↔ InPool keys key)
    (tsCall tsResp : ℕ) (keyStart keyEnd : String) (entries : List (String × String)) :
    ByEntries keys spans tsCall tsResp keyStart keyEnd entries ↔
      checkCall spans ⟨tsCall, tsResp, .scan keyStart keyEnd entries⟩ = true ∧
      ∀ e ∈ entries, InPool keys e.1 := by
  rw [checkCall_scan_iff hknown]
  constructor
  · intro h
    have hpool : ∀ e ∈ entries, InPool keys e.1 := by
      intro e he
      by_contra hout
      have hfalse := checkCall_get_unknown (mt (hknown e.1).mp hout) tsCall tsResp (some e.2)
      rw [h.listed e he] at hfalse
      exact absurd hfalse (by simp)
    refine ⟨⟨h.inRange, h.distinct, fun key hkey hlo hhi => ?_⟩, hpool⟩
    cases hl : entries.lookup key with
    | none =>
      refine h.leftOut key hkey hlo hhi fun hmem => ?_
      obtain ⟨e, he, rfl⟩ := List.mem_map.mp hmem
      rw [(mem_iff_lookup h.distinct).mp he] at hl
      exact absurd hl (by simp)
    | some value => exact h.listed (key, value) ((mem_iff_lookup h.distinct).mpr hl)
  · rintro ⟨⟨hrange, hdistinct, hgets⟩, hpool⟩
    refine ⟨hrange, hdistinct, fun e he => ?_, fun key hkey hlo hhi hout => ?_⟩
    · have hget := hgets e.1 (hpool e he) (hrange e he).1 (hrange e he).2
      rwa [(mem_iff_lookup hdistinct).mp he] at hget
    · have hget := hgets key hkey hlo hhi
      cases hl : entries.lookup key with
      | none => rwa [hl] at hget
      | some value =>
        have hmem : (key, value) ∈ entries := (mem_iff_lookup hdistinct).mpr hl
        exact absurd (List.mem_map_of_mem hmem) hout

/-- A Scan is checked entry by entry exactly when all its entries are about keys of
the pool, or something else is wrong with it. -/
theorem scan_by_entries_iff {h : History n} (hb : Built n keys h) (tsCall tsResp : ℕ)
    (keyStart keyEnd : String) (entries : List (String × String)) :
    (checkCall h.spans ⟨tsCall, tsResp, .scan keyStart keyEnd entries⟩ = true ↔
      ByEntries keys h.spans tsCall tsResp keyStart keyEnd entries) ↔
    (∀ e ∈ entries, InPool keys e.1) ∨ ¬ (∀ e ∈ entries, keyStart ≤ e.1 ∧ e.1 ≤ keyEnd) ∨
      ¬ (entries.map Prod.fst).Nodup ∨
      ∃ key, InPool keys key ∧ keyStart ≤ key ∧ key ≤ keyEnd ∧
        checkCall h.spans ⟨tsCall, tsResp, .get key (entries.lookup key)⟩ = false := by
  rw [byEntries_iff hb.known, checkCall_scan_iff hb.known]
  have hwrong : (¬ ∀ key, InPool keys key → keyStart ≤ key → key ≤ keyEnd →
      checkCall h.spans ⟨tsCall, tsResp, .get key (entries.lookup key)⟩ = true) ↔
      ∃ key, InPool keys key ∧ keyStart ≤ key ∧ key ≤ keyEnd ∧
        checkCall h.spans ⟨tsCall, tsResp, .get key (entries.lookup key)⟩ = false := by
    simp
  rw [← hwrong]
  tauto

/-- A pool of two keys, one of which has been put and checked. -/
def afterPut : History 1 :=
  (((History.new 1 [["j", "k"]]).addToQueue 1 2 (.put "k" false)).applyUpdate ⟨0, Nat.one_pos⟩
    1 2 "k" (some "v")).2

/-- A later Scan lists the key that was put and leaves out the other one. -/
theorem scan_by_entries_iff_afterPut :
    checkCall afterPut.spans ⟨3, 4, .scan "a" "z" [("k", "v")]⟩ = true ∧
      ByEntries [["j", "k"]] afterPut.spans 3 4 "a" "z" [("k", "v")] := by
  have hbuilt : Built 1 [["j", "k"]] afterPut :=
    .applyUpdate ⟨0, Nat.one_pos⟩ 1 2 "k" (some "v") (.addToQueue 1 2 (.put "k" false) .new)
  have hscan : checkCall afterPut.spans ⟨3, 4, .scan "a" "z" [("k", "v")]⟩ = true := by decide
  have hpool : ∀ e ∈ [("k", "v")], InPool [["j", "k"]] e.1 := by simp [InPool]
  exact ⟨hscan, ((scan_by_entries_iff hbuilt 3 4 "a" "z" _).mpr (.inl hpool)).mp hscan⟩

/-- An entry about a key nobody knows of goes unnoticed. -/
theorem scan_smuggles_entry :
    ¬ ∀ (n : ℕ) (keys : List (List String)) (h : History n), Built n keys h →
      ∀ (tsCall tsResp : ℕ) (keyStart keyEnd : String) (entries : List (String × String)),
      checkCall h.spans ⟨tsCall, tsResp, .scan keyStart keyEnd entries⟩ = true ↔
        ByEntries keys h.spans tsCall tsResp keyStart keyEnd entries := by
  intro hclaim
  have hscan : checkCall (History.new 1 [["k"]]).spans ⟨1, 2, .scan "a" "z" [("x", "w")]⟩ =
      true := by decide
  have hget : checkCall (History.new 1 [["k"]]).spans ⟨1, 2, .get "x" (some "w")⟩ = false := by
    decide
  have hbyEntries := (hclaim 1 [["k"]] _ .new 1 2 "a" "z" [("x", "w")]).mp hscan
  rw [hbyEntries.listed ("x", "w") (by simp)] at hget
  exact absurd hget (by simp)

end MadKV.Fuzzer
