import MadKV.Fuzzer.History
import Mathlib.Data.String.Basic

/-!
# What the checks accept

Every check is restated without its loops. A list of spans offers a value when
one of its updates began early enough, carries a fitting value, and is followed
by no update that was over before the call. A response is then accepted exactly
when the lists offer all that it says.
-/

namespace MadKV.Fuzzer

open Runner Support

variable {n : ℕ}

/-- Spans of one client in issue order, none overlapping the next. -/
abbrev Chained (spans : List UpdateSpan) : Prop :=
  IsChain UpdateSpan.tsCall UpdateSpan.tsResp spans

/-- Some update of the list can explain the value seen by an operation running
from `tsCall` to `tsResp`. -/
def Offers (spans : List UpdateSpan) (tsCall tsResp : ℕ) (explains : Option String → Bool) :
    Prop :=
  ∃ w ∈ spans, w.tsCall < tsResp ∧ explains w.value = true ∧
    ∀ w' ∈ spans, w.tsCall < w'.tsCall → ¬ w'.tsResp < tsCall

/-- Acceptance of a response, given the known keys and what is on offer for each. -/
def Accepts (known : String → Prop) (offers : String → (Option String → Bool) → Prop) :
    KvResp → Prop
  | .put key found => known key ∧ offers key fun value => value.isSome == found
  | .swap key oldValue => known key ∧ offers key fun value => value == oldValue
  | .get key value => known key ∧ offers key fun v => v == value
  | .scan keyStart keyEnd entries =>
    (∀ e ∈ entries, keyStart ≤ e.1 ∧ e.1 ≤ keyEnd) ∧ (entries.map Prod.fst).Nodup ∧
      ∀ key, known key → keyStart ≤ key → key ≤ keyEnd →
        offers key fun value => value == entries.lookup key
  | .delete key found => known key ∧ offers key fun value => value.isSome == found
  | .stop => False

theorem Accepts.congr {known known' : String → Prop}
    {offers offers' : String → (Option String → Bool) → Prop}
    (hknown : ∀ key, known key ↔ known' key)
    (hoffers : ∀ key, known key → ∀ explains, offers key explains ↔ offers' key explains)
    (resp : KvResp) : Accepts known offers resp ↔ Accepts known' offers' resp := by
  have hpoint : ∀ key explains,
      (known key ∧ offers key explains ↔ known' key ∧ offers' key explains) := by
    intro key explains
    rw [← hknown key]
    exact and_congr_right fun hk => hoffers key hk explains
  cases resp with
  | put key found => exact hpoint key _
  | swap key oldValue => exact hpoint key _
  | get key value => exact hpoint key _
  | delete key found => exact hpoint key _
  | stop => exact Iff.rfl
  | scan keyStart keyEnd entries =>
    refine and_congr_right fun _ => and_congr_right fun _ => forall_congr' fun key => ?_
    rw [← hknown key]
    exact imp_congr_right fun hk => imp_congr_right fun _ => imp_congr_right fun _ =>
      hoffers key hk _

theorem checkSpans_iff {keySpans : KeySpans n} (h : ∀ d, Chained (keySpans d))
    (explains : Option String → Bool) (tsCall tsResp : ℕ) :
    checkSpans explains keySpans tsCall tsResp = true ↔
      ∃ d, Offers (keySpans d) tsCall tsResp explains := by
  have hclient : ∀ d, searchUntil (fun span => decide (span.tsCall < tsResp) &&
        explains span.value) (fun span => decide (span.tsResp < tsCall)) (keySpans d).reverse =
          true ↔ Offers (keySpans d) tsCall tsResp explains := by
    intro d
    rw [searchUntil_reverse_iff (h d)]
    simp only [Offers, Bool.and_eq_true, decide_eq_true_eq, and_assoc]
  simp only [checkSpans, List.any_eq_true, List.mem_finRange, true_and, hclient]

theorem entriesMap_eq_some {keyStart keyEnd : String} :
    ∀ {entries : List (String × String)} {seen result : AList fun _ : String => String},
      entriesMap keyStart keyEnd entries seen = some result →
        (∀ e ∈ entries, keyStart ≤ e.1 ∧ e.1 ≤ keyEnd) ∧ (entries.map Prod.fst).Nodup ∧
        (∀ e ∈ entries, e.1 ∉ seen) ∧
        ∀ key, result.lookup key = (entries.lookup key).or (seen.lookup key) := by
  intro entries
  induction entries with
  | nil =>
    intro seen result h
    cases h
    simp
  | cons e entries ih =>
    intro seen result h
    obtain ⟨key, value⟩ := e
    simp only [entriesMap] at h
    split_ifs at h with hrange hseen
    obtain ⟨hin, hnodup, hfresh, hlookup⟩ := ih h
    have hkey : ∀ e ∈ entries, e.1 ≠ key ∧ e.1 ∉ seen := by
      intro e he
      simpa [AList.mem_insert] using hfresh e he
    refine ⟨?_, ?_, ?_, ?_⟩
    · intro e he
      rcases List.mem_cons.mp he with rfl | he
      · obtain ⟨hlo, hhi⟩ := not_or.mp hrange
        exact ⟨not_lt.mp hlo, not_lt.mp hhi⟩
      · exact hin e he
    · simp only [List.map_cons, List.nodup_cons]
      refine ⟨?_, hnodup⟩
      intro hmem
      obtain ⟨e, he, rfl⟩ := List.mem_map.mp hmem
      exact (hkey e he).1 rfl
    · intro e he
      rcases List.mem_cons.mp he with rfl | he
      · exact hseen
      · exact (hkey e he).2
    · intro k
      rw [hlookup k]
      by_cases hk : k = key
      · subst hk
        have hnone : entries.lookup k = none := by
          rw [List.lookup_eq_none_iff]
          intro e he
          simpa using fun h => (hkey e he).1 h.symm
        simp [hnone, AList.lookup_insert]
      · have hb : (k == key) = false := by simpa using hk
        simp [AList.lookup_insert_ne hk, List.lookup_cons, hb]

theorem entriesMap_isSome {keyStart keyEnd : String} :
    ∀ {entries : List (String × String)} (seen : AList fun _ : String => String),
      (∀ e ∈ entries, keyStart ≤ e.1 ∧ e.1 ≤ keyEnd) → (entries.map Prod.fst).Nodup →
        (∀ e ∈ entries, e.1 ∉ seen) →
          ∃ result, entriesMap keyStart keyEnd entries seen = some result := by
  intro entries
  induction entries with
  | nil =>
    intro seen _ _ _
    exact ⟨seen, rfl⟩
  | cons e entries ih =>
    intro seen hin hnodup hfresh
    obtain ⟨key, value⟩ := e
    simp only [List.map_cons, List.nodup_cons] at hnodup
    have hrange := hin (key, value) (by simp)
    have hseen := hfresh (key, value) (by simp)
    obtain ⟨result, hr⟩ := ih (seen.insert key value)
      (fun e he => hin e (by simp [he])) hnodup.2 (by
        intro e he
        rw [AList.mem_insert]
        rintro (h | h)
        · exact hnodup.1 (List.mem_map.mpr ⟨e, he, h⟩)
        · exact hfresh e (by simp [he]) h)
    refine ⟨result, ?_⟩
    rw [entriesMap, if_neg (not_or.mpr ⟨not_lt.mpr hrange.1, not_lt.mpr hrange.2⟩), if_neg hseen]
    exact hr

theorem checkScan_iff (spans : SpanMap n) (tsCall tsResp : ℕ) (keyStart keyEnd : String)
    (entries : List (String × String)) :
    checkScan spans tsCall tsResp keyStart keyEnd entries = true ↔
      (∀ e ∈ entries, keyStart ≤ e.1 ∧ e.1 ≤ keyEnd) ∧ (entries.map Prod.fst).Nodup ∧
      ∀ key keySpans, spans.lookup key = some keySpans → keyStart ≤ key → key ≤ keyEnd →
        checkGet keySpans tsCall tsResp (entries.lookup key) = true := by
  have hloop : ∀ seen : AList fun _ : String => String,
      (∀ key, seen.lookup key = entries.lookup key) →
        ((spans.entries.all fun e => !(decide (keyStart ≤ e.1) && decide (e.1 ≤ keyEnd) &&
          !checkGet e.2 tsCall tsResp (seen.lookup e.1))) = true ↔
        ∀ key keySpans, spans.lookup key = some keySpans → keyStart ≤ key → key ≤ keyEnd →
          checkGet keySpans tsCall tsResp (entries.lookup key) = true) := by
    intro seen hseen
    simp only [List.all_eq_true, hseen, Bool.not_eq_true', Bool.and_eq_false_iff,
      decide_eq_false_iff_not, Bool.not_eq_false']
    constructor
    · intro h key keySpans hk hlo hhi
      have := h ⟨key, keySpans⟩ (AList.mem_lookup_iff.mp hk)
      simpa [hlo, hhi] using this
    · rintro h ⟨key, keySpans⟩ hmem
      have := h key keySpans (AList.mem_lookup_iff.mpr hmem)
      tauto
  constructor
  · intro h
    cases hm : entriesMap keyStart keyEnd entries ∅ with
    | none => simp [checkScan, hm] at h
    | some seen =>
      obtain ⟨hin, hnodup, _, hlookup⟩ := entriesMap_eq_some hm
      have hseen : ∀ key, seen.lookup key = entries.lookup key := by simpa using hlookup
      simp only [checkScan, hm] at h
      exact ⟨hin, hnodup, (hloop seen hseen).mp h⟩
  · rintro ⟨hin, hnodup, hkeys⟩
    obtain ⟨seen, hm⟩ := entriesMap_isSome ∅ hin hnodup (by simp)
    have hseen : ∀ key, seen.lookup key = entries.lookup key := by
      simpa using (entriesMap_eq_some hm).2.2.2
    simp only [checkScan, hm]
    exact (hloop seen hseen).mpr hkeys

/-- The lists of a map hold chains only. -/
def AllChained (spans : SpanMap n) : Prop :=
  ∀ key keySpans, spans.lookup key = some keySpans → ∀ d, Chained (keySpans d)

/-- What the lists of a map offer for one key. -/
def MapOffers (spans : SpanMap n) (tsCall tsResp : ℕ) (key : String)
    (explains : Option String → Bool) : Prop :=
  ∃ keySpans, spans.lookup key = some keySpans ∧
    ∃ d, Offers (keySpans d) tsCall tsResp explains

theorem mapOffers_of_lookup {spans : SpanMap n} {key : String} {keySpans : KeySpans n}
    (h : spans.lookup key = some keySpans) (tsCall tsResp : ℕ)
    (explains : Option String → Bool) :
    MapOffers spans tsCall tsResp key explains ↔
      ∃ d, Offers (keySpans d) tsCall tsResp explains := by
  simp [MapOffers, h]

/-- A check of one key fails when the key is unknown, and otherwise searches its lists. -/
theorem pointCheck_iff {spans : SpanMap n} (h : AllChained spans) {key : String}
    {explains : Option String → Bool} {tsCall tsResp : ℕ} {check : Bool}
    (hsome : ∀ keySpans, spans.lookup key = some keySpans →
      check = checkSpans explains keySpans tsCall tsResp)
    (hnone : spans.lookup key = none → check = false) :
    check = true ↔ key ∈ spans ∧ MapOffers spans tsCall tsResp key explains := by
  cases hk : spans.lookup key with
  | none => simp [hnone hk, MapOffers, hk]
  | some keySpans =>
    have hmem : key ∈ spans := AList.lookup_isSome.mp (by simp [hk])
    rw [hsome keySpans hk, checkSpans_iff (h key keySpans hk), mapOffers_of_lookup hk]
    simp [hmem]

theorem checkCall_iff {spans : SpanMap n} (h : AllChained spans) (entry : QueuedSpan) :
    checkCall spans entry = true ↔
      Accepts (· ∈ spans) (MapOffers spans entry.tsCall entry.tsResp) entry.resp := by
  obtain ⟨tsCall, tsResp, resp⟩ := entry
  cases resp with
  | put key found =>
    exact pointCheck_iff h (fun keySpans hk => by simp only [checkCall, hk, checkPut])
      fun hk => by simp only [checkCall, hk]
  | swap key oldValue =>
    exact pointCheck_iff h (fun keySpans hk => by simp only [checkCall, hk, checkSwap])
      fun hk => by simp only [checkCall, hk]
  | get key value =>
    exact pointCheck_iff h (fun keySpans hk => by simp only [checkCall, hk, checkGet])
      fun hk => by simp only [checkCall, hk]
  | delete key found =>
    exact pointCheck_iff h (fun keySpans hk => by simp only [checkCall, hk, checkDelete])
      fun hk => by simp only [checkCall, hk]
  | stop => simp [checkCall, Accepts]
  | scan keyStart keyEnd entries =>
    simp only [checkCall, checkScan_iff, Accepts]
    refine and_congr_right fun _ => and_congr_right fun _ => forall_congr' fun key => ?_
    cases hk : spans.lookup key with
    | none => simp [← AList.lookup_isSome, hk]
    | some keySpans =>
      have hmem : key ∈ spans := AList.lookup_isSome.mp (by simp [hk])
      simp only [Option.some.injEq, forall_eq', hmem, true_implies, mapOffers_of_lookup hk]
      refine imp_congr_right fun _ => imp_congr_right fun _ => ?_
      exact checkSpans_iff (h key keySpans hk) _ _ _

end MadKV.Fuzzer
