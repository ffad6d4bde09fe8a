import MadKV.Fuzzer.LoopInvariant
import MadKV.Fuzzer.ScanEntries

/-!
# What trimming leaves

Each list of an updated key is cut down to the part that begins at its newest
span over before `safeBefore`: before every response still queued and before
every call still to come. The states are those that calls meeting the assertions
lead to; the states of the loop are among them.
-/

namespace MadKV.Fuzzer

open Runner Support

variable {n : ℕ} {keys : List (List String)}

/-- The states that calls which meet the assertions lead to. An update ends no
earlier than it begins, as the response that was queued with its timestamps does. -/
inductive Asserted (n : ℕ) (keys : List (List String)) : History n → Prop
  | new : Asserted n keys (History.new n keys)
  | addToQueue {h h' : History n} {tsCall tsResp : ℕ} {resp : KvResp} : Asserted n keys h →
      h.addToQueueChecked tsCall tsResp resp = .ok h' → Asserted n keys h'
  | applyUpdate {h h' : History n} {cidx : Fin n} {tsCall tsResp : ℕ} {key : String}
      {value : Option String} {complaint : Option (Option KvResp)} : Asserted n keys h →
      tsCall ≤ tsResp →
      h.applyUpdateChecked cidx tsCall tsResp key value = .ok (complaint, h') → Asserted n keys h'

/-- The lists of a key once the update is pushed. -/
def pushSpan (keySpans : KeySpans n) (cidx : Fin n) (span : UpdateSpan) : KeySpans n :=
  Function.update keySpans cidx (keySpans cidx ++ [span])

/-- The smaller of what is to come and what is queued, after the update. -/
def History.safeBefore (h : History n) (cidx : Fin n) (tsResp : ℕ) : ℕ :=
  min (minOf cidx (Function.update h.maxtr cidx tsResp)) (minQueued h.queue)

theorem addToQueue_of_checked {h h' : History n} {tsCall tsResp : ℕ} {resp : KvResp}
    (hq : h.addToQueueChecked tsCall tsResp resp = .ok h') :
    h' = h.addToQueue tsCall tsResp resp := by
  unfold History.addToQueueChecked at hq
  split_ifs at hq
  cases hq
  rfl

/-- The assertion, and the unchecked update. -/
theorem applyUpdate_of_checked {h h' : History n} {cidx : Fin n} {tsCall tsResp : ℕ} {key : String}
    {value : Option String} {complaint : Option (Option KvResp)}
    (hu : h.applyUpdateChecked cidx tsCall tsResp key value = .ok (complaint, h')) :
    h' = (h.applyUpdate cidx tsCall tsResp key value).2 ∧
      ∀ keySpans, h.spans.lookup key = some keySpans →
        ∀ back ∈ (keySpans cidx).getLast?, back.tsResp < tsCall := by
  unfold History.applyUpdateChecked at hu
  cases hk : h.spans.lookup key with
  | none =>
    simp only [hk, Except.ok.injEq] at hu
    exact ⟨by rw [hu], by simp⟩
  | some keySpans =>
    simp only [hk] at hu
    split_ifs at hu with hback
    refine ⟨by rw [Except.ok.inj hu], fun ks hks => ?_⟩
    cases hks
    exact hback

/-- Over before time `m`. -/
def UpdateSpan.overBefore (m : ℕ) (span : UpdateSpan) : Bool := decide (span.tsResp < m)

/-- Trimming a chain leaves it from its newest span below both bounds on. -/
theorem trimSpans_eq {spans : List UpdateSpan} (h : Chained spans) (minComingTs minQueuedTs : ℕ) :
    trimSpans minComingTs minQueuedTs spans =
      fromNewest (UpdateSpan.overBefore (min minComingTs minQueuedTs)) spans := by
  have hboth : UpdateSpan.overBefore (min minComingTs minQueuedTs) =
      fun span => decide (span.tsResp < minComingTs) && decide (span.tsResp < minQueuedTs) := by
    funext span
    simp [UpdateSpan.overBefore]
  rw [hboth]
  exact trim_eq_fromNewest h _ Nat.zero_le

/-- The lists after an update of a known key; popping the queue leaves them alone. -/
theorem applyUpdate_spans {h : History n} {cidx : Fin n} {tsCall tsResp : ℕ} {key : String}
    {value : Option String} {keySpans : KeySpans n} (hk : h.spans.lookup key = some keySpans)
    (hpushed : ∀ d, Chained (pushSpan keySpans cidx ⟨tsCall, tsResp, value⟩ d)) :
    (h.applyUpdate cidx tsCall tsResp key value).2.spans = h.spans.insert key fun d =>
      fromNewest (UpdateSpan.overBefore (h.safeBefore cidx tsResp))
        (pushSpan keySpans cidx ⟨tsCall, tsResp, value⟩ d) := by
  have htrim : (fun d => trimSpans (minOf cidx (Function.update h.maxtr cidx tsResp))
      (minQueued h.queue) (pushSpan keySpans cidx ⟨tsCall, tsResp, value⟩ d)) =
      fun d => fromNewest (UpdateSpan.overBefore (h.safeBefore cidx tsResp))
        (pushSpan keySpans cidx ⟨tsCall, tsResp, value⟩ d) := by
    funext d
    exact trimSpans_eq (hpushed d) _ _
  rw [← htrim]
  simp [History.applyUpdate, History.pushUpdate, hk, History.popQueue, pushSpan]

/-! ## The lists of a reachable state -/

/-- The keys are those of the pool, and every list is a chain with a newest span. -/
structure ListsKept (keys : List (List String)) (h : History n) : Prop where
  known : ∀ key, key ∈ h.spans ↔ InPool keys key
  lists : ∀ key keySpans, h.spans.lookup key = some keySpans →
    ∀ d, Chained (keySpans d) ∧ keySpans d ≠ []

theorem ListsKept.new (n : ℕ) (keys : List (List String)) :
    ListsKept keys (History.new n keys) where
  known := (Remembers.new n keys).known
  lists := by
    intro key keySpans hk d
    have h := new_fresh n keys key
    by_cases hp : InPool keys key
    · cases (h.1 hp).symm.trans hk
      exact ⟨⟨by simp, by simp [dummySpan]⟩, by simp⟩
    · simp [h.2 hp] at hk

/-- A span that begins after the client's newest one keeps the lists in order. -/
theorem ListsKept.pushed {h : History n} (hl : ListsKept keys h) {cidx : Fin n} {tsCall tsResp : ℕ}
    {key : String} {keySpans : KeySpans n} (hk : h.spans.lookup key = some keySpans)
    (horder : tsCall ≤ tsResp) (hback : ∀ back ∈ (keySpans cidx).getLast?, back.tsResp < tsCall)
    (value : Option String) (d : Fin n) :
    Chained (pushSpan keySpans cidx ⟨tsCall, tsResp, value⟩ d) ∧
      pushSpan keySpans cidx ⟨tsCall, tsResp, value⟩ d ≠ [] := by
  have hlists := hl.lists key keySpans hk
  unfold pushSpan
  by_cases hd : d = cidx
  · subst hd
    simpa using (hlists d).1.concat_last horder hback
  · simpa [hd] using hlists d

theorem ListsKept.applyUpdate {h h' : History n} {cidx : Fin n} {tsCall tsResp : ℕ} {key : String}
    {value : Option String} {complaint : Option (Option KvResp)} (hl : ListsKept keys h)
    (horder : tsCall ≤ tsResp)
    (hu : h.applyUpdateChecked cidx tsCall tsResp key value = .ok (complaint, h')) :
    ListsKept keys h' := by
  obtain ⟨rfl, hback⟩ := applyUpdate_of_checked hu
  refine ⟨fun k => by rw [mem_applyUpdate, hl.known], fun k ks hks d => ?_⟩
  cases hk : h.spans.lookup key with
  | none =>
    have hsame : (h.applyUpdate cidx tsCall tsResp key value).2 = h := by
      simp [History.applyUpdate, History.pushUpdate, hk]
    rw [hsame] at hks
    exact hl.lists k ks hks d
  | some keySpans =>
    have hpushed := hl.pushed hk horder (hback keySpans hk) value
    rw [applyUpdate_spans hk fun c => (hpushed c).1] at hks
    by_cases hkk : k = key
    · subst hkk
      rw [AList.lookup_insert] at hks
      cases hks
      exact ⟨(hpushed d).1.sublist (fromNewest_suffix _).sublist,
        fromNewest_ne_nil (hpushed d).2⟩
    · rw [AList.lookup_insert_ne hkk] at hks
      exact hl.lists k ks hks d

theorem Asserted.listsKept {h : History n} (hh : Asserted n keys h) : ListsKept keys h := by
  induction hh with
  | new => exact ListsKept.new n keys
  | addToQueue _ hq ih =>
    rw [addToQueue_of_checked hq]
    exact ⟨ih.known, ih.lists⟩
  | applyUpdate _ horder hu ih => exact ih.applyUpdate horder hu

/-- The states of the fuzz testing loop are among these. -/
theorem Reachable.asserted {numOps : ℕ} {keys : Pool n} {s : FuzzState n}
    (hkeys : ∀ c, keys c ≠ []) (hops : numOps * n / 100 ≠ 0) (h : Reachable numOps keys s) :
    Asserted n keys.lists s.history := by
  induction h with
  | new => exact .new
  | @next s s' round hs hlt hi ih =>
    have hinv := hs.inv hkeys hops
    have hdoes := hinv.iterate_does hkeys hops hlt round
    rw [hi] at hdoes
    cases hdoes with
    | call _ _ _ => exact ih
    | @harvest r history hr hharvest =>
      have hqueued := ih.addToQueue (hinv.addToQueueChecked hr)
      unfold History.harvest at hharvest
      cases hu : r.call.updateInfo with
      | none =>
        simp only [hu, Prod.mk.injEq, true_and] at hharvest
        exact hharvest ▸ hqueued
      | some u =>
        obtain ⟨key, value⟩ := u
        have hchecked := hinv.applyUpdateChecked hr key value
        simp only [hu] at hharvest
        rw [hharvest] at hchecked
        exact hqueued.applyUpdate ((hinv.driven_next hr).call_lt_resp r (by simp)).le hchecked

/-- An update of a pool key leaves of each client's list, the update pushed, what
begins at the newest span that was over before every coming and every queued call.
So no older span but that one is left, the newest is, and other keys are not touched. -/
theorem trimmed_to_newest {h h' : History n} {cidx : Fin n} {tsCall tsResp : ℕ} {key : String}
    {value : Option String} {complaint : Option (Option KvResp)} (hh : Asserted n keys h)
    (hkey : InPool keys key) (horder : tsCall ≤ tsResp)
    (hu : h.applyUpdateChecked cidx tsCall tsResp key value = .ok (complaint, h')) :
    ∃ keySpans kept, h.spans.lookup key = some keySpans ∧ h'.spans.lookup key = some kept ∧
      (∀ d, kept d = fromNewest (UpdateSpan.overBefore (h.safeBefore cidx tsResp))
          (pushSpan keySpans cidx ⟨tsCall, tsResp, value⟩ d) ∧
        (kept d).countP (UpdateSpan.overBefore (h.safeBefore cidx tsResp)) ≤ 1 ∧
        ∃ newest, (pushSpan keySpans cidx ⟨tsCall, tsResp, value⟩ d).getLast? = some newest ∧
          (kept d).getLast? = some newest) ∧
      ∀ k ≠ key, h'.spans.lookup k = h.spans.lookup k := by
  have hl := hh.listsKept
  obtain ⟨rfl, hback⟩ := applyUpdate_of_checked hu
  obtain ⟨keySpans, hk⟩ :=
    Option.isSome_iff_exists.mp (AList.lookup_isSome.mpr ((hl.known key).mpr hkey))
  have hpushed := hl.pushed hk horder (hback keySpans hk) value
  have hspans := applyUpdate_spans hk fun d => (hpushed d).1
  refine ⟨keySpans, _, hk, by rw [hspans, AList.lookup_insert], fun d => ⟨rfl, ?_, ?_⟩, ?_⟩
  · exact countP_fromNewest_le _
  · obtain ⟨newest, hnewest⟩ :=
      Option.isSome_iff_exists.mp (List.getLast?_isSome.mpr (hpushed d).2)
    exact ⟨newest, hnewest, by rw [getLast?_fromNewest, hnewest]⟩
  · intro k hkk
    rw [hspans, AList.lookup_insert_ne hkk]

/-- One key, put once by the only client. -/
def putOnce : History 1 :=
  ((History.new 1 [["k"]]).applyUpdate onlyClient 1 2 "k" (some "v")).2

theorem putOnce_asserted : Asserted 1 [["k"]] putOnce :=
  have hchecked : (History.new 1 [["k"]]).applyUpdateChecked onlyClient 1 2 "k" (some "v") =
    .ok (none, putOnce) := rfl
  Asserted.new.applyUpdate (by decide) hchecked

theorem trimmed_to_newest_putTwice :
    ∃ kept, (putOnce.applyUpdate onlyClient 3 4 "k" (some "w")).2.spans.lookup "k" = some kept ∧
      kept onlyClient = [⟨1, 2, some "v"⟩, ⟨3, 4, some "w"⟩] := by
  have hspans : (putOnce.spans.lookup "k").map (· onlyClient) =
      some [dummySpan, ⟨1, 2, some "v"⟩] := by
    decide
  have hbound : putOnce.safeBefore onlyClient 4 = 4 := by decide
  have hpool : InPool [["k"]] "k" := ⟨["k"], by simp, by simp⟩
  have hchecked : putOnce.applyUpdateChecked onlyClient 3 4 "k" (some "w") =
      .ok (putOnce.applyUpdate onlyClient 3 4 "k" (some "w")) := rfl
  obtain ⟨keySpans, kept, hk, hkept, htrim, -⟩ :=
    trimmed_to_newest putOnce_asserted hpool (by decide) hchecked
  refine ⟨kept, hkept, ?_⟩
  rw [hk, Option.map_some, Option.some.injEq] at hspans
  rw [(htrim onlyClient).1, hbound, pushSpan, Function.update_self, hspans]
  decide

end MadKV.Fuzzer
