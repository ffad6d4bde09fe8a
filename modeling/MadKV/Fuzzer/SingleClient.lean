import MadKV.Fuzzer.Freshness
import MadKV.Fuzzer.SelfVouching
import MadKV.Spec.KeyValue

/-!
# A single client

With one client nothing runs at the same time as a call, so only one value of a
key can be reported: the one that replaying the earlier calls leaves. The update
of the very call that is answered is the exception, as everywhere in the checker.
-/

namespace MadKV.Fuzzer

open Runner Support

variable {keys : List (List String)}

/-- When all its updates are over, a chain offers the value of the last one. -/
theorem offers_settled_iff {spans : List UpdateSpan} {w : UpdateSpan}
    (hchain : Chained (spans ++ [w])) {tsCall tsResp : ℕ}
    (hover : ∀ a ∈ spans ++ [w], a.tsResp < tsCall) (hlt : tsCall < tsResp)
    (explains : Option String → Bool) :
    Offers (spans ++ [w]) tsCall tsResp explains ↔ explains w.value = true := by
  have hlast : ∀ a ∈ spans, a.tsCall < w.tsCall := by
    have hincrease := hchain.calls_increase
    rw [List.pairwise_append] at hincrease
    exact fun a ha => hincrease.2.2 a ha w (by simp)
  constructor
  · rintro ⟨a, ha, -, hv, hnone⟩
    rcases List.mem_append.mp ha with ha | ha
    · exact absurd (hover w (by simp)) (hnone w (by simp) (hlast a ha))
    · rwa [List.mem_singleton.mp ha] at hv
  · intro hv
    have hproper := hchain.proper w (by simp)
    have hw := hover w (by simp)
    refine ⟨w, by simp, by omega, hv, fun a ha hafter => ?_⟩
    rcases List.mem_append.mp ha with ha | ha
    · exact absurd (hlast a ha) hafter.not_gt
    · rw [List.mem_singleton.mp ha] at hafter
      exact absurd hafter (lt_irrefl _)

/-- The value of a key after the calls answered so far, replayed on an empty map. -/
def currentValue {n : ℕ} (before : List (Harvest n)) (key : String) : Option String :=
  (Spec.contents ∅ (before.map Harvest.call)).lookup key

theorem currentValue_concat {n : ℕ} (before : List (Harvest n)) (r : Harvest n) (key : String) :
    currentValue (before ++ [r]) key =
      match r.updateOn key with
      | none => currentValue before key
      | some w => w.value := by
  have hstep : Spec.contents ∅ ((before ++ [r]).map Harvest.call) =
      (Spec.apply (Spec.contents ∅ (before.map Harvest.call)) r.call).2 := by
    simp [Spec.contents]
  unfold currentValue Harvest.updateOn
  rw [hstep, Spec.lookup_apply]
  cases r.call.updateInfo with
  | none => rfl
  | some u =>
    by_cases hk : u.1 = key
    · simp [hk]
    · simp [hk, Ne.symm hk]

/-- The last update of the only client carries the current value. -/
theorem updatesOn_last (before : List (Harvest 1)) (key : String) :
    ∃ init w, updatesOn before onlyClient key = init ++ [w] ∧
      w.value = currentValue before key := by
  induction before using List.reverseRecOn with
  | nil => exact ⟨[], dummySpan, rfl, rfl⟩
  | append_singleton before r ih =>
    have hsolo : r.cidx = onlyClient := Subsingleton.elim _ _
    obtain ⟨init, w, hlist, hvalue⟩ := ih
    rw [currentValue_concat, updatesOn_append, hlist]
    cases hu : r.updateOn key with
    | none => exact ⟨init, w, by simp [hsolo, hu], hvalue⟩
    | some own => exact ⟨init ++ [w], own, by simp [hsolo, hu], rfl⟩

/-- The other operations are those before and those after. -/
theorem others_middle {n : ℕ} {before after : List (Harvest n)} {r : Harvest n}
    (hd : Driven keys (before ++ r :: after)) :
    others (before ++ r :: after) r = before ++ after := by
  have hincrease := List.pairwise_append.mp hd.resp_increasing
  have hbefore : ∀ a ∈ before, a ≠ r := by
    rintro a ha rfl
    exact absurd (hincrease.2.2 a ha a (by simp)) (lt_irrefl _)
  have hafter : ∀ a ∈ after, a ≠ r := by
    rintro a ha rfl
    exact absurd ((List.pairwise_cons.mp hincrease.2.1).1 a ha) (lt_irrefl _)
  rw [others, List.filter_append, List.filter_cons_of_neg (by simp)]
  rw [List.filter_eq_self.mpr (by simpa using hbefore),
    List.filter_eq_self.mpr (by simpa using hafter)]

/-- The single client's own operations offer each other the current value. -/
theorem runOffers_current {before after : List (Harvest 1)} {r : Harvest 1}
    (hd : Driven keys (before ++ r :: after)) (key : String)
    (explains : Option String → Bool) :
    RunOffers (before ++ after) r.tsCall r.tsResp key explains ↔
      explains (currentValue before key) = true := by
  have hmem : r ∈ before ++ r :: after := by simp
  have hsplit : before ++ r :: after = (before ++ [r]) ++ after := by simp
  have hrest : Driven keys (before ++ after) := others_middle hd ▸ hd.others r
  obtain ⟨init, w, hlist, hvalue⟩ := updatesOn_last before key
  have hchain := updatesOn_chained hrest onlyClient key
  rw [updatesOn_append] at hchain
  have hover : ∀ a ∈ updatesOn before onlyClient key, a.tsResp < r.tsCall := by
    intro a ha
    rcases mem_updatesOn.mp ha with rfl | ⟨b, hb, -, hu⟩
    · exact hd.call_pos r hmem
    · rw [(updateOn_eq_some.mp hu).2.2]
      exact hd.resp_lt_call hb (by simp) (Subsingleton.elim _ _)
  have hlater : ∀ a ∈ after.filterMap
      (fun a => if a.cidx = onlyClient then a.updateOn key else none),
      r.tsResp ≤ a.tsCall ∧ r.tsCall ≤ a.tsResp := by
    intro a ha
    obtain ⟨b, hb, hu⟩ := List.mem_filterMap.mp ha
    split_ifs at hu
    obtain ⟨-, hcall, hresp⟩ := updateOn_eq_some.mp hu
    have hnext := (hsplit ▸ hd).resp_lt_call (by simp : r ∈ before ++ [r]) hb
      (Subsingleton.elim _ _)
    have hproper := hd.call_lt_resp b (by simp [hb])
    have hown := hd.call_lt_resp r hmem
    omega
  have hmiddle : Offers (updatesOn before onlyClient key) r.tsCall r.tsResp explains ↔
      Offers (updatesOn (before ++ after) onlyClient key) r.tsCall r.tsResp explains := by
    have hnone : ([] : List UpdateSpan) ≠ [] →
        ∃ a ∈ updatesOn before onlyClient key, a.tsResp < r.tsCall := by simp
    rw [updatesOn_append]
    exact offers_middle_iff hchain hnone hlater explains
  have hsettled : Offers (updatesOn before onlyClient key) r.tsCall r.tsResp explains ↔
      explains (currentValue before key) = true := by
    rw [hlist] at hover ⊢
    rw [← hvalue]
    refine offers_settled_iff ?_ hover (hd.call_lt_resp r hmem) explains
    exact hlist ▸ hchain.sublist (List.sublist_append_left _ _)
  rw [← hsettled, hmiddle]
  exact ⟨fun ⟨d, h⟩ => Subsingleton.elim d onlyClient ▸ h, fun h => ⟨onlyClient, h⟩⟩

/-- What the only client may be told of a key: its current value, or what the call
that is answered writes to it. -/
def Tells {n : ℕ} (before : List (Harvest n)) (r : Harvest n) (key : String)
    (value : Option String) : Prop :=
  value = currentValue before key ∨ r.call.updateInfo = some (key, value)

/-- An answered read writes nothing. -/
theorem tells_of_read {n : ℕ} {before : List (Harvest n)} {r : Harvest n}
    (hread : r.call.updateInfo = none) (key : String) (value : Option String) :
    Tells before r key value ↔ value = currentValue before key := by
  simp [Tells, hread]

theorem runOffers_tells {before after : List (Harvest 1)} {r : Harvest 1}
    (hd : Driven keys (before ++ r :: after)) (key : String) (value : Option String) :
    RunOffers (before ++ r :: after) r.tsCall r.tsResp key (fun v => v == value) ↔
      Tells before r key value := by
  have hmem : r ∈ before ++ r :: after := by simp
  have hown : (∃ w, r.updateOn key = some w ∧ (w.value == value) = true) ↔
      r.call.updateInfo = some (key, value) := by
    constructor
    · rintro ⟨w, hu, hv⟩
      rw [← eq_of_beq hv]
      exact (updateOn_eq_some.mp hu).1
    · intro hu
      exact ⟨⟨r.tsCall, r.tsResp, value⟩, updateOn_eq_some.mpr ⟨hu, rfl, rfl⟩, by simp⟩
  rw [runOffers_iff_others hd hmem, others_middle hd, runOffers_current hd, hown, beq_iff_eq]
  exact or_congr_left eq_comm

/-- With one client a Get is accepted exactly when it tells the value of its key,
and a Scan when it tells the value or the absence of every key of the pool in its
range. -/
theorem single_client_exact {run : List (Harvest 1)} (hd : Driven keys run) {p : Popped 1}
    (hp : p ∈ (History.new 1 keys).popLog run) :
    (∃ before r after, run = before ++ r :: after ∧ p.entry = r.queued) ∧
    ∀ before r after, run = before ++ r :: after → p.entry = r.queued →
      (∀ key value, r.resp = .get key value → InPool keys key →
        (p.verdict = true ↔ Tells before r key value)) ∧
      ∀ keyStart keyEnd entries, r.resp = .scan keyStart keyEnd entries →
        (p.verdict = true ↔ (∀ e ∈ entries, keyStart ≤ e.1 ∧ e.1 ≤ keyEnd) ∧
          (entries.map Prod.fst).Nodup ∧
          ∀ key, InPool keys key → keyStart ≤ key → key ≤ keyEnd →
            Tells before r key (entries.lookup key)) := by
  constructor
  · obtain ⟨r, hr, hq⟩ := popped_harvested hd hp
    obtain ⟨before, after, hsplit⟩ := List.append_of_mem hr
    exact ⟨before, r, after, hsplit, hq⟩
  rintro before r after rfl hq
  have hverdict : p.verdict = true ↔ Accepts (InPool keys)
      (RunOffers (before ++ r :: after) r.tsCall r.tsResp) r.resp := by
    rw [popLog_verdict_iff hd hp, hq]
    rfl
  constructor
  · intro key value hresp hkey
    rw [hverdict, hresp, ← runOffers_tells hd]
    exact and_iff_right hkey
  · intro keyStart keyEnd entries hresp
    rw [hverdict, hresp]
    simp only [Accepts, runOffers_tells hd]

/-- The read between two puts of one client. -/
theorem single_client_exact_putGetPut :
    ∃ p ∈ (History.new 1 [["k"]]).popLog putGetPut, p.entry = ⟨3, 4, .get "k" (some "v")⟩ ∧
      (p.verdict = true ↔ some "v" = currentValue
        [⟨onlyClient, 1, 2, .put "k" "v", .put "k" false⟩] "k") := by
  have hex : ∃ p ∈ (History.new 1 [["k"]]).popLog putGetPut,
      p.entry = ⟨3, 4, .get "k" (some "v")⟩ := by decide
  obtain ⟨p, hp, he⟩ := hex
  refine ⟨p, hp, he, ?_⟩
  have hget := ((single_client_exact putGetPut_driven hp).2
    [⟨onlyClient, 1, 2, .put "k" "v", .put "k" false⟩]
    ⟨onlyClient, 3, 4, .get "k", .get "k" (some "v")⟩ _ rfl he).1 "k" (some "v") rfl
      (by simp [InPool])
  rw [hget, tells_of_read rfl]

/-- A put that is answered as if it were a read of the value it writes. -/
def putAnsweredByGet : List (Harvest 1) :=
  [⟨onlyClient, 1, 2, .put "k" "v", .get "k" (some "v")⟩,
    ⟨onlyClient, 3, 4, .put "k" "w", .put "k" true⟩]

theorem putAnsweredByGet_driven : Driven [["k"]] putAnsweredByGet where
  call_pos := by decide
  call_lt_resp := by decide
  resp_increasing := by decide
  one_outstanding := by decide
  update_in_pool := by simp [putAnsweredByGet, KvCall.updateInfo, InPool]

/-- The answer is accepted, though the key had no value before the put. -/
theorem single_client_not_replay :
    ¬ ∀ (keys : List (List String)) (run : List (Harvest 1)), Driven keys run →
      ∀ p ∈ (History.new 1 keys).popLog run, ∀ before r after, run = before ++ r :: after →
        p.entry = r.queued → ∀ key value, r.resp = .get key value → InPool keys key →
          (p.verdict = true ↔ value = currentValue before key) := by
  intro hclaim
  have hex : ∃ p ∈ (History.new 1 [["k"]]).popLog putAnsweredByGet,
      p.entry = ⟨1, 2, .get "k" (some "v")⟩ ∧ p.verdict = true := by decide
  obtain ⟨p, hp, he, hv⟩ := hex
  have hvalue := (hclaim [["k"]] putAnsweredByGet putAnsweredByGet_driven p hp []
    ⟨onlyClient, 1, 2, .put "k" "v", .get "k" (some "v")⟩ _ rfl he "k" (some "v") rfl
    (by simp [InPool])).mp hv
  exact absurd hvalue (by simp [currentValue])

end MadKV.Fuzzer
