import MadKV.Fuzzer.Offline
import MadKV.Spec.KeyValue
import Mathlib.Data.Rat.Lemmas

/-!
# No false alarm

Operations that take effect atomically, each at one point between its call and
its response, never make the checker complain. The last writer of a key before
the effect of a read is always on offer: it began before the read answered, and
a later update of the same client that was over before the read began would
itself have taken effect in between.
-/

namespace MadKV.Fuzzer

open Runner

variable {n : ℕ} {keys : List (List String)}

/-- An operation that took effect. It may still lack its response. -/
structure TimedOp (n : ℕ) where
  cidx : Fin n
  call : KvCall
  resp : KvResp
  tsCall : ℕ
  tsResp : Option ℕ
  effect : ℚ

/-- The response as `fuzz_test` harvests it, if there is one. -/
def TimedOp.harvest? (o : TimedOp n) : Option (Harvest n) :=
  o.tsResp.map fun tsResp => ⟨o.cidx, o.tsCall, tsResp, o.call, o.resp⟩

/-- The response of `a` came before the call of `b`. -/
def TimedOp.Before (a b : TimedOp n) : Prop :=
  ∃ ts, a.tsResp = some ts ∧ ts < b.tsCall

/-- Calls as `gen_rand_kvcall` draws them. -/
def Generated (keys : List (List String)) : KvCall → Prop
  | .put key _ => InPool keys key
  | .swap key _ => InPool keys key
  | .get key => InPool keys key
  | .scan _ _ => True
  | .delete key => InPool keys key
  | .stop => False

/-- A run of an initially empty atomic store, listed in the order of the effects. -/
structure AtomicRun (keys : List (List String)) (ops : List (TimedOp n)) : Prop where
  in_order : ops.Pairwise fun a b => a.effect < b.effect
  call_pos : ∀ o ∈ ops, 0 < o.tsCall
  after_call : ∀ o ∈ ops, (o.tsCall : ℚ) ≤ o.effect
  before_resp : ∀ o ∈ ops, ∀ ts, o.tsResp = some ts → o.effect ≤ ts
  distinct : (ops.flatMap fun o => o.tsCall :: o.tsResp.toList).Nodup
  one_outstanding : ∀ a ∈ ops, ∀ b ∈ ops, a.cidx = b.cidx → a ≠ b → a.Before b ∨ b.Before a
  generated : ∀ o ∈ ops, Generated keys o.call
  replayed : ops.map TimedOp.resp = Spec.replay ∅ (ops.map TimedOp.call)

theorem harvest?_eq_some {o : TimedOp n} {r : Harvest n} :
    o.harvest? = some r ↔ o.tsResp = some r.tsResp ∧ o.cidx = r.cidx ∧ o.tsCall = r.tsCall ∧
      o.call = r.call ∧ o.resp = r.resp := by
  obtain ⟨cidx, tsCall, tsResp, call, resp⟩ := r
  simp only [TimedOp.harvest?, Option.map_eq_some_iff, Harvest.mk.injEq]
  constructor
  · rintro ⟨ts, hts, hc, hcall, rfl, h⟩
    exact ⟨hts, hc, hcall, h⟩
  · rintro ⟨hts, hc, hcall, h⟩
    exact ⟨tsResp, hts, hc, hcall, rfl, h⟩

namespace AtomicRun

variable {ops : List (TimedOp n)}

theorem call_ne_resp (h : AtomicRun keys ops) {o : TimedOp n} (ho : o ∈ ops) {ts : ℕ}
    (hts : o.tsResp = some ts) : o.tsCall ≠ ts := by
  have hnodup := (List.nodup_flatMap.mp h.distinct).1 o ho
  simpa [hts] using hnodup

theorem call_lt_resp (h : AtomicRun keys ops) {o : TimedOp n} (ho : o ∈ ops) {ts : ℕ}
    (hts : o.tsResp = some ts) : o.tsCall < ts := by
  have hle : (o.tsCall : ℚ) ≤ ts := (h.after_call o ho).trans (h.before_resp o ho ts hts)
  exact lt_of_le_of_ne (by exact_mod_cast hle) (h.call_ne_resp ho hts)

/-- Effects respect real time. -/
theorem effect_lt (h : AtomicRun keys ops) {a b : TimedOp n} (ha : a ∈ ops) (hb : b ∈ ops)
    (hab : a.Before b) : a.effect < b.effect := by
  obtain ⟨ts, hts, hlt⟩ := hab
  calc a.effect ≤ (ts : ℚ) := h.before_resp a ha ts hts
    _ < (b.tsCall : ℚ) := by exact_mod_cast hlt
    _ ≤ b.effect := h.after_call b hb

/-- An operation that takes effect before another was called before the other's response. -/
theorem call_lt_of_effect (h : AtomicRun keys ops) {a b : TimedOp n} (ha : a ∈ ops)
    (hb : b ∈ ops) (hab : a.effect < b.effect) {ts : ℕ} (hts : b.tsResp = some ts) :
    a.tsCall < ts := by
  have hlt : (a.tsCall : ℚ) < ts :=
    (h.after_call a ha).trans_lt (hab.trans_le (h.before_resp b hb ts hts))
  exact_mod_cast hlt

theorem mem_before_of_effect (h : AtomicRun keys ops) {before after : List (TimedOp n)}
    {q o : TimedOp n} (hsplit : ops = before ++ q :: after) (ho : o ∈ ops)
    (hlt : o.effect < q.effect) : o ∈ before := by
  have horder := h.in_order
  rw [hsplit, List.pairwise_append, List.pairwise_cons] at horder
  rw [hsplit] at ho
  rcases List.mem_append.mp ho with ho | ho
  · exact ho
  · rcases List.mem_cons.mp ho with rfl | ho
    · exact absurd hlt (lt_irrefl _)
    · exact absurd hlt (horder.2.1.1 o ho).asymm

theorem effect_lt_of_mem_before (h : AtomicRun keys ops) {before after : List (TimedOp n)}
    {q o : TimedOp n} (hsplit : ops = before ++ q :: after) (ho : o ∈ before) :
    o.effect < q.effect := by
  have horder := h.in_order
  rw [hsplit, List.pairwise_append] at horder
  exact horder.2.2 o ho q (by simp)

/-- Every response is the abstract one at the contents its predecessors left. -/
theorem resp_eq (h : AtomicRun keys ops) {before after : List (TimedOp n)} {q : TimedOp n}
    (hsplit : ops = before ++ q :: after) :
    q.resp = (Spec.apply (Spec.contents ∅ (before.map TimedOp.call)) q.call).1 := by
  have hr := h.replayed
  rw [hsplit, List.map_append, List.map_append, Spec.replay_append, List.map_cons, List.map_cons,
    Spec.replay] at hr
  have htail := (List.append_inj hr (by simp)).2
  exact (List.cons.inj htail).1

end AtomicRun

/-! ## Responses in the order of their arrival -/

/-- The responses of the run, as `fuzz_test` receives them. -/
structure Received (ops : List (TimedOp n)) (fed : List (Harvest n)) : Prop where
  perm : fed.Perm (ops.filterMap TimedOp.harvest?)
  resp_increasing : fed.Pairwise fun a b => a.tsResp < b.tsResp

variable {ops : List (TimedOp n)} {fed : List (Harvest n)}

theorem Received.mem_iff (hf : Received ops fed) {r : Harvest n} :
    r ∈ fed ↔ ∃ o ∈ ops, o.harvest? = some r := by
  rw [hf.perm.mem_iff, List.mem_filterMap]

theorem AtomicRun.driven (h : AtomicRun keys ops) (hf : Received ops fed) : Driven keys fed where
  call_pos := by
    intro r hr
    obtain ⟨o, ho, he⟩ := hf.mem_iff.mp hr
    obtain ⟨_, _, hcall, _⟩ := harvest?_eq_some.mp he
    exact hcall ▸ h.call_pos o ho
  call_lt_resp := by
    intro r hr
    obtain ⟨o, ho, he⟩ := hf.mem_iff.mp hr
    obtain ⟨hresp, _, hcall, _⟩ := harvest?_eq_some.mp he
    exact hcall ▸ h.call_lt_resp ho hresp
  resp_increasing := hf.resp_increasing
  one_outstanding := by
    refine hf.resp_increasing.imp_of_mem fun {a b} ha hb hlt hc => ?_
    obtain ⟨o, ho, hoa⟩ := hf.mem_iff.mp ha
    obtain ⟨o', ho', hob⟩ := hf.mem_iff.mp hb
    obtain ⟨hresp, hcl, hcall, _⟩ := harvest?_eq_some.mp hoa
    obtain ⟨hresp', hcl', hcall', _⟩ := harvest?_eq_some.mp hob
    have hne : o ≠ o' := by
      rintro rfl
      have := Option.some.inj (hresp.symm.trans hresp')
      omega
    rcases h.one_outstanding o ho o' ho' (by rw [hcl, hcl', hc]) hne with ⟨ts, hts, hbefore⟩ |
      ⟨ts, hts, hbefore⟩
    · have := Option.some.inj (hresp.symm.trans hts)
      omega
    · have hproper := h.call_lt_resp ho hresp
      have := Option.some.inj (hresp'.symm.trans hts)
      omega
  update_in_pool := by
    intro r hr key value hu
    obtain ⟨o, ho, he⟩ := hf.mem_iff.mp hr
    obtain ⟨_, _, _, hcall, _⟩ := harvest?_eq_some.mp he
    have hgen := h.generated o ho
    rw [hcall] at hgen
    cases hk : r.call <;> simp_all [KvCall.updateInfo, Generated]

/-! ## The current value is on offer -/

/-- The operation `q` answers the call made on the contents `m`, and whatever
explains the current value of a key is on offer: then the answer is accepted. -/
theorem accepts_of_offers {m : Spec.KvMap} {call : KvCall} (hgen : Generated keys call)
    {offers : String → (Option String → Bool) → Prop}
    (hoffers : ∀ key, InPool keys key → ∀ explains,
      explains (m.lookup key) = true → offers key explains) :
    Accepts (InPool keys) offers (Spec.apply m call).1 := by
  cases call with
  | put key value => exact ⟨hgen, hoffers key hgen _ (by simp)⟩
  | swap key value => exact ⟨hgen, hoffers key hgen _ (by simp)⟩
  | get key => exact ⟨hgen, hoffers key hgen _ (by simp)⟩
  | delete key => exact ⟨hgen, hoffers key hgen _ (by simp)⟩
  | stop => exact hgen.elim
  | scan keyStart keyEnd =>
    refine ⟨fun e he => (Support.mem_between.mp he).2, Spec.between_keys_nodup m _ _, ?_⟩
    intro key hkey hlo hhi
    exact hoffers key hkey _ (by simp [Spec.lookup_between m hlo hhi])

/-- A client with an unanswered update does not let later responses be decided. -/
theorem answered_of_snapshot (h : AtomicRun keys ops) (hf : Received ops fed)
    {past future : List (Harvest n)} (hfed : fed = past ++ future) {p : Popped n}
    (hs : Snapshot keys past p) {o q : TimedOp n} (ho : o ∈ ops) (hq : q ∈ ops)
    (hqp : q.tsResp = some p.entry.tsResp) (hlt : o.effect < q.effect) :
    ∃ r ∈ fed, o.harvest? = some r := by
  cases hts : o.tsResp with
  | some ts =>
    have he : o.harvest? = some ⟨o.cidx, o.tsCall, ts, o.call, o.resp⟩ := by
      simp [TimedOp.harvest?, hts]
    exact ⟨_, hf.mem_iff.mpr ⟨o, ho, he⟩, he⟩
  | none =>
    obtain ⟨r, hr, hc, _, hover⟩ := hs.overtaken o.cidx
    obtain ⟨o', ho', he'⟩ := hf.mem_iff.mp (hfed ▸ List.mem_append_left future hr)
    obtain ⟨hresp', hcl', _⟩ := harvest?_eq_some.mp he'
    have hne : o ≠ o' := by
      rintro rfl
      simp [hts] at hresp'
    rcases h.one_outstanding o ho o' ho' (by rw [hcl', hc]) hne with ⟨ts, hts', _⟩ |
      ⟨ts, hts', hbefore⟩
    · simp [hts] at hts'
    · -- the client's last update would have been called after the response of `q`
      have hr' := Option.some.inj (hresp'.symm.trans hts')
      have hqo : q.Before o := ⟨p.entry.tsResp, hqp, by omega⟩
      exact absurd (h.effect_lt hq ho hqo) hlt.asymm

/-- What is current at the effect of a popped operation is on offer to it. -/
theorem current_offered (h : AtomicRun keys ops) (hf : Received ops fed)
    {past future : List (Harvest n)} (hfed : fed = past ++ future) {p : Popped n}
    (hs : Snapshot keys past p) {before after : List (TimedOp n)} {q : TimedOp n}
    (hsplit : ops = before ++ q :: after) (hqr : q.tsResp = some p.entry.tsResp)
    (hqc : q.tsCall = p.entry.tsCall) (key : String) (explains : Option String → Bool)
    (hex : explains ((Spec.contents ∅ (before.map TimedOp.call)).lookup key) = true) :
    RunOffers fed p.entry.tsCall p.entry.tsResp key explains := by
  have hd := h.driven hf
  have hq : q ∈ ops := by simp [hsplit]
  have hqlt := h.call_lt_resp hq hqr
  -- an update that was over before the call of `q` took effect before `q`
  have hover : ∀ d, ∀ w' ∈ updatesOn fed d key, 0 < w'.tsCall → w'.tsResp < p.entry.tsCall →
      ∃ o' ∈ before, ∃ r', o'.harvest? = some r' ∧ r'.cidx = d ∧ r'.updateOn key = some w' := by
    intro d w' hw' hpos hlt
    rcases mem_updatesOn.mp hw' with rfl | ⟨r', hr', hc', hu'⟩
    · simp [dummySpan] at hpos
    · obtain ⟨o', ho', he'⟩ := hf.mem_iff.mp hr'
      have hbefore : o'.Before q := by
        refine ⟨r'.tsResp, (harvest?_eq_some.mp he').1, ?_⟩
        rw [hqc, ← (updateOn_eq_some.mp hu').2.2]
        exact hlt
      exact ⟨o', h.mem_before_of_effect hsplit ho' (h.effect_lt ho' hq hbefore), r', he', hc', hu'⟩
  rcases Spec.lookup_contents ∅ (before.map TimedOp.call) key with ⟨hnone, hquiet⟩ |
    ⟨calls₁, call, calls₂, hcalls, hinfo, hquiet⟩
  · -- nobody wrote the key: the initial absence explains it
    refine ⟨q.cidx, dummySpan, mem_updatesOn.mpr (.inl rfl), ?_, ?_, ?_⟩
    · simp only [dummySpan]
      omega
    · rw [hnone, Finmap.lookup_empty] at hex
      exact hex
    · intro w' hw' hpos hlt
      obtain ⟨o', ho', r', he', _, hu'⟩ := hover q.cidx w' hw' hpos hlt
      refine hquiet o'.call (List.mem_map_of_mem ho') w'.value ?_
      rw [(harvest?_eq_some.mp he').2.2.2.1]
      exact (updateOn_eq_some.mp hu').1
  · -- the last writer explains it
    obtain ⟨ops₁, rest, hbefore, hops₁, hrest⟩ := List.map_eq_append_iff.mp hcalls
    obtain ⟨o, ops₂, rfl, rfl, rfl⟩ := List.map_eq_cons_iff.mp hrest
    have ho : o ∈ ops := by simp [hsplit, hbefore]
    have hlt : o.effect < q.effect := h.effect_lt_of_mem_before hsplit (by simp [hbefore])
    obtain ⟨r, hr, he⟩ := answered_of_snapshot h hf hfed hs ho hq hqr hlt
    obtain ⟨hresp, hcl, hcall, hkv, _⟩ := harvest?_eq_some.mp he
    refine ⟨r.cidx, ⟨r.tsCall, r.tsResp, _⟩, mem_updatesOn.mpr (.inr ⟨r, hr, rfl,
      updateOn_eq_some.mpr ⟨hkv ▸ hinfo, rfl, rfl⟩⟩), ?_, hex, ?_⟩
    · exact hcall ▸ h.call_lt_of_effect ho hq hlt hqr
    · intro w' hw' (hafter : r.tsCall < w'.tsCall) hlt'
      obtain ⟨o', ho', r', he', hc', hu'⟩ := hover r.cidx w' hw' (by omega) hlt'
      obtain ⟨hresp', hcl', hcall', hkv', _⟩ := harvest?_eq_some.mp he'
      obtain ⟨hinfo', hw'call, _⟩ := updateOn_eq_some.mp hu'
      have hmem' : o' ∈ ops := by simp [hsplit, ho']
      have hne : o ≠ o' := by
        rintro rfl
        omega
      rcases h.one_outstanding o ho o' hmem' (by rw [hcl, hcl', hc']) hne with hoo' |
        ⟨ts, hts, hbo⟩
      · -- issued after `o` and effective before `q`: it would be a later writer
        have hlater := h.effect_lt ho hmem' hoo'
        rcases List.mem_append.mp (hbefore ▸ ho') with hin | hin
        · have hearlier := h.effect_lt_of_mem_before
            (show ops = ops₁ ++ o :: (ops₂ ++ q :: after) by simp [hsplit, hbefore]) hin
          exact absurd hlater hearlier.asymm
        · rcases List.mem_cons.mp hin with rfl | hin
          · exact hne rfl
          · exact hquiet o'.call (List.mem_map_of_mem hin) w'.value (hkv' ▸ hinfo')
      · have hproper := h.call_lt_resp hmem' hresp'
        have := Option.some.inj (hresp'.symm.trans hts)
        omega

/-- Every check of an atomic run succeeds. -/
theorem AtomicRun.verdict (h : AtomicRun keys ops) (hf : Received ops fed) {p : Popped n}
    (hp : p ∈ (History.new n keys).popLog fed) : p.verdict = true := by
  have hd := h.driven hf
  obtain ⟨past, future, hfed, hs⟩ := popLog_snapshot hd hp
  obtain ⟨_, hr, _, hqueue⟩ := hs.remembers
  obtain ⟨r, hr, hentry⟩ := hr.queued _ hqueue
  obtain ⟨q, hq, he⟩ := hf.mem_iff.mp (hfed ▸ List.mem_append_left future hr)
  obtain ⟨hresp, _, hcall, _, hkv⟩ := harvest?_eq_some.mp he
  obtain ⟨before, after, hsplit⟩ := List.append_of_mem hq
  rw [popLog_verdict_iff hd hp, OfflineAccepts]
  have hreports : p.entry.resp =
      (Spec.apply (Spec.contents ∅ (before.map TimedOp.call)) q.call).1 := by
    rw [← h.resp_eq hsplit, hkv, ← hentry]
    rfl
  rw [hreports]
  refine accepts_of_offers (h.generated q hq) fun key _ explains hex => ?_
  exact current_offered h hf hfed hs hsplit (by rw [hresp, ← hentry]; rfl)
    (by rw [hcall, ← hentry]; rfl) key explains hex

/-- Feeding the responses of an atomic run, the checker never complains. -/
theorem no_false_alarm (h : AtomicRun keys ops) (hf : Received ops fed) :
    ((History.new n keys).feed fed).1 = none := by
  cases hc : ((History.new n keys).feed fed).1 with
  | none => rfl
  | some complaint =>
    cases complaint with
    | none => exact absurd hc (feed_knows_keys (h.driven hf))
    | some resp =>
      obtain ⟨p, hp, _, hv⟩ := feed_rejects_iff.mp hc
      simp [h.verdict hf hp] at hv

/-- Two clients, overlapping operations: the put of the second takes effect between
the two operations of the first, and the scan sees it. -/
def overlap : List (TimedOp 2) :=
  [⟨firstClient, .put "a" "v", .put "a" false, 1, some 3, 2⟩,
    ⟨secondClient, .put "b" "w", .put "b" false, 2, some 7, 4⟩,
    ⟨firstClient, .scan "a" "z", .scan "a" "z" [("a", "v"), ("b", "w")], 4, some 6, 5⟩,
    ⟨firstClient, .delete "b", .delete "b" true, 8, some 9, 8⟩]

def overlapFed : List (Harvest 2) :=
  [⟨firstClient, 1, 3, .put "a" "v", .put "a" false⟩,
    ⟨firstClient, 4, 6, .scan "a" "z", .scan "a" "z" [("a", "v"), ("b", "w")]⟩,
    ⟨secondClient, 2, 7, .put "b" "w", .put "b" false⟩,
    ⟨firstClient, 8, 9, .delete "b", .delete "b" true⟩]

theorem overlap_scan :
    Support.between (((∅ : Spec.KvMap).insert "a" "v").insert "b" "w") "a" "z" =
      [("a", "v"), ("b", "w")] := by
  rw [← Support.SortedMap.toFinmap_empty, ← Support.SortedMap.toFinmap_insert,
    ← Support.SortedMap.toFinmap_insert, ← Support.SortedMap.takeWhile_lowerBound]
  decide

theorem overlap_atomic : AtomicRun [["a", "b"]] overlap where
  in_order := by norm_num [overlap]
  call_pos := by simp [overlap]
  after_call := by norm_num [overlap]
  before_resp := by norm_num [overlap]
  distinct := by decide
  one_outstanding := by
    simp [overlap, TimedOp.Before, firstClient, secondClient]
  generated := by simp [overlap, Generated, InPool]
  replayed := by
    simp [overlap, Spec.replay, Spec.apply, overlap_scan, Finmap.lookup_insert_of_ne,
      Finmap.lookup_insert]

theorem overlapFed_received : Received overlap overlapFed where
  perm := by decide
  resp_increasing := by decide

theorem no_false_alarm_overlap :
    ((History.new 2 [["a", "b"]]).popLog overlapFed).length = 2 ∧
      ((History.new 2 [["a", "b"]]).feed overlapFed).1 = none :=
  ⟨by decide, no_false_alarm overlap_atomic overlapFed_received⟩

end MadKV.Fuzzer
