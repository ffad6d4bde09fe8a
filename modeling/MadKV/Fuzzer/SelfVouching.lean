import MadKV.Fuzzer.Offline

/-!
# An update can vouch for itself

An update is recorded before its own response is checked, and its own span
passes the timestamp comparisons. Taking that span out of the lists gives the
check one would expect, and the two verdicts differ exactly when the update
reports what its own span carries and nothing else explains the report.
-/

namespace MadKV.Fuzzer

open Runner Support

variable {n : ℕ} {keys : List (List String)}

/-- The span is the one of the operation that `entry` answers. -/
def isOwn (entry : QueuedSpan) (span : UpdateSpan) : Bool :=
  decide (span.tsCall = entry.tsCall) && decide (span.tsResp = entry.tsResp)

def dropOwn (entry : QueuedSpan) (keySpans : KeySpans n) : KeySpans n :=
  fun d => (keySpans d).filter fun span => !isOwn entry span

/-- The lists without the span of the operation that `entry` answers. -/
def withoutOwn (spans : SpanMap n) (entry : QueuedSpan) : SpanMap n :=
  ⟨spans.entries.map fun e => ⟨e.1, dropOwn entry e.2⟩,
    spans.nodupKeys.map₂ (fun _ => dropOwn entry) _⟩

/-- The run without the operation `r`. -/
def others (run : List (Harvest n)) (r : Harvest n) : List (Harvest n) :=
  run.filter fun a => decide (a ≠ r)

/-- The response reports just what the update of its own call carries. -/
def Harvest.Vouches (r : Harvest n) : Prop :=
  match r.resp with
  | .put key found => ∃ value, r.call.updateInfo = some (key, value) ∧ value.isSome = found
  | .swap key oldValue => r.call.updateInfo = some (key, oldValue)
  | .delete key found => ∃ value, r.call.updateInfo = some (key, value) ∧ value.isSome = found
  | _ => False

/-- Put, Swap and Delete responses. -/
def IsUpdateResp : KvResp → Prop
  | .put _ _ | .swap _ _ | .delete _ _ => True
  | _ => False

theorem isOwn_queued (r : Harvest n) (w : UpdateSpan) :
    isOwn r.queued w = true ↔ w.tsCall = r.tsCall ∧ w.tsResp = r.tsResp := by
  simp only [isOwn, Bool.and_eq_true, decide_eq_true_eq]
  exact Iff.rfl

theorem lookup_withoutOwn (spans : SpanMap n) (entry : QueuedSpan) (key : String) :
    (withoutOwn spans entry).lookup key = (spans.lookup key).map (dropOwn entry) :=
  @List.dlookup_map₂ _ _ _ _ spans.entries (fun _ => dropOwn entry) key

theorem mem_withoutOwn (spans : SpanMap n) (entry : QueuedSpan) (key : String) :
    key ∈ withoutOwn spans entry ↔ key ∈ spans := by
  rw [← AList.lookup_isSome, ← AList.lookup_isSome, lookup_withoutOwn, Option.isSome_map]

theorem AllChained.withoutOwn {spans : SpanMap n} (h : AllChained spans) (entry : QueuedSpan) :
    AllChained (withoutOwn spans entry) := by
  intro key keySpans hk d
  rw [lookup_withoutOwn] at hk
  obtain ⟨full, hfull, rfl⟩ := Option.map_eq_some_iff.mp hk
  exact (h key full hfull d).sublist List.filter_sublist

theorem Driven.eq_of_resp_eq {run : List (Harvest n)} (hd : Driven keys run) {a b : Harvest n}
    (ha : a ∈ run) (hb : b ∈ run) (h : a.tsResp = b.tsResp) : a = b := by
  have hnodup : (run.map Harvest.tsResp).Nodup :=
    List.pairwise_map.mpr (hd.resp_increasing.imp ne_of_lt)
  exact List.inj_on_of_nodup_map hnodup ha hb h

theorem Driven.others {run : List (Harvest n)} (hd : Driven keys run) (r : Harvest n) :
    Driven keys (others run r) :=
  hd.sublist List.filter_sublist

/-- The untrimmed updates of the other operations are the untrimmed updates
without the own span. -/
theorem updatesOn_others {run : List (Harvest n)} (hd : Driven keys run) {r : Harvest n}
    (hr : r ∈ run) (d : Fin n) (key : String) :
    updatesOn (others run r) d key =
      (updatesOn run d key).filter fun span => !isOwn r.queued span := by
  have hdummy : isOwn r.queued dummySpan = false := by
    have hlt := hd.call_lt_resp r hr
    rw [← Bool.not_eq_true, isOwn_queued]
    simp only [dummySpan]
    omega
  have hsame : (others run r).filterMap (fun a => if a.cidx = d then a.updateOn key else none) =
      (run.filterMap fun a => if a.cidx = d then a.updateOn key else none).filter fun span =>
        !isOwn r.queued span := by
    rw [others, List.filterMap_filter, List.filter_filterMap]
    refine List.filterMap_congr fun a ha => ?_
    cases hu : (if a.cidx = d then a.updateOn key else none) with
    | none => simp
    | some w =>
      split_ifs at hu
      obtain ⟨_, hcall, hresp⟩ := updateOn_eq_some.mp hu
      have hown : isOwn r.queued w = true ↔ a = r := by
        rw [isOwn_queued, hcall, hresp]
        exact ⟨fun h => hd.eq_of_resp_eq ha hr h.2, fun h => h ▸ ⟨rfl, rfl⟩⟩
      by_cases har : a = r
      · simp [hown.mpr har, har, Option.filter]
      · have hfalse : isOwn r.queued w = false := by simpa using mt hown.mp har
        simp [hfalse, har, Option.filter]
  simp [updatesOn, hsame, hdummy]

theorem Snapshot.offers_without_iff {past future : List (Harvest n)} {p : Popped n}
    (hs : Snapshot keys past p) (hd : Driven keys (past ++ future)) {r : Harvest n}
    (hr : r ∈ past ++ future) (hq : p.entry = r.queued) {key : String} (hkey : key ∈ p.spans)
    (explains : Option String → Bool) :
    MapOffers (withoutOwn p.spans p.entry) p.entry.tsCall p.entry.tsResp key explains ↔
      RunOffers (others (past ++ future) r) p.entry.tsCall p.entry.tsResp key explains := by
  obtain ⟨keySpans, hk⟩ := Option.isSome_iff_exists.mp (AList.lookup_isSome.mpr hkey)
  rw [mapOffers_of_lookup (by rw [lookup_withoutOwn, hk]; rfl)]
  refine exists_congr fun d => ?_
  obtain ⟨cut, later, hall, hcut, hlater⟩ := hs.middle hd hk d
  rw [updatesOn_others hd hr, ← hq, hall, List.filter_append, List.filter_append]
  refine offers_middle_iff ?_ (fun hne => ?_) (fun w hw => hlater w (List.mem_of_mem_filter hw))
    explains
  · have hfull := (updatesOn_others hd hr d key).symm ▸ updatesOn_chained (hd.others r) d key
    rwa [← hq, hall, List.filter_append, List.filter_append] at hfull
  · obtain ⟨w, hw, hover⟩ := hcut fun h => hne (by simp [h])
    have hentry := hs.entry_call_lt_resp hd
    have hne : w.tsResp ≠ p.entry.tsResp := by omega
    exact ⟨w, List.mem_filter.mpr ⟨hw, by simp [isOwn, hne]⟩, hover⟩

theorem Snapshot.verdict_without_iff {past future : List (Harvest n)} {p : Popped n}
    (hs : Snapshot keys past p) (hd : Driven keys (past ++ future)) {r : Harvest n}
    (hr : r ∈ past ++ future) (hq : p.entry = r.queued) :
    checkCall (withoutOwn p.spans p.entry) p.entry = true ↔
      OfflineAccepts keys (others (past ++ future) r) r.queued := by
  have hchained := hs.all_chained (hd.sublist (List.sublist_append_left past future))
  rw [checkCall_iff (hchained.withoutOwn p.entry), ← hq]
  refine Accepts.congr (fun key => ?_) (fun key hkey explains => ?_) _
  · rw [mem_withoutOwn]
    exact hs.known key
  · exact hs.offers_without_iff hd hr hq ((mem_withoutOwn _ _ _).mp hkey) explains

/-- What a run offers to one of its own operations: what the others offer, and
the value of its own update. -/
theorem runOffers_iff_others {run : List (Harvest n)} (hd : Driven keys run) {r : Harvest n}
    (hr : r ∈ run) (key : String) (explains : Option String → Bool) :
    RunOffers run r.tsCall r.tsResp key explains ↔
      RunOffers (others run r) r.tsCall r.tsResp key explains ∨
        ∃ w, r.updateOn key = some w ∧ explains w.value = true := by
  have hproper := hd.call_lt_resp r hr
  constructor
  · rintro ⟨d, w, hw, hlt, hv, hnone⟩
    by_cases hown : isOwn r.queued w = true
    · have hts := (isOwn_queued r w).mp hown
      rcases mem_updatesOn.mp hw with rfl | ⟨a, ha, _, hu⟩
      · simp only [dummySpan] at hts
        omega
      · have har := hd.eq_of_resp_eq ha hr ((updateOn_eq_some.mp hu).2.2.symm.trans hts.2)
        exact .inr ⟨w, har ▸ hu, hv⟩
    · left
      refine ⟨d, w, ?_, hlt, hv, fun w' hw' => hnone w' ?_⟩
      · rw [updatesOn_others hd hr]
        exact List.mem_filter.mpr ⟨hw, by simpa using hown⟩
      · rw [updatesOn_others hd hr] at hw'
        exact List.mem_of_mem_filter hw'
  · rintro (⟨d, w, hw, hlt, hv, hnone⟩ | ⟨w, hu, hv⟩)
    · rw [updatesOn_others hd hr] at hw hnone
      refine ⟨d, w, List.mem_of_mem_filter hw, hlt, hv, fun w' hw' hafter => ?_⟩
      by_cases hown : isOwn r.queued w' = true
      · have hts := (isOwn_queued r w').mp hown
        omega
      · exact hnone w' (List.mem_filter.mpr ⟨hw', by simpa using hown⟩) hafter
    · obtain ⟨_, hcall, hresp⟩ := updateOn_eq_some.mp hu
      refine ⟨r.cidx, w, mem_updatesOn.mpr (.inr ⟨r, hr, rfl, hu⟩), by omega, hv, ?_⟩
      intro w' hw' hafter
      have hw'p := (updatesOn_chained hd r.cidx key).proper w' hw'
      omega

theorem offlineAccepts_iff_others {run : List (Harvest n)} (hd : Driven keys run)
    {r : Harvest n} (hr : r ∈ run) (hresp : IsUpdateResp r.resp) :
    OfflineAccepts keys run r.queued ↔
      OfflineAccepts keys (others run r) r.queued ∨ r.Vouches := by
  have hpoint : ∀ key explains,
      (InPool keys key ∧ RunOffers run r.tsCall r.tsResp key explains ↔
        InPool keys key ∧ RunOffers (others run r) r.tsCall r.tsResp key explains ∨
          ∃ value, r.call.updateInfo = some (key, value) ∧ explains value = true) := by
    intro key explains
    have hown : (∃ w, r.updateOn key = some w ∧ explains w.value = true) ↔
        ∃ value, r.call.updateInfo = some (key, value) ∧ explains value = true := by
      constructor
      · rintro ⟨w, hu, hv⟩
        exact ⟨w.value, (updateOn_eq_some.mp hu).1, hv⟩
      · rintro ⟨value, hu, hv⟩
        exact ⟨⟨r.tsCall, r.tsResp, value⟩, updateOn_eq_some.mpr ⟨hu, rfl, rfl⟩, hv⟩
    have hpool : (∃ value, r.call.updateInfo = some (key, value) ∧ explains value = true) →
        InPool keys key := by
      rintro ⟨value, hu, _⟩
      exact hd.update_in_pool r hr key value hu
    rw [runOffers_iff_others hd hr, hown]
    constructor
    · rintro ⟨hp, h | h⟩
      · exact .inl ⟨hp, h⟩
      · exact .inr h
    · rintro (⟨hp, h⟩ | h)
      · exact ⟨hp, .inl h⟩
      · exact ⟨hpool h, .inr h⟩
  obtain ⟨cidx, tsCall, tsResp, call, resp⟩ := r
  cases resp with
  | put key found =>
    simpa [Harvest.Vouches, OfflineAccepts, Accepts, Harvest.queued] using
      hpoint key fun value => value.isSome == found
  | swap key oldValue =>
    simpa [Harvest.Vouches, OfflineAccepts, Accepts, Harvest.queued] using
      hpoint key fun value => value == oldValue
  | delete key found =>
    simpa [Harvest.Vouches, OfflineAccepts, Accepts, Harvest.queued] using
      hpoint key fun value => value.isSome == found
  | _ => exact hresp.elim

/-- The own span leaves the verdict on an update's response alone exactly when it
does not carry what is reported, or something else explains the report. -/
theorem verdict_eq_without_own_iff {run : List (Harvest n)} (hd : Driven keys run) {p : Popped n}
    (hp : p ∈ (History.new n keys).popLog run) {r : Harvest n} (hr : r ∈ run)
    (hq : p.entry = r.queued) (hresp : IsUpdateResp r.resp) :
    p.verdict = checkCall (withoutOwn p.spans p.entry) p.entry ↔
      ¬ r.Vouches ∨ OfflineAccepts keys (others run r) r.queued := by
  have hwith : p.verdict = true ↔ OfflineAccepts keys (others run r) r.queued ∨ r.Vouches := by
    rw [popLog_verdict_iff hd hp, hq, offlineAccepts_iff_others hd hr hresp]
  obtain ⟨past, future, rfl, hs⟩ := popLog_snapshot hd hp
  rw [Bool.eq_iff_iff, hwith, hs.verdict_without_iff hd hr hq]
  tauto

/-- A swap of an absent key, reported as it happened, and a later put. -/
def swapPut : List (Harvest 1) :=
  [⟨onlyClient, 1, 2, .swap "k" "v", .swap "k" none⟩,
    ⟨onlyClient, 3, 4, .put "k" "w", .put "k" true⟩]

theorem swapPut_driven : Driven [["k"]] swapPut where
  call_pos := by decide
  call_lt_resp := by decide
  resp_increasing := by decide
  one_outstanding := by decide
  update_in_pool := by simp [swapPut, KvCall.updateInfo, InPool]

theorem verdict_eq_without_own_swapPut :
    ∃ p ∈ (History.new 1 [["k"]]).popLog swapPut, p.entry = ⟨1, 2, .swap "k" none⟩ ∧
      p.verdict = checkCall (withoutOwn p.spans p.entry) p.entry := by
  have hex : ∃ p ∈ (History.new 1 [["k"]]).popLog swapPut,
      p.entry = ⟨1, 2, .swap "k" none⟩ := by decide
  obtain ⟨p, hp, he⟩ := hex
  refine ⟨p, hp, he, (verdict_eq_without_own_iff swapPut_driven hp
    (by decide : (⟨onlyClient, 1, 2, .swap "k" "v", .swap "k" none⟩ : Harvest 1) ∈ swapPut) he
    trivial).mpr (.inl ?_)⟩
  simp [Harvest.Vouches, KvCall.updateInfo]

/-- The first put of a key reports that the key was found. -/
def foundFirst : List (Harvest 1) :=
  [⟨onlyClient, 1, 2, .put "k" "v", .put "k" true⟩, ⟨onlyClient, 3, 4, .put "k" "w", .put "k" true⟩]

theorem foundFirst_driven : Driven [["k"]] foundFirst where
  call_pos := by decide
  call_lt_resp := by decide
  resp_increasing := by decide
  one_outstanding := by decide
  update_in_pool := by simp [foundFirst, KvCall.updateInfo, InPool]

/-- The first put of `foundFirst` is accepted on the strength of its own span. -/
theorem update_vouches_for_itself :
    ¬ ∀ (n : ℕ) (keys : List (List String)) (run : List (Harvest n)), Driven keys run →
      ∀ p ∈ (History.new n keys).popLog run, IsUpdateResp p.entry.resp →
        p.verdict = checkCall (withoutOwn p.spans p.entry) p.entry := by
  intro hclaim
  have hex : ∃ p ∈ (History.new 1 [["k"]]).popLog foundFirst, p.entry.resp = .put "k" true ∧
      p.verdict ≠ checkCall (withoutOwn p.spans p.entry) p.entry := by decide
  obtain ⟨p, hp, he, hne⟩ := hex
  exact hne (hclaim 1 [["k"]] foundFirst foundFirst_driven p hp (by simp [he, IsUpdateResp]))

end MadKV.Fuzzer
