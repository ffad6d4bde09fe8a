import MadKV.Fuzzer.Retention

/-!
# Online checking equals offline checking

The offline checker looks at the updates of the whole run, nothing trimmed and
nothing missing. Because trimming keeps what matters and later updates begin too
late to matter, every verdict given while the run is still going on is the
offline verdict.
-/

namespace MadKV.Fuzzer

open Runner Support

variable {n : ℕ} {keys : List (List String)}

/-- Some client's updates in the whole run, or its initial dummy deletion, can
explain the value. -/
def RunOffers (run : List (Harvest n)) (tsCall tsResp : ℕ) (key : String)
    (explains : Option String → Bool) : Prop :=
  ∃ d, Offers (updatesOn run d key) tsCall tsResp explains

/-- The offline verdict on a response, over all updates of the run. -/
def OfflineAccepts (keys : List (List String)) (run : List (Harvest n)) (entry : QueuedSpan) :
    Prop :=
  Accepts (InPool keys) (RunOffers run entry.tsCall entry.tsResp) entry.resp

/-- Neither a prefix hidden behind a finished span nor spans that begin after
the response change what a chain offers. -/
theorem offers_middle_iff {cut kept later : List UpdateSpan} {tsCall tsResp : ℕ}
    (hchain : Chained (cut ++ kept ++ later))
    (hcut : cut ≠ [] → ∃ w ∈ kept, w.tsResp < tsCall)
    (hlater : ∀ w ∈ later, tsResp ≤ w.tsCall ∧ tsCall ≤ w.tsResp)
    (explains : Option String → Bool) :
    Offers kept tsCall tsResp explains ↔ Offers (cut ++ kept ++ later) tsCall tsResp explains := by
  have hbefore : ∀ a ∈ cut, ∀ b ∈ kept, a.tsCall < b.tsCall := by
    have hc := hchain.calls_increase
    rw [List.pairwise_append, List.pairwise_append] at hc
    exact hc.1.2.2
  constructor
  · rintro ⟨w, hw, hlt, hv, hnone⟩
    refine ⟨w, by simp [hw], hlt, hv, fun w' hw' hafter => ?_⟩
    rcases List.mem_append.mp hw' with hw' | hw'
    · rcases List.mem_append.mp hw' with hw' | hw'
      · exact absurd hafter (hbefore w' hw' w hw).asymm
      · exact hnone w' hw' hafter
    · exact (hlater w' hw').2.not_gt
  · rintro ⟨w, hw, hlt, hv, hnone⟩
    rcases List.mem_append.mp hw with hw | hw
    · rcases List.mem_append.mp hw with hw | hw
      · obtain ⟨s, hs, hover⟩ := hcut (List.ne_nil_of_mem hw)
        exact absurd hover (hnone s (by simp [hs]) (hbefore w hw s hs))
      · exact ⟨w, hw, hlt, hv, fun w' hw' => hnone w' (by simp [hw'])⟩
    · exact absurd hlt (hlater w hw).1.not_gt

/-- A client that acknowledged an update after the response of `p` begins its
further updates later still. -/
theorem Snapshot.future_after {past future : List (Harvest n)} {p : Popped n}
    (hs : Snapshot keys past p) (hd : Driven keys (past ++ future)) {r : Harvest n}
    (hr : r ∈ future) : p.entry.tsResp < r.tsCall := by
  obtain ⟨a, ha, hc, _, hlt⟩ := hs.overtaken r.cidx
  exact hlt.trans (hd.resp_lt_call ha hr hc)

theorem Snapshot.entry_call_lt_resp {past future : List (Harvest n)} {p : Popped n}
    (hs : Snapshot keys past p) (hd : Driven keys (past ++ future)) :
    p.entry.tsCall < p.entry.tsResp := by
  obtain ⟨h, hr, _, hq⟩ := hs.remembers
  obtain ⟨a, ha, he⟩ := hr.queued _ hq
  rw [← he]
  exact hd.call_lt_resp a (by simp [ha])

theorem Snapshot.all_chained {past : List (Harvest n)} {p : Popped n}
    (hs : Snapshot keys past p) (hd : Driven keys past) : AllChained p.spans := by
  obtain ⟨h, hr, hspans, _⟩ := hs.remembers
  intro key keySpans hk d
  obtain ⟨cut, he, _⟩ := hr.kept key keySpans (hspans ▸ hk) d
  exact (updatesOn_chained hd d key).sublist (he ▸ List.sublist_append_right cut _)

theorem Snapshot.known {past : List (Harvest n)} {p : Popped n}
    (hs : Snapshot keys past p) (key : String) : key ∈ p.spans ↔ InPool keys key := by
  obtain ⟨h, hr, hspans, _⟩ := hs.remembers
  exact hspans ▸ hr.known key

/-- Where the list of a snapshot sits among the updates of the whole run. -/
theorem Snapshot.middle {past future : List (Harvest n)} {p : Popped n}
    (hs : Snapshot keys past p) (hd : Driven keys (past ++ future)) {key : String}
    {keySpans : KeySpans n} (hk : p.spans.lookup key = some keySpans) (d : Fin n) :
    ∃ cut later, updatesOn (past ++ future) d key = cut ++ keySpans d ++ later ∧
      (cut ≠ [] → ∃ w ∈ keySpans d, w.tsResp < p.entry.tsCall) ∧
      ∀ w ∈ later, p.entry.tsResp ≤ w.tsCall ∧ p.entry.tsCall ≤ w.tsResp := by
  obtain ⟨h, hr, hspans, hq⟩ := hs.remembers
  obtain ⟨cut, he, hcut⟩ := hr.kept key keySpans (hspans ▸ hk) d
  refine ⟨cut, _, by rw [updatesOn_append, he], fun hne => ?_, fun w hw => ?_⟩
  · obtain ⟨w, hw, hshield⟩ := hcut hne
    exact ⟨w, hw, hshield.1 p.entry hq⟩
  · obtain ⟨r, hr, hu⟩ := List.mem_filterMap.mp hw
    split_ifs at hu with hc
    obtain ⟨_, hcall, hresp⟩ := updateOn_eq_some.mp hu
    have hafter := hs.future_after hd hr
    have hentry := hs.entry_call_lt_resp hd
    have hproper := hd.call_lt_resp r (by simp [hr])
    omega

/-- The lists of the snapshot offer what the whole run offers. -/
theorem Snapshot.offers_iff {past future : List (Harvest n)} {p : Popped n}
    (hs : Snapshot keys past p) (hd : Driven keys (past ++ future)) {key : String}
    (hkey : key ∈ p.spans) (explains : Option String → Bool) :
    MapOffers p.spans p.entry.tsCall p.entry.tsResp key explains ↔
      RunOffers (past ++ future) p.entry.tsCall p.entry.tsResp key explains := by
  obtain ⟨keySpans, hk⟩ := Option.isSome_iff_exists.mp (AList.lookup_isSome.mpr hkey)
  rw [mapOffers_of_lookup hk]
  refine exists_congr fun d => ?_
  obtain ⟨cut, later, hall, hcut, hlater⟩ := hs.middle hd hk d
  rw [hall]
  exact offers_middle_iff (hall ▸ updatesOn_chained hd d key) hcut hlater explains

theorem Snapshot.verdict_iff {past future : List (Harvest n)} {p : Popped n}
    (hs : Snapshot keys past p) (hd : Driven keys (past ++ future)) :
    p.verdict = true ↔ OfflineAccepts keys (past ++ future) p.entry := by
  rw [Popped.verdict, checkCall_iff
    (hs.all_chained (hd.sublist (List.sublist_append_left past future)))]
  exact Accepts.congr hs.known (fun key hkey explains => hs.offers_iff hd hkey explains) _

theorem popLog_verdict_iff {run : List (Harvest n)} (hd : Driven keys run) {p : Popped n}
    (hp : p ∈ (History.new n keys).popLog run) :
    p.verdict = true ↔ OfflineAccepts keys run p.entry := by
  obtain ⟨past, future, rfl, hs⟩ := popLog_snapshot hd hp
  exact hs.verdict_iff hd

/-- Along every run the checker's verdicts are the offline ones, and it stops
with a response exactly when that response is popped and offline unacceptable. -/
theorem online_iff_offline {run : List (Harvest n)} (hd : Driven keys run) :
    (∀ p ∈ (History.new n keys).popLog run,
      (p.verdict = true ↔ OfflineAccepts keys run p.entry)) ∧
    ∀ resp, ((History.new n keys).feed run).1 = some (some resp) ↔
      ∃ p ∈ (History.new n keys).popLog run,
        p.entry.resp = resp ∧ ¬ OfflineAccepts keys run p.entry := by
  refine ⟨fun p hp => popLog_verdict_iff hd hp, fun resp => ?_⟩
  rw [feed_rejects_iff]
  refine exists_congr fun p => and_congr_right fun hp => and_congr_right fun _ => ?_
  rw [← popLog_verdict_iff hd hp]
  simp

/-- Two puts by one client: the second makes the first decidable. -/
def twoPuts : List (Harvest 1) :=
  [⟨onlyClient, 1, 2, .put "k" "v", .put "k" false⟩,
    ⟨onlyClient, 3, 4, .put "k" "w", .put "k" true⟩]

theorem twoPuts_driven : Driven [["k"]] twoPuts where
  call_pos := by decide
  call_lt_resp := by decide
  resp_increasing := by decide
  one_outstanding := by decide
  update_in_pool := by simp [twoPuts, KvCall.updateInfo, InPool]

theorem online_iff_offline_twoPuts :
    ((History.new 1 [["k"]]).popLog twoPuts).length = 1 ∧
    (∀ p ∈ (History.new 1 [["k"]]).popLog twoPuts,
      (p.verdict = true ↔ OfflineAccepts [["k"]] twoPuts p.entry)) ∧
    ∀ resp, ((History.new 1 [["k"]]).feed twoPuts).1 = some (some resp) ↔
      ∃ p ∈ (History.new 1 [["k"]]).popLog twoPuts,
        p.entry.resp = resp ∧ ¬ OfflineAccepts [["k"]] twoPuts p.entry :=
  ⟨by decide, online_iff_offline twoPuts_driven⟩

end MadKV.Fuzzer
