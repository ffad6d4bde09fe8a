import MadKV.Fuzzer.Drive

/-!
# Trimming keeps what can still decide a check

The invariant `Remembers` relates the trimmed lists to the full run: what is cut
off lies behind a retained update that was over before every queued call and
before every call still to come. It follows that, at the moment an entry is
popped, its lists offer exactly what the untrimmed updates of any continuation
of the run offer (`popLog_snapshot`, `Snapshot.verdict_iff`).
-/

namespace MadKV.Fuzzer

open Runner Support

variable {n : ℕ} {keys : List (List String)}

/-- A retained span that hides everything before it from queued and future calls. -/
def Shields (h : History n) (w : UpdateSpan) : Prop :=
  (∀ e ∈ h.queue, w.tsResp < e.tsCall) ∧ ∀ d, w.tsResp < h.maxtr d

/-- The state of the checker after the responses `done` were harvested. -/
structure Remembers (keys : List (List String)) (done : List (Harvest n)) (h : History n) :
    Prop where
  known : ∀ key, key ∈ h.spans ↔ InPool keys key
  kept : ∀ key keySpans, h.spans.lookup key = some keySpans → ∀ d,
    ∃ cut, updatesOn done d key = cut ++ keySpans d ∧ (cut ≠ [] → ∃ w ∈ keySpans d, Shields h w)
  attained : ∀ d, h.maxtr d = 0 ∨
    ∃ r ∈ done, r.cidx = d ∧ r.call.updateInfo.isSome ∧ r.tsResp = h.maxtr d
  queued : ∀ e ∈ h.queue, ∃ r ∈ done, r.queued = e

/-! ## The initial state -/

theorem lookup_insertKey (spans : SpanMap n) (key k : String) :
    (insertKey n spans key).lookup k =
      if k ∈ spans then spans.lookup k
      else if k = key then some fun _ => [dummySpan] else none := by
  unfold insertKey
  have hnone : k ∉ spans → spans.lookup k = none := AList.lookup_eq_none.mpr
  by_cases hk : k = key
  · subst hk
    by_cases hmem : k ∈ spans <;> simp [hmem, AList.lookup_insert]
  · by_cases hmem : k ∈ spans <;> by_cases hkey : key ∈ spans <;>
      simp [hmem, hkey, hk, AList.lookup_insert_ne hk, hnone]

/-- Every list of the map is the dummy alone, and the keys are those in `pool`. -/
def Fresh (pool : String → Prop) (spans : SpanMap n) : Prop :=
  ∀ key, (pool key → spans.lookup key = some fun _ => [dummySpan]) ∧
    (¬ pool key → spans.lookup key = none)

theorem Fresh.insertKey {pool : String → Prop} {spans : SpanMap n} (h : Fresh pool spans)
    (key : String) : Fresh (fun k => pool k ∨ k = key) (insertKey n spans key) := by
  intro k
  have hmem : k ∈ spans ↔ pool k := by
    rw [← AList.lookup_isSome]
    by_cases hp : pool k
    · simp [(h k).1 hp, hp]
    · simp [(h k).2 hp, hp]
  rw [lookup_insertKey]
  by_cases hp : pool k
  · simp [hmem, hp, (h k).1 hp]
  · by_cases hk : k = key
    · subst hk
      simp [hmem, hp]
    · simp [hmem, hp, hk]

theorem Fresh.foldl_insertKey (cliKeys : List String) :
    ∀ {pool : String → Prop} {spans : SpanMap n}, Fresh pool spans →
      Fresh (fun k => pool k ∨ k ∈ cliKeys) (cliKeys.foldl (Fuzzer.insertKey n) spans) := by
  induction cliKeys with
  | nil =>
    intro pool spans h
    simpa using h
  | cons key cliKeys ih =>
    intro pool spans h
    simpa [or_assoc] using ih (h.insertKey key)

theorem Fresh.foldl (keys : List (List String)) :
    ∀ {pool : String → Prop} {spans : SpanMap n}, Fresh pool spans →
      Fresh (fun k => pool k ∨ InPool keys k)
        (keys.foldl (fun spans cliKeys => cliKeys.foldl (Fuzzer.insertKey n) spans) spans) := by
  induction keys with
  | nil =>
    intro pool spans h
    simpa [InPool] using h
  | cons cliKeys keys ih =>
    intro pool spans h
    simpa [InPool, or_assoc] using ih (h.foldl_insertKey cliKeys)

theorem new_fresh (n : ℕ) (keys : List (List String)) :
    Fresh (InPool keys) (History.new n keys).spans := by
  have hempty : Fresh (fun _ => False) (∅ : SpanMap n) := by
    intro key
    simp
  simpa [History.new] using hempty.foldl keys

theorem Remembers.new (n : ℕ) (keys : List (List String)) :
    Remembers keys [] (History.new n keys) where
  known := by
    intro key
    have h := new_fresh n keys key
    rw [← AList.lookup_isSome]
    by_cases hp : InPool keys key
    · simp [h.1 hp, hp]
    · simp [h.2 hp, hp]
  kept := by
    intro key keySpans hk d
    have h := new_fresh n keys key
    by_cases hp : InPool keys key
    · cases (h.1 hp).symm.trans hk
      exact ⟨[], by simp [updatesOn], by simp⟩
    · simp [h.2 hp] at hk
  attained := fun _ => .inl rfl
  queued := by simp [History.new]

/-! ## One harvested response -/

theorem minOf_le (cidx : Fin n) (maxtr : Fin n → ℕ) (d : Fin n) :
    minOf cidx maxtr ≤ maxtr d :=
  Finset.inf'_le maxtr (Finset.mem_univ d)

theorem lt_minOf_iff {cidx : Fin n} {maxtr : Fin n → ℕ} {t : ℕ} :
    t < minOf cidx maxtr ↔ ∀ d, t < maxtr d := by
  obtain ⟨least, _, hleast⟩ := Finset.exists_mem_eq_inf' ⟨cidx, Finset.mem_univ cidx⟩ maxtr
  constructor
  · intro h d
    exact h.trans_le (minOf_le cidx maxtr d)
  · intro h
    exact (h least).trans_eq hleast.symm

theorem minQueued_le {queue : List QueuedSpan} {e : QueuedSpan} (he : e ∈ queue) :
    minQueued queue ≤ e.tsCall := by
  have hmem : e.tsCall ∈ queue.map QueuedSpan.tsCall := List.mem_map_of_mem he
  obtain ⟨m, hm⟩ := Option.isSome_iff_exists.mp (List.isSome_min?_of_mem hmem)
  rw [minQueued, hm]
  exact (List.min?_eq_some_iff.mp hm).2 _ hmem

/-- Trimming a chain cuts a prefix, and only behind a retained span that is below
both bounds. -/
theorem trimSpans_spec {spans : List UpdateSpan} (h : Chained spans) (minComingTs minQueuedTs : ℕ) :
    ∃ cut, spans = cut ++ trimSpans minComingTs minQueuedTs spans ∧
      (cut ≠ [] → ∃ w ∈ trimSpans minComingTs minQueuedTs spans,
        w.tsResp < minComingTs ∧ w.tsResp < minQueuedTs) := by
  rcases trim_newest h (fun span => decide (span.tsResp < minComingTs) &&
    decide (span.tsResp < minQueuedTs)) Nat.zero_le with ⟨pre, w, post, he, hw, _, ht⟩ | ⟨_, ht⟩
  · have ht' : trimSpans minComingTs minQueuedTs spans = w :: post := ht
    refine ⟨pre, by rw [ht', he], fun _ => ⟨w, by simp [ht'], by simpa using hw⟩⟩
  · have ht' : trimSpans minComingTs minQueuedTs spans = spans := ht
    exact ⟨[], by simp [ht'], by simp⟩

/-- Trimming keeps a span with property `P` behind every cut, when one was there
before and all spans below both bounds have it. -/
theorem trimSpans_kept {P : UpdateSpan → Prop} {cut spans : List UpdateSpan}
    {minComingTs minQueuedTs : ℕ} (h : Chained spans) (hcut : cut ≠ [] → ∃ w ∈ spans, P w)
    (hbelow : ∀ w : UpdateSpan, w.tsResp < minComingTs → w.tsResp < minQueuedTs → P w) :
    ∃ cut', cut ++ spans = cut' ++ trimSpans minComingTs minQueuedTs spans ∧
      (cut' ≠ [] → ∃ w ∈ trimSpans minComingTs minQueuedTs spans, P w) := by
  obtain ⟨front, he, hfront⟩ := trimSpans_spec h minComingTs minQueuedTs
  refine ⟨cut ++ front, by rw [List.append_assoc, ← he], fun hne => ?_⟩
  by_cases hf : front = []
  · rw [hf, List.nil_append] at he
    rw [← he]
    exact hcut (by simpa [hf] using hne)
  · obtain ⟨w, hw, hcoming, hqueued⟩ := hfront hf
    exact ⟨w, hw, hbelow w hcoming hqueued⟩

theorem Driven.maxtr_lt_call {done : List (Harvest n)} {r : Harvest n} {h : History n}
    (hd : Driven keys (done ++ [r])) (hr : Remembers keys done h) :
    h.maxtr r.cidx < r.tsCall := by
  rcases hr.attained r.cidx with h0 | ⟨a, ha, hc, _, he⟩
  · rw [h0]
    exact hd.call_pos r (by simp)
  · rw [← he]
    exact hd.resp_lt_call ha (by simp) hc

theorem Driven.maxtr_lt_resp {done : List (Harvest n)} {r : Harvest n} {h : History n}
    (hd : Driven keys (done ++ [r])) (hr : Remembers keys done h) (d : Fin n) :
    h.maxtr d < r.tsResp := by
  rcases hr.attained d with h0 | ⟨a, ha, _, _, he⟩
  · rw [h0]
    exact (Nat.zero_le _).trans_lt (hd.call_lt_resp r (by simp))
  · rw [← he]
    exact hd.resp_lt ha (by simp)

/-- A shielding span still shields once `r` is queued. -/
theorem Shields.addToQueue {done : List (Harvest n)} {r : Harvest n} {h : History n}
    (hd : Driven keys (done ++ [r])) (hr : Remembers keys done h) {w : UpdateSpan}
    (hw : Shields h w) : Shields (h.addToQueue r.tsCall r.tsResp r.resp) w := by
  refine ⟨?_, hw.2⟩
  intro e he
  rcases List.mem_append.mp he with he | he
  · exact hw.1 e he
  · rw [List.mem_singleton.mp he]
    exact (hw.2 r.cidx).trans (hd.maxtr_lt_call hr)

theorem Remembers.queued_addToQueue {done : List (Harvest n)} {r : Harvest n} {h : History n}
    (hr : Remembers keys done h) : ∀ e ∈ (h.addToQueue r.tsCall r.tsResp r.resp).queue,
      ∃ a ∈ done ++ [r], a.queued = e := by
  intro e he
  rcases List.mem_append.mp he with he | he
  · obtain ⟨a, ha, hq⟩ := hr.queued e he
    exact ⟨a, by simp [ha], hq⟩
  · exact ⟨r, by simp, (List.mem_singleton.mp he).symm⟩

theorem Remembers.read {done : List (Harvest n)} {r : Harvest n} {h : History n}
    (hd : Driven keys (done ++ [r])) (hr : Remembers keys done h)
    (hread : r.call.updateInfo = none) :
    Remembers keys (done ++ [r]) (h.addToQueue r.tsCall r.tsResp r.resp) where
  known := hr.known
  kept := by
    intro key keySpans hk d
    obtain ⟨cut, he, hcut⟩ := hr.kept key keySpans hk d
    refine ⟨cut, ?_, fun hne => ?_⟩
    · simp [updatesOn_append, he, Harvest.updateOn, hread]
    · obtain ⟨w, hmem, hw⟩ := hcut hne
      exact ⟨w, hmem, hw.addToQueue hd hr⟩
  attained := by
    intro d
    rcases hr.attained d with h0 | ⟨a, ha, hrest⟩
    · exact .inl h0
    · exact .inr ⟨a, by simp [ha], hrest⟩
  queued := hr.queued_addToQueue

/-- A shielding span still shields once the update `r` is queued and recorded. -/
theorem Shields.pushed {done : List (Harvest n)} {r : Harvest n} {h : History n}
    (hd : Driven keys (done ++ [r])) (hr : Remembers keys done h) {w : UpdateSpan}
    (hw : Shields h w) (spans : SpanMap n) :
    Shields { queue := (h.addToQueue r.tsCall r.tsResp r.resp).queue, spans,
              maxtr := Function.update h.maxtr r.cidx r.tsResp } w := by
  refine ⟨(hw.addToQueue hd hr).1, ?_⟩
  intro d
  by_cases hc : d = r.cidx
  · subst hc
    simpa using (hw.2 r.cidx).trans (hd.maxtr_lt_resp hr r.cidx)
  · simpa [hc] using hw.2 d

theorem Remembers.update {done : List (Harvest n)} {r : Harvest n} {h : History n}
    {key : String} {value : Option String} (hd : Driven keys (done ++ [r]))
    (hr : Remembers keys done h) (hu : r.call.updateInfo = some (key, value)) :
    ∃ h', (h.addToQueue r.tsCall r.tsResp r.resp).pushUpdate r.cidx key
        ⟨r.tsCall, r.tsResp, value⟩ = some h' ∧ Remembers keys (done ++ [r]) h' := by
  have hmem : key ∈ h.spans := (hr.known key).mpr (hd.update_in_pool r (by simp) key value hu)
  obtain ⟨keySpans, hk⟩ := Option.isSome_iff_exists.mp (AList.lookup_isSome.mpr hmem)
  have hon : ∀ k, r.updateOn k = if key = k then some ⟨r.tsCall, r.tsResp, value⟩ else none := by
    intro k
    simp [Harvest.updateOn, hu]
  simp only [History.pushUpdate, addToQueue_spans, addToQueue_maxtr, hk, Option.some.injEq,
    exists_eq_left']
  refine ⟨?_, ?_, ?_, hr.queued_addToQueue⟩
  · intro k
    rw [AList.mem_insert, ← hr.known k]
    refine ⟨?_, Or.inr⟩
    rintro (rfl | hin)
    · exact hmem
    · exact hin
  · intro k ks hks d
    by_cases hkk : k = key
    · subst hkk
      rw [AList.lookup_insert, Option.some.injEq] at hks
      subst hks
      obtain ⟨cut, he, hcut⟩ := hr.kept k keySpans hk d
      -- the untrimmed updates are the old cut followed by the list after the push
      have hall : updatesOn (done ++ [r]) d k = cut ++ Function.update keySpans r.cidx
          (keySpans r.cidx ++ [⟨r.tsCall, r.tsResp, value⟩]) d := by
        rw [updatesOn_append, he]
        by_cases hc : r.cidx = d
        · subst hc
          simp [hon]
        · simp [hc, Ne.symm hc]
      rw [hall]
      refine trimSpans_kept ((updatesOn_chained hd d k).sublist
        (hall ▸ List.sublist_append_right cut _)) (fun hne => ?_) fun w hcoming hqueued =>
          ⟨fun e he => hqueued.trans_le (minQueued_le he),
            fun c => hcoming.trans_le (minOf_le r.cidx _ c)⟩
      obtain ⟨w, hw, hs⟩ := hcut hne
      refine ⟨w, ?_, hs.pushed hd hr _⟩
      by_cases hc : d = r.cidx
      · subst hc
        simp [hw]
      · simpa [hc] using hw
    · rw [AList.lookup_insert_ne hkk] at hks
      obtain ⟨cut, he, hcut⟩ := hr.kept k ks hks d
      refine ⟨cut, by simp [updatesOn_append, he, hon, Ne.symm hkk], fun hne => ?_⟩
      obtain ⟨w, hw, hs⟩ := hcut hne
      exact ⟨w, hw, hs.pushed hd hr _⟩
  · intro d
    by_cases hc : d = r.cidx
    · subst hc
      exact .inr ⟨r, by simp, rfl, by simp [hu], by simp⟩
    · rcases hr.attained d with h0 | ⟨a, ha, hrest⟩
      · exact .inl (by simpa [hc] using h0)
      · exact .inr ⟨a, by simp [ha], by simpa [hc] using hrest⟩

theorem Remembers.popQueue {done : List (Harvest n)} {h : History n}
    (hr : Remembers keys done h) (cidx : Fin n) :
    Remembers keys done (h.popQueue cidx).2 := by
  have hsub : ∀ e ∈ (h.popQueue cidx).2.queue, e ∈ h.queue := by
    intro e he
    rw [← popDecided_queue h.spans (minOf cidx h.maxtr) h.queue]
    exact List.mem_append_right _ he
  refine ⟨hr.known, ?_, hr.attained, fun e he => hr.queued e (hsub e he)⟩
  intro key keySpans hk d
  obtain ⟨cut, he, hcut⟩ := hr.kept key keySpans hk d
  refine ⟨cut, he, fun hne => ?_⟩
  obtain ⟨w, hw, hs⟩ := hcut hne
  exact ⟨w, hw, fun e he => hs.1 e (hsub e he), hs.2⟩

/-- Whatever the verdicts, the lists after a response remember it too. -/
theorem Remembers.harvest_state {done : List (Harvest n)} {r : Harvest n} {h : History n}
    (hd : Driven keys (done ++ [r])) (hr : Remembers keys done h) :
    Remembers keys (done ++ [r]) (h.harvest r).2 := by
  unfold History.harvest
  cases hu : r.call.updateInfo with
  | none => exact hr.read hd hu
  | some u =>
    obtain ⟨key, value⟩ := u
    obtain ⟨pushed, hp, hpr⟩ := hr.update hd hu
    simp only [History.applyUpdate, hp]
    exact hpr.popQueue r.cidx

theorem Remembers.harvest {done : List (Harvest n)} {r : Harvest n} {h h' : History n}
    (hd : Driven keys (done ++ [r])) (hr : Remembers keys done h)
    (hh : h.harvest r = (none, h')) : Remembers keys (done ++ [r]) h' := by
  have hstate := hr.harvest_state hd
  rwa [hh] at hstate

theorem Remembers.feed {rest : List (Harvest n)} :
    ∀ {done : List (Harvest n)} {h h' : History n}, Driven keys (done ++ rest) →
      Remembers keys done h → h.feed rest = (none, h') → Remembers keys (done ++ rest) h' := by
  induction rest with
  | nil =>
    intro done h h' _ hr hf
    cases hf
    simpa using hr
  | cons r rest ih =>
    intro done h h' hd hr hf
    have hsplit : done ++ r :: rest = done ++ [r] ++ rest := by simp
    have hd' : Driven keys (done ++ [r]) :=
      hd.sublist (hsplit ▸ List.sublist_append_left (done ++ [r]) rest)
    cases hh : h.harvest r with
    | mk complaint next =>
      cases complaint with
      | none =>
        simp only [History.feed, hh] at hf
        rw [hsplit] at hd ⊢
        exact ih hd (hr.harvest hd' hh) hf
      | some c => simp [History.feed, hh] at hf

theorem Remembers.knows_key {done : List (Harvest n)} {r : Harvest n} {h : History n}
    (hd : Driven keys (done ++ [r])) (hr : Remembers keys done h) :
    (h.harvest r).1 ≠ some none := by
  cases hu : r.call.updateInfo with
  | none => simp [History.harvest, hu]
  | some u =>
    obtain ⟨key, value⟩ := u
    obtain ⟨pushed, hp, _⟩ := hr.update hd hu
    simp [History.harvest, hu, History.applyUpdate, hp]

theorem feed_knows_keys_from {rest : List (Harvest n)} :
    ∀ {done : List (Harvest n)} {h : History n}, Driven keys (done ++ rest) →
      Remembers keys done h → (h.feed rest).1 ≠ some none := by
  induction rest with
  | nil => simp [History.feed]
  | cons r rest ih =>
    intro done h hd hr
    have hsplit : done ++ r :: rest = done ++ [r] ++ rest := by simp
    have hd' : Driven keys (done ++ [r]) :=
      hd.sublist (hsplit ▸ List.sublist_append_left (done ++ [r]) rest)
    have hknows := hr.knows_key hd'
    cases hh : h.harvest r with
    | mk complaint h' =>
      cases complaint with
      | some c => simpa [History.feed, hh] using hknows
      | none =>
        rw [hsplit] at hd
        simpa [History.feed, hh] using ih hd (hr.harvest hd' hh)

/-- No update key of a driven run is unexpected. -/
theorem feed_knows_keys {run : List (Harvest n)} (hd : Driven keys run) :
    ((History.new n keys).feed run).1 ≠ some none :=
  feed_knows_keys_from hd (Remembers.new n keys)

/-! ## The moment of a check -/

/-- The state in which an entry is checked: its lists remember the responses
`done`, and every client has acknowledged an update after the entry's response. -/
structure Snapshot (keys : List (List String)) (done : List (Harvest n)) (p : Popped n) :
    Prop where
  remembers : ∃ h : History n, Remembers keys done h ∧ h.spans = p.spans ∧ p.entry ∈ h.queue
  overtaken : ∀ d, ∃ r ∈ done, r.cidx = d ∧ r.call.updateInfo.isSome ∧
    p.entry.tsResp < r.tsResp

theorem popped_snapshot {done : List (Harvest n)} {r : Harvest n} {h : History n}
    (hd : Driven keys (done ++ [r])) (hr : Remembers keys done h) {p : Popped n}
    (hp : p ∈ h.popped r) : Snapshot keys (done ++ [r]) p := by
  unfold History.popped at hp
  cases hu : r.call.updateInfo with
  | none => simp [hu] at hp
  | some u =>
    obtain ⟨key, value⟩ := u
    obtain ⟨pushed, hpush, hpr⟩ := hr.update hd hu
    simp only [hu, hpush, List.mem_map] at hp
    obtain ⟨entry, he, rfl⟩ := hp
    obtain ⟨hin, hlt⟩ := poppedEntries_decided entry he
    refine ⟨⟨pushed, hpr, rfl, hin⟩, fun d => ?_⟩
    have hbelow : entry.tsResp < pushed.maxtr d := hlt.trans_le (minOf_le _ _ d)
    rcases hpr.attained d with h0 | ⟨a, ha, hc, hup, hts⟩
    · omega
    · exact ⟨a, ha, hc, hup, by rw [hts]; exact hbelow⟩

theorem popLog_snapshot_from {rest : List (Harvest n)} :
    ∀ {done : List (Harvest n)} {h : History n}, Driven keys (done ++ rest) →
      Remembers keys done h → ∀ p ∈ h.popLog rest,
        ∃ past future, done ++ rest = past ++ future ∧ Snapshot keys past p := by
  induction rest with
  | nil =>
    intro done h _ _ p hp
    simp [History.popLog] at hp
  | cons r rest ih =>
    intro done h hd hr p hp
    have hsplit : done ++ r :: rest = done ++ [r] ++ rest := by simp
    have hd' : Driven keys (done ++ [r]) :=
      hd.sublist (hsplit ▸ List.sublist_append_left (done ++ [r]) rest)
    rcases List.mem_append.mp hp with hp | hp
    · exact ⟨done ++ [r], rest, hsplit, popped_snapshot hd' hr hp⟩
    · cases hh : h.harvest r with
      | mk complaint h' =>
        cases complaint with
        | some c => simp [hh] at hp
        | none =>
          rw [hsplit] at hd ⊢
          exact ih hd (hr.harvest hd' hh) p (by simpa [hh] using hp)

/-- Every entry popped in a run is checked in a snapshot of some prefix of it. -/
theorem popLog_snapshot {run : List (Harvest n)} (hd : Driven keys run) {p : Popped n}
    (hp : p ∈ (History.new n keys).popLog run) :
    ∃ past future, run = past ++ future ∧ Snapshot keys past p :=
  popLog_snapshot_from hd (Remembers.new n keys) p hp

/-- What is popped in a run was harvested in it. -/
theorem popped_harvested {run : List (Harvest n)} (hd : Driven keys run) {p : Popped n}
    (hp : p ∈ (History.new n keys).popLog run) : ∃ r ∈ run, p.entry = r.queued := by
  obtain ⟨past, future, rfl, hs⟩ := popLog_snapshot hd hp
  obtain ⟨_, hr, _, hq⟩ := hs.remembers
  obtain ⟨r, hmem, he⟩ := hr.queued _ hq
  exact ⟨r, List.mem_append_left future hmem, he.symm⟩

end MadKV.Fuzzer
