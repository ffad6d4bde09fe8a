import MadKV.Fuzzer.Sequential

/-!
# No response skips its check

Popped entries and queued ones are together all that was ever queued, in order,
and the queue begins where some client has not acknowledged an update yet. A
test that is reported as passed has therefore checked and accepted all but the
latest responses.
-/

namespace MadKV.Fuzzer

open Runner

variable {n : ℕ} {pool : List (List String)}

/-! ## Accounting -/

theorem pushUpdate_queue {h h' : History n} {cidx : Fin n} {key : String} {span : UpdateSpan}
    (hp : h.pushUpdate cidx key span = some h') :
    h'.queue = h.queue ∧ h'.maxtr = Function.update h.maxtr cidx span.tsResp := by
  unfold History.pushUpdate at hp
  cases hk : h.spans.lookup key with
  | none => simp [hk] at hp
  | some keySpans =>
    simp only [hk, Option.some.injEq] at hp
    rw [← hp]
    exact ⟨rfl, rfl⟩

/-- An accepted response is queued, and what it pops leaves the queue at the front. -/
theorem harvest_accounts {h h' : History n} {r : Harvest n} (hh : h.harvest r = (none, h')) :
    (h.popped r).map Popped.entry ++ h'.queue = h.queue ++ [r.queued] ∧
      ∀ d, h'.maxtr d =
        if r.cidx = d ∧ r.call.updateInfo.isSome then r.tsResp else h.maxtr d := by
  unfold History.harvest at hh
  unfold History.popped
  cases hu : r.call.updateInfo with
  | none =>
    simp only [hu, Prod.mk.injEq, true_and] at hh
    rw [← hh]
    exact ⟨rfl, by simp⟩
  | some u =>
    obtain ⟨key, value⟩ := u
    simp only [hu, History.applyUpdate] at hh ⊢
    cases hp : (h.addToQueue r.tsCall r.tsResp r.resp).pushUpdate r.cidx key
        ⟨r.tsCall, r.tsResp, value⟩ with
    | none => simp [hp] at hh
    | some pushed =>
      obtain ⟨hqueue, hmaxtr⟩ := pushUpdate_queue hp
      simp only [hp, Prod.mk.injEq] at hh
      rw [← hh.2]
      refine ⟨?_, fun d => ?_⟩
      · have hsplit := popDecided_queue pushed.spans (minOf r.cidx pushed.maxtr) pushed.queue
        rw [show pushed.queue = h.queue ++ [r.queued] from hqueue] at hsplit
        simpa [History.popQueue, Function.comp_def, hqueue, History.addToQueue,
          Harvest.queued] using hsplit
      · by_cases hd : r.cidx = d
        · subst hd
          simp [History.popQueue, hmaxtr]
        · simp [History.popQueue, hmaxtr, hd, Ne.symm hd]

theorem feed_accounts {run : List (Harvest n)} :
    ∀ {h h' : History n}, h.feed run = (none, h') →
      (h.popLog run).map Popped.entry ++ h'.queue = h.queue ++ run.map Harvest.queued := by
  induction run with
  | nil =>
    intro h h' hf
    cases hf
    simp [History.popLog]
  | cons r run ih =>
    intro h h' hf
    cases hh : h.harvest r with
    | mk complaint next =>
      cases complaint with
      | some c => simp [History.feed, hh] at hf
      | none =>
        simp only [History.feed, hh] at hf
        have hrest := ih hf
        have hfirst := (harvest_accounts hh).1
        simp only [History.popLog, hh, List.map_append, List.append_assoc, hrest, List.map_cons]
        rw [← List.append_assoc, hfirst, List.append_assoc, List.singleton_append]

theorem feed_accepts {run : List (Harvest n)} {h h' : History n} (hf : h.feed run = (none, h')) :
    ∀ p ∈ h.popLog run, p.verdict = true := by
  intro p hp
  by_contra hv
  have hrej := feed_rejects_iff.mpr ⟨p, hp, rfl, by simpa using hv⟩
  simp [hf] at hrej

/-- A run fed without complaint, up to its last response and from there. -/
theorem feed_concat {run : List (Harvest n)} {r : Harvest n} :
    ∀ {h h' : History n}, h.feed (run ++ [r]) = (none, h') →
      ∃ before, h.feed run = (none, before) ∧ before.harvest r = (none, h') := by
  induction run with
  | nil =>
    intro h h' hf
    refine ⟨h, rfl, ?_⟩
    cases hh : h.harvest r with
    | mk complaint next =>
      cases complaint with
      | none => simpa [History.feed, hh] using hf
      | some c => simp [History.feed, hh] at hf
  | cons a run ih =>
    intro h h' hf
    cases hh : h.harvest a with
    | mk complaint next =>
      cases complaint with
      | none =>
        simp only [List.cons_append, History.feed, hh] at hf ⊢
        exact ih hf
      | some c => simp [History.feed, hh] at hf

/-! ## The last applied updates -/

/-- When client `d` acknowledged its last update of the run; 0 if it has none. -/
def lastApplied (run : List (Harvest n)) (d : Fin n) : ℕ :=
  ((run.filter fun r => decide (r.cidx = d) && r.call.updateInfo.isSome).map
    Harvest.tsResp).getLast?.getD 0

theorem lastApplied_concat (run : List (Harvest n)) (r : Harvest n) (d : Fin n) :
    lastApplied (run ++ [r]) d =
      if r.cidx = d ∧ r.call.updateInfo.isSome then r.tsResp else lastApplied run d := by
  unfold lastApplied
  rw [List.filter_append, List.map_append]
  by_cases hr : r.cidx = d ∧ r.call.updateInfo.isSome
  · simp [hr]
  · have hfalse : (decide (r.cidx = d) && r.call.updateInfo.isSome) = false := by
      simpa using hr
    simp [hr, hfalse]

theorem feed_maxtr {rest : List (Harvest n)} :
    ∀ {done : List (Harvest n)} {h h' : History n}, h.feed rest = (none, h') →
      (∀ d, h.maxtr d = lastApplied done d) → ∀ d, h'.maxtr d = lastApplied (done ++ rest) d := by
  induction rest with
  | nil =>
    intro done h h' hf hmax d
    cases hf
    simpa using hmax d
  | cons r rest ih =>
    intro done h h' hf hmax d
    cases hh : h.harvest r with
    | mk complaint next =>
      cases complaint with
      | some c => simp [History.feed, hh] at hf
      | none =>
        simp only [History.feed, hh] at hf
        have hnext : ∀ d, next.maxtr d = lastApplied (done ++ [r]) d := by
          intro d
          rw [(harvest_accounts hh).2, lastApplied_concat, hmax]
        simpa using ih hf hnext d

/-- In a driven run every update of a client comes no later than its last one. -/
theorem le_lastApplied {run : List (Harvest n)} (hd : Driven pool run) {r : Harvest n}
    (hr : r ∈ run) (hu : r.call.updateInfo.isSome) : r.tsResp ≤ lastApplied run r.cidx := by
  induction run using List.reverseRecOn with
  | nil => simp at hr
  | append_singleton run last ih =>
    rw [lastApplied_concat]
    split_ifs with hlast
    · rcases List.mem_append.mp hr with hr | hr
      · exact (hd.resp_lt hr (by simp)).le
      · rw [List.mem_singleton.mp hr]
    · rcases List.mem_append.mp hr with hr | hr
      · exact ih (hd.sublist (List.sublist_append_left run [last])) hr
      · rw [List.mem_singleton.mp hr] at hu hlast
        exact absurd ⟨rfl, hu⟩ hlast

/-! ## What is left in the queue -/

/-- When the loop stops without a complaint, nothing decidable is left. -/
theorem popDecided_rest {spans : SpanMap n} {minComingTs : ℕ} {queue : List QueuedSpan}
    (hsorted : queue.Pairwise fun a b => a.tsResp < b.tsResp)
    (h : (popDecided spans minComingTs queue).1 = none) :
    ∀ e ∈ (popDecided spans minComingTs queue).2, minComingTs ≤ e.tsResp := by
  induction queue with
  | nil => simp [popDecided]
  | cons entry queue ih =>
    obtain ⟨hfirst, htail⟩ := List.pairwise_cons.mp hsorted
    unfold popDecided at h ⊢
    split_ifs at h ⊢ with hlt hcheck
    · exact ih htail h
    · intro e he
      rcases List.mem_cons.mp he with rfl | he
      · exact not_lt.mp hlt
      · exact (not_lt.mp hlt).trans (hfirst e he).le

theorem Driven.queued_sorted {run : List (Harvest n)} (hd : Driven pool run) :
    (run.map Harvest.queued).Pairwise fun a b => a.tsResp < b.tsResp :=
  List.pairwise_map.mpr hd.resp_increasing

/-- The smallest of the clients' last applied updates. -/
def applied (cidx : Fin n) (run : List (Harvest n)) : ℕ := minOf cidx (lastApplied run)

/-- After an update, what stays queued is not yet overtaken by every client. -/
theorem queue_not_overtaken {run : List (Harvest n)} {r : Harvest n} {h : History n}
    (hd : Driven pool (run ++ [r])) (hu : r.call.updateInfo.isSome)
    (hf : (History.new n pool).feed (run ++ [r]) = (none, h)) :
    ∀ e ∈ h.queue, applied r.cidx (run ++ [r]) ≤ e.tsResp := by
  have hmax : h.maxtr = lastApplied (run ++ [r]) := by
    funext d
    have hnew : ∀ d, (History.new n pool).maxtr d = lastApplied [] d := fun _ => rfl
    simpa using feed_maxtr hf hnew d
  obtain ⟨before, hb, hone⟩ := feed_concat hf
  obtain ⟨u, hu⟩ := Option.isSome_iff_exists.mp hu
  simp only [History.harvest, hu, History.applyUpdate] at hone
  cases hp : (before.addToQueue r.tsCall r.tsResp r.resp).pushUpdate r.cidx u.1
      ⟨r.tsCall, r.tsResp, u.2⟩ with
  | none => simp [hp] at hone
  | some pushed =>
    simp only [hp, Prod.mk.injEq, Option.map_eq_none_iff] at hone
    obtain ⟨hnone, rfl⟩ := hone
    have hsorted : pushed.queue.Pairwise fun a b => a.tsResp < b.tsResp := by
      have hqueue : pushed.queue = before.queue ++ [r.queued] := (pushUpdate_queue hp).1
      have hbefore := feed_accounts hb
      refine hd.queued_sorted.sublist ?_
      rw [List.map_append, ← List.nil_append (run.map _), hqueue]
      exact (hbefore ▸ List.sublist_append_right _ _).append (List.Sublist.refl _)
    unfold applied
    rw [← hmax]
    exact popDecided_rest hsorted hnone

/-- What has been popped was overtaken by every client. -/
theorem popped_overtaken {run : List (Harvest n)} (hd : Driven pool run) {p : Popped n}
    (hp : p ∈ (History.new n pool).popLog run) (cidx : Fin n) :
    p.entry.tsResp < applied cidx run := by
  obtain ⟨past, future, rfl, hs⟩ := popLog_snapshot hd hp
  refine lt_minOf_iff.mpr fun d => ?_
  obtain ⟨r, hr, rfl, hu, hlt⟩ := hs.overtaken d
  exact hlt.trans_le (le_lastApplied hd (by simp [hr]) hu)

/-- The queue is what the slowest client has not overtaken. -/
theorem queue_eq_filter {run : List (Harvest n)} {r : Harvest n} {h : History n}
    (hd : Driven pool (run ++ [r])) (hu : r.call.updateInfo.isSome)
    (hf : (History.new n pool).feed (run ++ [r]) = (none, h)) :
    h.queue = ((run ++ [r]).map Harvest.queued).filter fun e =>
      decide (applied r.cidx (run ++ [r]) ≤ e.tsResp) := by
  have hall := feed_accounts hf
  rw [show (History.new n pool).queue = [] from rfl, List.nil_append] at hall
  rw [← hall, List.filter_append]
  have hpopped : (((History.new n pool).popLog (run ++ [r])).map Popped.entry).filter
      (fun e => decide (applied r.cidx (run ++ [r]) ≤ e.tsResp)) = [] := by
    refine List.filter_eq_nil_iff.mpr (List.forall_mem_map.mpr fun p hp => ?_)
    simpa using popped_overtaken hd hp r.cidx
  have hqueue : h.queue.filter (fun e => decide (applied r.cidx (run ++ [r]) ≤ e.tsResp)) =
      h.queue := by
    refine List.filter_eq_self.mpr fun e he => ?_
    simpa using queue_not_overtaken hd hu hf e he
  rw [hpopped, hqueue, List.nil_append]

/-- What a client without updates keeps from being checked: everything. -/
theorem popLog_eq_nil {run : List (Harvest n)} (hd : Driven pool run) {c : Fin n}
    (hc : ∀ r ∈ run, r.cidx = c → r.call.updateInfo.isSome = false) :
    (History.new n pool).popLog run = [] := by
  refine List.eq_nil_iff_forall_not_mem.mpr fun p hp => ?_
  obtain ⟨past, future, rfl, hs⟩ := popLog_snapshot hd hp
  obtain ⟨r, hr, hrc, hu, _⟩ := hs.overtaken c
  simp [hc r (by simp [hr]) hrc] at hu

/-- A finished loop has harvested everything, and checked all that is not queued. -/
theorem finished_accounts {numOps : ℕ} {keys : Pool n} (hkeys : ∀ c, keys c ≠ [])
    (hops : numOps * n / 100 ≠ 0) {rounds : List Round} {s : FuzzState n}
    (h : fuzzLoop numOps keys rounds (.new keys) = .finished s) :
    s.Inv numOps keys ∧ s.harvested.length = numOps * n ∧
      ((History.new n keys.lists).popLog s.harvested).map Popped.entry ++ s.history.queue =
        s.harvested.map Harvest.queued ∧
      ∀ p ∈ (History.new n keys.lists).popLog s.harvested, p.verdict = true := by
  obtain ⟨hreach, hwaited⟩ := fuzzLoop_reachable h .new
  have hinv := hreach.inv hkeys hops
  have hcount := hinv.counted
  have hbound := hinv.bounded
  have hlen := hinv.waited
  exact ⟨hinv, by omega, feed_accounts hinv.fed, feed_accepts hinv.fed⟩

/-- After every applied update the queue is exactly what some client has not
overtaken, and all else was checked once and accepted. A test is only reported
as passed when fewer than 1000 of all its responses, the latest ones, remain
unchecked, and when every client has completed an update. -/
theorem no_response_skips_check {numOps : ℕ} {keys : Pool n} (hn : 1 ≤ n) (hops : 1000 ≤ numOps)
    (hkeys : ∀ c, keys c ≠ []) :
    (∀ (pool : List (List String)) (run : List (Harvest n)) (r : Harvest n) (h : History n),
      Driven pool (run ++ [r]) → r.call.updateInfo.isSome →
      (History.new n pool).feed (run ++ [r]) = (none, h) →
        h.queue = ((run ++ [r]).map Harvest.queued).filter
          (fun e => decide (applied r.cidx (run ++ [r]) ≤ e.tsResp)) ∧
        ((History.new n pool).popLog (run ++ [r])).map Popped.entry ++ h.queue =
          (run ++ [r]).map Harvest.queued ∧
        ∀ p ∈ (History.new n pool).popLog (run ++ [r]), p.verdict = true) ∧
    ∀ (rounds : List Round) (stop : Except RunnerError Unit) (result : Option ℕ),
      fuzzTest numOps keys rounds stop = .ok result → verdict result = .passed →
        ∃ s, fuzzLoop numOps keys rounds (.new keys) = .finished s ∧
          s.harvested.length = numOps * n ∧
          ((History.new n keys.lists).popLog s.harvested).map Popped.entry ++ s.history.queue =
            s.harvested.map Harvest.queued ∧
          s.history.queue.length < 1000 ∧
          (∀ p ∈ (History.new n keys.lists).popLog s.harvested, p.verdict = true) ∧
          ∀ c, ∃ r ∈ s.harvested, r.cidx = c ∧ r.call.updateInfo.isSome := by
  refine ⟨fun pool run r h hd hu hf => ⟨queue_eq_filter hd hu hf, feed_accounts hf,
    feed_accepts hf⟩, fun rounds stop result hresult hpassed => ?_⟩
  cases result with
  | none => simp [verdict] at hpassed
  | some remaining =>
    have hfew : remaining < 1000 := by
      by_contra hmany
      simp [verdict, remainThresh, not_lt.mp hmany] at hpassed
    have htotal : 1000 ≤ numOps * n := hops.trans (Nat.le_mul_of_pos_right numOps hn)
    obtain ⟨s, hfinished, _, _, rfl⟩ := fuzzTest_some hresult
    obtain ⟨hinv, hlen, hall, haccepts⟩ := finished_accounts hkeys (by omega) hfinished
    refine ⟨s, hfinished, hlen, hall, hfew, haccepts, fun c => ?_⟩
    by_contra hnone
    have hidle : ∀ r ∈ s.harvested, r.cidx = c → r.call.updateInfo.isSome = false := by
      intro r hr hrc
      rw [← Bool.not_eq_true]
      exact fun hu => hnone ⟨r, hr, hrc, hu⟩
    rw [popLog_eq_nil hinv.driven hidle] at hall
    have hqueue := congrArg List.length hall
    simp only [List.map_nil, List.nil_append, List.length_map] at hqueue
    unfold History.queueLen at hfew
    omega

/-- An update of the only client makes all that came before it decidable. -/
theorem not_queued_of_update {run : List (Harvest 1)} {last : Harvest 1} {h : History 1}
    (hd : Driven pool (run ++ [last])) (hu : last.call.updateInfo.isSome)
    (hf : (History.new 1 pool).feed (run ++ [last]) = (none, h)) {r : Harvest 1} (hr : r ∈ run) :
    r.queued ∉ h.queue := by
  intro hmem
  have hkept := queue_not_overtaken hd hu hf _ hmem
  have hovertaken : r.queued.tsResp < applied last.cidx (run ++ [last]) := by
    refine lt_minOf_iff.mpr fun d => ?_
    rw [lastApplied_concat, if_pos ⟨Subsingleton.elim _ _, hu⟩]
    exact hd.resp_lt hr (by simp)
  omega

/-- A client that keeps deleting leaves fewer responses unchecked than it made. -/
theorem deletes_finish {resp : KvResp} (h : resp ≠ .stop)
    (hresp : resp = .delete "k" false ∨ resp = .get "k" none) {count : ℕ} (hmany : 1000 ≤ count)
    (hclock : 2 * count ≤ u64Max) :
    ∃ s, fuzzLoop count oneKey (Turn.rounds (List.replicate count (deleteTurn resp h)))
        (.new oneKey) = .finished s ∧
      s.harvested = Turn.harvests 0 (List.replicate count (deleteTurn resp h)) ∧
      s.history.queueLen < count ∧
      (History.new 1 oneKey.lists).popLog s.harvested ≠ [] := by
  have hkeys : ∀ c, oneKey c ≠ [] := by simp [oneKey]
  obtain ⟨k, rfl⟩ : ∃ k, count = k + 2 := ⟨count - 2, by omega⟩
  have hfinishes := sequential_finishes hkeys (by simpa using hmany) (by simpa using hclock)
    (deletes_accepted h hresp (k + 2))
  rw [List.length_replicate] at hfinishes
  obtain ⟨s, hfinished, hharvested⟩ := hfinishes
  obtain ⟨hinv, hlen, hall, _⟩ := finished_accounts hkeys (by omega) hfinished
  rw [Nat.mul_one] at hlen
  -- the last deletion makes the first one decidable
  let init := Turn.harvests 0 (List.replicate (k + 1) (deleteTurn resp h))
  have hsplit : s.harvested = init ++ [(deleteTurn resp h).harvest (k + 1)] := by
    rw [hharvested, List.replicate_succ', Turn.harvests_concat, List.length_replicate, Nat.zero_add]
  have hfirst : (deleteTurn resp h).harvest 0 ∈ init := List.mem_cons_self
  have hdriven := hinv.driven
  have hfed := hinv.fed
  rw [hsplit] at hdriven hfed
  have hgone := not_queued_of_update hdriven rfl hfed hfirst
  have hpopped : (History.new 1 oneKey.lists).popLog s.harvested ≠ [] := by
    intro hnil
    have hmem : ((deleteTurn resp h).harvest 0).queued ∈ s.harvested.map Harvest.queued := by
      rw [hsplit]
      exact List.mem_map_of_mem (List.mem_append_left _ hfirst)
    rw [← hall, hnil] at hmem
    exact hgone (by simpa using hmem)
  refine ⟨s, hfinished, hharvested, ?_, hpopped⟩
  have hcount := congrArg List.length hall
  have hpos := List.length_pos_of_ne_nil hpopped
  simp only [List.length_append, List.length_map] at hcount
  unfold History.queueLen
  omega

/-- A thousand deletions of one key. -/
def thousandDeletes : List (Turn oneKey) :=
  List.replicate 1000 (deleteTurn (.delete "k" false) (by simp))

theorem no_response_skips_check_thousandDeletes :
    ∃ s, fuzzLoop 1000 oneKey (Turn.rounds thousandDeletes) (.new oneKey) = .finished s ∧
      s.harvested.length = 1000 * 1 ∧
      ((History.new 1 oneKey.lists).popLog s.harvested).map Popped.entry ++ s.history.queue =
        s.harvested.map Harvest.queued ∧
      s.history.queue.length < 1000 ∧
      (∀ p ∈ (History.new 1 oneKey.lists).popLog s.harvested, p.verdict = true) ∧
      ∀ c, ∃ r ∈ s.harvested, r.cidx = c ∧ r.call.updateInfo.isSome := by
  obtain ⟨s, hfinished, _, hfew, _⟩ := deletes_finish
    (show KvResp.delete "k" false ≠ .stop by simp) (.inl rfl) (le_refl 1000) (by decide)
  have hresult : fuzzTest 1000 oneKey (Turn.rounds thousandDeletes) (.ok ()) =
      .ok (some s.history.queueLen) := fuzzTest_finished hfinished
  have hpassed : verdict (some s.history.queueLen) = .passed := by
    simp [verdict, remainThresh, hfew]
  exact (no_response_skips_check le_rfl le_rfl (by simp [oneKey])).2 _ _ _ hresult hpassed

end MadKV.Fuzzer
