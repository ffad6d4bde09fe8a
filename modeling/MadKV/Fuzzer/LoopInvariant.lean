import MadKV.Fuzzer.FuzzTest
import MadKV.Fuzzer.Retention

/-!
# The invariant of the fuzz testing loop

The bitmap, the counters, the memo and the logical clock agree with the calls
that are really outstanding, and the checker has been fed a driven run. From
such a state an iteration can do little (`FuzzState.Does`); in particular it
violates no assertion.
-/

namespace MadKV.Fuzzer

open Runner

variable {n numOps : ℕ} {keys : Pool n}

theorem Pool.mem_lists (c : Fin n) : keys c ∈ keys.lists := List.mem_ofFn.mpr ⟨c, rfl⟩

/-! ## Counting flying clients -/

def flyingCount (flying : Fin n → Bool) : ℕ := (Finset.univ.filter fun c => flying c = true).card

theorem flyingCount_none : flyingCount (fun _ : Fin n => false) = 0 := by simp [flyingCount]

theorem flyingCount_takeOff {flying : Fin n → Bool} {c : Fin n} (h : flying c = false) :
    flyingCount (Function.update flying c true) = flyingCount flying + 1 := by
  unfold flyingCount
  have hset : (Finset.univ.filter fun d => Function.update flying c true d = true) =
      insert c (Finset.univ.filter fun d => flying d = true) := by
    ext d
    by_cases hd : d = c <;> simp [hd]
  rw [hset, Finset.card_insert_of_notMem (by simp [h])]

theorem flyingCount_land {flying : Fin n → Bool} {c : Fin n} (h : flying c = true) :
    flyingCount (Function.update flying c false) + 1 = flyingCount flying := by
  have hback : Function.update (Function.update flying c false) c true = flying := by
    funext d
    by_cases hd : d = c <;> simp [hd, h]
  have hidle : Function.update flying c false c = false := by simp
  rw [← flyingCount_takeOff hidle, hback]

theorem exists_flying {flying : Fin n → Bool} (h : flyingCount flying ≠ 0) :
    ∃ c, flying c = true := by
  obtain ⟨c, hc⟩ := Finset.card_ne_zero.mp h
  exact ⟨c, by simpa using hc⟩

/-! ## The invariant -/

namespace FuzzState

/-- Client `c` works on `call`, made at time `tsCall`, and the memo says so. -/
structure WorksOn (keys : Pool n) (s : FuzzState n) (c : Fin n) (tsCall : ℕ) (call : KvCall) :
    Prop where
  outstanding : s.outstanding c = [(tsCall, call)]
  memo : s.callMemo c = (tsCall, call.updateInfo)
  generated : CallFrom (keys c) call
  pos : 0 < tsCall
  past : tsCall ≤ s.timestamp
  after : ∀ r ∈ s.harvested, r.cidx = c → r.tsResp < tsCall

structure Inv (numOps : ℕ) (keys : Pool n) (s : FuzzState n) : Prop where
  fed : (History.new n keys.lists).feed s.harvested = (none, s.history)
  driven : Driven keys.lists s.harvested
  past : ∀ r ∈ s.harvested, r.tsResp ≤ s.timestamp
  clock : s.timestamp = s.opsCalled + s.opsWaited
  counted : flyingCount s.flying + s.opsWaited = s.opsCalled
  bounded : s.opsCalled ≤ numOps * n
  waited : s.opsWaited = s.harvested.length
  flying : ∀ c, s.flying c = true → ∃ tsCall call, s.WorksOn keys c tsCall call
  idle : ∀ c, s.flying c = false → s.outstanding c = []

theorem inv_new (numOps : ℕ) (keys : Pool n) : (FuzzState.new keys).Inv numOps keys where
  fed := rfl
  driven := ⟨by simp [new], by simp [new], by simp [new], by simp [new], by simp [new]⟩
  past := by simp [new]
  clock := rfl
  counted := flyingCount_none
  bounded := Nat.zero_le _
  waited := rfl
  flying := by simp [new]
  idle := by simp [new]

variable {s : FuzzState n}

theorem Inv.remembers (h : s.Inv numOps keys) : Remembers keys.lists s.harvested s.history := by
  have hnew := Remembers.new n keys.lists
  exact hnew.feed (by simpa using h.driven) h.fed

/-- `r` answers the call its client works on, at the next tick of the clock. -/
structure Answers (keys : Pool n) (s : FuzzState n) (r : Harvest n) : Prop where
  flying : s.flying r.cidx = true
  worksOn : s.WorksOn keys r.cidx r.tsCall r.call
  now : r.tsResp = s.timestamp + 1
  resp_ne_stop : r.resp ≠ .stop

theorem Inv.driven_next (h : s.Inv numOps keys) {r : Harvest n} (hr : s.Answers keys r) :
    Driven keys.lists (s.harvested ++ [r]) where
  call_pos := by
    intro a ha
    rcases List.mem_append.mp ha with ha | ha
    · exact h.driven.call_pos a ha
    · rw [List.mem_singleton.mp ha]
      exact hr.worksOn.pos
  call_lt_resp := by
    intro a ha
    rcases List.mem_append.mp ha with ha | ha
    · exact h.driven.call_lt_resp a ha
    · rw [List.mem_singleton.mp ha, hr.now]
      exact Nat.lt_succ_of_le hr.worksOn.past
  resp_increasing := by
    refine List.pairwise_append.mpr ⟨h.driven.resp_increasing, by simp, fun a ha b hb => ?_⟩
    rw [List.mem_singleton.mp hb, hr.now]
    exact Nat.lt_succ_of_le (h.past a ha)
  one_outstanding := by
    refine List.pairwise_append.mpr ⟨h.driven.one_outstanding, by simp, fun a ha b hb hc => ?_⟩
    rw [List.mem_singleton.mp hb] at hc ⊢
    exact hr.worksOn.after a ha hc
  update_in_pool := by
    intro a ha key value hu
    rcases List.mem_append.mp ha with ha | ha
    · exact h.driven.update_in_pool a ha key value hu
    · rw [List.mem_singleton.mp ha] at hu
      exact ⟨keys r.cidx, Pool.mem_lists r.cidx, hr.worksOn.generated.update_mem hu⟩

/-- Every span of a client is over before the call it works on. -/
theorem Inv.span_over (h : s.Inv numOps keys) {c : Fin n} {tsCall : ℕ} {call : KvCall}
    (hc : s.WorksOn keys c tsCall call) {key : String} {keySpans : KeySpans n}
    (hk : s.history.spans.lookup key = some keySpans) {w : UpdateSpan} (hw : w ∈ keySpans c) :
    w.tsResp < tsCall := by
  obtain ⟨cut, he, _⟩ := h.remembers.kept key keySpans hk c
  have hmem : w ∈ updatesOn s.harvested c key := by
    rw [he]
    exact List.mem_append_right cut hw
  rcases mem_updatesOn.mp hmem with rfl | ⟨r, hr, hrc, hu⟩
  · exact hc.pos
  · rw [(updateOn_eq_some.mp hu).2.2]
    exact hc.after r hr hrc

/-! ## One iteration -/

/-- What an iteration can do. -/
inductive Does (numOps : ℕ) (keys : Pool n) (s : FuzzState n) : Iteration n → Prop
  | drawing : Does numOps keys s .drawing
  | err (err : RunnerError) : Does numOps keys s (.err err)
  | overflow : s.timestamp = u64Max → Does numOps keys s (.panic .overflow)
  | stop : Does numOps keys s (.failed .unexpectedStop)
  | violation {r : Harvest n} {resp : KvResp} : s.Answers keys r →
      (s.history.harvest r).1 = some (some resp) → Does numOps keys s (.failed (.violation resp))
  | call {c : Fin n} {call : KvCall} : s.flying c = false → s.opsCalled < numOps * n →
      CallFrom (keys c) call → Does numOps keys s (.next (s.tick.called c call))
  | harvest {r : Harvest n} {history : History n} : s.Answers keys r →
      s.history.harvest r = (none, history) →
      Does numOps keys s (.next (s.tick.answered r [] history))

theorem makeCall_does (hkeys : ∀ c, keys c ≠ []) (hidle : ∃ c, s.flying c = false)
    (hleft : s.opsCalled < numOps * n) (round : Round) :
    Does numOps keys s (s.tick.makeCall keys round) := by
  have htick : s.tick.flying = s.flying := rfl
  unfold makeCall
  rw [htick]
  rcases genRandClient_cases hidle round.clients with hnone | ⟨c, hc, hsome⟩
  · rw [hnone]
    exact .drawing
  · obtain ⟨call, hcall, hfrom⟩ := genRandKvcall_ok (hkeys c) round.call
    simp only [hsome, hcall]
    cases round.sendCall with
    | error err => exact .err err
    | ok _ => exact .call hc hleft hfrom

/-- The assertions of `add_to_queue` hold for a response that answers its call. -/
theorem Inv.addToQueueChecked (h : s.Inv numOps keys) {r : Harvest n} (hr : s.Answers keys r) :
    s.history.addToQueueChecked r.tsCall r.tsResp r.resp =
      .ok (s.history.addToQueue r.tsCall r.tsResp r.resp) := by
  have hlt := (h.driven_next hr).call_lt_resp r (by simp)
  have hback : ∀ back ∈ s.history.queue.getLast?, back.tsResp < r.tsResp := by
    intro e he
    obtain ⟨a, ha, rfl⟩ := h.remembers.queued e (List.mem_of_getLast? he)
    exact (h.driven_next hr).resp_lt ha (by simp)
  unfold History.addToQueueChecked
  rw [if_neg (not_not.mpr hlt), if_neg (not_not.mpr hback)]

/-- So do those of `apply_update`. -/
theorem Inv.applyUpdateChecked (h : s.Inv numOps keys) {r : Harvest n} (hr : s.Answers keys r)
    (key : String) (value : Option String) :
    (s.history.addToQueue r.tsCall r.tsResp r.resp).applyUpdateChecked r.cidx r.tsCall r.tsResp
        key value =
      .ok ((s.history.addToQueue r.tsCall r.tsResp r.resp).applyUpdate r.cidx r.tsCall r.tsResp
        key value) := by
  unfold History.applyUpdateChecked
  rw [addToQueue_spans]
  cases hk : s.history.spans.lookup key with
  | none => rfl
  | some keySpans =>
    have hback : ∀ back ∈ (keySpans r.cidx).getLast?, back.tsResp < r.tsCall := fun w hw =>
      h.span_over hr.worksOn hk (List.mem_of_getLast? hw)
    exact if_pos hback

theorem progress_does {t : FuzzState n} {totalOps : ℕ} (hops : totalOps / 100 ≠ 0) (round : Round)
    (ht : Does numOps keys s (.next t)) : Does numOps keys s (t.progress totalOps round) := by
  unfold progress
  rw [if_neg hops]
  split_ifs
  · cases round.flush with
    | error err => exact .err err
    | ok _ => exact ht
  · exact ht

/-- Harvesting the response of a flying client is what the checker makes of it. -/
theorem Inv.harvestResp_eq (h : s.Inv numOps keys) {r : Harvest n} (hr : s.Answers keys r)
    {round : Round} (hclient : genRandClient round.clients s.flying true = some (.ok r.cidx))
    (hresp : round.waitResp = .ok r.resp) (totalOps : ℕ) :
    s.tick.harvestResp totalOps round =
      match s.history.harvest r with
      | (none, history) => (s.tick.answered r [] history).progress totalOps round
      | (some none, _) => .failed .unexpectedKey
      | (some (some resp), _) => .failed (.violation resp) := by
  obtain ⟨cidx, tsCall, tsResp, call, resp⟩ := r
  have hnow : s.tick.timestamp = tsResp := hr.now.symm
  have hout : s.tick.outstanding cidx = [(tsCall, call)] := hr.worksOn.outstanding
  have hmemo : s.tick.callMemo cidx = (tsCall, call.updateInfo) := hr.worksOn.memo
  have hqueue : s.tick.history.addToQueueChecked tsCall tsResp resp =
    .ok (s.history.addToQueue tsCall tsResp resp) := h.addToQueueChecked hr
  have hstop : resp ≠ .stop := hr.resp_ne_stop
  unfold harvestResp
  rw [show s.tick.flying = s.flying from rfl, hclient]
  simp only [hout, hresp, hstop, ↓reduceIte, hmemo, hnow, hqueue, History.harvest]
  cases hu : call.updateInfo with
  | none => rfl
  | some u =>
    have hchecked := h.applyUpdateChecked hr u.1 u.2
    simp only at hchecked ⊢
    rw [hchecked]
    generalize (s.history.addToQueue tsCall tsResp resp).applyUpdate cidx tsCall tsResp u.1 u.2 =
      result
    obtain ⟨complaint, history⟩ := result
    rcases complaint with _ | _ | _ <;> rfl

theorem Inv.harvestResp_does (h : s.Inv numOps keys) (hops : numOps * n / 100 ≠ 0)
    (hflying : ∃ c, s.flying c = true) (round : Round) :
    Does numOps keys s (s.tick.harvestResp (numOps * n) round) := by
  have hclient : s.tick.flying = s.flying := rfl
  rcases genRandClient_cases hflying round.clients with hnone | ⟨c, hc, hsome⟩
  · unfold harvestResp
    rw [hclient, hnone]
    exact .drawing
  obtain ⟨tsCall, call, hworks⟩ := h.flying c hc
  have hout : s.tick.outstanding c = [(tsCall, call)] := hworks.outstanding
  cases hresp : round.waitResp with
  | error err =>
    unfold harvestResp
    simp only [hclient, hsome, hout, hresp]
    exact .err err
  | ok resp =>
    by_cases hstop : resp = .stop
    · unfold harvestResp
      simp only [hclient, hsome, hout, hresp, hstop, ↓reduceIte]
      exact .stop
    · let r : Harvest n := ⟨c, tsCall, s.timestamp + 1, call, resp⟩
      have hr : s.Answers keys r := ⟨hc, hworks, rfl, hstop⟩
      have hknows := h.remembers.knows_key (h.driven_next hr)
      rw [h.harvestResp_eq hr hsome hresp]
      -- the complaint decides how the iteration ends
      cases hh : s.history.harvest r with
      | mk complaint history =>
        rw [hh] at hknows
        match complaint with
        | none => exact progress_does hops round (.harvest hr hh)
        | some none => exact absurd rfl hknows
        | some (some bad) => exact .violation hr (by rw [hh])

/-- From a state that keeps the invariant, an iteration does one of these things. -/
theorem Inv.iterate_does (h : s.Inv numOps keys) (hkeys : ∀ c, keys c ≠ [])
    (hops : numOps * n / 100 ≠ 0) (hlt : s.opsWaited < numOps * n) (round : Round) :
    Does numOps keys s (s.iterate numOps keys round) := by
  unfold iterate
  split_ifs with hclock hcall
  · exact .overflow hclock
  · obtain ⟨hne, hidle⟩ := genCallVsWait_call hcall
    exact makeCall_does hkeys hidle (lt_of_le_of_ne h.bounded hne) round
  · have hn : n ≠ 0 := by
      rintro rfl
      simp at hlt
    have hflying : ∃ c, s.flying c = true := by
      rcases genCallVsWait_wait (by simpa using hcall) hn with hdone | hflying
      · -- all calls are made and some response is missing
        have hcount := h.counted
        exact exists_flying (by omega)
      · exact hflying
    exact h.harvestResp_does hops hflying round

theorem Inv.called (h : s.Inv numOps keys) {c : Fin n} {call : KvCall}
    (hidle : s.flying c = false) (hleft : s.opsCalled < numOps * n)
    (hfrom : CallFrom (keys c) call) : (s.tick.called c call).Inv numOps keys where
  fed := h.fed
  driven := h.driven
  past := fun r hr => (h.past r hr).trans (Nat.le_succ _)
  clock := by
    have hclock := h.clock
    simp only [FuzzState.called, tick]
    omega
  counted := by
    have hcount := h.counted
    have htake := flyingCount_takeOff hidle
    simp only [FuzzState.called, tick]
    omega
  bounded := hleft
  waited := h.waited
  flying := by
    intro d hd
    by_cases hdc : d = c
    · subst hdc
      refine ⟨s.timestamp + 1, call, ?_, ?_, hfrom, Nat.succ_pos _, le_rfl, fun r hr _ =>
        Nat.lt_succ_of_le (h.past r hr)⟩
      · simp [FuzzState.called, tick, h.idle d hidle]
      · simp [FuzzState.called, tick]
    · obtain ⟨tsCall, call', hw⟩ := h.flying d (by simpa [FuzzState.called, tick, hdc] using hd)
      refine ⟨tsCall, call', ?_, ?_, hw.generated, hw.pos, hw.past.trans (Nat.le_succ _), hw.after⟩
      · simpa [FuzzState.called, tick, hdc] using hw.outstanding
      · simpa [FuzzState.called, tick, hdc] using hw.memo
  idle := by
    intro d hd
    by_cases hdc : d = c
    · subst hdc
      simp [FuzzState.called] at hd
    · have hd' : s.flying d = false := by simpa [FuzzState.called, tick, hdc] using hd
      simpa [FuzzState.called, tick, hdc] using h.idle d hd'

theorem Inv.answered (h : s.Inv numOps keys) {r : Harvest n} {history : History n}
    (hr : s.Answers keys r) (hharvest : s.history.harvest r = (none, history)) :
    (s.tick.answered r [] history).Inv numOps keys where
  fed := by
    have hfed := feed_append h.fed [r]
    simpa [FuzzState.answered, tick, History.feed, hharvest] using hfed
  driven := h.driven_next hr
  past := by
    intro a ha
    rcases List.mem_append.mp ha with ha | ha
    · exact (h.past a ha).trans (Nat.le_succ _)
    · rw [List.mem_singleton.mp ha, hr.now]
      exact le_rfl
  clock := by
    have hclock := h.clock
    simp only [FuzzState.answered, tick]
    omega
  counted := by
    have hcount := h.counted
    have hland := flyingCount_land hr.flying
    simp only [FuzzState.answered, tick]
    omega
  bounded := h.bounded
  waited := by
    have hwaited := h.waited
    simp only [FuzzState.answered, tick, List.length_append, List.length_singleton]
    omega
  flying := by
    intro d hd
    by_cases hdc : d = r.cidx
    · simp [FuzzState.answered, hdc] at hd
    · obtain ⟨tsCall, call, hw⟩ := h.flying d (by simpa [FuzzState.answered, tick, hdc] using hd)
      refine ⟨tsCall, call, ?_, ?_, hw.generated, hw.pos, hw.past.trans (Nat.le_succ _), ?_⟩
      · simpa [FuzzState.answered, tick, hdc] using hw.outstanding
      · simpa [FuzzState.answered, tick, hdc] using hw.memo
      · intro a ha hac
        rcases List.mem_append.mp ha with ha | ha
        · exact hw.after a ha hac
        · rw [List.mem_singleton.mp ha] at hac
          exact absurd hac.symm hdc
  idle := by
    intro d hd
    by_cases hdc : d = r.cidx
    · simp [FuzzState.answered, hdc]
    · have hd' : s.flying d = false := by simpa [FuzzState.answered, tick, hdc] using hd
      simpa [FuzzState.answered, tick, hdc] using h.idle d hd'

theorem Inv.next {s' : FuzzState n} (h : s.Inv numOps keys) (hs : Does numOps keys s (.next s')) :
    s'.Inv numOps keys := by
  cases hs with
  | call hidle hleft hfrom => exact h.called hidle hleft hfrom
  | harvest hr hharvest => exact h.answered hr hharvest

end FuzzState

/-- The invariant holds in every state the loop passes through. -/
theorem Reachable.inv {s : FuzzState n} (hkeys : ∀ c, keys c ≠ [])
    (hops : numOps * n / 100 ≠ 0) (h : Reachable numOps keys s) : s.Inv numOps keys := by
  induction h with
  | new => exact FuzzState.inv_new numOps keys
  | next _ hlt hi ih => exact ih.next (hi ▸ ih.iterate_does hkeys hops hlt _)

/-! ## The lists -/

/-- No list is empty, and each span is over before the next one's call. -/
def WellKept (h : History n) : Prop :=
  ∀ key keySpans, h.spans.lookup key = some keySpans → ∀ d,
    keySpans d ≠ [] ∧ (keySpans d).Pairwise fun a b => a.tsResp < b.tsCall

theorem Remembers.wellKept {pool : List (List String)} {done : List (Harvest n)} {h : History n}
    (hd : Driven pool done) (hr : Remembers pool done h) : WellKept h := by
  intro key keySpans hk d
  obtain ⟨cut, he, hcut⟩ := hr.kept key keySpans hk d
  refine ⟨fun hnil => ?_, ?_⟩
  · rw [hnil, List.append_nil] at he
    obtain ⟨w, hw, _⟩ := hcut (by rw [← he]; simp [updatesOn])
    simp [hnil] at hw
  · exact ((updatesOn_chained hd d key).sublist (he ▸ List.sublist_append_right cut _)).ordered

/-- In every iteration the loop keeps what it relies on: the counters match the
clients, `gen_rand_client` is asked for a status some client has, the memo holds
the one outstanding call of each flying client, the lists are well kept before
and after the response is applied, no update key is unexpected, and no assertion
is violated. Only a clock past 64 bits could stop a debug build. -/
theorem fuzz_loop_preconditions (hn : 1 ≤ n) (hops : 1000 ≤ numOps) (hkeys : ∀ c, keys c ≠ [])
    {s : FuzzState n} (h : Reachable numOps keys s) :
    (s.opsWaited ≤ s.opsCalled ∧ flyingCount s.flying = s.opsCalled - s.opsWaited ∧
      s.opsCalled ≤ numOps * n) ∧
    (∀ c, s.flying c = true → ∃ tsCall call, s.outstanding c = [(tsCall, call)] ∧
      s.callMemo c = (tsCall, call.updateInfo)) ∧
    (WellKept s.history ∧ ∀ r, s.Answers keys r → WellKept (s.history.harvest r).2) ∧
    (s.opsWaited < numOps * n → ∀ round : Round,
      (∃ c, s.flying c = !genCallVsWait round.coin s.opsCalled (numOps * n) s.flying) ∧
      s.iterate numOps keys round ≠ .failed .unexpectedKey ∧
      ∀ why, s.iterate numOps keys round = .panic why →
        why = .overflow ∧ u64Max ≤ 2 * (numOps * n)) := by
  have htotal : 1000 ≤ numOps * n := hops.trans (Nat.le_mul_of_pos_right numOps hn)
  have hinv := h.inv hkeys (by omega)
  have hcount := hinv.counted
  have hbound := hinv.bounded
  refine ⟨⟨by omega, by omega, hbound⟩, fun c hc => ?_, ⟨?_, fun r hr => ?_⟩, fun hlt round => ?_⟩
  · obtain ⟨tsCall, call, hw⟩ := hinv.flying c hc
    exact ⟨tsCall, call, hw.outstanding, hw.memo⟩
  · exact hinv.remembers.wellKept hinv.driven
  · exact (hinv.remembers.harvest_state (hinv.driven_next hr)).wellKept (hinv.driven_next hr)
  · have hdoes := hinv.iterate_does hkeys (by omega) hlt round
    refine ⟨?_, fun hkey => ?_, fun why hpanic => ?_⟩
    · cases hcall : genCallVsWait round.coin s.opsCalled (numOps * n) s.flying with
      | true => exact (genCallVsWait_call hcall).2
      | false =>
        rcases genCallVsWait_wait hcall (by omega) with hdone | hflying
        · exact exists_flying (by omega)
        · exact hflying
    · rw [hkey] at hdoes
      cases hdoes
    · rw [hpanic] at hdoes
      cases hdoes with
      | overflow hclock =>
        have := hinv.clock
        exact ⟨rfl, by omega⟩

/-- The first iteration makes a call: the only client deletes the only key. -/
def firstRound : Round :=
  ⟨true, [0], ⟨9, 0, 0, fun _ => 0⟩, .ok (), .ok .stop, .ok ()⟩

def oneKey : Pool 1 := fun _ => ["k"]

theorem firstRound_reachable :
    Reachable 1000 oneKey ((FuzzState.new oneKey).tick.called onlyClient (.delete "k")) := by
  have hnext : (FuzzState.new oneKey).iterate 1000 oneKey firstRound =
      .next ((FuzzState.new oneKey).tick.called onlyClient (.delete "k")) := rfl
  exact Reachable.new.next (by decide) hnext

theorem fuzz_loop_preconditions_firstRound :
    ∃ tsCall call,
      ((FuzzState.new oneKey).tick.called onlyClient (.delete "k")).outstanding onlyClient =
        [(tsCall, call)] ∧
      ((FuzzState.new oneKey).tick.called onlyClient (.delete "k")).callMemo onlyClient =
        (tsCall, call.updateInfo) :=
  (fuzz_loop_preconditions le_rfl le_rfl (by simp [oneKey]) firstRound_reachable).2.1 onlyClient rfl

end MadKV.Fuzzer
