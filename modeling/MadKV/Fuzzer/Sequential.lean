import MadKV.Fuzzer.LoopInvariant
import MadKV.Fuzzer.SelfVouching

/-!
# The loop with a single client

A single client is never asked for two things at once: the loop alternates
between a call and its response, whatever the coin says. Every sequence of
generated calls and of responses that the checker does not complain about is
therefore a complete run of the loop.
-/

namespace MadKV.Fuzzer

open Runner

variable {numOps : ℕ} {keys : Pool 1}

/-- A generated call and the response to it. -/
structure Turn (keys : Pool 1) where
  draws : CallDraws
  call : KvCall
  resp : KvResp
  generated : genRandKvcall (keys onlyClient) draws = .ok call
  resp_ne_stop : resp ≠ .stop

namespace Turn

def callRound (t : Turn keys) : Round := ⟨true, [0], t.draws, .ok (), .ok .stop, .ok ()⟩

def waitRound (t : Turn keys) : Round := ⟨true, [0], t.draws, .ok (), .ok t.resp, .ok ()⟩

/-- The response of the turn, as it is harvested after `i` others. -/
def harvest (t : Turn keys) (i : ℕ) : Harvest 1 :=
  ⟨onlyClient, 2 * i + 1, 2 * i + 2, t.call, t.resp⟩

/-- The rounds of a sequence of turns. -/
def rounds (turns : List (Turn keys)) : List Round :=
  turns.flatMap fun t => [t.callRound, t.waitRound]

/-- The responses of a sequence of turns after `i` others. -/
def harvests (i : ℕ) : List (Turn keys) → List (Harvest 1)
  | [] => []
  | t :: turns => t.harvest i :: harvests (i + 1) turns

theorem harvests_concat (i : ℕ) (turns : List (Turn keys)) (t : Turn keys) :
    harvests i (turns ++ [t]) = harvests i turns ++ [t.harvest (i + turns.length)] := by
  induction turns generalizing i with
  | nil => rfl
  | cons u turns ih => simp [harvests, ih, Nat.add_assoc, Nat.add_comm 1]

theorem mem_harvests {i : ℕ} {turns : List (Turn keys)} {r : Harvest 1}
    (h : r ∈ harvests i turns) : ∃ t ∈ turns, ∃ j, i ≤ j ∧ r = t.harvest j := by
  induction turns generalizing i with
  | nil => simp [harvests] at h
  | cons t turns ih =>
    rcases List.mem_cons.mp h with rfl | h
    · exact ⟨t, by simp, i, le_rfl, rfl⟩
    · obtain ⟨u, hu, j, hj, rfl⟩ := ih h
      exact ⟨u, by simp [hu], j, by omega, rfl⟩

end Turn

theorem flying_eq {flying : Fin 1 → Bool} {status : Bool} (h : flying onlyClient = status) :
    flying = fun _ => status := by
  funext c
  rw [Subsingleton.elim c onlyClient, h]

theorem genRandClient_onlyClient {flying : Fin 1 → Bool} {status : Bool}
    (h : flying onlyClient = status) :
    genRandClient [0] flying status = some (.ok onlyClient) := by
  rw [flying_eq h]
  cases status <;> rfl

theorem callFrom_of_generated {keys : List String} {draws : CallDraws} {call : KvCall}
    (hne : keys ≠ []) (h : genRandKvcall keys draws = .ok call) : CallFrom keys call := by
  obtain ⟨call', hcall', hfrom⟩ := genRandKvcall_ok hne draws
  rw [h] at hcall'
  cases hcall'
  exact hfrom

namespace FuzzState

variable {s : FuzzState 1}

theorem progress_next {totalOps : ℕ} {round : Round} (hops : totalOps / 100 ≠ 0)
    (hflush : round.flush = .ok ()) : s.progress totalOps round = .next s := by
  unfold progress
  rw [if_neg hops, hflush]
  split_ifs <;> rfl

/-- Where the loop stands between two turns. -/
structure Between (numOps : ℕ) (keys : Pool 1) (s : FuzzState 1) : Prop where
  inv : s.Inv numOps keys
  idle : s.flying onlyClient = false

theorem Between.called_eq_waited (h : Between numOps keys s) : s.opsCalled = s.opsWaited := by
  have hcount := h.inv.counted
  rw [flying_eq h.idle, flyingCount_none] at hcount
  omega

/-- One turn of the loop. -/
theorem Between.turn (h : Between numOps keys s) (hkeys : ∀ c, keys c ≠ [])
    (hops : numOps / 100 ≠ 0) (hclock : 2 * numOps ≤ u64Max) (hlt : s.opsWaited < numOps)
    (t : Turn keys) (hok : (s.history.harvest (t.harvest s.opsWaited)).1 = none) :
    ∃ s' s'', s.iterate numOps keys t.callRound = .next s' ∧ s'.opsWaited < numOps ∧
      s'.iterate numOps keys t.waitRound = .next s'' ∧ Between numOps keys s'' ∧
      s''.opsWaited = s.opsWaited + 1 ∧
      s''.harvested = s.harvested ++ [t.harvest s.opsWaited] ∧
      s''.history = (s.history.harvest (t.harvest s.opsWaited)).2 := by
  have hcount := h.called_eq_waited
  have hstamp := h.inv.clock
  have hflying := flying_eq h.idle
  have hleft : s.opsCalled < numOps * 1 := by omega
  have hfrom := callFrom_of_generated (hkeys onlyClient) t.generated
  have hcall : s.iterate numOps keys t.callRound = .next (s.tick.called onlyClient t.call) := by
    have hgen : genCallVsWait true s.opsCalled (numOps * 1) s.flying = true := by
      have hne : s.opsCalled ≠ numOps := by omega
      simp [genCallVsWait, hflying, hne]
    have hclient : genRandClient [0] s.tick.flying false = some (.ok onlyClient) :=
      genRandClient_onlyClient h.idle
    unfold iterate makeCall
    rw [if_neg (by omega)]
    simp only [Turn.callRound, hgen, ↓reduceIte, hclient, t.generated]
  have hinv' := h.inv.called h.idle hleft hfrom
  set s' := s.tick.called onlyClient t.call with hs'
  have hfly' : s'.flying onlyClient = true := by simp [hs', called]
  have hwaited' : s'.opsWaited = s.opsWaited := rfl
  have hstamp' : s'.timestamp = 2 * s.opsWaited + 1 := by
    simp only [hs', called, tick]
    omega
  have hr : s'.Answers keys (t.harvest s.opsWaited) := by
    obtain ⟨tsCall, call, hw⟩ := hinv'.flying onlyClient hfly'
    have hmade : s'.outstanding onlyClient = [(s.timestamp + 1, t.call)] := by
      simp [hs', called, tick, h.inv.idle onlyClient h.idle]
    have hsame := hw.outstanding.symm.trans hmade
    simp only [List.cons.injEq, Prod.mk.injEq, and_true] at hsame
    obtain ⟨rfl, rfl⟩ := hsame
    refine ⟨hfly', ?_, ?_, t.resp_ne_stop⟩
    · have htime : s.timestamp + 1 = 2 * s.opsWaited + 1 := by omega
      rw [htime] at hw
      exact hw
    · rw [hstamp']
      rfl
  have hhistory : s'.history = s.history := rfl
  have hharvest : s'.history.harvest (t.harvest s.opsWaited) =
      (none, (s.history.harvest (t.harvest s.opsWaited)).2) := by
    rw [hhistory, ← hok]
  have hwait : s'.iterate numOps keys t.waitRound = .next
      (s'.tick.answered (t.harvest s.opsWaited) []
        (s.history.harvest (t.harvest s.opsWaited)).2) := by
    have hgen : genCallVsWait true s'.opsCalled (numOps * 1) s'.flying = false := by
      simp [genCallVsWait, flying_eq hfly']
    unfold iterate
    rw [if_neg (by omega)]
    simp only [Turn.waitRound, hgen, Bool.false_eq_true, ↓reduceIte]
    rw [hinv'.harvestResp_eq hr (genRandClient_onlyClient hfly') rfl, hharvest]
    exact progress_next (by simpa using hops) rfl
  refine ⟨s', _, hcall, hlt, hwait, ⟨hinv'.answered hr hharvest, ?_⟩, rfl, rfl, rfl⟩
  simp [FuzzState.answered, Turn.harvest]

theorem Between.finishes {turns : List (Turn keys)} (hkeys : ∀ c, keys c ≠ [])
    (hops : numOps / 100 ≠ 0) (hclock : 2 * numOps ≤ u64Max) :
    ∀ {s : FuzzState 1}, Between numOps keys s → s.opsWaited + turns.length = numOps →
      (s.history.feed (Turn.harvests s.opsWaited turns)).1 = none →
      ∃ s', fuzzLoop numOps keys (Turn.rounds turns) s = .finished s' ∧
        s'.harvested = s.harvested ++ Turn.harvests s.opsWaited turns := by
  induction turns with
  | nil =>
    intro s _ hlen _
    have hdone : ¬ s.opsWaited < numOps * 1 := by simpa using hlen.ge
    exact ⟨s, by simp only [Turn.rounds, List.flatMap_nil, fuzzLoop, if_neg hdone],
      by simp [Turn.harvests]⟩
  | cons t turns ih =>
    intro s h hlen hok
    have hlt : s.opsWaited < numOps := by
      rw [← hlen]
      simp
    cases hh : s.history.harvest (t.harvest s.opsWaited) with
    | mk complaint history =>
      simp only [Turn.harvests, History.feed, hh] at hok
      cases complaint with
      | some c => simp at hok
      | none =>
        obtain ⟨s', s'', hcall, hlt', hwait, hbetween, hwaited, hharvested, hhistory⟩ :=
          h.turn hkeys hops hclock hlt t (by rw [hh])
        rw [hh] at hhistory
        obtain ⟨final, hfinal, hall⟩ := ih hbetween (by simp at hlen; omega)
          (by rw [hhistory, hwaited]; exact hok)
        refine ⟨final, ?_, ?_⟩
        · have hrounds : Turn.rounds (t :: turns) =
              t.callRound :: t.waitRound :: Turn.rounds turns := rfl
          rw [hrounds, fuzzLoop, if_pos (by omega), hcall]
          simp only
          rw [fuzzLoop, if_pos (by omega), hwait]
          exact hfinal
        · rw [hall, hharvested, hwaited]
          simp [Turn.harvests]

end FuzzState

/-- A single client's turns make a complete run if the checker does not complain. -/
theorem sequential_finishes {turns : List (Turn keys)} (hkeys : ∀ c, keys c ≠ [])
    (hops : 1000 ≤ turns.length) (hclock : 2 * turns.length ≤ u64Max)
    (hok : ((History.new 1 keys.lists).feed (Turn.harvests 0 turns)).1 = none) :
    ∃ s, fuzzLoop turns.length keys (Turn.rounds turns) (.new keys) = .finished s ∧
      s.harvested = Turn.harvests 0 turns := by
  have hstart : FuzzState.Between turns.length keys (.new keys) :=
    ⟨FuzzState.inv_new turns.length keys, rfl⟩
  simpa [FuzzState.new] using hstart.finishes hkeys (by omega) hclock (by simp [FuzzState.new]) hok

/-! ## A client that keeps deleting -/

theorem Turn.driven (hkeys : ∀ c, keys c ≠ []) (i : ℕ) (turns : List (Turn keys)) :
    Driven keys.lists (Turn.harvests i turns) where
  call_pos := by
    intro r hr
    obtain ⟨t, _, j, _, rfl⟩ := mem_harvests hr
    exact Nat.succ_pos _
  call_lt_resp := by
    intro r hr
    obtain ⟨t, _, j, _, rfl⟩ := mem_harvests hr
    exact Nat.lt_succ_self _
  resp_increasing := by
    induction turns generalizing i with
    | nil => exact .nil
    | cons t turns ih =>
      refine List.pairwise_cons.mpr ⟨fun r hr => ?_, ih (i + 1)⟩
      obtain ⟨u, _, j, hj, rfl⟩ := mem_harvests hr
      simp only [Turn.harvest]
      omega
  one_outstanding := by
    induction turns generalizing i with
    | nil => exact .nil
    | cons t turns ih =>
      refine List.pairwise_cons.mpr ⟨fun r hr _ => ?_, ih (i + 1)⟩
      obtain ⟨u, _, j, hj, rfl⟩ := mem_harvests hr
      simp only [Turn.harvest]
      omega
  update_in_pool := by
    intro r hr key value hu
    obtain ⟨t, _, j, _, rfl⟩ := mem_harvests hr
    have hfrom := callFrom_of_generated (hkeys onlyClient) t.generated
    exact ⟨keys onlyClient, Pool.mem_lists onlyClient, hfrom.update_mem hu⟩

/-- The only client deletes the only key, and is answered with `resp`. -/
def deleteTurn (resp : KvResp) (h : resp ≠ .stop) : Turn oneKey :=
  ⟨⟨9, 0, 0, fun _ => 0⟩, .delete "k", resp, rfl, h⟩

/-- A response that says no more than that the key is absent is explained by the
deletion it answers. -/
theorem deletes_accepted {resp : KvResp} (h : resp ≠ .stop)
    (hresp : resp = .delete "k" false ∨ resp = .get "k" none) (count : ℕ) :
    ((History.new 1 oneKey.lists).feed
      (Turn.harvests 0 (List.replicate count (deleteTurn resp h)))).1 = none := by
  have hkeys : ∀ c, oneKey c ≠ [] := by simp [oneKey]
  have hd := Turn.driven hkeys 0 (List.replicate count (deleteTurn resp h))
  set run := Turn.harvests 0 (List.replicate count (deleteTurn resp h)) with hrun
  have haccept : ∀ p ∈ (History.new 1 oneKey.lists).popLog run, p.verdict = true := by
    intro p hp
    obtain ⟨r, hmem, hre⟩ := popped_harvested hd hp
    rw [popLog_verdict_iff hd hp, hre]
    obtain ⟨t, ht, j, _, rfl⟩ := Turn.mem_harvests (hrun ▸ hmem)
    obtain rfl := List.eq_of_mem_replicate ht
    have hpool : InPool oneKey.lists "k" := ⟨["k"], Pool.mem_lists onlyClient, by simp⟩
    have hown : ∀ explains : Option String → Bool, explains none = true →
        RunOffers run ((deleteTurn resp h).harvest j).tsCall
          ((deleteTurn resp h).harvest j).tsResp "k" explains := fun explains hnone =>
      (runOffers_iff_others hd hmem "k" explains).mpr (.inr ⟨⟨_, _, none⟩, rfl, hnone⟩)
    rcases hresp with rfl | rfl
    · exact ⟨hpool, hown _ rfl⟩
    · exact ⟨hpool, hown _ rfl⟩
  cases hf : ((History.new 1 oneKey.lists).feed run).1 with
  | none => rfl
  | some complaint =>
    cases complaint with
    | none => exact absurd hf (feed_knows_keys hd)
    | some bad =>
      obtain ⟨p, hp, _, hv⟩ := feed_rejects_iff.mp hf
      simp [haccept p hp] at hv

end MadKV.Fuzzer
