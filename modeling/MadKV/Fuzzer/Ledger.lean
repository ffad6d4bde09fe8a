import MadKV.Fuzzer.LoopInvariant

/-!
# The ledger of the fuzzing loop

Every call sent to a client and every response harvested from it. The clock gives
each of them a time of its own, and a client is sent its next call only after its
last response. This holds whatever the responses are and whatever the checker
makes of them.
-/

namespace MadKV.Fuzzer

open Runner

variable {n numOps : ℕ} {keys : Pool n}

/-! ## Calls by client -/

namespace FuzzState

variable (s : FuzzState n)

/-- The responses harvested from a client. -/
def harvestedFrom (c : Fin n) : List (Harvest n) := s.harvested.filter (·.cidx = c)

/-- The calls sent to a client, with their times. -/
def sentTo (c : Fin n) : List (ℕ × KvCall) :=
  (s.harvestedFrom c).map (fun r => (r.tsCall, r.call)) ++ s.outstanding c

variable {s}

theorem mem_harvestedFrom {c : Fin n} {r : Harvest n} :
    r ∈ s.harvestedFrom c ↔ r ∈ s.harvested ∧ r.cidx = c := by
  simp [harvestedFrom]

theorem sentTo_called_self (c : Fin n) (call : KvCall) :
    (s.called c call).sentTo c = s.sentTo c ++ [(s.timestamp, call)] := by
  simp [sentTo, harvestedFrom, called]

theorem sentTo_called_of_ne {c d : Fin n} (h : d ≠ c) (call : KvCall) :
    (s.called c call).sentTo d = s.sentTo d := by
  simp [sentTo, harvestedFrom, called, h]

theorem harvestedFrom_answered (r : Harvest n) (history : History n) (c : Fin n) :
    (s.answered r [] history).harvestedFrom c =
      s.harvestedFrom c ++ if r.cidx = c then [r] else [] := by
  simp only [harvestedFrom, answered, List.filter_append]
  by_cases h : r.cidx = c <;> simp [h]

/-- Harvesting moves a call from the outstanding ones to the harvested ones. -/
theorem sentTo_answered {r : Harvest n} (h : s.outstanding r.cidx = [(r.tsCall, r.call)])
    (history : History n) (c : Fin n) : (s.answered r [] history).sentTo c = s.sentTo c := by
  have hrest : (s.answered r [] history).outstanding c =
      Function.update s.outstanding r.cidx [] c := rfl
  rw [sentTo, harvestedFrom_answered, hrest, sentTo]
  by_cases hc : r.cidx = c
  · subst hc
    simp [h]
  · simp [hc, Ne.symm hc]

@[simp] theorem sentTo_tick (c : Fin n) : s.tick.sentTo c = s.sentTo c := rfl

@[simp] theorem harvestedFrom_tick (c : Fin n) : s.tick.harvestedFrom c = s.harvestedFrom c := rfl

/-! ## What an iteration has drawn and heard -/

theorem progress_eq_next {totalOps : ℕ} {round : Round} {t : FuzzState n}
    (h : s.progress totalOps round = .next t) : t = s := by
  unfold progress at h
  split_ifs at h
  · cases hf : round.flush with
    | error err => simp [hf] at h
    | ok _ =>
      rw [hf] at h
      cases h
      rfl
  · cases h
    rfl

theorem progress_ne_failed {totalOps : ℕ} {round : Round} {why : Failure} :
    s.progress totalOps round ≠ .failed why := by
  unfold progress
  split_ifs
  · simp
  · cases round.flush <;> simp
  · simp

/-- An iteration that goes on or fails has sent a call it drew, or heard a response. -/
theorem iterate_heard {round : Round} {e : Iteration n} (h : s.iterate numOps keys round = e)
    (he : (∃ t, e = .next t) ∨ ∃ why, e = .failed why) :
    (genCallVsWait round.coin s.opsCalled (numOps * n) s.flying = true ∧
      ∃ c call, genRandClient round.clients s.flying false = some (.ok c) ∧
        genRandKvcall (keys c) round.call = .ok call ∧ e = .next (s.tick.called c call)) ∨
    (genCallVsWait round.coin s.opsCalled (numOps * n) s.flying = false ∧
      ∃ c resp, genRandClient round.clients s.flying true = some (.ok c) ∧
        round.waitResp = .ok resp ∧ e = s.tick.harvestResp (numOps * n) round) := by
  have hflying : s.tick.flying = s.flying := rfl
  unfold iterate at h
  split_ifs at h with hclock hcall
  · simp [← h] at he
  · refine .inl ⟨hcall, ?_⟩
    unfold makeCall at h
    rw [hflying] at h
    rcases hclient : genRandClient round.clients s.flying false with _ | why | c
    · simp [← h, hclient] at he
    · simp [← h, hclient] at he
    · rcases hdraw : genRandKvcall (keys c) round.call with why | call
      · simp [← h, hclient, hdraw] at he
      · rcases hsend : round.sendCall with err | _
        · simp [← h, hclient, hdraw, hsend] at he
        · exact ⟨c, call, rfl, hdraw, by simp [← h, hclient, hdraw, hsend]⟩
  · refine .inr ⟨by simpa using hcall, ?_⟩
    rcases hclient : genRandClient round.clients s.flying true with _ | why | c
    · simp [← h, harvestResp, hflying, hclient] at he
    · simp [← h, harvestResp, hflying, hclient] at he
    · rcases hresp : round.waitResp with err | resp
      · cases hout : s.tick.outstanding c <;>
          simp [← h, harvestResp, hflying, hclient, hresp, hout] at he
      · exact ⟨c, resp, rfl, rfl, h.symm⟩

/-- The response that was heard is unexpected, or the checker gets it. -/
theorem Inv.harvestResp_heard (h : s.Inv numOps keys) {round : Round} {c : Fin n} {resp : KvResp}
    (hc : s.flying c = true) (hclient : genRandClient round.clients s.flying true = some (.ok c))
    (hresp : round.waitResp = .ok resp) (totalOps : ℕ) :
    resp = .stop ∨ ∃ r, s.Answers keys r ∧ r.cidx = c ∧ r.resp = resp ∧
      s.tick.harvestResp totalOps round =
        match s.history.harvest r with
        | (none, history) => (s.tick.answered r [] history).progress totalOps round
        | (some none, _) => .failed .unexpectedKey
        | (some (some resp), _) => .failed (.violation resp) := by
  by_cases hstop : resp = .stop
  · exact .inl hstop
  · obtain ⟨tsCall, call, hworks⟩ := h.flying c hc
    let r : Harvest n := ⟨c, tsCall, s.timestamp + 1, call, resp⟩
    have hr : s.Answers keys r := ⟨hc, hworks, rfl, hstop⟩
    exact .inr ⟨r, hr, rfl, rfl, h.harvestResp_eq hr hclient hresp totalOps⟩

theorem Inv.picks_flying (h : s.Inv numOps keys) (hlt : s.opsWaited < numOps * n) {round : Round}
    (hwait : genCallVsWait round.coin s.opsCalled (numOps * n) s.flying = false) {c : Fin n}
    (hclient : genRandClient round.clients s.flying true = some (.ok c)) : s.flying c = true := by
  have hn : n ≠ 0 := Nat.ne_zero_of_lt c.isLt
  have hflying : ∃ c, s.flying c = true := by
    rcases genCallVsWait_wait hwait hn with hdone | hflying
    · -- all calls are made and some response is missing
      have hcount := h.counted
      exact exists_flying (by omega)
    · exact hflying
  rcases genRandClient_cases hflying round.clients with hnone | ⟨d, hd, hsome⟩
  · simp [hnone] at hclient
  · obtain rfl : d = c := by simpa [hsome] using hclient
    exact hd

/-- The response that an iteration harvests. -/
theorem Inv.harvestResp_next (h : s.Inv numOps keys) {round : Round} {c : Fin n} {resp : KvResp}
    {t : FuzzState n} (hc : s.flying c = true)
    (hclient : genRandClient round.clients s.flying true = some (.ok c))
    (hresp : round.waitResp = .ok resp) {totalOps : ℕ}
    (ht : s.tick.harvestResp totalOps round = .next t) :
    ∃ r history, s.Answers keys r ∧ r.cidx = c ∧ r.resp = resp ∧
      t = s.tick.answered r [] history := by
  obtain ⟨tsCall, call, hworks⟩ := h.flying c hc
  rcases h.harvestResp_heard hc hclient hresp totalOps with rfl | ⟨r, hr, rfl, rfl, heq⟩
  · have hout : s.tick.outstanding c = [(tsCall, call)] := hworks.outstanding
    simp [harvestResp, show s.tick.flying = s.flying from rfl, hclient, hresp, hout] at ht
  · rw [heq] at ht
    rcases hh : s.history.harvest r with ⟨_ | _ | bad, history⟩
    · rw [hh] at ht
      exact ⟨r, history, hr, rfl, rfl, progress_eq_next ht⟩
    · simp [hh] at ht
    · simp [hh] at ht

/-- The call an iteration sends, or the response it harvests. -/
theorem Inv.iterate_next (h : s.Inv numOps keys) (hlt : s.opsWaited < numOps * n) {round : Round}
    {t : FuzzState n} (hi : s.iterate numOps keys round = .next t) :
    (∃ c call, s.flying c = false ∧ genRandKvcall (keys c) round.call = .ok call ∧
      t = s.tick.called c call) ∨
    ∃ r history, s.Answers keys r ∧ genRandClient round.clients s.flying true = some (.ok r.cidx) ∧
      round.waitResp = .ok r.resp ∧ t = s.tick.answered r [] history := by
  rcases iterate_heard hi (.inl ⟨t, rfl⟩) with ⟨hcall, c, call, hclient, hdraw, ht⟩ |
    ⟨hwait, c, resp, hclient, hresp, ht⟩
  · obtain ⟨_, hidle⟩ := genCallVsWait_call hcall
    refine .inl ⟨c, call, ?_, hdraw, by simpa using ht⟩
    rcases genRandClient_cases hidle round.clients with hnone | ⟨d, hd, hsome⟩
    · simp [hnone] at hclient
    · obtain rfl : d = c := by simpa [hsome] using hclient
      exact hd
  · have hc := h.picks_flying hlt hwait hclient
    obtain ⟨r, history, hr, rfl, rfl, ht⟩ := h.harvestResp_next hc hclient hresp ht.symm
    exact .inr ⟨r, history, hr, hclient, hresp, ht⟩

/-- A failing iteration has heard Stop, or a response the checker rejects. -/
theorem Inv.iterate_failed (h : s.Inv numOps keys) (hlt : s.opsWaited < numOps * n) {round : Round}
    {why : Failure} (hi : s.iterate numOps keys round = .failed why) :
    ∃ c resp, s.flying c = true ∧ genRandClient round.clients s.flying true = some (.ok c) ∧
      round.waitResp = .ok resp ∧ (resp = .stop ∨ ∃ r, s.Answers keys r ∧ r.cidx = c ∧
        r.resp = resp ∧ (s.history.harvest r).1 ≠ none) := by
  rcases iterate_heard hi (.inr ⟨why, rfl⟩) with ⟨_, c, call, _, _, ht⟩ |
    ⟨hwait, c, resp, hclient, hresp, ht⟩
  · cases ht
  · have hc := h.picks_flying hlt hwait hclient
    refine ⟨c, resp, hc, hclient, hresp, ?_⟩
    rcases h.harvestResp_heard hc hclient hresp (numOps * n) with hstop | ⟨r, hr, rfl, rfl, heq⟩
    · exact .inl hstop
    · refine .inr ⟨r, hr, rfl, rfl, fun hnone => ?_⟩
      rw [heq] at ht
      rcases hh : s.history.harvest r with ⟨complaint, history⟩
      obtain rfl : complaint = none := by simpa [hh] using hnone
      rw [hh] at ht
      exact progress_ne_failed ht.symm

/-! ## The ledger of calls and responses -/

/-- The clock gives every call and every response a time of its own, and a client
is sent its next call after its last response. -/
structure Ledger (keys : Pool n) (s : FuzzState n) : Prop where
  call_pos : ∀ c, ∀ x ∈ s.sentTo c, 0 < x.1
  call_past : ∀ c, ∀ x ∈ s.sentTo c, x.1 ≤ s.timestamp
  resp_past : ∀ r ∈ s.harvested, r.tsResp ≤ s.timestamp
  call_lt_resp : ∀ r ∈ s.harvested, r.tsCall < r.tsResp
  resp_increasing : s.harvested.Pairwise fun a b => a.tsResp < b.tsResp
  call_ne_resp : ∀ c, ∀ x ∈ s.sentTo c, ∀ r ∈ s.harvested, x.1 ≠ r.tsResp
  apart : ∀ c d, ∀ x ∈ s.sentTo c, ∀ y ∈ s.sentTo d, x.1 = y.1 → c = d
  serial : ∀ c, (s.sentTo c).Pairwise fun x y =>
    ∃ r ∈ s.harvestedFrom c, r.tsCall = x.1 ∧ r.tsResp < y.1
  drawn : ∀ c, ∀ x ∈ s.sentTo c, ∃ draws, genRandKvcall (keys c) draws = .ok x.2

/-- The calls to a client are listed in the order of their times. -/
theorem Ledger.call_lt (h : Ledger keys s) (c : Fin n) :
    (s.sentTo c).Pairwise fun x y => x.1 < y.1 := by
  refine (h.serial c).imp fun ⟨r, hr, hcall, hresp⟩ => ?_
  have hlt := h.call_lt_resp r (mem_harvestedFrom.mp hr).1
  omega

/-- The time of the call tells which response to a client it is. -/
theorem Ledger.harvest_inj (h : Ledger keys s) {r r' : Harvest n} (hr : r ∈ s.harvested)
    (hr' : r' ∈ s.harvested) (hc : r.cidx = r'.cidx) (hcall : r.tsCall = r'.tsCall) : r = r' := by
  have hlt := (h.call_lt r.cidx).sublist (List.sublist_append_left _ _)
  rw [List.pairwise_map] at hlt
  have hnodup : ((s.harvestedFrom r.cidx).map Harvest.tsCall).Nodup :=
    List.pairwise_map.mpr (hlt.imp fun hab => hab.ne)
  exact List.inj_on_of_nodup_map hnodup (mem_harvestedFrom.mpr ⟨hr, rfl⟩)
    (mem_harvestedFrom.mpr ⟨hr', hc.symm⟩) hcall

theorem Ledger.resp_inj (h : Ledger keys s) {r r' : Harvest n} (hr : r ∈ s.harvested)
    (hr' : r' ∈ s.harvested) (hresp : r.tsResp = r'.tsResp) : r = r' := by
  have hnodup : (s.harvested.map Harvest.tsResp).Nodup :=
    List.pairwise_map.mpr (h.resp_increasing.imp fun hab => hab.ne)
  exact List.inj_on_of_nodup_map hnodup hr hr' hresp

/-- Of two calls to a client, the first has its response before the second is made. -/
theorem Ledger.answered_before (h : Ledger keys s) {c : Fin n} {x y : ℕ × KvCall}
    (hx : x ∈ s.sentTo c) (hy : y ∈ s.sentTo c) (hxy : x.1 < y.1) :
    ∃ r ∈ s.harvestedFrom c, r.tsCall = x.1 ∧ r.tsResp < y.1 := by
  obtain ⟨before, after, hsplit⟩ := List.append_of_mem hx
  have hserial := h.serial c
  have hlt := h.call_lt c
  rw [hsplit, List.pairwise_append, List.pairwise_cons] at hserial hlt
  rw [hsplit] at hy
  rcases List.mem_append.mp hy with hy | hy
  · exact absurd (hlt.2.2 y hy x (by simp)) hxy.asymm
  · rcases List.mem_cons.mp hy with rfl | hy
    · exact absurd hxy (lt_irrefl _)
    · exact hserial.2.1.1 y hy

theorem ledger_new (keys : Pool n) : Ledger keys (FuzzState.new keys) := by
  constructor <;> simp [FuzzState.new, sentTo, harvestedFrom]

theorem mem_sentTo_called {c d : Fin n} {call : KvCall} {x : ℕ × KvCall}
    (hx : x ∈ (s.tick.called c call).sentTo d) :
    x ∈ s.sentTo d ∨ d = c ∧ x = (s.timestamp + 1, call) := by
  by_cases hd : d = c
  · subst hd
    rw [sentTo_called_self] at hx
    rcases List.mem_append.mp hx with hx | hx
    · exact .inl hx
    · exact .inr ⟨rfl, List.mem_singleton.mp hx⟩
  · rw [sentTo_called_of_ne hd] at hx
    exact .inl hx

theorem Ledger.called (h : Ledger keys s) {c : Fin n} {call : KvCall}
    (hidle : s.outstanding c = [])
    (hdraw : ∃ draws, genRandKvcall (keys c) draws = .ok call) :
    Ledger keys (s.tick.called c call) where
  call_pos := by
    intro d x hx
    rcases mem_sentTo_called hx with hx | ⟨_, rfl⟩
    · exact h.call_pos d x hx
    · exact Nat.succ_pos _
  call_past := by
    intro d x hx
    rcases mem_sentTo_called hx with hx | ⟨_, rfl⟩
    · exact (h.call_past d x hx).trans (Nat.le_succ _)
    · exact le_rfl
  resp_past := fun r hr => (h.resp_past r hr).trans (Nat.le_succ _)
  call_lt_resp := h.call_lt_resp
  resp_increasing := h.resp_increasing
  call_ne_resp := by
    intro d x hx r hr
    rcases mem_sentTo_called hx with hx | ⟨_, rfl⟩
    · exact h.call_ne_resp d x hx r hr
    · exact (Nat.lt_succ_of_le (h.resp_past r hr)).ne'
  apart := by
    intro d e x hx y hy hxy
    rcases mem_sentTo_called hx with hx' | ⟨hd, rfl⟩ <;>
      rcases mem_sentTo_called hy with hy' | ⟨he, rfl⟩
    · exact h.apart d e x hx' y hy' hxy
    · exact absurd hxy (Nat.lt_succ_of_le (h.call_past d x hx')).ne
    · exact absurd hxy (Nat.lt_succ_of_le (h.call_past e y hy')).ne'
    · rw [hd, he]
  serial := by
    intro d
    by_cases hd : d = c
    · subst hd
      rw [sentTo_called_self]
      refine List.pairwise_append.mpr ⟨h.serial d, by simp, fun x hx y hy => ?_⟩
      -- all earlier calls of an idle client have their responses
      rw [List.mem_singleton.mp hy]
      have hmem : x ∈ (s.harvestedFrom d).map fun r => (r.tsCall, r.call) := by
        rw [sentTo_tick, sentTo, hidle, List.append_nil] at hx
        exact hx
      obtain ⟨r, hr, rfl⟩ := List.mem_map.mp hmem
      exact ⟨r, hr, rfl, Nat.lt_succ_of_le (h.resp_past r (mem_harvestedFrom.mp hr).1)⟩
    · rw [sentTo_called_of_ne hd]
      exact h.serial d
  drawn := by
    intro d x hx
    rcases mem_sentTo_called hx with hx | ⟨rfl, rfl⟩
    · exact h.drawn d x hx
    · exact hdraw

theorem Ledger.answered (h : Ledger keys s) {r : Harvest n} (hr : s.Answers keys r)
    (history : History n) : Ledger keys (s.tick.answered r [] history) := by
  have hsent : ∀ c, (s.tick.answered r [] history).sentTo c = s.sentTo c :=
    sentTo_answered hr.worksOn.outstanding history
  have hmem : ∀ a ∈ (s.tick.answered r [] history).harvested, a ∈ s.harvested ∨ a = r := by
    intro a ha
    simpa [FuzzState.answered, tick] using ha
  have hcall : (r.tsCall, r.call) ∈ s.sentTo r.cidx := by
    simp [sentTo, hr.worksOn.outstanding]
  refine ⟨?_, ?_, ?_, ?_, ?_, ?_, ?_, ?_, ?_⟩
  · simpa only [hsent] using h.call_pos
  · simp only [hsent]
    exact fun c x hx => (h.call_past c x hx).trans (Nat.le_succ _)
  · intro a ha
    rcases hmem a ha with ha | rfl
    · exact (h.resp_past a ha).trans (Nat.le_succ _)
    · exact hr.now.le
  · intro a ha
    rcases hmem a ha with ha | rfl
    · exact h.call_lt_resp a ha
    · rw [hr.now]
      exact Nat.lt_succ_of_le (h.call_past _ _ hcall)
  · refine List.pairwise_append.mpr ⟨h.resp_increasing, by simp, fun a ha b hb => ?_⟩
    rw [List.mem_singleton.mp hb, hr.now]
    exact Nat.lt_succ_of_le (h.resp_past a ha)
  · simp only [hsent]
    intro c x hx a ha
    rcases hmem a ha with ha | rfl
    · exact h.call_ne_resp c x hx a ha
    · rw [hr.now]
      exact (Nat.lt_succ_of_le (h.call_past c x hx)).ne
  · simpa only [hsent] using h.apart
  · simp only [hsent, harvestedFrom_answered, harvestedFrom_tick]
    intro c
    refine (h.serial c).imp ?_
    rintro x y ⟨a, ha, hxy⟩
    exact ⟨a, List.mem_append_left _ ha, hxy⟩
  · simpa only [hsent] using h.drawn

end FuzzState

end MadKV.Fuzzer
