import MadKV.Fuzzer.System

/-!
# Every state of the system is explained

The loop and the clients change the explanation by at most one effect, that of
the line a process executes.
-/

namespace MadKV.Fuzzer

open Runner Store Support Spec Wire

variable {n numOps : ℕ} {keys : Pool n}

/-! ## Steps -/

/-- Above finitely many numbers and one more there is room for another. -/
theorem exists_moment {l : List ℚ} {lo hi : ℚ} (hlo : lo < hi) (h : ∀ q ∈ l, q < hi) :
    ∃ q, lo ≤ q ∧ q < hi ∧ ∀ p ∈ l, p < q := by
  induction l with
  | nil => exact ⟨lo, le_rfl, hlo, by simp⟩
  | cons p l ih =>
    obtain ⟨q, hle, hq, hl⟩ := ih fun q hq => h q (by simp [hq])
    obtain ⟨q', hlt, hq'⟩ := exists_between (max_lt hq (h p (by simp)))
    obtain ⟨hq₁, hq₂⟩ := max_lt_iff.mp hlt
    refine ⟨q', hle.trans hq₁.le, hq', fun x hx => ?_⟩
    rcases List.mem_cons.mp hx with rfl | hx
    · exact hq₂
    · exact (hl x hx).trans hq₁

theorem replay_ne_stop {m : KvMap} {calls : List KvCall} (h : KvCall.stop ∉ calls) :
    ∀ resp ∈ replay m calls, resp ≠ .stop := by
  induction calls generalizing m with
  | nil => simp [replay]
  | cons call calls ih =>
    obtain ⟨hne, hrest⟩ := not_or.mp (mt List.mem_cons.mpr h)
    intro resp hresp
    rcases List.mem_cons.mp hresp with rfl | hresp
    · cases call <;> simp_all [apply]
    · exact ih hrest resp hresp

namespace Explains

variable {s : System n} {es : List (Effect n)}

/-- Nothing changes as long as no call is written or executed. -/
theorem frame (h : Explains s es) {session : Session (Fin n)}
    (hstore : session.store = s.session.store)
    (hcalls : ∀ c, (session.procs c).calls = (s.session.procs c).calls)
    (hbefore : ∀ c, (session.procs c).before = (s.session.procs c).before) :
    Explains { s with session } es where
  store := by rw [hstore, h.store]
  replayed := h.replayed
  in_order := h.in_order
  after_call := h.after_call
  present := h.present
  written := fun c => by
    rw [hcalls]
    exact h.written c
  executed := fun c => by
    rw [hbefore]
    exact h.executed c
  answers := fun c => by
    rw [h.answers, ClientProc.answers, ClientProc.answers, ClientProc.operations,
      ClientProc.operations, hcalls, hbefore]
  effective := h.effective

theorem called (h : Explains s es) (hw : Wire.Reachable s.session) {c : Fin n} (call : KvCall) :
    Explains { s with fuzz := s.fuzz.tick.called c call } es where
  store := h.store
  replayed := h.replayed
  in_order := h.in_order
  after_call := h.after_call
  present := by
    intro e he
    have hlt := h.present e he
    have hcast : ((s.fuzz.tick.called c call).timestamp : ℚ) = s.fuzz.timestamp + 1 := by
      simp [FuzzState.called, FuzzState.tick]
    rw [hcast]
    linarith
  written := by
    intro d
    by_cases hd : d = c
    · subst hd
      rw [FuzzState.sentTo_called_self, List.map_append]
      exact (h.written d).trans (List.prefix_append _ _)
    · rw [FuzzState.sentTo_called_of_ne hd]
      exact h.written d
  executed := by
    intro d
    by_cases hd : d = c
    · subst hd
      have hsent : (s.session.procs d).calls.length ≤ (s.fuzz.sentTo d).length := by
        simpa using (h.written d).length_le
      have hexecuted := (hw.inv.procs d).executed
      rw [FuzzState.sentTo_called_self, FuzzState.sentTo_tick, h.executed]
      exact (List.take_append_of_le_length (hexecuted.trans hsent)).symm
    · rw [FuzzState.sentTo_called_of_ne hd]
      exact h.executed d
  answers := h.answers
  effective := h.effective

theorem write (h : Explains s es) (hw : Wire.Reachable s.session) {c : Fin n} {x : ℕ × KvCall}
    (hnext : (s.fuzz.sentTo c)[(s.session.procs c).calls.length]? = some x) :
    Explains { s with session := s.session.update c ((s.session.procs c).write x.2) } es where
  store := h.store
  replayed := h.replayed
  in_order := h.in_order
  after_call := h.after_call
  present := h.present
  written := by
    intro d
    by_cases hd : d = c
    · subst hd
      have hcall : ((s.fuzz.sentTo d).map Prod.snd)[(s.session.procs d).calls.length]? =
          some x.2 := by
        rw [List.getElem?_map, hnext, Option.map_some]
      have hwritten := h.written d
      rw [Session.update_self]
      exact concat_prefix hwritten hcall
    · simpa [Session.update, hd] using h.written d
  executed := by
    intro d
    by_cases hd : d = c
    · subst hd
      rw [Session.update_self]
      exact h.executed d
    · simpa [Session.update, hd] using h.executed d
  answers := by
    intro d
    by_cases hd : d = c
    · subst hd
      have hoperations := ClientProc.operations_write (hw.inv.procs d).executed x.2
      rw [Session.update_self, h.answers, ClientProc.answers, ClientProc.answers, hoperations]
    · simpa [Session.update, hd] using h.answers d
  effective := h.effective

/-- A process executes a line: the store answers the call at a moment of its own. -/
theorem execute (h : Explains s es) (hw : Wire.Reachable s.session)
    (hl : FuzzState.Ledger keys s.fuzz) {c : Fin n} {line : String} {rest : List String}
    (hline : (s.session.procs c).stdin = line :: rest) :
    ∃ e, Explains { s with
      session := { s.session.update c ((s.session.procs c).execute rest s.session.store.contents
          (Client.runLine serverStub line s.session.store)) with
        store := (Client.runLine serverStub line s.session.store).world } } (es ++ [e]) := by
  obtain ⟨call, hget, hwf, rfl, _⟩ := (hw.inv.procs c).next_call hline
  obtain ⟨_, _, _, hworld⟩ := Client.runLine_call (splitBySpace_callLine hwf) s.session.store
  -- the call was sent, and its time is past
  obtain ⟨x, hx, hxcall⟩ : ∃ x, (s.fuzz.sentTo c)[(s.session.procs c).before.length]? = some x ∧
      x.2 = call := by
    have hsent := getElem?_of_prefix (h.written c) hget
    rw [List.getElem?_map] at hsent
    exact Option.map_eq_some_iff.mp hsent
  have hpast : x.1 ≤ s.fuzz.timestamp := hl.call_past c x (List.mem_of_getElem? hx)
  obtain ⟨q, hq, hqlt, hlast⟩ := @exists_moment (es.map Effect.effect) s.fuzz.timestamp
    (s.fuzz.timestamp + 1) (lt_add_one _) (List.forall_mem_map.mpr h.present)
  let e : Effect n := ⟨c, x.1, call, (apply s.session.store.contents call).1, q⟩
  have hself : effectsOf (es ++ [e]) c = effectsOf es c ++ [e] := by
    simp [effectsOf, e]
  have hother : ∀ d, d ≠ c → effectsOf (es ++ [e]) d = effectsOf es d := by
    intro d hd
    simp [effectsOf, e, Ne.symm hd]
  refine ⟨e, ?_, ?_, ?_, ?_, ?_, ?_, ?_, ?_, ?_⟩
  · simp [hworld, h.store, contents, e]
  · rw [List.map_append, List.map_append, replay_append, ← h.store, ← h.replayed]
    rfl
  · refine List.pairwise_append.mpr ⟨h.in_order, by simp, fun a ha b hb => ?_⟩
    rw [List.mem_singleton.mp hb]
    exact hlast _ (List.mem_map_of_mem ha)
  · intro a ha
    rcases List.mem_append.mp ha with ha | ha
    · exact h.after_call a ha
    · rw [List.mem_singleton.mp ha]
      exact le_trans (by exact_mod_cast hpast) hq
  · intro a ha
    rcases List.mem_append.mp ha with ha | ha
    · exact h.present a ha
    · rw [List.mem_singleton.mp ha]
      exact hqlt
  · intro d
    by_cases hd : d = c
    · subst hd
      simpa [Session.update, ClientProc.execute] using h.written d
    · simpa [Session.update, hd] using h.written d
  · intro d
    by_cases hd : d = c
    · subst hd
      rw [hself, List.map_append, h.executed]
      simp [Session.update, ClientProc.execute, List.take_add_one, hx, e, ← hxcall]
    · rw [hother d hd]
      simpa [Session.update, hd] using h.executed d
  · intro d
    by_cases hd : d = c
    · subst hd
      rw [hself, List.map_append, h.answers]
      simp only [Session.update_self, ClientProc.answers,
        ClientProc.operations_execute hget, List.map_append]
      rfl
    · rw [hother d hd]
      simpa [Session.update, hd] using h.answers d
  · intro r hr
    obtain ⟨a, ha, hmatch⟩ := h.effective r hr
    exact ⟨a, List.mem_append_left _ ha, hmatch⟩

/-- The answers survive being printed and read back, and none of them is Stop. -/
theorem faithful (h : Explains s es) (hl : FuzzState.Ledger keys s.fuzz) (hkeys : keys.Usable)
    {c : Fin n} {resp : KvResp} (hresp : resp ∈ (s.session.procs c).answers) :
    reread resp = resp ∧ Unterminated resp ∧ resp ≠ .stop := by
  rw [← h.answers c] at hresp
  obtain ⟨e, he, rfl⟩ := List.mem_map.mp hresp
  have hmem := (mem_effectsOf.mp he).1
  have hdrawn : ∀ e ∈ es, ∃ draws, genRandKvcall (keys e.cidx) draws = .ok e.call :=
    fun e he => hl.drawn _ _ (h.sent he)
  have hplain : ∀ call ∈ es.map Effect.call, PlainCall call := by
    refine List.forall_mem_map.mpr fun e he => ?_
    obtain ⟨draws, hdraw⟩ := hdrawn e he
    exact drawn_plain hdraw
  have hin : e.resp ∈ replay ∅ (es.map Effect.call) := h.replayed ▸ List.mem_map_of_mem hmem
  obtain ⟨hsame, hun⟩ := replay_plain (by simp [Plain] : Plain ∅) hplain _ hin
  have hstop : KvCall.stop ∉ es.map Effect.call := by
    rw [List.mem_map]
    rintro ⟨e, he, hcall⟩
    obtain ⟨draws, hdraw⟩ := hdrawn e he
    have hfrom := drawn_from (hkeys.nonempty e.cidx) hdraw
    rw [hcall] at hfrom
    exact hfrom
  exact ⟨hsame, hun, replay_ne_stop hstop _ hin⟩

/-- What a driver has passed on is what its process was answered. -/
theorem responses_prefix (h : Explains s es) (hw : Wire.Reachable s.session)
    (hl : FuzzState.Ledger keys s.fuzz) (hkeys : keys.Usable) (c : Fin n) :
    (s.session.procs c).responses <+: (s.session.procs c).answers := by
  obtain ⟨passed, unread, hanswers, hresps, _⟩ := hw.inOrder c fun resp hresp =>
    (h.faithful hl hkeys hresp).2.1
  have hsame : passed.map reread = passed := by
    refine (List.map_congr_left fun resp hresp => ?_).trans (List.map_id passed)
    exact (h.faithful hl hkeys (by rw [hanswers]; exact List.mem_append_left _ hresp)).1
  rw [hanswers, hresps, hsame]
  exact List.prefix_append _ _

/-- A response is harvested: it answers the effect of the outstanding call. -/
theorem answered (h : Explains s es) {r : Harvest n} (hr : s.fuzz.Answers keys r)
    (hanswer : (s.session.procs r.cidx).answers[(s.fuzz.harvestedFrom r.cidx).length]? =
      some r.resp) (history : History n) :
    Explains { s with fuzz := s.fuzz.tick.answered r [] history } es := by
  have hsent : ∀ c, (s.fuzz.tick.answered r [] history).sentTo c = s.fuzz.sentTo c :=
    FuzzState.sentTo_answered hr.worksOn.outstanding history
  have hclock : (s.fuzz.tick.answered r [] history).timestamp = s.fuzz.timestamp + 1 := rfl
  -- the effect that was answered
  obtain ⟨e, he, hresp⟩ : ∃ e,
      (effectsOf es r.cidx)[(s.fuzz.harvestedFrom r.cidx).length]? = some e ∧
        e.resp = r.resp := by
    rw [← h.answers, List.getElem?_map] at hanswer
    exact Option.map_eq_some_iff.mp hanswer
  have hcall : (s.fuzz.sentTo r.cidx)[(s.fuzz.harvestedFrom r.cidx).length]? =
      some (r.tsCall, r.call) := by
    rw [FuzzState.sentTo, hr.worksOn.outstanding, List.getElem?_append_right (by simp)]
    simp
  have hkey : (e.tsCall, e.call) = (r.tsCall, r.call) := by
    have hexecuted : ((effectsOf es r.cidx).map fun e =>
        (e.tsCall, e.call))[(s.fuzz.harvestedFrom r.cidx).length]? = some (e.tsCall, e.call) := by
      rw [List.getElem?_map, he, Option.map_some]
    rw [h.executed] at hexecuted
    have hsame := getElem?_of_prefix (List.take_prefix _ _) hexecuted
    exact Option.some.inj (hsame.symm.trans hcall)
  obtain ⟨hmem, hcidx⟩ := mem_effectsOf.mp (List.mem_of_getElem? he)
  refine ⟨h.store, h.replayed, h.in_order, h.after_call, ?_, ?_, ?_, h.answers, ?_⟩
  · intro a ha
    have hlt := h.present a ha
    rw [hclock]
    push_cast
    linarith
  · intro c
    rw [hsent]
    exact h.written c
  · intro c
    rw [hsent]
    exact h.executed c
  · intro a ha
    have ha' : a ∈ s.fuzz.harvested ∨ a = r := by
      simpa [FuzzState.answered, FuzzState.tick] using ha
    rcases ha' with ha | rfl
    · exact h.effective a ha
    · have hle := (h.present e hmem).le
      refine ⟨e, hmem, hcidx, congrArg Prod.fst hkey, congrArg Prod.snd hkey, hresp, ?_⟩
      rw [hr.now]
      push_cast
      exact hle

end Explains

/-! ## Whole runs -/

namespace System

variable {s s' : System n} {rounds : List Round}

structure Inv (numOps : ℕ) (keys : Pool n) (s : System n) : Prop where
  fuzz : s.fuzz.Inv numOps keys
  ledger : FuzzState.Ledger keys s.fuzz
  wire : Wire.Reachable s.session
  explained : ∃ es, Explains s es

theorem inv_new (numOps : ℕ) (keys : Pool n) : (new keys).Inv numOps keys :=
  ⟨FuzzState.inv_new numOps keys, FuzzState.ledger_new keys, .new, [], explains_new keys⟩

/-- What `wait_resp` returned is what the process of the client was answered. -/
theorem Inv.heard (hs : s.Inv numOps keys) (hkeys : keys.Usable) {round : Round}
    (hround : s.Hears round) {c : Fin n} {resp : KvResp}
    (hclient : genRandClient round.clients s.fuzz.flying true = some (.ok c))
    (hresp : round.waitResp = .ok resp) :
    (s.session.procs c).answers[(s.fuzz.harvestedFrom c).length]? = some resp := by
  obtain ⟨es, hes⟩ := hs.explained
  exact getElem?_of_prefix (hes.responses_prefix hs.wire hs.ledger hkeys c)
    (hround c resp hclient hresp)

theorem Inv.iterate (hs : s.Inv numOps keys) (hkeys : keys.Usable) (hops : numOps * n / 100 ≠ 0)
    (hlt : s.fuzz.opsWaited < numOps * n) {round : Round} (hround : s.Hears round)
    {fuzz : FuzzState n} (hi : s.fuzz.iterate numOps keys round = .next fuzz) :
    ({ s with fuzz } : System n).Inv numOps keys := by
  obtain ⟨es, hes⟩ := hs.explained
  have hdoes := hs.fuzz.iterate_does hkeys.nonempty hops hlt round
  rw [hi] at hdoes
  have hfuzz := hs.fuzz.next hdoes
  rcases hs.fuzz.iterate_next hlt hi with ⟨c, call, hidle, hdraw, rfl⟩ |
    ⟨r, history, hr, hclient, hresp, rfl⟩
  · exact ⟨hfuzz, hs.ledger.called (hs.fuzz.idle c hidle) ⟨round.call, hdraw⟩, hs.wire, es,
      hes.called hs.wire call⟩
  · exact ⟨hfuzz, hs.ledger.answered hr history, hs.wire, es,
      hes.answered hr (hs.heard hkeys hround hclient hresp) history⟩

theorem Step.inv (h : Step s s') (hs : s.Inv numOps keys) (hkeys : keys.Usable) :
    s'.Inv numOps keys := by
  obtain ⟨es, hes⟩ := hs.explained
  have hupdate : ∀ (c : Fin n) (p : ClientProc), p.calls = (s.session.procs c).calls →
      p.before = (s.session.procs c).before →
      Explains { s with session := s.session.update c p } es := by
    intro c p hcalls hbefore
    refine hes.frame rfl (fun d => ?_) (fun d => ?_) <;> by_cases hd : d = c
    · rw [hd, Session.update_self, hcalls]
    · simp [Session.update, hd]
    · rw [hd, Session.update_self, hbefore]
    · simp [Session.update, hd]
  cases h with
  | write hdriving hwaiting hnext =>
    obtain ⟨draws, hdraw⟩ := hs.ledger.drawn _ _ (List.mem_of_getElem? hnext)
    exact ⟨hs.fuzz, hs.ledger,
      hs.wire.step (.write hdriving hwaiting (drawn_wellFormed hkeys hdraw)), es,
      hes.write hs.wire hnext⟩
  | execute hrunning hline =>
    obtain ⟨e, he⟩ := hes.execute hs.wire hs.ledger hline
    exact ⟨hs.fuzz, hs.ledger, hs.wire.step (.execute hrunning hline), es ++ [e], he⟩
  | @read c fuel result hdriving hwaiting hread =>
    have hsame : ((s.session.procs c).read result).calls = (s.session.procs c).calls ∧
        ((s.session.procs c).read result).before = (s.session.procs c).before := by
      obtain ⟨outcome, rest⟩ := result
      cases outcome <;> exact ⟨rfl, rfl⟩
    exact ⟨hs.fuzz, hs.ledger, hs.wire.step (.read hdriving hwaiting hread), es,
      hupdate _ _ hsame.1 hsame.2⟩
  | exit => exact ⟨hs.fuzz, hs.ledger, hs.wire.step .exit, es, hupdate _ _ rfl rfl⟩
  | hangUp => exact ⟨hs.fuzz, hs.ledger, hs.wire.step .hangUp, es, hupdate _ _ rfl rfl⟩

theorem Reachable.inv (h : Reachable numOps keys rounds s) (hkeys : keys.Usable)
    (hops : numOps * n / 100 ≠ 0) : s.Inv numOps keys := by
  induction h with
  | new => exact inv_new numOps keys
  | iterate _ hlt hround hi ih => exact ih.iterate hkeys hops hlt hround hi
  | step _ hstep ih => exact hstep.inv ih hkeys

/-- The loop of `fuzz_test` is where the system is. -/
theorem Reachable.fuzzLoop_eq (h : Reachable numOps keys rounds s) (more : List Round) :
    fuzzLoop numOps keys (rounds ++ more) (.new keys) = fuzzLoop numOps keys more s.fuzz := by
  induction h generalizing more with
  | new => rfl
  | iterate _ hlt _ hi ih =>
    rw [List.append_assoc, ih, List.singleton_append, fuzzLoop, if_pos hlt, hi]
  | step _ hstep ih =>
    rw [ih]
    cases hstep <;> rfl

/-- The checker accepts whatever an iteration hears. -/
theorem Inv.iterate_ne_failed (hs : s.Inv numOps keys) (hkeys : keys.Usable)
    (hlt : s.fuzz.opsWaited < numOps * n) {round : Round} (hround : s.Hears round)
    (why : Failure) : s.fuzz.iterate numOps keys round ≠ .failed why := by
  intro hfailed
  obtain ⟨es, hes⟩ := hs.explained
  obtain ⟨c, resp, _, hclient, hresp, hbad⟩ := hs.fuzz.iterate_failed hlt hfailed
  have hanswer := hs.heard hkeys hround hclient hresp
  rcases hbad with rfl | ⟨r, hr, rfl, rfl, hcomplaint⟩
  · exact (hes.faithful hs.ledger hkeys (List.mem_of_getElem? hanswer)).2.2 rfl
  · -- with the response the harvest is still that of an atomic run
    have hes' := hes.answered hr hanswer s.fuzz.history
    have hledger := hs.ledger.answered hr s.fuzz.history
    have hrun := hes'.atomicRun hledger hkeys
    have hreceived := hes'.received hledger
    have hfeed : ((History.new n keys.lists).feed (s.fuzz.harvested ++ [r])).1 =
        (s.fuzz.history.harvest r).1 := by
      rw [feed_append hs.fuzz.fed [r], History.feed]
      rcases s.fuzz.history.harvest r with ⟨_ | complaint, history⟩ <;> rfl
    rcases hc : (s.fuzz.history.harvest r).1 with _ | _ | bad
    · exact hcomplaint hc
    · exact feed_knows_keys (hrun.driven hreceived) (hfeed.trans hc)
    · obtain ⟨p, hp, _, hv⟩ := feed_rejects_iff.mp (hfeed.trans hc)
      simp [hrun.verdict hreceived hp] at hv

end System

end MadKV.Fuzzer
