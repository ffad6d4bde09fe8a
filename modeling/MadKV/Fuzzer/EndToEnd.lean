import MadKV.Fuzzer.Explained

/-!
# The fuzz test end to end

What `fuzz_test` harvests is a run of an atomic store, so it reports no failure.
While no process dies and no driver hangs up it gets stuck nowhere either: every
call that was sent can be brought to its response, until all calls have theirs.
-/

namespace MadKV.Fuzzer

open Runner Store Support Spec Wire

variable {n numOps : ℕ} {keys : Pool n}

namespace System

variable {s s' : System n} {rounds : List Round}

/-! ## From a call to its response -/

/-- No process has died and no driver has hung up. -/
def Alive (s : System n) : Prop :=
  ∀ c, (s.session.procs c).running = true ∧ (s.session.procs c).driving = true

/-- The calls that a client was sent. -/
def callsTo (s : System n) (c : Fin n) : List KvCall := (s.fuzz.sentTo c).map Prod.snd

theorem Inv.drawn (hs : s.Inv numOps keys) {c : Fin n} {call : KvCall}
    (hcall : call ∈ s.callsTo c) : ∃ draws, genRandKvcall (keys c) draws = .ok call := by
  obtain ⟨x, hx, rfl⟩ := List.mem_map.mp hcall
  exact hs.ledger.drawn c x hx

theorem Inv.stop_notMem (hs : s.Inv numOps keys) (hkeys : keys.Usable) (c : Fin n) :
    KvCall.stop ∉ s.callsTo c := by
  intro hstop
  obtain ⟨draws, hdraw⟩ := hs.drawn hstop
  exact drawn_from (hkeys.nonempty c) hdraw

theorem Inv.orders (hs : s.Inv numOps keys) (hkeys : keys.Usable) (c : Fin n) :
    Orders (s.callsTo c) where
  wellFormed := by
    intro call hcall
    obtain ⟨draws, hdraw⟩ := hs.drawn hcall
    exact drawn_wellFormed hkeys hdraw
  plain := by
    intro call hcall
    obtain ⟨draws, hdraw⟩ := hs.drawn hcall
    exact drawn_plain hdraw
  stop_last := fun k hk => absurd (List.mem_of_getElem? hk) (hs.stop_notMem hkeys c)

theorem Inv.plain (hs : s.Inv numOps keys) : Plain s.session.store.contents := by
  obtain ⟨es, hes⟩ := hs.explained
  rw [hes.store]
  refine contents_plain (by simp [Plain]) (List.forall_mem_map.mpr fun e he => ?_)
  obtain ⟨draws, hdraw⟩ := hs.ledger.drawn _ _ (hes.sent he)
  exact drawn_plain hdraw

/-- A client that is alive works on its calls. -/
theorem Inv.diligent (hs : s.Inv numOps keys) (hkeys : keys.Usable) (halive : s.Alive)
    (c : Fin n) : Diligent (s.callsTo c) c s.session := by
  obtain ⟨es, hes⟩ := hs.explained
  exact ⟨hs.wire, hes.written c, (halive c).2, .inl (halive c).1, hs.plain,
    fun resp hresp => (hes.faithful hs.ledger hkeys hresp).2.1⟩

theorem step_of_work {c : Fin n} {session : Session (Fin n)}
    (h : Work (s.callsTo c) c s.session session) : Step s { s with session } := by
  cases h with
  | write hdriving hwaiting hnext =>
    rw [callsTo, List.getElem?_map] at hnext
    obtain ⟨x, hx, rfl⟩ := Option.map_eq_some_iff.mp hnext
    exact .write hdriving hwaiting hx
  | execute hrunning hline => exact .execute hrunning hline
  | read hdriving hwaiting hread => exact .read hdriving hwaiting hread

theorem Reachable.work (h : Reachable numOps keys rounds s) {c : Fin n} {session : Session (Fin n)}
    (hwork : Relation.ReflTransGen (Work (s.callsTo c) c) s.session session) :
    Reachable numOps keys rounds { s with session } := by
  induction hwork with
  | refl => exact h
  | tail _ hstep ih => exact ih.step (step_of_work hstep)

/-- The drivers and processes can bring a client's calls to their responses. -/
theorem Reachable.answer (h : Reachable numOps keys rounds s) (hkeys : keys.Usable)
    (hops : numOps * n / 100 ≠ 0) (halive : s.Alive) (c : Fin n) :
    ∃ s', Reachable numOps keys rounds s' ∧ s'.Alive ∧ s'.fuzz = s.fuzz ∧
      (s.fuzz.sentTo c).length ≤ (s'.session.procs c).responses.length := by
  have hinv := h.inv hkeys hops
  obtain ⟨session, hwork, hdiligent, hle⟩ :=
    (hinv.diligent hkeys halive c).answer (hinv.orders hkeys c)
  refine ⟨_, h.work hwork, fun d => ?_, rfl, by simpa [callsTo] using hle⟩
  by_cases hd : d = c
  · subst hd
    rcases hdiligent.running with hrunning | ⟨hstop, -⟩
    · exact ⟨hrunning, hdiligent.driving⟩
    · exact absurd hstop (hinv.stop_notMem hkeys d)
  · have hsame := works_frame hwork hd
    exact ⟨hsame ▸ (halive d).1, hsame ▸ (halive d).2⟩

/-! ## The loop goes on -/

theorem genRandClient_hit {flying : Fin n → Bool} {wantFlying : Bool} {c : Fin n}
    (hc : flying c = wantFlying) :
    genRandClient [c.val] flying wantFlying = some (.ok c) := by
  have hn : n ≠ 0 := Nat.ne_zero_of_lt c.isLt
  have hone : retryClient flying wantFlying [c.val] = some (.ok c) := by
    have hmod : c.val % n = c.val := Nat.mod_eq_of_lt c.isLt
    simp [retryClient, genRandIndex, hn, hmod, hc]
  have hall : ¬ (wantFlying = false ∧ ∀ c, flying c = true) := by
    rintro ⟨rfl, hall⟩
    simp [hall c] at hc
  have hnone : ¬ (wantFlying = true ∧ ∀ c, flying c = false) := by
    rintro ⟨rfl, hnone⟩
    simp [hnone c] at hc
  rw [genRandClient, if_neg hall, if_neg hnone, hone]

/-- The clock of a test that is not finished has room for the next iteration. -/
theorem Inv.clock_ok (hs : s.Inv numOps keys) (hclock : 2 * (numOps * n) < u64Max) :
    s.fuzz.timestamp ≠ u64Max := by
  have htime := hs.fuzz.clock
  have hcount := hs.fuzz.counted
  have hbound := hs.fuzz.bounded
  omega

/-- A response that has been passed on can be harvested. -/
theorem Inv.can_harvest (hs : s.Inv numOps keys) (hkeys : keys.Usable)
    (hops : numOps * n / 100 ≠ 0) (hclock : 2 * (numOps * n) < u64Max)
    (hlt : s.fuzz.opsWaited < numOps * n) {c : Fin n} (hc : s.fuzz.flying c = true)
    {resp : KvResp}
    (hresp : (s.session.procs c).responses[(s.fuzz.harvestedFrom c).length]? = some resp) :
    ∃ round fuzz, s.Hears round ∧ s.fuzz.iterate numOps keys round = .next fuzz ∧
      fuzz.opsWaited = s.fuzz.opsWaited + 1 := by
  let round : Round := ⟨false, [c.val], ⟨0, 0, 0, fun _ => 0⟩, .ok (), .ok resp, .ok ()⟩
  have hclient : genRandClient round.clients s.fuzz.flying true = some (.ok c) :=
    genRandClient_hit hc
  have hround : s.Hears round := by
    intro d resp' hd hresp'
    obtain rfl : c = d := by simpa [hclient] using hd
    obtain rfl : resp = resp' := Except.ok.inj hresp'
    exact hresp
  have hwait : genCallVsWait round.coin s.fuzz.opsCalled (numOps * n) s.fuzz.flying = false := by
    have hsome : ¬ ∀ d, s.fuzz.flying d = false := fun hnone => by simp [hnone c] at hc
    unfold genCallVsWait
    split_ifs
    · rfl
    · rfl
  have hiterate : s.fuzz.iterate numOps keys round =
      s.fuzz.tick.harvestResp (numOps * n) round := by
    rw [FuzzState.iterate, if_neg (hs.clock_ok hclock), hwait]
    rfl
  rcases hs.fuzz.harvestResp_heard hc hclient rfl (numOps * n) with hstop | ⟨r, _, _, _, heq⟩
  · obtain ⟨es, hes⟩ := hs.explained
    have hmem := (hes.responses_prefix hs.wire hs.ledger hkeys c).subset
      (List.mem_of_getElem? hresp)
    exact absurd hstop (hes.faithful hs.ledger hkeys hmem).2.2
  · rw [heq] at hiterate
    rcases hh : s.fuzz.history.harvest r with ⟨_ | _ | bad, history⟩
    · refine ⟨round, s.fuzz.tick.answered r [] history, hround, ?_, rfl⟩
      rw [hiterate, hh]
      simp [FuzzState.progress, hops, round]
    · rw [hh] at hiterate
      exact absurd hiterate (hs.iterate_ne_failed hkeys hlt hround _)
    · rw [hh] at hiterate
      exact absurd hiterate (hs.iterate_ne_failed hkeys hlt hround _)

/-- While calls are left, an idle client can be sent one. -/
theorem Inv.can_call (hs : s.Inv numOps keys) (hkeys : keys.Usable)
    (hclock : 2 * (numOps * n) < u64Max) (hleft : s.fuzz.opsCalled < numOps * n) {c : Fin n}
    (hidle : ∀ d, s.fuzz.flying d = false) :
    ∃ round fuzz, s.Hears round ∧ s.fuzz.iterate numOps keys round = .next fuzz ∧
      fuzz.opsWaited = s.fuzz.opsWaited ∧ fuzz.flying c = true := by
  let round : Round := ⟨true, [c.val], ⟨0, 0, 0, fun _ => 0⟩, .ok (), .ok .stop, .ok ()⟩
  have hclient : genRandClient round.clients s.fuzz.flying false = some (.ok c) :=
    genRandClient_hit (hidle c)
  have hround : s.Hears round := by
    intro d resp hd _
    have hwanted : genRandClient round.clients s.fuzz.flying true =
        some (.error (.assertion "!want_flying || !flying.none()")) := by
      simp [genRandClient, hidle]
    rw [hwanted] at hd
    cases hd
  have hcall : genCallVsWait round.coin s.fuzz.opsCalled (numOps * n) s.fuzz.flying = true := by
    have hsome : Nonempty (Fin n) := ⟨c⟩
    simp [genCallVsWait, hleft.ne, hidle]
  obtain ⟨call, hdraw, _⟩ := genRandKvcall_ok (hkeys.nonempty c) round.call
  refine ⟨round, s.fuzz.tick.called c call, hround, ?_, rfl, by simp [FuzzState.called]⟩
  have htick : s.fuzz.tick.flying = s.fuzz.flying := rfl
  rw [FuzzState.iterate, if_neg (hs.clock_ok hclock), hcall, if_pos rfl, FuzzState.makeCall, htick,
    hclient]
  simp only [hdraw, round]

/-- From wherever it is, the test can harvest one more response. -/
theorem Reachable.one_more (h : Reachable numOps keys rounds s) (hkeys : keys.Usable)
    (hops : numOps * n / 100 ≠ 0) (hclock : 2 * (numOps * n) < u64Max) (halive : s.Alive)
    (hlt : s.fuzz.opsWaited < numOps * n) :
    ∃ more s', Reachable numOps keys (rounds ++ more) s' ∧ s'.Alive ∧
      s'.fuzz.opsWaited = s.fuzz.opsWaited + 1 := by
  -- a client that works on a call gets its response
  have hharvest : ∀ {rounds : List Round} {s : System n}, Reachable numOps keys rounds s →
      s.Alive → s.fuzz.opsWaited < numOps * n → (∃ c, s.fuzz.flying c = true) →
      ∃ more s', Reachable numOps keys (rounds ++ more) s' ∧ s'.Alive ∧
        s'.fuzz.opsWaited = s.fuzz.opsWaited + 1 := by
    intro rounds s h halive hlt hflying
    obtain ⟨c, hc⟩ := hflying
    obtain ⟨tsCall, call, hworks⟩ := (h.inv hkeys hops).fuzz.flying c hc
    obtain ⟨s', h', halive', hfuzz, hle⟩ := h.answer hkeys hops halive c
    have hnext : (s'.fuzz.harvestedFrom c).length < (s'.session.procs c).responses.length := by
      rw [FuzzState.sentTo, hworks.outstanding, List.length_append, List.length_map,
        List.length_singleton] at hle
      rw [hfuzz]
      exact hle
    obtain ⟨round, fuzz, hround, hi, hwaited⟩ := (h'.inv hkeys hops).can_harvest hkeys hops hclock
      (hfuzz ▸ hlt) (hfuzz ▸ hc) (List.getElem?_eq_getElem hnext)
    exact ⟨[round], _, h'.iterate (hfuzz ▸ hlt) hround hi, halive', hfuzz ▸ hwaited⟩
  by_cases hflying : ∃ c, s.fuzz.flying c = true
  · exact hharvest h halive hlt hflying
  · have hidle : ∀ c, s.fuzz.flying c = false := by simpa using hflying
    have hinv := h.inv hkeys hops
    have hcount := hinv.fuzz.counted
    have hzero : flyingCount s.fuzz.flying = 0 := by simp [flyingCount, hidle]
    have hn : 0 < n := Nat.pos_of_ne_zero fun hn => by simp [hn] at hlt
    obtain ⟨round, fuzz, hround, hi, hwaited, hfly⟩ :=
      hinv.can_call (c := ⟨0, hn⟩) hkeys hclock (by omega) hidle
    have hcalled := h.iterate hlt hround hi
    obtain ⟨more, s', h', halive', hwaited'⟩ := hharvest hcalled halive (hwaited ▸ hlt) ⟨_, hfly⟩
    refine ⟨round :: more, s', ?_, halive', hwaited' ▸ congrArg (· + 1) hwaited⟩
    rw [List.append_cons]
    exact h'

theorem Reachable.finish (h : Reachable numOps keys rounds s) (hkeys : keys.Usable)
    (hops : numOps * n / 100 ≠ 0) (hclock : 2 * (numOps * n) < u64Max) (halive : s.Alive) :
    ∃ more s', Reachable numOps keys (rounds ++ more) s' ∧ s'.Alive ∧
      s'.fuzz.opsWaited = numOps * n := by
  induction hleft : numOps * n - s.fuzz.opsWaited generalizing rounds s with
  | zero =>
    have hinv := h.inv hkeys hops
    have hcount := hinv.fuzz.counted
    have hbound := hinv.fuzz.bounded
    exact ⟨[], s, by simpa using h, halive, by omega⟩
  | succ left ih =>
    obtain ⟨more, s', h', halive', hwaited⟩ :=
      h.one_more hkeys hops hclock halive (by omega)
    obtain ⟨more', s'', h'', halive'', hdone⟩ := ih h' halive' (by omega)
    exact ⟨more ++ more', s'', by rwa [← List.append_assoc], halive'', hdone⟩

/-! ## The test end to end -/

/-- The only client works on the only key, and everything is alive. -/
theorem oneKey_usable : oneKey.Usable where
  nonempty := by simp [oneKey]
  words := by
    intro c key hkey
    obtain rfl : key = "k" := by simpa [oneKey] using hkey
    decide

theorem alive_new (keys : Pool n) : (new keys).Alive := fun _ => ⟨rfl, rfl⟩

/-- Whatever the clients, their drivers and the clock do, `fuzz_test` does not report
a failure. -/
theorem Reachable.fuzzTest_ne_failed (h : Reachable numOps keys rounds s) (hkeys : keys.Usable)
    (hops : 100 ≤ numOps * n) {round : Round} (hround : s.Hears round)
    (stop : Except RunnerError Unit) :
    fuzzTest numOps keys (rounds ++ [round]) stop ≠ .ok none := by
  have hinv := h.inv hkeys (by omega)
  unfold fuzzTest
  rw [h.fuzzLoop_eq, fuzzLoop]
  split_ifs with hlt
  · cases hi : s.fuzz.iterate numOps keys round with
    | failed why => exact absurd hi (hinv.iterate_ne_failed hkeys hlt hround why)
    | next fuzz =>
      simp only [fuzzLoop]
      split_ifs
      · simp
      · cases stop <;> simp
    | _ => simp
  · cases stop <;> simp

/-- While everything is alive, the test can be finished from wherever it is, and then
reports the number of pending checks. -/
theorem fuzz_test_can_finish (h : Reachable numOps keys rounds s) (hkeys : keys.Usable)
    (hops : 100 ≤ numOps * n) (hclock : 2 * (numOps * n) < u64Max) (halive : s.Alive) :
    ∃ more s', Reachable numOps keys (rounds ++ more) s' ∧ s'.fuzz.opsWaited = numOps * n ∧
      fuzzTest numOps keys (rounds ++ more) (.ok ()) = .ok (some s'.fuzz.history.queueLen) := by
  obtain ⟨more, s', h', _, hdone⟩ := h.finish hkeys (by omega) hclock halive
  refine ⟨more, s', h', hdone, fuzzTest_finished ?_⟩
  have hloop := h'.fuzzLoop_eq []
  rw [List.append_nil] at hloop
  rw [hloop, fuzzLoop, if_neg (by omega)]

/-- From where the first call is made and not answered. -/
theorem fuzz_test_can_finish_firstCall : ∃ round s, Reachable 1000 oneKey [round] s ∧
    s.fuzz.flying onlyClient = true ∧ ∃ more remaining,
      fuzzTest 1000 oneKey (round :: more) (.ok ()) = .ok (some remaining) := by
  have hnew : Reachable 1000 oneKey [] (new oneKey) := .new
  obtain ⟨round, fuzz, hround, hi, -, hflying⟩ :=
    (hnew.inv oneKey_usable (by decide)).can_call oneKey_usable (by decide) (by decide)
      (c := onlyClient) fun _ => rfl
  have hcalled : Reachable 1000 oneKey [round] { new oneKey with fuzz } :=
    hnew.iterate (by decide) hround hi
  obtain ⟨more, s, _, _, hresult⟩ :=
    fuzz_test_can_finish hcalled oneKey_usable (by decide) (by decide) fun _ => ⟨rfl, rfl⟩
  exact ⟨round, _, hcalled, hflying, more, _, hresult⟩

end System

end MadKV.Fuzzer
