import MadKV.Fuzzer.Ledger
import MadKV.Fuzzer.NoFalseAlarm
import MadKV.Wire.Progress

/-!
# The fuzz test and its clients

`fuzz_test` on one side, the driver threads, the client processes and the server
on the other, in any interleaving. The channels in between are first in first
out, so what they hold is what one side has put in less what the other has taken
out: a driver takes the next of the calls sent to it, and `wait_resp` returns the
next of the responses it has passed on.

A state is explained by the effects so far: one for each line that a process has
executed, at a moment between the call and the response.
-/

namespace MadKV.Fuzzer

open Runner Store Support Spec Wire

variable {n numOps : ℕ} {keys : Pool n}

/-! ## Generated calls on the wire -/

/-- Every client has keys, and they are words. -/
structure Pool.Usable (keys : Pool n) : Prop where
  nonempty : ∀ c, keys c ≠ []
  words : ∀ c, ∀ key ∈ keys c, Token isWhitespace key.toList

theorem alphanumeric_words : ∀ c ∈ alphanumeric, isWhitespace c = false := by
  have hall : Token isWhitespace alphanumeric := by decide
  exact hall.2

theorem genRandString_word {draws : ℕ → ℕ} {len : ℕ} {text : String}
    (h : genRandString draws len = .ok text) : Token isWhitespace text.toList := by
  obtain ⟨hlen, hletters⟩ := genRandString_letters h
  refine ⟨fun hnil => ?_, fun c hc => alphanumeric_words c (hletters c hc)⟩
  obtain rfl : len = 0 := by rw [← hlen, hnil, List.length_nil]
  cases h

/-- A random value has 16 letters, so it is neither null nor END. -/
theorem drawn_plain {pool : List String} {draws : CallDraws} {call : KvCall}
    (h : genRandKvcall pool draws = .ok call) : PlainCall call := by
  intro key value hu
  obtain ⟨hlen, _⟩ := genRandString_letters (genRandKvcall_value h hu)
  constructor
  · rintro rfl
    exact absurd hlen (by decide)
  · intro heq
    obtain rfl : value = "END" := congrArg Prod.snd heq
    exact absurd hlen (by decide)

theorem drawn_from {pool : List String} (hne : pool ≠ []) {draws : CallDraws} {call : KvCall}
    (h : genRandKvcall pool draws = .ok call) : CallFrom pool call := by
  obtain ⟨call', hcall', hfrom⟩ := genRandKvcall_ok hne draws
  obtain rfl : call' = call := Except.ok.inj (hcall'.symm.trans h)
  exact hfrom

theorem wellFormed_of_args {call : KvCall}
    (h : ∀ w ∈ (callWords call).tail, Token isWhitespace w.toList) :
    WellFormed isWhitespace call := by
  cases call <;> exact List.forall_mem_cons.mpr ⟨by decide, h⟩

theorem drawn_wellFormed (hkeys : keys.Usable) {c : Fin n} {draws : CallDraws} {call : KvCall}
    (h : genRandKvcall (keys c) draws = .ok call) : WellFormed isWhitespace call := by
  have hfrom := drawn_from (hkeys.nonempty c) h
  have hkey := hkeys.words c
  refine wellFormed_of_args ?_
  cases call with
  | put key value =>
    simpa [callWords] using ⟨hkey key hfrom, genRandString_word (genRandKvcall_value h rfl)⟩
  | swap key value =>
    simpa [callWords] using ⟨hkey key hfrom, genRandString_word (genRandKvcall_value h rfl)⟩
  | get key => simpa [callWords] using hkey key hfrom
  | delete key => simpa [callWords] using hkey key hfrom
  | scan keyStart keyEnd =>
    obtain ⟨hstart, hend, _⟩ := hfrom
    simpa [callWords] using ⟨hkey keyStart hstart, hkey keyEnd hend⟩
  | stop => exact hfrom.elim

theorem CallFrom.generated {c : Fin n} {call : KvCall} (h : CallFrom (keys c) call) :
    Generated keys.lists call := by
  have hpool : ∀ key ∈ keys c, InPool keys.lists key := fun key hkey =>
    ⟨keys c, Pool.mem_lists c, hkey⟩
  cases call with
  | scan keyStart keyEnd => trivial
  | stop => exact h
  | _ => exact hpool _ h

/-! ## The system -/

structure System (n : ℕ) where
  fuzz : FuzzState n
  session : Session (Fin n)

namespace System

def new (keys : Pool n) : System n := ⟨.new keys, ⟨.empty, fun _ => .new⟩⟩

/-- `wait_resp` returns the next response that the driver of the chosen client has
passed on, if it returns one. -/
def Hears (s : System n) (round : Round) : Prop :=
  ∀ c resp, genRandClient round.clients s.fuzz.flying true = some (.ok c) →
    round.waitResp = .ok resp →
    (s.session.procs c).responses[(s.fuzz.harvestedFrom c).length]? = some resp

/-- A step of a driver or of a process. -/
inductive Step : System n → System n → Prop
  | write {s : System n} {c : Fin n} {x : ℕ × KvCall} :
      (s.session.procs c).driving = true → (s.session.procs c).waiting = false →
      (s.fuzz.sentTo c)[(s.session.procs c).calls.length]? = some x →
      Step s { s with session := s.session.update c ((s.session.procs c).write x.2) }
  | execute {s : System n} {c : Fin n} {line : String} {rest : List String} :
      (s.session.procs c).running = true → (s.session.procs c).stdin = line :: rest →
      Step s { s with
        session := { s.session.update c ((s.session.procs c).execute rest s.session.store.contents
            (Client.runLine serverStub line s.session.store)) with
          store := (Client.runLine serverStub line s.session.store).world } }
  | read {s : System n} {c : Fin n} {fuel : ℕ}
      {result : Except RunnerError KvResp × List UInt8} :
      (s.session.procs c).driving = true → (s.session.procs c).waiting = true →
      KvResp.fromRead fuel (s.session.procs c).stdout = some result →
      Step s { s with session := s.session.update c ((s.session.procs c).read result) }
  | exit {s : System n} {c : Fin n} :
      Step s { s with session := s.session.update c { s.session.procs c with running := false } }
  | hangUp {s : System n} {c : Fin n} :
      Step s { s with session := s.session.update c { s.session.procs c with driving := false } }

/-- The states of the system, with the iterations of the loop that led there. -/
inductive Reachable (numOps : ℕ) (keys : Pool n) : List Round → System n → Prop
  | new : Reachable numOps keys [] (.new keys)
  | iterate {rounds : List Round} {s : System n} {round : Round} {fuzz : FuzzState n} :
      Reachable numOps keys rounds s → s.fuzz.opsWaited < numOps * n → s.Hears round →
      s.fuzz.iterate numOps keys round = .next fuzz →
      Reachable numOps keys (rounds ++ [round]) { s with fuzz }
  | step {rounds : List Round} {s s' : System n} : Reachable numOps keys rounds s → Step s s' →
      Reachable numOps keys rounds s'

end System

/-! ## Effects -/

/-- A line that a client process executed: the call, when it was made, what the
store answered, and a moment for it. -/
structure Effect (n : ℕ) where
  cidx : Fin n
  tsCall : ℕ
  call : KvCall
  resp : KvResp
  effect : ℚ

/-- The operation, with the response to it if that has been harvested. -/
def Effect.timed (harvested : List (Harvest n)) (e : Effect n) : TimedOp n where
  cidx := e.cidx
  call := e.call
  resp := e.resp
  tsCall := e.tsCall
  tsResp := (harvested.find? fun r => r.cidx = e.cidx ∧ r.tsCall = e.tsCall).map (·.tsResp)
  effect := e.effect

/-- The effects of a client. -/
def effectsOf (es : List (Effect n)) (c : Fin n) : List (Effect n) := es.filter (·.cidx = c)

theorem mem_effectsOf {es : List (Effect n)} {c : Fin n} {e : Effect n} :
    e ∈ effectsOf es c ↔ e ∈ es ∧ e.cidx = c := by
  simp [effectsOf]

/-- The effects are those of the calls the processes have executed, in an order in
which the store has answered them, at moments that suit the clock. -/
structure Explains (s : System n) (es : List (Effect n)) : Prop where
  store : s.session.store.contents = contents ∅ (es.map Effect.call)
  replayed : es.map Effect.resp = replay ∅ (es.map Effect.call)
  in_order : es.Pairwise fun a b => a.effect < b.effect
  after_call : ∀ e ∈ es, (e.tsCall : ℚ) ≤ e.effect
  present : ∀ e ∈ es, e.effect < s.fuzz.timestamp + 1
  written : ∀ c, (s.session.procs c).calls <+: (s.fuzz.sentTo c).map Prod.snd
  executed : ∀ c, (effectsOf es c).map (fun e => (e.tsCall, e.call)) =
    (s.fuzz.sentTo c).take (s.session.procs c).before.length
  answers : ∀ c, (effectsOf es c).map Effect.resp = (s.session.procs c).answers
  effective : ∀ r ∈ s.fuzz.harvested, ∃ e ∈ es, e.cidx = r.cidx ∧ e.tsCall = r.tsCall ∧
    e.call = r.call ∧ e.resp = r.resp ∧ e.effect ≤ r.tsResp

theorem explains_new (keys : Pool n) : Explains (.new keys) ([] : List (Effect n)) where
  store := InMemoryKVStore.contents_empty
  replayed := rfl
  in_order := .nil
  after_call := by simp
  present := by simp
  written := fun c => List.nil_prefix
  executed := fun c => rfl
  answers := fun c => rfl
  effective := by simp [System.new, FuzzState.new]

namespace Explains

variable {s : System n} {es : List (Effect n)}

theorem sent (h : Explains s es) {e : Effect n} (he : e ∈ es) :
    (e.tsCall, e.call) ∈ s.fuzz.sentTo e.cidx := by
  have hmem : (e.tsCall, e.call) ∈ (effectsOf es e.cidx).map fun e => (e.tsCall, e.call) :=
    List.mem_map.mpr ⟨e, mem_effectsOf.mpr ⟨he, rfl⟩, rfl⟩
  rw [h.executed] at hmem
  exact List.mem_of_mem_take hmem

/-- The time of the call tells which effect of a client it is. -/
theorem effect_inj (h : Explains s es) (hl : FuzzState.Ledger keys s.fuzz) {e e' : Effect n}
    (he : e ∈ es) (he' : e' ∈ es) (hc : e.cidx = e'.cidx) (hcall : e.tsCall = e'.tsCall) :
    e = e' := by
  have hlt := (hl.call_lt e.cidx).sublist
    (List.take_sublist (s.session.procs e.cidx).before.length _)
  rw [← h.executed, List.pairwise_map] at hlt
  have hnodup : ((effectsOf es e.cidx).map Effect.tsCall).Nodup :=
    List.pairwise_map.mpr (hlt.imp fun hab => hab.ne)
  exact List.inj_on_of_nodup_map hnodup (mem_effectsOf.mpr ⟨he, rfl⟩)
    (mem_effectsOf.mpr ⟨he', hc.symm⟩) hcall

/-- The response of an effect is the harvested one. -/
theorem tsResp_iff (hl : FuzzState.Ledger keys s.fuzz) (e : Effect n) (ts : ℕ) :
    (e.timed s.fuzz.harvested).tsResp = some ts ↔
      ∃ r ∈ s.fuzz.harvested, r.cidx = e.cidx ∧ r.tsCall = e.tsCall ∧ r.tsResp = ts := by
  simp only [Effect.timed, Option.map_eq_some_iff]
  constructor
  · rintro ⟨r, hfind, rfl⟩
    have hkey := List.find?_some hfind
    simp only [decide_eq_true_eq] at hkey
    exact ⟨r, List.mem_of_find?_eq_some hfind, hkey.1, hkey.2, rfl⟩
  · rintro ⟨r, hr, hc, hcall, rfl⟩
    cases hfind : s.fuzz.harvested.find? fun r => r.cidx = e.cidx ∧ r.tsCall = e.tsCall with
    | none =>
      have hnone := List.find?_eq_none.mp hfind r hr
      simp [hc, hcall] at hnone
    | some r' =>
      have hkey := List.find?_some hfind
      simp only [decide_eq_true_eq] at hkey
      have hsame := hl.harvest_inj (List.mem_of_find?_eq_some hfind) hr (hkey.1.trans hc.symm)
        (hkey.2.trans hcall.symm)
      exact ⟨r', rfl, congrArg _ hsame⟩

theorem before_resp (h : Explains s es) (hl : FuzzState.Ledger keys s.fuzz) {e : Effect n}
    (he : e ∈ es) {ts : ℕ} (hts : (e.timed s.fuzz.harvested).tsResp = some ts) :
    e.effect ≤ ts := by
  obtain ⟨r, hr, hc, hcall, rfl⟩ := (tsResp_iff hl e ts).mp hts
  obtain ⟨e', he', hc', hcall', _, _, hle⟩ := h.effective r hr
  obtain rfl := h.effect_inj hl he' he (hc'.trans hc) (hcall'.trans hcall)
  exact hle

/-- Calls and responses all have different times. -/
theorem times_nodup (h : Explains s es) (hl : FuzzState.Ledger keys s.fuzz) :
    (es.flatMap fun e => e.tsCall :: (e.timed s.fuzz.harvested).tsResp.toList).Nodup := by
  refine List.nodup_flatMap.mpr ⟨fun e he => ?_, ?_⟩
  · cases hts : (e.timed s.fuzz.harvested).tsResp with
    | none => simp
    | some ts =>
      obtain ⟨r, hr, _, _, rfl⟩ := (tsResp_iff hl e ts).mp hts
      simpa using hl.call_ne_resp _ _ (h.sent he) r hr
  · refine h.in_order.imp_of_mem fun {a b} ha hb hlt => ?_
    have hne : a ≠ b := by
      rintro rfl
      exact lt_irrefl _ hlt
    have hresp : ∀ e : Effect n, ∀ t ∈ (e.timed s.fuzz.harvested).tsResp.toList,
        ∃ r ∈ s.fuzz.harvested, r.cidx = e.cidx ∧ r.tsCall = e.tsCall ∧ r.tsResp = t := by
      intro e t ht
      exact (tsResp_iff hl e t).mp (by simpa using ht)
    intro t hta htb
    rcases List.mem_cons.mp hta with rfl | hta <;> rcases List.mem_cons.mp htb with htb | htb
    · have hc := hl.apart _ _ _ (h.sent ha) _ (h.sent hb) htb
      exact hne (h.effect_inj hl ha hb hc htb)
    · obtain ⟨r, hr, _, _, ht⟩ := hresp b _ htb
      exact hl.call_ne_resp _ _ (h.sent ha) r hr ht.symm
    · obtain ⟨r, hr, _, _, ht⟩ := hresp a _ hta
      exact hl.call_ne_resp _ _ (h.sent hb) r hr (htb.symm.trans ht.symm)
    · obtain ⟨r, hr, hc, hcall, ht⟩ := hresp a _ hta
      obtain ⟨r', hr', hc', hcall', ht'⟩ := hresp b _ htb
      obtain rfl := hl.resp_inj hr hr' (ht.trans ht'.symm)
      exact hne (h.effect_inj hl ha hb (hc.symm.trans hc') (hcall.symm.trans hcall'))

/-- A client has its response before its next call. -/
theorem serial (h : Explains s es) (hl : FuzzState.Ledger keys s.fuzz) {a b : Effect n}
    (ha : a ∈ es) (hb : b ∈ es) (hc : a.cidx = b.cidx) (hlt : a.tsCall < b.tsCall) :
    (a.timed s.fuzz.harvested).Before (b.timed s.fuzz.harvested) := by
  have hsent : (b.tsCall, b.call) ∈ s.fuzz.sentTo a.cidx := hc ▸ h.sent hb
  obtain ⟨r, hr, hcall, hbefore⟩ := hl.answered_before (h.sent ha) hsent hlt
  obtain ⟨hmem, hcidx⟩ := FuzzState.mem_harvestedFrom.mp hr
  exact ⟨r.tsResp, (tsResp_iff hl a r.tsResp).mpr ⟨r, hmem, hcidx, hcall, rfl⟩, hbefore⟩

/-- What `fuzz_test` sees is a run of an atomic store. -/
theorem atomicRun (h : Explains s es) (hl : FuzzState.Ledger keys s.fuzz)
    (hkeys : keys.Usable) : AtomicRun keys.lists (es.map (Effect.timed s.fuzz.harvested)) where
  in_order := List.pairwise_map.mpr h.in_order
  call_pos := List.forall_mem_map.mpr fun e he => hl.call_pos _ _ (h.sent he)
  after_call := List.forall_mem_map.mpr fun e he => h.after_call e he
  before_resp := List.forall_mem_map.mpr fun e he ts hts => h.before_resp hl he hts
  distinct := by
    rw [List.flatMap_map]
    exact h.times_nodup hl
  one_outstanding := by
    refine List.forall_mem_map.mpr fun a ha => List.forall_mem_map.mpr fun b hb hc hne => ?_
    have hcall : a.tsCall ≠ b.tsCall := fun hcall =>
      hne (congrArg _ (h.effect_inj hl ha hb hc hcall))
    rcases lt_or_gt_of_ne hcall with hlt | hlt
    · exact .inl (h.serial hl ha hb hc hlt)
    · exact .inr (h.serial hl hb ha hc.symm hlt)
  generated := by
    refine List.forall_mem_map.mpr fun e he => ?_
    obtain ⟨draws, hdraw⟩ := hl.drawn _ _ (h.sent he)
    exact (drawn_from (hkeys.nonempty e.cidx) hdraw).generated
  replayed := by
    rw [List.map_map, List.map_map]
    exact h.replayed

/-- Its responses are those that were harvested. -/
theorem received (h : Explains s es) (hl : FuzzState.Ledger keys s.fuzz) :
    Received (es.map (Effect.timed s.fuzz.harvested)) s.fuzz.harvested where
  resp_increasing := hl.resp_increasing
  perm := by
    have hnodup : s.fuzz.harvested.Nodup := hl.resp_increasing.imp fun hab heq =>
      hab.ne (congrArg _ heq)
    have hnodup' : ((es.map (Effect.timed s.fuzz.harvested)).filterMap
        TimedOp.harvest?).Nodup := by
      rw [List.filterMap_map]
      refine List.pairwise_filterMap.mpr (h.in_order.imp_of_mem fun {a b} ha hb hlt => ?_)
      rintro r hr r' hr' rfl
      obtain ⟨_, hc, hcall, _⟩ := harvest?_eq_some.mp hr
      obtain ⟨_, hc', hcall', _⟩ := harvest?_eq_some.mp hr'
      obtain rfl := h.effect_inj hl ha hb (hc.trans hc'.symm) (hcall.trans hcall'.symm)
      exact lt_irrefl _ hlt
    refine (List.perm_ext_iff_of_nodup hnodup hnodup').mpr fun r => ?_
    simp only [List.mem_filterMap, List.mem_map, exists_exists_and_eq_and]
    constructor
    · intro hr
      obtain ⟨e, he, hc, hcall, hkv, hresp, _⟩ := h.effective r hr
      refine ⟨e, he, harvest?_eq_some.mpr ⟨?_, hc, hcall, hkv, hresp⟩⟩
      exact (tsResp_iff hl e _).mpr ⟨r, hr, hc.symm, hcall.symm, rfl⟩
    · rintro ⟨e, he, hharvest⟩
      obtain ⟨hts, hc, hcall, hkv, hresp⟩ := harvest?_eq_some.mp hharvest
      obtain ⟨r', hr', hc', hcall', hts'⟩ := (tsResp_iff hl e _).mp hts
      obtain ⟨e', he', hce, hcalle, hkve, hrespe, _⟩ := h.effective r' hr'
      obtain rfl := h.effect_inj hl he' he (hce.trans hc') (hcalle.trans hcall')
      have hsame : (e'.timed s.fuzz.harvested).harvest? = some r' := harvest?_eq_some.mpr
        ⟨hts.trans (congrArg some hts'.symm), hce, hcalle, hkve, hrespe⟩
      obtain rfl := Option.some.inj (hsame.symm.trans hharvest)
      exact hr'

end Explains

end MadKV.Fuzzer
