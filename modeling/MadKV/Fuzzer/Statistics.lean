import MadKV.Fuzzer.Coverage
import MadKV.Fuzzer.Ledger

/-!
# The statistics of a fuzz test

`gen_rand_kvcall` also counts: the calls of each operation, and how often a client
names each of its keys. The counts go along with the loop without influencing it, and
when the test returns a result they are those of the calls that were made.
-/

namespace MadKV.Fuzzer

open Runner

variable {n numOps : ℕ} {keys : Pool n}

/-- Statistics about the fuzz testing round; the rows of `keysFreq` are as long as the
lists of keys. -/
structure Stats (keys : Pool n) where
  cntPut : ℕ
  cntSwap : ℕ
  cntGet : ℕ
  cntScan : ℕ
  cntDelete : ℕ
  keysFreq : (c : Fin n) → Fin (keys c).length → ℕ

namespace Stats

def new (keys : Pool n) : Stats keys := ⟨0, 0, 0, 0, 0, fun _ _ => 0⟩

variable (stats : Stats keys)

/-- `stats.keys_freq[cidx][kidx] += 1`. -/
def touch (cidx : Fin n) (kidx : Fin (keys cidx).length) : Stats keys :=
  { stats with
    keysFreq := Function.update stats.keysFreq cidx
      (Function.update (stats.keysFreq cidx) kidx (stats.keysFreq cidx kidx + 1)) }

end Stats

/-- An index into a list of keys. -/
def genKeyIndex (keys : List String) (draw : ℕ) : Except Panic (Fin keys.length) := do
  let kidx ← genRandIndex draw keys.length
  if h : kidx < keys.length then .ok ⟨kidx, h⟩ else .error .outOfBounds

/-- Generate a random `KvCall` operation, updating statistics accordingly. -/
def genRandKvcallStats (stats : Stats keys) (cidx : Fin n) (draws : CallDraws) :
    Except Panic (KvCall × Stats keys) := do
  let variant ← genRandIndex draws.variant 10
  if variant ≤ 1 then
    let kidx ← genKeyIndex (keys cidx) draws.kidx
    let stats := { stats with cntPut := stats.cntPut + 1 }.touch cidx kidx
    let value ← genRandString draws.letters valueLen
    .ok (.put (keys cidx)[kidx] value, stats)
  else if variant ≤ 3 then
    let kidx ← genKeyIndex (keys cidx) draws.kidx
    let stats := { stats with cntSwap := stats.cntSwap + 1 }.touch cidx kidx
    let value ← genRandString draws.letters valueLen
    .ok (.swap (keys cidx)[kidx] value, stats)
  else if variant ≤ 6 then
    let kidx ← genKeyIndex (keys cidx) draws.kidx
    let stats := { stats with cntGet := stats.cntGet + 1 }.touch cidx kidx
    .ok (.get (keys cidx)[kidx], stats)
  else if variant ≤ 8 then
    let ksidx ← genKeyIndex (keys cidx) draws.kidx
    let keidx ← genKeyIndex (keys cidx) draws.keidx
    let keyStart := (keys cidx)[ksidx]
    let keyEnd := (keys cidx)[keidx]
    let stats := ({ stats with cntScan := stats.cntScan + 1 }.touch cidx ksidx).touch cidx keidx
    if keyEnd < keyStart then .ok (.scan keyEnd keyStart, stats)
    else .ok (.scan keyStart keyEnd, stats)
  else
    let kidx ← genKeyIndex (keys cidx) draws.kidx
    let stats := { stats with cntDelete := stats.cntDelete + 1 }.touch cidx kidx
    .ok (.delete (keys cidx)[kidx], stats)

/-! ## What is counted -/

/-- Whether the call is of the same operation. -/
def sameOp : KvCall → KvCall → Bool
  | .put _ _, .put _ _ => true
  | .swap _ _, .swap _ _ => true
  | .get _, .get _ => true
  | .scan _ _, .scan _ _ => true
  | .delete _, .delete _ => true
  | _, _ => false

/-- How often the call names the key. -/
def mentions (key : String) : KvCall → ℕ
  | .put k _ => if k = key then 1 else 0
  | .swap k _ => if k = key then 1 else 0
  | .get k => if k = key then 1 else 0
  | .scan keyStart keyEnd =>
    (if keyStart = key then 1 else 0) + if keyEnd = key then 1 else 0
  | .delete k => if k = key then 1 else 0
  | .stop => 0

namespace Stats

variable (stats : Stats keys)

/-- The counter of an operation. -/
def cnt : KvCall → ℕ
  | .put _ _ => stats.cntPut
  | .swap _ _ => stats.cntSwap
  | .get _ => stats.cntGet
  | .scan _ _ => stats.cntScan
  | .delete _ => stats.cntDelete
  | .stop => 0

def total : ℕ :=
  stats.cntPut + stats.cntSwap + stats.cntGet + stats.cntScan + stats.cntDelete

/-- Every counter, a `usize`, holds its number. -/
def Fits : Prop := (∀ op, stats.cnt op ≤ u64Max) ∧ ∀ c k, stats.keysFreq c k ≤ u64Max

/-- What a client's row says about a key, which may be in its list more than once. -/
def freq (c : Fin n) (key : String) : ℕ :=
  ∑ k : Fin (keys c).length, if (keys c)[k] = key then stats.keysFreq c k else 0

@[simp] theorem cnt_touch (cidx : Fin n) (kidx : Fin (keys cidx).length) (op : KvCall) :
    (stats.touch cidx kidx).cnt op = stats.cnt op := by
  cases op <;> rfl

/-- One more mention of one key. -/
theorem freq_touch (cidx : Fin n) (kidx : Fin (keys cidx).length) (c : Fin n) (key : String) :
    (stats.touch cidx kidx).freq c key =
      stats.freq c key + if c = cidx ∧ (keys cidx)[kidx] = key then 1 else 0 := by
  by_cases hc : c = cidx
  · subst hc
    have hrow : ∀ k, (stats.touch c kidx).keysFreq c k =
        stats.keysFreq c k + if k = kidx then 1 else 0 := by
      intro k
      by_cases hk : k = kidx
      · subst hk
        simp [touch]
      · simp [touch, hk]
    have hterm : ∀ k : Fin (keys c).length,
        (if (keys c)[k] = key then (stats.touch c kidx).keysFreq c k else 0) =
          (if (keys c)[k] = key then stats.keysFreq c k else 0) +
            if k = kidx then (if (keys c)[kidx] = key then 1 else 0) else 0 := by
      intro k
      rw [hrow]
      by_cases hk : k = kidx
      · subst hk
        split_ifs <;> rfl
      · simp [hk]
    rw [freq, Finset.sum_congr rfl fun k _ => hterm k, Finset.sum_add_distrib]
    simp [freq]
  · simp [freq, touch, hc]

end Stats

/-- The statistics count one more call of a client. -/
structure Counts (stats : Stats keys) (c : Fin n) (call : KvCall) (stats' : Stats keys) :
    Prop where
  cnt : ∀ op, stats'.cnt op = stats.cnt op + if sameOp op call then 1 else 0
  freq : ∀ d key, stats'.freq d key = stats.freq d key + if d = c then mentions key call else 0

/-- One operation, one counter. -/
theorem Counts.total {stats stats' : Stats keys} {c : Fin n} {call : KvCall}
    (h : Counts stats c call stats') (hne : call ≠ .stop) : stats'.total = stats.total + 1 := by
  have hput := h.cnt (.put "" "")
  have hswap := h.cnt (.swap "" "")
  have hget := h.cnt (.get "")
  have hscan := h.cnt (.scan "" "")
  have hdelete := h.cnt (.delete "")
  simp only [Stats.cnt] at hput hswap hget hscan hdelete
  unfold Stats.total
  rw [hput, hswap, hget, hscan, hdelete]
  cases call with
  | stop => exact absurd rfl hne
  | _ => simp only [sameOp, Bool.false_eq_true, ↓reduceIte]; omega

theorem genKeyIndex_get (keys : List String) (draw : ℕ) :
    (genKeyIndex keys draw).map (fun kidx => keys[kidx]) = genRandKey keys draw := by
  unfold genKeyIndex genRandKey
  cases genRandIndex draw keys.length with
  | error why => rfl
  | ok kidx =>
    by_cases hlt : kidx < keys.length <;> simp [bind, Except.bind, hlt, Except.map]

/-- The calls are those of the generator that does not count. -/
theorem genRandKvcallStats_map (stats : Stats keys) (cidx : Fin n) (draws : CallDraws) :
    (genRandKvcallStats stats cidx draws).map Prod.fst = genRandKvcall (keys cidx) draws := by
  have hvariant : genRandIndex draws.variant 10 = .ok (draws.variant % 10) := rfl
  obtain ⟨value, hvalue⟩ : ∃ value, genRandString draws.letters valueLen = .ok value := ⟨_, rfl⟩
  unfold genRandKvcallStats genRandKvcall
  simp only [hvariant, hvalue, ← genKeyIndex_get, bind, Except.bind]
  cases genKeyIndex (keys cidx) draws.kidx with
  | error why => split_ifs <;> rfl
  | ok kidx =>
    cases genKeyIndex (keys cidx) draws.keidx with
    | error why => simp only [Except.map]; split_ifs <;> rfl
    | ok keidx => simp only [Except.map]; split_ifs <;> rfl

/-- A counter goes up, and one key is touched. -/
theorem Counts.touch {stats counted : Stats keys} {call : KvCall}
    (hcnt : ∀ op, counted.cnt op = stats.cnt op + if sameOp op call then 1 else 0)
    (hrows : counted.keysFreq = stats.keysFreq) {cidx : Fin n} {kidx : Fin (keys cidx).length}
    (hkey : ∀ key, mentions key call = if (keys cidx)[kidx] = key then 1 else 0) :
    Counts stats cidx call (counted.touch cidx kidx) where
  cnt := fun op => (counted.cnt_touch cidx kidx op).trans (hcnt op)
  freq := by
    intro d key
    have hfreq : counted.freq d key = stats.freq d key := by rw [Stats.freq, hrows, Stats.freq]
    rw [Stats.freq_touch, hfreq, ite_and, hkey]

/-- A Scan touches two keys, whichever way round. -/
theorem Counts.touch_two {stats counted : Stats keys} {call : KvCall}
    (hcnt : ∀ op, counted.cnt op = stats.cnt op + if sameOp op call then 1 else 0)
    (hrows : counted.keysFreq = stats.keysFreq) {cidx : Fin n}
    {ksidx keidx : Fin (keys cidx).length}
    (hkey : ∀ key, mentions key call = (if (keys cidx)[ksidx] = key then 1 else 0) +
      if (keys cidx)[keidx] = key then 1 else 0) :
    Counts stats cidx call ((counted.touch cidx ksidx).touch cidx keidx) where
  cnt := fun op => ((Stats.cnt_touch _ cidx keidx op).trans (counted.cnt_touch cidx ksidx op)).trans
    (hcnt op)
  freq := by
    intro d key
    have hfreq : counted.freq d key = stats.freq d key := by rw [Stats.freq, hrows, Stats.freq]
    rw [Stats.freq_touch, Stats.freq_touch, hfreq, ite_and, ite_and, hkey]
    split_ifs <;> rfl

theorem genRandKvcallStats_counts {stats stats' : Stats keys} {cidx : Fin n} {draws : CallDraws}
    {call : KvCall} (h : genRandKvcallStats stats cidx draws = .ok (call, stats')) :
    Counts stats cidx call stats' := by
  have hvariant : genRandIndex draws.variant 10 = .ok (draws.variant % 10) := rfl
  obtain ⟨value, hvalue⟩ : ∃ value, genRandString draws.letters valueLen = .ok value := ⟨_, rfl⟩
  unfold genRandKvcallStats at h
  simp only [hvariant, hvalue, bind, Except.bind] at h
  cases hk : genKeyIndex (keys cidx) draws.kidx with
  | error why =>
    simp only [hk] at h
    split_ifs at h
  | ok kidx =>
    simp only [hk] at h
    -- the operations in the order of the variants
    split_ifs at h
    · cases h
      refine .touch (fun op => ?_) ?_ fun key => ?_
      · cases op <;> rfl
      · rfl
      · rfl
    · cases h
      refine .touch (fun op => ?_) ?_ fun key => ?_
      · cases op <;> rfl
      · rfl
      · rfl
    · cases h
      refine .touch (fun op => ?_) ?_ fun key => ?_
      · cases op <;> rfl
      · rfl
      · rfl
    · cases hk' : genKeyIndex (keys cidx) draws.keidx with
      | error why => simp [hk'] at h
      | ok keidx =>
        simp only [hk'] at h
        split_ifs at h
        · cases h
          refine .touch_two (fun op => ?_) ?_ fun key => ?_
          · cases op <;> rfl
          · rfl
          · exact add_comm _ _
        · cases h
          refine .touch_two (fun op => ?_) ?_ fun key => ?_
          · cases op <;> rfl
          · rfl
          · rfl
    · cases h
      refine .touch (fun op => ?_) ?_ fun key => ?_
      · cases op <;> rfl
      · rfl
      · rfl

/-! ## The loop -/

namespace FuzzState

variable (s : FuzzState n) (stats : Stats keys)

/-- Make a new call, counting it. -/
def makeCallStats (round : Round) : Iteration n × Stats keys :=
  match genRandClient round.clients s.flying false with
  | none => (.drawing, stats)
  | some (.error why) => (.panic why, stats)
  | some (.ok cidx) =>
    match genRandKvcallStats stats cidx round.call with
    | .error why => (.panic why, stats)
    | .ok (call, stats) =>
      match round.sendCall with
      | .error err => (.err err, stats)
      | .ok () => (.next (s.called cidx call), stats)

/-- The body of the loop with its statistics. -/
def iterateStats (numOps : ℕ) (round : Round) : Iteration n × Stats keys :=
  if s.timestamp = u64Max then (.panic .overflow, stats)
  else if genCallVsWait round.coin s.opsCalled (numOps * n) s.flying then
    s.tick.makeCallStats stats round
  else (s.tick.harvestResp (numOps * n) round, stats)

end FuzzState

/-- The loop, and the statistics it leaves. -/
def fuzzLoopStats (numOps : ℕ) : List Round → FuzzState n → Stats keys → LoopEnd n × Stats keys
  | [], s, stats => (if s.opsWaited < numOps * n then .running else .finished s, stats)
  | round :: rounds, s, stats =>
    if s.opsWaited < numOps * n then
      match s.iterateStats stats numOps round with
      | (.drawing, stats) => (.running, stats)
      | (.panic why, stats) => (.panic why, stats)
      | (.err err, stats) => (.err err, stats)
      | (.failed why, stats) => (.failed why, stats)
      | (.next s, stats) => fuzzLoopStats numOps rounds s stats
    else (.finished s, stats)

/-- The state after the iterations that went on. -/
def lastState (numOps : ℕ) (keys : Pool n) : List Round → FuzzState n → FuzzState n
  | [], s => s
  | round :: rounds, s =>
    if s.opsWaited < numOps * n then
      match s.iterate numOps keys round with
      | .next t => lastState numOps keys rounds t
      | _ => s
    else s

/-- The statistics are those of the calls made so far. -/
structure Tallied (s : FuzzState n) (stats : Stats keys) : Prop where
  cnt : ∀ op, stats.cnt op = ∑ c, (s.sentTo c).countP fun x => sameOp op x.2
  total : stats.total = s.opsCalled
  freq : ∀ c key, stats.freq c key = ((s.sentTo c).map fun x => mentions key x.2).sum

namespace FuzzState

variable {s : FuzzState n} {stats stats' : Stats keys}

end FuzzState

variable {s : FuzzState n} {stats stats' : Stats keys}

theorem sum_sentTo_called (c : Fin n) (call : KvCall) (p : KvCall → Bool) :
    ∑ d, ((s.tick.called c call).sentTo d).countP (fun x => p x.2) =
      (∑ d, (s.sentTo d).countP fun x => p x.2) + if p call then 1 else 0 := by
  have hterm : ∀ d, ((s.tick.called c call).sentTo d).countP (fun x => p x.2) =
      (s.sentTo d).countP (fun x => p x.2) + if d = c then (if p call then 1 else 0) else 0 := by
    intro d
    by_cases hd : d = c
    · subst hd
      simp [FuzzState.sentTo_called_self, List.countP_append]
    · simp [FuzzState.sentTo_called_of_ne hd, hd]
  simp [hterm, Finset.sum_add_distrib]

theorem Tallied.called (h : Tallied s stats) {c : Fin n} {call : KvCall}
    (hcounts : Counts stats c call stats') (hne : call ≠ .stop) :
    Tallied (s.tick.called c call) stats' where
  cnt := by
    intro op
    rw [hcounts.cnt, h.cnt, sum_sentTo_called c call (sameOp op)]
  total := by rw [hcounts.total hne, h.total]; rfl
  freq := by
    intro d key
    rw [hcounts.freq, h.freq]
    by_cases hd : d = c
    · subst hd
      simp [FuzzState.sentTo_called_self]
    · simp [FuzzState.sentTo_called_of_ne hd, hd]

theorem Tallied.answered (h : Tallied s stats) {r : Harvest n} (hr : s.Answers keys r)
    (history : History n) : Tallied (s.tick.answered r [] history) stats := by
  have hsent : ∀ c, (s.tick.answered r [] history).sentTo c = s.sentTo c :=
    FuzzState.sentTo_answered (s := s.tick) hr.worksOn.outstanding history
  refine ⟨fun op => ?_, h.total, fun c key => ?_⟩
  · simp only [h.cnt, hsent]
  · simp only [h.freq, hsent]

/-! ## Runs -/

/-- Counting does not influence an iteration. -/
theorem iterateStats_fst (s : FuzzState n) (stats : Stats keys) (round : Round) :
    (s.iterateStats stats numOps round).1 = s.iterate numOps keys round := by
  unfold FuzzState.iterateStats FuzzState.iterate
  split_ifs
  · rfl
  · unfold FuzzState.makeCallStats FuzzState.makeCall
    rcases genRandClient round.clients s.tick.flying false with _ | why | c
    · rfl
    · rfl
    · simp only [← genRandKvcallStats_map stats c round.call]
      cases genRandKvcallStats stats c round.call with
      | error why => rfl
      | ok drawn => cases round.sendCall <;> rfl
  · rfl

/-- What an iteration that goes on does to the statistics. -/
theorem Tallied.next (h : Tallied s stats) (hinv : s.Inv numOps keys)
    (hlt : s.opsWaited < numOps * n) (hkeys : ∀ c, keys c ≠ []) {round : Round} {t : FuzzState n}
    (hi : s.iterateStats stats numOps round = (.next t, stats')) : Tallied t stats' := by
  have hnext : s.iterate numOps keys round = .next t := by
    rw [← iterateStats_fst s stats, hi]
  unfold FuzzState.iterateStats at hi
  split_ifs at hi with hclock hcall
  · simp at hi
  · unfold FuzzState.makeCallStats at hi
    rcases hclient : genRandClient round.clients s.tick.flying false with _ | why | c
    · simp [hclient] at hi
    · simp [hclient] at hi
    · rcases hdraw : genRandKvcallStats stats c round.call with why | ⟨call, drawn⟩
      · simp [hclient, hdraw] at hi
      · rcases hsend : round.sendCall with err | _
        · simp [hclient, hdraw, hsend] at hi
        · obtain ⟨rfl, rfl⟩ : s.tick.called c call = t ∧ drawn = stats' := by
            simpa [hclient, hdraw, hsend] using hi
          have hgenerated := genRandKvcallStats_map stats c round.call
          rw [hdraw] at hgenerated
          have hfrom : CallFrom (keys c) call := callFrom_of_generated (hkeys c) hgenerated.symm
          have hne : call ≠ .stop := by
            rintro rfl
            exact hfrom
          exact h.called (genRandKvcallStats_counts hdraw) hne
  · obtain ⟨hharvest, rfl⟩ := Prod.mk.inj hi
    rcases FuzzState.iterate_heard hnext (.inl ⟨t, rfl⟩) with ⟨hcall', -⟩ |
      ⟨hwait, c, resp, hclient, hresp, -⟩
    · exact absurd hcall' hcall
    · have hc := hinv.picks_flying hlt hwait hclient
      obtain ⟨r, history, hr, -, -, rfl⟩ := hinv.harvestResp_next hc hclient hresp hharvest
      exact h.answered hr history

/-- An iteration that fails has not counted. -/
theorem iterateStats_failed {round : Round} {why : Failure}
    (hi : s.iterateStats stats numOps round = (.failed why, stats')) : stats' = stats := by
  unfold FuzzState.iterateStats at hi
  split_ifs at hi
  · simp at hi
  · unfold FuzzState.makeCallStats at hi
    rcases hclient : genRandClient round.clients s.tick.flying false with _ | why | c
    · simp [hclient] at hi
    · simp [hclient] at hi
    · rcases hdraw : genRandKvcallStats stats c round.call with why | ⟨call, drawn⟩
      · simp [hclient, hdraw] at hi
      · rcases hsend : round.sendCall with err | _
        · simp [hclient, hdraw, hsend] at hi
        · simp [hclient, hdraw, hsend] at hi
  · exact (Prod.mk.inj hi).2.symm

/-- Where the loop ends with a result, its statistics are those of its last state. -/
theorem Tallied.run (h : Tallied s stats) (hinv : s.Inv numOps keys) (hkeys : ∀ c, keys c ≠ [])
    (hops : numOps * n / 100 ≠ 0) {rounds : List Round}
    (hend : (∃ t, fuzzLoop numOps keys rounds s = .finished t) ∨
      ∃ why, fuzzLoop numOps keys rounds s = .failed why) :
    Tallied (lastState numOps keys rounds s) (fuzzLoopStats numOps rounds s stats).2 := by
  induction rounds generalizing s stats with
  | nil => exact h
  | cons round rounds ih =>
    have hfst : (s.iterateStats stats numOps round).1 = s.iterate numOps keys round :=
      iterateStats_fst s stats round
    unfold fuzzLoop at hend
    unfold lastState fuzzLoopStats
    split_ifs at hend ⊢ with hlt
    · rw [← hfst] at hend ⊢
      rcases hi : s.iterateStats stats numOps round with ⟨_ | why | err | why | t, stats'⟩
      · simp [hi] at hend
      · simp [hi] at hend
      · simp [hi] at hend
      · rw [iterateStats_failed hi]
        exact h
      · rw [hi] at hend hfst
        have hdoes := hinv.iterate_does hkeys hops hlt round
        rw [← hfst] at hdoes
        exact ih (h.next hinv hlt hkeys hi) (hinv.next hdoes) hend
    · exact h

end MadKV.Fuzzer
