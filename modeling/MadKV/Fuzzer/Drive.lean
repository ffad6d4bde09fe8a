import MadKV.Fuzzer.Checks

/-!
# Driving the checker

`fuzz_test` queues every harvested response and then applies it when its call
was an update, stopping at the first complaint. `popLog` lists the entries that
such a run takes off the queue, each with the lists it was checked against, and
`updatesOn` is what those lists would be had nothing ever been trimmed.
-/

namespace MadKV.Fuzzer

open Runner Support

variable {n : ℕ}

/-- A harvested response, with the call it answers and the memorized timestamps. -/
structure Harvest (n : ℕ) where
  cidx : Fin n
  tsCall : ℕ
  tsResp : ℕ
  call : KvCall
  resp : KvResp
deriving DecidableEq, Repr

/-- The client of a run with one, and the clients of a run with two. -/
def onlyClient : Fin 1 := 0

def firstClient : Fin 2 := 0

def secondClient : Fin 2 := 1

def Harvest.queued (r : Harvest n) : QueuedSpan := ⟨r.tsCall, r.tsResp, r.resp⟩

/-- The harvest branch of `fuzz_test`. -/
def History.harvest (h : History n) (r : Harvest n) : Option (Option KvResp) × History n :=
  let h := h.addToQueue r.tsCall r.tsResp r.resp
  match r.call.updateInfo with
  | none => (none, h)
  | some (key, value) => h.applyUpdate r.cidx r.tsCall r.tsResp key value

/-- Harvest responses one after another until `applyUpdate` complains. -/
def History.feed : History n → List (Harvest n) → Option (Option KvResp) × History n
  | h, [] => (none, h)
  | h, r :: run =>
    match h.harvest r with
    | (none, h) => h.feed run
    | (some complaint, h) => (some complaint, h)

theorem feed_append {done : List (Harvest n)} :
    ∀ {h h' : History n}, h.feed done = (none, h') → ∀ rest,
      h.feed (done ++ rest) = h'.feed rest := by
  induction done with
  | nil =>
    intro h h' hf rest
    cases hf
    rfl
  | cons r done ih =>
    intro h h' hf rest
    cases hh : h.harvest r with
    | mk complaint next =>
      cases complaint with
      | none =>
        simp only [History.feed, hh] at hf
        simpa only [List.cons_append, History.feed, hh] using ih hf rest
      | some c => simp [History.feed, hh] at hf

/-! ## Popped entries -/

/-- A popped entry together with the lists it is checked against. -/
structure Popped (n : ℕ) where
  spans : SpanMap n
  entry : QueuedSpan

def Popped.verdict (p : Popped n) : Bool := checkCall p.spans p.entry

/-- The entries `popDecided` takes off the queue. -/
def poppedEntries (spans : SpanMap n) (minComingTs : ℕ) : List QueuedSpan → List QueuedSpan
  | [] => []
  | entry :: queue =>
    if entry.tsResp < minComingTs then
      entry :: if checkCall spans entry then poppedEntries spans minComingTs queue else []
    else []

theorem popDecided_queue (spans : SpanMap n) (minComingTs : ℕ) (queue : List QueuedSpan) :
    poppedEntries spans minComingTs queue ++ (popDecided spans minComingTs queue).2 = queue := by
  induction queue with
  | nil => rfl
  | cons entry queue ih =>
    unfold poppedEntries popDecided
    split_ifs <;> simp [ih]

/-- The loop rejects exactly when an entry it pops fails its check. -/
theorem popDecided_rejects_iff {spans : SpanMap n} {minComingTs : ℕ} {queue : List QueuedSpan}
    {resp : KvResp} : (popDecided spans minComingTs queue).1 = some resp ↔
      ∃ entry ∈ poppedEntries spans minComingTs queue,
        entry.resp = resp ∧ checkCall spans entry = false := by
  induction queue with
  | nil => simp [popDecided, poppedEntries]
  | cons entry queue ih =>
    unfold popDecided poppedEntries
    split_ifs with hlt hcheck <;> simp_all

theorem poppedEntries_decided {spans : SpanMap n} {minComingTs : ℕ} {queue : List QueuedSpan} :
    ∀ entry ∈ poppedEntries spans minComingTs queue,
      entry ∈ queue ∧ entry.tsResp < minComingTs := by
  induction queue with
  | nil => simp [poppedEntries]
  | cons entry queue ih =>
    intro e he
    unfold poppedEntries at he
    split_ifs at he with hlt hcheck
    · rcases List.mem_cons.mp he with rfl | he
      · exact ⟨by simp, hlt⟩
      · exact ⟨by simp [(ih e he).1], (ih e he).2⟩
    · rw [List.mem_singleton.mp he]
      exact ⟨by simp, hlt⟩
    · simp at he

/-- What harvesting `r` pops. -/
def History.popped (h : History n) (r : Harvest n) : List (Popped n) :=
  match r.call.updateInfo with
  | none => []
  | some (key, value) =>
    match (h.addToQueue r.tsCall r.tsResp r.resp).pushUpdate r.cidx key
        ⟨r.tsCall, r.tsResp, value⟩ with
    | none => []
    | some h => (poppedEntries h.spans (minOf r.cidx h.maxtr) h.queue).map (Popped.mk h.spans)

/-- Everything popped while feeding a run, up to and including the first rejection. -/
def History.popLog : History n → List (Harvest n) → List (Popped n)
  | _, [] => []
  | h, r :: run =>
    h.popped r ++
      match h.harvest r with
      | (none, h) => h.popLog run
      | (some _, _) => []

/-- A single harvested response is rejected exactly when something it pops is. -/
theorem harvest_rejects_iff (h : History n) (r : Harvest n) (resp : KvResp) :
    (h.harvest r).1 = some (some resp) ↔
      ∃ p ∈ h.popped r, p.entry.resp = resp ∧ p.verdict = false := by
  unfold History.harvest History.popped
  cases r.call.updateInfo with
  | none => simp
  | some u =>
    simp only [History.applyUpdate]
    cases (h.addToQueue r.tsCall r.tsResp r.resp).pushUpdate r.cidx u.1
        ⟨r.tsCall, r.tsResp, u.2⟩ with
    | none => simp
    | some pushed => simp [History.popQueue, popDecided_rejects_iff, Popped.verdict]

theorem accepted_of_harvest {h h' : History n} {r : Harvest n} (hh : h.harvest r = (none, h')) :
    ∀ p ∈ h.popped r, p.verdict = true := by
  intro p hp
  by_contra hv
  have hrej := (harvest_rejects_iff h r _).mpr ⟨p, hp, rfl, by simpa using hv⟩
  simp [hh] at hrej

/-- A run is rejected exactly when some entry popped in it fails its check. -/
theorem feed_rejects_iff {run : List (Harvest n)} :
    ∀ {h : History n} {resp : KvResp}, (h.feed run).1 = some (some resp) ↔
      ∃ p ∈ h.popLog run, p.entry.resp = resp ∧ p.verdict = false := by
  induction run with
  | nil => simp [History.feed, History.popLog]
  | cons r run ih =>
    intro h resp
    have hr := harvest_rejects_iff h r resp
    cases hh : h.harvest r with
    | mk complaint h' =>
      cases complaint with
      | none =>
        have hok := accepted_of_harvest hh
        simp only [History.feed, History.popLog, hh, ih, List.mem_append, or_and_right,
          exists_or]
        refine ⟨Or.inr, ?_⟩
        rintro (⟨p, hp, _, hv⟩ | hrest)
        · simp [hok p hp] at hv
        · exact hrest
      | some c => simpa [History.feed, History.popLog, hh] using hr

/-! ## The discipline of the driver -/

def InPool (keys : List (List String)) (key : String) : Prop :=
  ∃ cliKeys ∈ keys, key ∈ cliKeys

/-- Runs as `fuzz_test` produces them. The responses themselves are arbitrary. -/
structure Driven (keys : List (List String)) (run : List (Harvest n)) : Prop where
  call_pos : ∀ r ∈ run, 0 < r.tsCall
  call_lt_resp : ∀ r ∈ run, r.tsCall < r.tsResp
  resp_increasing : run.Pairwise fun a b => a.tsResp < b.tsResp
  one_outstanding : run.Pairwise fun a b => a.cidx = b.cidx → a.tsResp < b.tsCall
  update_in_pool : ∀ r ∈ run, ∀ key value, r.call.updateInfo = some (key, value) →
    InPool keys key

theorem Driven.sublist {keys : List (List String)} {run part : List (Harvest n)}
    (h : Driven keys run) (hs : part.Sublist run) : Driven keys part where
  call_pos := fun r hr => h.call_pos r (hs.subset hr)
  call_lt_resp := fun r hr => h.call_lt_resp r (hs.subset hr)
  resp_increasing := h.resp_increasing.sublist hs
  one_outstanding := h.one_outstanding.sublist hs
  update_in_pool := fun r hr => h.update_in_pool r (hs.subset hr)

theorem Driven.resp_lt {keys : List (List String)} {done rest : List (Harvest n)}
    (h : Driven keys (done ++ rest)) {a b : Harvest n} (ha : a ∈ done) (hb : b ∈ rest) :
    a.tsResp < b.tsResp :=
  (List.pairwise_append.mp h.resp_increasing).2.2 a ha b hb

theorem Driven.resp_lt_call {keys : List (List String)} {done rest : List (Harvest n)}
    (h : Driven keys (done ++ rest)) {a b : Harvest n} (ha : a ∈ done) (hb : b ∈ rest)
    (hc : a.cidx = b.cidx) : a.tsResp < b.tsCall :=
  (List.pairwise_append.mp h.one_outstanding).2.2 a ha b hb hc

/-! ## The untrimmed updates of a run -/

/-- The update of `key` that a harvested response acknowledges, if any. -/
def Harvest.updateOn (r : Harvest n) (key : String) : Option UpdateSpan :=
  match r.call.updateInfo with
  | none => none
  | some (k, value) => if k = key then some ⟨r.tsCall, r.tsResp, value⟩ else none

/-- All updates of `key` by client `d` along a run, behind the initial dummy. -/
def updatesOn (run : List (Harvest n)) (d : Fin n) (key : String) : List UpdateSpan :=
  dummySpan :: run.filterMap fun r => if r.cidx = d then r.updateOn key else none

theorem updateOn_eq_some {r : Harvest n} {key : String} {w : UpdateSpan} :
    r.updateOn key = some w ↔
      r.call.updateInfo = some (key, w.value) ∧ w.tsCall = r.tsCall ∧ w.tsResp = r.tsResp := by
  obtain ⟨tsCall, tsResp, value⟩ := w
  unfold Harvest.updateOn
  cases hu : r.call.updateInfo with
  | none => simp
  | some u =>
    obtain ⟨k, v⟩ := u
    by_cases hk : k = key
    · simp [hk]
      tauto
    · simp [hk]

theorem mem_updatesOn {run : List (Harvest n)} {d : Fin n} {key : String} {w : UpdateSpan} :
    w ∈ updatesOn run d key ↔
      w = dummySpan ∨ ∃ r ∈ run, r.cidx = d ∧ r.updateOn key = some w := by
  simp [updatesOn, List.mem_filterMap]

theorem updatesOn_append (done rest : List (Harvest n)) (d : Fin n) (key : String) :
    updatesOn (done ++ rest) d key = updatesOn done d key ++
      rest.filterMap fun r => if r.cidx = d then r.updateOn key else none := by
  simp [updatesOn]

theorem updatesOn_chained {keys : List (List String)} {run : List (Harvest n)}
    (h : Driven keys run) (d : Fin n) (key : String) : Chained (updatesOn run d key) := by
  induction run using List.reverseRecOn with
  | nil => exact ⟨by simp [updatesOn], by simp [updatesOn, dummySpan]⟩
  | append_singleton done r ih =>
    have hdone := ih (h.sublist (List.sublist_append_left done [r]))
    rw [updatesOn_append]
    cases hu : (if r.cidx = d then r.updateOn key else none) with
    | none => simpa [hu] using hdone
    | some w =>
      split_ifs at hu with hd
      obtain ⟨_, hcall, hresp⟩ := updateOn_eq_some.mp hu
      have hr : r ∈ done ++ [r] := by simp
      have hproper := h.call_lt_resp r hr
      have hpos := h.call_pos r hr
      simp only [List.filterMap_cons, hd, ↓reduceIte, hu, List.filterMap_nil]
      refine hdone.concat (by omega) ?_
      intro a ha
      rcases mem_updatesOn.mp ha with rfl | ⟨b, hb, hbd, hbu⟩
      · simp only [dummySpan]
        omega
      · have hlt := h.resp_lt_call hb (List.mem_singleton.mpr rfl) (hbd.trans hd.symm)
        have := (updateOn_eq_some.mp hbu).2.2
        omega

end MadKV.Fuzzer
