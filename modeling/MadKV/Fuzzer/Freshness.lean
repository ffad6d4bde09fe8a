import MadKV.Fuzzer.Offline

/-!
# How fresh an accepted read is

Each client's list is searched on its own, and each starts with its own dummy
deletion. An accepted read is therefore fresh with respect to the client that
wrote the value, and with respect to everybody when there is one client only.
Two clients already let a stale absence through.
-/

namespace MadKV.Fuzzer

open Runner Support

variable {n : ℕ} {keys : List (List String)}

/-- An update of `key` by client `d` ran entirely between `w` and the read. -/
def Overwritten (run : List (Harvest n)) (key : String) (w : UpdateSpan) (tsCall : ℕ)
    (d : Fin n) : Prop :=
  ∃ w' ∈ updatesOn run d key, w.tsResp < w'.tsCall ∧ w'.tsResp < tsCall

instance (run : List (Harvest n)) (key : String) (w : UpdateSpan) (tsCall : ℕ) (d : Fin n) :
    Decidable (Overwritten run key w tsCall d) :=
  inferInstanceAs (Decidable (∃ w' ∈ updatesOn run d key, _))

/-- The value comes from an update, or the initial absence, that began before the
read answered and that nobody overwrote in real time. -/
def RealTimeFresh (run : List (Harvest n)) (entry : QueuedSpan) (key : String)
    (value : Option String) : Prop :=
  ∃ d, ∃ w ∈ updatesOn run d key, w.value = value ∧ w.tsCall < entry.tsResp ∧
    ∀ d', ¬ Overwritten run key w entry.tsCall d'

instance (run : List (Harvest n)) (entry : QueuedSpan) (key : String) (value : Option String) :
    Decidable (RealTimeFresh run entry key value) :=
  inferInstanceAs (Decidable (∃ d, ∃ w ∈ updatesOn run d key, _))

/-- As `RealTimeFresh`, but only the writing client itself is asked. -/
def ClientFresh (run : List (Harvest n)) (entry : QueuedSpan) (key : String)
    (value : Option String) : Prop :=
  ∃ d, ∃ w ∈ updatesOn run d key, w.value = value ∧ w.tsCall < entry.tsResp ∧
    ¬ Overwritten run key w entry.tsCall d

/-- The response reports `value` for `key`: a Get of the key, or a Scan whose
range contains this key of the pool. -/
def Reads (keys : List (List String)) (resp : KvResp) (key : String) (value : Option String) :
    Prop :=
  match resp with
  | .get k v => k = key ∧ v = value
  | .scan keyStart keyEnd entries =>
    InPool keys key ∧ keyStart ≤ key ∧ key ≤ keyEnd ∧ entries.lookup key = value
  | _ => False

theorem OfflineAccepts.offers_read {run : List (Harvest n)} {entry : QueuedSpan}
    (h : OfflineAccepts keys run entry) {key : String} {value : Option String}
    (hr : Reads keys entry.resp key value) :
    RunOffers run entry.tsCall entry.tsResp key fun v => v == value := by
  obtain ⟨tsCall, tsResp, resp⟩ := entry
  cases resp with
  | get k v =>
    obtain ⟨rfl, rfl⟩ := hr
    exact h.2
  | scan keyStart keyEnd entries =>
    obtain ⟨hpool, hlo, hhi, rfl⟩ := hr
    exact h.2.2 key hpool hlo hhi
  | _ => exact hr.elim

theorem RunOffers.clientFresh {run : List (Harvest n)} (hd : Driven keys run)
    {entry : QueuedSpan} {key : String} {value : Option String}
    (h : RunOffers run entry.tsCall entry.tsResp key fun v => v == value) :
    ClientFresh run entry key value := by
  obtain ⟨d, w, hw, hlt, hv, hnone⟩ := h
  refine ⟨d, w, hw, by simpa using hv, hlt, ?_⟩
  rintro ⟨w', hw', hafter, hover⟩
  have hproper := (updatesOn_chained hd d key).proper w hw
  exact hnone w' hw' (hproper.trans_lt hafter) hover

theorem ClientFresh.realTimeFresh {run : List (Harvest 1)} {entry : QueuedSpan} {key : String}
    {value : Option String} (h : ClientFresh run entry key value) :
    RealTimeFresh run entry key value := by
  obtain ⟨d, w, hw, hv, hlt, hover⟩ := h
  refine ⟨d, w, hw, hv, hlt, fun d' => ?_⟩
  rw [Subsingleton.elim d' d]
  exact hover

/-- A fresh absence without any Delete is the initial absence of a client that
has not finished an update of the key before the read was called. -/
theorem ClientFresh.idle_client {run : List (Harvest n)} (hd : Driven keys run)
    {entry : QueuedSpan} {key : String} (h : ClientFresh run entry key none)
    (hdelete : ∀ r ∈ run, r.call ≠ .delete key) :
    ∃ d, ∀ r ∈ run, r.cidx = d → ∀ value, r.call.updateInfo = some (key, value) →
      ¬ r.tsResp < entry.tsCall := by
  obtain ⟨d, w, hw, hv, _, hover⟩ := h
  have hdummy : w = dummySpan := by
    rcases mem_updatesOn.mp hw with rfl | ⟨r, hr, _, hu⟩
    · rfl
    · obtain ⟨hinfo, _⟩ := updateOn_eq_some.mp hu
      have := hdelete r hr
      cases hcall : r.call <;> simp_all [KvCall.updateInfo]
  refine ⟨d, fun r hr hc value hu hlt => hover ?_⟩
  refine ⟨⟨r.tsCall, r.tsResp, value⟩, ?_, ?_, hlt⟩
  · exact mem_updatesOn.mpr (.inr ⟨r, hr, hc, updateOn_eq_some.mpr ⟨hu, rfl, rfl⟩⟩)
  · rw [hdummy]
    exact hd.call_pos r hr

/-- What acceptance guarantees of every value and absence a popped read reports. -/
theorem accepted_read_fresh {run : List (Harvest n)} (hd : Driven keys run) {p : Popped n}
    (hp : p ∈ (History.new n keys).popLog run) (hv : p.verdict = true) :
    (∀ key value, Reads keys p.entry.resp key value → ClientFresh run p.entry key value) ∧
    (n = 1 → ∀ key value, Reads keys p.entry.resp key value →
      RealTimeFresh run p.entry key value) ∧
    ∀ key, Reads keys p.entry.resp key none → (∀ r ∈ run, r.call ≠ .delete key) →
      ∃ d, ∀ r ∈ run, r.cidx = d → ∀ value, r.call.updateInfo = some (key, value) →
        ¬ r.tsResp < p.entry.tsCall := by
  have hfresh : ∀ key value, Reads keys p.entry.resp key value →
      ClientFresh run p.entry key value := fun key value hr =>
    (((popLog_verdict_iff hd hp).mp hv).offers_read hr).clientFresh hd
  refine ⟨hfresh, ?_, fun key hr => (hfresh key none hr).idle_client hd⟩
  rintro rfl key value hr
  exact (hfresh key value hr).realTimeFresh

/-- One client reads back its own put before putting again. -/
def putGetPut : List (Harvest 1) :=
  [⟨onlyClient, 1, 2, .put "k" "v", .put "k" false⟩,
    ⟨onlyClient, 3, 4, .get "k", .get "k" (some "v")⟩,
    ⟨onlyClient, 5, 6, .put "k" "w", .put "k" true⟩]

theorem putGetPut_driven : Driven [["k"]] putGetPut where
  call_pos := by decide
  call_lt_resp := by decide
  resp_increasing := by decide
  one_outstanding := by decide
  update_in_pool := by simp [putGetPut, KvCall.updateInfo, InPool]

theorem accepted_read_fresh_putGetPut :
    ∃ p ∈ (History.new 1 [["k"]]).popLog putGetPut, Reads [["k"]] p.entry.resp "k" (some "v") ∧
      RealTimeFresh putGetPut p.entry "k" (some "v") := by
  have hex : ∃ p ∈ (History.new 1 [["k"]]).popLog putGetPut,
      p.entry = ⟨3, 4, .get "k" (some "v")⟩ ∧ p.verdict = true := by decide
  obtain ⟨p, hp, he, hv⟩ := hex
  have hr : Reads [["k"]] p.entry.resp "k" (some "v") := by simp [he, Reads]
  exact ⟨p, hp, hr, (accepted_read_fresh putGetPut_driven hp hv).2.1 rfl "k" (some "v") hr⟩

/-- A store that drops every write, with two clients: the read at 3 misses the put
acknowledged at 2. -/
def droppedPut : List (Harvest 2) :=
  [⟨firstClient, 1, 2, .put "k" "v", .put "k" false⟩,
    ⟨secondClient, 3, 4, .get "k", .get "k" none⟩,
    ⟨firstClient, 5, 6, .put "k" "w", .put "k" false⟩,
    ⟨secondClient, 7, 8, .put "k" "x", .put "k" false⟩]

theorem droppedPut_driven : Driven [["k"]] droppedPut where
  call_pos := by decide
  call_lt_resp := by decide
  resp_increasing := by decide
  one_outstanding := by decide
  update_in_pool := by simp [droppedPut, KvCall.updateInfo, InPool]

/-- The stale read of `droppedPut` is popped and accepted. -/
theorem accepted_read_not_fresh :
    ¬ ∀ (n : ℕ) (keys : List (List String)) (run : List (Harvest n)), Driven keys run →
      ∀ p ∈ (History.new n keys).popLog run, p.verdict = true →
        ∀ key value, Reads keys p.entry.resp key value →
          RealTimeFresh run p.entry key value := by
  intro hclaim
  have hex : ∃ p ∈ (History.new 2 [["k"]]).popLog droppedPut,
      p.entry = ⟨3, 4, .get "k" none⟩ ∧ p.verdict = true := by decide
  obtain ⟨p, hp, he, hv⟩ := hex
  have hfresh := hclaim 2 [["k"]] droppedPut droppedPut_driven p hp hv "k" none (by
    simp [he, Reads])
  rw [he] at hfresh
  exact absurd hfresh (by decide)

end MadKV.Fuzzer
