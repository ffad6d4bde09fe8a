import MadKV.Fuzzer.Coverage

/-!
# Responses are not compared with their calls

The loop remembers of a call when it was made and what it updates; the checker
reads kind, key and range from the response itself. What a passed test says
about a checked response is that the updates of the run explain it in the
interval of its call, and not that it answers that call.
-/

namespace MadKV.Fuzzer

open Runner

variable {n numOps : ℕ} {keys : Pool n}

/-- The response is of the kind of the call, and about the same key or range. -/
def SameOperation : KvCall → KvResp → Prop
  | .put key _, .put key' _ => key' = key
  | .swap key _, .swap key' _ => key' = key
  | .get key, .get key' _ => key' = key
  | .scan keyStart keyEnd, .scan keyStart' keyEnd' _ => keyStart' = keyStart ∧ keyEnd' = keyEnd
  | .delete key, .delete key' _ => key' = key
  | _, _ => False

/-- When the test returns a number of pending checks, every popped response was
accepted: it is about pool keys, it is no Stop, and the updates made by the calls
of the run explain what it says in the interval of the call it was harvested for. -/
theorem passed_responses_explained (hn : 1 ≤ n) (hops : 1000 ≤ numOps) (hkeys : ∀ c, keys c ≠ [])
    {rounds : List Round} {stop : Except RunnerError Unit} {remaining : ℕ}
    (h : fuzzTest numOps keys rounds stop = .ok (some remaining)) :
    ∃ s, fuzzLoop numOps keys rounds (.new keys) = .finished s ∧
      ∀ p ∈ (History.new n keys.lists).popLog s.harvested,
        p.verdict = true ∧ ∃ r ∈ s.harvested, p.entry = r.queued ∧ r.resp ≠ .stop ∧
          Accepts (InPool keys.lists) (RunOffers s.harvested r.tsCall r.tsResp) r.resp := by
  have htotal : 1000 ≤ numOps * n := hops.trans (Nat.le_mul_of_pos_right numOps hn)
  obtain ⟨s, hfinished, _⟩ := fuzzTest_some h
  obtain ⟨hinv, _, _, haccepts⟩ := finished_accounts hkeys (by omega) hfinished
  refine ⟨s, hfinished, fun p hp => ⟨haccepts p hp, ?_⟩⟩
  obtain ⟨r, hr, he⟩ := popped_harvested hinv.driven hp
  have haccepted := (popLog_verdict_iff hinv.driven hp).mp (haccepts p hp)
  rw [he] at haccepted
  refine ⟨r, hr, he, ?_, haccepted⟩
  intro hstop
  simp [OfflineAccepts, Harvest.queued, hstop, Accepts] at haccepted

/-- A client that answers every Delete with a Get of the same key. -/
def wrongAnswers : List (Turn oneKey) :=
  List.replicate 1000 (deleteTurn (.get "k" none) (by simp))

theorem wrongAnswers_pass :
    ∃ s remaining, fuzzLoop 1000 oneKey (Turn.rounds wrongAnswers) (.new oneKey) = .finished s ∧
      fuzzTest 1000 oneKey (Turn.rounds wrongAnswers) (.ok ()) = .ok (some remaining) ∧
      s.harvested = Turn.harvests 0 wrongAnswers ∧
      (History.new 1 oneKey.lists).popLog s.harvested ≠ [] := by
  obtain ⟨s, hfinished, hharvested, _, hpopped⟩ := deletes_finish
    (show KvResp.get "k" none ≠ .stop by simp) (.inr rfl) (le_refl 1000) (by decide)
  exact ⟨s, _, hfinished, fuzzTest_finished hfinished, hharvested, hpopped⟩

theorem passed_responses_explained_wrongAnswers :
    ∃ s, fuzzLoop 1000 oneKey (Turn.rounds wrongAnswers) (.new oneKey) = .finished s ∧
      ∀ p ∈ (History.new 1 oneKey.lists).popLog s.harvested,
        p.verdict = true ∧ ∃ r ∈ s.harvested, p.entry = r.queued ∧ r.resp ≠ .stop ∧
          Accepts (InPool oneKey.lists) (RunOffers s.harvested r.tsCall r.tsResp) r.resp := by
  obtain ⟨_, _, _, hresult, _⟩ := wrongAnswers_pass
  exact passed_responses_explained le_rfl le_rfl (by simp [oneKey]) hresult

/-- All these wrong answers pass the test. -/
theorem passed_with_wrong_answers :
    ¬ ∀ (n numOps : ℕ) (keys : Pool n) (rounds : List Round) (stop : Except RunnerError Unit)
      (remaining : ℕ) (s : FuzzState n), 1 ≤ n → 1000 ≤ numOps → (∀ c, keys c ≠ []) →
      (∀ round ∈ rounds, ∃ resp, round.waitResp = .ok resp) →
      fuzzTest numOps keys rounds stop = .ok (some remaining) →
      fuzzLoop numOps keys rounds (.new keys) = .finished s →
      ∀ p ∈ (History.new n keys.lists).popLog s.harvested, ∀ r ∈ s.harvested,
        p.entry = r.queued → SameOperation r.call r.resp := by
  intro hclaim
  obtain ⟨s, remaining, hfinished, hresult, hharvested, hpopped⟩ := wrongAnswers_pass
  have hkeys : ∀ c, oneKey c ≠ [] := by simp [oneKey]
  have hparse : ∀ round ∈ Turn.rounds wrongAnswers, ∃ resp, round.waitResp = .ok resp := by
    intro round hround
    obtain ⟨t, _, hround⟩ := List.mem_flatMap.mp hround
    rcases List.mem_cons.mp hround with rfl | hround
    · exact ⟨_, rfl⟩
    · rw [List.mem_singleton.mp hround]
      exact ⟨_, rfl⟩
  obtain ⟨p, hp⟩ := List.exists_mem_of_ne_nil _ hpopped
  obtain ⟨hinv, _⟩ := finished_accounts hkeys (by decide) hfinished
  obtain ⟨r, hr, he⟩ := popped_harvested hinv.driven hp
  have hsame := hclaim 1 1000 oneKey _ _ _ s le_rfl le_rfl hkeys hparse hresult hfinished p hp r
    hr he
  rw [hharvested] at hr
  obtain ⟨t, ht, j, _, rfl⟩ := Turn.mem_harvests hr
  obtain rfl := List.eq_of_mem_replicate ht
  exact hsame

end MadKV.Fuzzer
