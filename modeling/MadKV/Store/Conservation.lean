import MadKV.Store.Linearizability
import MadKV.Support.Handled

/-!
# Nothing is lost and nothing is duplicated

What the replies of a run tell about the keys and the values adds up: keys come
and go as the replies say, and each value that a Swap stores is given out by one
later Swap, or is still there.
-/

namespace MadKV.Store

open Runner Support Spec

/-! ## Keys -/

/-- The key that the request created, by its reply. -/
def createdKey : Request → Reply → List String
  | .put request, .put reply => if reply.found then [] else [request.key]
  | .swap request, .swap reply => if reply.found then [] else [request.key]
  | _, _ => []

/-- The key that the request removed, by its reply. -/
def removedKey : Request → Reply → List String
  | .delete request, .delete reply => if reply.found then [request.key] else []
  | _, _ => []

theorem keys_insert (m : KvMap) (key value : String) :
    (m.insert key value).keys = insert key m.keys := by
  ext k
  simp [Finmap.mem_keys, Finmap.mem_insert]

/-- A store that gets a value for the key has the key once more, if it did not have it. -/
theorem keys_insert_balance (m : KvMap) (key value : String) :
    m.keys.val + (if (m.lookup key).isSome then [] else [key] : List String) =
      (m.insert key value).keys.val := by
  rw [keys_insert]
  by_cases hk : key ∈ m
  · have hsome : (m.lookup key).isSome := Finmap.lookup_isSome.mpr hk
    rw [if_pos hsome, Finset.insert_eq_of_mem (Finmap.mem_keys.mpr hk), Multiset.coe_nil, add_zero]
  · have hnone : ¬ (m.lookup key).isSome := fun hsome => hk (Finmap.lookup_isSome.mp hsome)
    have hkeys : key ∉ m.keys := fun hmem => hk (Finmap.mem_keys.mp hmem)
    rw [if_neg hnone, Finset.insert_val_of_notMem hkeys, Multiset.coe_singleton, add_comm,
      Multiset.singleton_add]

theorem keys_erase_balance (m : KvMap) (key : String) :
    m.keys.val =
      (m.erase key).keys.val + (if (m.lookup key).isSome then [key] else [] : List String) := by
  rw [Finmap.keys_erase, Finset.erase_val]
  by_cases hk : key ∈ m
  · have hsome : (m.lookup key).isSome := Finmap.lookup_isSome.mpr hk
    rw [if_pos hsome, Multiset.coe_singleton, add_comm, Multiset.singleton_add,
      Multiset.cons_erase (Finmap.mem_keys.mpr hk)]
  · have hnone : ¬ (m.lookup key).isSome := fun hsome => hk (Finmap.lookup_isSome.mp hsome)
    have hkeys : key ∉ m.keys.val := fun hmem => hk (Finmap.mem_keys.mp hmem)
    rw [if_neg hnone, Multiset.coe_nil, add_zero, Multiset.erase_of_notMem hkeys]

theorem keys_balance (m : KvMap) (request : Request) :
    m.keys.val + (createdKey request (specHandle m request).1 : Multiset String) =
      (specHandle m request).2.keys.val + (removedKey request (specHandle m request).1) := by
  cases request with
  | put request =>
    exact (keys_insert_balance m request.key request.newValue).trans (add_zero _).symm
  | swap request =>
    exact (keys_insert_balance m request.key request.newValue).trans (add_zero _).symm
  | delete request => exact (add_zero _).trans (keys_erase_balance m request.key)
  | get request => rfl
  | scan request => rfl

theorem sum_coe {α β : Type*} (f : α → List β) (xs : List α) :
    (xs.map fun x => (f x : Multiset β)).sum = (xs.flatMap f : List β) := by
  induction xs with
  | nil => rfl
  | cons x xs ih => simp [ih]

variable {Client : Type*} [DecidableEq Client] {trace : List (Event Client Request Reply)}
  {s : Config Client Request Reply InMemoryKVStore}

/-- The keys that came are those that are there and those that went, each as often
as the replies say. -/
theorem key_conservation (h : SystemRun trace s) :
    ((order trace).flatMap fun x => createdKey x.req x.rep).Perm
      (s.state.contents.keys.toList ++ (order trace).flatMap fun x => removedKey x.req x.rep) := by
  have hsum := serve_account (fun m : KvMap => m.keys.val)
    (fun req rep => (createdKey req rep : Multiset String))
    (fun req rep => (removedKey req rep : Multiset String)) h.replays
    fun x _ m hreply => hreply ▸ keys_balance m x.req
  rw [sum_coe, sum_coe] at hsum
  rw [← Multiset.coe_eq_coe, ← Multiset.coe_add, Finset.coe_toList, ← hsum]
  simp

/-- One client swaps its key in and swaps it again, another puts a key and deletes the
first one. -/
def swapThenDelete : List (Event ℕ Request Reply) :=
  [.send 0 0 (.swap ⟨"k", "v"⟩), .send 1 1 (.put ⟨"l", "w"⟩),
    .exec 0 (.swap ⟨"k", "v"⟩) (.swap ⟨false, ""⟩), .recv 0 0 (.swap ⟨false, ""⟩),
    .exec 1 (.put ⟨"l", "w"⟩) (.put ⟨false⟩), .send 0 2 (.swap ⟨"k", "u"⟩),
    .recv 1 1 (.put ⟨false⟩), .send 1 3 (.delete ⟨"k"⟩),
    .exec 2 (.swap ⟨"k", "u"⟩) (.swap ⟨true, "v"⟩), .exec 3 (.delete ⟨"k"⟩) (.delete ⟨true⟩)]

theorem swapThenDelete_run : ∃ s, SystemRun swapThenDelete s := by
  have h₀ : SystemRun ([] : List (Event ℕ Request Reply)) _ := .start
  have h₁ := h₀.step (.send _ 0 (.swap ⟨"k", "v"⟩) rfl)
  have h₂ := h₁.step (.send _ 1 (.put ⟨"l", "w"⟩) (by decide))
  have h₃ := h₂.step (.exec _ 0 (.swap ⟨"k", "v"⟩) (by decide))
  have h₄ := h₃.step (.recv _ 0 0 (.swap ⟨false, ""⟩) (by decide) (by decide))
  have h₅ := h₄.step (.exec _ 1 (.put ⟨"l", "w"⟩) (by decide))
  have h₆ := h₅.step (.send _ 0 (.swap ⟨"k", "u"⟩) (by decide))
  have h₇ := h₆.step (.recv _ 1 1 (.put ⟨false⟩) (by decide) (by decide))
  have h₈ := h₇.step (.send _ 1 (.delete ⟨"k"⟩) (by decide))
  have h₉ := h₈.step (.exec _ 2 (.swap ⟨"k", "u"⟩) (by decide))
  have h₁₀ := h₉.step (.exec _ 3 (.delete ⟨"k"⟩) (by decide))
  exact ⟨_, h₁₀⟩

theorem key_conservation_swapThenDelete : ∃ s, SystemRun swapThenDelete s ∧
    ["k", "l"].Perm (s.state.contents.keys.toList ++ ["k"]) := by
  obtain ⟨s, hs⟩ := swapThenDelete_run
  exact ⟨s, hs, key_conservation hs⟩

/-! ## Values -/

/-- The value that the request stored under the key. -/
def storedValue (key : String) : Request → List String
  | .put request => if request.key = key then [request.newValue] else []
  | .swap request => if request.key = key then [request.newValue] else []
  | _ => []

/-- The value of the key that the request gave out and replaced. -/
def givenValue (key : String) : Request → Reply → List String
  | .swap request, .swap reply =>
    if request.key = key ∧ reply.found then [reply.oldValue] else []
  | _, _ => []

/-- The request did not drop a value of the key unseen: a Put or a Delete found none. -/
def Keeps (key : String) : Request → Reply → Prop
  | .put request, .put reply => request.key = key → reply.found = false
  | .delete request, .delete reply => request.key = key → reply.found = false
  | _, _ => True

theorem value_balance (m : KvMap) (key : String) (request : Request)
    (hkeeps : Keeps key request (specHandle m request).1) :
    ((m.lookup key).toList + storedValue key request : Multiset String) =
      ((specHandle m request).2.lookup key).toList +
        givenValue key request (specHandle m request).1 := by
  cases request with
  | put request =>
    by_cases hk : request.key = key
    · subst hk
      have hnone : m.lookup request.key = none :=
        Option.isNone_iff_eq_none.mp (Option.isSome_eq_false_iff.mp (hkeeps rfl))
      simp [storedValue, givenValue, specHandle, Request.answer, Request.call, apply, hnone,
        Finmap.lookup_insert]
    · simp [storedValue, givenValue, specHandle, Request.answer, Request.call, apply, hk,
        Finmap.lookup_insert_of_ne _ (Ne.symm hk)]
  | swap request =>
    by_cases hk : request.key = key
    · subst hk
      cases hm : m.lookup request.key with
      | none =>
        simp [storedValue, givenValue, specHandle, Request.answer, Request.call, apply, hm,
          Finmap.lookup_insert]
      | some old =>
        simp only [storedValue, givenValue, specHandle, Request.answer, Request.call, apply, hm,
          Finmap.lookup_insert, Option.toList_some, Option.isSome_some, Option.getD_some,
          ↓reduceIte, and_self]
        exact add_comm _ _
    · simp [storedValue, givenValue, specHandle, Request.answer, Request.call, apply, hk,
        Finmap.lookup_insert_of_ne _ (Ne.symm hk)]
  | delete request =>
    by_cases hk : request.key = key
    · subst hk
      have hnone : m.lookup request.key = none :=
        Option.isNone_iff_eq_none.mp (Option.isSome_eq_false_iff.mp (hkeeps rfl))
      simp [storedValue, givenValue, specHandle, Request.answer, Request.call, apply, hnone,
        Finmap.lookup_erase]
    · simp [storedValue, givenValue, specHandle, Request.answer, Request.call, apply,
        Finmap.lookup_erase_ne (Ne.symm hk)]
  | get request => rfl
  | scan request => rfl

/-- If nobody drops a value of the key unseen, the values stored under it are those
that were given out and the one that is there. -/
theorem value_conservation (h : SystemRun trace s) (key : String)
    (hkeeps : ∀ x ∈ order trace, Keeps key x.req x.rep) :
    ((order trace).flatMap fun x => storedValue key x.req).Perm
      ((s.state.contents.lookup key).toList ++
        (order trace).flatMap fun x => givenValue key x.req x.rep) := by
  have hsum := serve_account (fun m : KvMap => ((m.lookup key).toList : Multiset String))
    (fun req _ => (storedValue key req : Multiset String))
    (fun req rep => (givenValue key req rep : Multiset String)) h.replays
    fun x hx m hreply => hreply ▸ value_balance m key x.req (hreply ▸ hkeeps x hx)
  rw [sum_coe, sum_coe] at hsum
  rw [← Multiset.coe_eq_coe, ← Multiset.coe_add, ← hsum]
  simp

/-- Two clients swap the same key. -/
def twoSwaps : List (Event ℕ Request Reply) :=
  [.send 0 0 (.swap ⟨"k", "v"⟩), .send 1 1 (.swap ⟨"k", "w"⟩),
    .exec 1 (.swap ⟨"k", "w"⟩) (.swap ⟨false, ""⟩), .exec 0 (.swap ⟨"k", "v"⟩) (.swap ⟨true, "w"⟩)]

theorem twoSwaps_run : ∃ s, SystemRun twoSwaps s := by
  have h₀ : SystemRun ([] : List (Event ℕ Request Reply)) _ := .start
  have h₁ := h₀.step (.send _ 0 (.swap ⟨"k", "v"⟩) rfl)
  have h₂ := h₁.step (.send _ 1 (.swap ⟨"k", "w"⟩) (by decide))
  have h₃ := h₂.step (.exec _ 1 (.swap ⟨"k", "w"⟩) (by decide))
  have h₄ := h₃.step (.exec _ 0 (.swap ⟨"k", "v"⟩) (by decide))
  exact ⟨_, h₄⟩

theorem value_conservation_twoSwaps : ∃ s, SystemRun twoSwaps s ∧
    ["w", "v"].Perm ((s.state.contents.lookup "k").toList ++ ["w"]) := by
  obtain ⟨s, hs⟩ := twoSwaps_run
  have horder : order twoSwaps =
    [⟨1, .swap ⟨"k", "w"⟩, .swap ⟨false, ""⟩⟩, ⟨0, .swap ⟨"k", "v"⟩, .swap ⟨true, "w"⟩⟩] := rfl
  have hkeeps : ∀ x ∈ order twoSwaps, Keeps "k" x.req x.rep := by
    rw [horder]
    exact List.forall_mem_cons.mpr ⟨trivial, List.forall_mem_singleton.mpr trivial⟩
  exact ⟨s, hs, value_conservation hs "k" hkeeps⟩

end MadKV.Store
