import MadKV.Runner.KvOps
import MadKV.Support.SortedMap
import Mathlib.Data.String.Basic

/-!
# The abstract key-value store

What the service is for: a finite map, changed by Put, Swap and Delete and read
by Get and Scan. Every concrete store of the repository is measured against it.
-/

namespace MadKV.Spec

open Runner Support

/-- The abstract contents of a store. -/
abbrev KvMap := Finmap fun _ : String => String

/-- The answer to a call and the contents afterwards. -/
def apply (m : KvMap) : KvCall → KvResp × KvMap
  | .put key value => (.put key (m.lookup key).isSome, m.insert key value)
  | .swap key value => (.swap key (m.lookup key), m.insert key value)
  | .get key => (.get key (m.lookup key), m)
  | .scan keyStart keyEnd => (.scan keyStart keyEnd (between m keyStart keyEnd), m)
  | .delete key => (.delete key (m.lookup key).isSome, m.erase key)
  | .stop => (.stop, m)

/-- The contents after a sequence of calls. -/
def contents (m : KvMap) (calls : List KvCall) : KvMap :=
  calls.foldl (fun m call => (apply m call).2) m

/-- The answers to a sequence of calls, each on the contents left by the one before. -/
def replay (m : KvMap) : List KvCall → List KvResp
  | [] => []
  | call :: calls => (apply m call).1 :: replay (apply m call).2 calls

theorem replay_append (m : KvMap) (before after : List KvCall) :
    replay m (before ++ after) = replay m before ++ replay (contents m before) after := by
  induction before generalizing m with
  | nil => rfl
  | cons call before ih => simp [replay, ih, contents]

@[simp] theorem length_replay (m : KvMap) (calls : List KvCall) :
    (replay m calls).length = calls.length := by
  induction calls generalizing m with
  | nil => rfl
  | cons call calls ih => simp [replay, ih]

@[simp] theorem contents_nil (m : KvMap) : contents m [] = m := rfl

@[simp] theorem contents_cons (m : KvMap) (call : KvCall) (calls : List KvCall) :
    contents m (call :: calls) = contents (apply m call).2 calls := rfl

/-- A call changes the key it updates, and nothing else. -/
theorem lookup_apply (m : KvMap) (call : KvCall) (key : String) :
    (apply m call).2.lookup key =
      match call.updateInfo with
      | none => m.lookup key
      | some (k, value) => if key = k then value else m.lookup key := by
  cases call with
  | put k v =>
    by_cases hk : key = k
    · subst hk
      simp [apply, KvCall.updateInfo, Finmap.lookup_insert]
    · simp [apply, KvCall.updateInfo, hk, Finmap.lookup_insert_of_ne _ hk]
  | swap k v =>
    by_cases hk : key = k
    · subst hk
      simp [apply, KvCall.updateInfo, Finmap.lookup_insert]
    · simp [apply, KvCall.updateInfo, hk, Finmap.lookup_insert_of_ne _ hk]
  | delete k =>
    by_cases hk : key = k
    · subst hk
      simp [apply, KvCall.updateInfo, Finmap.lookup_erase]
    · simp [apply, KvCall.updateInfo, hk, Finmap.lookup_erase_ne hk]
  | _ => rfl

/-- The current value of a key is the one of the last update of that key, or the
initial one. -/
theorem lookup_contents (m : KvMap) (calls : List KvCall) (key : String) :
    ((contents m calls).lookup key = m.lookup key ∧
      ∀ call ∈ calls, ∀ value, call.updateInfo ≠ some (key, value)) ∨
    ∃ before call after, calls = before ++ call :: after ∧
      call.updateInfo = some (key, (contents m calls).lookup key) ∧
      ∀ c ∈ after, ∀ value, c.updateInfo ≠ some (key, value) := by
  induction calls using List.reverseRecOn with
  | nil => exact .inl ⟨rfl, by simp⟩
  | append_singleton calls call ih =>
    have hstep : contents m (calls ++ [call]) = (apply (contents m calls) call).2 := by
      simp [contents]
    rw [hstep, lookup_apply]
    by_cases hu : ∃ value, call.updateInfo = some (key, value)
    · obtain ⟨value, hu⟩ := hu
      exact .inr ⟨calls, call, [], rfl, by simp [hu], by simp⟩
    · have hnone : ∀ value, call.updateInfo ≠ some (key, value) := fun value h => hu ⟨value, h⟩
      have hkeep : (match call.updateInfo with
          | none => (contents m calls).lookup key
          | some (k, value) => if key = k then value else (contents m calls).lookup key) =
            (contents m calls).lookup key := by
        cases hc : call.updateInfo with
        | none => rfl
        | some u =>
          have hne : key ≠ u.1 := fun h => hnone u.2 (by rw [hc, h])
          simp [hne]
      rw [hkeep]
      rcases ih with ⟨hsame, hquiet⟩ | ⟨before, last, after, he, hlast, hquiet⟩
      · refine .inl ⟨hsame, fun c hc => ?_⟩
        rcases List.mem_append.mp hc with hc | hc
        · exact hquiet c hc
        · exact List.mem_singleton.mp hc ▸ hnone
      · refine .inr ⟨before, last, after ++ [call], by simp [he], hlast, fun c hc => ?_⟩
        rcases List.mem_append.mp hc with hc | hc
        · exact hquiet c hc
        · exact List.mem_singleton.mp hc ▸ hnone

theorem between_keys_nodup (m : KvMap) (lo hi : String) :
    ((between m lo hi).map Prod.fst).Nodup :=
  List.pairwise_map.mpr ((between_sorted m lo hi).imp fun h => h.ne)

/-- Inside its range a scan shows the current value, or the absence, of every key. -/
theorem lookup_between (m : KvMap) {lo hi key : String} (hlo : lo ≤ key) (hhi : key ≤ hi) :
    (between m lo hi).lookup key = m.lookup key := by
  let sm : SortedMap String String := ⟨between m lo hi, between_sorted m lo hi⟩
  refine Option.ext fun v => ?_
  have h := (sm.mem_entries_iff key v).symm.trans mem_between
  change (between m lo hi).lookup key = some v ↔ m.lookup key = some v
  change (between m lo hi).lookup key = some v ↔ _ at h
  rw [h]
  simp [hlo, hhi]

end MadKV.Spec
