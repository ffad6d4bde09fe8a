import MadKV.Spec.KeyValue

/-!
# The in-memory store

`InMemoryKVStore` keeps its pairs in a `std::map`, ordered by key. Each of its
operations is shown to be the corresponding operation of the abstract store.
-/

namespace MadKV.Store

open Runner Support

/-- The map `data_`. -/
structure InMemoryKVStore where
  data : SortedMap String String

namespace InMemoryKVStore

def empty : InMemoryKVStore := ⟨.empty⟩

def put (s : InMemoryKVStore) (key newValue : String) : Bool × InMemoryKVStore :=
  let keyFound := (s.data.find? key).isSome
  (keyFound, ⟨s.data.insert key newValue⟩)

def swap (s : InMemoryKVStore) (key newValue : String) : Option String × InMemoryKVStore :=
  match s.data.find? key with
  | none => (none, ⟨s.data.insert key newValue⟩)
  | some oldValue => (some oldValue, ⟨s.data.insert key newValue⟩)

def get (s : InMemoryKVStore) (key : String) : Option String :=
  match s.data.find? key with
  | none => none
  | some value => some value

/-- The loop of `scan`, from an iterator on. -/
def scanFrom (endKey : String) : List (String × String) → List (String × String)
  | [] => []
  | (key, value) :: rest => if key ≤ endKey then (key, value) :: scanFrom endKey rest else []

def scan (s : InMemoryKVStore) (startKey endKey : String) : List (String × String) :=
  scanFrom endKey (s.data.lowerBound startKey)

def delete (s : InMemoryKVStore) (key : String) : Bool × InMemoryKVStore :=
  match s.data.find? key with
  | none => (false, s)
  | some _ => (true, ⟨s.data.erase key⟩)

/-- What the store means. -/
def contents (s : InMemoryKVStore) : Spec.KvMap := s.data.toFinmap

theorem contents_injective : Function.Injective contents := by
  rintro ⟨data⟩ ⟨data'⟩ h
  exact congrArg mk (SortedMap.toFinmap_injective h)

@[simp] theorem contents_empty : empty.contents = ∅ := SortedMap.toFinmap_empty

@[simp] theorem contents_insert (s : InMemoryKVStore) (key value : String) :
    contents ⟨s.data.insert key value⟩ = s.contents.insert key value :=
  SortedMap.toFinmap_insert s.data key value

@[simp] theorem contents_erase (s : InMemoryKVStore) (key : String) :
    contents ⟨s.data.erase key⟩ = s.contents.erase key :=
  SortedMap.toFinmap_erase s.data key

@[simp] theorem find?_eq_lookup (s : InMemoryKVStore) (key : String) :
    s.data.find? key = s.contents.lookup key := (SortedMap.lookup_toFinmap s.data key).symm

theorem put_spec (s : InMemoryKVStore) (key newValue : String) :
    (s.put key newValue).1 = (s.contents.lookup key).isSome ∧
      (s.put key newValue).2.contents = s.contents.insert key newValue := by
  simp [put]

/-- The new value is stored whether or not the key was there. -/
theorem swap_spec (s : InMemoryKVStore) (key newValue : String) :
    (s.swap key newValue).1 = s.contents.lookup key ∧
      (s.swap key newValue).2.contents = s.contents.insert key newValue := by
  simp only [swap, find?_eq_lookup]
  cases hk : s.contents.lookup key <;> simp

theorem get_spec (s : InMemoryKVStore) (key : String) : s.get key = s.contents.lookup key := by
  simp only [get, find?_eq_lookup]
  cases s.contents.lookup key <;> rfl

/-- The loop stops at the first key beyond the end. -/
theorem scanFrom_eq_takeWhile (endKey : String) (entries : List (String × String)) :
    scanFrom endKey entries = entries.takeWhile fun p => decide (p.1 ≤ endKey) := by
  induction entries with
  | nil => rfl
  | cons e entries ih =>
    by_cases hle : e.1 ≤ endKey <;> simp [scanFrom, hle, ih]

theorem scan_spec (s : InMemoryKVStore) (startKey endKey : String) :
    s.scan startKey endKey = between s.contents startKey endKey := by
  rw [scan, scanFrom_eq_takeWhile]
  exact s.data.takeWhile_lowerBound startKey endKey

theorem delete_spec (s : InMemoryKVStore) (key : String) :
    (s.delete key).1 = (s.contents.lookup key).isSome ∧
      (s.delete key).2.contents = s.contents.erase key := by
  simp only [delete, find?_eq_lookup]
  cases hk : s.contents.lookup key with
  | none =>
    have hnot : key ∉ s.contents := Finmap.lookup_eq_none.mp hk
    refine ⟨rfl, Finmap.ext_lookup fun x => ?_⟩
    by_cases hx : x = key
    · subst hx
      simp [Finmap.lookup_erase, hk]
    · simp [Finmap.lookup_erase_ne hx]
  | some value => simp

end InMemoryKVStore

end MadKV.Store
