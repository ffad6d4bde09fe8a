import Mathlib.Data.Finmap
import Mathlib.Data.Finset.Sort
import Mathlib.Data.List.Sort
import Mathlib.Tactic

/-!
# Ordered maps as sorted lists, and what they mean

`SortedMap` is the contents of an ordered map in key order, with the sortedness
carried along. Its meaning is a finite map (`toFinmap`), and `between` is the
abstract range query: the pairs with a key between two bounds, in key order.
The operations of the sorted list are shown to be those of the finite map.
-/

namespace MadKV.Support

variable {K V : Type*} [LinearOrder K]

/-! ## Lists of pairs, and prefixes cut by a monotone test -/

theorem lookup_cons_ite {α β : Type*} [DecidableEq α] (x : α) (e : α × β) (l : List (α × β)) :
    (e :: l).lookup x = if x = e.1 then some e.2 else l.lookup x := by
  obtain ⟨k, v⟩ := e
  rw [List.lookup_cons]
  by_cases hx : x = k
  · simp [hx]
  · have hb : (x == k) = false := by simpa using hx
    simp [hx, hb]

theorem takeWhile_eq_filter {α : Type*} {p : α → Bool} {l : List α}
    (h : l.Pairwise fun a b => p b = true → p a = true) : l.takeWhile p = l.filter p := by
  induction l with
  | nil => rfl
  | cons a l ih =>
    obtain ⟨ha, hl⟩ := List.pairwise_cons.mp h
    cases hp : p a with
    | true => simp [hp, ih hl]
    | false =>
      have hnone : ∀ b ∈ l, ¬ p b = true := fun b hb hpb => by simp [ha b hb hpb] at hp
      simp [hp, List.filter_eq_nil_iff.mpr hnone]

theorem dropWhile_eq_filter_not {α : Type*} {p : α → Bool} {l : List α}
    (h : l.Pairwise fun a b => p b = true → p a = true) :
    l.dropWhile p = l.filter fun a => !p a := by
  induction l with
  | nil => rfl
  | cons a l ih =>
    obtain ⟨ha, hl⟩ := List.pairwise_cons.mp h
    cases hp : p a with
    | true => simp [hp, ih hl]
    | false =>
      have hall : ∀ b ∈ l, p b = false := fun b hb => by
        by_contra hpb
        simp [ha b hb (by simpa using hpb)] at hp
      have hkeep : l.filter (fun a => !p a) = l :=
        List.filter_eq_self.mpr fun b hb => by simp [hall b hb]
      simp [hp, hkeep]

/-- In a sorted list, what is not beyond the element at an index are the elements up to it. -/
theorem filter_le_of_getElem? {l : List K} (h : l.Pairwise (· < ·)) {i : ℕ} {a : K}
    (ha : l[i]? = some a) : l.filter (fun b => decide (b ≤ a)) = l.take (i + 1) := by
  induction l generalizing i with
  | nil => simp at ha
  | cons b l ih =>
    obtain ⟨hb, hl⟩ := List.pairwise_cons.mp h
    cases i with
    | zero =>
      obtain rfl : b = a := by simpa using ha
      have hnone : l.filter (fun c => decide (c ≤ b)) = [] := by
        rw [List.filter_eq_nil_iff]
        exact fun c hc => by simpa using hb c hc
      simp [hnone]
    | succ i =>
      rw [List.getElem?_cons_succ] at ha
      have hle : b ≤ a := (hb a (List.mem_of_getElem? ha)).le
      simp [hle, ih hl ha]

/-! ## The abstract range query -/

/-- The pairs whose key lies between the bounds, both included, in key order. -/
def between (m : Finmap fun _ : K => V) (lo hi : K) : List (K × V) :=
  ((m.keys.filter fun k => lo ≤ k ∧ k ≤ hi).sort).filterMap fun k =>
    (m.lookup k).map fun v => (k, v)

theorem mem_between {m : Finmap fun _ : K => V} {lo hi k : K} {v : V} :
    (k, v) ∈ between m lo hi ↔ m.lookup k = some v ∧ lo ≤ k ∧ k ≤ hi := by
  simp only [between, List.mem_filterMap, Finset.mem_sort, Finset.mem_filter, Finmap.mem_keys,
    Option.map_eq_some_iff, Prod.mk.injEq]
  constructor
  · rintro ⟨a, ⟨_, hrange⟩, b, hb, rfl, rfl⟩
    exact ⟨hb, hrange⟩
  · rintro ⟨hk, hrange⟩
    exact ⟨k, ⟨Finmap.mem_of_lookup_eq_some hk, hrange⟩, v, hk, rfl, rfl⟩

theorem between_sorted (m : Finmap fun _ : K => V) (lo hi : K) :
    (between m lo hi).Pairwise fun p q => p.1 < q.1 := by
  have hkeys := (m.keys.filter fun k => lo ≤ k ∧ k ≤ hi).sortedLT_sort.pairwise
  refine List.Pairwise.filterMap _ ?_ hkeys
  intro a b hab p hp q hq
  obtain ⟨v, _, rfl⟩ := Option.map_eq_some_iff.mp hp
  obtain ⟨w, _, rfl⟩ := Option.map_eq_some_iff.mp hq
  exact hab

/-- A strictly sorted list is determined by its members. -/
theorem eq_of_sorted_of_mem_iff {l₁ l₂ : List (K × V)}
    (h₁ : l₁.Pairwise fun p q => p.1 < q.1) (h₂ : l₂.Pairwise fun p q => p.1 < q.1)
    (h : ∀ p, p ∈ l₁ ↔ p ∈ l₂) : l₁ = l₂ := by
  have hperm : l₁.Perm l₂ := (List.perm_ext_iff_of_nodup
    (h₁.imp fun hlt he => hlt.ne (congrArg Prod.fst he))
    (h₂.imp fun hlt he => hlt.ne (congrArg Prod.fst he))).mpr h
  exact hperm.eq_of_pairwise (fun a b _ _ hab hba => absurd hab hba.asymm) h₁ h₂

/-! ## Sorted lists of pairs -/

/-- An ordered map, as its entries in key order. -/
structure SortedMap (K V : Type*) [LinearOrder K] where
  entries : List (K × V)
  sorted : entries.Pairwise fun p q => p.1 < q.1

/-- Place a pair into a sorted list, replacing the pair with the same key. -/
def insertEntry (k : K) (v : V) : List (K × V) → List (K × V)
  | [] => [(k, v)]
  | (a, b) :: rest =>
    if k < a then (k, v) :: (a, b) :: rest
    else if k = a then (k, v) :: rest
    else (a, b) :: insertEntry k v rest

theorem mem_insertEntry {k : K} {v : V} {p : K × V} {l : List (K × V)}
    (h : p ∈ insertEntry k v l) : p = (k, v) ∨ p ∈ l := by
  induction l with
  | nil => simpa [insertEntry] using h
  | cons e l ih =>
    obtain ⟨a, b⟩ := e
    unfold insertEntry at h
    split_ifs at h
    · simpa using h
    · rcases List.mem_cons.mp h with h | h
      · exact .inl h
      · exact .inr (by simp [h])
    · rcases List.mem_cons.mp h with h | h
      · exact .inr (by simp [h])
      · exact (ih h).imp_right fun h => by simp [h]

theorem insertEntry_sorted (k : K) (v : V) {l : List (K × V)}
    (h : l.Pairwise fun p q => p.1 < q.1) :
    (insertEntry k v l).Pairwise fun p q => p.1 < q.1 := by
  induction l with
  | nil => simp [insertEntry]
  | cons e l ih =>
    obtain ⟨a, b⟩ := e
    obtain ⟨ha, hl⟩ := List.pairwise_cons.mp h
    unfold insertEntry
    split_ifs with hlt heq
    · refine List.pairwise_cons.mpr ⟨fun q hq => ?_, h⟩
      rcases List.mem_cons.mp hq with rfl | hq
      · exact hlt
      · exact hlt.trans (ha q hq)
    · subst heq
      exact List.pairwise_cons.mpr ⟨ha, hl⟩
    · refine List.pairwise_cons.mpr ⟨fun q hq => ?_, ih hl⟩
      rcases mem_insertEntry hq with rfl | hq
      · exact lt_of_le_of_ne (not_lt.mp hlt) (Ne.symm heq)
      · exact ha q hq

theorem lookup_insertEntry (k : K) (v : V) (l : List (K × V)) (x : K) :
    (insertEntry k v l).lookup x = if x = k then some v else l.lookup x := by
  induction l with
  | nil => simp [insertEntry, lookup_cons_ite]
  | cons e l ih =>
    obtain ⟨a, b⟩ := e
    rcases lt_trichotomy k a with hlt | rfl | hgt
    · simp [insertEntry, hlt, lookup_cons_ite]
    · by_cases hx : x = k <;> simp [insertEntry, lookup_cons_ite, hx]
    · by_cases hx : x = a
      · simp [insertEntry, hgt.asymm, hgt.ne, hgt.ne', lookup_cons_ite, hx]
      · simp [insertEntry, hgt.asymm, hgt.ne', lookup_cons_ite, ih, hx]

theorem lookup_filter_ne (k : K) (l : List (K × V)) (x : K) :
    (l.filter fun p => !decide (p.1 = k)).lookup x = if x = k then none else l.lookup x := by
  induction l with
  | nil => simp
  | cons e l ih =>
    by_cases ha : e.1 = k
    · by_cases hx : x = k
      · simp [ha, hx, hx ▸ ih]
      · simp [lookup_cons_ite, ha, hx, ih]
    · by_cases hx : x = e.1
      · simp [lookup_cons_ite, ha, hx]
      · simp [lookup_cons_ite, ha, hx, ih]

namespace SortedMap

def empty : SortedMap K V := ⟨[], List.Pairwise.nil⟩

def find? (m : SortedMap K V) (k : K) : Option V := m.entries.lookup k

def insert (m : SortedMap K V) (k : K) (v : V) : SortedMap K V :=
  ⟨insertEntry k v m.entries, insertEntry_sorted k v m.sorted⟩

def erase (m : SortedMap K V) (k : K) : SortedMap K V :=
  ⟨m.entries.filter fun p => !decide (p.1 = k), m.sorted.sublist List.filter_sublist⟩

/-- The entries from the first key that is not below `lo`. -/
def lowerBound (m : SortedMap K V) (lo : K) : List (K × V) :=
  m.entries.dropWhile fun p => decide (p.1 < lo)

/-- The entries from `lo` on and before `hi`, or `none` when `lo` lies beyond `hi`, for a
query that checks its bounds whatever the map holds. -/
def range? (m : SortedMap K V) (lo hi : K) : Option (List (K × V)) :=
  if hi < lo then none
  else some (m.entries.filter fun p => decide (lo ≤ p.1) && decide (p.1 < hi))

theorem find?_insert (m : SortedMap K V) (k : K) (v : V) (x : K) :
    (m.insert k v).find? x = if x = k then some v else m.find? x :=
  lookup_insertEntry k v m.entries x

theorem find?_erase (m : SortedMap K V) (k x : K) :
    (m.erase k).find? x = if x = k then none else m.find? x :=
  lookup_filter_ne k m.entries x

theorem mem_entries_iff (m : SortedMap K V) (k : K) (v : V) :
    (k, v) ∈ m.entries ↔ m.find? k = some v := by
  obtain ⟨l, hl⟩ := m
  simp only [find?]
  induction l with
  | nil => simp
  | cons e l ih =>
    obtain ⟨a, b⟩ := e
    obtain ⟨ha, hl'⟩ := List.pairwise_cons.mp hl
    by_cases hk : k = a
    · subst hk
      have hnot : (k, v) ∉ l := fun h => (ha _ h).ne rfl
      simp [lookup_cons_ite, hnot, eq_comm]
    · simp [lookup_cons_ite, hk, ih hl']

theorem lowerBound_eq_filter (m : SortedMap K V) (lo : K) :
    m.lowerBound lo = m.entries.filter fun p => decide (lo ≤ p.1) := by
  rw [lowerBound, dropWhile_eq_filter_not]
  · simp only [← not_lt, decide_not]
  · exact m.sorted.imp fun hab hb => by
      simp only [decide_eq_true_eq] at hb ⊢
      exact hab.trans hb

/-- The finite map the entries describe. -/
def toFinmap (m : SortedMap K V) : Finmap fun _ : K => V :=
  (m.entries.map fun p => (⟨p.1, p.2⟩ : Σ _ : K, V)).toFinmap

@[simp] theorem lookup_toFinmap (m : SortedMap K V) (k : K) :
    m.toFinmap.lookup k = m.find? k := by
  rw [toFinmap, Finmap.dlookup_list_toFinmap, find?]
  induction m.entries with
  | nil => rfl
  | cons e l ih =>
    rw [List.map_cons, lookup_cons_ite]
    by_cases hk : k = e.1
    · subst hk
      simp
    · rw [List.dlookup_cons_ne _ _ hk, if_neg hk]
      exact ih

@[simp] theorem toFinmap_empty : (empty : SortedMap K V).toFinmap = ∅ := rfl

@[simp] theorem toFinmap_insert (m : SortedMap K V) (k : K) (v : V) :
    (m.insert k v).toFinmap = m.toFinmap.insert k v := by
  refine Finmap.ext_lookup fun x => ?_
  rw [lookup_toFinmap, find?_insert]
  by_cases hx : x = k
  · subst hx
    simp [Finmap.lookup_insert]
  · simp [hx, Finmap.lookup_insert_of_ne _ hx]

@[simp] theorem toFinmap_erase (m : SortedMap K V) (k : K) :
    (m.erase k).toFinmap = m.toFinmap.erase k := by
  refine Finmap.ext_lookup fun x => ?_
  rw [lookup_toFinmap, find?_erase]
  by_cases hx : x = k
  · subst hx
    simp [Finmap.lookup_erase]
  · simp [hx, Finmap.lookup_erase_ne hx]

/-- The entries are determined by what they mean. -/
theorem toFinmap_injective : Function.Injective (toFinmap : SortedMap K V → _) := by
  intro m m' h
  have hentries : m.entries = m'.entries := by
    refine eq_of_sorted_of_mem_iff m.sorted m'.sorted fun ⟨k, v⟩ => ?_
    rw [mem_entries_iff, mem_entries_iff, ← lookup_toFinmap, ← lookup_toFinmap, h]
  obtain ⟨l, hl⟩ := m
  obtain ⟨l', hl'⟩ := m'
  cases hentries
  rfl

/-- Walking from the lower bound to the upper bound is the abstract range query. -/
theorem takeWhile_lowerBound (m : SortedMap K V) (lo hi : K) :
    ((m.lowerBound lo).takeWhile fun p => decide (p.1 ≤ hi)) = between m.toFinmap lo hi := by
  have hsorted : (m.lowerBound lo).Pairwise fun p q => p.1 < q.1 := by
    rw [lowerBound_eq_filter]
    exact m.sorted.sublist List.filter_sublist
  rw [takeWhile_eq_filter]
  · refine eq_of_sorted_of_mem_iff (hsorted.sublist List.filter_sublist)
      (between_sorted _ _ _) fun ⟨k, v⟩ => ?_
    rw [lowerBound_eq_filter, mem_between, lookup_toFinmap, ← mem_entries_iff]
    simp only [List.mem_filter, decide_eq_true_eq]
    tauto
  · exact hsorted.imp fun hab hb => by
      simp only [decide_eq_true_eq] at hb ⊢
      exact hab.le.trans hb

theorem range?_eq_none_iff (m : SortedMap K V) {lo hi : K} : m.range? lo hi = none ↔ hi < lo := by
  by_cases h : hi < lo <;> simp [range?, h]

/-- The half-open range misses exactly the entry of the upper bound. -/
theorem range?_of_le (m : SortedMap K V) {lo hi : K} (h : lo ≤ hi) :
    m.range? lo hi = some ((between m.toFinmap lo hi).filter fun p => decide (p.1 < hi)) := by
  rw [range?, if_neg h.not_gt, Option.some.injEq]
  refine eq_of_sorted_of_mem_iff (m.sorted.sublist List.filter_sublist)
    ((between_sorted _ _ _).sublist List.filter_sublist) fun ⟨k, v⟩ => ?_
  simp only [List.mem_filter, Bool.and_eq_true, decide_eq_true_eq, mem_between, lookup_toFinmap,
    ← mem_entries_iff]
  constructor
  · rintro ⟨hmem, hlo, hhi⟩
    exact ⟨⟨hmem, hlo, hhi.le⟩, hhi⟩
  · rintro ⟨⟨hmem, hlo, _⟩, hhi⟩
    exact ⟨hmem, hlo, hhi⟩

end SortedMap

theorem between_of_not_mem {m : Finmap fun _ : K => V} (lo : K) {hi : K} (h : hi ∉ m) :
    ((between m lo hi).filter fun p => decide (p.1 < hi)) = between m lo hi := by
  refine List.filter_eq_self.mpr fun p hp => ?_
  obtain ⟨hlookup, _, hle⟩ := mem_between.mp hp
  have hne : p.1 ≠ hi := fun he => h (he ▸ Finmap.mem_of_lookup_eq_some hlookup)
  simpa using lt_of_le_of_ne hle hne

theorem between_of_lookup {m : Finmap fun _ : K => V} {lo hi : K} {v : V}
    (h : m.lookup hi = some v) (hle : lo ≤ hi) :
    between m lo hi = ((between m lo hi).filter fun p => decide (p.1 < hi)) ++ [(hi, v)] := by
  refine eq_of_sorted_of_mem_iff (between_sorted m lo hi) ?_ fun ⟨k, w⟩ => ?_
  · refine List.pairwise_append.mpr ⟨(between_sorted m lo hi).sublist List.filter_sublist,
      by simp, fun p hp q hq => ?_⟩
    rw [List.mem_singleton.mp hq]
    simpa using (List.mem_filter.mp hp).2
  · simp only [List.mem_append, List.mem_filter, List.mem_singleton, mem_between, Prod.mk.injEq,
      decide_eq_true_eq]
    constructor
    · rintro ⟨hk, hlo, hhi⟩
      rcases hhi.lt_or_eq with hlt | rfl
      · exact .inl ⟨⟨hk, hlo, hhi⟩, hlt⟩
      · exact .inr ⟨rfl, Option.some.inj (hk.symm.trans h)⟩
    · rintro (⟨hk, _⟩ | ⟨rfl, rfl⟩)
      · exact hk
      · exact ⟨h, hle, le_rfl⟩

end MadKV.Support
