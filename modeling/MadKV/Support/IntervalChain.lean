import Mathlib.Tactic

/-!
# Chains of disjoint intervals

A chain lists intervals in time order, each one over before the next begins.
Two loops over such lists recur: a backward search that gives up at the first
interval lying entirely in the past, and a front trim that keeps at least one
element. Both are described here by what they visit and what they leave.
-/

namespace MadKV.Support

variable {α T : Type*}

/-- Report a hit as soon as one is seen, and give up after a stopping element. -/
def searchUntil (hit stop : α → Bool) : List α → Bool
  | [] => false
  | x :: xs => if hit x then true else if stop x then false else searchUntil hit stop xs

/-- Pop from the front while the front satisfies `p` and another element follows. -/
def popWhile (p : α → Bool) : List α → List α
  | [] => []
  | [x] => [x]
  | x :: y :: rest => if p x then popWhile p (y :: rest) else x :: y :: rest

/-- What is left of a list from its newest element with property `p` on, or all of
it when there is none. -/
def fromNewest (p : α → Bool) : List α → List α
  | [] => []
  | x :: xs => if xs.any p then fromNewest p xs else x :: xs

/-- Intervals in time order: none ends before it begins, and each ends before
the next begins. -/
structure IsChain [LT T] [LE T] (call resp : α → T) (xs : List α) : Prop where
  ordered : xs.Pairwise fun a b => resp a < call b
  proper : ∀ a ∈ xs, call a ≤ resp a

theorem searchUntil_iff (hit stop : α → Bool) (xs : List α) :
    searchUntil hit stop xs = true ↔
      ∃ pre w post, xs = pre ++ w :: post ∧ hit w = true ∧ ∀ y ∈ pre, stop y = false := by
  induction xs with
  | nil => simp [searchUntil]
  | cons x xs ih =>
    constructor
    · intro h
      by_cases hx : hit x = true
      · exact ⟨[], x, xs, rfl, hx, by simp⟩
      · cases hs : stop x with
        | true => simp [searchUntil, hx, hs] at h
        | false =>
          obtain ⟨pre, w, post, he, hw, hpre⟩ := ih.mp (by simpa [searchUntil, hx, hs] using h)
          exact ⟨x :: pre, w, post, by simp [he], hw, by simpa [hs] using hpre⟩
    · rintro ⟨pre, w, post, he, hw, hpre⟩
      cases pre with
      | nil =>
        simp only [List.nil_append, List.cons.injEq] at he
        obtain ⟨rfl, rfl⟩ := he
        simp [searchUntil, hw]
      | cons y pre =>
        simp only [List.cons_append, List.cons.injEq] at he
        obtain ⟨rfl, rfl⟩ := he
        have hs : stop x = false := hpre x (by simp)
        have htail := ih.mpr ⟨pre, w, post, rfl, hw, fun y hy => hpre y (by simp [hy])⟩
        simp [searchUntil, hs, htail]

theorem popWhile_eq_suffix (p : α → Bool) (pre : List α) (w : α) (post : List α)
    (hpre : ∀ y ∈ pre, p y = true) (hw : p w = false) :
    popWhile p (pre ++ w :: post) = w :: post := by
  induction pre with
  | nil => cases post <;> simp [popWhile, hw]
  | cons x pre ih =>
    have ih := ih fun y hy => hpre y (by simp [hy])
    have hx := hpre x (by simp)
    cases pre <;> simpa [popWhile, hx] using ih

theorem popWhile_of_all_false (p : α → Bool) (xs : List α) (h : ∀ y ∈ xs, p y = false) :
    popWhile p xs = xs := by
  cases xs with
  | nil => rfl
  | cons x xs => simpa using popWhile_eq_suffix p [] x xs (by simp) (h x (by simp))

/-! ## From the newest element on -/

section Newest

variable {p : α → Bool}

theorem fromNewest_append (pre : List α) {w : α} {post : List α} (hw : p w = true)
    (hpost : ∀ y ∈ post, p y = false) : fromNewest p (pre ++ w :: post) = w :: post := by
  induction pre with
  | nil =>
    have hany : post.any p = false := by simpa using hpost
    simp [fromNewest, hany]
  | cons x pre ih =>
    have hany : (pre ++ w :: post).any p = true := by simp [hw]
    rw [List.cons_append, fromNewest, if_pos hany, ih]

theorem fromNewest_of_all_false {xs : List α} (h : ∀ y ∈ xs, p y = false) :
    fromNewest p xs = xs := by
  cases xs with
  | nil => rfl
  | cons x xs =>
    have hany : xs.any p = false := by
      simpa using fun y hy => h y (List.mem_cons_of_mem x hy)
    simp [fromNewest, hany]

theorem fromNewest_suffix (xs : List α) : fromNewest p xs <:+ xs := by
  induction xs with
  | nil => exact List.suffix_rfl
  | cons x xs ih =>
    unfold fromNewest
    split_ifs
    · exact ih.trans (List.suffix_cons x xs)
    · exact List.suffix_rfl

/-- Behind the newest element with property `p` there is no further one. -/
theorem countP_fromNewest_le (xs : List α) : (fromNewest p xs).countP p ≤ 1 := by
  induction xs with
  | nil => simp [fromNewest]
  | cons x xs ih =>
    unfold fromNewest
    split_ifs with hany
    · exact ih
    · have hnone : xs.countP p = 0 := by
        simpa [List.countP_eq_zero] using hany
      rw [List.countP_cons, hnone]
      split_ifs <;> simp

/-- The last element of all is always left. -/
theorem getLast?_fromNewest (xs : List α) : (fromNewest p xs).getLast? = xs.getLast? := by
  induction xs with
  | nil => rfl
  | cons x xs ih =>
    unfold fromNewest
    split_ifs with hany
    · have hne : xs ≠ [] := by
        rintro rfl
        simp at hany
      obtain ⟨y, ys, rfl⟩ := List.exists_cons_of_ne_nil hne
      rw [ih, List.getLast?_cons_cons]
    · rfl

theorem fromNewest_ne_nil {xs : List α} (h : xs ≠ []) : fromNewest p xs ≠ [] := by
  intro hnil
  have hlast : (fromNewest p xs).getLast? = xs.getLast? := getLast?_fromNewest xs
  rw [hnil, List.getLast?_nil, eq_comm, List.getLast?_eq_none_iff] at hlast
  exact h hlast

end Newest

section Linear

variable [LinearOrder T] {call resp : α → T} {xs : List α}

theorem IsChain.calls_increase (h : IsChain call resp xs) :
    xs.Pairwise fun a b => call a < call b := by
  refine List.Pairwise.imp_of_mem ?_ h.ordered
  intro a b ha _ hab
  exact (h.proper a ha).trans_lt hab

theorem IsChain.sublist {ys : List α} (h : IsChain call resp xs) (hs : ys.Sublist xs) :
    IsChain call resp ys :=
  ⟨h.ordered.sublist hs, fun a ha => h.proper a (hs.subset ha)⟩

theorem IsChain.concat {x : α} (h : IsChain call resp xs) (hx : call x ≤ resp x)
    (hlast : ∀ a ∈ xs, resp a < call x) : IsChain call resp (xs ++ [x]) := by
  refine ⟨List.pairwise_append.mpr ⟨h.ordered, by simp, by simpa using hlast⟩, ?_⟩
  intro a ha
  rcases List.mem_append.mp ha with ha | ha
  · exact h.proper a ha
  · rw [List.mem_singleton.mp ha]
    exact hx

/-- What begins after the last interval begins after all of them. -/
theorem IsChain.concat_last {x : α} (h : IsChain call resp xs) (hx : call x ≤ resp x)
    (hlast : ∀ a ∈ xs.getLast?, resp a < call x) : IsChain call resp (xs ++ [x]) := by
  refine h.concat hx fun a ha => ?_
  obtain ⟨init, last, rfl⟩ := (List.eq_nil_or_concat' xs).resolve_left (List.ne_nil_of_mem ha)
  have hlt : resp last < call x := hlast last (by simp)
  rcases List.mem_append.mp ha with ha | ha
  · have hbefore := (List.pairwise_append.mp h.ordered).2.2 a ha last (by simp)
    exact (hbefore.trans_le (h.proper last (by simp))).trans hlt
  · rw [List.mem_singleton.mp ha]
    exact hlt

/-- Inside a chain, standing later in the list and starting later are the same. -/
theorem IsChain.later_iff {pre post : List α} {w a : α}
    (h : IsChain call resp (pre ++ w :: post)) (ha : a ∈ pre ++ w :: post) :
    call w < call a ↔ a ∈ post := by
  have hc := h.calls_increase
  rw [List.pairwise_append, List.pairwise_cons] at hc
  obtain ⟨_, ⟨hpost, _⟩, hcross⟩ := hc
  constructor
  · intro hlt
    rcases List.mem_append.mp ha with hpre | hrest
    · exact absurd (hcross a hpre w (by simp)) hlt.asymm
    · rcases List.mem_cons.mp hrest with rfl | hin
      · exact absurd hlt (lt_irrefl _)
      · exact hin
  · exact hpost a

/-- The backward search over a chain finds exactly a hit that no later interval
separates from time `t`. -/
theorem searchUntil_reverse_iff (h : IsChain call resp xs) (hit : α → Bool) (t : T) :
    searchUntil hit (fun x => decide (resp x < t)) xs.reverse = true ↔
      ∃ w ∈ xs, hit w = true ∧ ∀ w' ∈ xs, call w < call w' → ¬ resp w' < t := by
  rw [searchUntil_iff]
  constructor
  · rintro ⟨pre, w, post, he, hw, hpre⟩
    have hx : xs = post.reverse ++ w :: pre.reverse := by
      simpa using congrArg List.reverse he
    refine ⟨w, by simp [hx], hw, ?_⟩
    intro w' hw' hlt
    have hmem := (IsChain.later_iff (hx ▸ h) (hx ▸ hw')).mp hlt
    simpa using hpre w' (by simpa using hmem)
  · rintro ⟨w, hmem, hw, hlater⟩
    obtain ⟨pre, post, rfl⟩ := List.append_of_mem hmem
    refine ⟨post.reverse, w, pre.reverse, by simp, hw, ?_⟩
    intro y hy
    have hy : y ∈ post := by simpa using hy
    have hyx : y ∈ pre ++ w :: post := by simp [hy]
    simpa using hlater y hyx ((h.later_iff hyx).mpr hy)

/-- Cutting a chain where its newest element satisfying `p` begins: what is left
starts at that element, and nothing is cut when no element satisfies `p`. -/
theorem trim_newest (h : IsChain call resp xs) (p : α → Bool) {bot : T} (hbot : ∀ t, bot ≤ t) :
    let keep := ((xs.reverse.find? p).map call).getD bot
    (∃ pre w post, xs = pre ++ w :: post ∧ p w = true ∧ (∀ y ∈ post, p y = false) ∧
      popWhile (fun x => decide (resp x < keep)) xs = w :: post) ∨
    ((∀ y ∈ xs, p y = false) ∧ popWhile (fun x => decide (resp x < keep)) xs = xs) := by
  cases hf : xs.reverse.find? p with
  | none =>
    right
    refine ⟨by simpa using hf, popWhile_of_all_false _ _ ?_⟩
    intro y _
    simpa using hbot (resp y)
  | some w =>
    left
    obtain ⟨hw, newer, older, he, hnewer⟩ := List.find?_eq_some_iff_append.mp hf
    have hx : xs = older.reverse ++ w :: newer.reverse := by
      simpa using congrArg List.reverse he
    subst hx
    refine ⟨older.reverse, w, newer.reverse, rfl, hw, by simpa using hnewer, ?_⟩
    apply popWhile_eq_suffix
    · intro y hy
      have ho := (List.pairwise_append.mp h.ordered).2.2 y hy w (by simp)
      simpa using ho
    · simpa using h.proper w (by simp)

/-- So trimming leaves a chain from its newest element satisfying `p` on. -/
theorem trim_eq_fromNewest (h : IsChain call resp xs) (p : α → Bool) {bot : T}
    (hbot : ∀ t, bot ≤ t) :
    popWhile (fun x => decide (resp x < ((xs.reverse.find? p).map call).getD bot)) xs =
      fromNewest p xs := by
  rcases trim_newest h p hbot with ⟨pre, w, post, he, hw, hpost, ht⟩ | ⟨hnone, ht⟩
  · rw [ht, he, fromNewest_append pre hw hpost]
  · rw [ht, fromNewest_of_all_false hnone]

end Linear

end MadKV.Support
