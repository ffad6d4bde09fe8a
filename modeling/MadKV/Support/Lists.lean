import Mathlib.Data.List.Basic

/-!
# Zips and prefixes

Two lists that grow at their ends: what their zip gains, and what stays in place
when a list is a prefix of the other.
-/

namespace MadKV.Support

/-! ## Zips -/

theorem zip_append_of_le {α β : Type*} {l : List α} {l' : List β} (h : l'.length ≤ l.length)
    (more : List α) : (l ++ more).zip l' = l.zip l' := by
  induction l generalizing l' with
  | nil => simp [List.length_eq_zero_iff.mp (Nat.le_zero.mp h)]
  | cons a l ih =>
    cases l' with
    | nil => simp
    | cons b l' => simp [ih (Nat.le_of_succ_le_succ h)]

theorem zip_concat {α β : Type*} {l : List α} {l' : List β} {a : α}
    (h : l[l'.length]? = some a) (b : β) : l.zip (l' ++ [b]) = l.zip l' ++ [(a, b)] := by
  induction l' generalizing l with
  | nil =>
    cases l with
    | nil => simp at h
    | cons c l => simpa using h
  | cons d l' ih =>
    cases l with
    | nil => simp at h
    | cons c l => simpa using ih (by simpa using h)

/-! ## Prefixes -/

theorem getElem?_of_prefix {α : Type*} {l l' : List α} {k : ℕ} {a : α} (h : l <+: l')
    (ha : l[k]? = some a) : l'[k]? = some a := by
  obtain ⟨rest, rfl⟩ := h
  rw [List.getElem?_append_left (List.getElem?_eq_some_iff.mp ha).1, ha]

theorem concat_prefix {α : Type*} {l l' : List α} {a : α} (h : l <+: l')
    (ha : l'[l.length]? = some a) : l ++ [a] <+: l' := by
  obtain ⟨rest, rfl⟩ := h
  rw [List.getElem?_append_right (Nat.le_refl _), Nat.sub_self] at ha
  cases rest with
  | nil => simp at ha
  | cons b rest =>
    obtain rfl : b = a := by simpa using ha
    exact ⟨rest, by simp⟩

end MadKV.Support
