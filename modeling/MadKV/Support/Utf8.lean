import Mathlib.Data.String.Basic
import Mathlib.Tactic

/-!
# Texts as bytes

The UTF-8 encoding of a text as a list of bytes. Decoding recovers the text;
encoding keeps the order and yields the newline byte for newline characters only.
-/

namespace MadKV.Support

/-- The UTF-8 bytes of a text. -/
def utf8 (text : List Char) : List UInt8 :=
  text.flatMap String.utf8EncodeChar

/-- The text that some bytes encode, if they are valid UTF-8. -/
def ofUtf8? (bytes : List UInt8) : Option (List Char) :=
  (String.fromUTF8? bytes.toByteArray).map String.toList

@[simp] theorem utf8_nil : utf8 [] = [] := rfl

@[simp] theorem utf8_append (a b : List Char) : utf8 (a ++ b) = utf8 a ++ utf8 b := by
  simp [utf8]

@[simp] theorem utf8_cons (c : Char) (text : List Char) :
    utf8 (c :: text) = String.utf8EncodeChar c ++ utf8 text := rfl

theorem ofUtf8?_eq_some {bytes : List UInt8} {text : List Char} :
    ofUtf8? bytes = some text ↔ bytes = utf8 text := by
  have hbytes : (String.ofList text).toByteArray = (utf8 text).toByteArray := rfl
  rw [ofUtf8?, String.fromUTF8?]
  by_cases hv : bytes.toByteArray.IsValidUTF8
  · have hs : (String.fromUTF8 bytes.toByteArray hv).toByteArray = bytes.toByteArray := rfl
    rw [dif_pos hv, Option.map_some, Option.some.injEq]
    have hiff : bytes = utf8 text ↔ String.fromUTF8 bytes.toByteArray hv = String.ofList text := by
      rw [← String.toByteArray_inj, hs, hbytes, List.toByteArray_inj]
    rw [hiff]
    constructor
    · rintro rfl
      exact String.ofList_toList.symm
    · intro h
      rw [h, String.toList_ofList]
  · simp only [hv, dite_false, Option.map_none, false_iff, reduceCtorEq]
    rintro rfl
    exact hv (hbytes ▸ (String.ofList text).isValidUTF8)

@[simp] theorem ofUtf8?_utf8 (text : List Char) : ofUtf8? (utf8 text) = some text :=
  ofUtf8?_eq_some.mpr rfl

theorem utf8_eq_nil_iff {text : List Char} : utf8 text = [] ↔ text = [] := by
  cases text with
  | nil => simp
  | cons c text => simp

/-! ## The newline byte -/

theorem newline_mem_utf8EncodeChar {c : Char} :
    (10 : UInt8) ∈ String.utf8EncodeChar c ↔ c = '\n' := by
  have hval : c = '\n' ↔ c.val.toNat = 10 := by
    rw [Char.ext_iff, ← UInt32.toNat_inj]
    rfl
  have hb : ∀ k : ℕ, (10 : UInt8) = UInt8.ofNat k ↔ 10 = k % 256 := by
    intro k
    rw [← UInt8.toNat_inj, UInt8.toNat_ofNat']
    rfl
  rw [hval]
  unfold String.utf8EncodeChar
  simp only
  split_ifs <;> simp only [List.mem_cons, List.not_mem_nil, or_false, hb] <;> omega

theorem newline_mem_utf8 {text : List Char} : (10 : UInt8) ∈ utf8 text ↔ '\n' ∈ text := by
  induction text with
  | nil => simp
  | cons c text ih =>
    rw [utf8_cons, List.mem_append, newline_mem_utf8EncodeChar, ih, List.mem_cons]
    exact or_congr_left eq_comm

@[simp] theorem utf8_newline : utf8 ['\n'] = [10] := by decide

/-! ## Order -/

theorem val_lt_max (c : Char) : c.val.toNat < 0x110000 := by
  rcases c.valid with h | ⟨_, h⟩
  · exact h.trans (by decide)
  · exact h

/-- A smaller character has a smaller encoding, whatever follows the two. -/
theorem utf8EncodeChar_lt {c d : Char} (h : c < d) (x y : List UInt8) :
    String.utf8EncodeChar c ++ x < String.utf8EncodeChar d ++ y := by
  have hlt : c.val.toNat < d.val.toNat := h
  -- the digits in base 64 determine the scalar value
  have hdigits : ∀ v : ℕ, v / 64 / 64 = v / 4096 ∧ v / 4096 / 64 = v / 262144 := by omega
  have hc := hdigits c.val.toNat
  have hd := hdigits d.val.toNat
  have hcmax := val_lt_max c
  have hdmax := val_lt_max d
  unfold String.utf8EncodeChar
  simp only
  split_ifs <;>
    simp (disch := omega) only [List.cons_append, List.nil_append, List.cons_lt_cons_iff,
      UInt8.lt_iff_toNat_lt, ← UInt8.toNat_inj, UInt8.toNat_ofNat', Nat.mod_eq_of_lt] <;>
    omega

theorem utf8_lt {a b : List Char} (h : a < b) : utf8 a < utf8 b := by
  induction h with
  | @nil c b =>
    obtain ⟨e, es, he⟩ := List.exists_cons_of_ne_nil
      (show utf8 (c :: b) ≠ [] from mt utf8_eq_nil_iff.mp (by simp))
    rw [he]
    exact List.Lex.nil
  | cons _ ih =>
    rw [utf8_cons, utf8_cons]
    exact List.append_left_lt ih
  | rel h => exact utf8EncodeChar_lt h _ _

/-- The bytes of a string. -/
def bytes (s : String) : List UInt8 := utf8 s.toList

/-- The order of strings is the byte order of their encodings. -/
theorem lt_iff_bytes_lt {s t : String} : s < t ↔ bytes s < bytes t := by
  constructor
  · intro h
    exact utf8_lt (String.lt_iff_toList_lt.mp h)
  · intro h
    rcases lt_trichotomy s t with hlt | rfl | hgt
    · exact hlt
    · exact absurd h (List.lt_irrefl _)
    · exact absurd h (List.lt_asymm (utf8_lt (String.lt_iff_toList_lt.mp hgt)))

end MadKV.Support
