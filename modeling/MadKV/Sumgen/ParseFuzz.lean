import MadKV.Fuzzer.Main
import MadKV.Sumgen.PrintedLines

/-!
# The outcome of a fuzz test in the report

`parse_fuzz_result` takes the last word of the line that announces the outcome and
removes the escape sequences from it, with a regular expression.
-/

namespace MadKV.Sumgen

open Runner Support Spec

/-! ## The regular expression -/

def isParam (c : Char) : Bool := '0' ≤ c && c ≤ '?'

def isIntermediate (c : Char) : Bool := ' ' ≤ c && c ≤ '/'

def isFinal (c : Char) : Bool := '@' ≤ c && c ≤ '~'

/-- What follows a match of `ANSI_ESCAPE_RE` at the start of a text, if there is one. -/
def ansiEscape : List Char → Option (List Char)
  | '\x1b' :: '[' :: text =>
    match (text.dropWhile isParam).dropWhile isIntermediate with
    | c :: rest => if isFinal c then some rest else none
    | [] => none
  | '\x1b' :: c :: text =>
    if '@' ≤ c ∧ c ≤ 'Z' ∨ '\\' ≤ c ∧ c ≤ '_' then some text else none
  | _ => none

/-- `ANSI_ESCAPE_RE.sub("", text)`, for texts up to a length. -/
def removeEscapes : ℕ → List Char → List Char
  | _, [] => []
  | 0, text => text
  | len + 1, c :: text =>
    match ansiEscape (c :: text) with
    | some rest => removeEscapes len rest
    | none => c :: removeEscapes len text

def subAnsi (text : List Char) : List Char := removeEscapes text.length text

/-! ## The parser -/

def parseFuzzLines (fuzzLog : String) : List (List Char) → Except PyError String
  | [] => .error (.runtimeError ("cannot find fuzzing outcome in '" ++ fuzzLog ++ "'"))
  | line :: lines =>
    let line := strip line
    if isIn "Fuzz testing result:" line then do
      let seg ← fromEnd (split line) 1
      .ok (String.ofList (subAnsi seg.toList))
    else parseFuzzLines fuzzLog lines

def parseFuzzResult (fuzzLog : String) (log : String) : Except PyError String :=
  parseFuzzLines fuzzLog (fileLines log.toList)

/-! ## Escape sequences that choose colors -/

/-- A text of such sequences. -/
inductive Sgr : List Char → Prop
  | nil : Sgr []
  | code {params text : List Char} : (∀ c ∈ params, isParam c = true) → Sgr text →
      Sgr ('\x1b' :: '[' :: (params ++ 'm' :: text))

theorem dropWhile_append_cons {p : Char → Bool} {l : List Char} (h : ∀ c ∈ l, p c = true)
    {d : Char} (hd : p d = false) (text : List Char) :
    (l ++ d :: text).dropWhile p = d :: text := by
  induction l with
  | nil => simp [hd]
  | cons c l ih => simp [h c (by simp), ih fun e he => h e (by simp [he])]

theorem ansiEscape_code {params : List Char} (h : ∀ c ∈ params, isParam c = true)
    (text : List Char) : ansiEscape ('\x1b' :: '[' :: (params ++ 'm' :: text)) = some text := by
  have hm : isParam 'm' = false ∧ isIntermediate 'm' = false ∧ isFinal 'm' = true := by decide
  simp [ansiEscape, dropWhile_append_cons h hm.1, hm.2.1, hm.2.2]

theorem ansiEscape_of_ne {c : Char} (h : c ≠ '\x1b') (text : List Char) :
    ansiEscape (c :: text) = none := by
  unfold ansiEscape
  split
  · simp_all
  · simp_all
  · rfl

/-- What follows a match is shorter. -/
theorem ansiEscape_length {text rest : List Char} (h : ansiEscape text = some rest) :
    rest.length < text.length := by
  unfold ansiEscape at h
  split at h
  · rename_i text
    have hdrop : ((text.dropWhile isParam).dropWhile isIntermediate).length ≤ text.length :=
      ((List.dropWhile_sublist _).trans (List.dropWhile_sublist _)).length_le
    split at h
    · rename_i c tail hsplit
      split_ifs at h
      obtain rfl := Option.some.inj h
      rw [hsplit] at hdrop
      simp only [List.length_cons] at hdrop ⊢
      omega
    · cases h
  · split_ifs at h
    obtain rfl := Option.some.inj h
    simp only [List.length_cons]
    omega
  · cases h

/-- The bound does not matter. -/
theorem removeEscapes_eq {len len' : ℕ} {text : List Char} (h : text.length ≤ len)
    (h' : text.length ≤ len') : removeEscapes len text = removeEscapes len' text := by
  induction len generalizing len' text with
  | zero =>
    obtain rfl : text = [] := List.length_eq_zero_iff.mp (Nat.le_zero.mp h)
    cases len' <;> rfl
  | succ len ih =>
    cases text with
    | nil => cases len' <;> rfl
    | cons c text =>
      obtain ⟨len', rfl⟩ : ∃ k, len' = k + 1 := ⟨len' - 1, by simp at h'; omega⟩
      simp only [List.length_cons, Nat.add_le_add_iff_right] at h h'
      simp only [removeEscapes]
      cases hmatch : ansiEscape (c :: text) with
      | none => simp only [ih h h']
      | some rest =>
        have hlt := ansiEscape_length hmatch
        simp only [List.length_cons] at hlt
        exact ih (by omega) (by omega)

theorem subAnsi_match {c : Char} {text rest : List Char}
    (h : ansiEscape (c :: text) = some rest) : subAnsi (c :: text) = subAnsi rest := by
  have hlt := ansiEscape_length h
  simp only [List.length_cons] at hlt
  simp only [subAnsi, List.length_cons, removeEscapes, h]
  exact removeEscapes_eq (by omega) le_rfl

theorem subAnsi_sgr_append {codes : List Char} (h : Sgr codes) (text : List Char) :
    subAnsi (codes ++ text) = subAnsi text := by
  induction h with
  | nil => rfl
  | @code params codes hparams _ ih =>
    simp only [List.cons_append, List.append_assoc]
    rw [subAnsi_match (ansiEscape_code hparams (codes ++ text)), ih]

theorem subAnsi_plain_append {word : List Char} (h : '\x1b' ∉ word) (text : List Char) :
    subAnsi (word ++ text) = word ++ subAnsi text := by
  induction word with
  | nil => rfl
  | cons c word ih =>
    obtain ⟨hc, hword⟩ := not_or.mp (mt List.mem_cons.mpr h)
    have hnone := ansiEscape_of_ne (Ne.symm hc) (word ++ text)
    simp only [List.cons_append]
    rw [← ih hword, subAnsi, List.length_cons, removeEscapes, hnone]
    rfl

/-- A painted word is read without its colors. -/
theorem subAnsi_paint {style : Bencher.Style} (hon : Sgr style.on.toList)
    (hoff : Sgr style.off.toList) {name : String} (hname : '\x1b' ∉ name.toList) :
    subAnsi (Fuzzer.paint style name).toList = name.toList := by
  have hnone : subAnsi style.off.toList = [] := by
    have happend := subAnsi_sgr_append hoff []
    rwa [List.append_nil] at happend
  rw [Fuzzer.paint, String.toList_append, String.toList_append, List.append_assoc,
    subAnsi_sgr_append hon, subAnsi_plain_append hname, hnone, List.append_nil]

end MadKV.Sumgen
