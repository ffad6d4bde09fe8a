import MadKV.Support.Text
import MadKV.Support.Utf8

/-!
# Reading lines

`BufRead::read_line` and the loop both the runner and the reference client wrap
around it: read on until the buffer holds more than whitespace. The loop looks
at the buffer only, never at the number of bytes read, so it has no exit at the
end of the input; `fuel` bounds its rounds, and `none` means still reading.
-/

namespace MadKV.Runner

open Support

/-- `char::is_whitespace`: the Unicode property White_Space. -/
def isWhitespace (c : Char) : Bool :=
  let n := c.toNat
  (9 ≤ n && n ≤ 13) || n = 0x20 || n = 0x85 || n = 0xa0 || n = 0x1680 ||
    (0x2000 ≤ n && n ≤ 0x200a) || n = 0x2028 || n = 0x2029 || n = 0x202f || n = 0x205f ||
    n = 0x3000

def splitWhitespace (text : List Char) : List String :=
  (words isWhitespace text).map String.ofList

theorem token_of_mem_splitWhitespace {text : List Char} {w : String}
    (h : w ∈ splitWhitespace text) : Token isWhitespace w.toList := by
  obtain ⟨word, hword, rfl⟩ := List.mem_map.mp h
  rw [String.toList_ofList]
  exact token_of_mem_words hword

theorem splitWhitespace_gap_append {gap : List Char} (h : Gap isWhitespace gap)
    (text : List Char) : splitWhitespace (gap ++ text) = splitWhitespace text := by
  rw [splitWhitespace, words_gap_append h, splitWhitespace]

/-- Append the next line, its newline included, to the buffer, and return the
number of bytes read: 0 at the end of the input. -/
def readLine (stream : List UInt8) (buffer : List Char) :
    Except String (ℕ × List Char) × List UInt8 :=
  let (line, rest) := cutLine 10 stream
  match ofUtf8? line with
  | none => (.error "stream did not contain valid UTF-8", rest)
  | some text => (.ok (line.length, buffer ++ text), rest)

/-- Read lines until the buffer is not blank. -/
def readNonBlank : ℕ → List UInt8 → List Char →
    Option (Except String (ℕ × List Char) × List UInt8)
  | 0, _, _ => none
  | fuel + 1, stream, buffer =>
    match readLine stream buffer with
    | (.error err, rest) => some (.error err, rest)
    | (.ok (size, buffer), rest) =>
      -- skip empty lines
      if trim isWhitespace buffer = [] then readNonBlank fuel rest buffer
      else some (.ok (size, buffer), rest)

theorem readNonBlank_mono {fuel fuel' : ℕ} {stream : List UInt8} {buffer : List Char}
    {result : Except String (ℕ × List Char) × List UInt8}
    (h : readNonBlank fuel stream buffer = some result) (hle : fuel ≤ fuel') :
    readNonBlank fuel' stream buffer = some result := by
  induction fuel generalizing fuel' stream buffer with
  | zero => simp [readNonBlank] at h
  | succ fuel ih =>
    obtain ⟨fuel', rfl⟩ : ∃ k, fuel' = k + 1 := ⟨fuel' - 1, by omega⟩
    unfold readNonBlank at h ⊢
    match hr : readLine stream buffer with
    | (.error err, rest) => simpa [hr] using h
    | (.ok (size, buffer'), rest) =>
      simp only [hr] at h ⊢
      split_ifs at h ⊢ with hblank
      · exact ih h (by omega)
      · exact h

/-! ## Where the loop stops -/

theorem gap_append {a b : List Char} (ha : Gap isWhitespace a) (hb : Gap isWhitespace b) :
    Gap isWhitespace (a ++ b) := by
  intro c hc
  rcases List.mem_append.mp hc with hc | hc
  · exact ha c hc
  · exact hb c hc

theorem gap_newline {line : List Char} (h : Gap isWhitespace line) :
    Gap isWhitespace (line ++ ['\n']) :=
  gap_append h (by decide)

/-- A line, as it stands in the stream, that the loop does not skip. -/
def Stops (piece : List UInt8) : Prop :=
  ∀ text, ofUtf8? piece = some text → ¬ Gap isWhitespace text

theorem readNonBlank_end {fuel : ℕ} {buffer : List Char} (hb : Gap isWhitespace buffer) :
    readNonBlank fuel [] buffer = none := by
  induction fuel generalizing buffer with
  | zero => rfl
  | succ fuel ih =>
    have hread : readLine [] buffer = (.ok (0, buffer), []) := by
      have hempty : ofUtf8? [] = some [] := ofUtf8?_utf8 []
      simp [readLine, cutLine, hempty]
    simp [readNonBlank, hread, trim_eq_nil_iff.mpr hb, ih hb]

/-- A blank line is skipped and stays in the buffer. -/
theorem readNonBlank_skip {fuel : ℕ} {stream : List UInt8} {buffer text : List Char}
    (hb : Gap isWhitespace buffer) (hline : ofUtf8? (cutLine 10 stream).1 = some text)
    (ht : Gap isWhitespace text) :
    readNonBlank (fuel + 1) stream buffer =
      readNonBlank fuel (cutLine 10 stream).2 (buffer ++ text) := by
  simp [readNonBlank, readLine, hline, trim_eq_nil_iff.mpr (gap_append hb ht)]

/-- A line that is not blank ends the loop. -/
theorem readNonBlank_found {fuel : ℕ} {stream : List UInt8} {buffer text : List Char}
    (hline : ofUtf8? (cutLine 10 stream).1 = some text) (ht : ¬ Gap isWhitespace text) :
    readNonBlank (fuel + 1) stream buffer =
      some (.ok ((cutLine 10 stream).1.length, buffer ++ text), (cutLine 10 stream).2) := by
  have hgap : trim isWhitespace (buffer ++ text) ≠ [] := fun h =>
    ht fun c hc => trim_eq_nil_iff.mp h c (List.mem_append_right buffer hc)
  simp [readNonBlank, readLine, hline, hgap]

/-- So does one that is not valid text. -/
theorem readNonBlank_invalid {fuel : ℕ} {stream : List UInt8} {buffer : List Char}
    (hline : ofUtf8? (cutLine 10 stream).1 = none) :
    readNonBlank (fuel + 1) stream buffer =
      some (.error "stream did not contain valid UTF-8", (cutLine 10 stream).2) := by
  simp [readNonBlank, readLine, hline]

theorem not_stops {piece : List UInt8} (h : ¬ Stops piece) :
    ∃ text, ofUtf8? piece = some text ∧ Gap isWhitespace text := by
  simpa [Stops] using h

/-- A stream of blank lines is read to its end, and then forever. -/
theorem readNonBlank_never {fuel : ℕ} {stream : List UInt8} {buffer : List Char}
    (hb : Gap isWhitespace buffer) (h : ∀ piece ∈ pieces 10 stream, ¬ Stops piece) :
    readNonBlank fuel stream buffer = none := by
  induction fuel generalizing stream buffer with
  | zero => rfl
  | succ fuel ih =>
    cases hp : pieces 10 stream with
    | nil =>
      rw [pieces_eq_nil_iff.mp hp]
      exact readNonBlank_end hb
    | cons piece rest =>
      obtain ⟨hpiece, hrest⟩ := pieces_eq_cons hp
      obtain ⟨text, htext, hgap⟩ := not_stops (h piece (by simp [hp]))
      rw [readNonBlank_skip hb (hpiece ▸ htext) hgap]
      exact ih (gap_append hb hgap) fun b hb => h b (by simp [hp, hrest ▸ hb])

/-- The first line that is not skipped decides the result. -/
theorem readNonBlank_first {fuel : ℕ} {stream : List UInt8} {buffer : List Char}
    {before after : List (List UInt8)} {piece : List UInt8} (hb : Gap isWhitespace buffer)
    (hsplit : pieces 10 stream = before ++ piece :: after) (hbefore : ∀ b ∈ before, ¬ Stops b)
    (hstops : Stops piece) (hfuel : before.length < fuel) :
    ∃ rest, pieces 10 rest = after ∧
      (ofUtf8? piece = none → ∃ err, readNonBlank fuel stream buffer = some (.error err, rest)) ∧
      ∀ text, ofUtf8? piece = some text → ∃ gap size, Gap isWhitespace gap ∧
        readNonBlank fuel stream buffer = some (.ok (size, gap ++ text), rest) := by
  obtain ⟨fuel, rfl⟩ : ∃ k, fuel = k + 1 := ⟨fuel - 1, by omega⟩
  induction before generalizing fuel stream buffer with
  | nil =>
    obtain ⟨hpiece, hrest⟩ := pieces_eq_cons hsplit
    refine ⟨_, hrest, fun hnone => ⟨_, readNonBlank_invalid (hpiece ▸ hnone)⟩, fun text htext => ?_⟩
    exact ⟨buffer, _, hb, readNonBlank_found (hpiece ▸ htext) (hstops text htext)⟩
  | cons b before ih =>
    obtain ⟨hpiece, hrest⟩ := pieces_eq_cons hsplit
    obtain ⟨text, htext, hgap⟩ := not_stops (hbefore b (by simp))
    obtain ⟨fuel, rfl⟩ : ∃ k, fuel = k + 1 := ⟨fuel - 1, by simp at hfuel; omega⟩
    rw [readNonBlank_skip hb (hpiece ▸ htext) hgap]
    exact ih (gap_append hb hgap) hrest (fun c hc => hbefore c (by simp [hc])) fuel
      (by simpa using hfuel)

/-! ## Reading encoded text -/

theorem cutLine_utf8 {line : List Char} (h : '\n' ∉ line) (rest : List Char) :
    cutLine 10 (utf8 (line ++ '\n' :: rest)) = (utf8 (line ++ ['\n']), utf8 rest) := by
  have hcut := cutLine_terminated (mt newline_mem_utf8.mp h) (utf8 rest)
  have hsplit : utf8 (line ++ '\n' :: rest) = utf8 line ++ 10 :: utf8 rest := by
    rw [utf8_append, ← List.singleton_append, utf8_append, utf8_newline]
    rfl
  rw [hsplit, hcut, utf8_append, utf8_newline]

/-- Blank lines alone keep the loop going. -/
theorem readNonBlank_blanks {fuel : ℕ} {blanks : List (List Char)} {buffer : List Char}
    (hb : Gap isWhitespace buffer) (hblanks : ∀ b ∈ blanks, Gap isWhitespace b ∧ '\n' ∉ b) :
    readNonBlank fuel (utf8 (joinLines '\n' blanks)) buffer = none := by
  induction blanks generalizing fuel buffer with
  | nil => exact readNonBlank_end hb
  | cons b blanks ih =>
    cases fuel with
    | zero => rfl
    | succ fuel =>
      obtain ⟨hgap, hnl⟩ := hblanks b (by simp)
      have hcut := cutLine_utf8 hnl (joinLines '\n' blanks)
      rw [joinLines_cons, readNonBlank_skip hb (by rw [hcut, ofUtf8?_utf8]) (gap_newline hgap),
        hcut]
      exact ih (gap_append hb (gap_newline hgap)) fun b hb => hblanks b (by simp [hb])

/-- Blank lines before a line that is not blank end up in front of it in the buffer. -/
theorem readNonBlank_text {fuel : ℕ} {blanks : List (List Char)} {line rest buffer : List Char}
    (hb : Gap isWhitespace buffer) (hblanks : ∀ b ∈ blanks, Gap isWhitespace b ∧ '\n' ∉ b)
    (hline : '\n' ∉ line) (hne : ¬ Gap isWhitespace line) (hfuel : blanks.length < fuel) :
    ∃ gap size, Gap isWhitespace gap ∧
      readNonBlank fuel (utf8 (joinLines '\n' blanks ++ (line ++ '\n' :: rest))) buffer =
        some (.ok (size, gap ++ (line ++ ['\n'])), utf8 rest) := by
  induction blanks generalizing fuel buffer with
  | nil =>
    obtain ⟨fuel, rfl⟩ : ∃ k, fuel = k + 1 := ⟨fuel - 1, by simp at hfuel; omega⟩
    have hcut := cutLine_utf8 hline rest
    have htext : ofUtf8? (cutLine 10 (utf8 (line ++ '\n' :: rest))).1 = some (line ++ ['\n']) := by
      rw [hcut, ofUtf8?_utf8]
    have hfound : ¬ Gap isWhitespace (line ++ ['\n']) := fun h => hne fun c hc => h c (by simp [hc])
    refine ⟨buffer, (utf8 (line ++ ['\n'])).length, hb, ?_⟩
    rw [joinLines_nil, List.nil_append, readNonBlank_found htext hfound, hcut]
  | cons b blanks ih =>
    obtain ⟨hgap, hnl⟩ := hblanks b (by simp)
    obtain ⟨fuel, rfl⟩ : ∃ k, fuel = k + 1 := ⟨fuel - 1, by simp at hfuel; omega⟩
    have hcut := cutLine_utf8 hnl (joinLines '\n' blanks ++ (line ++ '\n' :: rest))
    have hsplit : joinLines '\n' (b :: blanks) ++ (line ++ '\n' :: rest) =
        b ++ '\n' :: (joinLines '\n' blanks ++ (line ++ '\n' :: rest)) := by simp
    rw [hsplit, readNonBlank_skip hb (by rw [hcut, ofUtf8?_utf8]) (gap_newline hgap), hcut]
    exact ih (gap_append hb (gap_newline hgap)) (fun b hb => hblanks b (by simp [hb]))
      (by simpa using hfuel)

end MadKV.Runner
