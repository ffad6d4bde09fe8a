import MadKV.Runner.IoApi
import MadKV.Spec.Interface

/-!
# Framing of the response stream

Rendered blocks are read back one by one, with blank lines anywhere in between.
The terminator of a Scan block is compared with the trimmed line, so an entry
whose key is SCAN and whose value is END is taken for it: the blocks stay apart
exactly when no Scan has this entry.
-/

namespace MadKV.Wire

open Runner Support Spec

/-! ## Lines and their words -/

/-- The keys and values of a response. -/
def respArgs : KvResp → List String
  | .put key _ => [key]
  | .swap key oldValue => key :: oldValue.toList
  | .get key value => key :: value.toList
  | .scan keyStart keyEnd entries => keyStart :: keyEnd :: entries.flatMap fun e => [e.1, e.2]
  | .delete key _ => [key]
  | .stop => []

/-- The keys and values of a response are non-empty and free of whitespace. -/
def WellFormedResp (resp : KvResp) : Prop :=
  ∀ w ∈ respArgs resp, Token isWhitespace w.toList

instance (resp : KvResp) : Decidable (WellFormedResp resp) :=
  inferInstanceAs (Decidable (∀ w ∈ respArgs resp, Token isWhitespace w.toList))

/-- The words joined by single spaces. -/
def wordsLine (ws : List String) : List Char := [' '].intercalate (ws.map String.toList)

theorem splitWhitespace_line {ws : List String} (h : ∀ w ∈ ws, Token isWhitespace w.toList)
    {gap after : List Char} (hgap : Gap isWhitespace gap) (hafter : Gap isWhitespace after) :
    splitWhitespace (gap ++ (wordsLine ws ++ after)) = ws := by
  have hws : words isWhitespace (wordsLine ws) = ws.map String.toList :=
    words_intercalate (by decide) (by simpa using h)
  rw [splitWhitespace, words_gap_append hgap, words_append_gap hafter, hws]
  simp [Function.comp_def]

theorem newline_not_mem_line {ws : List String} (h : ∀ w ∈ ws, Token isWhitespace w.toList) :
    '\n' ∉ wordsLine ws := by
  intro hmem
  rcases mem_intercalate hmem with hspace | ⟨w, hw, hx⟩
  · exact absurd hspace (by decide)
  · obtain ⟨s, hs, rfl⟩ := List.mem_map.mp hw
    exact absurd ((h s hs).2 '\n' hx) (by decide)

/-! ## Blank lines in between -/

/-- The second list is the first with blank lines inserted anywhere. -/
inductive Padded : List String → List String → Prop
  | nil : Padded [] []
  | blank {b : String} {ls ts : List String} : Gap isWhitespace b.toList → '\n' ∉ b.toList →
      Padded ls ts → Padded ls (b :: ts)
  | line {l : String} {ls ts : List String} : Padded ls ts → Padded (l :: ls) (l :: ts)

theorem Padded.refl (ls : List String) : Padded ls ls := by
  induction ls with
  | nil => exact .nil
  | cons l ls ih => exact .line ih

theorem Padded.append {ls ls' ts ts' : List String} (h : Padded ls ts) (h' : Padded ls' ts') :
    Padded (ls ++ ls') (ts ++ ts') := by
  induction h with
  | nil => exact h'
  | blank hgap hnl _ ih => exact .blank hgap hnl ih
  | line _ ih => exact .line ih

theorem Padded.length_le {ls ts : List String} (h : Padded ls ts) : ls.length ≤ ts.length := by
  induction h with
  | nil => exact le_rfl
  | blank _ _ _ ih => exact Nat.le_succ_of_le ih
  | line _ ih => exact Nat.succ_le_succ ih

/-- The blank lines in front of the first line. -/
theorem Padded.cons_inv {l : String} {ls ts : List String} (h : Padded (l :: ls) ts) :
    ∃ blanks rest, ts = blanks ++ l :: rest ∧ Padded [] blanks ∧ Padded ls rest := by
  generalize hc : l :: ls = all at h
  induction h with
  | nil => cases hc
  | @blank b _ ts hgap hnl _ ih =>
    obtain ⟨blanks, rest, rfl, hblanks, hrest⟩ := ih hc
    exact ⟨b :: blanks, rest, rfl, .blank hgap hnl hblanks, hrest⟩
  | @line _ _ ts h _ =>
    cases hc
    exact ⟨[], ts, rfl, .nil, h⟩

theorem Padded.blank_of_nil {blanks : List String} (h : Padded [] blanks) :
    ∀ b ∈ blanks.map String.toList, Gap isWhitespace b ∧ '\n' ∉ b := by
  generalize hc : ([] : List String) = none at h
  induction h with
  | nil => simp
  | @blank b ls ts hgap hnl _ ih =>
    simpa using ⟨⟨hgap, hnl⟩, by simpa using ih hc⟩
  | line => cases hc

/-- The next line is read together with the blank lines in front of it. -/
theorem readNextLine_padded {l : String} {ls ts : List String} (h : Padded (l :: ls) ts)
    (hnl : '\n' ∉ l.toList) (hne : ¬ Gap isWhitespace l.toList) :
    ∃ blanks rest, ts = blanks ++ l :: rest ∧ Padded [] blanks ∧ Padded ls rest ∧
      ∃ gap, Gap isWhitespace gap ∧ ∀ fuel > blanks.length,
        KvResp.readNextLine fuel (bytes (unlines ts)) =
          some (.ok (gap ++ (l.toList ++ ['\n'])), bytes (unlines rest)) := by
  obtain ⟨blanks, rest, rfl, hblanks, hrest⟩ := h.cons_inv
  refine ⟨blanks, rest, rfl, hblanks, hrest, ?_⟩
  have htext : bytes (unlines (blanks ++ l :: rest)) =
      utf8 (joinLines '\n' (blanks.map String.toList) ++
        (l.toList ++ '\n' :: (unlines rest).toList)) := by
    simp [bytes, toList_unlines]
  have hread : ∀ fuel > blanks.length, ∃ gap, Gap isWhitespace gap ∧
      KvResp.readNextLine fuel (bytes (unlines (blanks ++ l :: rest))) =
        some (.ok (gap ++ (l.toList ++ ['\n'])), bytes (unlines rest)) := by
    intro fuel hfuel
    have hfuel' : (blanks.map String.toList).length < fuel := by simpa using hfuel
    obtain ⟨gap, size, hgap, hread⟩ :=
      readNonBlank_text gap_nil hblanks.blank_of_nil hnl hne hfuel'
    exact ⟨gap, hgap, by rw [KvResp.readNextLine, htext, hread]; rfl⟩
  obtain ⟨gap, hgap, hfirst⟩ := hread _ (Nat.lt_succ_self blanks.length)
  exact ⟨gap, hgap, fun fuel hfuel => KvResp.readNextLine_mono hfirst hfuel⟩

/-- Where nothing but blank lines is left, nothing is read. -/
theorem fromRead_blanks {ts : List String} (h : Padded [] ts) (fuel : ℕ) :
    KvResp.fromRead fuel (bytes (unlines ts)) = none := by
  have hblanks := @readNonBlank_blanks fuel _ _ gap_nil h.blank_of_nil
  rw [bytes, toList_unlines, KvResp.fromRead, KvResp.readNextLine, hblanks]

/-! ## Scan blocks -/

/-- An entry of a Scan, as the clients print it. -/
def entryLine (e : String × String) : String := "  " ++ e.1 ++ " " ++ e.2

/-- The one entry that looks like the end of a Scan block. -/
def terminator : String × String := ("SCAN", "END")

/-- The lines that the loop leaves unread: those after the first terminator. -/
def leftover : List (String × String) → List String → List String
  | [], more => more
  | e :: es, more =>
    if e = terminator then es.map entryLine ++ "SCAN END" :: more else leftover es more

theorem leftover_of_not_mem {es : List (String × String)} {more : List String}
    (h : terminator ∉ es) : leftover es more = more := by
  induction es with
  | nil => rfl
  | cons e es ih =>
    obtain ⟨hne, hrest⟩ := not_or.mp (mt List.mem_cons.mpr h)
    rw [leftover, if_neg (Ne.symm hne), ih hrest]

/-- The key and the value of an entry are words. -/
def EntryTokens (e : String × String) : Prop :=
  Token isWhitespace e.1.toList ∧ Token isWhitespace e.2.toList

theorem EntryTokens.forall_mem {e : String × String} (h : EntryTokens e) :
    ∀ w ∈ [e.1, e.2], Token isWhitespace w.toList := by
  simpa using (show Token isWhitespace e.1.toList ∧ Token isWhitespace e.2.toList from h)

theorem toList_entryLine (e : String × String) :
    (entryLine e).toList = [' ', ' '] ++ wordsLine [e.1, e.2] := by
  simp [entryLine, wordsLine]

theorem splitWhitespace_entryLine {e : String × String} (h : EntryTokens e) {gap after : List Char}
    (hgap : Gap isWhitespace gap) (hafter : Gap isWhitespace after) :
    splitWhitespace (gap ++ ((entryLine e).toList ++ after)) = [e.1, e.2] := by
  have hindent : Gap isWhitespace (gap ++ [' ', ' ']) := gap_append hgap (by decide)
  have hsegs := splitWhitespace_line h.forall_mem hindent hafter
  rw [toList_entryLine]
  simpa using hsegs

theorem not_gap_entryLine {e : String × String} (h : EntryTokens e) :
    ¬ Gap isWhitespace (entryLine e).toList := by
  intro hgap
  have hwords := splitWhitespace_entryLine h gap_nil gap_nil
  simp [splitWhitespace, words_gap hgap] at hwords

theorem expectEntry_line {e : String × String} (h : EntryTokens e) {gap : List Char}
    (hgap : Gap isWhitespace gap) :
    KvResp.expectEntry (gap ++ ((entryLine e).toList ++ ['\n'])) = .ok e := by
  have hsegs := splitWhitespace_entryLine h hgap (by decide : Gap isWhitespace ['\n'])
  simp [KvResp.expectEntry, KvResp.getSegsOfLine, hsegs, KvResp.expectNextSeg, bind, Except.bind]

/-- The comparison with the terminator is a comparison of entries. -/
theorem trim_entryLine {e : String × String} (h : EntryTokens e) {gap : List Char}
    (hgap : Gap isWhitespace gap) :
    trim isWhitespace (gap ++ ((entryLine e).toList ++ ['\n'])) = "SCAN END".toList ↔
      e = terminator := by
  have hindent : Gap isWhitespace (gap ++ [' ', ' ']) := gap_append hgap (by decide)
  have hcore : Trimmed isWhitespace (wordsLine [e.1, e.2]) := by
    simpa [wordsLine] using h.1.trimmed.append h.2.trimmed [' ']
  have htrim : trim isWhitespace (gap ++ ((entryLine e).toList ++ ['\n'])) =
      wordsLine [e.1, e.2] := by
    rw [toList_entryLine]
    simpa using trim_gaps hindent hcore (by decide : Gap isWhitespace ['\n'])
  rw [htrim]
  constructor
  · intro heq
    have hwords := splitWhitespace_line h.forall_mem gap_nil
      gap_nil
    rw [heq] at hwords
    have hsame : [e.1, e.2] = ["SCAN", "END"] := hwords.symm.trans (by decide)
    simpa [terminator, Prod.ext_iff] using hsame
  · rintro rfl
    decide

theorem newline_not_mem_entryLine {e : String × String} (h : EntryTokens e) :
    '\n' ∉ (entryLine e).toList := by
  have hline : '\n' ∉ wordsLine [e.1, e.2] := newline_not_mem_line h.forall_mem
  simp [toList_entryLine, hline]

/-- The lines, with blank lines in front of each of them but none behind the last. -/
def Block (ls block : List String) : Prop :=
  Padded ls block ∧ block.getLast? = ls.getLast?

theorem block_line {blanks : List String} (hblanks : Padded [] blanks) (l : String) :
    Block [l] (blanks ++ [l]) :=
  ⟨hblanks.append (.refl [l]), by simp⟩

theorem Block.cons {blanks ls block : List String} (hblanks : Padded [] blanks) (l : String)
    (hne : ls ≠ []) (h : Block ls block) : Block (l :: ls) (blanks ++ l :: block) := by
  refine ⟨hblanks.append (.line h.1), ?_⟩
  obtain ⟨last, hlast⟩ := Option.ne_none_iff_exists'.mp (mt List.getLast?_eq_none_iff.mp hne)
  rw [List.getLast?_append, List.getLast?_cons, List.getLast?_cons, h.2, hlast]
  rfl

/-- The loop reads the entries before the first terminator, and its line. -/
theorem scanLoop_padded {es : List (String × String)} {more ts : List String}
    (hes : ∀ e ∈ es, EntryTokens e) (h : Padded (es.map entryLine ++ "SCAN END" :: more) ts) :
    ∃ block rest, ts = block ++ rest ∧ Padded (leftover es more) rest ∧
      (terminator ∉ es → Block (es.map entryLine ++ ["SCAN END"]) block) ∧
      ∃ enough, ∀ fuel ≥ enough, ∀ acc, KvResp.scanLoop fuel acc (bytes (unlines ts)) =
        some (.ok (acc ++ es.takeWhile (· ≠ terminator)), bytes (unlines rest)) := by
  induction es generalizing ts with
  | nil =>
    obtain ⟨blanks, rest, rfl, hblanks, hrest, gap, hgap, hread⟩ :=
      readNextLine_padded h (by decide) (by decide)
    have hend : trim isWhitespace (gap ++ ("SCAN END".toList ++ ['\n'])) = "SCAN END".toList := by
      rw [trim_gap_append hgap]
      decide
    refine ⟨blanks ++ ["SCAN END"], rest, by simp, hrest, fun _ => block_line hblanks _,
      blanks.length + 1, fun fuel hfuel acc => ?_⟩
    obtain ⟨fuel, rfl⟩ : ∃ k, fuel = k + 1 := ⟨fuel - 1, by omega⟩
    rw [KvResp.scanLoop, hread (fuel + 1) hfuel]
    simp only [hend, ↓reduceIte]
    simp
  | cons e es ih =>
    have he : EntryTokens e := hes e (by simp)
    obtain ⟨blanks, rest, rfl, hblanks, hrest, gap, hgap, hread⟩ :=
      readNextLine_padded h (newline_not_mem_entryLine he) (not_gap_entryLine he)
    have htrim := trim_entryLine he hgap
    by_cases hterm : e = terminator
    · refine ⟨blanks ++ [entryLine e], rest, by simp, ?_, fun hnot => absurd (by simp [hterm]) hnot,
        blanks.length + 1, fun fuel hfuel acc => ?_⟩
      · rw [leftover, if_pos hterm]
        exact hrest
      · obtain ⟨fuel, rfl⟩ : ∃ k, fuel = k + 1 := ⟨fuel - 1, by omega⟩
        rw [KvResp.scanLoop, hread (fuel + 1) hfuel]
        simp only [htrim.mpr hterm, ↓reduceIte]
        simp [hterm]
    · obtain ⟨block, rest', rfl, hrest', hblock, enough, hloop⟩ :=
        ih (fun e' he' => hes e' (by simp [he'])) hrest
      refine ⟨blanks ++ entryLine e :: block, rest', by simp, ?_, fun hnot => ?_,
        max blanks.length enough + 1, fun fuel hfuel acc => ?_⟩
      · rw [leftover, if_neg hterm]
        exact hrest'
      · exact Block.cons hblanks _ (by simp) (hblock fun hmem => hnot (by simp [hmem]))
      · obtain ⟨fuel, rfl⟩ : ∃ k, fuel = k + 1 := ⟨fuel - 1, by omega⟩
        rw [KvResp.scanLoop, hread (fuel + 1) (by omega)]
        simp only [mt htrim.mp hterm, ↓reduceIte, expectEntry_line he hgap]
        rw [hloop fuel (by omega)]
        simp [hterm]

/-! ## Whole responses -/

/-- The words of the first line of a block. -/
def headWords : KvResp → List String
  | .put key found => ["PUT", key, foundText found]
  | .swap key oldValue => ["SWAP", key, valueText oldValue]
  | .get key value => ["GET", key, valueText value]
  | .scan keyStart keyEnd _ => ["SCAN", keyStart, keyEnd, "BEGIN"]
  | .delete key found => ["DELETE", key, foundText found]
  | .stop => ["STOP"]

/-- The other lines of a block. -/
def tailLines : KvResp → List String
  | .scan _ _ entries => entries.map entryLine ++ ["SCAN END"]
  | _ => []

theorem respLines_eq (resp : KvResp) :
    respLines resp = String.ofList (wordsLine (headWords resp)) :: tailLines resp := by
  cases resp <;>
    simp [respLines, headWords, tailLines, wordsLine, entryLine, ← String.toList_inj]

theorem foundText_token : ∀ found, Token isWhitespace (foundText found).toList := by decide

theorem valueText_token {value : Option String}
    (h : ∀ v ∈ value, Token isWhitespace v.toList) :
    Token isWhitespace (valueText value).toList := by
  cases value with
  | none => decide
  | some v => exact h v rfl

theorem WellFormedResp.headWords {resp : KvResp} (h : WellFormedResp resp) :
    ∀ w ∈ headWords resp, Token isWhitespace w.toList := by
  have hkeyword : ∀ w ∈ ["PUT", "SWAP", "GET", "SCAN", "BEGIN", "DELETE", "STOP"],
      Token isWhitespace w.toList := by decide
  have hargs : ∀ w ∈ respArgs resp, Token isWhitespace w.toList := h
  cases resp <;> simp_all [Wire.headWords, respArgs, foundText_token, valueText_token]

theorem WellFormedResp.entries {keyStart keyEnd : String} {entries : List (String × String)}
    (h : WellFormedResp (.scan keyStart keyEnd entries)) : ∀ e ∈ entries, EntryTokens e := by
  intro e he
  have hmem : ∀ w ∈ [e.1, e.2], w ∈ respArgs (.scan keyStart keyEnd entries) := fun w hw =>
    .tail _ (.tail _ (List.mem_flatMap.mpr ⟨e, he, hw⟩))
  exact ⟨h _ (hmem _ (by simp)), h _ (hmem _ (by simp))⟩

/-- The response as it is read back: null stands for no value, and the entries of
a Scan end at the first terminator. -/
def reread : KvResp → KvResp
  | .swap key oldValue => .swap key (oldValue.filter (· ≠ "null"))
  | .get key value => .get key (value.filter (· ≠ "null"))
  | .scan keyStart keyEnd entries => .scan keyStart keyEnd (entries.takeWhile (· ≠ terminator))
  | resp => resp

/-- The lines that the reading of a response leaves unread. -/
def respLeftover : KvResp → List String → List String
  | .scan _ _ entries, more => leftover entries more
  | _, more => more

/-- No entry of the response looks like the end of its block. -/
def Unterminated : KvResp → Prop
  | .scan _ _ entries => terminator ∉ entries
  | _ => True

/-- Same kind, same keys, and for a Scan the same entries. -/
def SameShape : KvResp → KvResp → Prop
  | .put key _, .put key' _ => key' = key
  | .swap key _, .swap key' _ => key' = key
  | .get key _, .get key' _ => key' = key
  | .scan keyStart keyEnd entries, .scan keyStart' keyEnd' entries' =>
    keyStart' = keyStart ∧ keyEnd' = keyEnd ∧ entries' = entries
  | .delete key _, .delete key' _ => key' = key
  | .stop, .stop => True
  | _, _ => False

theorem sameShape_reread (resp : KvResp) : SameShape resp (reread resp) ↔ Unterminated resp := by
  cases resp with
  | scan keyStart keyEnd entries =>
    simp only [SameShape, reread, Unterminated, true_and, List.takeWhile_eq_self_iff,
      decide_eq_true_eq]
    exact ⟨fun h hmem => h _ hmem rfl, fun h e he heq => h (heq ▸ he)⟩
  | _ => simp [SameShape, reread, Unterminated]

/-- The first line of a block decides what is read, up to the entries of a Scan. -/
theorem fromLine_head (resp : KvResp) {buffer : List Char}
    (h : splitWhitespace buffer = headWords resp) (fuel : ℕ) (reader : List UInt8) :
    KvResp.fromLine fuel buffer reader = match resp with
      | .scan keyStart keyEnd _ =>
        (KvResp.scanLoop fuel [] reader).map fun result =>
          (result.1.map fun entries => .scan keyStart keyEnd entries, result.2)
      | resp => some (.ok (reread resp), reader) := by
  cases resp with
  | scan keyStart keyEnd entries => exact KvResp.fromLine_scan h
  | stop => simp [KvResp.fromLine, KvResp.getSegsOfLine, h, headWords, reread]
  | put key found =>
    cases found <;> simp [KvResp.fromLine, KvResp.getSegsOfLine, h, headWords, reread,
      KvResp.expectFound, KvResp.expectNextSeg, foundText, bind, Except.bind, Except.map]
  | delete key found =>
    cases found <;> simp [KvResp.fromLine, KvResp.getSegsOfLine, h, headWords, reread,
      KvResp.expectFound, KvResp.expectNextSeg, foundText, bind, Except.bind, Except.map]
  | swap key oldValue =>
    cases oldValue <;> simp [KvResp.fromLine, KvResp.getSegsOfLine, h, headWords, reread,
      KvResp.expectValue, KvResp.expectNextSeg, valueText, bind, Except.bind, Except.map,
      Option.filter]
  | get key value =>
    cases value <;> simp [KvResp.fromLine, KvResp.getSegsOfLine, h, headWords, reread,
      KvResp.expectValue, KvResp.expectNextSeg, valueText, bind, Except.bind, Except.map,
      Option.filter]

/-- Reading a rendered response gives it back, up to `reread`. -/
theorem fromRead_padded {resp : KvResp} {more ts : List String} (hwf : WellFormedResp resp)
    (h : Padded (respLines resp ++ more) ts) :
    ∃ block rest, ts = block ++ rest ∧ Padded (respLeftover resp more) rest ∧
      (Unterminated resp → Block (respLines resp) block) ∧
      ∃ enough, ∀ fuel ≥ enough,
        KvResp.fromRead fuel (bytes (unlines ts)) =
          some (.ok (reread resp), bytes (unlines rest)) := by
  have hhead := hwf.headWords
  rw [respLines_eq] at h
  have hne : ¬ Gap isWhitespace (wordsLine (headWords resp)) := by
    intro hgap
    have hwords := splitWhitespace_line hhead gap_nil gap_nil
    rw [List.nil_append, List.append_nil, splitWhitespace, words_gap hgap] at hwords
    cases resp <;> simp [headWords] at hwords
  obtain ⟨blanks, rest, rfl, hblanks, hrest, gap, hgap, hread⟩ :=
    readNextLine_padded h (by simpa using newline_not_mem_line hhead) (by simpa using hne)
  have hsegs := splitWhitespace_line hhead hgap (by decide : Gap isWhitespace ['\n'])
  rw [String.toList_ofList] at hread
  have hline := fun fuel => fromLine_head resp hsegs fuel (bytes (unlines rest))
  rw [respLines_eq]
  cases resp with
  | scan keyStart keyEnd entries =>
    have hrest' : Padded (entries.map entryLine ++ "SCAN END" :: more) rest := by
      simpa [tailLines] using hrest
    obtain ⟨block, rest', rfl, hleft, hblock, enough, hloop⟩ := scanLoop_padded hwf.entries hrest'
    refine ⟨blanks ++ _ :: block, rest', by simp, hleft,
      fun hun => Block.cons hblanks _ (by simp [tailLines]) (hblock hun),
      max blanks.length enough + 1, fun fuel hfuel => ?_⟩
    rw [KvResp.fromRead, hread fuel (by omega)]
    simp only [hline, hloop fuel (by omega)]
    simp [reread, Except.map]
  | _ =>
    refine ⟨blanks ++ [_], rest, by simp, hrest, fun _ => block_line hblanks _,
      blanks.length + 1, fun fuel hfuel => ?_⟩
    rw [KvResp.fromRead, hread fuel (by omega)]
    exact hline fuel

/-- A rendered response on its own is read to its end. -/
theorem fromRead_render {resp : KvResp} (hwf : WellFormedResp resp) (hun : Unterminated resp) :
    ∃ fuel, KvResp.fromRead fuel (bytes (render resp)) = some (.ok (reread resp), []) := by
  have hpad : Padded (respLines resp ++ []) (respLines resp) := by
    rw [List.append_nil]
    exact .refl _
  obtain ⟨block, rest, hsplit, _, hblock, enough, hread⟩ := fromRead_padded hwf hpad
  have hrest : rest = [] := by
    have hle := (hblock hun).1.length_le
    rw [hsplit, List.length_append] at hle
    exact List.length_eq_zero_iff.mp (by omega)
  subst hrest
  exact ⟨enough, hread enough le_rfl⟩

/-- Reading once per response consumes the lines of that response and what is
blank before them, and gives back its kind, its keys and its entries. -/
inductive Framed : List KvResp → List String → Prop
  | done {ts : List String} : Padded [] ts → Framed [] ts
  | read {resp got : KvResp} {resps : List KvResp} {block rest : List String} {fuel : ℕ} :
      Block (respLines resp) block →
      KvResp.fromRead fuel (bytes (unlines (block ++ rest))) =
        some (.ok got, bytes (unlines rest)) →
      SameShape resp got → Framed resps rest → Framed (resp :: resps) (block ++ rest)

theorem framed_of_unterminated {resps : List KvResp} {ts : List String}
    (hwf : ∀ resp ∈ resps, WellFormedResp resp) (h : Padded (resps.flatMap respLines) ts)
    (hun : ∀ resp ∈ resps, Unterminated resp) : Framed resps ts := by
  induction resps generalizing ts with
  | nil => exact .done h
  | cons resp resps ih =>
    have hresp : Unterminated resp := hun resp (by simp)
    rw [List.flatMap_cons] at h
    obtain ⟨block, rest, rfl, hrest, hblock, enough, hread⟩ :=
      fromRead_padded (hwf resp (by simp)) h
    have hleft : Padded (resps.flatMap respLines) rest := by
      cases resp with
      | scan keyStart keyEnd entries =>
        rw [respLeftover, leftover_of_not_mem hresp] at hrest
        exact hrest
      | _ => exact hrest
    exact .read (hblock hresp) (hread enough le_rfl) ((sameShape_reread resp).mpr hresp)
      (ih (fun r hr => hwf r (by simp [hr])) hleft fun r hr => hun r (by simp [hr]))

theorem Framed.unterminated {resps : List KvResp} {ts : List String}
    (hwf : ∀ resp ∈ resps, WellFormedResp resp) (h : Framed resps ts) :
    ∀ resp ∈ resps, Unterminated resp := by
  induction h with
  | done => simp
  | @read resp got resps block rest fuel hblock hread hshape _ ih =>
    intro r hr
    rcases List.mem_cons.mp hr with rfl | hr
    · obtain ⟨block', rest', _, _, _, enough, hread'⟩ :=
        fromRead_padded (hwf r (by simp)) (hblock.1.append (.refl rest))
      have hsame := KvResp.fromRead_det (hread' enough le_rfl) hread
      have hgot : reread r = got := by simpa using congrArg Prod.fst hsame
      exact (sameShape_reread r).mp (hgot ▸ hshape)
    · exact ih (fun r' hr' => hwf r' (by simp [hr'])) r hr

/-- The blocks of a stream of responses stay apart exactly when no Scan has the
entry that looks like the end of its block. -/
theorem framing_iff {resps : List KvResp} {ts : List String}
    (hwf : ∀ resp ∈ resps, WellFormedResp resp) (h : Padded (resps.flatMap respLines) ts) :
    Framed resps ts ↔ ∀ keyStart keyEnd entries,
      .scan keyStart keyEnd entries ∈ resps → ("SCAN", "END") ∉ entries := by
  constructor
  · intro hf keyStart keyEnd entries hmem
    exact hf.unterminated hwf _ hmem
  · intro hscan
    refine framed_of_unterminated hwf h fun resp hresp => ?_
    cases resp with
    | scan keyStart keyEnd entries => exact hscan keyStart keyEnd entries hresp
    | _ => trivial

/-- Blank lines before a block and inside it. -/
theorem framing_iff_blankLines :
    Framed [.scan "a" "z" [("k", "v")], .get "k" none]
      ["", "SCAN a z BEGIN", "  k v", " ", "SCAN END", "GET k null"] := by
  refine (framing_iff (by decide) ?_).mpr ?_
  · exact .blank (by decide) (by decide) <| .line <| .line <|
      .blank (by decide) (by decide) <| .line <| .line .nil
  · intro keyStart keyEnd entries h
    obtain ⟨_, _, rfl⟩ : keyStart = "a" ∧ keyEnd = "z" ∧ entries = [("k", "v")] := by simpa using h
    decide

/-- A Scan over an entry that looks like the end of its block. -/
def endEntry : List KvResp := [.scan "A" "Z" [("SCAN", "END")], .stop]

theorem terminator_entry_not_framed :
    (∀ resp ∈ endEntry, WellFormedResp resp) ∧
      ¬ Framed endEntry (endEntry.flatMap respLines) := by
  have hwf : ∀ resp ∈ endEntry, WellFormedResp resp := by decide
  exact ⟨hwf, fun hf => hf.unterminated hwf (.scan "A" "Z" [("SCAN", "END")]) (by decide)
    (by decide)⟩

end MadKV.Wire
