import MadKV.Bencher.Stats
import MadKV.Sumgen.ParseBench

/-!
# Printed lines, as the report sees them

Both sides meet at the words of a line: the printer puts separators between
them, whatever the widths of its columns, and the parser counts them from the
end. Marks such as `[Run]` are words themselves, so that a line contains one
exactly when one of its words does.
-/

namespace MadKV.Sumgen

open Runner Support Spec Bencher

/-! ## Texts in columns -/

/-- A single word that contains none of the parser's marks. -/
structure Plain (s : String) : Prop where
  word : Token isspace s.toList
  not_throughput : ¬ "Throughput".toList <:+: s.toList
  not_run : ¬ "[Run]".toList <:+: s.toList

theorem plain_of_forall {s : String} (hne : s ≠ "")
    (h : ∀ c ∈ s.toList, isspace c = false ∧ c ≠ 'T' ∧ c ≠ '[') : Plain s where
  word := ⟨by simpa using hne, fun c hc => (h c hc).1⟩
  not_throughput := fun hinside => (h 'T' (hinside.subset (by simp))).2.1 rfl
  not_run := fun hinside => (h '[' (hinside.subset (by simp))).2.2 rfl

theorem isDigit_plain {c : Char} (h : c.isDigit = true) :
    isspace c = false ∧ c ≠ 'T' ∧ c ≠ '[' := by
  have hrange : 48 ≤ c.toNat ∧ c.toNat ≤ 57 := by
    simpa [Char.isDigit, UInt32.le_iff_toNat_le] using h
  refine ⟨?_, ?_, ?_⟩
  · simp only [isspace, isWhitespace, Bool.or_eq_false_iff, Bool.and_eq_false_iff,
      decide_eq_false_iff_not]
    omega
  · rintro rfl
    simp at hrange
  · rintro rfl
    simp at hrange

theorem plain_toString (n : ℕ) : Plain (toString n) := by
  rw [Nat.toString_eq_repr]
  refine plain_of_forall Nat.repr_ne_empty fun c hc => ?_
  rw [Nat.toList_repr] at hc
  exact isDigit_plain (Nat.isDigit_of_mem_toDigits (by decide) (by decide) hc)

theorem gap_spaces (n : ℕ) : Gap isspace (spaces n).toList := by
  intro c hc
  rw [spaces, String.toList_ofList] at hc
  rw [List.eq_of_mem_replicate hc]
  decide

theorem words_padLeft (width : ℕ) {text : String} (h : Token isspace text.toList) :
    words isspace (padLeft width text).toList = [text.toList] := by
  rw [padLeft, String.toList_append, words_gap_append (gap_spaces _), words_token h]

theorem words_padRight (width : ℕ) {text : String} (h : Token isspace text.toList) :
    words isspace (padRight width text).toList = [text.toList] := by
  rw [padRight, String.toList_append, words_append_gap (gap_spaces _), words_token h]

/-! ## The line of an operation -/

/-- The words on the line of an operation, apart from a label in front of them. -/
def rowWords (row : Row) : List String :=
  [row.op, "ops", row.ops, "avg", row.avg, "min", row.min, "max", row.max, "p99", row.p99, "us"]

/-- The texts of a row that the printer did not write itself. -/
def rowTexts (row : Row) : List String := [row.op, row.ops, row.avg, row.min, row.max, row.p99]

theorem forall_rowTexts {P : String → Prop} {row : Row} : (∀ text ∈ rowTexts row, P text) ↔
    P row.op ∧ P row.ops ∧ P row.avg ∧ P row.min ∧ P row.max ∧ P row.p99 := by
  simp [rowTexts]

/-- The words that the printer writes itself. -/
def rowLits : List String := ["Latency:", "ops", "avg", "min", "max", "p99", "us"]

theorem words_rowLine {row : Row} (h : ∀ text ∈ rowTexts row, Plain text) (i : ℕ) :
    words isspace (row.line i).toList =
      (if i = 0 then ["Latency:".toList] else []) ++ (rowWords row).map String.toList := by
  obtain ⟨hop, hops, havg, hmin, hmax, hp99⟩ := forall_rowTexts.mp h
  have hlabel : words isspace (if i = 0 then "    Latency:" else "            ").toList =
      if i = 0 then ["Latency:".toList] else [] := by
    split_ifs <;> decide
  unfold Row.line
  simp only [String.toList_append]
  rw [(by decide : Opens isspace "  us".toList).words_append,
    (by decide : Separates isspace "  p99 ".toList).words_append,
    (by decide : Separates isspace "  max ".toList).words_append,
    (by decide : Separates isspace "  min ".toList).words_append,
    (by decide : Separates isspace "  avg ".toList).words_append,
    (by decide : Separates isspace "  ops ".toList).words_append,
    (by decide : Separates isspace "    ".toList).words_append, hlabel,
    words_padRight 6 hop.word, words_padLeft 6 hops.word, words_padLeft 9 havg.word,
    words_padLeft 6 hmin.word, words_padLeft 6 hmax.word, words_padLeft 6 hp99.word]
  have hlits : words isspace "    ".toList = [] ∧
      words isspace "  ops ".toList = ["ops".toList] ∧
      words isspace "  avg ".toList = ["avg".toList] ∧
      words isspace "  min ".toList = ["min".toList] ∧
      words isspace "  max ".toList = ["max".toList] ∧
      words isspace "  p99 ".toList = ["p99".toList] ∧
      words isspace "  us".toList = ["us".toList] := by decide
  obtain ⟨hgap, hops', havg', hmin', hmax', hp99', hus⟩ := hlits
  rw [hgap, hops', havg', hmin', hmax', hp99', hus]
  simp only [rowWords, List.map_cons, List.map_nil, List.append_assoc, List.nil_append,
    List.cons_append, List.append_nil]

theorem split_strip (line : List Char) :
    split (strip line) = (words isspace line).map String.ofList := by
  rw [split, strip, words_trim]

theorem isIn_strip_iff {mark : String} (h : Trimmed isspace mark.toList) (line : List Char) :
    isIn mark (strip line) = true ↔ mark.toList <:+: line := by
  rw [isIn, decide_eq_true_iff, strip, h.infix_trim_iff]

theorem token_throughput : Token isspace "Throughput".toList := by decide

theorem token_run : Token isspace "[Run]".toList := by decide

theorem split_rowLine {row : Row} (h : ∀ text ∈ rowTexts row, Plain text) (i : ℕ) :
    ∃ front, split (strip (row.line i).toList) = front ++ rowWords row := by
  refine ⟨if i = 0 then ["Latency:"] else [], ?_⟩
  rw [split_strip, words_rowLine h]
  split_ifs <;> simp [Function.comp_def]

/-- A mark that is in none of its texts is not on the line of an operation. -/
theorem rowLine_not_isIn {row : Row} (h : ∀ text ∈ rowTexts row, Plain text) {mark : String}
    (hmark : Token isspace mark.toList)
    (htexts : ∀ text ∈ rowTexts row, ¬ mark.toList <:+: text.toList)
    (hlits : ∀ text ∈ rowLits, ¬ mark.toList <:+: text.toList) (i : ℕ) :
    isIn mark (strip (row.line i).toList) = false := by
  rw [Bool.eq_false_iff, ne_eq, isIn_strip_iff hmark.trimmed, hmark.infix_iff, words_rowLine h]
  rintro ⟨w, hw, hinside⟩
  rcases List.mem_append.mp hw with hw | hw
  · split_ifs at hw
    · rw [List.mem_singleton.mp hw] at hinside
      exact hlits "Latency:" (by simp [rowLits]) hinside
    · simp at hw
  · obtain ⟨text, htext, rfl⟩ := List.mem_map.mp hw
    have hcases : text ∈ rowTexts row ∨ text ∈ rowLits := by
      simp only [rowWords, rowTexts, rowLits, List.mem_cons, List.not_mem_nil, or_false] at htext ⊢
      tauto
    rcases hcases with hown | hlit
    · exact htexts text hown hinside
    · exact hlits text hlit hinside

theorem rowLine_not_throughput {row : Row} (h : ∀ text ∈ rowTexts row, Plain text) (i : ℕ) :
    isIn "Throughput" (strip (row.line i).toList) = false :=
  rowLine_not_isIn h token_throughput (fun text ht => (h text ht).not_throughput) (by decide) i

theorem rowLine_not_run {row : Row} (h : ∀ text ∈ rowTexts row, Plain text) (i : ℕ) :
    isIn "[Run]" (strip (row.line i).toList) = false :=
  rowLine_not_isIn h token_run (fun text ht => (h text ht).not_run) (by decide) i

theorem rowLine_endswith {row : Row} (h : ∀ text ∈ rowTexts row, Plain text) (i : ℕ) :
    endswith (strip (row.line i).toList) " us" = true := by
  have hus : "  us".toList = [' '] ++ " us".toList := rfl
  rw [endswith, decide_eq_true_iff]
  have hwords := words_rowLine h i
  unfold Row.line at hwords ⊢
  rw [String.toList_append, hus, ← List.append_assoc] at hwords ⊢
  refine suffix_trim (fun hgap => ?_) (by decide) (by decide)
  -- then the line would have no word but the last
  rw [words_gap_append hgap] at hwords
  have hlen := congrArg List.length hwords
  have hone : (words isspace " us".toList).length = 1 := by decide
  rw [hone] at hlen
  simp only [List.length_append, List.length_map, rowWords, List.length_cons,
    List.length_nil] at hlen
  omega

/-! ## Lines of a text file -/

/-- A text that a text file does not break. -/
def OneLine (s : String) : Prop := '\n' ∉ s.toList ∧ '\r' ∉ s.toList

instance (s : String) : Decidable (OneLine s) :=
  inferInstanceAs (Decidable ('\n' ∉ s.toList ∧ '\r' ∉ s.toList))

theorem OneLine.append {a b : String} (ha : OneLine a) (hb : OneLine b) : OneLine (a ++ b) := by
  simp only [OneLine, String.toList_append, List.mem_append, not_or]
  exact ⟨⟨ha.1, hb.1⟩, ha.2, hb.2⟩

theorem oneLine_of_forall {s : String} {p : Char → Bool} (hn : p '\n' = false)
    (hr : p '\r' = false) (h : ∀ c ∈ s.toList, p c = true) : OneLine s :=
  ⟨fun hmem => by simp [h _ hmem] at hn, fun hmem => by simp [h _ hmem] at hr⟩

theorem oneLine_spaces (n : ℕ) : OneLine (spaces n) := by
  refine oneLine_of_forall (p := fun c => c = ' ') (by decide) (by decide) fun c hc => ?_
  rw [spaces, String.toList_ofList] at hc
  simp [List.eq_of_mem_replicate hc]

theorem OneLine.padLeft {s : String} (h : OneLine s) (width : ℕ) :
    OneLine (padLeft width s) :=
  (oneLine_spaces _).append h

theorem OneLine.padRight {s : String} (h : OneLine s) (width : ℕ) :
    OneLine (padRight width s) :=
  h.append (oneLine_spaces _)

theorem Plain.oneLine {s : String} (h : Plain s) : OneLine s :=
  ⟨fun hmem => absurd (h.word.2 _ hmem) (by decide), fun hmem =>
    absurd (h.word.2 _ hmem) (by decide)⟩

theorem universalNewlines_eq {text : List Char} (h : '\r' ∉ text) :
    universalNewlines text = text := by
  fun_induction universalNewlines text with
  | case1 => rfl
  | case2 => simp at h
  | case3 => simp at h
  | case4 c text _ _ ih => rw [ih fun hmem => h (by simp [hmem])]

/-- A file of whole lines is read line by line. -/
theorem fileLines_unlines {ls : List String} (h : ∀ line ∈ ls, OneLine line) :
    fileLines (unlines ls).toList = ls.map fun line => line.toList ++ ['\n'] := by
  have hcr : '\r' ∉ joinLines '\n' (ls.map String.toList) := by
    intro hmem
    obtain ⟨line, hline, hc⟩ := List.mem_flatMap.mp hmem
    obtain ⟨text, htext, rfl⟩ := List.mem_map.mp hline
    exact (h text htext).2 (by simpa using hc)
  have hnl : ∀ line ∈ ls.map String.toList, '\n' ∉ line :=
    List.forall_mem_map.mpr fun line hline => (h line hline).1
  rw [toList_unlines, fileLines, universalNewlines_eq hcr, pieces_joinLines hnl, List.map_map]
  rfl

theorem strip_newline (line : List Char) : strip (line ++ ['\n']) = strip line :=
  trim_append_gap (by decide) line

theorem oneLine_rowLine {row : Row} (h : ∀ text ∈ rowTexts row, Plain text) (i : ℕ) :
    OneLine (row.line i) := by
  obtain ⟨hop, hops, havg, hmin, hmax, hp99⟩ := forall_rowTexts.mp h
  have hlabel : OneLine (if i = 0 then "    Latency:" else "            ") := by
    split_ifs <;> decide
  unfold Row.line
  exact hlabel.append (by decide) |>.append (hop.oneLine.padRight 6)
    |>.append (by decide) |>.append (hops.oneLine.padLeft 6)
    |>.append (by decide) |>.append (havg.oneLine.padLeft 9)
    |>.append (by decide) |>.append (hmin.oneLine.padLeft 6)
    |>.append (by decide) |>.append (hmax.oneLine.padLeft 6)
    |>.append (by decide) |>.append (hp99.oneLine.padLeft 6)
    |>.append (by decide)

/-! ## The other lines -/

/-- The characters of the escape sequences that choose colors. -/
def isSgr (c : Char) : Bool := c = '\x1b' || c = '[' || c = ';' || c = 'm' || c.isDigit

/-- All that is written for the tags of the bencher. -/
def codes (colors : Colors) : List String :=
  [colors.title.on, colors.title.off, colors.cyan.on, colors.cyan.off, colors.magenta.on,
    colors.magenta.off]

/-- Colors are chosen by escape sequences. -/
def SgrColors (colors : Colors) : Prop :=
  ∀ code ∈ codes colors, code.toList.all isSgr = true

theorem SgrColors.oneLine {colors : Colors} (h : SgrColors colors) {code : String}
    (hcode : code ∈ codes colors) : OneLine code :=
  oneLine_of_forall (by decide) (by decide) (List.all_eq_true.mp (h code hcode))

theorem oneLine_resultsLine (hcolors : SgrColors colors) {workload : Char}
    (hworkload : workload ∈ validWorkloads) (numClis : ℕ) :
    OneLine (resultsLine colors workload numClis) := by
  have hcode : ∀ code ∈ codes colors, OneLine code := fun code => hcolors.oneLine
  simp only [codes, List.mem_cons, List.not_mem_nil, or_false, forall_eq_or_imp,
    forall_eq] at hcode
  obtain ⟨hton, htoff, hcon, hcoff, hmon, hmoff⟩ := hcode
  have hsingle : OneLine (String.singleton workload) := by
    have hcases : workload ∈ ['a', 'b', 'c', 'd', 'e', 'f'] := hworkload
    simp only [List.mem_cons, List.not_mem_nil, or_false] at hcases
    rcases hcases with rfl | rfl | rfl | rfl | rfl | rfl <;> decide
  unfold resultsLine
  exact hton.append (by decide) |>.append htoff |>.append (by decide)
    |>.append hcon |>.append (by decide) |>.append hsingle |>.append hcoff |>.append (by decide)
    |>.append hmon |>.append (plain_toString numClis).oneLine |>.append (by decide)
    |>.append hmoff

theorem resultsLine_found (colors : Colors) (workload : Char) (numClis : ℕ) :
    isIn "Benchmarking results:" (strip (resultsLine colors workload numClis).toList) = true := by
  have htrimmed : Trimmed isspace "Benchmarking results:".toList := by decide
  rw [isIn_strip_iff htrimmed]
  unfold resultsLine
  simp only [String.toList_append, List.append_assoc]
  exact ⟨colors.title.on.toList, _, List.append_assoc _ _ _⟩

section Stats

variable {F : Type} {f : F64 F} {colors : Colors} {stats : Stats F}

theorem oneLine_phaseLine (hfixed : ∀ prec x, Plain (f.fixed prec x)) (hcolors : SgrColors colors)
    {phase : String} (hphase : OneLine phase) : OneLine (stats.phaseLine f colors phase) := by
  have hon : OneLine colors.cyan.on := hcolors.oneLine (by simp [codes])
  have hoff : OneLine colors.cyan.off := hcolors.oneLine (by simp [codes])
  have hname : OneLine ("[" ++ phase ++ "]") :=
    OneLine.append (by decide) hphase |>.append (by decide)
  unfold Stats.phaseLine
  exact OneLine.append (by decide) hon |>.append (hname.padRight 6) |>.append hoff
    |>.append (by decide) |>.append ((hfixed 0 stats.totalMs).oneLine.padLeft 6)
    |>.append (by decide)

theorem phaseLine_run_found : isIn "[Run]" (strip (stats.phaseLine f colors "Run").toList) =
    true := by
  rw [isIn_strip_iff token_run.trimmed]
  have hpad : padRight 6 ("[" ++ "Run" ++ "]") = "[Run]" ++ " " := by decide
  unfold Stats.phaseLine
  rw [hpad]
  simp only [String.toList_append, List.append_assoc]
  exact ⟨"  ".toList ++ colors.cyan.on.toList, _, by simp only [List.append_assoc]; rfl⟩

/-- The section of the other phase does not name the Run. -/
theorem phaseLine_load_not_found (hfixed : ∀ prec x, Plain (f.fixed prec x))
    (hcolors : SgrColors colors) :
    isIn "[Run]" (strip (stats.phaseLine f colors "Load").toList) = false := by
  have hcode : ∀ code ∈ codes colors, 'R' ∉ code.toList := fun code hmem hR =>
    absurd (List.all_eq_true.mp (hcolors code hmem) 'R' hR) (by decide)
  have hon : 'R' ∉ colors.cyan.on.toList := hcode _ (by simp [codes])
  have hoff : 'R' ∉ colors.cyan.off.toList := hcode _ (by simp [codes])
  have hname : 'R' ∉ (padRight 6 ("[" ++ "Load" ++ "]")).toList := by decide
  have hfront : ¬ "[Run]".toList <:+: "  ".toList ++ colors.cyan.on.toList ++
      (padRight 6 ("[" ++ "Load" ++ "]")).toList ++ colors.cyan.off.toList := by
    intro hinside
    have hR := hinside.subset (show 'R' ∈ "[Run]".toList by decide)
    simp only [List.mem_append, hon, hoff, hname, or_false] at hR
    exact absurd hR (by decide)
  have htotal : ¬ "[Run]".toList <:+: (padLeft 6 (f.fixed 0 stats.totalMs)).toList ++
      " ms".toList := by
    rw [token_run.infix_iff, (by decide : Opens isspace " ms".toList).words_append,
      words_padLeft 6 (hfixed 0 stats.totalMs).word]
    rintro ⟨w, hw, hinside⟩
    rcases List.mem_append.mp hw with hw | hw
    · rw [List.mem_singleton.mp hw] at hinside
      exact (hfixed 0 stats.totalMs).not_run hinside
    · have hms : ∀ w ∈ words isspace " ms".toList, ¬ "[Run]".toList <:+: w := by decide
      exact hms w hw hinside
  rw [Bool.eq_false_iff, ne_eq, isIn_strip_iff token_run.trimmed]
  unfold Stats.phaseLine
  rw [String.toList_append, String.toList_append, String.toList_append, String.toList_append,
    String.toList_append, String.toList_append, List.append_assoc,
    token_run.infix_separated_iff (by decide)]
  rintro (hinside | hinside | hinside)
  · exact hfront hinside
  · exact absurd hinside (by decide)
  · exact htotal hinside

variable [NatCast F] [Div F] [OfScientific F]

theorem oneLine_throughputLine (hfixed : ∀ prec x, Plain (f.fixed prec x)) :
    OneLine (stats.throughputLine f) := by
  unfold Stats.throughputLine
  exact OneLine.append (by decide) ((hfixed 2 (stats.tputAll f)).oneLine.padLeft 9)
    |>.append (by decide)

theorem words_throughputLine (h : Plain (f.fixed 2 (stats.tputAll f))) :
    words isspace (stats.throughputLine f).toList =
      ["Throughput:".toList, (f.fixed 2 (stats.tputAll f)).toList, "ops/sec".toList] := by
  have hlits : words isspace "    Throughput:  ".toList = ["Throughput:".toList] ∧
      words isspace " ops/sec".toList = ["ops/sec".toList] := by decide
  unfold Stats.throughputLine
  rw [String.toList_append, String.toList_append,
    (by decide : Opens isspace " ops/sec".toList).words_append,
    (by decide : Closes isspace "    Throughput:  ".toList).words_append, words_padLeft 9 h.word,
    hlits.1, hlits.2]
  rfl

theorem throughputLine_found :
    isIn "Throughput" (strip (stats.throughputLine f).toList) = true := by
  rw [isIn_strip_iff token_throughput.trimmed]
  have hlit : "    Throughput:  " = "    " ++ "Throughput" ++ ":  " := by decide
  unfold Stats.throughputLine
  rw [hlit]
  simp only [String.toList_append, List.append_assoc]
  exact ⟨"    ".toList, _, List.append_assoc _ _ _⟩

theorem throughputLine_not_run (h : Plain (f.fixed 2 (stats.tputAll f))) :
    isIn "[Run]" (strip (stats.throughputLine f).toList) = false := by
  rw [Bool.eq_false_iff, ne_eq, isIn_strip_iff token_run.trimmed, token_run.infix_iff,
    words_throughputLine h]
  rintro ⟨w, hw, hinside⟩
  simp only [List.mem_cons, List.not_mem_nil, or_false] at hw
  rcases hw with rfl | rfl | rfl
  · exact absurd hinside (by decide)
  · exact h.not_run hinside
  · exact absurd hinside (by decide)

end Stats

end MadKV.Sumgen
