import MadKV.Sumgen.PrintedLines

/-!
# The report reads what the bencher prints

The parser passes over the header and the section of the Load, and then takes a
number off each line of the section of the Run.
-/

namespace MadKV.Sumgen

open Runner Support Spec Bencher

variable {G : Type} {float : String → Option G} {value : String → G}

/-! ## Reading a line -/

theorem fromEnd_append {segs : List String} {k : ℕ} (hpos : 0 < k) (hk : k ≤ segs.length)
    (front : List String) : fromEnd (front ++ segs) k = fromEnd segs k := by
  unfold fromEnd
  rw [List.reverse_append, List.getElem?_append_left]
  rw [List.length_reverse]
  omega

/-- What is read of a row. -/
def readRow (value : String → G) (row : Row) : String × Lat G :=
  (row.op, ⟨value row.ops, value row.avg, value row.p99⟩)

/-- The numerals of a row that are read. -/
def rowNumerals (row : Row) : List String := [row.ops, row.avg, row.p99]

/-- A label in front of the words of a row is not looked at. -/
theorem parseLats_rowWords {row : Row}
    (h : ∀ text ∈ rowNumerals row, float text = some (value text)) (front : List String) :
    parseLats float (front ++ rowWords row) = .ok (readRow value row) := by
  have hlen : (rowWords row).length = 12 := rfl
  have hops : float row.ops = some (value row.ops) := h _ (by simp [rowNumerals])
  have havg : float row.avg = some (value row.avg) := h _ (by simp [rowNumerals])
  have hp99 : float row.p99 = some (value row.p99) := h _ (by simp [rowNumerals])
  have h12 : fromEnd (rowWords row) 12 = .ok row.op := rfl
  have h10 : fromEnd (rowWords row) 10 = .ok row.ops := rfl
  have h8 : fromEnd (rowWords row) 8 = .ok row.avg := rfl
  have h2 : fromEnd (rowWords row) 2 = .ok row.p99 := rfl
  unfold parseLats
  rw [fromEnd_append (by decide) (by omega), fromEnd_append (by decide) (by omega),
    fromEnd_append (by decide) (by omega), fromEnd_append (by decide) (by omega), h12, h10, h8, h2]
  simp only [readFloat, hops, havg, hp99, readRow, bind, Except.bind]

theorem setItem_of_notMem {V : Type} {key : String} {items : List (String × V)}
    (h : key ∉ items.map Prod.fst) (v : V) : setItem key v items = items ++ [(key, v)] := by
  induction items with
  | nil => rfl
  | cons item items ih =>
    obtain ⟨k, w⟩ := item
    obtain ⟨hk, hitems⟩ := not_or.mp (mt List.mem_cons.mpr h)
    simp only [setItem, if_neg (Ne.symm hk), ih hitems, List.cons_append]

theorem parseBenchLine_row {row : Row} (hplain : ∀ text ∈ rowTexts row, Plain text)
    (hfloat : ∀ text ∈ rowNumerals row, float text = some (value text)) (tput : G)
    {lats : List (String × Lat G)} (hnew : row.op ∉ lats.map Prod.fst) (i : ℕ) :
    parseBenchLine float ⟨true, true, tput, lats⟩ ((row.line i).toList ++ ['\n']) =
      .ok ⟨true, true, tput, lats ++ [readRow value row]⟩ := by
  obtain ⟨front, hsplit⟩ := split_rowLine hplain i
  have hlats := parseLats_rowWords hfloat front
  have hset : setItem (readRow value row).1 (readRow value row).2 lats =
      lats ++ [readRow value row] := setItem_of_notMem hnew _
  unfold parseBenchLine
  simp only [strip_newline, Bool.not_true, Bool.false_and, Bool.and_false, Bool.false_eq_true,
    ↓reduceIte, rowLine_not_throughput hplain, rowLine_endswith hplain, hsplit, hlats, hset, bind,
    Except.bind]

/-! ## Reading lines -/

theorem parseBenchLines_append (s : Bench G) (ls ls' : List (List Char)) :
    parseBenchLines float s (ls ++ ls') =
      (parseBenchLines float s ls).bind fun s => parseBenchLines float s ls' := by
  induction ls generalizing s with
  | nil => rfl
  | cons line ls ih =>
    simp only [List.cons_append, parseBenchLines, bind, Except.bind]
    cases parseBenchLine float s line with
    | error err => rfl
    | ok s => exact ih s

/-- Before the Run section, lines without its mark are passed over. -/
theorem parseBenchLines_skip {s : Bench G} (hin : s.inNumbers = true) (hrun : s.inRunSec = false)
    {ls : List (List Char)} (h : ∀ line ∈ ls, isIn "[Run]" (strip line) = false) :
    parseBenchLines float s ls = .ok s := by
  induction ls with
  | nil => rfl
  | cons line ls ih =>
    have hline : parseBenchLine float s line = .ok s := by
      simp [parseBenchLine, hin, hrun, h line (by simp)]
    simp only [parseBenchLines, hline, bind, Except.bind]
    exact ih fun l hl => h l (by simp [hl])

/-- Every row adds its entry. -/
theorem parseBenchLines_rows {rows : List Row}
    (hplain : ∀ row ∈ rows, ∀ text ∈ rowTexts row, Plain text)
    (hfloat : ∀ row ∈ rows, ∀ text ∈ rowNumerals row, float text = some (value text)) (tput : G)
    {lats : List (String × Lat G)} (hnodup : (lats.map Prod.fst ++ rows.map Row.op).Nodup)
    (i : ℕ) : parseBenchLines float ⟨true, true, tput, lats⟩
        ((Stats.rowLines i rows).map fun line => line.toList ++ ['\n']) =
      .ok ⟨true, true, tput, lats ++ rows.map (readRow value)⟩ := by
  induction rows generalizing i lats with
  | nil => simp [Stats.rowLines, parseBenchLines]
  | cons row rows ih =>
    have hnew : row.op ∉ lats.map Prod.fst := fun hmem =>
      (List.nodup_append.mp hnodup).2.2 _ hmem row.op (by simp) rfl
    have hline := parseBenchLine_row (hplain row (by simp)) (hfloat row (by simp)) tput hnew i
    have hrest : ((lats ++ [readRow value row]).map Prod.fst ++ rows.map Row.op).Nodup := by
      simpa [readRow] using hnodup
    have ih := ih (fun r hr => hplain r (by simp [hr])) (fun r hr => hfloat r (by simp [hr])) hrest
      (i + 1)
    simp only [Stats.rowLines, List.map_cons, parseBenchLines, hline, bind, Except.bind, ih,
      List.append_assoc, List.singleton_append]

/-! ## The printed log -/

theorem forall_rowLines {P : String → Prop} {rows : List Row}
    (h : ∀ row ∈ rows, ∀ i, P (row.line i)) (i : ℕ) : ∀ line ∈ Stats.rowLines i rows, P line := by
  induction rows generalizing i with
  | nil => simp [Stats.rowLines]
  | cons row rows ih =>
    intro line hline
    rcases List.mem_cons.mp hline with rfl | hline
    · exact h row (by simp) i
    · exact ih (fun r hr => h r (by simp [hr])) (i + 1) line hline

section Log

variable {F : Type} [NatCast F] [Div F] [OfScientific F] {f : F64 F} {colors : Colors}
  {stats : Stats F}

/-- The lines of a section. -/
def sectionLines (f : F64 F) (colors : Colors) (stats : Stats F) (phase : String)
    (rows : List Row) : List String :=
  stats.phaseLine f colors phase :: stats.throughputLine f :: Stats.rowLines 0 rows

theorem forall_sectionLines {P : String → Prop} {phase : String} {rows : List Row}
    (hphase : P (stats.phaseLine f colors phase)) (hthroughput : P (stats.throughputLine f))
    (hrows : ∀ row ∈ rows, ∀ i, P (row.line i)) :
    ∀ line ∈ sectionLines f colors stats phase rows, P line := by
  intro line hline
  rcases List.mem_cons.mp hline with rfl | hline
  · exact hphase
  · rcases List.mem_cons.mp hline with rfl | hline
    · exact hthroughput
    · exact forall_rowLines hrows 0 line hline

theorem oneLine_sectionLines (hfixed : ∀ prec x, Plain (f.fixed prec x))
    (hcolors : SgrColors colors) {phase : String} (hphase : OneLine phase) {rows : List Row}
    (hrows : ∀ row ∈ rows, ∀ text ∈ rowTexts row, Plain text) :
    ∀ line ∈ sectionLines f colors stats phase rows, OneLine line :=
  forall_sectionLines (oneLine_phaseLine hfixed hcolors hphase) (oneLine_throughputLine hfixed)
    fun row hrow => oneLine_rowLine (hrows row hrow)

/-- No line of the Load is taken for the start of the Run. -/
theorem load_not_run (hfixed : ∀ prec x, Plain (f.fixed prec x)) (hcolors : SgrColors colors)
    {rows : List Row} (hrows : ∀ row ∈ rows, ∀ text ∈ rowTexts row, Plain text) :
    ∀ line ∈ sectionLines f colors stats "Load" rows,
      isIn "[Run]" (strip line.toList) = false :=
  forall_sectionLines (phaseLine_load_not_found hfixed hcolors)
    (throughputLine_not_run (hfixed 2 _)) fun row hrow => rowLine_not_run (hrows row hrow)

theorem parseBenchLine_throughput (h : Plain (f.fixed 2 (stats.tputAll f)))
    (hfloat : float (f.fixed 2 (stats.tputAll f)) = some (value (f.fixed 2 (stats.tputAll f))))
    (tput : G) (lats : List (String × Lat G)) :
    parseBenchLine float ⟨true, true, tput, lats⟩ ((stats.throughputLine f).toList ++ ['\n']) =
      .ok ⟨true, true, value (f.fixed 2 (stats.tputAll f)), lats⟩ := by
  have hsplit : split (strip (stats.throughputLine f).toList) =
      ["Throughput:", f.fixed 2 (stats.tputAll f), "ops/sec"] := by
    rw [split_strip, words_throughputLine h]
    simp
  have hnumeral : fromEnd ["Throughput:", f.fixed 2 (stats.tputAll f), "ops/sec"] 2 =
      .ok (f.fixed 2 (stats.tputAll f)) := rfl
  unfold parseBenchLine
  simp only [strip_newline, Bool.not_true, Bool.false_and, Bool.and_false, Bool.false_eq_true,
    ↓reduceIte, throughputLine_found, hsplit, hnumeral, readFloat, hfloat, bind, Except.bind]

/-- The section of the Run, from its first line on. -/
theorem parseBenchLines_run (hfixed : ∀ prec x, Plain (f.fixed prec x)) {rows : List Row}
    (hplain : ∀ row ∈ rows, ∀ text ∈ rowTexts row, Plain text)
    (hnodup : (rows.map Row.op).Nodup)
    (hfloat : ∀ text ∈ f.fixed 2 (stats.tputAll f) :: rows.flatMap rowNumerals,
      float text = some (value text)) (zero : G) :
    parseBenchLines float ⟨true, false, zero, []⟩
        ((sectionLines f colors stats "Run" rows).map fun line => line.toList ++ ['\n']) =
      .ok ⟨true, true, value (f.fixed 2 (stats.tputAll f)), rows.map (readRow value)⟩ := by
  have hphase : parseBenchLine float ⟨true, false, zero, []⟩
      ((stats.phaseLine f colors "Run").toList ++ ['\n']) = .ok ⟨true, true, zero, []⟩ := by
    simp [parseBenchLine, strip_newline, phaseLine_run_found]
  have htput : parseBenchLine float ⟨true, true, zero, []⟩
      ((stats.throughputLine f).toList ++ ['\n']) =
        .ok ⟨true, true, value (f.fixed 2 (stats.tputAll f)), []⟩ :=
    parseBenchLine_throughput (hfixed 2 _) (hfloat _ (by simp)) zero []
  have hnumerals : ∀ row ∈ rows, ∀ text ∈ rowNumerals row, float text = some (value text) :=
    fun row hrow text htext => hfloat text
      (List.mem_cons_of_mem _ (List.mem_flatMap.mpr ⟨row, hrow, htext⟩))
  have hfresh : (([] : List (String × Lat G)).map Prod.fst ++ rows.map Row.op).Nodup := by
    simpa using hnodup
  have hrows := parseBenchLines_rows hplain hnumerals (value (f.fixed 2 (stats.tputAll f))) hfresh 0
  simp only [sectionLines, List.map_cons, parseBenchLines, hphase, htput, bind, Except.bind, hrows,
    List.nil_append]

variable [Add F] [Mul F]

/-- The rows of the types of operations, in order, and texts that are plain. -/
theorem rowsOf_ok (hfixed : ∀ prec x, Plain (f.fixed prec x)) {entries : List (String × List F)}
    (hops : ∀ e ∈ entries, Plain e.1) {rows : List Row} (h : Stats.rowsOf f entries = .ok rows) :
    rows.map Row.op = entries.map Prod.fst ∧
      ∀ row ∈ rows, ∀ text ∈ rowTexts row, Plain text := by
  induction entries generalizing rows with
  | nil =>
    cases h
    simp
  | cons e entries ih =>
    obtain ⟨op, samples⟩ := e
    simp only [Stats.rowsOf, Stats.row, bind, Except.bind] at h
    cases hstats : latencyStats f samples with
    | error why => simp [hstats] at h
    | ok found =>
      cases hrest : Stats.rowsOf f entries with
      | error why => simp [hstats, hrest] at h
      | ok rest =>
        simp only [hstats, hrest, Except.ok.injEq] at h
        subst h
        obtain ⟨hnames, hplain⟩ := ih (fun e he => hops e (by simp [he])) hrest
        refine ⟨by simp [hnames], fun row hrow => ?_⟩
        rcases List.mem_cons.mp hrow with rfl | hrow
        · have hop : Plain op := hops (op, samples) (by simp)
          exact forall_rowTexts.mpr
            ⟨hop, plain_toString _, hfixed _ _, hfixed _ _, hfixed _ _, hfixed _ _⟩
        · exact hplain row hrow

theorem print_ok {phase text : String} (h : stats.print f colors phase = .ok text) :
    ∃ rows, stats.rows f = .ok rows ∧
      text = unlines (sectionLines f colors stats phase rows) := by
  unfold Stats.print at h
  cases hrows : stats.rows f with
  | error why => simp [hrows, bind, Except.bind] at h
  | ok rows =>
    simp only [hrows, bind, Except.bind, Except.ok.injEq] at h
    exact ⟨rows, rfl, h.symm⟩

theorem printResults_ok {workload : Char} {numClis : ℕ} {load run : Stats F} {log : String}
    (h : printResults f colors workload numClis load run = .ok log) :
    ∃ loadRows runRows, load.rows f = .ok loadRows ∧ run.rows f = .ok runRows ∧
      log = unlines (resultsLine colors workload numClis ::
        (sectionLines f colors load "Load" loadRows ++
          sectionLines f colors run "Run" runRows)) := by
  unfold printResults at h
  cases hload : load.print f colors "Load" with
  | error why => simp [hload, bind, Except.bind] at h
  | ok loadText =>
    cases hrun : run.print f colors "Run" with
    | error why => simp [hload, hrun, bind, Except.bind] at h
    | ok runText =>
      obtain ⟨loadRows, hloadRows, rfl⟩ := print_ok hload
      obtain ⟨runRows, hrunRows, rfl⟩ := print_ok hrun
      simp only [hload, hrun, bind, Except.bind, Except.ok.injEq] at h
      refine ⟨loadRows, runRows, hloadRows, hrunRows, ?_⟩
      rw [← h, ← unlines_append, ← unlines_append, List.append_assoc]
      rfl

/-- The report reads of the Run what the bencher printed of it, and nothing of the Load. -/
theorem report_reads_back {workload : Char} {numClis : ℕ} {load run : Stats F} {log : String}
    {rows : List Row} (hcolors : SgrColors colors) (hworkload : workload ∈ validWorkloads)
    (hfixed : ∀ prec x, Plain (f.fixed prec x)) (hload : ∀ op ∈ load.ops, Plain op)
    (hrun : ∀ op ∈ run.ops, Plain op) (hne : run.ops ≠ [])
    (hlog : printResults f colors workload numClis load run = .ok log)
    (hrows : run.rows f = .ok rows)
    (hfloat : ∀ text ∈ f.fixed 2 (run.tputAll f) :: rows.flatMap rowNumerals,
      float text = some (value text)) (zero : G) (ycsbLog : String) :
    parseBenchResult float zero ycsbLog log =
        .ok (value (f.fixed 2 (run.tputAll f)), rows.map (readRow value)) ∧
      rows.map Row.op = run.ops ∧ run.ops.Nodup := by
  obtain ⟨loadRows, runRows, hloadRows, hrunRows, rfl⟩ := printResults_ok hlog
  obtain rfl : runRows = rows := by simpa [hrunRows] using hrows
  obtain ⟨-, hloadPlain⟩ := rowsOf_ok hfixed (List.forall_mem_map.mp hload) hloadRows
  obtain ⟨hops, hplain⟩ := rowsOf_ok hfixed (List.forall_mem_map.mp hrun) hrunRows
  have hnodup : run.ops.Nodup :=
    List.pairwise_map.mpr (run.latSamples.sorted.imp fun hlt => hlt.ne)
  have hlines : ∀ line ∈ resultsLine colors workload numClis ::
      (sectionLines f colors load "Load" loadRows ++ sectionLines f colors run "Run" runRows),
      OneLine line := by
    intro line hline
    rcases List.mem_cons.mp hline with rfl | hline
    · exact oneLine_resultsLine hcolors hworkload numClis
    · rcases List.mem_append.mp hline with hline | hline
      · exact oneLine_sectionLines hfixed hcolors (by decide) hloadPlain line hline
      · exact oneLine_sectionLines hfixed hcolors (by decide) hplain line hline
  have hheader : parseBenchLine float ⟨false, false, zero, []⟩
      ((resultsLine colors workload numClis).toList ++ ['\n']) =
        .ok ⟨true, false, zero, []⟩ := by
    simp [parseBenchLine, strip_newline, resultsLine_found]
  have hskip : parseBenchLines float ⟨true, false, zero, []⟩
      ((sectionLines f colors load "Load" loadRows).map fun line => line.toList ++ ['\n']) =
        .ok ⟨true, false, zero, []⟩ := by
    refine parseBenchLines_skip rfl rfl (List.forall_mem_map.mpr fun line hline => ?_)
    rw [strip_newline]
    exact load_not_run hfixed hcolors hloadPlain line hline
  have hsection : parseBenchLines float ⟨true, false, zero, []⟩
      ((sectionLines f colors run "Run" runRows).map fun line => line.toList ++ ['\n']) =
        .ok ⟨true, true, value (f.fixed 2 (run.tputAll f)), runRows.map (readRow value)⟩ :=
    parseBenchLines_run hfixed hplain (hops ▸ hnodup) hfloat zero
  refine ⟨?_, hops, hnodup⟩
  have hsome : (runRows.map (readRow value)).length ≠ 0 := by
    rw [List.length_map, ← List.length_map Row.op, hops]
    exact mt List.length_eq_zero_iff.mp hne
  rw [parseBenchResult, fileLines_unlines hlines]
  simp only [List.map_cons, List.map_append, parseBenchLines, hheader, bind, Except.bind,
    parseBenchLines_append, hskip, hsection, if_neg hsome]

end Log

/-! ## A log -/

/-- A value rounded to a number of decimal places. -/
def fixedDigits (prec n : ℕ) : String :=
  String.ofList (Nat.toDigits 10 (n / 10 ^ prec) ++
    if prec = 0 then [] else '.' :: (Nat.toDigits 10 (10 ^ prec + n % 10 ^ prec)).drop 1)

/-- Exact arithmetic in place of `f64`. -/
def decimal : F64 ℚ where
  partialCmp x y := some (compare x y)
  ceil x := ⌈x⌉.toNat
  fixed prec x := fixedDigits prec ⌊x * 10 ^ prec + 1 / 2⌋.toNat

def digitsValue (digits : List Char) : ℕ :=
  digits.foldl (fun n c => 10 * n + (c.toNat - '0'.toNat)) 0

/-- The numerals with and without a fraction, of those that `float` reads. -/
def readDecimal (text : String) : Option ℚ :=
  let whole := text.toList.takeWhile Char.isDigit
  let rest := text.toList.dropWhile Char.isDigit
  let frac := rest.drop 1
  if whole = [] then none
  else if rest = [] then some (digitsValue whole)
  else if rest.head? = some '.' ∧ frac.all Char.isDigit = true then
    some (digitsValue (whole ++ frac) / 10 ^ frac.length)
  else none

theorem plain_decimal (prec : ℕ) (x : ℚ) : Plain (decimal.fixed prec x) := by
  have hdigits : ∀ n, ∀ c ∈ Nat.toDigits 10 n, isspace c = false ∧ c ≠ 'T' ∧ c ≠ '[' :=
    fun n c hc => isDigit_plain (Nat.isDigit_of_mem_toDigits (by decide) (by decide) hc)
  refine plain_of_forall ?_ fun c hc => ?_
  · rw [ne_eq, ← String.toList_eq_nil_iff]
    simp [decimal, fixedDigits, Nat.toDigits_ne_nil]
  · simp only [decimal, fixedDigits, String.toList_ofList] at hc
    rcases List.mem_append.mp hc with hc | hc
    · exact hdigits _ c hc
    · split_ifs at hc
      · simp at hc
      · rcases List.mem_cons.mp hc with rfl | hc
        · decide
        · exact hdigits _ c (List.mem_of_mem_drop hc)

/-- The sequences for bold, yellow, cyan and magenta, and for their ends. -/
def ansi : Colors where
  title := ⟨"\x1b[1m\x1b[33m", "\x1b[39m\x1b[22m"⟩
  cyan := ⟨"\x1b[36m", "\x1b[39m"⟩
  magenta := ⟨"\x1b[35m", "\x1b[39m"⟩

def loadStats : Stats ℚ := ⟨2000, ⟨[("INSERT", [900, 700])], by decide⟩⟩

def runStats : Stats ℚ := ⟨1500, ⟨[("GET", [100, 250]), ("SWAP", [350])], by decide⟩⟩

theorem report_reads_back_runStats :
    ∃ log, printResults decimal ansi 'a' 1 loadStats runStats = .ok log ∧
      parseBenchResult readDecimal 0 "bench.log" log =
        .ok (2, [("GET", ⟨2, 175, 250⟩), ("SWAP", ⟨1, 350, 350⟩)]) := by
  have hloadRows : loadStats.rows decimal =
      .ok [⟨"INSERT", "2", "800.00", "700", "900", "900"⟩] := by decide +kernel
  have hrunRows : runStats.rows decimal = .ok [⟨"GET", "2", "175.00", "100", "250", "250"⟩,
      ⟨"SWAP", "1", "350.00", "350", "350", "350"⟩] := by decide +kernel
  have htput : decimal.fixed 2 (runStats.tputAll decimal) = "2.00" := by decide +kernel
  have hplain : ∀ op ∈ loadStats.ops ++ runStats.ops, Plain op := by
    intro op hop
    have hcases : op = "INSERT" ∨ op = "GET" ∨ op = "SWAP" := by
      simpa [Stats.ops, loadStats, runStats] using hop
    rcases hcases with rfl | rfl | rfl <;> exact ⟨by decide, by decide, by decide⟩
  have hlog : ∃ log, printResults decimal ansi 'a' 1 loadStats runStats = .ok log := by
    simp only [printResults, Stats.print, hloadRows, hrunRows, bind, Except.bind, Except.ok.injEq,
      exists_eq']
  obtain ⟨log, hlog⟩ := hlog
  have hcolors : SgrColors ansi := by
    unfold SgrColors
    decide
  have hfloat : ∀ text ∈ decimal.fixed 2 (runStats.tputAll decimal) :: List.flatMap rowNumerals
      [⟨"GET", "2", "175.00", "100", "250", "250"⟩, ⟨"SWAP", "1", "350.00", "350", "350", "350"⟩],
      readDecimal text = some ((readDecimal text).getD 0) := by
    rw [htput]
    decide +kernel
  have hread := report_reads_back hcolors (by decide) plain_decimal
    (fun op hop => hplain op (List.mem_append_left _ hop))
    (fun op hop => hplain op (List.mem_append_right _ hop)) (by decide) hlog hrunRows hfloat 0
    "bench.log"
  refine ⟨log, hlog, hread.1.trans ?_⟩
  rw [htput]
  decide +kernel

end MadKV.Sumgen
