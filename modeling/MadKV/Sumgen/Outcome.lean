import MadKV.Fuzzer.EndToEnd
import MadKV.Sumgen.ParseFuzz

/-!
# The report reads the outcome

Whatever the fuzzer prints before its result, the report goes on to the line of the
outcome, and takes from it the word that was painted. In a log of this system that
word is never FAILED.
-/

namespace MadKV.Sumgen

open Runner Support Spec Bencher Fuzzer

/-! ## What is printed before -/

theorem universalNewlines_append {text : List Char} (h : text.getLast? ≠ some '\r')
    (rest : List Char) :
    universalNewlines (text ++ rest) = universalNewlines text ++ universalNewlines rest := by
  fun_induction universalNewlines text with
  | case1 => rfl
  | case2 text ih =>
    have hlast : text.getLast? ≠ some '\r' := by
      intro hcr
      exact h (by simp [List.getLast?_cons, hcr])
    simp [universalNewlines, ih hlast]
  | case3 text hne ih =>
    cases text with
    | nil => exact absurd rfl h
    | cons d text =>
      have hd : d ≠ '\n' := fun hd => hne text (hd ▸ rfl)
      have hlast : (d :: text).getLast? ≠ some '\r' := by simpa using h
      have hbreak : ∀ tail, universalNewlines ('\r' :: d :: tail) =
          '\n' :: universalNewlines (d :: tail) := by
        intro tail
        rw [universalNewlines]
        exact fun t ht => hd (List.cons.inj ht).1
      simpa [hbreak] using ih hlast
  | case4 c text hcrlf hcr ih =>
    have hc : c ≠ '\r' := fun hc => hcr hc
    have hkeep : ∀ tail, universalNewlines (c :: tail) = c :: universalNewlines tail := by
      intro tail
      rw [universalNewlines]
      · exact fun t hct _ => hc hct
      · exact hc
    cases text with
    | nil => simp [hkeep, universalNewlines]
    | cons d text =>
      have hlast : (d :: text).getLast? ≠ some '\r' := by simpa using h
      simpa [hkeep] using ih hlast

theorem getLast?_universalNewlines {text : List Char} (h : text.getLast? = some '\n') :
    (universalNewlines text).getLast? = some '\n' := by
  fun_induction universalNewlines text with
  | case1 => cases h
  | case2 text ih =>
    cases text with
    | nil => rfl
    | cons d text =>
      have ih := ih (by simpa using h)
      simp [List.getLast?_cons, ih]
  | case3 text _ ih =>
    cases text with
    | nil => cases h
    | cons d text =>
      have ih := ih (by simpa using h)
      simp [List.getLast?_cons, ih]
  | case4 c text _ _ ih =>
    cases text with
    | nil => simpa [universalNewlines] using h
    | cons d text =>
      have ih := ih (by simpa using h)
      simp [List.getLast?_cons, ih]

/-- The lines of whole lines come first. -/
theorem fileLines_append {text : List Char} (h : Closed '\n' text) (rest : List Char) :
    fileLines (text ++ rest) = fileLines text ++ fileLines rest := by
  have hcr : text.getLast? ≠ some '\r' := by
    rcases h with rfl | hlast
    · simp
    · simp [hlast]
  have hclosed : Closed '\n' (universalNewlines text) := by
    rcases h with rfl | hlast
    · exact .inl rfl
    · exact .inr (getLast?_universalNewlines hlast)
  rw [fileLines, universalNewlines_append hcr, pieces_append hclosed]
  rfl

/-! ## The line of the outcome -/

/-- The colors are chosen by escape sequences. -/
def SgrFuzz (colors : FuzzColors) : Prop :=
  ∀ style ∈ [colors.title, colors.red, colors.green],
    Sgr style.on.toList ∧ Sgr style.off.toList

theorem Sgr.not_space {text : List Char} (h : Sgr text) : ∀ c ∈ text, isspace c = false := by
  induction h with
  | nil => simp
  | @code params text hparams _ ih =>
    intro c hc
    simp only [List.mem_cons, List.mem_append] at hc
    rcases hc with rfl | rfl | hc | rfl | hc
    · decide
    · decide
    · have hrange : 48 ≤ c.toNat ∧ c.toNat ≤ 63 := by
        simpa [isParam, Char.le_def, UInt32.le_iff_toNat_le] using hparams c hc
      simp only [isspace, isWhitespace, Bool.or_eq_false_iff, Bool.and_eq_false_iff,
        decide_eq_false_iff_not]
      omega
    · decide
    · exact ih c hc

theorem Sgr.oneLine {code : String} (h : Sgr code.toList) : OneLine code :=
  oneLine_of_forall (p := fun c => !isspace c) (by decide) (by decide) fun c hc => by
    simp [h.not_space c hc]

variable {colors : FuzzColors}

theorem SgrFuzz.outcome (h : SgrFuzz colors) (outcome : Verdict) :
    Sgr (outcome.style colors).on.toList ∧ Sgr (outcome.style colors).off.toList :=
  h _ (by cases outcome <;> simp [Verdict.style])

theorem oneLine_paint {style : Style} (h : Sgr style.on.toList ∧ Sgr style.off.toList)
    {text : String} (htext : OneLine text) : OneLine (paint style text) :=
  h.1.oneLine.append htext |>.append h.2.oneLine

theorem oneLine_outcomeLine (h : SgrFuzz colors) (outcome : Verdict) :
    OneLine (outcomeLine colors outcome) := by
  have hname : OneLine outcome.name := by cases outcome <;> decide
  have htitle : OneLine (paint colors.title "Fuzz testing result:") :=
    oneLine_paint (h _ (by simp)) (by decide)
  exact htitle.append (by decide) |>.append (oneLine_paint (h.outcome outcome) hname)

theorem oneLine_remarkLine (result : Option ℕ) : OneLine (remarkLine result) := by
  cases result with
  | none =>
    have hline : OneLine "  Some check failed explicitly :-(" := by decide
    exact hline
  | some remaining =>
    have hremark : OneLine (if remaining ≥ remainThresh then "<s><red>too many!</></>"
        else "reasonable") := by
      split_ifs <;> decide
    have hlead : OneLine "  Remaining checks queued:  " := by decide
    exact hlead.append (plain_toString remaining).oneLine |>.append (by decide) |>.append hremark

/-- The painted word is the last of its line. -/
theorem split_outcomeLine (h : SgrFuzz colors) (outcome : Verdict) :
    ∃ front, split (strip (outcomeLine colors outcome).toList) =
      front ++ [paint (outcome.style colors) outcome.name] := by
  have hword : Token isspace (paint (outcome.style colors) outcome.name).toList := by
    have hname : Token isspace outcome.name.toList := by cases outcome <;> decide
    obtain ⟨hon, hoff⟩ := h.outcome outcome
    refine ⟨by simp [paint, hname.1], fun c hc => ?_⟩
    simp only [paint, String.toList_append, List.mem_append] at hc
    rcases hc with (hc | hc) | hc
    · exact hon.not_space c hc
    · exact hname.2 c hc
    · exact hoff.not_space c hc
  have hspace : " ".toList = [' '] := rfl
  refine ⟨(words isspace (paint colors.title "Fuzz testing result:").toList).map String.ofList, ?_⟩
  rw [split_strip, outcomeLine, String.toList_append, String.toList_append, hspace,
    List.append_assoc, List.singleton_append, words_append_cons _ _ (by decide),
    words_token hword, List.map_append, List.map_singleton, String.ofList_toList]

theorem outcomeLine_found (colors : FuzzColors) (outcome : Verdict) :
    isIn "Fuzz testing result:" (strip (outcomeLine colors outcome).toList) = true := by
  have htrimmed : Trimmed isspace "Fuzz testing result:".toList := by decide
  rw [isIn_strip_iff htrimmed]
  unfold outcomeLine paint
  simp only [String.toList_append, List.append_assoc]
  exact ⟨colors.title.on.toList, _, List.append_assoc _ _ _⟩

/-! ## The log -/

/-- Lines without the announcement are passed over. -/
theorem parseFuzzLines_skip {fuzzLog : String} {before : List (List Char)}
    (h : ∀ line ∈ before, isIn "Fuzz testing result:" (strip line) = false)
    (rest : List (List Char)) :
    parseFuzzLines fuzzLog (before ++ rest) = parseFuzzLines fuzzLog rest := by
  induction before with
  | nil => rfl
  | cons line before ih =>
    have hline := h line (by simp)
    simp only [List.cons_append, parseFuzzLines, hline, Bool.false_eq_true, ↓reduceIte]
    exact ih fun l hl => h l (by simp [hl])

/-- What is printed before the result: whole lines that do not announce it. -/
structure Silent (before : String) : Prop where
  closed : Closed '\n' before.toList
  quiet : ∀ line ∈ fileLines before.toList, isIn "Fuzz testing result:" (strip line) = false

theorem parseFuzzResult_printed (hcolors : SgrFuzz colors) {before : String}
    (hbefore : Silent before) (result : Option ℕ) (fuzzLog : String) :
    parseFuzzResult fuzzLog
        (before ++ unlines [outcomeLine colors (verdict result), remarkLine result]) =
      .ok (verdict result).name := by
  have hlines : ∀ line ∈ [outcomeLine colors (verdict result), remarkLine result],
      OneLine line :=
    List.forall_mem_cons.mpr ⟨oneLine_outcomeLine hcolors _,
      List.forall_mem_singleton.mpr (oneLine_remarkLine result)⟩
  obtain ⟨front, hsplit⟩ := split_outcomeLine hcolors (verdict result)
  have hlast : fromEnd (front ++ [paint ((verdict result).style colors) (verdict result).name]) 1 =
      .ok (paint ((verdict result).style colors) (verdict result).name) := by
    simp [fromEnd]
  have hname : '\x1b' ∉ (verdict result).name.toList := by
    cases verdict result <;> decide
  obtain ⟨hon, hoff⟩ := hcolors.outcome (verdict result)
  rw [parseFuzzResult, String.toList_append, fileLines_append hbefore.closed,
    parseFuzzLines_skip hbefore.quiet, fileLines_unlines hlines, List.map_cons, parseFuzzLines]
  simp only [strip_newline, outcomeLine_found, ↓reduceIte, hsplit, hlast, bind, Except.bind,
    subAnsi_paint hon hoff hname, String.ofList_toList]

/-- What `main` prints is the outcome of the test. -/
theorem main_printed {args : Args} {draws : ℕ → ℕ → ℕ → ℕ}
    {spawn : ℕ → Except RunnerError Unit} {rounds : List Round}
    {stop : Except RunnerError Unit} {lines : String}
    (h : Fuzzer.main args colors draws spawn rounds stop = .printed lines) :
    args.check = .ok () ∧ startClients spawn args.numClis = .ok () ∧ ∃ lists result,
      genPool args.conflict args.numKeys draws args.numClis = .ok lists ∧
      fuzzTest args.numOps (poolOf args.numClis lists) rounds stop = .ok result ∧
      lines = unlines [outcomeLine colors (verdict result), remarkLine result] := by
  unfold Fuzzer.main at h
  cases hcheck : args.check with
  | error why => simp [hcheck] at h
  | ok _ =>
    cases hpool : genPool args.conflict args.numKeys draws args.numClis with
    | error why => simp [hcheck, hpool] at h
    | ok lists =>
      cases hspawn : startClients spawn args.numClis with
      | error err => simp [hcheck, hpool, hspawn] at h
      | ok _ =>
        cases htest : fuzzTest args.numOps (poolOf args.numClis lists) rounds stop with
        | ok result =>
          simp only [hcheck, hpool, hspawn, htest, MainEnd.printed.injEq] at h
          exact ⟨rfl, rfl, lists, result, rfl, htest, h.symm⟩
        | running => simp [hcheck, hpool, hspawn, htest] at h
        | panic why => simp [hcheck, hpool, hspawn, htest] at h
        | err err => simp [hcheck, hpool, hspawn, htest] at h

theorem check_ok {args : Args} (h : args.check = .ok ()) :
    args.numClis ≠ 0 ∧ args.numKeys ≠ 0 ∧ 1000 ≤ args.numOps := by
  unfold Args.check at h
  split_ifs at h with hclis hkeys hmany hops
  exact ⟨hclis, hkeys, hops⟩

/-- The report tells how the test ended. -/
theorem fuzz_report_reads_outcome {args : Args} {draws : ℕ → ℕ → ℕ → ℕ}
    {spawn : ℕ → Except RunnerError Unit} {rounds : List Round} {stop : Except RunnerError Unit}
    {lines before : String} (hcolors : SgrFuzz colors) (hbefore : Silent before)
    (h : Fuzzer.main args colors draws spawn rounds stop = .printed lines) (fuzzLog : String) :
    startClients spawn args.numClis = .ok () ∧ ∃ lists result,
      genPool args.conflict args.numKeys draws args.numClis = .ok lists ∧
      fuzzTest args.numOps (poolOf args.numClis lists) rounds stop = .ok result ∧
      parseFuzzResult fuzzLog (before ++ lines) = .ok (verdict result).name := by
  obtain ⟨-, hspawn, lists, result, hpool, htest, rfl⟩ := main_printed h
  exact ⟨hspawn, lists, result, hpool, htest,
    parseFuzzResult_printed hcolors hbefore result fuzzLog⟩

/-- Whatever its keys, its clients and their processes do, the fuzzer of this system
never makes the report read a failure. -/
theorem fuzzer_never_reports_failed {args : Args} {draws : ℕ → ℕ → ℕ → ℕ}
    {spawn : ℕ → Except RunnerError Unit} {lists : List (List String)} {rounds : List Round}
    {s : System args.numClis} {round : Round} {stop : Except RunnerError Unit}
    {lines before : String}
    (hpool : genPool args.conflict args.numKeys draws args.numClis = .ok lists)
    (hreach : System.Reachable args.numOps (poolOf args.numClis lists) rounds s)
    (hround : s.Hears round) (hcolors : SgrFuzz colors) (hbefore : Silent before)
    (h : Fuzzer.main args colors draws spawn (rounds ++ [round]) stop = .printed lines)
    (fuzzLog : String) :
    parseFuzzResult fuzzLog (before ++ lines) = .ok "PASSED" ∨
      parseFuzzResult fuzzLog (before ++ lines) = .ok "UNFAIR" := by
  obtain ⟨hcheck, -, lists', result, hpool', htest, rfl⟩ := main_printed h
  obtain rfl : lists = lists' := Except.ok.inj (hpool.symm.trans hpool')
  obtain ⟨hclis, hkeys, hops⟩ := check_ok hcheck
  have hmany : 100 ≤ args.numOps * args.numClis := by
    have hle := Nat.le_mul_of_pos_right args.numOps (Nat.pos_of_ne_zero hclis)
    omega
  have hpassed := hreach.fuzzTest_ne_failed (poolOf_usable hkeys hpool) hmany hround stop
  rw [parseFuzzResult_printed hcolors hbefore]
  cases result with
  | none => exact absurd htest hpassed
  | some remaining =>
    by_cases hremain : remaining ≥ remainThresh
    · exact .inr (by simp [verdict, hremain, Verdict.name])
    · exact .inl (by simp [verdict, hremain, Verdict.name])

/-! ## A log -/

/-- The sequence with one parameter. -/
def sgr (n : ℕ) : String := "\x1b[" ++ toString n ++ "m"

theorem sgr_sgr (n : ℕ) : Sgr (sgr n).toList := by
  have hparams : ∀ c ∈ (toString n).toList, isParam c = true := by
    intro c hc
    rw [Nat.toString_eq_repr, Nat.toList_repr] at hc
    have hdigit := Nat.isDigit_of_mem_toDigits (by decide) (by decide) hc
    have hrange : 48 ≤ c.toNat ∧ c.toNat ≤ 57 := by
      simpa [Char.isDigit, UInt32.le_iff_toNat_le] using hdigit
    simp only [isParam, Bool.and_eq_true, decide_eq_true_eq, Char.le_def, UInt32.le_iff_toNat_le]
    exact ⟨hrange.1, hrange.2.trans (by decide)⟩
  rw [sgr, String.toList_append, String.toList_append, List.append_assoc]
  exact .code hparams .nil

theorem Sgr.append {a b : List Char} (ha : Sgr a) (hb : Sgr b) : Sgr (a ++ b) := by
  induction ha with
  | nil => exact hb
  | code hparams _ ih =>
    rw [List.cons_append, List.cons_append, List.append_assoc, List.cons_append]
    exact .code hparams ih

/-- Bold, yellow, red and green, and their ends. -/
def ansiFuzz : FuzzColors where
  title := ⟨sgr 1 ++ sgr 33, sgr 39 ++ sgr 22⟩
  red := ⟨sgr 31, sgr 39⟩
  green := ⟨sgr 32, sgr 39⟩

theorem sgrFuzz_ansiFuzz : SgrFuzz ansiFuzz := by
  have hpair : ∀ m n, Sgr (sgr m ++ sgr n).toList := by
    intro m n
    rw [String.toList_append]
    exact (sgr_sgr m).append (sgr_sgr n)
  simp only [SgrFuzz, ansiFuzz, List.forall_mem_cons, hpair, sgr_sgr, List.not_mem_nil,
    false_implies, implies_true, and_self]

theorem silent_empty : Silent "" := ⟨.inl rfl, by simp [fileLines, universalNewlines, pieces]⟩

/-- One client with one key. -/
def oneClient : Args := ⟨1, 1, 1000, true⟩

/-- Nothing is heard in this iteration. -/
def quietRound : Round := ⟨true, [0], ⟨0, 0, 0, fun _ => 0⟩, .ok (), .error .join, .ok ()⟩

theorem oneClient_finishes : ∃ rounds, ∃ s : System 1, ∃ lines,
    System.Reachable 1000 (poolOf 1 [["key00000"]]) rounds s ∧ s.Hears quietRound ∧
      Fuzzer.main oneClient ansiFuzz (fun _ _ _ => 0) (fun _ => .ok ()) (rounds ++ [quietRound])
        (.ok ()) = .printed lines := by
  have hpool : genPool true 1 (fun _ _ _ => 0) 1 = .ok [["key00000"]] := rfl
  have hcheck : oneClient.check = .ok () := rfl
  have hnew : System.Reachable 1000 (poolOf 1 [["key00000"]]) [] (.new _) := .new
  obtain ⟨rounds, s, hreach, -, hdone⟩ := hnew.finish (poolOf_usable one_ne_zero hpool)
    (by decide) (by decide) (System.alive_new _)
  have htest : fuzzTest 1000 (poolOf 1 [["key00000"]]) (rounds ++ [quietRound]) (.ok ()) =
      .ok (some s.fuzz.history.queueLen) := by
    refine fuzzTest_finished ?_
    rw [← List.nil_append rounds, hreach.fuzzLoop_eq, fuzzLoop, if_neg (by omega)]
  have hround : s.Hears quietRound := by
    intro c resp _ hresp
    cases hresp
  have hprinted : Fuzzer.main oneClient ansiFuzz (fun _ _ _ => 0) (fun _ => .ok ())
      (rounds ++ [quietRound]) (.ok ()) = .printed (unlines
        [outcomeLine ansiFuzz (verdict (some s.fuzz.history.queueLen)),
          remarkLine (some s.fuzz.history.queueLen)]) := by
    unfold Fuzzer.main
    have hspawn : startClients (fun _ => .ok ()) 1 = .ok () := rfl
    rw [hcheck]
    simp only [oneClient, hpool, hspawn, htest]
  exact ⟨rounds, s, _, hreach, hround, hprinted⟩

theorem fuzz_report_reads_outcome_oneClient : ∃ rounds lines result,
    Fuzzer.main oneClient ansiFuzz (fun _ _ _ => 0) (fun _ => .ok ()) rounds (.ok ()) =
      .printed lines ∧
      parseFuzzResult "fuzz.log" lines = .ok (verdict result).name := by
  obtain ⟨rounds, s, lines, -, -, hprinted⟩ := oneClient_finishes
  obtain ⟨_, _, result, _, _, hread⟩ := fuzz_report_reads_outcome sgrFuzz_ansiFuzz silent_empty
    hprinted "fuzz.log"
  exact ⟨_, lines, result, hprinted, by simpa using hread⟩

theorem fuzzer_never_reports_failed_oneClient : ∃ rounds lines,
    Fuzzer.main oneClient ansiFuzz (fun _ _ _ => 0) (fun _ => .ok ()) rounds (.ok ()) =
      .printed lines ∧
      (parseFuzzResult "fuzz.log" ("" ++ lines) = .ok "PASSED" ∨
        parseFuzzResult "fuzz.log" ("" ++ lines) = .ok "UNFAIR") := by
  obtain ⟨rounds, s, lines, hreach, hround, hprinted⟩ := oneClient_finishes
  have hpool : genPool oneClient.conflict oneClient.numKeys (fun _ _ _ => 0) oneClient.numClis =
      .ok [["key00000"]] := rfl
  exact ⟨_, lines, hprinted, fuzzer_never_reports_failed hpool hreach hround sgrFuzz_ansiFuzz
    silent_empty hprinted "fuzz.log"⟩

end MadKV.Sumgen
