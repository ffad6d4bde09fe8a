import MadKV.Wire.Framing
import MadKV.Wire.Termination

/-!
# What the response parser takes for a response

The lines that `from_read` consumes for a response, blank ones aside, are those
of its rendering, each possibly with more words behind the ones that belong
there: the segments are taken from the front of a line, and nothing asks
whether any are left. Conversely every stream of such lines is taken.
-/

namespace MadKV.Wire

open Runner Support Spec

/-! ## One line -/

theorem map_eq_ok {ε α β : Type*} {f : α → β} {x : Except ε α} {b : β} :
    x.map f = .ok b ↔ ∃ a, x = .ok a ∧ f a = b := by
  cases x <;> simp [Except.map]

theorem expectFound_ok {segs : List String} {buffer : List Char} {key : String} {found : Bool} :
    KvResp.expectFound segs buffer = .ok (key, found) ↔ [key, foundText found] <+: segs := by
  match segs with
  | [] => simp [KvResp.expectFound, KvResp.expectNextSeg, bind, Except.bind]
  | [_] => simp [KvResp.expectFound, KvResp.expectNextSeg, bind, Except.bind]
  | k :: f :: rest =>
    simp only [KvResp.expectFound, KvResp.expectNextSeg, bind, Except.bind]
    split_ifs with hfound hnot
    · cases found <;> simp [hfound, foundText, List.cons_prefix_cons, eq_comm]
    · cases found <;> simp [hnot, foundText, List.cons_prefix_cons, eq_comm]
    · cases found <;> simp [foundText, List.cons_prefix_cons, Ne.symm hfound, Ne.symm hnot]

theorem expectValue_ok {segs : List String} {buffer : List Char} {key : String}
    {value : Option String} : KvResp.expectValue segs buffer = .ok (key, value) ↔
      [key, valueText value] <+: segs ∧ value ≠ some "null" := by
  match segs with
  | [] => simp [KvResp.expectValue, KvResp.expectNextSeg, bind, Except.bind]
  | [_] => simp [KvResp.expectValue, KvResp.expectNextSeg, bind, Except.bind]
  | k :: v :: rest =>
    simp only [KvResp.expectValue, KvResp.expectNextSeg, bind, Except.bind]
    split_ifs with hv
    · cases value <;> simp [hv, valueText, List.cons_prefix_cons, eq_comm]
    · cases value with
      | none => simp [valueText, List.cons_prefix_cons, Ne.symm hv]
      | some w => grind [valueText]

theorem expectBegin_ok {segs : List String} {buffer : List Char} {keyStart keyEnd : String} :
    KvResp.expectBegin segs buffer = .ok (keyStart, keyEnd) ↔
      [keyStart, keyEnd, "BEGIN"] <+: segs := by
  match segs with
  | [] => simp [KvResp.expectBegin, KvResp.expectNextSeg, bind, Except.bind]
  | [_] => simp [KvResp.expectBegin, KvResp.expectNextSeg, bind, Except.bind]
  | [_, _] => simp [KvResp.expectBegin, KvResp.expectNextSeg, bind, Except.bind]
  | a :: b :: c :: rest =>
    simp only [KvResp.expectBegin, KvResp.expectNextSeg, bind, Except.bind]
    split_ifs with hne
    · simp [List.cons_prefix_cons, Ne.symm hne]
    · simp [List.cons_prefix_cons, not_not.mp hne, eq_comm]

theorem expectEntry_ok {buffer : List Char} {e : String × String} :
    KvResp.expectEntry buffer = .ok e ↔ [e.1, e.2] <+: splitWhitespace buffer := by
  unfold KvResp.expectEntry KvResp.getSegsOfLine
  match splitWhitespace buffer with
  | [] => simp [KvResp.expectNextSeg, bind, Except.bind]
  | [_] => simp [KvResp.expectNextSeg, bind, Except.bind]
  | k :: v :: rest =>
    simp [KvResp.expectNextSeg, bind, Except.bind, List.cons_prefix_cons, Prod.ext_iff, eq_comm]

/-- Behind its first line only a Scan reads on. -/
def ReadsOn (fuel : ℕ) (reader rest : List UInt8) : KvResp → Prop
  | .scan _ _ entries => KvResp.scanLoop fuel [] reader = some (.ok entries, rest)
  | _ => rest = reader

/-- No value is the word that stands for a missing one. -/
def NoNull : KvResp → Prop
  | .swap _ value => value ≠ some "null"
  | .get _ value => value ≠ some "null"
  | _ => True

/-- The first line begins with the words of the response that is returned. -/
theorem fromLine_ok {fuel : ℕ} {buffer : List Char} {reader rest : List UInt8} {resp : KvResp}
    (h : KvResp.fromLine fuel buffer reader = some (.ok resp, rest)) :
    headWords resp <+: splitWhitespace buffer ∧ NoNull resp ∧ ReadsOn fuel reader rest resp := by
  unfold KvResp.fromLine KvResp.getSegsOfLine at h
  cases hs : splitWhitespace buffer with
  | nil => simp [hs] at h
  | cons seg segs =>
    simp only [hs] at h
    split_ifs at h with hput hswap hget hscan hdelete hstop
    · subst hput
      simp only [Option.some.injEq, Prod.mk.injEq, map_eq_ok] at h
      obtain ⟨⟨⟨key, found⟩, hfound, rfl⟩, rfl⟩ := h
      simpa [headWords, NoNull, ReadsOn, List.cons_prefix_cons] using expectFound_ok.mp hfound
    · subst hswap
      simp only [Option.some.injEq, Prod.mk.injEq, map_eq_ok] at h
      obtain ⟨⟨⟨key, value⟩, hvalue, rfl⟩, rfl⟩ := h
      simpa [headWords, NoNull, ReadsOn, List.cons_prefix_cons] using expectValue_ok.mp hvalue
    · subst hget
      simp only [Option.some.injEq, Prod.mk.injEq, map_eq_ok] at h
      obtain ⟨⟨⟨key, value⟩, hvalue, rfl⟩, rfl⟩ := h
      simpa [headWords, NoNull, ReadsOn, List.cons_prefix_cons] using expectValue_ok.mp hvalue
    · subst hscan
      cases hbegin : KvResp.expectBegin segs buffer with
      | error err => simp [hbegin] at h
      | ok bounds =>
        obtain ⟨keyStart, keyEnd⟩ := bounds
        cases hloop : KvResp.scanLoop fuel [] reader with
        | none => simp [hbegin, hloop] at h
        | some result =>
          simp only [hbegin, hloop, Option.some.injEq, Prod.mk.injEq, map_eq_ok] at h
          obtain ⟨⟨entries, hentries, rfl⟩, rfl⟩ := h
          refine ⟨?_, trivial, by rw [ReadsOn, hloop, ← hentries]⟩
          simpa [headWords, List.cons_prefix_cons] using expectBegin_ok.mp hbegin
    · subst hdelete
      simp only [Option.some.injEq, Prod.mk.injEq, map_eq_ok] at h
      obtain ⟨⟨⟨key, found⟩, hfound, rfl⟩, rfl⟩ := h
      simpa [headWords, NoNull, ReadsOn, List.cons_prefix_cons] using expectFound_ok.mp hfound
    · subst hstop
      simp only [Option.some.injEq, Prod.mk.injEq, Except.ok.injEq] at h
      obtain ⟨rfl, rfl⟩ := h
      simp [headWords, NoNull, ReadsOn]
    · simp at h

/-- A line that begins with the words of a response is taken for its first line,
whatever comes after them. -/
theorem fromLine_of_words {fuel : ℕ} {buffer : List Char} {reader rest : List UInt8}
    {resp : KvResp} (h : headWords resp <+: splitWhitespace buffer) (hnull : NoNull resp)
    (hon : ReadsOn fuel reader rest resp) :
    KvResp.fromLine fuel buffer reader = some (.ok resp, rest) := by
  obtain ⟨more, hwords⟩ := h
  unfold KvResp.fromLine KvResp.getSegsOfLine
  rw [← hwords]
  cases resp with
  | put key found =>
    cases hon
    have hfound : KvResp.expectFound (key :: foundText found :: more) buffer = .ok (key, found) :=
      expectFound_ok.mpr ⟨more, rfl⟩
    simp [headWords, hfound, Except.map]
  | swap key value =>
    cases hon
    have hvalue : KvResp.expectValue (key :: valueText value :: more) buffer = .ok (key, value) :=
      expectValue_ok.mpr ⟨⟨more, rfl⟩, hnull⟩
    simp [headWords, hvalue, Except.map]
  | get key value =>
    cases hon
    have hvalue : KvResp.expectValue (key :: valueText value :: more) buffer = .ok (key, value) :=
      expectValue_ok.mpr ⟨⟨more, rfl⟩, hnull⟩
    simp [headWords, hvalue, Except.map]
  | scan keyStart keyEnd entries =>
    have hbegin : KvResp.expectBegin (keyStart :: keyEnd :: "BEGIN" :: more) buffer =
        .ok (keyStart, keyEnd) := expectBegin_ok.mpr ⟨more, rfl⟩
    have hloop : KvResp.scanLoop fuel [] reader = some (.ok entries, rest) := hon
    simp [headWords, hbegin, hloop, Except.map]
  | delete key found =>
    cases hon
    have hfound : KvResp.expectFound (key :: foundText found :: more) buffer = .ok (key, found) :=
      expectFound_ok.mpr ⟨more, rfl⟩
    simp [headWords, hfound, Except.map]
  | stop =>
    cases hon
    simp [headWords]

/-! ## The lines of a response -/

/-- The texts of the lines that are not blank, the last of which ends them. -/
inductive Texts : List (List UInt8) → List (List Char) → Prop
  | nil : Texts [] []
  | line {blanks ps : List (List UInt8)} {piece : List UInt8} {text : List Char}
      {texts : List (List Char)} : (∀ b ∈ blanks, ¬ Stops b) → ofUtf8? piece = some text →
      ¬ Gap isWhitespace text → Texts ps texts → Texts (blanks ++ piece :: ps) (text :: texts)

theorem Texts.append {ps ps' : List (List UInt8)} {texts texts' : List (List Char)}
    (h : Texts ps texts) (h' : Texts ps' texts') : Texts (ps ++ ps') (texts ++ texts') := by
  induction h with
  | nil => exact h'
  | line hblanks htext hgap _ ih => simpa using Texts.line hblanks htext hgap ih

theorem stops_of_text {piece : List UInt8} {text : List Char} (htext : ofUtf8? piece = some text)
    (hgap : ¬ Gap isWhitespace text) : Stops piece := by
  intro text' htext'
  obtain rfl := Option.some.inj (htext.symm.trans htext')
  exact hgap

/-- The line that was read is the first one that is not blank. -/
theorem readNextLine_ok {fuel : ℕ} {stream rest : List UInt8} {buffer : List Char}
    (h : KvResp.readNextLine fuel stream = some (.ok buffer, rest)) :
    ∃ consumed text gap, pieces 10 stream = consumed ++ pieces 10 rest ∧
      Texts consumed [text] ∧ Gap isWhitespace gap ∧ buffer = gap ++ text := by
  by_cases hex : ∃ piece ∈ pieces 10 stream, Stops piece
  · obtain ⟨before, piece, after, hsplit, hbefore, hstops⟩ := first_split hex
    obtain ⟨rest', hrest, hinvalid, hvalid⟩ := readNextLine_first hsplit hbefore hstops
      (show before.length < max fuel (before.length + 1) by omega)
    have hmore := KvResp.readNextLine_mono h (le_max_left fuel (before.length + 1))
    cases htext : ofUtf8? piece with
    | none =>
      obtain ⟨err, herr⟩ := hinvalid htext
      simp [hmore] at herr
    | some text =>
      obtain ⟨gap, hgap, hread⟩ := hvalid text htext
      rw [hmore, Option.some.injEq, Prod.mk.injEq, Except.ok.injEq] at hread
      obtain ⟨rfl, rfl⟩ := hread
      exact ⟨before ++ [piece], text, gap, by simp [hsplit, hrest],
        .line hbefore htext (hstops text htext) .nil, hgap, rfl⟩
  · have hnever : ∀ piece ∈ pieces 10 stream, ¬ Stops piece :=
      fun piece hp hs => hex ⟨piece, hp, hs⟩
    simp [readNextLine_never hnever] at h

/-- The first line that is not blank is read, together with the blank ones before it. -/
theorem readNextLine_texts {stream : List UInt8} {consumed after : List (List UInt8)}
    {text : List Char} {texts : List (List Char)} (htexts : Texts consumed (text :: texts))
    (hsplit : pieces 10 stream = consumed ++ after) :
    ∃ more gap rest enough, Texts more texts ∧ pieces 10 rest = more ++ after ∧
      Gap isWhitespace gap ∧ ∀ fuel ≥ enough,
        KvResp.readNextLine fuel stream = some (.ok (gap ++ text), rest) := by
  generalize hall : text :: texts = all at htexts
  cases htexts with
  | nil => cases hall
  | @line blanks ps piece _ _ hblanks htext hgap hmore =>
    cases hall
    obtain ⟨rest, hrest, -, hvalid⟩ := readNextLine_first
      (show pieces 10 stream = blanks ++ piece :: (ps ++ after) by simpa using hsplit)
      hblanks (stops_of_text htext hgap) (Nat.lt_succ_self blanks.length)
    obtain ⟨gap, hgap, hread⟩ := hvalid text htext
    exact ⟨ps, gap, rest, blanks.length + 1, hmore, hrest, hgap,
      fun fuel hfuel => KvResp.readNextLine_mono hread hfuel⟩

/-- The text of an entry line: it begins with the key and the value, and is not taken
for the terminator. -/
def EntryText (e : String × String) (text : List Char) : Prop :=
  [e.1, e.2] <+: splitWhitespace text ∧ trim isWhitespace text ≠ "SCAN END".toList

/-- The lines of a Scan block behind the first: one an entry, then the terminator. -/
theorem scanLoop_ok {fuel : ℕ} : ∀ {entries result : List (String × String)}
    {stream rest : List UInt8}, KvResp.scanLoop fuel entries stream = some (.ok result, rest) →
      ∃ more consumed texts last, result = entries ++ more ∧
        pieces 10 stream = consumed ++ pieces 10 rest ∧ Texts consumed (texts ++ [last]) ∧
        List.Forall₂ EntryText more texts ∧ trim isWhitespace last = "SCAN END".toList := by
  induction fuel with
  | zero =>
    intro entries result stream rest h
    simp [KvResp.scanLoop] at h
  | succ fuel ih =>
    intro entries result stream rest h
    unfold KvResp.scanLoop at h
    rcases hread : KvResp.readNextLine (fuel + 1) stream with _ | ⟨err | buffer, next⟩
    · simp [hread] at h
    · simp [hread] at h
    · obtain ⟨consumed, text, gap, hsplit, htexts, hgap, rfl⟩ := readNextLine_ok hread
      simp only [hread, trim_gap_append hgap] at h
      split_ifs at h with hend
      · obtain ⟨rfl, rfl⟩ : entries = result ∧ next = rest := by simpa using h
        exact ⟨[], consumed, [], text, by simp, hsplit, htexts, .nil, hend⟩
      · cases hentry : KvResp.expectEntry (gap ++ text) with
        | error err => simp [hentry] at h
        | ok e =>
          simp only [hentry] at h
          obtain ⟨more, consumed', texts, last, rfl, hsplit', htexts', hmore, hlast⟩ := ih h
          have hwords := expectEntry_ok.mp hentry
          rw [splitWhitespace_gap_append hgap] at hwords
          refine ⟨e :: more, consumed ++ consumed', text :: texts, last, by simp, ?_,
            htexts.append htexts', .cons ⟨hwords, hend⟩ hmore, hlast⟩
          rw [hsplit, hsplit', List.append_assoc]

/-- Such lines are read to the end of the block. -/
theorem scanLoop_texts {more : List (String × String)} {texts : List (List Char)}
    {last : List Char} (hmore : List.Forall₂ EntryText more texts)
    (hlast : trim isWhitespace last = "SCAN END".toList) :
    ∀ {stream : List UInt8} {consumed after : List (List UInt8)},
      Texts consumed (texts ++ [last]) → pieces 10 stream = consumed ++ after →
      ∃ rest enough, pieces 10 rest = after ∧ ∀ fuel ≥ enough, ∀ entries,
        KvResp.scanLoop fuel entries stream = some (.ok (entries ++ more), rest) := by
  induction hmore with
  | nil =>
    intro stream consumed after htexts hsplit
    obtain ⟨ps, gap, rest, enough, hps, hrest, hgap, hread⟩ := readNextLine_texts htexts hsplit
    cases hps
    refine ⟨rest, enough + 1, hrest, fun fuel hfuel entries => ?_⟩
    obtain ⟨fuel, rfl⟩ : ∃ k, fuel = k + 1 := ⟨fuel - 1, by omega⟩
    rw [KvResp.scanLoop, hread (fuel + 1) (by omega)]
    simp only [trim_gap_append hgap, hlast, ↓reduceIte, List.append_nil]
  | @cons e text more texts hentry _ ih =>
    intro stream consumed after htexts hsplit
    obtain ⟨ps, gap, next, enough, hps, hnext, hgap, hread⟩ := readNextLine_texts htexts hsplit
    obtain ⟨rest, enough', hrest, hloop⟩ := ih hps hnext
    have hwords : KvResp.expectEntry (gap ++ text) = .ok e :=
      expectEntry_ok.mpr (by rw [splitWhitespace_gap_append hgap]; exact hentry.1)
    refine ⟨rest, max enough enough' + 1, hrest, fun fuel hfuel entries => ?_⟩
    obtain ⟨fuel, rfl⟩ : ∃ k, fuel = k + 1 := ⟨fuel - 1, by omega⟩
    rw [KvResp.scanLoop, hread (fuel + 1) (by omega)]
    simp only [trim_gap_append hgap, hentry.2, ↓reduceIte, hwords]
    simpa using hloop fuel (by omega) (entries ++ [e])

/-! ## What is read as which response -/

/-- The parser takes the text for the line of a rendering: it begins with the words of
the line, and one of the two is the end of a Scan block only if the other is. -/
def Fits (line : String) (text : List Char) : Prop :=
  splitWhitespace line.toList <+: splitWhitespace text ∧
    (line = "SCAN END" ↔ trim isWhitespace text = "SCAN END".toList)

theorem splitWhitespace_head {resp : KvResp}
    (h : ∀ w ∈ headWords resp, Token isWhitespace w.toList) :
    splitWhitespace (String.ofList (wordsLine (headWords resp))).toList = headWords resp := by
  rw [String.toList_ofList]
  simpa using splitWhitespace_line h gap_nil gap_nil

/-- No first line is the end of a Scan block, nor does it begin with the words of one. -/
theorem head_not_prefix (resp : KvResp) : ¬ headWords resp <+: ["SCAN", "END"] := by
  cases resp <;> simp [headWords, List.cons_prefix_cons]

theorem splitWhitespace_of_terminator {text : List Char}
    (h : trim isWhitespace text = "SCAN END".toList) : splitWhitespace text = ["SCAN", "END"] := by
  rw [splitWhitespace, ← words_trim text, h]
  decide

theorem fits_head {resp : KvResp} (h : ∀ w ∈ headWords resp, Token isWhitespace w.toList)
    {text : List Char} : Fits (String.ofList (wordsLine (headWords resp))) text ↔
      headWords resp <+: splitWhitespace text := by
  have hwords := splitWhitespace_head h
  rw [Fits, hwords]
  refine and_iff_left_of_imp fun hprefix => iff_of_false (fun hend => ?_) fun hend => ?_
  · have hsame : headWords resp = ["SCAN", "END"] := by
      rw [← hwords, hend]
      decide
    exact head_not_prefix resp (by rw [hsame])
  · rw [splitWhitespace_of_terminator hend] at hprefix
    exact head_not_prefix resp hprefix

theorem fits_entry {e : String × String} (h : EntryTokens e) {text : List Char} :
    Fits (entryLine e) text ↔ EntryText e text := by
  have hwords : splitWhitespace (entryLine e).toList = [e.1, e.2] := by
    simpa using splitWhitespace_entryLine h gap_nil gap_nil
  have hnot : entryLine e ≠ "SCAN END" := fun hend => by
    have hhead := congrArg (fun s => s.toList.head?) hend
    simp [entryLine] at hhead
  rw [Fits, hwords, EntryText]
  exact and_congr_right fun _ => by simp [hnot]

theorem fits_terminator {text : List Char} :
    Fits "SCAN END" text ↔ trim isWhitespace text = "SCAN END".toList := by
  refine ⟨fun h => h.2.mp rfl, fun h => ⟨?_, fun _ => h, fun _ => rfl⟩⟩
  rw [splitWhitespace_of_terminator h]
  decide

theorem EntryText.tokens {e : String × String} {text : List Char} (h : EntryText e text) :
    EntryTokens e :=
  ⟨token_of_mem_splitWhitespace (h.1.subset (by simp)),
    token_of_mem_splitWhitespace (h.1.subset (by simp))⟩

theorem forall₂_tokens {entries : List (String × String)} {texts : List (List Char)}
    (h : List.Forall₂ EntryText entries texts) : ∀ e ∈ entries, EntryTokens e := by
  induction h with
  | nil => simp
  | cons hentry _ ih => exact List.forall_mem_cons.mpr ⟨hentry.tokens, ih⟩

/-- The keys and values of a response are words if those of its lines are. -/
theorem wellFormedResp_of_words {resp : KvResp}
    (hhead : ∀ w ∈ headWords resp, Token isWhitespace w.toList)
    (hentries : ∀ keyStart keyEnd entries, resp = .scan keyStart keyEnd entries →
      ∀ e ∈ entries, EntryTokens e) : WellFormedResp resp := by
  cases resp with
  | scan keyStart keyEnd entries =>
    intro w hw
    simp only [respArgs, List.mem_cons, List.mem_flatMap] at hw
    rcases hw with rfl | rfl | ⟨e, he, hw⟩
    · exact hhead _ (by simp [headWords])
    · exact hhead _ (by simp [headWords])
    · exact (hentries _ _ _ rfl e he).forall_mem w (by simpa using hw)
  | swap key value => cases value <;> simp_all [WellFormedResp, respArgs, headWords, valueText]
  | get key value => cases value <;> simp_all [WellFormedResp, respArgs, headWords, valueText]
  | _ => simp_all [WellFormedResp, respArgs, headWords]

/-- The lines behind the first are those that the parser reads on for. -/
theorem readsOn_fits {fuel : ℕ} {reader rest : List UInt8} {resp : KvResp}
    (h : ReadsOn fuel reader rest resp) :
    (∀ keyStart keyEnd entries, resp = .scan keyStart keyEnd entries →
      ∀ e ∈ entries, EntryTokens e) ∧
    ∃ consumed texts, pieces 10 reader = consumed ++ pieces 10 rest ∧ Texts consumed texts ∧
      List.Forall₂ Fits (tailLines resp) texts := by
  cases resp with
  | scan keyStart keyEnd entries =>
    obtain ⟨more, consumed, texts, last, rfl, hsplit, htexts, hmore, hlast⟩ := scanLoop_ok h
    have htokens := forall₂_tokens hmore
    refine ⟨fun _ _ _ heq => by cases heq; exact htokens, consumed, texts ++ [last], hsplit,
      htexts, ?_⟩
    refine List.rel_append ?_ (.cons (fits_terminator.mpr hlast) .nil)
    rw [List.forall₂_map_left_iff]
    exact hmore.imp fun _ _ hentry => (fits_entry hentry.tokens).mpr hentry
  | _ =>
    cases h
    exact ⟨by simp, [], [], rfl, .nil, .nil⟩

theorem block_of_fits {entries : List (String × String)} {texts : List (List Char)}
    (hentries : ∀ e ∈ entries, EntryTokens e)
    (h : List.Forall₂ Fits (entries.map entryLine ++ ["SCAN END"]) texts) :
    ∃ more last, texts = more ++ [last] ∧ List.Forall₂ EntryText entries more ∧
      trim isWhitespace last = "SCAN END".toList := by
  induction entries generalizing texts with
  | nil =>
    obtain ⟨last, _, hlast, hnil, rfl⟩ := List.forall₂_cons_left_iff.mp h
    cases hnil
    exact ⟨[], last, rfl, .nil, fits_terminator.mp hlast⟩
  | cons e entries ih =>
    obtain ⟨text, texts, hentry, hmore, rfl⟩ := List.forall₂_cons_left_iff.mp h
    obtain ⟨more, last, rfl, hblock, hlast⟩ := ih (fun e' he' => hentries e' (by simp [he'])) hmore
    exact ⟨text :: more, last, rfl, .cons ((fits_entry (hentries e (by simp))).mp hentry) hblock,
      hlast⟩

theorem readsOn_of_fits {reader : List UInt8} {resp : KvResp} {consumed after : List (List UInt8)}
    {texts : List (List Char)} (hwf : WellFormedResp resp) (htexts : Texts consumed texts)
    (hsplit : pieces 10 reader = consumed ++ after)
    (hfits : List.Forall₂ Fits (tailLines resp) texts) :
    ∃ rest enough, pieces 10 rest = after ∧ ∀ fuel ≥ enough, ReadsOn fuel reader rest resp := by
  cases resp with
  | scan keyStart keyEnd entries =>
    obtain ⟨more, last, rfl, hblock, hlast⟩ := block_of_fits hwf.entries hfits
    obtain ⟨rest, enough, hrest, hloop⟩ := scanLoop_texts hblock hlast htexts hsplit
    exact ⟨rest, enough, hrest, fun fuel hfuel => hloop fuel hfuel []⟩
  | _ =>
    cases hfits
    cases htexts
    exact ⟨reader, 0, hsplit, fun _ _ => rfl⟩

/-- The parser returns a response exactly if the lines it consumed are those of the
response, each perhaps with more words behind the ones that belong there. -/
theorem fromRead_ok_iff (stream rest : List UInt8) (resp : KvResp) :
    (∃ fuel, KvResp.fromRead fuel stream = some (.ok resp, rest)) ↔
      WellFormedResp resp ∧ NoNull resp ∧ ∃ consumed texts,
        pieces 10 stream = consumed ++ pieces 10 rest ∧ Texts consumed texts ∧
        List.Forall₂ Fits (respLines resp) texts := by
  rw [respLines_eq]
  constructor
  · rintro ⟨fuel, h⟩
    unfold KvResp.fromRead at h
    rcases hread : KvResp.readNextLine fuel stream with _ | ⟨err | buffer, next⟩
    · simp [hread] at h
    · simp [hread] at h
    · simp only [hread] at h
      obtain ⟨consumed, text, gap, hsplit, htexts, hgap, rfl⟩ := readNextLine_ok hread
      obtain ⟨hhead, hnull, hon⟩ := fromLine_ok h
      rw [splitWhitespace_gap_append hgap] at hhead
      have htokens : ∀ w ∈ headWords resp, Token isWhitespace w.toList :=
        fun w hw => token_of_mem_splitWhitespace (hhead.subset hw)
      obtain ⟨hentries, consumed', texts, hsplit', htexts', hfits⟩ := readsOn_fits hon
      refine ⟨wellFormedResp_of_words htokens hentries, hnull, consumed ++ consumed', text :: texts,
        ?_, htexts.append htexts', .cons ((fits_head htokens).mpr hhead) hfits⟩
      rw [hsplit, hsplit', List.append_assoc]
  · rintro ⟨hwf, hnull, consumed, texts, hsplit, htexts, hfits⟩
    cases hfits with
    | @cons _ text _ texts hhead hfits =>
      obtain ⟨ps, gap, next, enough, hps, hnext, hgap, hread⟩ := readNextLine_texts htexts hsplit
      obtain ⟨rest', enough', hrest, hon⟩ := readsOn_of_fits hwf hps hnext hfits
      obtain rfl := pieces_injective hrest
      refine ⟨max enough enough', ?_⟩
      rw [KvResp.fromRead, hread _ (le_max_left _ _)]
      refine fromLine_of_words ?_ hnull (hon _ (le_max_right _ _))
      rw [splitWhitespace_gap_append hgap]
      exact (fits_head hwf.headWords).mp hhead

/-- The text of a Get line with more words than it should have. -/
def surplusLine : String := "GET k a b\n"

theorem fromRead_surplusLine :
    KvResp.fromRead 1 (bytes surplusLine) = some (.ok (.get "k" (some "a")), []) := by
  decide

/-- The rest of the value is dropped: the words consumed are not those of the response. -/
theorem fromRead_drops_words :
    ¬ ∀ (fuel : ℕ) (stream rest : List UInt8) (resp : KvResp),
      KvResp.fromRead fuel stream = some (.ok resp, rest) →
      ∃ consumed texts, pieces 10 stream = consumed ++ pieces 10 rest ∧ Texts consumed texts ∧
        List.Forall₂ (fun line text => splitWhitespace text = splitWhitespace line.toList)
          (respLines resp) texts := by
  intro hclaim
  obtain ⟨consumed, texts, hsplit, htexts, hlines⟩ :=
    hclaim 1 (bytes surplusLine) [] _ fromRead_surplusLine
  have hconsumed : consumed = [bytes surplusLine] := by
    rw [pieces_eq_nil_iff.mpr rfl, List.append_nil] at hsplit
    rw [← hsplit]
    decide
  have hdecoded : ofUtf8? (bytes surplusLine) = some surplusLine.toList := ofUtf8?_utf8 _
  cases htexts with
  | nil => cases hconsumed
  | @line blanks ps piece text texts hblanks htext _ _ =>
    cases hlines with
    | cons hwords _ =>
      obtain rfl : piece = bytes surplusLine := by
        have hmem : piece ∈ [bytes surplusLine] := hconsumed ▸ by simp
        simpa using hmem
      obtain rfl := Option.some.inj (hdecoded.symm.trans htext)
      exact absurd hwords (by decide)

end MadKV.Wire
