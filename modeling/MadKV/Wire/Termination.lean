import MadKV.Runner.IoApi
import MadKV.RefCli.Main

/-!
# When reading ends

No loop of the interface looks at the end of the input. Each ends exactly when
the stream contains a line that makes it end; all lines are taken as they stand
in the stream, with their newlines.
-/

namespace MadKV.Wire

open Runner Support

/-! ## The runner -/

/-- A line that ends the loop over the entries of a Scan: not valid text, the
terminator, or a single word. -/
def EndsScan (piece : List UInt8) : Prop :=
  ofUtf8? piece = none ∨ ∃ text, ofUtf8? piece = some text ∧
    (trim isWhitespace text = "SCAN END".toList ∨ ∃ word, splitWhitespace text = [word])

/-- The first line of a Scan block. -/
def OpensScan (piece : List UInt8) : Prop :=
  ∃ text, ofUtf8? piece = some text ∧ ∃ keyStart keyEnd rest,
    splitWhitespace text = "SCAN" :: keyStart :: keyEnd :: "BEGIN" :: rest

/-- The stream has a line that is not skipped, and one that ends the Scan block
if this line opens one. -/
def Answers (stream : List UInt8) : Prop :=
  ∃ before piece after, pieces 10 stream = before ++ piece :: after ∧
    (∀ b ∈ before, ¬ Stops b) ∧ Stops piece ∧ (OpensScan piece → ∃ b ∈ after, EndsScan b)

theorem EndsScan.stops {piece : List UInt8} (h : EndsScan piece) : Stops piece := by
  intro text htext hgap
  rcases h with hnone | ⟨text', htext', htrim | ⟨word, hword⟩⟩
  · simp [hnone] at htext
  · obtain rfl := Option.some.inj (htext.symm.trans htext')
    rw [trim_eq_nil_iff.mpr hgap] at htrim
    simp at htrim
  · obtain rfl := Option.some.inj (htext.symm.trans htext')
    simp [splitWhitespace, words_gap hgap] at hword

/-- A line of the block that is read as an entry. -/
theorem entry_of_not_endsScan {piece : List UInt8} (hstops : Stops piece) (h : ¬ EndsScan piece) :
    ∃ text, ofUtf8? piece = some text ∧ ∀ gap, Gap isWhitespace gap →
      trim isWhitespace (gap ++ text) ≠ "SCAN END".toList ∧
        ∃ entry, KvResp.expectEntry (gap ++ text) = .ok entry := by
  rw [EndsScan, not_or] at h
  obtain ⟨text, htext⟩ := Option.ne_none_iff_exists'.mp h.1
  have hnot : ¬ (trim isWhitespace text = "SCAN END".toList ∨
      ∃ word, splitWhitespace text = [word]) := fun hend => h.2 ⟨text, htext, hend⟩
  rw [not_or] at hnot
  refine ⟨text, htext, fun gap hgap => ⟨trim_gap_append hgap text ▸ hnot.1, ?_⟩⟩
  have hsegs := splitWhitespace_gap_append hgap text
  match hs : splitWhitespace text with
  | [] =>
    have hnil : words isWhitespace text = [] := by simpa [splitWhitespace] using hs
    exact absurd (words_eq_nil_iff.mp hnil) (hstops text htext)
  | [word] => exact absurd ⟨word, hs⟩ hnot.2
  | key :: value :: rest =>
    exact ⟨(key, value), by
      simp only [KvResp.expectEntry, KvResp.getSegsOfLine, hsegs, hs, KvResp.expectNextSeg]
      rfl⟩

theorem readNextLine_never {fuel : ℕ} {stream : List UInt8}
    (h : ∀ piece ∈ pieces 10 stream, ¬ Stops piece) : KvResp.readNextLine fuel stream = none := by
  rw [KvResp.readNextLine, readNonBlank_never gap_nil h]

theorem readNextLine_first {fuel : ℕ} {stream : List UInt8} {before after : List (List UInt8)}
    {piece : List UInt8} (hsplit : pieces 10 stream = before ++ piece :: after)
    (hbefore : ∀ b ∈ before, ¬ Stops b) (hstops : Stops piece) (hfuel : before.length < fuel) :
    ∃ rest, pieces 10 rest = after ∧
      (ofUtf8? piece = none →
        ∃ err, KvResp.readNextLine fuel stream = some (.error err, rest)) ∧
      ∀ text, ofUtf8? piece = some text → ∃ gap, Gap isWhitespace gap ∧
        KvResp.readNextLine fuel stream = some (.ok (gap ++ text), rest) := by
  obtain ⟨rest, hrest, hinvalid, hvalid⟩ :=
    readNonBlank_first gap_nil hsplit hbefore hstops hfuel
  refine ⟨rest, hrest, fun hnone => ?_, fun text htext => ?_⟩
  · obtain ⟨err, hread⟩ := hinvalid hnone
    exact ⟨.io err, by rw [KvResp.readNextLine, hread]⟩
  · obtain ⟨gap, size, hgap, hread⟩ := hvalid text htext
    exact ⟨gap, hgap, by rw [KvResp.readNextLine, hread]⟩

/-- Without a line that ends it, the loop reads entries and then forever. -/
theorem scanLoop_never {fuel : ℕ} {stream : List UInt8} {entries : List (String × String)}
    (h : ∀ piece ∈ pieces 10 stream, ¬ EndsScan piece) :
    KvResp.scanLoop fuel entries stream = none := by
  induction fuel generalizing stream entries with
  | zero => rfl
  | succ fuel ih =>
    by_cases hex : ∃ piece ∈ pieces 10 stream, Stops piece
    · obtain ⟨before, piece, after, hsplit, hbefore, hstops⟩ := first_split hex
      cases hread : KvResp.readNextLine (fuel + 1) stream with
      | none => rw [KvResp.scanLoop, hread]
      | some outcome =>
        obtain ⟨text, htext, hentry⟩ := entry_of_not_endsScan hstops (h piece (by simp [hsplit]))
        obtain ⟨rest, hrest, _, hvalid⟩ := readNextLine_first hsplit hbefore hstops
          (show before.length < max (fuel + 1) (before.length + 1) by omega)
        obtain ⟨gap, hgap, hread'⟩ := hvalid text htext
        rw [KvResp.readNextLine_mono hread (le_max_left _ _), Option.some.injEq] at hread'
        obtain ⟨hnot, entry, he⟩ := hentry gap hgap
        simp only [KvResp.scanLoop, hread, hread', hnot, ↓reduceIte, he]
        exact ih fun b hb => h b (by simp [hsplit, hrest ▸ hb])
    · have hnever : ∀ piece ∈ pieces 10 stream, ¬ Stops piece :=
        fun piece hp hs => hex ⟨piece, hp, hs⟩
      rw [KvResp.scanLoop, readNextLine_never hnever]

theorem scanLoop_returns {stream : List UInt8} (entries : List (String × String))
    (h : ∃ piece ∈ pieces 10 stream, EndsScan piece) :
    ∃ fuel result, KvResp.scanLoop fuel entries stream = some result := by
  induction hn : (pieces 10 stream).length using Nat.strong_induction_on
    generalizing stream entries with
  | _ n ih =>
    obtain ⟨last, hlast, hends⟩ := h
    obtain ⟨before, piece, after, hsplit, hbefore, hstops⟩ := first_split ⟨last, hlast, hends.stops⟩
    obtain ⟨rest, hrest, hinvalid, hvalid⟩ := readNextLine_first hsplit hbefore hstops
      (Nat.lt_succ_self before.length)
    by_cases hpiece : EndsScan piece
    · refine ⟨before.length + 1, ?_⟩
      rcases hpiece with hnone | ⟨text, htext, hend⟩
      · obtain ⟨err, hread⟩ := hinvalid hnone
        exact ⟨_, by rw [KvResp.scanLoop, hread]⟩
      · obtain ⟨gap, hgap, hread⟩ := hvalid text htext
        rcases hend with htrim | ⟨word, hword⟩
        · rw [← trim_gap_append hgap text] at htrim
          exact ⟨(.ok entries, rest), by simp only [KvResp.scanLoop, hread, htrim, ↓reduceIte]⟩
        · have hsegs : splitWhitespace (gap ++ text) = [word] := by
            rw [splitWhitespace_gap_append hgap, hword]
          have hentry : KvResp.expectEntry (gap ++ text) =
              .error (KvResp.invalidLine (gap ++ text)) := by
            simp only [KvResp.expectEntry, KvResp.getSegsOfLine, hsegs, KvResp.expectNextSeg]
            rfl
          by_cases htrim : trim isWhitespace (gap ++ text) = "SCAN END".toList
          · exact ⟨(.ok entries, rest), by simp only [KvResp.scanLoop, hread, htrim, ↓reduceIte]⟩
          · exact ⟨(.error (KvResp.invalidLine (gap ++ text)), rest), by
              simp only [KvResp.scanLoop, hread, htrim, ↓reduceIte, hentry]⟩
    · obtain ⟨text, htext, hentry⟩ := entry_of_not_endsScan hstops hpiece
      obtain ⟨gap, hgap, hread⟩ := hvalid text htext
      obtain ⟨hnot, entry, he⟩ := hentry gap hgap
      have hlater : last ∈ after :=
        mem_after_first hsplit hbefore hlast hends.stops fun heq => hpiece (heq ▸ hends)
      obtain ⟨fuel, result, hloop⟩ := ih (pieces 10 rest).length
        (by rw [← hn, hsplit, hrest]; simp; omega) (entries ++ [entry])
        ⟨last, hrest ▸ hlater, hends⟩ rfl
      refine ⟨max before.length fuel + 1, result, ?_⟩
      have hread' := KvResp.readNextLine_mono hread
        (show before.length + 1 ≤ max before.length fuel + 1 by omega)
      simp only [KvResp.scanLoop, hread', hnot, ↓reduceIte, he]
      exact KvResp.scanLoop_mono hloop (le_max_right _ _)

/-- The words of a line are not affected by blank lines in front of it. -/
theorem segs_gap_append {gap : List Char} (hgap : Gap isWhitespace gap) (text : List Char) :
    KvResp.getSegsOfLine (gap ++ text) = splitWhitespace text :=
  splitWhitespace_gap_append hgap text

theorem Answers.fromRead_returns {stream : List UInt8} (h : Answers stream) :
    ∃ fuel result, KvResp.fromRead fuel stream = some result := by
  obtain ⟨before, piece, after, hsplit, hbefore, hstops, hscan⟩ := h
  obtain ⟨rest, hrest, hinvalid, hvalid⟩ := readNextLine_first hsplit hbefore hstops
    (Nat.lt_succ_self before.length)
  cases htext : ofUtf8? piece with
  | none =>
    obtain ⟨err, hread⟩ := hinvalid htext
    exact ⟨before.length + 1, (.error err, rest), by rw [KvResp.fromRead, hread]⟩
  | some text =>
    obtain ⟨gap, hgap, hread⟩ := hvalid text htext
    have hsegs := segs_gap_append hgap text
    by_cases hopens : OpensScan piece
    · obtain ⟨text', htext', keyStart, keyEnd, segs, hwords⟩ := hopens
      obtain rfl := Option.some.inj (htext.symm.trans htext')
      have hends := hscan ⟨text, htext, _, _, _, hwords⟩
      obtain ⟨fuel, result, hloop⟩ := scanLoop_returns [] (hrest ▸ hends)
      refine ⟨max (before.length + 1) fuel,
        (result.1.map fun entries => .scan keyStart keyEnd entries, result.2), ?_⟩
      rw [KvResp.fromRead, KvResp.readNextLine_mono hread (le_max_left _ _)]
      simp only [KvResp.fromLine_scan (hsegs.trans hwords),
        KvResp.scanLoop_mono hloop (le_max_right _ _), Option.map_some]
    · obtain ⟨result, hline⟩ := KvResp.fromLine_returns (before.length + 1) rest
        fun keyStart keyEnd segs hs => hopens ⟨text, htext, keyStart, keyEnd, segs, hsegs ▸ hs⟩
      exact ⟨before.length + 1, _, by rw [KvResp.fromRead, hread]; exact hline⟩

theorem answers_of_fromRead {fuel : ℕ} {stream : List UInt8}
    {result : Except RunnerError KvResp × List UInt8}
    (h : KvResp.fromRead fuel stream = some result) : Answers stream := by
  by_cases hex : ∃ piece ∈ pieces 10 stream, Stops piece
  · obtain ⟨before, piece, after, hsplit, hbefore, hstops⟩ := first_split hex
    refine ⟨before, piece, after, hsplit, hbefore, hstops, fun hopens => ?_⟩
    obtain ⟨text, htext, keyStart, keyEnd, segs, hwords⟩ := hopens
    obtain ⟨rest, hrest, _, hvalid⟩ := readNextLine_first hsplit hbefore hstops
      (show before.length < max fuel (before.length + 1) by omega)
    obtain ⟨gap, hgap, hread⟩ := hvalid text htext
    by_contra hnone
    have hnever : ∀ piece ∈ pieces 10 rest, ¬ EndsScan piece := fun piece hp he =>
      hnone ⟨piece, hrest ▸ hp, he⟩
    have hmore := KvResp.fromRead_mono h (le_max_left fuel (before.length + 1))
    rw [KvResp.fromRead, hread] at hmore
    simp [KvResp.fromLine_scan ((segs_gap_append hgap text).trans hwords),
      scanLoop_never hnever] at hmore
  · have hnever : ∀ piece ∈ pieces 10 stream, ¬ Stops piece :=
      fun piece hp hs => hex ⟨piece, hp, hs⟩
    simp [KvResp.fromRead, readNextLine_never hnever] at h

/-! ## The reference client -/

/-- A line that ends the reference client: not valid text, no call, Stop, or a
Scan whose range is reversed, where the range is checked. -/
def EndsClient (checks : Prop) (piece : List UInt8) : Prop :=
  ∀ text, ofUtf8? piece = some text → ¬ Gap isWhitespace text ∧
    ∀ call, RefCli.parseInputCall (trim isWhitespace text) = .ok call →
      call = .stop ∨ ∃ lo hi, call = .scan lo hi ∧ hi < lo ∧ checks

/-- A line that inserts a key. -/
def InsertsKey (piece : List UInt8) : Prop :=
  ∃ text key value, ofUtf8? piece = some text ∧
    (RefCli.parseInputCall (trim isWhitespace text) = .ok (.put key value) ∨
      RefCli.parseInputCall (trim isWhitespace text) = .ok (.swap key value))

/-- Among the lines is one that ends the reference client; the range of a Scan is
checked, if not from the start, then behind a line that inserts a key. -/
def EndsAmong (checks : Bool) (lines : List (List UInt8)) : Prop :=
  ∃ before piece after, lines = before ++ piece :: after ∧
    EndsClient (checks = true ∨ ∃ b ∈ before, InsertsKey b) piece

theorem EndsClient.stops {checks : Prop} {piece : List UInt8} (h : EndsClient checks piece) :
    Stops piece :=
  fun text htext => (h text htext).1

theorem EndsClient.mono {checks checks' : Prop} {piece : List UInt8} (h : EndsClient checks piece)
    (himp : checks → checks') : EndsClient checks' piece := by
  intro text htext
  refine ⟨(h text htext).1, fun call hcall => ((h text htext).2 call hcall).imp_right ?_⟩
  rintro ⟨lo, hi, hscan, hlt, hchecks⟩
  exact ⟨lo, hi, hscan, hlt, himp hchecks⟩

theorem handleKvCall_eq_none {call : KvCall} {state : RefCli.State} :
    RefCli.handleKvCall call state = none ↔
      ∃ lo hi, call = .scan lo hi ∧ hi < lo ∧ state.checks = true := by
  cases call with
  | scan lo hi =>
    have hiff : state.range? lo hi = none ↔ hi < lo ∧ state.checks = true := by
      cases hchecks : state.checks <;>
        simp [RefCli.State.range?, hchecks, SortedMap.range?_eq_none_iff]
    constructor
    · intro h
      refine ⟨lo, hi, rfl, hiff.mp ?_⟩
      cases hr : state.range? lo hi with
      | none => rfl
      | some entries => simp [RefCli.handleKvCall, hr] at h
    · rintro ⟨_, _, hcall, hlt⟩
      cases hcall
      simp [RefCli.handleKvCall, hiff.mpr hlt]
  | _ => simp [RefCli.handleKvCall]

theorem handleKvCall_stop {call : KvCall} {state state' : RefCli.State}
    (h : RefCli.handleKvCall call state = some (.stop, state')) : call = .stop := by
  cases call with
  | scan lo hi =>
    cases hr : state.range? lo hi <;> simp [RefCli.handleKvCall, hr] at h
  | stop => rfl
  | _ => simp [RefCli.handleKvCall] at h

/-- Ranges are checked from the first insertion on. -/
theorem handleKvCall_checks {call : KvCall} {resp : KvResp} {state state' : RefCli.State}
    (h : RefCli.handleKvCall call state = some (resp, state')) : state'.checks = true ↔
      state.checks = true ∨ ∃ key value, call = .put key value ∨ call = .swap key value := by
  cases call with
  | scan lo hi =>
    cases hr : state.range? lo hi with
    | none => simp [RefCli.handleKvCall, hr] at h
    | some entries =>
      obtain ⟨_, rfl⟩ : _ ∧ state = state' := by simpa [RefCli.handleKvCall, hr] using h
      simp
  | _ =>
    simp only [RefCli.handleKvCall, Option.some.injEq, Prod.mk.injEq] at h
    obtain ⟨-, rfl⟩ := h
    simp [RefCli.State.insert, RefCli.State.erase]

/-- A line that is neither skipped nor final is a call that gets handled. -/
theorem call_of_not_endsClient {piece : List UInt8} {state : RefCli.State} (hstops : Stops piece)
    (h : ¬ EndsClient (state.checks = true) piece) : ∃ text call resp state',
      ofUtf8? piece = some text ∧ RefCli.parseInputCall (trim isWhitespace text) = .ok call ∧
      RefCli.handleKvCall call state = some (resp, state') ∧ resp ≠ .stop ∧
      (state'.checks = true ↔ state.checks = true ∨ InsertsKey piece) := by
  simp only [EndsClient, not_forall, not_and_or, not_not] at h
  obtain ⟨text, htext, hgap | ⟨call, hcall, hnot⟩⟩ := h
  · exact absurd hgap (hstops text htext)
  · rw [not_or] at hnot
    cases hh : RefCli.handleKvCall call state with
    | none => exact absurd (handleKvCall_eq_none.mp hh) hnot.2
    | some result =>
      obtain ⟨resp, state'⟩ := result
      refine ⟨text, call, resp, state', htext, hcall, hh,
        fun hr => hnot.1 (handleKvCall_stop (hr ▸ hh)), ?_⟩
      rw [handleKvCall_checks hh, InsertsKey]
      simp [htext, hcall]

theorem not_insertsKey {piece : List UInt8} (h : ¬ Stops piece) : ¬ InsertsKey piece := by
  rintro ⟨text, key, value, htext, hcall⟩
  obtain ⟨text', htext', hgap⟩ := not_stops h
  obtain rfl := Option.some.inj (htext.symm.trans htext')
  rw [trim_eq_nil_iff.mpr hgap] at hcall
  rcases hcall with hcall | hcall <;> cases hcall

/-- Lines that are skipped insert nothing. -/
theorem insertsKey_behind {before : List (List UInt8)} (h : ∀ b ∈ before, ¬ Stops b)
    (piece : List UInt8) (more : List (List UInt8)) :
    (∃ b ∈ before ++ piece :: more, InsertsKey b) ↔
      InsertsKey piece ∨ ∃ b ∈ more, InsertsKey b := by
  simp only [List.mem_append, List.mem_cons, or_and_right, exists_or, exists_eq_left]
  exact or_iff_right fun ⟨b, hb, hkey⟩ => not_insertsKey (h b hb) hkey

/-- What ends the client behind a line that it answers ends it from there on. -/
theorem endsAmong_behind {before after : List (List UInt8)} {piece : List UInt8}
    {state state' : RefCli.State} (hbefore : ∀ b ∈ before, ¬ Stops b)
    (hpiece : ¬ EndsClient (state.checks = true) piece)
    (hchecks : state'.checks = true ↔ state.checks = true ∨ InsertsKey piece) :
    EndsAmong state.checks (before ++ piece :: after) ↔ EndsAmong state'.checks after := by
  constructor
  · rintro ⟨skipped, last, rest, hsplit, hends⟩
    have hlast : last ∉ before := fun hmem => hbefore last hmem hends.stops
    obtain ⟨more, rfl, hrest⟩ : ∃ more, skipped = before ++ piece :: more ∧
        after = more ++ last :: rest := by
      have hnot : ¬ (skipped = before ∧ piece = last) := by
        rintro ⟨rfl, rfl⟩
        refine hpiece (hends.mono fun h => h.resolve_right ?_)
        rintro ⟨b, hb, hkey⟩
        exact not_insertsKey (hbefore b hb) hkey
      rcases List.append_eq_append_iff.mp hsplit with ⟨more, hskipped, hmore⟩ | ⟨more, hb, hmore⟩
      · cases more <;> simp_all
      · cases more <;> simp_all
    refine ⟨more, last, rest, hrest, hends.mono ?_⟩
    rw [insertsKey_behind hbefore, hchecks, or_assoc]
    exact id
  · rintro ⟨more, last, rest, rfl, hends⟩
    refine ⟨before ++ piece :: more, last, rest, by simp, hends.mono ?_⟩
    rw [insertsKey_behind hbefore, hchecks, or_assoc]
    exact id

/-- A round of the loop that meets a call it can answer. -/
theorem mainLoop_continues {fuel size : ℕ} {stdin rest : List UInt8} {gap text : List Char}
    {call : KvCall} {resp : KvResp} {state state' : RefCli.State} (hgap : Gap isWhitespace gap)
    (hread : readNonBlank (fuel + 1) stdin [] = some (.ok (size, gap ++ text), rest))
    (hcall : RefCli.parseInputCall (trim isWhitespace text) = .ok call)
    (hhandle : RefCli.handleKvCall call state = some (resp, state')) (hresp : resp ≠ .stop) :
    (RefCli.mainLoop (fuel + 1) stdin state).ending =
      (RefCli.mainLoop fuel rest state').ending := by
  rw [← trim_gap_append hgap text] at hcall
  simp only [RefCli.mainLoop, hread, hcall, hhandle, hresp, ↓reduceIte]

theorem mainLoop_never {fuel : ℕ} {stdin : List UInt8} {state : RefCli.State}
    (h : ¬ EndsAmong state.checks (pieces 10 stdin)) :
    (RefCli.mainLoop fuel stdin state).ending = .running := by
  induction fuel generalizing stdin state with
  | zero => rfl
  | succ fuel ih =>
    by_cases hex : ∃ piece ∈ pieces 10 stdin, Stops piece
    · obtain ⟨before, piece, after, hsplit, hbefore, hstops⟩ := first_split hex
      cases hread : readNonBlank (fuel + 1) stdin [] with
      | none => rw [RefCli.mainLoop, hread]
      | some outcome =>
        have hpiece : ¬ EndsClient (state.checks = true) piece := fun hends =>
          h ⟨before, piece, after, hsplit, hends.mono .inl⟩
        obtain ⟨text, call, resp, state', htext, hcall, hh, hresp, hchecks⟩ :=
          call_of_not_endsClient hstops hpiece
        obtain ⟨rest, hrest, _, hvalid⟩ := readNonBlank_first gap_nil hsplit
          hbefore hstops (show before.length < max (fuel + 1) (before.length + 1) by omega)
        obtain ⟨gap, size, hgap, hread'⟩ := hvalid text htext
        rw [readNonBlank_mono hread (le_max_left _ _), Option.some.injEq] at hread'
        rw [hread'] at hread
        rw [mainLoop_continues hgap hread hcall hh hresp]
        refine ih fun hends => h ?_
        rw [hsplit, endsAmong_behind hbefore hpiece hchecks, ← hrest]
        exact hends
    · have hnever : ∀ piece ∈ pieces 10 stdin, ¬ Stops piece :=
        fun piece hp hs => hex ⟨piece, hp, hs⟩
      rw [RefCli.mainLoop, readNonBlank_never gap_nil hnever]

/-- A round of the loop that meets a final line. -/
theorem mainLoop_final {fuel : ℕ} {stdin rest : List UInt8} {piece : List UInt8}
    {state : RefCli.State} (hends : EndsClient (state.checks = true) piece)
    (hinvalid : ofUtf8? piece = none →
      ∃ err, readNonBlank (fuel + 1) stdin [] = some (.error err, rest))
    (hvalid : ∀ text, ofUtf8? piece = some text → ∃ gap size, Gap isWhitespace gap ∧
      readNonBlank (fuel + 1) stdin [] = some (.ok (size, gap ++ text), rest)) :
    (RefCli.mainLoop (fuel + 1) stdin state).ending ≠ .running := by
  cases htext : ofUtf8? piece with
  | none =>
    obtain ⟨err, hread⟩ := hinvalid htext
    simp [RefCli.mainLoop, hread]
  | some text =>
    obtain ⟨gap, size, hgap, hread⟩ := hvalid text htext
    have htrim := trim_gap_append hgap text
    cases hcall : RefCli.parseInputCall (trim isWhitespace text) with
    | error err => simp [RefCli.mainLoop, hread, htrim, hcall]
    | ok call =>
      rcases (hends text htext).2 call hcall with rfl | hscan
      · simp [RefCli.mainLoop, hread, htrim, hcall, RefCli.handleKvCall]
      · simp [RefCli.mainLoop, hread, htrim, hcall, handleKvCall_eq_none.mpr hscan]

theorem mainLoop_ends {stdin : List UInt8} {state : RefCli.State}
    (h : EndsAmong state.checks (pieces 10 stdin)) :
    ∃ enough, ∀ fuel ≥ enough, (RefCli.mainLoop fuel stdin state).ending ≠ .running := by
  induction hn : (pieces 10 stdin).length using Nat.strong_induction_on
    generalizing stdin state with
  | _ n ih =>
    obtain ⟨before, piece, after, hsplit, hbefore, hstops⟩ :
        ∃ before piece after, pieces 10 stdin = before ++ piece :: after ∧
          (∀ b ∈ before, ¬ Stops b) ∧ Stops piece := by
      obtain ⟨skipped, last, rest, hsplit, hends⟩ := h
      exact first_split ⟨last, by simp [hsplit], hends.stops⟩
    obtain ⟨rest, hrest, hinvalid, hvalid⟩ := readNonBlank_first gap_nil
      hsplit hbefore hstops (Nat.lt_succ_self before.length)
    have hmore : ∀ {k outcome}, before.length ≤ k →
        readNonBlank (before.length + 1) stdin [] = some outcome →
          readNonBlank (k + 1) stdin [] = some outcome := fun hk hread =>
      readNonBlank_mono hread (Nat.succ_le_succ hk)
    by_cases hpiece : EndsClient (state.checks = true) piece
    · refine ⟨before.length + 1, fun fuel hfuel => ?_⟩
      obtain ⟨k, rfl⟩ : ∃ k, fuel = k + 1 := ⟨fuel - 1, by omega⟩
      have hk : before.length ≤ k := Nat.le_of_succ_le_succ hfuel
      refine mainLoop_final hpiece (fun hnone => (hinvalid hnone).imp fun _ => hmore hk)
        fun text htext => ?_
      obtain ⟨gap, size, hgap, hread⟩ := hvalid text htext
      exact ⟨gap, size, hgap, hmore hk hread⟩
    · obtain ⟨text, call, resp, state', htext, hcall, hh, hresp, hchecks⟩ :=
        call_of_not_endsClient hstops hpiece
      obtain ⟨gap, size, hgap, hread⟩ := hvalid text htext
      rw [hsplit, endsAmong_behind hbefore hpiece hchecks, ← hrest] at h
      obtain ⟨enough, hrun⟩ := ih (pieces 10 rest).length
        (by rw [← hn, hsplit, hrest]; simp; omega) h rfl
      refine ⟨max before.length enough + 1, fun fuel hfuel => ?_⟩
      obtain ⟨k, rfl⟩ : ∃ k, fuel = k + 1 := ⟨fuel - 1, by omega⟩
      rw [mainLoop_continues hgap (hmore (by omega) hread) hcall hh hresp]
      exact hrun k (by omega)

/-- Both loops end exactly on the streams that contain what ends them, that of the
reference client whether the range of a map without a root is checked or not. -/
theorem reading_ends_iff (stream : List UInt8) :
    ((∃ fuel result, KvResp.fromRead fuel stream = some result) ↔ Answers stream) ∧
    ∀ checks, (∃ fuel, (RefCli.mainLoop fuel stream (.new checks)).ending ≠ .running) ↔
      EndsAmong checks (pieces 10 stream) := by
  refine ⟨⟨?_, Answers.fromRead_returns⟩, fun checks => ⟨?_, fun h => ?_⟩⟩
  · rintro ⟨fuel, result, h⟩
    exact answers_of_fromRead h
  · rintro ⟨fuel, h⟩
    by_contra hnone
    exact h (mainLoop_never hnone)
  · obtain ⟨enough, hrun⟩ :=
      mainLoop_ends (show EndsAmong (RefCli.State.new checks).checks _ from h)
    exact ⟨enough, hrun enough le_rfl⟩

/-- At the end of the input, as when a client dies, both read on forever. -/
theorem reading_never_ends :
    ¬ ((∀ stream, ∃ fuel result, KvResp.fromRead fuel stream = some result) ∧
      ∀ stdin, ∃ fuel, (RefCli.main fuel stdin).ending ≠ .running) := by
  rintro ⟨hclaim, _⟩
  obtain ⟨fuel, result, h⟩ := hclaim []
  obtain ⟨_, piece, _, hsplit, _⟩ := answers_of_fromRead h
  simp [pieces] at hsplit

end MadKV.Wire
