import MadKV.RefCli.Commands
import MadKV.Store.Dispatch
import MadKV.Wire.Driver

/-!
# Calls on their way to the clients

The runner writes a call as one line. Both clients read the line back as the
call it was written for, although they cut it into words by different notions of
whitespace, and a sequence of calls as that sequence.
-/

namespace MadKV.Wire

open Runner Support Spec Store RefCli

/-- What the driver writes of a sequence of calls. -/
def written : List KvCall → String
  | [] => ""
  | call :: calls => call.intoWrite ++ written calls

theorem written_eq (calls : List KvCall) : written calls = unlines (calls.map callLine) := by
  induction calls with
  | nil => rfl
  | cons call calls ih => simp [written, intoWrite_eq, unlines, ih]

/-- One line a call, whatever its keys and values. -/
theorem getlines_written {calls : List KvCall} (h : ∀ call ∈ calls, WellFormed isWhitespace call) :
    Client.getlines (written calls) = calls.map callLine := by
  refine Client.getlines_input ⟨?_, .inl (written_eq calls)⟩
  refine List.forall_mem_map.mpr fun call hcall => ?_
  rw [callLine, String.toList_ofList]
  exact newline_not_mem_line (h call hcall)

theorem executes_callLine {call : KvCall} (h : WellFormed isWhitespace call) :
    Client.Executes (callLine call) call :=
  Client.executes_of_words (splitBySpace_callLine h)

theorem splitWhitespace_callLine {call : KvCall} (h : WellFormed isWhitespace call) :
    splitWhitespace (callLine call).toList = callWords call := by
  rw [callLine, String.toList_ofList]
  simpa using splitWhitespace_line h gap_nil gap_nil

theorem parseInputCall_callLine {call : KvCall} (h : WellFormed isWhitespace call) :
    parseInputCall (callLine call).toList = .ok call :=
  parseInputCall_eq (splitWhitespace_callLine h)

theorem not_gap_callLine {call : KvCall} (h : WellFormed isWhitespace call) :
    ¬ Gap isWhitespace (callLine call).toList := by
  intro hgap
  have hsegs := splitWhitespace_callLine h
  rw [splitWhitespace, words_gap hgap] at hsegs
  cases call <;> simp [callWords] at hsegs

/-! ## The reference client -/

/-- The line of a call is read as the call, and what follows it is left alone. -/
theorem readCall_intoWrite {call : KvCall} (h : WellFormed isWhitespace call) (fuel : ℕ)
    (rest : List UInt8) :
    readCall (fuel + 1) (bytes call.intoWrite ++ rest) = some (.ok call, rest) := by
  have hnl : (10 : UInt8) ∉ bytes (callLine call) := by
    rw [bytes, newline_mem_utf8, callLine, String.toList_ofList]
    exact newline_not_mem_line h
  have htext : bytes call.intoWrite ++ rest = bytes (callLine call) ++ 10 :: rest := by
    have hnewline : bytes "\n" = [10] := utf8_newline
    rw [intoWrite_eq, unlines, unlines, String.append_empty, bytes, String.toList_append,
      utf8_append, ← bytes, ← bytes, hnewline, List.append_assoc, List.singleton_append]
  have hcut := cutLine_terminated hnl rest
  have hline : ofUtf8? (cutLine 10 (bytes (callLine call) ++ 10 :: rest)).1 =
      some ((callLine call).toList ++ ['\n']) := by
    rw [hcut, bytes, ← utf8_newline, ← utf8_append, ofUtf8?_utf8]
  have hblank : ¬ Gap isWhitespace ((callLine call).toList ++ ['\n']) :=
    fun hgap => not_gap_callLine h fun c hc => hgap c (by simp [hc])
  have hsegs : splitWhitespace (trim isWhitespace ((callLine call).toList ++ ['\n'])) =
      callWords call := by
    rw [splitWhitespace, words_trim, words_append_gap (by decide)]
    exact splitWhitespace_callLine h
  unfold readCall
  rw [htext, readNonBlank_found hline hblank, List.nil_append, hcut]
  simp only [parseInputCall_eq hsegs]

theorem readCalls_written {calls : List KvCall}
    (h : ∀ call ∈ calls, WellFormed isWhitespace call) (fuel : ℕ) (rest : List UInt8) :
    readCalls (fuel + 1) calls.length (bytes (written calls) ++ rest) =
      some (.ok calls, rest) := by
  induction calls with
  | nil => rfl
  | cons call calls ih =>
    have hread := readCall_intoWrite (h call (by simp)) fuel (bytes (written calls) ++ rest)
    have htext : bytes (written (call :: calls)) ++ rest =
        bytes call.intoWrite ++ (bytes (written calls) ++ rest) := by
      simp [written, bytes, String.toList_append]
    rw [List.length_cons, readCalls, htext, hread]
    simp only [ih fun c hc => h c (by simp [hc])]
    rfl

/-- The loop of the reference client handles the calls in turn. -/
theorem mainLoop_written {calls : List KvCall}
    (h : ∀ call ∈ calls, WellFormed isWhitespace call) {fuel : ℕ} (hfuel : calls.length ≤ fuel)
    (state : State) :
    mainLoop fuel (bytes (written calls)) state = respond calls state := by
  induction calls generalizing fuel state with
  | nil =>
    have hblank : ∀ line ∈ ([] : List String), Gap isWhitespace line.toList := by simp
    exact mainLoop_blanks hblank (by simp) state
  | cons call calls ih =>
    obtain ⟨fuel, rfl⟩ : ∃ k, fuel = k + 1 := ⟨fuel - 1, by simp at hfuel; omega⟩
    have hread := readCall_intoWrite (h call (by simp)) fuel (bytes (written calls))
    have htext : bytes (written (call :: calls)) =
        bytes call.intoWrite ++ bytes (written calls) := by
      simp [written, bytes, String.toList_append]
    have hlater : ∀ state', mainLoop fuel (bytes (written calls)) state' =
        respond calls state' :=
      ih (fun c hc => h c (by simp [hc])) (by simpa using hfuel)
    rw [mainLoop_readCall, htext, hread]
    simp only [hlater]
    rfl

/-! ## The round trip -/

/-- The line of a call is that call to both clients, and the lines of a sequence of
calls are that sequence, with nothing left over. -/
theorem calls_round_trip {calls : List KvCall}
    (h : ∀ call ∈ calls, WellFormed isWhitespace call) :
    List.Forall₂ (fun line call => line ++ "\n" = call.intoWrite ∧ Client.Executes line call ∧
      parseInputCall line.toList = .ok call) (Client.getlines (written calls)) calls ∧
    (∀ (World : Type) (stub : Stub World) (world : World),
      Client.runLines stub (Client.getlines (written calls)) world =
        Client.perform stub calls world) ∧
    (∀ (fuel : ℕ) (rest : List UInt8), readCalls (fuel + 1) calls.length
      (bytes (written calls) ++ rest) = some (.ok calls, rest)) ∧
    ∀ fuel ≥ calls.length, ∀ state : State,
      mainLoop fuel (bytes (written calls)) state = respond calls state := by
  have hlines : List.Forall₂ (fun line call => line ++ "\n" = call.intoWrite ∧
      Client.Executes line call ∧ parseInputCall line.toList = .ok call)
      (Client.getlines (written calls)) calls := by
    rw [getlines_written h, List.forall₂_map_left_iff, List.forall₂_same]
    intro call hcall
    refine ⟨?_, executes_callLine (h call hcall), parseInputCall_callLine (h call hcall)⟩
    rw [intoWrite_eq, unlines, unlines, String.append_empty]
  refine ⟨hlines, fun World stub world => ?_, readCalls_written h, fun fuel hfuel =>
    mainLoop_written h hfuel⟩
  exact Client.runLines_executes (hlines.imp fun _ _ hline => hline.2.1) stub world

/-- Keys and values that are command words themselves. -/
def commandKeys : List KvCall := [.put "STOP" "GET", .scan "SCAN" "END", .stop, .get "PUT"]

theorem calls_round_trip_commandKeys :
    (∀ (fuel : ℕ) (rest : List UInt8), readCalls (fuel + 1) commandKeys.length
      (bytes (written commandKeys) ++ rest) = some (.ok commandKeys, rest)) ∧
    Client.runLines serverStub (Client.getlines (written commandKeys)) .empty =
      Client.perform serverStub commandKeys .empty := by
  have h : ∀ call ∈ commandKeys, WellFormed isWhitespace call := by
    simp only [commandKeys, List.mem_cons, List.not_mem_nil, or_false, forall_eq_or_imp, forall_eq,
      WellFormed]
    decide
  exact ⟨(calls_round_trip h).2.2.1, (calls_round_trip h).2.1 _ serverStub .empty⟩

end MadKV.Wire
