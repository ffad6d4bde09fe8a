import MadKV.RefCli.Agreement

/-!
# What the reference client reads

The reading half of its loop, apart from the handling of the call that was read:
which lines it takes for which calls, and how a stream of lines becomes a
sequence of calls.
-/

namespace MadKV.RefCli

open Runner Support Spec

/-! ## One line -/

/-- Two segments are asked for, and nothing is asked of what follows them. -/
theorem twoSegs_ok {segs : List String} {line : List Char} {f : String → String → KvCall}
    {call : KvCall} :
    (do
      let (a, segs) ← expectNextSeg segs line
      let (b, _) ← expectNextSeg segs line
      Except.ok (f a b) : Except String KvCall) = .ok call ↔
    ∃ a b, [a, b] <+: segs ∧ f a b = call := by
  match segs with
  | [] => simp [expectNextSeg, bind, Except.bind]
  | [_] => simp [expectNextSeg, bind, Except.bind]
  | a :: b :: rest =>
    simp [expectNextSeg, bind, Except.bind, List.cons_prefix_cons]

theorem oneSeg_ok {segs : List String} {line : List Char} {f : String → KvCall}
    {call : KvCall} :
    (do
      let (a, _) ← expectNextSeg segs line
      Except.ok (f a) : Except String KvCall) = .ok call ↔
    ∃ a, [a] <+: segs ∧ f a = call := by
  match segs with
  | [] => simp [expectNextSeg, bind, Except.bind]
  | a :: rest => simp [expectNextSeg, bind, Except.bind, List.cons_prefix_cons]

/-- A line is taken for a call exactly when its words begin with the call's. -/
theorem parseInputCall_iff {line : List Char} {call : KvCall} :
    parseInputCall line = .ok call ↔ callWords call <+: splitWhitespace line := by
  unfold parseInputCall
  cases splitWhitespace line with
  | nil => cases call <;> simp [callWords]
  | cons seg segs =>
    simp only
    split_ifs with hput hswap hget hscan hdelete hstop
    · subst hput
      rw [twoSegs_ok]
      cases call <;> simp [callWords, List.cons_prefix_cons]
    · subst hswap
      rw [twoSegs_ok]
      cases call <;> simp [callWords, List.cons_prefix_cons]
    · subst hget
      rw [oneSeg_ok]
      cases call <;> simp [callWords, List.cons_prefix_cons]
    · subst hscan
      rw [twoSegs_ok]
      cases call <;> simp [callWords, List.cons_prefix_cons]
    · subst hdelete
      rw [oneSeg_ok]
      cases call <;> simp [callWords, List.cons_prefix_cons]
    · subst hstop
      cases call <;> simp [callWords, List.cons_prefix_cons]
    · cases call <;> simp_all [callWords, List.cons_prefix_cons, eq_comm]

/-! ## A stream of lines -/

/-- The first half of a round of `main`: read a line and parse it. -/
def readCall (fuel : ℕ) (stdin : List UInt8) : Option (Except String KvCall × List UInt8) :=
  match readNonBlank fuel stdin [] with
  | none => none
  | some (.error err, rest) => some (.error err, rest)
  | some (.ok (_, buffer), rest) => some (parseInputCall (trim isWhitespace buffer), rest)

theorem mainLoop_readCall (fuel : ℕ) (stdin : List UInt8) (state : State) :
    mainLoop (fuel + 1) stdin state =
      match readCall (fuel + 1) stdin with
      | none => ⟨"", .running⟩
      | some (.error err, _) => ⟨"", .err err⟩
      | some (.ok call, stdin) =>
        match handleKvCall call state with
        | none => ⟨"", .panic⟩
        | some (resp, state) =>
          if resp = .stop then ⟨writeResponse resp, .ok⟩
          else { mainLoop fuel stdin state with
            out := writeResponse resp ++ (mainLoop fuel stdin state).out } := by
  rw [mainLoop, readCall]
  cases readNonBlank (fuel + 1) stdin [] with
  | none => rfl
  | some read =>
    obtain ⟨result, rest⟩ := read
    cases result with
    | error err => rfl
    | ok line =>
      cases hcall : parseInputCall (trim isWhitespace line.2) with
      | error err => simp [hcall]
      | ok call => cases hhandle : handleKvCall call state <;> simp [hcall, hhandle]

/-- The next `n` calls on the input. -/
def readCalls (fuel : ℕ) : ℕ → List UInt8 → Option (Except String (List KvCall) × List UInt8)
  | 0, stdin => some (.ok [], stdin)
  | n + 1, stdin =>
    match readCall fuel stdin with
    | none => none
    | some (.error err, rest) => some (.error err, rest)
    | some (.ok call, rest) =>
      match readCalls fuel n rest with
      | none => none
      | some (result, rest) => some (result.map (call :: ·), rest)

/-- The calls one after another, until one of them ends the process. -/
def respond : List KvCall → State → Progress
  | [], _ => ⟨"", .running⟩
  | call :: calls, state =>
    match handleKvCall call state with
    | none => ⟨"", .panic⟩
    | some (resp, state) =>
      if resp = .stop then ⟨writeResponse resp, .ok⟩
      else { respond calls state with
        out := writeResponse resp ++ (respond calls state).out }

end MadKV.RefCli
