import MadKV.Runner.KvOps
import MadKV.Runner.ReadLine

/-!
# The stdin/stdout interface of the runner

`KvCall::into_write` and `KvResp::from_read`. A reader is the list of bytes still
to come; `fromRead` returns the result together with what it left unread.
-/

namespace MadKV.Runner

open Support

inductive RunnerError
  | io (msg : String)
  | parse (msg : String)
  | chan (msg : String)
  | join
deriving DecidableEq, Repr

/-- The line that `into_write` writes. -/
def KvCall.intoWrite : KvCall → String
  | .put key value => "PUT " ++ key ++ " " ++ value ++ "\n"
  | .swap key value => "SWAP " ++ key ++ " " ++ value ++ "\n"
  | .get key => "GET " ++ key ++ "\n"
  | .scan keyStart keyEnd => "SCAN " ++ keyStart ++ " " ++ keyEnd ++ "\n"
  | .delete key => "DELETE " ++ key ++ "\n"
  | .stop => "STOP\n"

namespace KvResp

/-- Read the next line that is not empty. -/
def readNextLine (fuel : ℕ) (reader : List UInt8) :
    Option (Except RunnerError (List Char) × List UInt8) :=
  match readNonBlank fuel reader [] with
  | none => none
  | some (.error err, rest) => some (.error (.io err), rest)
  | some (.ok (_, buffer), rest) => some (.ok buffer, rest)

def getSegsOfLine (buffer : List Char) : List String := splitWhitespace buffer

def invalidLine (buffer : List Char) : RunnerError :=
  .io ("invalid line: " ++ String.ofList buffer)

/-- Expect the next segment, returning it and the ones after it. -/
def expectNextSeg (segs : List String) (buffer : List Char) :
    Except RunnerError (String × List String) :=
  match segs with
  | [] => .error (invalidLine buffer)
  | seg :: segs => .ok (seg, segs)

/-- The key and the 'found' field of a Put or Delete line. -/
def expectFound (segs : List String) (buffer : List Char) : Except RunnerError (String × Bool) := do
  let (key, segs) ← expectNextSeg segs buffer
  let (found, _) ← expectNextSeg segs buffer
  if found = "found" then .ok (key, true)
  else if found = "not_found" then .ok (key, false)
  else .error (.parse ("invalid 'found' field: " ++ found))

/-- The key and the value of a Swap or Get line. -/
def expectValue (segs : List String) (buffer : List Char) :
    Except RunnerError (String × Option String) := do
  let (key, segs) ← expectNextSeg segs buffer
  let (value, _) ← expectNextSeg segs buffer
  .ok (key, if value = "null" then none else some value)

/-- The two keys of the first line of a Scan block. -/
def expectBegin (segs : List String) (buffer : List Char) :
    Except RunnerError (String × String) := do
  let (keyStart, segs) ← expectNextSeg segs buffer
  let (keyEnd, segs) ← expectNextSeg segs buffer
  let (begin_, _) ← expectNextSeg segs buffer
  if begin_ ≠ "BEGIN" then .error (invalidLine buffer) else .ok (keyStart, keyEnd)

/-- The key and the value of an entry line of a Scan block. -/
def expectEntry (buffer : List Char) : Except RunnerError (String × String) := do
  let (key, segs) ← expectNextSeg (getSegsOfLine buffer) buffer
  let (value, _) ← expectNextSeg segs buffer
  .ok (key, value)

/-- The loop through scan results; `fuel` bounds its rounds and those of each
`readNextLine`. -/
def scanLoop : ℕ → List (String × String) → List UInt8 →
    Option (Except RunnerError (List (String × String)) × List UInt8)
  | 0, _, _ => none
  | fuel + 1, entries, reader =>
    match readNextLine (fuel + 1) reader with
    | none => none
    | some (.error err, rest) => some (.error err, rest)
    | some (.ok buffer, rest) =>
      if trim isWhitespace buffer = "SCAN END".toList then some (.ok entries, rest)
      else match expectEntry buffer with
        | .error err => some (.error err, rest)
        | .ok entry => scanLoop fuel (entries ++ [entry]) rest

/-- The response that begins with the line in the buffer. -/
def fromLine (fuel : ℕ) (buffer : List Char) (reader : List UInt8) :
    Option (Except RunnerError KvResp × List UInt8) :=
  match getSegsOfLine buffer with
  | [] => some (.error (invalidLine buffer), reader)
  | seg :: segs =>
    if seg = "PUT" then
      some ((expectFound segs buffer).map fun (key, found) => .put key found, reader)
    else if seg = "SWAP" then
      some ((expectValue segs buffer).map fun (key, oldValue) => .swap key oldValue, reader)
    else if seg = "GET" then
      some ((expectValue segs buffer).map fun (key, value) => .get key value, reader)
    else if seg = "SCAN" then
      match expectBegin segs buffer with
      | .error err => some (.error err, reader)
      | .ok (keyStart, keyEnd) =>
        match scanLoop fuel [] reader with
        | none => none
        | some (entries, rest) =>
          some (entries.map fun entries => .scan keyStart keyEnd entries, rest)
    else if seg = "DELETE" then
      some ((expectFound segs buffer).map fun (key, found) => .delete key found, reader)
    else if seg = "STOP" then some (.ok .stop, reader)
    else some (.error (invalidLine buffer), reader)

theorem expectBegin_error {segs : List String} {b : List Char}
    (h : ∀ keyStart keyEnd rest, segs ≠ keyStart :: keyEnd :: "BEGIN" :: rest) :
    ∃ err, expectBegin segs b = .error err := by
  match segs, h with
  | [], _ => exact ⟨_, rfl⟩
  | [_], _ => exact ⟨_, rfl⟩
  | [_, _], _ => exact ⟨_, rfl⟩
  | keyStart :: keyEnd :: begin_ :: rest, h =>
    have hne : begin_ ≠ "BEGIN" := fun hb => h keyStart keyEnd rest (by rw [hb])
    exact ⟨invalidLine b, by simp [expectBegin, expectNextSeg, bind, Except.bind, hne]⟩

theorem fromLine_scan {fuel : ℕ} {buffer : List Char} {reader : List UInt8}
    {keyStart keyEnd : String} {segs : List String}
    (h : getSegsOfLine buffer = "SCAN" :: keyStart :: keyEnd :: "BEGIN" :: segs) :
    fromLine fuel buffer reader =
      (scanLoop fuel [] reader).map fun result =>
        (result.1.map fun entries => .scan keyStart keyEnd entries, result.2) := by
  have hbegin : expectBegin (keyStart :: keyEnd :: "BEGIN" :: segs) buffer =
      .ok (keyStart, keyEnd) := rfl
  simp only [fromLine, h, hbegin]
  cases scanLoop fuel [] reader <;> simp

/-- Only the first line of a Scan block asks for more lines. -/
theorem fromLine_returns (fuel : ℕ) {buffer : List Char} (reader : List UInt8)
    (h : ∀ keyStart keyEnd rest,
      getSegsOfLine buffer ≠ "SCAN" :: keyStart :: keyEnd :: "BEGIN" :: rest) :
    ∃ result, fromLine fuel buffer reader = some (result, reader) := by
  unfold fromLine
  cases hs : getSegsOfLine buffer with
  | nil => exact ⟨_, rfl⟩
  | cons seg segs =>
    by_cases hscan : seg = "SCAN"
    · subst hscan
      have hbegin : ∀ keyStart keyEnd rest, segs ≠ keyStart :: keyEnd :: "BEGIN" :: rest :=
        fun keyStart keyEnd rest he => h keyStart keyEnd rest (by rw [hs, he])
      obtain ⟨err, herr⟩ := expectBegin_error (b := buffer) hbegin
      exact ⟨.error err, by simp [herr]⟩
    · simp only [hscan, ↓reduceIte]
      split_ifs <;> exact ⟨_, rfl⟩

/-- Construct a response from a reader. -/
def fromRead (fuel : ℕ) (reader : List UInt8) :
    Option (Except RunnerError KvResp × List UInt8) :=
  match readNextLine fuel reader with
  | none => none
  | some (.error err, rest) => some (.error err, rest)
  | some (.ok buffer, rest) => fromLine fuel buffer rest

/-! ## More fuel -/

theorem readNextLine_mono {fuel fuel' : ℕ} {reader : List UInt8}
    {result : Except RunnerError (List Char) × List UInt8}
    (h : readNextLine fuel reader = some result) (hle : fuel ≤ fuel') :
    readNextLine fuel' reader = some result := by
  unfold readNextLine at h ⊢
  cases hr : readNonBlank fuel reader [] with
  | none => simp [hr] at h
  | some r =>
    rw [readNonBlank_mono hr hle]
    simpa [hr] using h

theorem scanLoop_mono {fuel fuel' : ℕ} {entries : List (String × String)} {reader : List UInt8}
    {result : Except RunnerError (List (String × String)) × List UInt8}
    (h : scanLoop fuel entries reader = some result) (hle : fuel ≤ fuel') :
    scanLoop fuel' entries reader = some result := by
  induction fuel generalizing fuel' entries reader with
  | zero => simp [scanLoop] at h
  | succ fuel ih =>
    obtain ⟨fuel', rfl⟩ : ∃ k, fuel' = k + 1 := ⟨fuel' - 1, by omega⟩
    unfold scanLoop at h ⊢
    cases hr : readNextLine (fuel + 1) reader with
    | none => simp [hr] at h
    | some r =>
      rw [readNextLine_mono hr hle]
      simp only [hr] at h ⊢
      split at h
      · simp at *
      · exact h
      · split_ifs at h ⊢
        · exact h
        · split at h
          · exact h
          · exact ih h (by omega)

theorem fromLine_mono {fuel fuel' : ℕ} {buffer : List Char} {reader : List UInt8}
    {result : Except RunnerError KvResp × List UInt8}
    (h : fromLine fuel buffer reader = some result) (hle : fuel ≤ fuel') :
    fromLine fuel' buffer reader = some result := by
  unfold fromLine at h ⊢
  cases hs : scanLoop fuel [] reader with
  | some r =>
    rw [hs] at h
    rw [scanLoop_mono hs hle]
    exact h
  | none =>
    rw [hs] at h
    split at h
    · exact h
    · split_ifs at h ⊢
      all_goals first | exact h | (split at h <;> simp_all)

theorem fromRead_mono {fuel fuel' : ℕ} {reader : List UInt8}
    {result : Except RunnerError KvResp × List UInt8}
    (h : fromRead fuel reader = some result) (hle : fuel ≤ fuel') :
    fromRead fuel' reader = some result := by
  unfold fromRead at h ⊢
  cases hr : readNextLine fuel reader with
  | none => simp [hr] at h
  | some r =>
    rw [readNextLine_mono hr hle]
    obtain ⟨outcome, rest⟩ := r
    cases outcome with
    | error err => simpa [hr] using h
    | ok buffer =>
      simp only [hr] at h ⊢
      exact fromLine_mono h hle

theorem fromRead_det {fuel fuel' : ℕ} {reader : List UInt8}
    {result result' : Except RunnerError KvResp × List UInt8}
    (h : fromRead fuel reader = some result) (h' : fromRead fuel' reader = some result') :
    result = result' := by
  have hmore := fromRead_mono h (le_max_left fuel fuel')
  rw [fromRead_mono h' (le_max_right fuel fuel')] at hmore
  exact (Option.some.inj hmore).symm

end KvResp

end MadKV.Runner
