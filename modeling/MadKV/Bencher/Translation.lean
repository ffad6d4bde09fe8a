import MadKV.Bencher.ScanRange

/-!
# What a line becomes

The outcomes of `interpretYcsbCall`, one rule for each way through it, stated on
the words of the line.
-/

namespace MadKV.Bencher

open Runner Support

/-- The key glued from a table and a record. -/
def ycsbKey (table record : String) : String := table ++ "_" ++ record

/-- The words of a line and what the translation makes of them. -/
inductive Translates (build : Build) (ikeys : InsertedKeys) :
    List String → Except Failure (Option (KvCall × String) × InsertedKeys) → Prop
  | notCall {segs : List String} : Translates build ikeys segs (.ok (none, ikeys))
  | err {segs : List String} (err : RunnerError) : Translates build ikeys segs (.error (.err err))
  | insert {table record : String} {fields : List String} :
      Translates build ikeys ("INSERT" :: table :: record :: "[" :: fields)
        (.ok (some (.put (ycsbKey table record) (joinSegs fields), "INSERT"),
          ikeys.insert (ycsbKey table record) ()))
  | update {table record : String} {fields : List String} :
      Translates build ikeys ("UPDATE" :: table :: record :: "[" :: fields)
        (.ok (some (.swap (ycsbKey table record) (joinSegs fields), "UPDATE"), ikeys))
  | read {table record : String} {rest : List String} :
      Translates build ikeys ("READ" :: table :: record :: rest)
        (.ok (some (.get (ycsbKey table record), "READ"), ikeys))
  | scan {table record keyEnd : String} {rest : List String} :
      scanEnd build ikeys (ycsbKey table record) rest = .ok keyEnd →
      Translates build ikeys ("SCAN" :: table :: record :: rest)
        (.ok (some (.scan (ycsbKey table record) keyEnd, "SCAN"), ikeys))
  | panic {table record : String} {rest : List String} {why : Panic} :
      scanEnd build ikeys (ycsbKey table record) rest = .error (.panic why) →
      Translates build ikeys ("SCAN" :: table :: record :: rest) (.error (.panic why))

theorem parseYcsbKey_cases (segs : List String) :
    (∃ err, parseYcsbKey segs = .error err) ∨
      ∃ table record rest, segs = table :: record :: rest ∧
        parseYcsbKey segs = .ok (ycsbKey table record, rest) := by
  match segs with
  | [] => exact .inl ⟨_, rfl⟩
  | [_] => exact .inl ⟨_, rfl⟩
  | table :: record :: rest => exact .inr ⟨table, record, rest, rfl, rfl⟩

theorem parseYcsbValue_cases (segs : List String) :
    (∃ err, parseYcsbValue segs = .error err) ∨
      ∃ fields, segs = "[" :: fields ∧ parseYcsbValue segs = .ok (joinSegs fields) := by
  unfold parseYcsbValue
  split
  · exact .inr ⟨_, rfl, rfl⟩
  · exact .inl ⟨_, rfl⟩

theorem interpretYcsbCall_translates (build : Build) (line : List Char) (ikeys : InsertedKeys) :
    Translates build ikeys (splitWhitespace line) (interpretYcsbCall build line ikeys) := by
  unfold interpretYcsbCall
  cases splitWhitespace line with
  | nil => exact .notCall
  | cons seg segs =>
    simp only
    -- one goal for each command; each asks for a key first
    split_ifs with hinsert hupdate hread hscan
    · subst hinsert
      rcases parseYcsbKey_cases segs with ⟨err, hkey⟩ | ⟨table, record, rest, rfl, hkey⟩
      · simpa only [hkey] using .err err
      · rcases parseYcsbValue_cases rest with ⟨err, hvalue⟩ | ⟨fields, rfl, hvalue⟩
        · simpa [hkey, hvalue, Except.mapError, bind, Except.bind] using .err err
        · simpa only [hkey, hvalue] using .insert
    · subst hupdate
      rcases parseYcsbKey_cases segs with ⟨err, hkey⟩ | ⟨table, record, rest, rfl, hkey⟩
      · simpa only [hkey] using .err err
      · rcases parseYcsbValue_cases rest with ⟨err, hvalue⟩ | ⟨fields, rfl, hvalue⟩
        · simpa [hkey, hvalue, Except.mapError, bind, Except.bind] using .err err
        · simpa only [hkey, hvalue] using .update
    · subst hread
      rcases parseYcsbKey_cases segs with ⟨err, hkey⟩ | ⟨table, record, rest, rfl, hkey⟩
      · simpa only [hkey] using .err err
      · simpa only [hkey] using .read
    · subst hscan
      rcases parseYcsbKey_cases segs with ⟨err, hkey⟩ | ⟨table, record, rest, rfl, hkey⟩
      · simpa only [hkey] using .err err
      · cases hend : scanEnd build ikeys (ycsbKey table record) rest with
        | ok keyEnd => simpa [hkey, hend, Except.mapError, bind, Except.bind] using .scan hend
        | error failure =>
          cases failure with
          | err err => simpa [hkey, hend, Except.mapError, bind, Except.bind] using .err err
          | panic why => simpa [hkey, hend, Except.mapError, bind, Except.bind] using .panic hend
    · exact .notCall

theorem interpretYcsbCall_insert {line : List Char} {table record : String} {fields : List String}
    (h : splitWhitespace line = "INSERT" :: table :: record :: "[" :: fields) (build : Build)
    (ikeys : InsertedKeys) : interpretYcsbCall build line ikeys =
      .ok (some (.put (ycsbKey table record) (joinSegs fields), "INSERT"),
        ikeys.insert (ycsbKey table record) ()) := by
  simp [interpretYcsbCall, h, parseYcsbKey, parseYcsbValue, ycsbKey, Except.mapError, bind,
    Except.bind]

theorem interpretYcsbCall_update {line : List Char} {table record : String} {fields : List String}
    (h : splitWhitespace line = "UPDATE" :: table :: record :: "[" :: fields) (build : Build)
    (ikeys : InsertedKeys) : interpretYcsbCall build line ikeys =
      .ok (some (.swap (ycsbKey table record) (joinSegs fields), "UPDATE"), ikeys) := by
  simp [interpretYcsbCall, h, parseYcsbKey, parseYcsbValue, ycsbKey, Except.mapError, bind,
    Except.bind]

/-! ## The end of a scan -/

/-- The key that no scan reaches beyond: the last one inserted, or a sentinel when
there is none. -/
def InsertedKeys.farthest (ikeys : InsertedKeys) : String := ikeys.keys.getLast?.getD "zzzzzzzz"

/-- A scan ends at an inserted key from its start on, or else at the farthest one. -/
theorem scanEnd_ok {build : Build} {ikeys : InsertedKeys} {keyStart keyEnd : String}
    {segs : List String} (h : scanEnd build ikeys keyStart segs = .ok keyEnd) :
    keyEnd ∈ ikeys.keysFrom keyStart ∨ keyEnd = ikeys.farthest := by
  unfold scanEnd at h
  unfold InsertedKeys.farthest
  cases hlast : ikeys.keys.getLast? with
  | none =>
    simp only [hlast, Except.ok.injEq] at h
    exact .inr h.symm
  | some last =>
    simp only [hlast, ikeys.lowerBound_keys] at h
    cases hscnt : parseYcsbScnt segs with
    | error err => simp [hscnt, Except.mapError, bind, Except.bind] at h
    | ok result =>
      cases hsub : usizeSub build result.1 1 with
      | error why => simp [hscnt, hsub, Except.mapError, bind, Except.bind] at h
      | ok skip =>
        simp only [hscnt, hsub, Except.mapError, bind, Except.bind, Except.ok.injEq] at h
        cases hnth : (ikeys.keysFrom keyStart)[skip]? with
        | none => exact .inr (by simpa [hnth] using h.symm)
        | some key =>
          rw [hnth, Option.getD_some] at h
          exact .inl (h ▸ List.mem_of_getElem? hnth)

/-- Only an underflow of the count panics, with some key inserted. -/
theorem scanEnd_panic_iff {build : Build} {ikeys : InsertedKeys} {keyStart : String}
    {segs : List String} : (∃ why, scanEnd build ikeys keyStart segs = .error (.panic why)) ↔
      build = .dev ∧ ikeys.keys ≠ [] ∧ ∃ rest, parseYcsbScnt segs = .ok (0, rest) := by
  unfold scanEnd
  cases hlast : ikeys.keys.getLast? with
  | none => simp [List.getLast?_eq_none_iff.mp hlast]
  | some last =>
    have hne : ikeys.keys ≠ [] := by
      intro hnil
      simp [hnil] at hlast
    cases hscnt : parseYcsbScnt segs with
    | error err => simp [Except.mapError, bind, Except.bind]
    | ok result =>
      obtain ⟨scnt, rest⟩ := result
      cases scnt with
      | zero => cases build <;> simp [usizeSub, hne, Except.mapError, bind, Except.bind]
      | succ scnt => simp [usizeSub, Except.mapError, bind, Except.bind]

end MadKV.Bencher
