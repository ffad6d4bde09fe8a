import MadKV.Runner.IoApi
import MadKV.Runner.Numbers
import MadKV.Support.SortedMap
import Mathlib.Data.String.Basic

/-!
# YCSB lines as calls

The translation of the bencher: each line that the YCSB driver prints for an
operation becomes a call, and the keys inserted so far are kept in order, to turn
the length of a scan into its last key.
-/

namespace MadKV.Bencher

open Runner Support

/-- The `BTreeSet` of inserted keys. -/
abbrev InsertedKeys := SortedMap String Unit

/-- The keys in order. -/
def InsertedKeys.keys (ikeys : InsertedKeys) : List String := ikeys.entries.map Prod.fst

/-- How a translation can fail. -/
inductive Failure
  | err (err : RunnerError)
  | panic (why : Panic)
deriving DecidableEq, Repr

/-- Parse the key from YCSB call line. -/
def parseYcsbKey (segs : List String) : Except RunnerError (String × List String) :=
  match segs with
  | [] => .error (.parse "missing key segment")
  | key :: segs =>
    match segs with
    | [] => .error (.parse "missing key segment")
    | seg :: segs => .ok (key ++ "_" ++ seg, segs)

/-- The rest of the value, with spaces replaced. -/
def joinSegs : List String → String
  | [] => ""
  | seg :: segs => "_" ++ seg ++ joinSegs segs

/-- Parse the square-bracketed "value" from YCSB call line. -/
def parseYcsbValue (segs : List String) : Except RunnerError String :=
  match segs with
  | "[" :: segs => .ok (joinSegs segs)
  | _ => .error (.parse "no value start bracket")

/-- Parse the scan keys count from YCSB call line. -/
def parseYcsbScnt (segs : List String) : Except RunnerError (ℕ × List String) :=
  match segs with
  | [] => .error (.parse "missing scan count")
  | seg :: segs =>
    match parseUsize seg with
    | .error err => .error (.parse err)
    | .ok scnt => .ok (scnt, segs)

/-- The last key of a scan: the one `scnt - 1` places behind the first key that is
not below `keyStart`, or the last of all. -/
def scanEnd (build : Build) (ikeys : InsertedKeys) (keyStart : String) (segs : List String) :
    Except Failure String :=
  match ikeys.keys.getLast? with
  | none => .ok "zzzzzzzz"
  | some last => do
    let (scnt, _) ← (parseYcsbScnt segs).mapError .err
    let skip ← (usizeSub build scnt 1).mapError .panic
    .ok (((ikeys.lowerBound keyStart).map Prod.fst)[skip]?.getD last)

/-- Parse a YCSB driver output line into a KV operation call, or `none` if not a
call line, together with the inserted keys afterwards. -/
def interpretYcsbCall (build : Build) (line : List Char) (ikeys : InsertedKeys) :
    Except Failure (Option (KvCall × String) × InsertedKeys) :=
  match splitWhitespace line with
  | [] => .ok (none, ikeys)
  | seg :: segs =>
    if seg = "INSERT" then do
      let (key, segs) ← (parseYcsbKey segs).mapError .err
      let value ← (parseYcsbValue segs).mapError .err
      .ok (some (.put key value, "INSERT"), ikeys.insert key ())
    else if seg = "UPDATE" then do
      let (key, segs) ← (parseYcsbKey segs).mapError .err
      let value ← (parseYcsbValue segs).mapError .err
      .ok (some (.swap key value, "UPDATE"), ikeys)
    else if seg = "READ" then do
      let (key, _) ← (parseYcsbKey segs).mapError .err
      .ok (some (.get key, "READ"), ikeys)
    else if seg = "SCAN" then do
      let (keyStart, segs) ← (parseYcsbKey segs).mapError .err
      let keyEnd ← scanEnd build ikeys keyStart segs
      .ok (some (.scan keyStart keyEnd, "SCAN"), ikeys)
    -- no Deletes in default YCSB
    else .ok (none, ikeys)

end MadKV.Bencher
