import MadKV.Runner.KvOps
import MadKV.Runner.ReadLine
import MadKV.Support.SortedMap
import Mathlib.Data.String.Basic

/-!
# The reference client

`refcli`: a process that answers the calls on its standard input from a sorted
map of its own. Its `KvCall` and `KvResp` are those of the runner.
-/

namespace MadKV.RefCli

open Runner Support

/-- Get the next segment from an input line. -/
def expectNextSeg (segs : List String) (line : List Char) :
    Except String (String × List String) :=
  match segs with
  | [] => .error ("invalid input line: " ++ String.ofList line)
  | seg :: segs => .ok (seg, segs)

/-- Parse an input line into a call. -/
def parseInputCall (line : List Char) : Except String KvCall :=
  match splitWhitespace line with
  | [] => .error ("invalid input line: " ++ String.ofList line)
  | seg :: segs =>
    if seg = "PUT" then do
      let (key, segs) ← expectNextSeg segs line
      let (value, _) ← expectNextSeg segs line
      .ok (.put key value)
    else if seg = "SWAP" then do
      let (key, segs) ← expectNextSeg segs line
      let (value, _) ← expectNextSeg segs line
      .ok (.swap key value)
    else if seg = "GET" then do
      let (key, _) ← expectNextSeg segs line
      .ok (.get key)
    else if seg = "SCAN" then do
      let (keyStart, segs) ← expectNextSeg segs line
      let (keyEnd, _) ← expectNextSeg segs line
      .ok (.scan keyStart keyEnd)
    else if seg = "DELETE" then do
      let (key, _) ← expectNextSeg segs line
      .ok (.delete key)
    else if seg = "STOP" then .ok .stop
    else .error ("invalid input line: " ++ String.ofList line)

/-- The `BTreeMap` of the reference client. The documentation of `BTreeMap::range` has
it panic whenever the start exceeds the end; as implemented it compares them only once
the map has a root, which it gets with the first key and never loses. `checks` tells
whether it does: always, to go by the documentation. -/
structure State where
  map : SortedMap String String
  checks : Bool

namespace State

def new (checks : Bool) : State := ⟨SortedMap.empty, checks⟩

def find? (state : State) (key : String) : Option String := state.map.find? key

def insert (state : State) (key value : String) : State := ⟨state.map.insert key value, true⟩

def erase (state : State) (key : String) : State := { state with map := state.map.erase key }

def range? (state : State) (keyStart keyEnd : String) : Option (List (String × String)) :=
  -- a map without a root has no entries
  if state.checks then state.map.range? keyStart keyEnd else some []

end State

/-- Handle a call, or panic: `BTreeMap::range` does when its start exceeds its end. -/
def handleKvCall (call : KvCall) (state : State) : Option (KvResp × State) :=
  match call with
  | .put key value =>
    let found := (state.find? key).isSome
    some (.put key found, state.insert key value)
  | .swap key value => some (.swap key (state.find? key), state.insert key value)
  | .get key => some (.get key (state.find? key), state)
  | .scan keyStart keyEnd =>
    match state.range? keyStart keyEnd with
    | none => none
    | some entries => some (.scan keyStart keyEnd entries, state)
  | .delete key => some (.delete key (state.find? key).isSome, state.erase key)
  | .stop => some (.stop, state)

/-- The loop over the entries of a Scan. -/
def writeEntries : List (String × String) → String
  | [] => ""
  | (k, v) :: entries => "  " ++ k ++ " " ++ v ++ "\n" ++ writeEntries entries

/-- What `write_response` writes. -/
def writeResponse : KvResp → String
  | .put key found => "PUT " ++ key ++ " " ++ (if found then "found" else "not_found") ++ "\n"
  | .swap key oldValue => "SWAP " ++ key ++ " " ++
    (match oldValue with | some oldValue => oldValue | none => "null") ++ "\n"
  | .get key value => "GET " ++ key ++ " " ++
    (match value with | some value => value | none => "null") ++ "\n"
  | .scan keyStart keyEnd entries =>
    "SCAN " ++ keyStart ++ " " ++ keyEnd ++ " BEGIN\n" ++ writeEntries entries ++ "SCAN END\n"
  | .delete key found =>
    "DELETE " ++ key ++ " " ++ (if found then "found" else "not_found") ++ "\n"
  | .stop => "STOP\n"

/-- How the process ends, if it does. -/
inductive Ending
  | running
  | ok
  | err (message : String)
  | panic
deriving DecidableEq, Repr

/-- What the process printed, and how it ended. -/
structure Progress where
  out : String
  ending : Ending
deriving DecidableEq, Repr

/-- The loop of `main`; `fuel` bounds its rounds and those of the reading loop
inside. -/
def mainLoop : ℕ → List UInt8 → State → Progress
  | 0, _, _ => ⟨"", .running⟩
  | fuel + 1, stdin, state =>
    match readNonBlank (fuel + 1) stdin [] with
    | none => ⟨"", .running⟩
    | some (.error err, _) => ⟨"", .err err⟩
    | some (.ok (_, buffer), stdin) =>
      match parseInputCall (trim isWhitespace buffer) with
      | .error err => ⟨"", .err err⟩
      | .ok call =>
        match handleKvCall call state with
        | none => ⟨"", .panic⟩
        | some (resp, state) =>
          if resp = .stop then ⟨writeResponse resp, .ok⟩
          else
            let later := mainLoop fuel stdin state
            { later with out := writeResponse resp ++ later.out }

/-- The process, with `BTreeMap::range` as documented. -/
def main (fuel : ℕ) (stdin : List UInt8) : Progress :=
  mainLoop fuel stdin (.new true)

end MadKV.RefCli
