import MadKV.Runner.ReadLine

/-!
# What the report reads

`parse_bench_result` of the report generator, a state machine over the lines of
a log. Python's `float` is a parameter: it reads a numeral or raises.
-/

namespace MadKV.Sumgen

open Runner Support

/-- The exceptions that are raised. -/
inductive PyError
  | indexError
  | valueError (text : String)
  | runtimeError (message : String)
deriving DecidableEq, Repr

/-- `str.isspace`, by which `str.strip` and `str.split` go. -/
def isspace (c : Char) : Bool :=
  isWhitespace c || (0x1c ≤ c.toNat && c.toNat ≤ 0x1f)

/-- How a file opened as text translates its line ends. -/
def universalNewlines : List Char → List Char
  | [] => []
  | '\r' :: '\n' :: text => '\n' :: universalNewlines text
  | '\r' :: text => '\n' :: universalNewlines text
  | c :: text => c :: universalNewlines text

/-- The lines that a loop over the file goes through. -/
def fileLines (text : List Char) : List (List Char) := pieces '\n' (universalNewlines text)

def strip (text : List Char) : List Char := trim isspace text

def split (text : List Char) : List String := (words isspace text).map String.ofList

/-- `text in line`. -/
def isIn (text : String) (line : List Char) : Bool := decide (text.toList <:+: line)

def endswith (line : List Char) (text : String) : Bool := decide (text.toList <:+ line)

/-- `segs[-k]`. -/
def fromEnd (segs : List String) (k : ℕ) : Except PyError String :=
  match segs.reverse[k - 1]? with
  | some seg => .ok seg
  | none => .error .indexError

/-- `d[key] = value`. -/
def setItem {V : Type} (key : String) (value : V) : List (String × V) → List (String × V)
  | [] => [(key, value)]
  | (k, v) :: items => if k = key then (k, value) :: items else (k, v) :: setItem key value items

/-- The numbers of one type of operation. -/
structure Lat (G : Type) where
  ops : G
  avg : G
  p99 : G
deriving DecidableEq, Repr

variable {G : Type}

/-- The variables of the loop. -/
structure Bench (G : Type) where
  inNumbers : Bool
  inRunSec : Bool
  tput : G
  lats : List (String × Lat G)
deriving DecidableEq, Repr

def readFloat (float : String → Option G) (text : String) : Except PyError G :=
  match float text with
  | some x => .ok x
  | none => .error (.valueError text)

/-- The line of one type of operation. -/
def parseLats (float : String → Option G) (segs : List String) :
    Except PyError (String × Lat G) := do
  let op ← fromEnd segs 12
  let ops ← readFloat float (← fromEnd segs 10)
  let avg ← readFloat float (← fromEnd segs 8)
  let p99 ← readFloat float (← fromEnd segs 2)
  .ok (op, ⟨ops, avg, p99⟩)

/-- The body of the loop. -/
def parseBenchLine (float : String → Option G) (s : Bench G) (line : List Char) :
    Except PyError (Bench G) :=
  let line := strip line
  if !s.inNumbers && isIn "Benchmarking results:" line then .ok { s with inNumbers := true }
  else if s.inNumbers && !s.inRunSec && isIn "[Run]" line then .ok { s with inRunSec := true }
  else if s.inRunSec then
    if isIn "Throughput" line then do
      let tput ← readFloat float (← fromEnd (split line) 2)
      .ok { s with tput }
    else if endswith line " us" then do
      let (op, lat) ← parseLats float (split line)
      .ok { s with lats := setItem op lat s.lats }
    else .ok s
  else .ok s

def parseBenchLines (float : String → Option G) :
    Bench G → List (List Char) → Except PyError (Bench G)
  | s, [] => .ok s
  | s, line :: lines => do
    let s ← parseBenchLine float s line
    parseBenchLines float s lines

/-- The throughput and the latencies in a log; `zero` is `0.0`, and `ycsbLog` the name
of the file. -/
def parseBenchResult (float : String → Option G) (zero : G) (ycsbLog : String) (log : String) :
    Except PyError (G × List (String × Lat G)) := do
  let s ← parseBenchLines float ⟨false, false, zero, []⟩ (fileLines log.toList)
  -- tput is never None
  if s.lats.length = 0 then
    .error (.runtimeError ("cannot find expected stats in '" ++ ycsbLog ++ "'"))
  else .ok (s.tput, s.lats)

end MadKV.Sumgen
