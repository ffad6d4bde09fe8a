import MadKV.Runner.Numbers
import MadKV.Spec.Interface
import MadKV.Support.SortedMap
import Mathlib.Data.List.Sort

/-!
# What the bencher prints

The results of a run: a header, then for each phase its total time, its
throughput, and a line of latencies for each type of operation. `F` stands for
`f64`, whose arithmetic and formatting are not looked into.
-/

namespace MadKV.Bencher

open Runner Support Spec

/-- What Lean has no classes for: `partial_cmp`, `ceil` with the cast to `usize`, and
the format `{:.prec}`. -/
structure F64 (F : Type) where
  partialCmp : F → F → Option Ordering
  ceil : F → ℕ
  fixed : ℕ → F → String

/-- What `color_print` writes for a pair of tags. -/
structure Style where
  on : String
  off : String

/-- The tags `<s><yellow>`, `<cyan>` and `<magenta>`. -/
structure Colors where
  title : Style
  cyan : Style
  magenta : Style

def spaces (n : ℕ) : String := String.ofList (List.replicate n ' ')

/-- A text in a column of the given width, as texts are aligned. -/
def padRight (width : ℕ) (text : String) : String := text ++ spaces (width - text.length)

/-- A number in a column of the given width, as numbers are aligned. -/
def padLeft (width : ℕ) (text : String) : String := spaces (width - text.length) ++ text

/-- Per-client performance statistics recording. -/
structure Stats (F : Type) where
  totalMs : F
  latSamples : SortedMap String (List F)

variable {F : Type} [NatCast F] [Add F] [Mul F] [Div F] [OfScientific F]

def index (samples : List F) (i : ℕ) : Except Panic F :=
  match samples[i]? with
  | some sample => .ok sample
  | none => .error .outOfBounds

/-- `sort_by` on `partial_cmp`: a NaN compares to nothing, and each of two or more
samples is compared to some other. -/
def sortSamples (f : F64 F) (samples : List F) : Except Panic (List F) :=
  if 2 ≤ samples.length ∧ ∃ sample ∈ samples, f.partialCmp sample sample = none then
    .error (.assertion "a.partial_cmp(b).unwrap()")
  else .ok (samples.insertionSort fun a b => f.partialCmp a b ≠ some .gt)

/-- The average, the smallest, the largest and the 99th percentile. -/
def latencyStats (f : F64 F) (samples : List F) : Except Panic (Option (F × F × F × F)) :=
  if samples = [] then .ok none
  else do
    let sorted ← sortSamples f samples
    let len := sorted.length
    let sum := sorted.foldl (· + ·) 0.0
    let avg := sum / (len : F)
    let min ← index sorted 0
    let max ← index sorted (len - 1)
    let idx := f.ceil ((len : F) * 0.99)
    let p99 ← index sorted (Nat.min (idx - 1) (len - 1))
    .ok (some (avg, min, max, p99))

/-- The texts on the line of an operation. -/
structure Row where
  op : String
  ops : String
  avg : String
  min : String
  max : String
  p99 : String
deriving DecidableEq, Repr

def Row.line (i : ℕ) (row : Row) : String :=
  (if i = 0 then "    Latency:" else "            ") ++ "    " ++ padRight 6 row.op ++ "  ops " ++
    padLeft 6 row.ops ++ "  avg " ++ padLeft 9 row.avg ++ "  min " ++ padLeft 6 row.min ++
    "  max " ++ padLeft 6 row.max ++ "  p99 " ++ padLeft 6 row.p99 ++ "  us"

namespace Stats

variable (stats : Stats F) (f : F64 F)

def totalOps : ℕ := (stats.latSamples.entries.map fun e => e.2.length).sum

def tputAll : F :=
  if f.partialCmp stats.totalMs 0.0 = some .gt then
    (stats.totalOps : F) / (stats.totalMs / 1000.0)
  else 0.0

/-- The types of operations, sorted. -/
def ops : List String := stats.latSamples.entries.map Prod.fst

/-- What is printed of one type of operation. -/
def row (op : String) (samples : List F) : Except Panic Row := do
  let found ← latencyStats f samples
  let (avg, min, max, p99) := found.getD (0.0, 0.0, 0.0, 0.0)
  .ok ⟨op, toString samples.length, f.fixed 2 avg, f.fixed 0 min, f.fixed 0 max, f.fixed 0 p99⟩

def rowsOf : List (String × List F) → Except Panic (List Row)
  | [] => .ok []
  | (op, samples) :: entries => do
    let first ← row f op samples
    let rest ← rowsOf entries
    .ok (first :: rest)

def rows : Except Panic (List Row) := rowsOf f stats.latSamples.entries

/-- The line of the phase. -/
def phaseLine (colors : Colors) (phase : String) : String :=
  "  " ++ colors.cyan.on ++ padRight 6 ("[" ++ phase ++ "]") ++ colors.cyan.off ++ "  " ++
    padLeft 6 (f.fixed 0 stats.totalMs) ++ " ms"

def throughputLine : String :=
  "    Throughput:  " ++ padLeft 9 (f.fixed 2 (stats.tputAll f)) ++ " ops/sec"

def rowLines : ℕ → List Row → List String
  | _, [] => []
  | i, row :: rows => row.line i :: rowLines (i + 1) rows

def print (colors : Colors) (phase : String) : Except Panic String := do
  let rows ← stats.rows f
  .ok (unlines (stats.phaseLine f colors phase :: stats.throughputLine f :: rowLines 0 rows))

end Stats

def validWorkloads : List Char := ['a', 'b', 'c', 'd', 'e', 'f']

/-- The line that `main` prints above the results of the two phases. -/
def resultsLine (colors : Colors) (workload : Char) (numClis : ℕ) : String :=
  colors.title.on ++ "Benchmarking results:" ++ colors.title.off ++ "  " ++
    colors.cyan.on ++ "YCSB-" ++ String.singleton workload ++ colors.cyan.off ++ "  " ++
    colors.magenta.on ++ toString numClis ++ " clients" ++ colors.magenta.off

/-- What `main` prints at its end. -/
def printResults (f : F64 F) (colors : Colors) (workload : Char) (numClis : ℕ)
    (statsLoad statsRun : Stats F) : Except Panic String := do
  let load ← statsLoad.print f colors "Load"
  let run ← statsRun.print f colors "Run"
  .ok (unlines [resultsLine colors workload numClis] ++ load ++ run)

end MadKV.Bencher
