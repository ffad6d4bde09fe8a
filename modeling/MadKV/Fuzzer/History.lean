import MadKV.Runner.KvOps
import MadKV.Support.IntervalChain
import Mathlib.Data.List.AList
import Mathlib.Data.Finset.Lattice.Fold

/-!
# The fuzzer's consistency checker

`History` keeps, for each key and each client, the acknowledged updates that may
still matter, and a queue of responses waiting to be checked. Client indices are
`Fin n`, so the vectors of the source are functions on clients. Timestamps come
from one logical clock and are only compared, so natural numbers model them.
-/

namespace MadKV.Fuzzer

open Runner Support

/-- Per-key, non-read-only operation record with timestamp span. -/
structure UpdateSpan where
  tsCall : ℕ
  tsResp : ℕ
  value : Option String
deriving DecidableEq, Repr

/-- Check queue entry with timestamp span. -/
structure QueuedSpan where
  tsCall : ℕ
  tsResp : ℕ
  resp : KvResp
deriving DecidableEq, Repr

/-- The lists of one key, by client. -/
abbrev KeySpans (n : ℕ) := Fin n → List UpdateSpan

/-- The hash map from keys to their lists; its iteration order is never relied on. -/
abbrev SpanMap (n : ℕ) := AList fun _ : String => KeySpans n

/-- Trimmed history of per-client acknowledged operations. -/
structure History (n : ℕ) where
  queue : List QueuedSpan
  spans : SpanMap n
  maxtr : Fin n → ℕ

def u64Max : ℕ := 2 ^ 64 - 1

/-- The dummy Delete every list starts with. -/
def dummySpan : UpdateSpan := ⟨0, 0, none⟩

variable {n : ℕ}

def insertKey (n : ℕ) (spans : SpanMap n) (key : String) : SpanMap n :=
  if key ∈ spans then spans else spans.insert key fun _ => [dummySpan]

/-- Create a new empty history for given number of clients and keys pool. -/
def History.new (n : ℕ) (keys : List (List String)) : History n where
  queue := []
  spans := keys.foldl (fun spans cliKeys => cliKeys.foldl (insertKey n) spans) ∅
  maxtr := fun _ => 0

/-- Add a newly acknowledged response result to the check queue. -/
def History.addToQueue (h : History n) (tsCall tsResp : ℕ) (resp : KvResp) : History n :=
  { h with queue := h.queue ++ [⟨tsCall, tsResp, resp⟩] }

@[simp] theorem addToQueue_spans (h : History n) (tsCall tsResp : ℕ) (resp : KvResp) :
    (h.addToQueue tsCall tsResp resp).spans = h.spans := rfl

@[simp] theorem addToQueue_maxtr (h : History n) (tsCall tsResp : ℕ) (resp : KvResp) :
    (h.addToQueue tsCall tsResp resp).maxtr = h.maxtr := rfl

/-- Get the number of remaining checks in the check queue. -/
def History.queueLen (h : History n) : ℕ := h.queue.length

/-! ## Checks of a single response -/

/-- The loop shared by the point checks: every client's list is searched from
its newest span, up to the first span that was over before the call. -/
def checkSpans (explains : Option String → Bool) (keySpans : KeySpans n)
    (tsCall tsResp : ℕ) : Bool :=
  (List.finRange n).any fun d =>
    searchUntil (fun span => decide (span.tsCall < tsResp) && explains span.value)
      (fun span => decide (span.tsResp < tsCall)) (keySpans d).reverse

def checkPut (keySpans : KeySpans n) (tsCall tsResp : ℕ) (found : Bool) : Bool :=
  checkSpans (fun value => value.isSome == found) keySpans tsCall tsResp

def checkSwap (keySpans : KeySpans n) (tsCall tsResp : ℕ) (oldValue : Option String) : Bool :=
  checkSpans (fun value => value == oldValue) keySpans tsCall tsResp

def checkGet (keySpans : KeySpans n) (tsCall tsResp : ℕ) (value : Option String) : Bool :=
  checkSpans (fun v => v == value) keySpans tsCall tsResp

def checkDelete (keySpans : KeySpans n) (tsCall tsResp : ℕ) (found : Bool) : Bool :=
  checkSpans (fun value => value.isSome == found) keySpans tsCall tsResp

/-- The entries of a scan as a map, or `none` when one is out of range or repeated. -/
def entriesMap (keyStart keyEnd : String) :
    List (String × String) → AList (fun _ : String => String) →
      Option (AList fun _ : String => String)
  | [], seen => some seen
  | (key, value) :: entries, seen =>
    if key < keyStart ∨ keyEnd < key then none
    else if key ∈ seen then none
    else entriesMap keyStart keyEnd entries (seen.insert key value)

/-- Check a Scan operation result assuming given history. All possible keys in
range are searched here. -/
def checkScan (spans : SpanMap n) (tsCall tsResp : ℕ) (keyStart keyEnd : String)
    (entries : List (String × String)) : Bool :=
  match entriesMap keyStart keyEnd entries ∅ with
  | none => false
  | some seen => spans.entries.all fun e =>
      !(decide (keyStart ≤ e.1) && decide (e.1 ≤ keyEnd) &&
        !checkGet e.2 tsCall tsResp (seen.lookup e.1))

/-- Check a call popped off from the check queue, which is now decidable. -/
def checkCall (spans : SpanMap n) (entry : QueuedSpan) : Bool :=
  match entry.resp with
  | .put key found =>
    match spans.lookup key with
    | some keySpans => checkPut keySpans entry.tsCall entry.tsResp found
    | none => false
  | .swap key oldValue =>
    match spans.lookup key with
    | some keySpans => checkSwap keySpans entry.tsCall entry.tsResp oldValue
    | none => false
  | .get key value =>
    match spans.lookup key with
    | some keySpans => checkGet keySpans entry.tsCall entry.tsResp value
    | none => false
  | .scan keyStart keyEnd entries =>
    checkScan spans entry.tsCall entry.tsResp keyStart keyEnd entries
  | .delete key found =>
    match spans.lookup key with
    | some keySpans => checkDelete keySpans entry.tsCall entry.tsResp found
    | none => false
  | .stop => false

/-! ## Applying an update -/

/-- Trim off updates at the head of one client's list. -/
def trimSpans (minComingTs minQueuedTs : ℕ) (cliSpans : List UpdateSpan) : List UpdateSpan :=
  -- can discard only what precedes a span fully ahead of both bounds
  let keepTs := ((cliSpans.reverse.find? fun span =>
    decide (span.tsResp < minComingTs) && decide (span.tsResp < minQueuedTs)).map
      UpdateSpan.tsCall).getD 0
  popWhile (fun span => decide (span.tsResp < keepTs)) cliSpans

/-- Pop now-checkable results off the queue, stopping at the first one that
fails its check. -/
def popDecided (spans : SpanMap n) (minComingTs : ℕ) :
    List QueuedSpan → Option KvResp × List QueuedSpan
  | [] => (none, [])
  | entry :: queue =>
    if entry.tsResp < minComingTs then
      if checkCall spans entry then popDecided spans minComingTs queue
      else (some entry.resp, queue)
    else (none, entry :: queue)

/-- The smallest of the per-client timestamps; some client exists. -/
def minOf (cidx : Fin n) (maxtr : Fin n → ℕ) : ℕ :=
  Finset.univ.inf' ⟨cidx, Finset.mem_univ cidx⟩ maxtr

def minQueued (queue : List QueuedSpan) : ℕ :=
  ((queue.map QueuedSpan.tsCall).min?).getD u64Max

/-- The first half of `applyUpdate`: push the span and trim the lists of its
key, or `none` when the key is unexpected. -/
def History.pushUpdate (h : History n) (cidx : Fin n) (key : String) (span : UpdateSpan) :
    Option (History n) :=
  match h.spans.lookup key with
  | none => none
  | some keySpans =>
    let pushed := Function.update keySpans cidx (keySpans cidx ++ [span])
    let maxtr := Function.update h.maxtr cidx span.tsResp
    let trimmed := fun d => trimSpans (minOf cidx maxtr) (minQueued h.queue) (pushed d)
    some { queue := h.queue, spans := h.spans.insert key trimmed, maxtr }

/-- The second half of `applyUpdate`: check what became decidable. -/
def History.popQueue (h : History n) (cidx : Fin n) : Option KvResp × History n :=
  let popped := popDecided h.spans (minOf cidx h.maxtr) h.queue
  (popped.1, { h with queue := popped.2 })

/-- Add a newly acknowledged update to the history, possibly trimming the heads
of the history and possibly triggering some pending results to get checked:
`some (some resp)` if the check of `resp` failed, `some none` if the update key
is unexpected, `none` if everything is still alright. -/
def History.applyUpdate (h : History n) (cidx : Fin n) (tsCall tsResp : ℕ) (key : String)
    (value : Option String) : Option (Option KvResp) × History n :=
  match h.pushUpdate cidx key ⟨tsCall, tsResp, value⟩ with
  | none => (some none, h)
  | some pushed =>
    let popped := pushed.popQueue cidx
    (popped.1.map some, popped.2)

end MadKV.Fuzzer
