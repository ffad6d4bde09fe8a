import MadKV.Spec.KeyValue
import MadKV.Support.Text

/-!
# The textual interface

How calls and responses are written down: the words of a command line, the
lines of a response block, and the texts that spell out a sequence of calls.
-/

namespace MadKV.Spec

open Runner Support

/-! ## Responses -/

/-- The given lines, each ended by a newline. -/
def unlines : List String → String
  | [] => ""
  | line :: rest => line ++ "\n" ++ unlines rest

def foundText (found : Bool) : String := if found then "found" else "not_found"

def valueText (value : Option String) : String := value.getD "null"

/-- The lines of the block that reports a response. -/
def respLines : KvResp → List String
  | .put key found => ["PUT " ++ key ++ " " ++ foundText found]
  | .swap key oldValue => ["SWAP " ++ key ++ " " ++ valueText oldValue]
  | .get key value => ["GET " ++ key ++ " " ++ valueText value]
  | .scan keyStart keyEnd entries =>
    ("SCAN " ++ keyStart ++ " " ++ keyEnd ++ " BEGIN") ::
      (entries.map fun e => "  " ++ e.1 ++ " " ++ e.2) ++ ["SCAN END"]
  | .delete key found => ["DELETE " ++ key ++ " " ++ foundText found]
  | .stop => ["STOP"]

/-- The block of a response. -/
def render (resp : KvResp) : String := unlines (respLines resp)

/-- The blocks of a sequence of responses. -/
def transcript (resps : List KvResp) : String := unlines (resps.flatMap respLines)

theorem unlines_append (ls ls' : List String) :
    unlines (ls ++ ls') = unlines ls ++ unlines ls' := by
  induction ls with
  | nil => simp [unlines]
  | cons line ls ih => simp [unlines, ih, String.append_assoc]

@[simp] theorem transcript_nil : transcript [] = "" := rfl

@[simp] theorem transcript_cons (resp : KvResp) (resps : List KvResp) :
    transcript (resp :: resps) = render resp ++ transcript resps :=
  unlines_append _ _

theorem toList_unlines (ls : List String) :
    (unlines ls).toList = joinLines '\n' (ls.map String.toList) := by
  induction ls with
  | nil => rfl
  | cons line ls ih => simp [unlines, ih]

/-! ## Calls -/

/-- The words of a command line. -/
def callWords : KvCall → List String
  | .put key value => ["PUT", key, value]
  | .swap key value => ["SWAP", key, value]
  | .get key => ["GET", key]
  | .scan keyStart keyEnd => ["SCAN", keyStart, keyEnd]
  | .delete key => ["DELETE", key]
  | .stop => ["STOP"]

/-- The words of a call, its keys and values above all, are non-empty and free of
characters from `p`. -/
def WellFormed (p : Char → Bool) (call : KvCall) : Prop :=
  ∀ w ∈ callWords call, Token p w.toList

/-- The lines spell the calls, one a line in between blank lines, with gaps of
characters from `p` around and between the words. -/
inductive Script (p : Char → Bool) : List String → List KvCall → Prop
  | nil : Script p [] []
  | blank {line : String} {ls : List String} {calls : List KvCall} :
      Gap p line.toList → Script p ls calls → Script p (line :: ls) calls
  | call {line : String} {ls : List String} {call : KvCall} {calls : List KvCall} :
      Spaced p ((callWords call).map String.toList) line.toList → Script p ls calls →
      Script p (line :: ls) (call :: calls)

theorem Script.nil_calls {p : Char → Bool} {ls : List String} (h : Script p ls []) :
    ∀ line ∈ ls, Gap p line.toList := by
  generalize hc : ([] : List KvCall) = calls at h
  induction h with
  | nil => simp
  | blank hgap _ ih =>
    intro line hline
    rcases List.mem_cons.mp hline with rfl | hline
    · exact hgap
    · exact ih hc line hline
  | call => cases hc

/-- The lines up to the first call, and the ones after it. -/
theorem Script.cons_calls {p : Char → Bool} {ls : List String} {call : KvCall}
    {calls : List KvCall} (h : Script p ls (call :: calls)) :
    ∃ blanks line rest, ls = blanks ++ line :: rest ∧ (∀ b ∈ blanks, Gap p b.toList) ∧
      Spaced p ((callWords call).map String.toList) line.toList ∧ Script p rest calls := by
  generalize hc : call :: calls = all at h
  induction h with
  | nil => cases hc
  | @blank line ls _ hgap _ ih =>
    obtain ⟨blanks, line', rest, rfl, hblanks, hline', hrest⟩ := ih hc
    refine ⟨line :: blanks, line', rest, rfl, fun b hb => ?_, hline', hrest⟩
    rcases List.mem_cons.mp hb with rfl | hb
    · exact hgap
    · exact hblanks b hb
  | @call line ls _ _ hline hrest =>
    cases hc
    exact ⟨[], line, ls, rfl, by simp, hline, hrest⟩

/-- A script stays one when more characters count as gaps, if no word contains them. -/
theorem Script.mono {p q : Char → Bool} {ls : List String} {calls : List KvCall}
    (h : Script p ls calls) (hpq : ∀ c, p c = true → q c = true)
    (hwf : ∀ call ∈ calls, WellFormed q call) : Script q ls calls := by
  induction h with
  | nil => exact .nil
  | blank hgap _ ih => exact .blank (fun c hc => hpq c (hgap c hc)) (ih hwf)
  | @call line ls call calls hline _ ih =>
    refine .call (hline.mono hpq ?_) (ih fun c hc => hwf c (by simp [hc]))
    exact List.forall_mem_map.mpr fun w hw => (hwf call (by simp) w hw).2

/-- A text made of the given lines, of which only the last may be unterminated. -/
def IsInput (ls : List String) (text : String) : Prop :=
  (∀ line ∈ ls, '\n' ∉ line.toList) ∧
    (text = unlines ls ∨ ∃ init last, ls = init ++ [last] ∧ last ≠ "" ∧
      text = unlines init ++ last)

theorem IsInput.lines {ls : List String} {text : String} (h : IsInput ls text) :
    Support.lines '\n' text.toList = ls.map String.toList := by
  obtain ⟨hline, rfl | ⟨init, last, rfl, hlast, rfl⟩⟩ := h
  · have hchars : ∀ line ∈ ls.map String.toList, '\n' ∉ line := List.forall_mem_map.mpr hline
    have hjoin := lines_joinLines_append hchars []
    rw [toList_unlines]
    simpa [Support.lines, pieces] using hjoin
  · have hchars : ∀ line ∈ init.map String.toList, '\n' ∉ line :=
      List.forall_mem_map.mpr fun line hl => hline line (by simp [hl])
    rw [String.toList_append, toList_unlines, lines_joinLines_append hchars,
      lines_last (hline last (by simp)) (by simpa using hlast)]
    simp

/-- What a client executes of a sequence of calls: everything up to the first Stop. -/
def untilStop : List KvCall → List KvCall
  | [] => []
  | .stop :: _ => [.stop]
  | call :: calls => call :: untilStop calls

theorem untilStop_cons_of_ne {call : KvCall} (h : call ≠ .stop) (calls : List KvCall) :
    untilStop (call :: calls) = call :: untilStop calls := by
  cases call <;> first | rfl | exact absurd rfl h

end MadKV.Spec
