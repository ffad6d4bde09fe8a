import MadKV.Bencher.Stats
import MadKV.Fuzzer.System

/-!
# The fuzzer's main

It checks its arguments, generates the pool of keys, runs the test and prints the
result. The keys are numbered when clients share them and random otherwise; either
way they are single words.
-/

namespace MadKV.Fuzzer

open Runner Support Spec Bencher

def keyLen : ℕ := 8

/-- A number with zeros in front, `{:0width$}`. -/
def zeroPad (width i : ℕ) : String :=
  String.ofList (List.replicate (width - (toString i).length) '0') ++ toString i

/-- The `i`-th key of a client. -/
def genKey (conflict : Bool) (draws : ℕ → ℕ) (i : ℕ) : Except Panic String :=
  if conflict then .ok ("key" ++ zeroPad (keyLen - 3) i) else genRandString draws keyLen

/-- The keys of a client, from the numbers drawn for each. -/
def genKeys (conflict : Bool) (draws : ℕ → ℕ → ℕ) : ℕ → Except Panic (List String)
  | 0 => .ok []
  | i + 1 => do
    let keys ← genKeys conflict draws i
    let key ← genKey conflict (draws i) i
    .ok (keys ++ [key])

/-- The keys of all clients. -/
def genPool (conflict : Bool) (numKeys : ℕ) (draws : ℕ → ℕ → ℕ → ℕ) :
    ℕ → Except Panic (List (List String))
  | 0 => .ok []
  | c + 1 => do
    let lists ← genPool conflict numKeys draws c
    let keys ← genKeys conflict (draws c) numKeys
    .ok (lists ++ [keys])

/-- Fuzzer utility arguments. -/
structure Args where
  numClis : ℕ
  numKeys : ℕ
  numOps : ℕ
  conflict : Bool

def Args.check (args : Args) : Except Panic Unit :=
  if args.numClis = 0 then .error (.assertion "args.num_clis != 0")
  else if args.numKeys = 0 then .error (.assertion "args.num_keys != 0")
  else if ¬ args.numKeys < 100000 then .error (.assertion "args.num_keys < 100000")
  else if ¬ args.numOps ≥ 1000 then .error (.assertion "args.num_ops >= 1000")
  else .ok ()

/-- The lists of keys, by client. -/
def poolOf (numClis : ℕ) (lists : List (List String)) : Pool numClis := fun c => lists.getD c []

/-- The tags `<s><yellow>`, `<red>` and `<green>`. -/
structure FuzzColors where
  title : Style
  red : Style
  green : Style

/-- A text between the sequences of its tags. -/
def paint (style : Style) (text : String) : String := style.on ++ text ++ style.off

def Verdict.name : Verdict → String
  | .passed => "PASSED"
  | .unfair => "UNFAIR"
  | .failed => "FAILED"

def Verdict.style (colors : FuzzColors) : Verdict → Style
  | .passed => colors.green
  | .unfair => colors.red
  | .failed => colors.red

/-- The line with the outcome. -/
def outcomeLine (colors : FuzzColors) (outcome : Verdict) : String :=
  paint colors.title "Fuzz testing result:" ++ " " ++ paint (outcome.style colors) outcome.name

/-- The line below it. It is printed as it stands, so its tags stay what they are. -/
def remarkLine : Option ℕ → String
  | some remaining =>
    "  Remaining checks queued:  " ++ toString remaining ++ "  " ++
      if remaining ≥ remainThresh then "<s><red>too many!</></>" else "reasonable"
  | none => "  Some check failed explicitly :-("

/-- `ClientProc::new` for each client, up to the first error. -/
def startClients (spawn : ℕ → Except RunnerError Unit) : ℕ → Except RunnerError Unit
  | 0 => .ok ()
  | c + 1 => do
    startClients spawn c
    spawn c

/-- How `main` ends; `printed` with the last two lines. -/
inductive MainEnd
  | running
  | panic (why : Panic)
  | err (err : RunnerError)
  | printed (lines : String)

def main (args : Args) (colors : FuzzColors) (draws : ℕ → ℕ → ℕ → ℕ)
    (spawn : ℕ → Except RunnerError Unit) (rounds : List Round)
    (stop : Except RunnerError Unit) : MainEnd :=
  match args.check with
  | .error why => .panic why
  | .ok () =>
    match genPool args.conflict args.numKeys draws args.numClis with
    | .error why => .panic why
    | .ok lists =>
      match startClients spawn args.numClis with
      | .error err => .err err
      | .ok () =>
        match fuzzTest args.numOps (poolOf args.numClis lists) rounds stop with
        | .running => .running
        | .panic why => .panic why
        | .err err => .err err
        | .ok result =>
          .printed (unlines [outcomeLine colors (verdict result), remarkLine result])

/-! ## The generated keys -/

theorem token_append {p : Char → Bool} {a b : List Char} (ha : Token p a)
    (hb : ∀ c ∈ b, p c = false) : Token p (a ++ b) := by
  refine ⟨by simp [ha.1], fun c hc => ?_⟩
  rcases List.mem_append.mp hc with hc | hc
  · exact ha.2 c hc
  · exact hb c hc

theorem isWhitespace_of_isDigit {c : Char} (h : c.isDigit = true) : isWhitespace c = false := by
  have hrange : 48 ≤ c.toNat ∧ c.toNat ≤ 57 := by
    simpa [Char.isDigit, UInt32.le_iff_toNat_le] using h
  simp only [isWhitespace, Bool.or_eq_false_iff, Bool.and_eq_false_iff, decide_eq_false_iff_not]
  omega

theorem zeroPad_digits (width i : ℕ) : ∀ c ∈ (zeroPad width i).toList, c.isDigit = true := by
  intro c hc
  rw [zeroPad, String.toList_append, String.toList_ofList, Nat.toString_eq_repr,
    Nat.toList_repr] at hc
  rcases List.mem_append.mp hc with hc | hc
  · rw [List.eq_of_mem_replicate hc]
    decide
  · exact Nat.isDigit_of_mem_toDigits (by decide) (by decide) hc

theorem genKey_ok (conflict : Bool) (draws : ℕ → ℕ) (i : ℕ) :
    ∃ key, genKey conflict draws i = .ok key ∧ Token isWhitespace key.toList := by
  unfold genKey
  cases conflict with
  | true =>
    refine ⟨_, rfl, ?_⟩
    rw [String.toList_append]
    exact token_append (by decide) fun c hc =>
      isWhitespace_of_isDigit (zeroPad_digits _ i c hc)
  | false =>
    obtain ⟨key, hkey⟩ : ∃ key, genRandString draws keyLen = .ok key := ⟨_, rfl⟩
    exact ⟨key, hkey, genRandString_word hkey⟩

theorem genKeys_ok (conflict : Bool) (draws : ℕ → ℕ → ℕ) (numKeys : ℕ) :
    ∃ keys, genKeys conflict draws numKeys = .ok keys ∧ keys.length = numKeys ∧
      ∀ key ∈ keys, Token isWhitespace key.toList := by
  induction numKeys with
  | zero => exact ⟨[], rfl, rfl, by simp⟩
  | succ i ih =>
    obtain ⟨keys, hkeys, hlen, hwords⟩ := ih
    obtain ⟨key, hkey, hword⟩ := genKey_ok conflict (draws i) i
    refine ⟨keys ++ [key], by simp [genKeys, hkeys, hkey, bind, Except.bind], by simp [hlen],
      fun k hk => ?_⟩
    rcases List.mem_append.mp hk with hk | hk
    · exact hwords k hk
    · exact List.mem_singleton.mp hk ▸ hword

theorem genPool_ok (conflict : Bool) (numKeys : ℕ) (draws : ℕ → ℕ → ℕ → ℕ) (numClis : ℕ) :
    ∃ lists, genPool conflict numKeys draws numClis = .ok lists ∧ lists.length = numClis ∧
      ∀ keys ∈ lists, keys.length = numKeys ∧ ∀ key ∈ keys, Token isWhitespace key.toList := by
  induction numClis with
  | zero => exact ⟨[], rfl, rfl, by simp⟩
  | succ c ih =>
    obtain ⟨lists, hlists, hlen, hall⟩ := ih
    obtain ⟨keys, hkeys, hkeep⟩ := genKeys_ok conflict (draws c) numKeys
    refine ⟨lists ++ [keys], by simp [genPool, hlists, hkeys, bind, Except.bind], by simp [hlen],
      fun ks hks => ?_⟩
    rcases List.mem_append.mp hks with hks | hks
    · exact hall ks hks
    · exact List.mem_singleton.mp hks ▸ hkeep

/-- What `main` generates is usable. -/
theorem poolOf_usable {conflict : Bool} {numKeys numClis : ℕ} {draws : ℕ → ℕ → ℕ → ℕ}
    {lists : List (List String)} (hkeys : numKeys ≠ 0)
    (h : genPool conflict numKeys draws numClis = .ok lists) : (poolOf numClis lists).Usable := by
  obtain ⟨lists', hlists, hlen, hall⟩ := genPool_ok conflict numKeys draws numClis
  obtain rfl : lists' = lists := Except.ok.inj (hlists.symm.trans h)
  have hmem : ∀ c : Fin numClis, poolOf numClis lists' c ∈ lists' := by
    intro c
    have hlt : c.val < lists'.length := hlen ▸ c.isLt
    rw [poolOf, List.getD_eq_getElem?_getD, List.getElem?_eq_getElem hlt, Option.getD_some]
    exact List.getElem_mem hlt
  refine ⟨fun c hnil => ?_, fun c => (hall _ (hmem c)).2⟩
  have hlength := (hall _ (hmem c)).1
  rw [hnil] at hlength
  exact hkeys hlength.symm

end MadKV.Fuzzer
