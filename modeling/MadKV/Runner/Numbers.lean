import Mathlib.Tactic

/-!
# Machine integers

How the runner's arithmetic on `usize` can end, and how a `usize` is read from
text. `usize` has 64 bits.
-/

namespace MadKV.Runner

/-- Why a thread panics. -/
inductive Panic
  | assertion (text : String)
  | outOfBounds
  | divisionByZero
  | overflow
deriving DecidableEq, Repr

/-- The profiles the runner is built with: a `release` build wraps around where a
`dev` build panics. -/
inductive Build
  | dev
  | release
deriving DecidableEq, Repr

def usizeMax : ℕ := 2 ^ 64 - 1

def usizeSub (build : Build) (a b : ℕ) : Except Panic ℕ :=
  if b ≤ a then .ok (a - b)
  else
    match build with
    | .dev => .error .overflow
    | .release => .ok (a + (usizeMax + 1) - b)

/-- The digits of `parse::<usize>`, behind those that make up `value`. -/
def parseDigits : ℕ → List Char → Except String ℕ
  | value, [] => .ok value
  | value, c :: cs =>
    if '0' ≤ c ∧ c ≤ '9' then
      let value := value * 10 + (c.toNat - '0'.toNat)
      if usizeMax < value then .error "number too large to fit in target type"
      else parseDigits value cs
    else .error "invalid digit found in string"

/-- `parse::<usize>`. -/
def parseUsize (text : String) : Except String ℕ :=
  match text.toList with
  | [] => .error "cannot parse integer from empty string"
  | ['+'] => .error "invalid digit found in string"
  | '+' :: digits => parseDigits 0 digits
  | digits => parseDigits 0 digits

theorem usizeSub_of_le (build : Build) {a b : ℕ} (h : b ≤ a) : usizeSub build a b = .ok (a - b) :=
  if_pos h

example : parseUsize "+042" = .ok 42 := by decide

end MadKV.Runner
