import MadKV.Runner.KvOps
import MadKV.Runner.Numbers
import Mathlib.Data.String.Basic

/-!
# Randomization helpers of the fuzzer

Each helper is given the numbers it draws, so that what holds for all of them
holds for every outcome of the random choices. Assertions are those of a debug
build; a helper that violates one panics.
-/

namespace MadKV.Fuzzer

open Runner

def valueLen : ℕ := 16

/-- Generate a random index in the range [0, max). -/
def genRandIndex (draw max : ℕ) : Except Panic ℕ :=
  if max = 0 then .error (.assertion "max != 0") else .ok (draw % max)

/-- The letters `Alphanumeric` samples from. -/
def alphanumeric : List Char :=
  "ABCDEFGHIJKLMNOPQRSTUVWXYZabcdefghijklmnopqrstuvwxyz0123456789".toList

/-- Generate a random alphanumeric string. -/
def genRandString (draws : ℕ → ℕ) (len : ℕ) : Except Panic String :=
  if len = 0 then .error (.assertion "len != 0")
  else .ok (String.ofList ((List.range len).map fun i =>
    alphanumeric.getD (draws i % alphanumeric.length) 'A'))

variable {n : ℕ}

/-- Generate a random decision on call vs. wait resp. -/
def genCallVsWait (coin : Bool) (opsCalled numOps : ℕ) (flying : Fin n → Bool) : Bool :=
  if opsCalled = numOps ∨ ∀ c, flying c = true then false
  else if ∀ c, flying c = false then true
  else coin

/-- The loop of `gen_rand_client`, or `none` while it has not hit a fitting client. -/
def retryClient (flying : Fin n → Bool) (wantFlying : Bool) :
    List ℕ → Option (Except Panic (Fin n))
  | [] => none
  | draw :: draws =>
    match genRandIndex draw n with
    | .error p => some (.error p)
    | .ok cidx =>
      if h : cidx < n then
        if flying ⟨cidx, h⟩ = wantFlying then some (.ok ⟨cidx, h⟩)
        else retryClient flying wantFlying draws
      else some (.error .outOfBounds)

/-- Generate a random client index, retry until one with expected on-the-fly
status is found. -/
def genRandClient (draws : List ℕ) (flying : Fin n → Bool) (wantFlying : Bool) :
    Option (Except Panic (Fin n)) :=
  if wantFlying = false ∧ ∀ c, flying c = true then
    some (.error (.assertion "want_flying || !flying.all()"))
  else if wantFlying = true ∧ ∀ c, flying c = false then
    some (.error (.assertion "!want_flying || !flying.none()"))
  else retryClient flying wantFlying draws

/-- What `gen_rand_kvcall` draws. -/
structure CallDraws where
  variant : ℕ
  kidx : ℕ
  keidx : ℕ
  letters : ℕ → ℕ

/-- A key at a random index. -/
def genRandKey (keys : List String) (draw : ℕ) : Except Panic String := do
  let kidx ← genRandIndex draw keys.length
  match keys[kidx]? with
  | some key => .ok key
  | none => .error .outOfBounds

/-- Generate a random `KvCall` operation. -/
def genRandKvcall (keys : List String) (draws : CallDraws) : Except Panic KvCall := do
  let variant ← genRandIndex draws.variant 10
  if variant ≤ 1 then
    let key ← genRandKey keys draws.kidx
    let value ← genRandString draws.letters valueLen
    .ok (.put key value)
  else if variant ≤ 3 then
    let key ← genRandKey keys draws.kidx
    let value ← genRandString draws.letters valueLen
    .ok (.swap key value)
  else if variant ≤ 6 then
    let key ← genRandKey keys draws.kidx
    .ok (.get key)
  else if variant ≤ 8 then
    let keyStart ← genRandKey keys draws.kidx
    let keyEnd ← genRandKey keys draws.keidx
    if keyEnd < keyStart then .ok (.scan keyEnd keyStart) else .ok (.scan keyStart keyEnd)
  else
    let key ← genRandKey keys draws.kidx
    .ok (.delete key)

/-! ## What the helpers return -/

theorem genRandKey_ok {keys : List String} (h : keys ≠ []) (draw : ℕ) :
    ∃ key ∈ keys, genRandKey keys draw = .ok key := by
  have hlen : keys.length ≠ 0 := by simpa using h
  have hlt : draw % keys.length < keys.length := Nat.mod_lt _ (Nat.pos_of_ne_zero hlen)
  refine ⟨keys[draw % keys.length], List.getElem_mem hlt, ?_⟩
  simp [genRandKey, genRandIndex, hlen, hlt, bind, Except.bind]

/-- A call over the given keys, with a range that is not reversed. -/
def CallFrom (keys : List String) : KvCall → Prop
  | .put key _ => key ∈ keys
  | .swap key _ => key ∈ keys
  | .get key => key ∈ keys
  | .scan keyStart keyEnd => keyStart ∈ keys ∧ keyEnd ∈ keys ∧ keyStart ≤ keyEnd
  | .delete key => key ∈ keys
  | .stop => False

theorem CallFrom.update_mem {keys : List String} {call : KvCall} (h : CallFrom keys call)
    {key : String} {value : Option String} (hu : call.updateInfo = some (key, value)) :
    key ∈ keys := by
  cases call <;> cases hu <;> exact h

/-- From a non-empty list of keys a call is always generated. -/
theorem genRandKvcall_ok {keys : List String} (h : keys ≠ []) (draws : CallDraws) :
    ∃ call, genRandKvcall keys draws = .ok call ∧ CallFrom keys call := by
  obtain ⟨key, hkey, hk⟩ := genRandKey_ok h draws.kidx
  obtain ⟨key', hkey', hk'⟩ := genRandKey_ok h draws.keidx
  have hstring : ∃ value, genRandString draws.letters valueLen = .ok value := ⟨_, rfl⟩
  obtain ⟨value, hv⟩ := hstring
  unfold genRandKvcall
  simp only [genRandIndex, hk, hk', hv, bind, Except.bind, ↓reduceIte, OfNat.ofNat_ne_zero]
  split_ifs with hput hswap hget hscan hlt
  · exact ⟨_, rfl, hkey⟩
  · exact ⟨_, rfl, hkey⟩
  · exact ⟨_, rfl, hkey⟩
  · exact ⟨_, rfl, hkey', hkey, hlt.le⟩
  · exact ⟨_, rfl, hkey, hkey', not_lt.mp hlt⟩
  · exact ⟨_, rfl, hkey⟩

theorem genRandString_letters {draws : ℕ → ℕ} {len : ℕ} {s : String}
    (h : genRandString draws len = .ok s) :
    s.toList.length = len ∧ ∀ c ∈ s.toList, c ∈ alphanumeric := by
  unfold genRandString at h
  split_ifs at h with hlen
  cases h
  refine ⟨by simp, fun c hc => ?_⟩
  simp only [String.toList_ofList, List.mem_map] at hc
  obtain ⟨i, _, rfl⟩ := hc
  have hlt : draws i % alphanumeric.length < alphanumeric.length := Nat.mod_lt _ (by decide)
  rw [List.getD_eq_getElem?_getD, List.getElem?_eq_getElem hlt, Option.getD_some]
  exact List.getElem_mem hlt

/-- The value of a generated update is a random string. -/
theorem genRandKvcall_value {keys : List String} {draws : CallDraws} {call : KvCall}
    (h : genRandKvcall keys draws = .ok call) {key value : String}
    (hu : call.updateInfo = some (key, some value)) :
    genRandString draws.letters valueLen = .ok value := by
  have hvariant : genRandIndex draws.variant 10 = .ok (draws.variant % 10) := rfl
  obtain ⟨v, hv⟩ : ∃ v, genRandString draws.letters valueLen = .ok v := ⟨_, rfl⟩
  unfold genRandKvcall at h
  simp only [hvariant, hv, bind, Except.bind] at h
  rw [hv]
  cases hk : genRandKey keys draws.kidx with
  | error why =>
    simp only [hk] at h
    split_ifs at h
  | ok k =>
    simp only [hk] at h
    split_ifs at h
    · cases h; cases hu; rfl
    · cases h; cases hu; rfl
    · cases h; cases hu
    · cases hk' : genRandKey keys draws.keidx with
      | error why => simp [hk'] at h
      | ok k' =>
        simp only [hk'] at h
        split_ifs at h
        · cases h; cases hu
        · cases h; cases hu
    · cases h; cases hu

theorem retryClient_cases {flying : Fin n → Bool} {wantFlying : Bool} (hn : n ≠ 0)
    (draws : List ℕ) : retryClient flying wantFlying draws = none ∨
      ∃ c, flying c = wantFlying ∧ retryClient flying wantFlying draws = some (.ok c) := by
  induction draws with
  | nil => exact .inl rfl
  | cons draw draws ih =>
    have hlt : draw % n < n := Nat.mod_lt _ (Nat.pos_of_ne_zero hn)
    unfold retryClient
    simp only [genRandIndex, hn, ↓reduceIte, hlt, ↓reduceDIte]
    split_ifs with hc
    · exact .inr ⟨_, hc, rfl⟩
    · exact ih

/-- Asked for a status that some client has, `gen_rand_client` violates no
assertion and can only return such a client. -/
theorem genRandClient_cases {flying : Fin n → Bool} {wantFlying : Bool}
    (h : ∃ c, flying c = wantFlying) (draws : List ℕ) :
    genRandClient draws flying wantFlying = none ∨
      ∃ c, flying c = wantFlying ∧ genRandClient draws flying wantFlying = some (.ok c) := by
  obtain ⟨c, hc⟩ := h
  have hall : ¬ (wantFlying = false ∧ ∀ c, flying c = true) := by
    rintro ⟨rfl, hall⟩
    simp [hall c] at hc
  have hnone : ¬ (wantFlying = true ∧ ∀ c, flying c = false) := by
    rintro ⟨rfl, hnone⟩
    simp [hnone c] at hc
  unfold genRandClient
  rw [if_neg hall, if_neg hnone]
  exact retryClient_cases (Nat.ne_zero_of_lt c.isLt) draws

/-- A call is only made while some are left and some client is idle. -/
theorem genCallVsWait_call {coin : Bool} {opsCalled numOps : ℕ} {flying : Fin n → Bool}
    (h : genCallVsWait coin opsCalled numOps flying = true) :
    opsCalled ≠ numOps ∧ ∃ c, flying c = false := by
  unfold genCallVsWait at h
  split_ifs at h with hwait hcall
  all_goals
    obtain ⟨hleft, hidle⟩ := not_or.mp hwait
    exact ⟨hleft, by simpa using hidle⟩

/-- A response is only awaited when a client is flying or no call is left. -/
theorem genCallVsWait_wait {coin : Bool} {opsCalled numOps : ℕ} {flying : Fin n → Bool}
    (h : genCallVsWait coin opsCalled numOps flying = false) (hn : n ≠ 0) :
    opsCalled = numOps ∨ ∃ c, flying c = true := by
  unfold genCallVsWait at h
  split_ifs at h with hwait hcall
  · rcases hwait with hdone | hall
    · exact .inl hdone
    · exact .inr ⟨⟨0, Nat.pos_of_ne_zero hn⟩, hall _⟩
  · exact .inr (by simpa using hcall)

end MadKV.Fuzzer
