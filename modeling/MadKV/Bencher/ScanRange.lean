import MadKV.Bencher.Ycsb
import MadKV.Spec.KeyValue

/-!
# The range of a translated scan

A scan of `n` keys becomes the range up to the key `n - 1` places on. The range
is inclusive at its end, so it holds `n` of the inserted keys, or all from its
start on when there are fewer. Only a length of zero has no such key.
-/

namespace MadKV.Bencher

open Runner Support

namespace InsertedKeys

variable (ikeys : InsertedKeys)

/-- The inserted keys that are not below `keyStart`. -/
def keysFrom (keyStart : String) : List String :=
  ikeys.keys.filter fun key => decide (keyStart ≤ key)

/-- The inserted keys of a range, its end included. -/
def inRange (keyStart keyEnd : String) : List String :=
  ikeys.keys.filter fun key => decide (keyStart ≤ key) && decide (key ≤ keyEnd)

theorem keys_sorted : ikeys.keys.Pairwise (· < ·) :=
  List.pairwise_map.mpr ikeys.sorted

theorem keysFrom_sorted (keyStart : String) : (ikeys.keysFrom keyStart).Pairwise (· < ·) :=
  ikeys.keys_sorted.sublist List.filter_sublist

theorem lowerBound_keys (keyStart : String) :
    (ikeys.lowerBound keyStart).map Prod.fst = ikeys.keysFrom keyStart := by
  rw [SortedMap.lowerBound_eq_filter, keysFrom, keys, List.filter_map]
  rfl

theorem inRange_eq (keyStart keyEnd : String) : ikeys.inRange keyStart keyEnd =
    (ikeys.keysFrom keyStart).filter fun key => decide (key ≤ keyEnd) := by
  rw [inRange, keysFrom, List.filter_filter]
  exact List.filter_congr fun key _ => Bool.and_comm _ _

theorem le_last {ikeys : InsertedKeys} {last key : String} (hlast : ikeys.keys.getLast? = some last)
    (hkey : key ∈ ikeys.keys) : key ≤ last := by
  obtain ⟨init, hinit⟩ := List.getLast?_eq_some_iff.mp hlast
  have hsorted := ikeys.keys_sorted
  rw [hinit] at hsorted hkey
  rcases List.mem_append.mp hkey with hkey | hkey
  · exact ((List.pairwise_append.mp hsorted).2.2 key hkey last (by simp)).le
  · exact (List.mem_singleton.mp hkey).le

/-- Up to the key at an index, or to the last key of all, there are as many keys as
one expects. -/
theorem inRange_nth {ikeys : InsertedKeys} {last : String}
    (hlast : ikeys.keys.getLast? = some last) (keyStart : String) (skip : ℕ) :
    ikeys.inRange keyStart ((ikeys.keysFrom keyStart)[skip]?.getD last) =
      (ikeys.keysFrom keyStart).take (skip + 1) := by
  rw [inRange_eq]
  cases hskip : (ikeys.keysFrom keyStart)[skip]? with
  | some keyEnd => exact filter_le_of_getElem? (ikeys.keysFrom_sorted keyStart) hskip
  | none =>
    have hlen : (ikeys.keysFrom keyStart).length ≤ skip := List.getElem?_eq_none_iff.mp hskip
    rw [List.take_of_length_le (by omega), Option.getD_none, List.filter_eq_self]
    intro key hkey
    simpa using le_last hlast (List.mem_of_mem_filter hkey)

end InsertedKeys

/-- The line asks for a scan of `scnt` keys from `keyStart` on. -/
def ScanLine (line : List Char) (keyStart : String) (scnt : ℕ) : Prop :=
  ∃ segs rest left, splitWhitespace line = "SCAN" :: segs ∧
    parseYcsbKey segs = .ok (keyStart, rest) ∧ parseYcsbScnt rest = .ok (scnt, left)

/-- The line is translated to a range that holds the first `scnt` inserted keys from
`keyStart` on, or all of them if they are fewer. -/
def Covers (build : Build) (line : List Char) (ikeys : InsertedKeys) (keyStart : String)
    (scnt : ℕ) : Prop :=
  ∃ keyEnd, interpretYcsbCall build line ikeys =
      .ok (some (.scan keyStart keyEnd, "SCAN"), ikeys) ∧
    ikeys.inRange keyStart keyEnd = (ikeys.keysFrom keyStart).take scnt ∧
    (ikeys.inRange keyStart keyEnd).length = min scnt (ikeys.keysFrom keyStart).length

theorem interpretYcsbCall_scan {line : List Char} {ikeys : InsertedKeys} {keyStart last : String}
    {scnt : ℕ} (hline : ScanLine line keyStart scnt) (hlast : ikeys.keys.getLast? = some last)
    (build : Build) : interpretYcsbCall build line ikeys =
      match usizeSub build scnt 1 with
      | .error why => .error (.panic why)
      | .ok skip => .ok (some (.scan keyStart ((ikeys.keysFrom keyStart)[skip]?.getD last),
          "SCAN"), ikeys) := by
  obtain ⟨segs, rest, left, hsegs, hkey, hscnt⟩ := hline
  unfold interpretYcsbCall scanEnd
  simp only [hsegs, hkey, hlast, hscnt, ikeys.lowerBound_keys, Except.mapError, bind, Except.bind]
  cases usizeSub build scnt 1 <;> simp

/-- A scan is translated as it should be exactly when its length is not zero; then
a `dev` build panics, where a `release` build wraps around. -/
theorem scan_covers_iff {line : List Char} {ikeys : InsertedKeys} {keyStart : String} {scnt : ℕ}
    (hne : ikeys.keys ≠ []) (hline : ScanLine line keyStart scnt) :
    (∀ build, Covers build line ikeys keyStart scnt) ↔ scnt ≠ 0 := by
  obtain ⟨last, hlast⟩ := Option.isSome_iff_exists.mp (List.getLast?_isSome.mpr hne)
  constructor
  · rintro hcovers rfl
    obtain ⟨keyEnd, hcall, -⟩ := hcovers .dev
    rw [interpretYcsbCall_scan hline hlast] at hcall
    simp [usizeSub] at hcall
  · intro hpos build
    have hsub := usizeSub_of_le build (Nat.one_le_iff_ne_zero.mpr hpos)
    have hrange := InsertedKeys.inRange_nth hlast keyStart (scnt - 1)
    rw [Nat.sub_add_cancel (Nat.one_le_iff_ne_zero.mpr hpos)] at hrange
    refine ⟨_, by rw [interpretYcsbCall_scan hline hlast, hsub], hrange, ?_⟩
    rw [hrange, List.length_take]

/-- Three inserted keys. -/
def threeKeys : InsertedKeys :=
  ((SortedMap.empty.insert "t_a" ()).insert "t_b" ()).insert "t_c" ()

theorem scanLine_two : ScanLine "SCAN t b 2 [ <all fields>]\n".toList "t_b" 2 :=
  ⟨["t", "b", "2", "[", "<all", "fields>]"], ["2", "[", "<all", "fields>]"],
    ["[", "<all", "fields>]"], by decide, rfl, rfl⟩

theorem scan_covers_iff_two :
    Covers .dev "SCAN t b 2 [ <all fields>]\n".toList threeKeys "t_b" 2 ∧
      Covers .release "SCAN t b 2 [ <all fields>]\n".toList threeKeys "t_b" 2 := by
  have hcovers := (scan_covers_iff (by decide : threeKeys.keys ≠ []) scanLine_two).mpr (by decide)
  exact ⟨hcovers .dev, hcovers .release⟩

/-- A scan of no keys panics in a `dev` build, and lists all keys from its start on
in a `release` build. -/
theorem scan_of_none_not_covered :
    (¬ ∀ (line : List Char) (ikeys : InsertedKeys) (keyStart : String) (scnt : ℕ),
      ikeys.keys ≠ [] → ScanLine line keyStart scnt →
        ∀ build, Covers build line ikeys keyStart scnt) ∧
    interpretYcsbCall .dev "SCAN t b 0\n".toList threeKeys = .error (.panic .overflow) ∧
    (interpretYcsbCall .release "SCAN t b 0\n".toList threeKeys).map Prod.fst =
      .ok (some (.scan "t_b" "t_c", "SCAN")) ∧
    threeKeys.inRange "t_b" "t_c" = ["t_b", "t_c"] := by
  have hline : ScanLine "SCAN t b 0\n".toList "t_b" 0 :=
    ⟨["t", "b", "0"], ["0"], [], by decide, rfl, rfl⟩
  have hlast : threeKeys.keys.getLast? = some "t_c" := by decide
  have hdev := interpretYcsbCall_scan hline hlast .dev
  refine ⟨fun hclaim => ?_, hdev, ?_, by decide⟩
  · obtain ⟨keyEnd, hcall, -⟩ := hclaim _ threeKeys _ _ (by decide) hline .dev
    rw [hdev] at hcall
    cases hcall
  · rw [interpretYcsbCall_scan hline hlast]
    rfl

end MadKV.Bencher
