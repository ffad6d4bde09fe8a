import MadKV.Bencher.Translation
import MadKV.Fuzzer.Random
import MadKV.RefCli.Main
import MadKV.Support.Utf8

/-!
# Reversed ranges

The fuzzer swaps the ends of a range that would be reversed. The bencher falls
back to the last inserted key, or to a sentinel, wherever the scan starts: its
range is reversed exactly when the start lies beyond that key.
-/

namespace MadKV.Bencher

open Runner Support

/-- In byte order, the end lies before the start. -/
def Reversed (keyStart keyEnd : String) : Prop := bytes keyEnd < bytes keyStart

theorem reversed_iff {keyStart keyEnd : String} : Reversed keyStart keyEnd ↔ keyEnd < keyStart :=
  lt_iff_bytes_lt.symm

/-- The reference client panics on a reversed range, as documented. -/
theorem handleKvCall_reversed {keyStart keyEnd : String} (h : Reversed keyStart keyEnd)
    (map : SortedMap String String) :
    RefCli.handleKvCall (.scan keyStart keyEnd) ⟨map, true⟩ = none := by
  have hrange := map.range?_eq_none_iff.mpr (reversed_iff.mp h)
  simp [RefCli.handleKvCall, RefCli.State.range?, hrange]

theorem genRandKvcall_not_reversed {keys : List String} {draws : Fuzzer.CallDraws}
    {keyStart keyEnd : String} (hkeys : keys ≠ [])
    (h : Fuzzer.genRandKvcall keys draws = .ok (.scan keyStart keyEnd)) :
    ¬ Reversed keyStart keyEnd := by
  obtain ⟨call, hcall, hfrom⟩ := Fuzzer.genRandKvcall_ok hkeys draws
  rw [h] at hcall
  cases hcall
  rw [reversed_iff, not_lt]
  exact hfrom.2.2

/-- The line asks for a scan from `keyStart` on. -/
def ScanFrom (line : List Char) (keyStart : String) : Prop :=
  ∃ segs rest, splitWhitespace line = "SCAN" :: segs ∧ parseYcsbKey segs = .ok (keyStart, rest)

theorem scan_of_interpret {build : Build} {line : List Char} {ikeys ikeys' : InsertedKeys}
    {keyStart keyEnd op : String}
    (h : interpretYcsbCall build line ikeys = .ok (some (.scan keyStart keyEnd, op), ikeys')) :
    ScanFrom line keyStart ∧ ∃ segs, scanEnd build ikeys keyStart segs = .ok keyEnd := by
  have htranslates := interpretYcsbCall_translates build line ikeys
  rw [h] at htranslates
  generalize hwords : splitWhitespace line = segs at htranslates
  cases htranslates with
  | @scan table record _ rest hend =>
    exact ⟨⟨table :: record :: rest, rest, hwords, rfl⟩, rest, hend⟩

/-- A key from the start on lies between the start and the farthest key. -/
theorem not_reversed_of_mem {ikeys : InsertedKeys} {keyStart key : String}
    (h : key ∈ ikeys.keysFrom keyStart) :
    ¬ Reversed keyStart key ∧ ¬ Reversed keyStart ikeys.farthest := by
  obtain ⟨hmem, hle⟩ := List.mem_filter.mp h
  have hstart : keyStart ≤ key := by simpa using hle
  obtain ⟨last, hlast⟩ := Option.isSome_iff_exists.mp
    (List.getLast?_isSome.mpr (List.ne_nil_of_mem hmem))
  have hfar : key ≤ ikeys.farthest := by
    rw [InsertedKeys.farthest, hlast, Option.getD_some]
    exact InsertedKeys.le_last hlast hmem
  rw [reversed_iff, reversed_iff, not_lt, not_lt]
  exact ⟨hstart, hstart.trans hfar⟩

theorem ScanFrom.unique {line : List Char} {keyStart keyStart' : String}
    (h : ScanFrom line keyStart) (h' : ScanFrom line keyStart') : keyStart = keyStart' := by
  obtain ⟨segs, rest, hline, hkey⟩ := h
  obtain ⟨segs', rest', hline', hkey'⟩ := h'
  obtain rfl : segs = segs' := List.cons.inj (hline.symm.trans hline') |>.2
  rw [hkey] at hkey'
  cases hkey'
  rfl

/-- What a scan is made from: the pool and the draws of the fuzzer, or a line that
the bencher translates. -/
inductive Generator
  | fuzzer (keys : List String) (draws : Fuzzer.CallDraws)
  | bencher (build : Build) (line : List Char) (ikeys : InsertedKeys)

namespace Generator

/-- The scans that are asked for. -/
def Emits : Generator → String → String → Prop
  | fuzzer keys draws, keyStart, keyEnd =>
    keys ≠ [] ∧ Fuzzer.genRandKvcall keys draws = .ok (.scan keyStart keyEnd)
  | bencher build line ikeys, keyStart, keyEnd => ∃ op ikeys',
    interpretYcsbCall build line ikeys = .ok (some (.scan keyStart keyEnd, op), ikeys')

/-- A line's scan does not start beyond the farthest key; of the fuzzer, nothing is asked. -/
def InReach : Generator → Prop
  | fuzzer _ _ => True
  | bencher _ line ikeys =>
    ∀ keyStart, ScanFrom line keyStart → ¬ Reversed keyStart ikeys.farthest

end Generator

/-- The fuzzer never asks for a reversed range; the bencher does exactly when the
start of the scan lies beyond the farthest key. -/
theorem ranges_not_reversed_iff {generator : Generator} {keyStart keyEnd : String}
    (h : generator.Emits keyStart keyEnd) :
    ¬ Reversed keyStart keyEnd ↔ generator.InReach := by
  cases generator with
  | fuzzer keys draws => exact iff_of_true (genRandKvcall_not_reversed h.1 h.2) trivial
  | bencher build line ikeys =>
    obtain ⟨op, ikeys', hcall⟩ := h
    obtain ⟨hfrom, segs, hend⟩ := scan_of_interpret hcall
    have hreach : (Generator.bencher build line ikeys).InReach ↔
        ¬ Reversed keyStart ikeys.farthest :=
      ⟨fun hall => hall keyStart hfrom, fun hfar start hstart => hfrom.unique hstart ▸ hfar⟩
    rw [hreach]
    rcases scanEnd_ok hend with hmem | rfl
    · obtain ⟨hkey, hfar⟩ := not_reversed_of_mem hmem
      exact iff_of_true hkey hfar
    · exact Iff.rfl

theorem ranges_not_reversed_iff_two : ¬ Reversed "t_b" "t_c" := by
  have hscan : interpretYcsbCall .release "SCAN t b 2\n".toList threeKeys =
      .ok (some (.scan "t_b" "t_c", "SCAN"), threeKeys) := rfl
  have hfrom : ScanFrom "SCAN t b 2\n".toList "t_b" :=
    ⟨["t", "b", "2"], ["2"], by decide, rfl⟩
  have hreach : (Generator.bencher .release "SCAN t b 2\n".toList threeKeys).InReach := by
    intro keyStart hstart
    rw [← hfrom.unique hstart, reversed_iff]
    decide
  have hemits : (Generator.bencher .release "SCAN t b 2\n".toList threeKeys).Emits "t_b" "t_c" :=
    ⟨_, _, hscan⟩
  exact (ranges_not_reversed_iff hemits).mpr hreach

/-- The only inserted key lies before the start of the scan, and the reference client
panics on the range. -/
theorem ycsb_scan_reversed :
    (¬ ∀ (build : Build) (line : List Char) (ikeys ikeys' : InsertedKeys)
      (keyStart keyEnd op : String) (scnt : ℕ), ScanLine line keyStart scnt → 0 < scnt →
        interpretYcsbCall build line ikeys = .ok (some (.scan keyStart keyEnd, op), ikeys') →
          ¬ Reversed keyStart keyEnd) ∧
    (∀ build, (interpretYcsbCall build "SCAN t b 1\n".toList
        (SortedMap.empty.insert "t_a" ())).map Prod.fst =
      .ok (some (.scan "t_b" "t_a", "SCAN"))) ∧
    ∀ map, RefCli.handleKvCall (.scan "t_b" "t_a") ⟨map, true⟩ = none := by
  have hcall : ∀ build, interpretYcsbCall build "SCAN t b 1\n".toList
      (SortedMap.empty.insert "t_a" ()) =
      .ok (some (.scan "t_b" "t_a", "SCAN"), SortedMap.empty.insert "t_a" ()) := by
    intro build
    cases build <;> rfl
  have hline : ScanLine "SCAN t b 1\n".toList "t_b" 1 :=
    ⟨["t", "b", "1"], ["1"], [], by decide, rfl, rfl⟩
  have hreversed : Reversed "t_b" "t_a" := reversed_iff.mpr (by decide)
  refine ⟨fun hclaim => ?_, fun build => ?_, handleKvCall_reversed hreversed⟩
  · exact hclaim .release _ _ _ _ _ _ _ hline (by decide) (hcall .release) hreversed
  · rw [hcall]
    rfl

end MadKV.Bencher
