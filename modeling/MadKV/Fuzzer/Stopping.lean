import MadKV.Fuzzer.EndToEnd
import MadKV.Wire.Stop

/-!
# Stopping the clients

When all responses are harvested `fuzz_test` stops its clients one after the other. No
response is left in the channels by then, so each is answered with Stop, if at all.
-/

namespace MadKV.Fuzzer.System

open Runner Store Support Spec Wire

variable {n numOps : ℕ} {keys : Pool n} {s s' : System n} {rounds : List Round}

/-! ## The fuzz test owns its clients -/

theorem Step.wire (h : Step s s') (hs : s.Inv numOps keys) (hkeys : keys.Usable) :
    Wire.Step s.session s'.session ∧ s'.fuzz = s.fuzz := by
  cases h with
  | @write c x hdriving hwaiting hnext =>
    have hmem : x.2 ∈ s.callsTo c := List.mem_map_of_mem (List.mem_of_getElem? hnext)
    exact ⟨.write hdriving hwaiting ((hs.orders hkeys c).wellFormed _ hmem), rfl⟩
  | execute hrunning hline => exact ⟨.execute hrunning hline, rfl⟩
  | read hdriving hwaiting hread => exact ⟨.read hdriving hwaiting hread, rfl⟩
  | exit => exact ⟨.exit, rfl⟩
  | hangUp => exact ⟨.hangUp, rfl⟩

end MadKV.Fuzzer.System
