import MadKV.RefCli.Commands
import MadKV.Store.Dispatch

/-!
# The two command languages

The reference client takes the words it needs from the front of a line and asks
nothing of the others; the client counts the words of a line. Moreover they cut
a line into words by different notions of whitespace.
-/

namespace MadKV.RefCli

open Runner Support Spec Store

/-- The words of the reference client are those of the client, cut further. -/
theorem splitWhitespace_refine (line : String) :
    splitWhitespace line.toList =
      (Client.splitBySpace line).flatMap fun w => splitWhitespace w.toList := by
  simp only [splitWhitespace, Client.splitBySpace, List.flatMap_map, String.toList_ofList]
  rw [words_refine Client.isWhitespace_of_isspace, List.map_flatMap]

/-- Words without any whitespace are the same words to both. -/
theorem splitWhitespace_of_splitBySpace {line : String} {call : KvCall}
    (h : Client.splitBySpace line = callWords call) (hwf : WellFormed isWhitespace call) :
    splitWhitespace line.toList = callWords call := by
  have hwords : ∀ w ∈ callWords call, splitWhitespace w.toList = [w] := by
    intro w hw
    rw [splitWhitespace, words_token (hwf w hw)]
    simp
  rw [splitWhitespace_refine, h, List.flatMap_congr hwords, List.flatMap_singleton']

theorem wellFormed_of_prefix_words {line : List Char} {call : KvCall}
    (h : callWords call <+: splitWhitespace line) : WellFormed isWhitespace call :=
  fun _ hw => token_of_mem_splitWhitespace (h.subset hw)

theorem callWords_prefix_inj {call call' : KvCall} (h : callWords call <+: callWords call') :
    call = call' := by
  cases call <;> cases call' <;> simp_all [callWords, List.cons_prefix_cons]

/-- Which lines each client takes for which calls, and when they agree on a line:
when it is no call to either, or consists of the words of one call to both. -/
theorem parsers_agree_iff (line : String) :
    (∀ call, parseInputCall line.toList = .ok call ↔
      callWords call <+: splitWhitespace line.toList) ∧
    (∀ call, Client.Executes line call ↔ Client.splitBySpace line = callWords call) ∧
    (Client.splitBySpace line = [] ∨ Client.Rejects line ∨ ∃ call, Client.Executes line call) ∧
    ((∀ call, parseInputCall line.toList = .ok call ↔ Client.Executes line call) ↔
      (∀ call, ¬ callWords call <+: splitWhitespace line.toList ∧
        Client.splitBySpace line ≠ callWords call) ∨
      ∃ call, splitWhitespace line.toList = callWords call ∧
        Client.splitBySpace line = callWords call) := by
  refine ⟨fun call => parseInputCall_iff, fun call => Client.executes_iff, ?_, ?_⟩
  · by_cases hblank : Client.splitBySpace line = []
    · exact .inl hblank
    · by_cases hexec : ∃ call, Client.Executes line call
      · exact .inr (.inr hexec)
      · exact .inr (.inl ((Client.rejects_iff hblank).mpr (not_exists.mp hexec)))
  simp only [parseInputCall_iff, Client.executes_iff]
  constructor
  · intro hagree
    by_cases hexec : ∃ call, Client.splitBySpace line = callWords call
    · obtain ⟨call, hcall⟩ := hexec
      have hwf := wellFormed_of_prefix_words ((hagree call).mpr hcall)
      exact .inr ⟨call, splitWhitespace_of_splitBySpace hcall hwf, hcall⟩
    · have hnone := not_exists.mp hexec
      exact .inl fun call => ⟨fun hparse => hnone call ((hagree call).mp hparse), hnone call⟩
  · rintro (hnone | ⟨own, hparse, hexec⟩) call
    · exact iff_of_false (hnone call).1 (hnone call).2
    · rw [hparse, hexec]
      exact ⟨fun h => by rw [callWords_prefix_inj h], fun h => h ▸ List.prefix_rfl⟩

/-- A line with a word too many. -/
def getExtra : String := "GET k extra"

/-- The reference client reads `getExtra` as a Get, the client rejects it. -/
theorem parsers_disagree :
    ¬ ∀ line : String, Client.splitBySpace line ≠ [] → ∀ call,
      parseInputCall line.toList = .ok call ↔ Client.Executes line call := by
  intro hclaim
  have hsplit : Client.splitBySpace getExtra = ["GET", "k", "extra"] := by decide
  have hexec := (hclaim getExtra (by simp [hsplit]) (.get "k")).mp (by decide)
  rw [Client.executes_iff, hsplit] at hexec
  simp [callWords] at hexec

end MadKV.RefCli
