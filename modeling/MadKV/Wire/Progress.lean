import MadKV.Wire.InOrder
import Mathlib.Logic.Relation

/-!
# Calls get their responses

A driver writes the next of the calls it was sent, the process executes it, and the
driver reads the answer. While neither gives up, every call can be brought to its
response this way.
-/

namespace MadKV.Wire

open Runner Store Support Spec

variable {ι : Type*} [DecidableEq ι] {s s' : Session ι} {i : ι} {sent : List KvCall}

/-! ## Drivers keep pace -/

/-- The driver has a response for every call it wrote, but for the last one while it
waits. -/
def Paced (p : ClientProc) : Prop :=
  p.driving = true → p.responses.length + p.waiting.toNat = p.calls.length

theorem Step.paced (h : Step s s') (hs : ∀ j, Paced (s.procs j)) : ∀ j, Paced (s'.procs j) := by
  cases h with
  | @write i call hdriving hwaiting =>
    refine Session.forall_update hs fun _ => ?_
    simpa [ClientProc.write, hwaiting] using hs i hdriving
  | @execute i => exact Session.forall_update hs (hs i)
  | @read i fuel result hdriving hwaiting =>
    obtain ⟨outcome, rest⟩ := result
    cases outcome with
    | ok resp =>
      refine Session.forall_update hs fun _ => ?_
      simpa [ClientProc.read, hwaiting] using hs i hdriving
    | error err => exact Session.forall_update hs fun hd => absurd hd Bool.false_ne_true
  | @exit i => exact Session.forall_update hs (hs i)
  | @hangUp i => exact Session.forall_update hs fun hd => absurd hd Bool.false_ne_true
  | request => exact hs

theorem Reachable.paced (h : Reachable s) : ∀ j, Paced (s.procs j) := by
  induction h with
  | new => exact fun _ _ => rfl
  | step _ hstep ih => exact hstep.paced ih

/-! ## Working on a call -/

/-- A step of the driver or of the process of a client that was sent some calls. -/
inductive Work (sent : List KvCall) (i : ι) : Session ι → Session ι → Prop
  | write {s : Session ι} {call : KvCall} : (s.procs i).driving = true →
      (s.procs i).waiting = false → sent[(s.procs i).calls.length]? = some call →
      Work sent i s (s.update i ((s.procs i).write call))
  | execute {s : Session ι} {line : String} {rest : List String} :
      (s.procs i).running = true → (s.procs i).stdin = line :: rest →
      Work sent i s
        { s.update i ((s.procs i).execute rest s.store.contents
            (Client.runLine serverStub line s.store)) with
          store := (Client.runLine serverStub line s.store).world }
  | read {s : Session ι} {fuel : ℕ} {result : Except RunnerError KvResp × List UInt8} :
      (s.procs i).driving = true → (s.procs i).waiting = true →
      KvResp.fromRead fuel (s.procs i).stdout = some result →
      Work sent i s (s.update i ((s.procs i).read result))

theorem Work.step (h : Work sent i s s') (hsent : ∀ call ∈ sent, WellFormed isWhitespace call) :
    Step s s' := by
  cases h with
  | write hdriving hwaiting hnext =>
    exact .write hdriving hwaiting (hsent _ (List.mem_of_getElem? hnext))
  | execute hrunning hline => exact .execute hrunning hline
  | read hdriving hwaiting hread => exact .read hdriving hwaiting hread

/-- The other clients are not concerned. -/
theorem Work.frame (h : Work sent i s s') {j : ι} (hj : j ≠ i) : s'.procs j = s.procs j := by
  cases h <;> simp [Session.update, hj]

theorem works_frame (h : Relation.ReflTransGen (Work sent i) s s') {j : ι} (hj : j ≠ i) :
    s'.procs j = s.procs j := by
  induction h with
  | refl => rfl
  | tail _ hstep ih => rw [hstep.frame hj, ih]

/-- Calls that a client can be sent, Stop at most as the last of them. -/
structure Orders (sent : List KvCall) : Prop where
  wellFormed : ∀ call ∈ sent, WellFormed isWhitespace call
  plain : ∀ call ∈ sent, PlainCall call
  stop_last : ∀ k, sent[k]? = some .stop → k + 1 = sent.length

/-- The client works on the calls it was sent: neither the driver nor the process has
given up, and what the process prints can be read back. -/
structure Diligent (sent : List KvCall) (i : ι) (s : Session ι) : Prop where
  reachable : Reachable s
  written : (s.procs i).calls <+: sent
  driving : (s.procs i).driving = true
  running : (s.procs i).running = true ∨
    .stop ∈ sent ∧ (s.procs i).before.length = sent.length
  plain : Plain s.store.contents
  unterminated : ∀ resp ∈ (s.procs i).answers, Unterminated resp

namespace ClientProc

variable {p : ClientProc}

theorem Inv.length_answers (h : p.Inv) : p.answers.length = p.before.length := by
  rw [answers, List.length_map, operations, List.length_zip]
  exact min_eq_right h.executed

/-- What is still to be done for the calls. -/
def ahead (sent : List KvCall) (p : ClientProc) : ℕ :=
  3 * sent.length - p.calls.length - p.before.length - p.responses.length

end ClientProc

namespace Diligent

theorem lengths (h : Diligent sent i s) :
    (s.procs i).responses.length ≤ (s.procs i).answers.length ∧
      (s.procs i).answers.length = (s.procs i).before.length ∧
      (s.procs i).before.length ≤ (s.procs i).calls.length ∧
      (s.procs i).calls.length ≤ sent.length := by
  have hproc := h.reachable.inv.procs i
  obtain ⟨passed, unread, hanswers, hresps, -⟩ := h.reachable.inOrder i h.unterminated
  exact ⟨by simp [hanswers, hresps], hproc.length_answers, hproc.executed, h.written.length_le⟩

/-- The next call is written. -/
theorem write (h : Diligent sent i s) (hsent : Orders sent) (hwaiting : (s.procs i).waiting = false)
    (hlt : (s.procs i).calls.length < sent.length) :
    ∃ s', Work sent i s s' ∧ Diligent sent i s' ∧
      (s'.procs i).ahead sent < (s.procs i).ahead sent := by
  obtain ⟨hpassed, hlength, hexecuted, -⟩ := h.lengths
  have hnext := List.getElem?_eq_getElem hlt
  have hstep : Work sent i s _ := .write h.driving hwaiting hnext
  refine ⟨_, hstep, ⟨h.reachable.step (hstep.step hsent.wellFormed), ?_, ?_, ?_, h.plain, ?_⟩, ?_⟩
  · rw [Session.update_self]
    exact concat_prefix h.written hnext
  · rw [Session.update_self]
    exact h.driving
  · rw [Session.update_self]
    exact h.running
  · rw [Session.update_self, ClientProc.answers, ClientProc.operations_write hexecuted]
    exact h.unterminated
  · simp only [ClientProc.ahead, Session.update_self, ClientProc.write, List.length_append,
      List.length_singleton]
    omega

/-- The process executes the next call it was written. -/
theorem execute (h : Diligent sent i s) (hsent : Orders sent)
    (hlt : (s.procs i).before.length < (s.procs i).calls.length) :
    ∃ s', Work sent i s s' ∧ Diligent sent i s' ∧
      (s'.procs i).ahead sent < (s.procs i).ahead sent := by
  obtain ⟨hpassed, hlength, -, hwritten⟩ := h.lengths
  have hproc := h.reachable.inv.procs i
  have hget := List.getElem?_eq_getElem hlt
  have hline : (s.procs i).stdin = callLine (s.procs i).calls[(s.procs i).before.length] ::
      ((s.procs i).calls.drop ((s.procs i).before.length + 1)).map callLine := by
    rw [hproc.stdin_eq, List.drop_eq_getElem_cons hlt, List.map_cons]
  have hin := getElem?_of_prefix h.written hget
  have hmem := List.mem_of_getElem? hin
  obtain ⟨-, -, hflow, hworld⟩ :=
    Client.runLine_call (splitBySpace_callLine (hsent.wellFormed _ hmem)) s.store
  have hrunning : (s.procs i).running = true := by
    rcases h.running with hrunning | ⟨-, hall⟩
    · exact hrunning
    · omega
  have hstep : Work sent i s _ := .execute hrunning hline
  refine ⟨_, hstep, ⟨h.reachable.step (hstep.step hsent.wellFormed), ?_, ?_, ?_, ?_, ?_⟩, ?_⟩
  · simpa [Session.update, ClientProc.execute] using h.written
  · simpa [Session.update, ClientProc.execute] using h.driving
  · -- the process exits after Stop only, which is the last call
    by_cases hstop : (s.procs i).calls[(s.procs i).before.length] = .stop
    · rw [hstop] at hin
      have hlast := hsent.stop_last _ hin
      exact .inr ⟨List.mem_of_getElem? hin, by simpa [Session.update, ClientProc.execute]⟩
    · exact .inl (by simp [Session.update, ClientProc.execute, hflow, hstop])
  · change Plain (Client.runLine serverStub _ s.store).world.contents
    rw [hworld]
    exact h.plain.apply (hsent.plain _ hmem)
  · simp only [Session.update, Function.update_self, ClientProc.answers,
      ClientProc.operations_execute hget, List.map_append, List.map_singleton]
    intro resp hresp
    rcases List.mem_append.mp hresp with hresp | hresp
    · exact h.unterminated resp hresp
    · exact List.mem_singleton.mp hresp ▸ (h.plain.answer _).2
  · simp only [ClientProc.ahead, Session.update, Function.update_self, ClientProc.execute,
      List.length_append, List.length_singleton]
    omega

/-- The driver reads the next answer. -/
theorem read (h : Diligent sent i s) (hsent : Orders sent) (hwaiting : (s.procs i).waiting = true)
    (hlt : (s.procs i).responses.length < (s.procs i).answers.length) :
    ∃ s', Work sent i s s' ∧ Diligent sent i s' ∧
      (s'.procs i).ahead sent < (s.procs i).ahead sent := by
  obtain ⟨-, hlength, hexecuted, hwritten⟩ := h.lengths
  obtain ⟨fuel, rest, hread⟩ := ((h.reachable.inOrder i).next_iff (h.reachable.inv.procs i)
    h.unterminated h.driving _).mpr ⟨_, List.getElem?_eq_getElem hlt, rfl⟩
  have hstep : Work sent i s _ := .read h.driving hwaiting hread
  refine ⟨_, hstep, ⟨h.reachable.step (hstep.step hsent.wellFormed), ?_, ?_, ?_, h.plain, ?_⟩, ?_⟩
  · simpa [ClientProc.read] using h.written
  · simpa [ClientProc.read] using h.driving
  · simpa [ClientProc.read] using h.running
  · rw [Session.update_self]
    exact h.unterminated
  · simp only [ClientProc.ahead, Session.update_self, ClientProc.read, List.length_append,
      List.length_singleton]
    omega

/-- A client that lacks a response to a call it was sent can do its next step. -/
theorem advance (h : Diligent sent i s) (hsent : Orders sent)
    (hlacks : (s.procs i).responses.length < sent.length) :
    ∃ s', Work sent i s s' ∧ Diligent sent i s' ∧
      (s'.procs i).ahead sent < (s.procs i).ahead sent := by
  have hlengths := h.lengths
  have hpaced := h.reachable.paced i h.driving
  cases hwaiting : (s.procs i).waiting with
  | false =>
    rw [hwaiting, Bool.toNat_false] at hpaced
    exact h.write hsent hwaiting (by omega)
  | true =>
    rw [hwaiting, Bool.toNat_true] at hpaced
    rcases Nat.lt_or_ge (s.procs i).before.length (s.procs i).calls.length with hlt | hge
    · exact h.execute hsent hlt
    · exact h.read hsent hwaiting (by omega)

/-- The driver and the process can bring the calls to their responses. -/
theorem answer (h : Diligent sent i s) (hsent : Orders sent) :
    ∃ s', Relation.ReflTransGen (Work sent i) s s' ∧ Diligent sent i s' ∧
      sent.length ≤ (s'.procs i).responses.length := by
  induction hwork : (s.procs i).ahead sent using Nat.strong_induction_on generalizing s with
  | _ work ih =>
    rcases Nat.lt_or_ge (s.procs i).responses.length sent.length with hlacks | hdone
    · obtain ⟨s', hstep, hdiligent, hlt⟩ := h.advance hsent hlacks
      obtain ⟨s'', hsteps, hdiligent', hle⟩ := ih _ (hwork ▸ hlt) hdiligent rfl
      exact ⟨s'', .head hstep hsteps, hdiligent', hle⟩
    · exact ⟨s, .refl, h, hdone⟩

end Diligent

end MadKV.Wire
