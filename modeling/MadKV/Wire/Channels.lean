import MadKV.Wire.Progress

/-!
# Channels

A client process belongs to a thread of the runner, which puts calls into one channel
and takes responses out of another. Both are first in first out, so each response that
is heard answers the call in its place.
-/

namespace MadKV.Wire

open Runner Store Support Spec

variable {ι : Type*} [DecidableEq ι]

/-- The clients with what went through their channels: the calls they were sent, and the
responses that were heard from them. -/
structure Owned (ι : Type*) where
  session : Session ι
  sent : ι → List KvCall
  heard : ι → List KvResp

namespace Owned

variable {s t : Owned ι} {i j : ι}

def new : Owned ι := ⟨⟨.empty, fun _ => .new⟩, fun _ => [], fun _ => []⟩

/-- `send_call`. -/
def send (s : Owned ι) (i : ι) (call : KvCall) : Owned ι :=
  { s with sent := Function.update s.sent i (s.sent i ++ [call]) }

@[simp] theorem sent_send (s : Owned ι) (i : ι) (call : KvCall) :
    (s.send i call).sent i = s.sent i ++ [call] := Function.update_self ..

/-- What `wait_resp` returns, if it returns a response. -/
def Hears (s : Owned ι) (i : ι) (resp : KvResp) : Prop :=
  (s.session.procs i).responses[(s.heard i).length]? = some resp

def hear (s : Owned ι) (i : ι) (resp : KvResp) : Owned ι :=
  { s with heard := Function.update s.heard i (s.heard i ++ [resp]) }

/-- A step of anyone but the owners. A driver takes the next call out of its channel. -/
inductive Step : Owned ι → Owned ι → Prop
  | mk {s : Owned ι} {session : Session ι} : Wire.Step s.session session →
      (∀ i, (session.procs i).calls <+: s.sent i) → Step s { s with session }

inductive Reachable : Owned ι → Prop
  | new : Reachable new
  | send {s : Owned ι} {i : ι} {call : KvCall} : Reachable s → WellFormed isWhitespace call →
      Reachable (s.send i call)
  | hear {s : Owned ι} {i : ι} {resp : KvResp} : Reachable s → s.Hears i resp →
      Reachable (s.hear i resp)
  | step {s t : Owned ι} : Reachable s → Step s t → Reachable t

/-- Steps of the others, while the owners wait. -/
abbrev Steps : Owned ι → Owned ι → Prop := Relation.ReflTransGen Step

end Owned

/-! ## What a process has answered -/

section Session

variable {s s' : Session ι}

theorem ClientProc.answers_getElem? {p : ClientProc} {k : ℕ} {resp : KvResp}
    (h : p.answers[k]? = some resp) :
    ∃ call m, p.calls[k]? = some call ∧ resp = (apply m call).1 := by
  rw [answers, List.getElem?_map] at h
  obtain ⟨⟨call, m⟩, hop, rfl⟩ := Option.map_eq_some_iff.mp h
  exact ⟨call, m, (List.getElem?_zip_eq_some.mp hop).1, rfl⟩

/-- What a process was answered and what its driver has passed on is never taken back. -/
theorem Step.grows (h : Step s s') (hs : s.Inv) (i : ι) :
    (s.procs i).answers <+: (s'.procs i).answers ∧
      (s.procs i).responses <+: (s'.procs i).responses := by
  have hupdate : ∀ {j : ι} {p : ClientProc}, (s.procs j).answers <+: p.answers →
      (s.procs j).responses <+: p.responses →
      (s.procs i).answers <+: ((s.update j p).procs i).answers ∧
        (s.procs i).responses <+: ((s.update j p).procs i).responses := by
    intro j p hanswers hresps
    by_cases hi : i = j
    · subst hi
      simpa using ⟨hanswers, hresps⟩
    · simp [Session.update, hi]
  cases h with
  | @write j call =>
    refine hupdate ?_ (List.prefix_refl _)
    rw [ClientProc.answers, ClientProc.answers,
      ClientProc.operations_write (hs.procs j).executed]
  | @execute j line rest _ hline =>
    obtain ⟨call, hget, -⟩ := (hs.procs j).next_call hline
    refine hupdate ?_ (List.prefix_refl _)
    rw [ClientProc.answers, ClientProc.answers, ClientProc.operations_execute hget, List.map_append]
    exact List.prefix_append _ _
  | @read j fuel result =>
    obtain ⟨outcome, rest⟩ := result
    cases outcome with
    | ok resp => exact hupdate (List.prefix_refl _) (List.prefix_append _ _)
    | error err => exact hupdate (List.prefix_refl _) (List.prefix_refl _)
  | exit => exact hupdate (List.prefix_refl _) (List.prefix_refl _)
  | hangUp => exact hupdate (List.prefix_refl _) (List.prefix_refl _)
  | request => exact ⟨List.prefix_refl _, List.prefix_refl _⟩

end Session

namespace Owned

variable {s t : Owned ι} {i j : ι}

/-! ## First in first out -/

theorem Reachable.session (h : Reachable s) : Wire.Reachable s.session := by
  induction h with
  | new => exact .new
  | send _ _ ih => exact ih
  | hear _ _ ih => exact ih
  | step _ hstep ih =>
    obtain ⟨hwire, -⟩ := hstep
    exact ih.step hwire

theorem Reachable.written (h : Reachable s) (i : ι) : (s.session.procs i).calls <+: s.sent i := by
  induction h with
  | new => exact List.prefix_refl _
  | @send s j call _ _ ih =>
    by_cases hi : i = j
    · subst hi
      simpa [Owned.send] using ih.trans (List.prefix_append _ _)
    · simpa [Owned.send, hi] using ih
  | hear _ _ ih => exact ih
  | step _ hstep _ =>
    obtain ⟨-, hwritten⟩ := hstep
    exact hwritten i

theorem Reachable.heard_prefix (h : Reachable s) (i : ι) :
    s.heard i <+: (s.session.procs i).responses := by
  induction h with
  | new => exact List.prefix_refl _
  | send _ _ ih => exact ih
  | @hear s j resp _ hresp ih =>
    by_cases hi : i = j
    · subst hi
      simpa [Owned.hear] using concat_prefix ih hresp
    · simpa [Owned.hear, hi] using ih
  | step hs hstep ih =>
    obtain ⟨hwire, -⟩ := hstep
    exact ih.trans (hwire.grows hs.session.inv i).2

/-- A response that is heard is the answer to the call in its place. -/
theorem Reachable.answer_to (h : Reachable s)
    (hun : ∀ resp ∈ (s.session.procs i).answers, Unterminated resp) {k : ℕ} {resp : KvResp}
    (hresp : (s.session.procs i).responses[k]? = some resp) :
    ∃ call m, (s.sent i)[k]? = some call ∧ resp = reread (apply m call).1 ∧
      k < (s.session.procs i).before.length := by
  obtain ⟨passed, unread, hanswers, hresps, -⟩ := h.session.inOrder i hun
  rw [hresps, List.getElem?_map] at hresp
  obtain ⟨answer, hpassed, rfl⟩ := Option.map_eq_some_iff.mp hresp
  have hanswer : (s.session.procs i).answers[k]? = some answer := by
    rw [hanswers]
    exact getElem?_of_prefix (List.prefix_append _ _) hpassed
  obtain ⟨call, m, hcall, rfl⟩ := ClientProc.answers_getElem? hanswer
  have hlt := (List.getElem?_eq_some_iff.mp hanswer).1
  rw [(h.session.inv.procs i).length_answers] at hlt
  exact ⟨call, m, getElem?_of_prefix (h.written i) hcall, rfl, hlt⟩

/-! ## Steps of the others -/

theorem Reachable.wellFormed (h : Reachable s) (i : ι) :
    ∀ call ∈ s.sent i, WellFormed isWhitespace call := by
  induction h with
  | new => exact fun _ hcall => absurd hcall List.not_mem_nil
  | @send s j call _ hwf ih =>
    by_cases hi : i = j
    · subst hi
      simpa [Owned.send, or_imp, forall_and] using ⟨ih, hwf⟩
    · simpa [Owned.send, hi] using ih
  | hear _ _ ih => exact ih
  | step _ hstep ih =>
    obtain ⟨-, -⟩ := hstep
    exact ih

theorem step_of_work {session : Session ι} (h : Work (s.sent i) i s.session session)
    (hwf : ∀ call ∈ s.sent i, WellFormed isWhitespace call)
    (hwritten : ∀ j, (s.session.procs j).calls <+: s.sent j) : Step s { s with session } := by
  refine .mk (h.step hwf) fun j => ?_
  by_cases hj : j = i
  · subst hj
    cases h with
    | write _ _ hnext =>
      rw [Session.update_self]
      exact concat_prefix (hwritten j) hnext
    | execute => simpa [Session.update, ClientProc.execute] using hwritten j
    | @read fuel result =>
      obtain ⟨outcome, rest⟩ := result
      cases outcome <;> simpa [ClientProc.read] using hwritten j
  · rw [h.frame hj]
    exact hwritten j

theorem Reachable.steps (h : Reachable s) (hsteps : Steps s t) : Reachable t := by
  induction hsteps with
  | refl => exact h
  | tail _ hstep ih => exact ih.step hstep

theorem Steps.channels (h : Steps s t) : t.sent = s.sent ∧ t.heard = s.heard := by
  induction h with
  | refl => exact ⟨rfl, rfl⟩
  | tail _ hstep ih =>
    obtain ⟨-, -⟩ := hstep
    exact ih

theorem Steps.answers (h : Steps s t) (hs : Reachable s) (i : ι) :
    (s.session.procs i).answers <+: (t.session.procs i).answers := by
  induction h with
  | refl => exact List.prefix_refl _
  | tail hsteps hstep ih =>
    obtain ⟨hwire, -⟩ := hstep
    exact ih.trans (hwire.grows (hs.steps hsteps).session.inv i).1

/-! ## Clients with nothing outstanding -/

/-- A client has answered all its calls, and its owner has heard the responses. -/
structure Answered (s : Owned ι) (i : ι) : Prop where
  heard : (s.heard i).length = (s.sent i).length
  unterminated : ∀ resp ∈ (s.session.procs i).answers, Unterminated resp

namespace Answered

theorem executed (h : s.Answered i) (hs : Reachable s) :
    (s.session.procs i).calls = s.sent i ∧
      (s.session.procs i).before.length = (s.sent i).length ∧
      (s.session.procs i).answers.length = (s.sent i).length := by
  have hheard := (hs.heard_prefix i).length_le
  have hwritten := hs.written i
  have hexecuted := (hs.session.inv.procs i).executed
  have hlength := (hs.session.inv.procs i).length_answers
  obtain ⟨passed, unread, hanswers, hresps, -⟩ := hs.session.inOrder i h.unterminated
  have hpassed : (s.session.procs i).responses.length ≤ (s.session.procs i).answers.length := by
    simp [hanswers, hresps]
  have hall := h.heard
  have hle := hwritten.length_le
  exact ⟨hwritten.eq_of_length (by omega), by omega, by omega⟩

/-- Such a client has nothing more to do. -/
theorem steps (h : s.Answered i) (hs : Reachable s) (hsteps : Steps s t) : t.Answered i := by
  obtain ⟨hsent, hheard⟩ := hsteps.channels
  refine ⟨by rw [hsent, hheard, h.heard], ?_⟩
  have ht := hs.steps hsteps
  have hle : (t.session.procs i).answers.length ≤ (s.session.procs i).answers.length := by
    have hexecuted := (ht.session.inv.procs i).executed
    have hwritten := (ht.written i).length_le
    rw [(ht.session.inv.procs i).length_answers, (h.executed hs).2.2]
    rw [hsent] at hwritten
    omega
  rw [← (hsteps.answers hs i).eq_of_length_le hle]
  exact h.unterminated

theorem send (h : s.Answered j) (hj : j ≠ i) (call : KvCall) : (s.send i call).Answered j :=
  ⟨by simpa [Owned.send, hj] using h.heard, h.unterminated⟩

theorem hear (h : s.Answered j) (hj : j ≠ i) (resp : KvResp) : (s.hear i resp).Answered j :=
  ⟨by simpa [Owned.hear, hj] using h.heard, h.unterminated⟩

end Answered

end Owned

end MadKV.Wire
