import MadKV.Wire.Presence

/-!
# Responses in order

As long as no Scan reported the entry that ends a block, a driver passes on the
answers of its process one for one and in their order: none is lost, repeated or
made up, whatever the other clients do.
-/

namespace MadKV.Wire

open Runner Support Spec Store

/-! ## What is read back as it was -/

/-- The value is not printed as if it were absent, nor the entry as the end of a block. -/
def PlainEntry (key value : String) : Prop := value ≠ "null" ∧ (key, value) ≠ terminator

def Plain (m : KvMap) : Prop := ∀ key value, m.lookup key = some value → PlainEntry key value

def PlainCall (call : KvCall) : Prop :=
  ∀ key value, call.updateInfo = some (key, some value) → PlainEntry key value

theorem Plain.apply {m : KvMap} {call : KvCall} (hm : Plain m) (hcall : PlainCall call) :
    Plain (apply m call).2 := by
  intro key value h
  rw [lookup_apply] at h
  cases hu : call.updateInfo with
  | none => exact hm key value (by simpa [hu] using h)
  | some update =>
    obtain ⟨k, v⟩ := update
    by_cases hk : key = k
    · subst hk
      have hv : v = some value := by simpa [hu] using h
      exact hcall key value (hv ▸ hu)
    · exact hm key value (by simpa [hu, hk] using h)

theorem Plain.answer {m : KvMap} (hm : Plain m) (call : KvCall) :
    reread (Spec.apply m call).1 = (Spec.apply m call).1 ∧
      Unterminated (Spec.apply m call).1 := by
  have hvalue : ∀ key, (m.lookup key).filter (· ≠ "null") = m.lookup key := by
    intro key
    cases hk : m.lookup key with
    | none => rfl
    | some value => simp [Option.filter, (hm key value hk).1]
  have hentries : ∀ lo hi, terminator ∉ between m lo hi := fun lo hi hmem =>
    (hm _ _ (mem_between.mp hmem).1).2 rfl
  cases call with
  | swap key value => exact ⟨congrArg _ (hvalue key), trivial⟩
  | get key => exact ⟨congrArg _ (hvalue key), trivial⟩
  | scan lo hi =>
    refine ⟨?_, hentries lo hi⟩
    have hall : (between m lo hi).takeWhile (· ≠ terminator) = between m lo hi := by
      rw [List.takeWhile_eq_self_iff]
      intro e he
      exact decide_eq_true fun heq => hentries lo hi (heq ▸ he)
    exact congrArg _ hall
  | _ => exact ⟨rfl, trivial⟩

theorem replay_plain {m : KvMap} {calls : List KvCall} (hm : Plain m)
    (hcalls : ∀ call ∈ calls, PlainCall call) :
    ∀ resp ∈ replay m calls, reread resp = resp ∧ Unterminated resp := by
  induction calls generalizing m with
  | nil => simp [replay]
  | cons call calls ih =>
    intro resp hresp
    rcases List.mem_cons.mp hresp with rfl | hresp
    · exact hm.answer call
    · exact ih (hm.apply (hcalls call (by simp))) (fun c hc => hcalls c (by simp [hc])) resp hresp

theorem contents_plain {m : KvMap} {calls : List KvCall} (hm : Plain m)
    (hcalls : ∀ call ∈ calls, PlainCall call) : Plain (contents m calls) := by
  induction calls generalizing m with
  | nil => exact hm
  | cons call calls ih =>
    exact ih (hm.apply (hcalls call (by simp))) fun c hc => hcalls c (by simp [hc])

/-! ## One client process -/

namespace ClientProc

/-- The responses are the first answers as read back, and the pipe holds the
blocks of the others. -/
def InOrder (p : ClientProc) : Prop :=
  (∀ resp ∈ p.answers, Unterminated resp) →
    ∃ passed unread, p.answers = passed ++ unread ∧ p.responses = passed.map reread ∧
      (p.driving = true →
        ∃ ts, p.stdout = bytes (unlines ts) ∧ Padded (unread.flatMap respLines) ts)

theorem inOrder_new : new.InOrder :=
  fun _ => ⟨[], [], rfl, rfl, fun _ => ⟨[], rfl, .nil⟩⟩

variable {p : ClientProc}

theorem InOrder.write (h : p.InOrder) (hp : p.Inv) (call : KvCall) : (p.write call).InOrder := by
  have hanswers : (p.write call).answers = p.answers := by
    rw [answers, operations_write hp.executed, answers]
  intro hun
  rw [hanswers] at hun ⊢
  exact h hun

theorem InOrder.execute (h : p.InOrder) (hp : p.Inv) {line : String} {rest : List String}
    (store : InMemoryKVStore) (hline : p.stdin = line :: rest) :
    (p.execute rest store.contents (Client.runLine serverStub line store)).InOrder := by
  obtain ⟨call, hget, hwf, rfl, rfl⟩ := hp.next_call hline
  obtain ⟨hout, _, _, _⟩ := Client.runLine_call (splitBySpace_callLine hwf) store
  intro hun
  rw [answers, operations_execute hget, List.map_append, ← answers] at hun ⊢
  obtain ⟨passed, unread, hanswers, hresps, hpipe⟩ := h fun resp hr =>
    hun resp (List.mem_append_left _ hr)
  refine ⟨passed, unread ++ [(apply store.contents call).1], ?_, hresps, fun hdriving => ?_⟩
  · rw [hanswers, List.append_assoc]
    rfl
  · obtain ⟨ts, hstdout, hpad⟩ := hpipe hdriving
    refine ⟨ts ++ respLines (apply store.contents call).1, ?_, ?_⟩
    · simp [ClientProc.execute, hstdout, hout, bytes, render, unlines_append]
    · rw [List.flatMap_append, List.flatMap_singleton]
      exact hpad.append (.refl _)

theorem InOrder.read (h : p.InOrder) (hp : p.Inv) (hdriving : p.driving = true) {fuel : ℕ}
    {result : Except RunnerError KvResp × List UInt8}
    (hread : KvResp.fromRead fuel p.stdout = some result) : (p.read result).InOrder := by
  intro hun
  have hsame : (p.read result).answers = p.answers := by
    obtain ⟨outcome, rest⟩ := result
    cases outcome <;> rfl
  rw [hsame] at hun ⊢
  obtain ⟨passed, unread, hanswers, hresps, hpipe⟩ := h hun
  obtain ⟨ts, hstdout, hpad⟩ := hpipe hdriving
  rw [hstdout] at hread
  cases unread with
  | nil =>
    rw [fromRead_blanks hpad] at hread
    cases hread
  | cons resp later =>
    have hmem : resp ∈ p.answers := by simp [hanswers]
    rw [List.flatMap_cons] at hpad
    obtain ⟨block, rest, rfl, hrest, _, enough, hread'⟩ :=
      fromRead_padded (hp.answers_wellFormed resp hmem) hpad
    obtain rfl := KvResp.fromRead_det (hread' enough le_rfl) hread
    refine ⟨passed ++ [resp], later, by simp [hanswers], by simp [ClientProc.read, hresps],
      fun _ => ⟨rest, rfl, ?_⟩⟩
    cases resp with
    | scan keyStart keyEnd entries =>
      rw [respLeftover, leftover_of_not_mem (hun _ hmem)] at hrest
      exact hrest
    | _ => exact hrest

/-- The next read gives the next answer, if the process has printed one, and otherwise
waits. -/
theorem InOrder.next_iff (h : p.InOrder) (hp : p.Inv)
    (hun : ∀ resp ∈ p.answers, Unterminated resp) (hdriving : p.driving = true)
    (outcome : Except RunnerError KvResp) :
    (∃ fuel rest, KvResp.fromRead fuel p.stdout = some (outcome, rest)) ↔
      ∃ resp, p.answers[p.responses.length]? = some resp ∧ outcome = .ok (reread resp) := by
  obtain ⟨passed, unread, hanswers, hresps, hpipe⟩ := h hun
  obtain ⟨ts, hstdout, hpad⟩ := hpipe hdriving
  have hnext : p.answers[p.responses.length]? = unread.head? := by
    rw [hanswers, hresps, List.length_map, List.getElem?_append_right le_rfl, Nat.sub_self,
      List.head?_eq_getElem?]
  rw [hnext, hstdout]
  cases unread with
  | nil =>
    have hwaits := fromRead_blanks hpad
    constructor
    · rintro ⟨fuel, rest, hread⟩
      rw [hwaits] at hread
      cases hread
    · rintro ⟨resp, hresp, _⟩
      cases hresp
  | cons first later =>
    rw [List.flatMap_cons] at hpad
    obtain ⟨block, rest, rfl, _, _, enough, hread⟩ :=
      fromRead_padded (hp.answers_wellFormed first (by simp [hanswers])) hpad
    constructor
    · rintro ⟨fuel, rest', hread'⟩
      have hsame := KvResp.fromRead_det (hread enough le_rfl) hread'
      exact ⟨first, rfl, (congrArg Prod.fst hsame).symm⟩
    · rintro ⟨resp, hresp, rfl⟩
      obtain rfl := Option.some.inj hresp
      exact ⟨enough, bytes (unlines rest), hread enough le_rfl⟩

end ClientProc

/-! ## Whole runs -/

section

variable {ι : Type*} [DecidableEq ι] {s s' : Session ι}

/-- What holds of the client that a step changes, and of the others, holds of all. -/
theorem Session.forall_update {P : ClientProc → Prop} (h : ∀ j, P (s.procs j)) {i : ι}
    {p : ClientProc} (hp : P p) (j : ι) : P ((s.update i p).procs j) := by
  by_cases hj : j = i
  · subst hj
    rwa [Session.update_self]
  · simpa [Session.update, hj] using h j

theorem Step.inOrder (h : Step s s') (hs : s.Inv) (hin : ∀ i, (s.procs i).InOrder) :
    ∀ i, (s'.procs i).InOrder := by
  cases h with
  | write => exact Session.forall_update hin ((hin _).write (hs.procs _) _)
  | execute _ hline => exact Session.forall_update hin ((hin _).execute (hs.procs _) s.store hline)
  | read hdriving _ hread =>
    exact Session.forall_update hin ((hin _).read (hs.procs _) hdriving hread)
  | @exit i => exact Session.forall_update hin (hin i)
  | @hangUp i =>
    refine Session.forall_update hin fun hun => ?_
    obtain ⟨passed, unread, hanswers, hresps, _⟩ := hin i hun
    exact ⟨passed, unread, hanswers, hresps, fun hd => absurd hd (by simp)⟩
  | request => exact hin

theorem Reachable.inOrder (h : Reachable s) : ∀ i, (s.procs i).InOrder := by
  induction h with
  | new => exact fun _ => ClientProc.inOrder_new
  | step hs hstep ih => exact hstep.inOrder hs.inv ih

/-- The responses are the first answers of the process, and a driver that still reads
gets the next answer as soon as the process has printed it, never an error. -/
theorem responses_in_order (h : Reachable s) (i : ι)
    (hun : ∀ resp ∈ (s.procs i).answers, Unterminated resp) :
    (s.procs i).responses <+: (s.procs i).answers.map reread ∧
    ((s.procs i).driving = true → ∀ outcome,
      (∃ fuel rest, KvResp.fromRead fuel (s.procs i).stdout = some (outcome, rest)) ↔
        ∃ resp, (s.procs i).answers[(s.procs i).responses.length]? = some resp ∧
          outcome = .ok (reread resp)) := by
  refine ⟨?_, fun hdriving => (h.inOrder i).next_iff (h.inv.procs i) hun hdriving⟩
  obtain ⟨passed, unread, hanswers, hresps, _⟩ := h.inOrder i hun
  rw [hanswers, hresps, List.map_append]
  exact List.prefix_append _ _

end

theorem responses_in_order_putGet :
    ∃ s : Session Unit, (s.procs ()).responses.length = 2 ∧
      (s.procs ()).responses <+: (s.procs ()).answers.map reread := by
  obtain ⟨s, h, hops, hresps⟩ := reachable_putGet (by decide : Token _ "k".toList)
    (by decide : Token _ "v".toList)
  refine ⟨s, by simp [hresps], (responses_in_order h () fun resp hresp => ?_).1⟩
  simp only [ClientProc.answers, hops, List.map_cons, List.map_nil, apply, List.mem_cons,
    List.not_mem_nil, or_false] at hresp
  rcases hresp with rfl | rfl <;> trivial

end MadKV.Wire
