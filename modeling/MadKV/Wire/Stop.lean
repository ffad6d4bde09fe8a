import MadKV.Wire.Channels

/-!
# Stopping a client

`stop` sends one more call and takes one more response, and that is the answer to it
only if no other response is left in the channel.
-/

namespace MadKV.Wire

open Runner Store Support Spec

variable {ι : Type*} [DecidableEq ι]

/-- Send stop to the client process (and kill it just to be sure). What `send_call`,
`wait_resp` and `kill` return is given. -/
def ClientProc.stop (sendCall : Except RunnerError Unit) (waitResp : Except RunnerError KvResp)
    (kill : Except RunnerError Unit) : Except RunnerError Unit := do
  sendCall
  let resp ← waitResp
  if resp ≠ .stop then .error (.io "unexpected response, expecting STOP")
  else kill

theorem reread_apply_eq_stop {m : KvMap} {call : KvCall} :
    reread (apply m call).1 = .stop ↔ call = .stop := by
  cases call <;> simp [apply, reread]

section Session

variable {s s' : Session ι}

/-- A process that has executed Stop has exited. -/
def Halted (p : ClientProc) : Prop :=
  KvCall.stop ∈ p.calls.take p.before.length → p.running = false

theorem Step.halted (h : Step s s') (hs : s.Inv) (hhalted : ∀ j, Halted (s.procs j)) :
    ∀ j, Halted (s'.procs j) := by
  cases h with
  | @write i call =>
    refine Session.forall_update hhalted fun hstop => hhalted i ?_
    simpa [ClientProc.write, List.take_append_of_le_length (hs.procs i).executed] using hstop
  | @execute i line rest hrunning hline =>
    obtain ⟨call, hget, hwf, rfl, -⟩ := (hs.procs i).next_call hline
    obtain ⟨-, -, hflow, -⟩ := Client.runLine_call (splitBySpace_callLine hwf) s.store
    refine Session.forall_update (s := { s with store := _ }) hhalted fun hstop => ?_
    have hbefore : KvCall.stop ∉ (s.procs i).calls.take (s.procs i).before.length := fun hmem => by
      simp [hhalted i hmem] at hrunning
    have hcall : call = .stop := by
      rw [ClientProc.execute, List.length_append, List.length_singleton,
        List.take_add_one, hget] at hstop
      simpa [hbefore, eq_comm] using hstop
    subst hcall
    simp [ClientProc.execute, hflow]
  | @read i fuel result =>
    obtain ⟨outcome, rest⟩ := result
    cases outcome with
    | ok resp => exact Session.forall_update hhalted (hhalted i)
    | error err => exact Session.forall_update hhalted (hhalted i)
  | @exit i => exact Session.forall_update hhalted fun _ => rfl
  | @hangUp i => exact Session.forall_update hhalted (hhalted i)
  | request => exact hhalted

theorem Reachable.halted (h : Reachable s) : ∀ j, Halted (s.procs j) := by
  induction h with
  | new => exact fun _ hstop => absurd hstop (by simp [ClientProc.new])
  | step hs hstep ih => exact hstep.halted hs.inv ih

end Session

namespace Owned

variable {s t : Owned ι} {i j : ι} {calls : List KvCall}

/-! ## The response to Stop -/

theorem concat_eq_stop_iff {call : KvCall} {k : ℕ} (hcalls : KvCall.stop ∉ calls)
    (h : (calls ++ [.stop])[k]? = some call) : call = .stop ↔ k = calls.length := by
  have hlt := (List.getElem?_eq_some_iff.mp h).1
  rw [List.length_append, List.length_singleton] at hlt
  constructor
  · rintro rfl
    by_contra hk
    rw [List.getElem?_append_left (by omega)] at h
    exact hcalls (List.mem_of_getElem? h)
  · rintro rfl
    simpa [eq_comm] using h

/-- A client that was sent Stop as its last call gives Stop as its last response. -/
theorem Reachable.hears_stop_iff (h : Reachable s) (hsent : s.sent i = calls ++ [.stop])
    (hcalls : .stop ∉ calls) (hun : ∀ resp ∈ (s.session.procs i).answers, Unterminated resp)
    {resp : KvResp} (hresp : s.Hears i resp) :
    resp = .stop ↔ (s.heard i).length = calls.length := by
  obtain ⟨call, m, hcall, rfl, -⟩ := h.answer_to hun hresp
  rw [hsent] at hcall
  rw [reread_apply_eq_stop, concat_eq_stop_iff hcalls hcall]

/-- By then the process has executed all its calls and has exited. -/
theorem Reachable.stopped (h : Reachable s) (hsent : s.sent i = calls ++ [.stop])
    (hcalls : .stop ∉ calls) (hun : ∀ resp ∈ (s.session.procs i).answers, Unterminated resp)
    (hresp : s.Hears i .stop) :
    (s.session.procs i).calls = calls ++ [.stop] ∧
      (s.session.procs i).before.length = calls.length + 1 ∧
      (s.session.procs i).running = false := by
  have hheard := (h.hears_stop_iff hsent hcalls hun hresp).mp rfl
  obtain ⟨-, -, -, -, hlt⟩ := h.answer_to hun hresp
  rw [hheard] at hlt
  have hwritten := h.written i
  have hexecuted := (h.session.inv.procs i).executed
  rw [hsent] at hwritten
  have hle := hwritten.length_le
  rw [List.length_append, List.length_singleton] at hle
  have hall : (s.session.procs i).calls = calls ++ [.stop] :=
    hwritten.eq_of_length (by rw [List.length_append, List.length_singleton]; omega)
  refine ⟨hall, by omega, h.session.halted i ?_⟩
  rw [hall, List.take_of_length_le (by rw [List.length_append, List.length_singleton]; omega)]
  simp

/-! ## Stop gets its response -/

theorem wellFormed_stop : WellFormed isWhitespace .stop :=
  List.forall_mem_singleton.mpr (by decide)

/-- Only a Scan can list its terminator. -/
theorem Reachable.unterminated (h : Reachable s)
    (hscan : ∀ keyStart keyEnd, .scan keyStart keyEnd ∉ s.sent i) :
    ∀ resp ∈ (s.session.procs i).answers, Unterminated resp := by
  intro resp hresp
  obtain ⟨k, hk⟩ := List.mem_iff_getElem?.mp hresp
  obtain ⟨call, m, hcall, rfl⟩ := ClientProc.answers_getElem? hk
  have hat := getElem?_of_prefix (h.written i) hcall
  have hsent := List.mem_of_getElem? hat
  cases call with
  | scan keyStart keyEnd => exact absurd hsent (hscan keyStart keyEnd)
  | _ => trivial

variable {u : Owned ι} {is : List ι} {kill result : Except RunnerError Unit}
  {kills : ι → Except RunnerError Unit}

/-! ## Stopping one client -/

/-- What can become of `client.stop()`, while the others take steps. -/
inductive Stops (i : ι) (kill : Except RunnerError Unit) (s : Owned ι) :
    Except RunnerError Unit → Owned ι → Prop
  -- the driver has left its loop
  | unsent {why : String} {waitResp : Except RunnerError KvResp} :
      Stops i kill s (ClientProc.stop (.error (.chan why)) waitResp kill) s
  -- no response comes in time
  | unheard {t : Owned ι} {why : String} : Steps (s.send i .stop) t →
      Stops i kill s (ClientProc.stop (.ok ()) (.error (.chan why)) kill) t
  | heard {t : Owned ι} {resp : KvResp} : Steps (s.send i .stop) t → t.Hears i resp →
      Stops i kill s (ClientProc.stop (.ok ()) (.ok resp) kill) (t.hear i resp)

/-- A client that has answered its calls has nothing more to answer but Stop. -/
theorem Answered.unterminated_of_steps (h : s.Answered i) (hstop : .stop ∉ s.sent i)
    (hs : Reachable s) (hsteps : Steps (s.send i .stop) t) :
    ∀ resp ∈ (t.session.procs i).answers, Unterminated resp := by
  have hsent := hs.send (i := i) wellFormed_stop
  have hgrown : (s.session.procs i).answers <+: (t.session.procs i).answers :=
    hsteps.answers hsent i
  obtain ⟨more, hmore⟩ := hgrown
  intro resp hresp
  obtain ⟨k, hk⟩ := List.mem_iff_getElem?.mp hresp
  rcases Nat.lt_or_ge k (s.session.procs i).answers.length with hlt | hge
  · rw [← hmore, List.getElem?_append_left hlt] at hk
    exact h.unterminated resp (List.mem_of_getElem? hk)
  · obtain ⟨call, m, hcall, rfl⟩ := ClientProc.answers_getElem? hk
    have hin := getElem?_of_prefix ((hsent.steps hsteps).written i) hcall
    rw [hsteps.channels.1, sent_send] at hin
    have hlt := (List.getElem?_eq_some_iff.mp hin).1
    rw [List.length_append, List.length_singleton] at hlt
    rw [(h.executed hs).2.2] at hge
    rw [(concat_eq_stop_iff hstop hin).mpr (by omega)]
    trivial

theorem Stops.reachable (h : Stops i kill s result t) (hs : Reachable s) : Reachable t := by
  cases h with
  | unsent => exact hs
  | unheard hsteps => exact (hs.send wellFormed_stop).steps hsteps
  | heard hsteps hresp => exact ((hs.send wellFormed_stop).steps hsteps).hear hresp

/-- The other clients are left as they are. -/
theorem Stops.frame (h : Stops i kill s result t) (hs : Reachable s) (hj : j ≠ i)
    (hall : s.Answered j) : t.Answered j ∧ t.sent j = s.sent j := by
  have hsent : (s.send i .stop).sent j = s.sent j := by simp [Owned.send, hj]
  have hreach := hs.send (i := i) wellFormed_stop
  cases h with
  | unsent => exact ⟨hall, rfl⟩
  | unheard hsteps =>
    exact ⟨(hall.send hj _).steps hreach hsteps, by rw [hsteps.channels.1, hsent]⟩
  | heard hsteps hresp =>
    refine ⟨((hall.send hj _).steps hreach hsteps).hear hj _, ?_⟩
    rw [← hsent, ← hsteps.channels.1]
    rfl

/-- A client that has answered its calls is never heard to say anything but Stop. -/
theorem Stops.outcome (h : Stops i kill s result t) (hs : Reachable s) (hall : s.Answered i)
    (hstop : .stop ∉ s.sent i) :
    (∃ why, result = .error (.chan why)) ∨
      result = kill ∧ t.Answered i ∧ t.sent i = s.sent i ++ [.stop] := by
  cases h with
  | @unsent why => exact .inl ⟨why, rfl⟩
  | @unheard t why => exact .inl ⟨why, rfl⟩
  | @heard t resp hsteps hresp =>
    have ht := (hs.send (i := i) wellFormed_stop).steps hsteps
    have hsent : t.sent i = s.sent i ++ [.stop] := by rw [hsteps.channels.1, sent_send]
    have hheard : (t.heard i).length = (s.sent i).length := by
      rw [hsteps.channels.2]
      exact hall.heard
    have hun := hall.unterminated_of_steps hstop hs hsteps
    obtain rfl := (ht.hears_stop_iff hsent hstop hun hresp).mpr hheard
    exact .inr ⟨rfl, ⟨by simp [Owned.hear, hsent, hheard], hun⟩, hsent⟩

/-! ## Stopping one after the other -/

/-- What can become of `for client in clients { client.stop()? }`. -/
inductive StopsAll (kills : ι → Except RunnerError Unit) :
    List ι → Owned ι → Except RunnerError Unit → Owned ι → Prop
  | done {s : Owned ι} : StopsAll kills [] s (.ok ()) s
  | next {i : ι} {is : List ι} {s t u : Owned ι} {result : Except RunnerError Unit} :
      Stops i (kills i) s (.ok ()) t → StopsAll kills is t result u →
      StopsAll kills (i :: is) s result u
  | failed {i : ι} {is : List ι} {s t : Owned ι} {err : RunnerError} :
      Stops i (kills i) s (.error err) t → StopsAll kills (i :: is) s (.error err) t

theorem StopsAll.frame (h : StopsAll kills is s result u) (hs : Reachable s) (hj : j ∉ is)
    (hall : s.Answered j) : u.Answered j ∧ u.sent j = s.sent j := by
  induction h with
  | done => exact ⟨hall, rfl⟩
  | next hstops _ ih =>
    obtain ⟨hne, hrest⟩ := not_or.mp (List.mem_cons.not.mp hj)
    obtain ⟨hkept, hsent⟩ := hstops.frame hs hne hall
    obtain ⟨hkept', hsent'⟩ := ih (hstops.reachable hs) hrest hkept
    exact ⟨hkept', hsent'.trans hsent⟩
  | failed hstops => exact hstops.frame hs (not_or.mp (List.mem_cons.not.mp hj)).1 hall

theorem StopsAll.reachable (h : StopsAll kills is s result u) (hs : Reachable s) :
    Reachable u := by
  induction h with
  | done => exact hs
  | next hstops _ ih => exact ih (hstops.reachable hs)
  | failed hstops => exact hstops.reachable hs

/-- The loop ends early only where a channel or `kill` fails. Otherwise each client has
answered all its calls and Stop. -/
theorem StopsAll.outcome (h : StopsAll kills is s result u) (hs : Reachable s) (hnodup : is.Nodup)
    (hall : ∀ i ∈ is, s.Answered i) (hstop : ∀ i ∈ is, .stop ∉ s.sent i) :
    (∃ why, result = .error (.chan why)) ∨ (∃ i ∈ is, ∃ err, kills i = .error err ∧
      result = .error err) ∨
    result = .ok () ∧ ∀ i ∈ is, u.Answered i ∧ u.sent i = s.sent i ++ [.stop] := by
  induction h with
  | done => exact .inr (.inr ⟨rfl, by simp⟩)
  | @next i is s t u result hstops hrest ih =>
    obtain ⟨hi, hnodup⟩ := List.nodup_cons.mp hnodup
    have hone := hstops.outcome hs (hall i (by simp)) (hstop i (by simp))
    rcases hone with ⟨why, herr⟩ | ⟨-, hanswered, hsent⟩
    · cases herr
    have hkept : ∀ j ∈ is, t.Answered j ∧ t.sent j = s.sent j := fun j hj =>
      hstops.frame hs (fun heq => hi (heq ▸ hj)) (hall j (by simp [hj]))
    have ht := hstops.reachable hs
    rcases ih ht hnodup (fun j hj => (hkept j hj).1) (fun j hj => by
      rw [(hkept j hj).2]
      exact hstop j (by simp [hj])) with hchan | ⟨j, hj, hkill⟩ | ⟨hok, hstopped⟩
    · exact .inl hchan
    · exact .inr (.inl ⟨j, by simp [hj], hkill⟩)
    · refine .inr (.inr ⟨hok, List.forall_mem_cons.mpr ⟨?_, fun j hj => ?_⟩⟩)
      · obtain ⟨hanswered', hsent'⟩ := hrest.frame ht hi hanswered
        exact ⟨hanswered', hsent'.trans hsent⟩
      · obtain ⟨hanswered', hsent'⟩ := hstopped j hj
        exact ⟨hanswered', by rw [hsent', (hkept j hj).2]⟩
  | @failed i is s t err hstops =>
    rcases hstops.outcome hs (hall i (by simp)) (hstop i (by simp)) with hchan | ⟨hkill, -⟩
    · exact .inl hchan
    · exact .inr (.inl ⟨i, by simp, err, hkill.symm, rfl⟩)

end Owned

end MadKV.Wire
