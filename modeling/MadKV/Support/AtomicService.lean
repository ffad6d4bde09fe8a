import Mathlib.Logic.Function.Basic
import Mathlib.Tactic

/-!
# Services behind an asynchronous network

Clients send requests one at a time to a service that handles each of them
atomically; requests and replies travel unaltered, may overtake each other and
may get lost, but are never duplicated. The order in which the service handles
the requests then explains every reply and respects real time, whatever the
handler, the number of clients and the schedule.
-/

namespace MadKV.Support

variable {Client Req Rep State Spec : Type*}

/-- What a client is doing: at most one request is outstanding. -/
inductive Phase
  | idle
  | waiting (id : ℕ)
  | stopped
deriving DecidableEq

/-- The service, the clients and the messages in flight. -/
structure Config (Client Req Rep State : Type*) where
  state : State
  nextId : ℕ
  phase : Client → Phase
  requests : List (ℕ × Req)
  replies : List (ℕ × Rep)

def Config.initial (init : State) : Config Client Req Rep State :=
  ⟨init, 0, fun _ => .idle, [], []⟩

inductive Event (Client Req Rep : Type*)
  | send (c : Client) (id : ℕ) (req : Req)
  | exec (id : ℕ) (req : Req) (rep : Rep)
  | recv (c : Client) (id : ℕ) (rep : Rep)
  | lose (id : ℕ)
  | quit (c : Client)
deriving DecidableEq

/-- The messages of a list that belong to other requests. -/
def without {M : Type*} (messages : List (ℕ × M)) (id : ℕ) : List (ℕ × M) :=
  messages.filter fun m => !decide (m.1 = id)

theorem mem_without {M : Type*} {messages : List (ℕ × M)} {id : ℕ} {m : ℕ × M} :
    m ∈ without messages id ↔ m ∈ messages ∧ m.1 ≠ id := by
  simp [without]

namespace Config

variable (s : Config Client Req Rep State)

def exec (handler : State → Req → Rep × State) (id : ℕ) (req : Req) :
    Config Client Req Rep State :=
  { s with
    state := (handler s.state req).2
    requests := without s.requests id
    replies := (id, (handler s.state req).1) :: s.replies }

def lose (id : ℕ) : Config Client Req Rep State :=
  { s with
    requests := without s.requests id
    replies := without s.replies id }

variable [DecidableEq Client]

def send (c : Client) (req : Req) : Config Client Req Rep State :=
  { s with
    nextId := s.nextId + 1
    phase := Function.update s.phase c (.waiting s.nextId)
    requests := (s.nextId, req) :: s.requests }

def recv (c : Client) (id : ℕ) : Config Client Req Rep State :=
  { s with
    phase := Function.update s.phase c .idle
    replies := without s.replies id }

def quit (c : Client) : Config Client Req Rep State :=
  { s with phase := Function.update s.phase c .stopped }

end Config

section

variable [DecidableEq Client] (handler : State → Req → Rep × State)

inductive Step : Config Client Req Rep State → Event Client Req Rep →
    Config Client Req Rep State → Prop
  | send (s : Config Client Req Rep State) (c : Client) (req : Req) : s.phase c = .idle →
      Step s (.send c s.nextId req) (s.send c req)
  | exec (s : Config Client Req Rep State) (id : ℕ) (req : Req) : (id, req) ∈ s.requests →
      Step s (.exec id req (handler s.state req).1) (s.exec handler id req)
  | recv (s : Config Client Req Rep State) (c : Client) (id : ℕ) (rep : Rep) :
      s.phase c = .waiting id → (id, rep) ∈ s.replies → Step s (.recv c id rep) (s.recv c id)
  | lose (s : Config Client Req Rep State) (id : ℕ) : Step s (.lose id) (s.lose id)
  | quit (s : Config Client Req Rep State) (c : Client) : Step s (.quit c) (s.quit c)

/-- The runs from the initial configuration, with their traces. -/
inductive Run (init : State) : List (Event Client Req Rep) → Config Client Req Rep State → Prop
  | start : Run init [] (.initial init)
  | step {trace : List (Event Client Req Rep)} {s s' : Config Client Req Rep State}
      {e : Event Client Req Rep} : Run init trace s → Step handler s e s' →
      Run init (trace ++ [e]) s'

end

/-- Handle requests one after another. -/
def serve (handler : State → Req → Rep × State) (s : State) : List Req → List Rep × State
  | [] => ([], s)
  | req :: reqs =>
    ((handler s req).1 :: (serve handler (handler s req).2 reqs).1,
      (serve handler (handler s req).2 reqs).2)

theorem serve_append (handler : State → Req → Rep × State) (s : State) (reqs reqs' : List Req) :
    serve handler s (reqs ++ reqs') =
      ((serve handler s reqs).1 ++ (serve handler (serve handler s reqs).2 reqs').1,
        (serve handler (serve handler s reqs).2 reqs').2) := by
  induction reqs generalizing s with
  | nil => rfl
  | cons req reqs ih => simp [serve, ih]

/-- A handler that refines another gives the same replies. -/
theorem serve_refines {handler : State → Req → Rep × State} {spec : Spec → Req → Rep × Spec}
    {abs : State → Spec}
    (h : ∀ s req, spec (abs s) req = ((handler s req).1, abs (handler s req).2))
    (s : State) (reqs : List Req) :
    serve spec (abs s) reqs = ((serve handler s reqs).1, abs (serve handler s reqs).2) := by
  induction reqs generalizing s with
  | nil => rfl
  | cons req reqs ih => simp [serve, h, ih]

/-! ## The order of execution -/

/-- A handled request, as the service saw it. -/
structure Executed (Req Rep : Type*) where
  id : ℕ
  req : Req
  rep : Rep
deriving DecidableEq

def Event.executed? : Event Client Req Rep → Option (Executed Req Rep)
  | .exec id req rep => some ⟨id, req, rep⟩
  | _ => none

/-- The total order: the handled requests of a trace, in the order of handling. -/
def order (trace : List (Event Client Req Rep)) : List (Executed Req Rep) :=
  trace.filterMap Event.executed?

@[simp] theorem order_append (trace trace' : List (Event Client Req Rep)) :
    order (trace ++ trace') = order trace ++ order trace' := by
  simp [order]

/-- The request an event is about. -/
def Event.id? : Event Client Req Rep → Option ℕ
  | .send _ id _ => some id
  | .exec id _ _ => some id
  | .recv _ id _ => some id
  | _ => none

theorem mem_order {trace : List (Event Client Req Rep)} {x : Executed Req Rep} :
    x ∈ order trace ↔ .exec x.id x.req x.rep ∈ trace := by
  simp only [order, List.mem_filterMap]
  constructor
  · rintro ⟨e, he, hx⟩
    cases e <;> simp_all [Event.executed?]
    exact hx ▸ he
  · intro h
    exact ⟨_, h, rfl⟩

/-- What a run has recorded in its trace. -/
structure Recorded (handler : State → Req → Rep × State) (init : State)
    (trace : List (Event Client Req Rep)) (s : Config Client Req Rep State) : Prop where
  served : serve handler init ((order trace).map Executed.req) =
    ((order trace).map Executed.rep, s.state)
  ids_old : ∀ e ∈ trace, ∀ id, e.id? = some id → id < s.nextId
  sent_once : ∀ c id req c' req', .send c id req ∈ trace → .send c' id req' ∈ trace →
    c = c' ∧ req = req'
  requests_pending : ∀ m ∈ s.requests,
    (∃ c, .send c m.1 m.2 ∈ trace) ∧ ∀ x ∈ order trace, x.id ≠ m.1
  replies_executed : ∀ m ∈ s.replies, ∃ x ∈ order trace, x.id = m.1 ∧ x.rep = m.2
  waiting_sent : ∀ c id, s.phase c = .waiting id → ∃ req, .send c id req ∈ trace
  executed_sent : ∀ x ∈ order trace, ∃ c, .send c x.id x.req ∈ trace
  executed_once : ((order trace).map Executed.id).Nodup
  received : ∀ c id rep, .recv c id rep ∈ trace →
    ∃ x ∈ order trace, x.id = id ∧ x.rep = rep ∧ .send c id x.req ∈ trace

theorem Recorded.start (handler : State → Req → Rep × State) (init : State) :
    Recorded handler init ([] : List (Event Client Req Rep)) (.initial init) where
  served := rfl
  ids_old := by simp
  sent_once := by simp
  requests_pending := by simp [Config.initial]
  replies_executed := by simp [Config.initial]
  waiting_sent := by simp [Config.initial]
  executed_sent := by simp [order]
  executed_once := by simp [order]
  received := by simp

variable {handler : State → Req → Rep × State} {init : State}
  {trace : List (Event Client Req Rep)} {s : Config Client Req Rep State}

theorem Recorded.exec (h : Recorded handler init trace s) {id : ℕ} {req : Req}
    (hreq : (id, req) ∈ s.requests) :
    Recorded handler init (trace ++ [.exec id req (handler s.state req).1])
      (s.exec handler id req) := by
  have horder : order (trace ++ [.exec id req (handler s.state req).1]) =
      order trace ++ [⟨id, req, (handler s.state req).1⟩] := by
    simp [order, Event.executed?]
  obtain ⟨⟨c, hc⟩, hnew⟩ := h.requests_pending _ hreq
  refine ⟨?_, ?_, ?_, ?_, ?_, ?_, ?_, ?_, ?_⟩
  · simp [horder, serve_append, h.served, serve, Config.exec]
  · intro e he id' hid
    rcases List.mem_append.mp he with he | he
    · exact h.ids_old e he id' hid
    · rw [List.mem_singleton.mp he] at hid
      exact Option.some.inj hid ▸ h.ids_old _ hc _ rfl
  · intro c₁ id' req₁ c₂ req₂ h₁ h₂
    exact h.sent_once c₁ id' req₁ c₂ req₂ (by simpa using h₁) (by simpa using h₂)
  · intro m hm
    obtain ⟨hm, hne⟩ := mem_without.mp hm
    obtain ⟨⟨c', hc'⟩, hold⟩ := h.requests_pending m hm
    refine ⟨⟨c', by simp [hc']⟩, fun x hx => ?_⟩
    rcases List.mem_append.mp (horder ▸ hx) with hx | hx
    · exact hold x hx
    · rw [List.mem_singleton.mp hx]
      exact hne.symm
  · intro m hm
    rw [horder]
    rcases List.mem_cons.mp hm with rfl | hm
    · exact ⟨⟨id, req, (handler s.state req).1⟩, by simp, rfl, rfl⟩
    · obtain ⟨x, hx, hxm⟩ := h.replies_executed m hm
      exact ⟨x, by simp [hx], hxm⟩
  · intro c' id' hw
    obtain ⟨req', hm⟩ := h.waiting_sent c' id' hw
    exact ⟨req', by simp [hm]⟩
  · intro x hx
    rcases List.mem_append.mp (horder ▸ hx) with hx | hx
    · obtain ⟨c', hm⟩ := h.executed_sent x hx
      exact ⟨c', by simp [hm]⟩
    · rw [List.mem_singleton.mp hx]
      exact ⟨c, by simp [hc]⟩
  · rw [horder, List.map_append, List.nodup_append']
    refine ⟨h.executed_once, by simp, ?_⟩
    simpa using hnew
  · intro c' id' rep hm
    obtain ⟨x, hx, hid, hrep, hs⟩ := h.received c' id' rep (by simpa using hm)
    exact ⟨x, by simp [horder, hx], hid, hrep, by simp [hs]⟩

/-- Losing messages and stopping clients records nothing. -/
theorem Recorded.silent (h : Recorded handler init trace s) {e : Event Client Req Rep}
    {s' : Config Client Req Rep State} (hexec : e.executed? = none) (hid : e.id? = none)
    (hstate : s'.state = s.state) (hnext : s'.nextId = s.nextId)
    (hreq : ∀ m ∈ s'.requests, m ∈ s.requests) (hrep : ∀ m ∈ s'.replies, m ∈ s.replies)
    (hphase : ∀ c id, s'.phase c = .waiting id → s.phase c = .waiting id) :
    Recorded handler init (trace ++ [e]) s' := by
  have horder : order (trace ++ [e]) = order trace := by simp [order, hexec]
  have hmem : ∀ {e' : Event Client Req Rep}, e'.id? ≠ none → (e' ∈ trace ++ [e] ↔ e' ∈ trace) := by
    intro e' he'
    have hne : e' ≠ e := fun h => he' (h ▸ hid)
    simp [hne]
  have hsend : ∀ c id req, .send c id req ∈ trace ++ [e] ↔ .send c id req ∈ trace := fun c id req =>
    hmem (by simp [Event.id?])
  refine ⟨by rw [horder, hstate]; exact h.served, ?_, ?_, ?_, ?_, ?_, ?_,
    by rw [horder]; exact h.executed_once, ?_⟩
  · intro e' he' id hid'
    rw [hnext]
    exact h.ids_old e' ((hmem (by simp [hid'])).mp he') id hid'
  · simpa only [hsend] using h.sent_once
  · simpa only [hsend, horder] using fun m hm => h.requests_pending m (hreq m hm)
  · simpa only [horder] using fun m hm => h.replies_executed m (hrep m hm)
  · simpa only [hsend] using fun c id hw => h.waiting_sent c id (hphase c id hw)
  · simpa only [hsend, horder] using h.executed_sent
  · intro c id rep hm
    simpa only [hsend, horder] using h.received c id rep ((hmem (by simp [Event.id?])).mp hm)

variable [DecidableEq Client]

theorem waiting_of_update {phase : Client → Phase} {c c' : Client} {ph : Phase} {id : ℕ}
    (h : Function.update phase c ph c' = .waiting id) :
    c' = c ∧ ph = .waiting id ∨ phase c' = .waiting id := by
  by_cases hc : c' = c
  · subst hc
    exact .inl ⟨rfl, by simpa using h⟩
  · exact .inr (by simpa [Function.update_of_ne hc] using h)

theorem Recorded.send (h : Recorded handler init trace s) {c : Client} (req : Req) :
    Recorded handler init (trace ++ [.send c s.nextId req]) (s.send c req) := by
  have horder : order (trace ++ [.send c s.nextId req]) = order trace := by
    simp [order, Event.executed?]
  have hfresh : ∀ c' req', .send c' s.nextId req' ∉ trace := fun c' req' hm =>
    absurd (h.ids_old _ hm _ rfl) (lt_irrefl _)
  refine ⟨by rw [horder]; exact h.served, ?_, ?_, ?_, ?_, ?_, ?_,
    by rw [horder]; exact h.executed_once, ?_⟩
  · intro e he id hid
    rcases List.mem_append.mp he with he | he
    · exact (h.ids_old e he id hid).trans (Nat.lt_succ_self _)
    · rw [List.mem_singleton.mp he] at hid
      exact Option.some.inj hid ▸ Nat.lt_succ_self _
  · intro c₁ id req₁ c₂ req₂ h₁ h₂
    simp only [List.mem_append, List.mem_singleton, Event.send.injEq] at h₁ h₂
    rcases h₁ with h₁ | ⟨rfl, rfl, rfl⟩ <;> rcases h₂ with h₂ | ⟨rfl, h₂, rfl⟩
    · exact h.sent_once _ _ _ _ _ h₁ h₂
    · exact absurd (h₂ ▸ h₁) (hfresh _ _)
    · exact absurd h₂ (hfresh _ _)
    · exact ⟨rfl, rfl⟩
  · intro m hm
    rw [horder]
    rcases List.mem_cons.mp hm with rfl | hm
    · refine ⟨⟨c, by simp⟩, fun x hx he => ?_⟩
      exact absurd (h.ids_old _ (mem_order.mp hx) _ rfl) (he ▸ lt_irrefl _)
    · obtain ⟨⟨c', hc'⟩, hnew⟩ := h.requests_pending m hm
      exact ⟨⟨c', by simp [hc']⟩, hnew⟩
  · rw [horder]
    exact h.replies_executed
  · intro c' id hw
    rcases waiting_of_update hw with ⟨rfl, hid⟩ | hw
    · exact ⟨req, by simp [Phase.waiting.inj hid]⟩
    · obtain ⟨req', hm⟩ := h.waiting_sent c' id hw
      exact ⟨req', by simp [hm]⟩
  · intro x hx
    obtain ⟨c', hm⟩ := h.executed_sent x (horder ▸ hx)
    exact ⟨c', by simp [hm]⟩
  · intro c' id rep hm
    obtain ⟨x, hx, hid, hrep, hs⟩ := h.received c' id rep (by simpa using hm)
    exact ⟨x, horder ▸ hx, hid, hrep, by simp [hs]⟩

theorem Recorded.recv (h : Recorded handler init trace s) {c : Client} {id : ℕ} {rep : Rep}
    (hw : s.phase c = .waiting id) (hrep : (id, rep) ∈ s.replies) :
    Recorded handler init (trace ++ [.recv c id rep]) (s.recv c id) := by
  have horder : order (trace ++ [.recv c id rep]) = order trace := by
    simp [order, Event.executed?]
  obtain ⟨req, hsent⟩ := h.waiting_sent c id hw
  refine ⟨by rw [horder]; exact h.served, ?_, ?_, ?_, ?_, ?_, ?_,
    by rw [horder]; exact h.executed_once, ?_⟩
  · intro e he id' hid
    rcases List.mem_append.mp he with he | he
    · exact h.ids_old e he id' hid
    · rw [List.mem_singleton.mp he] at hid
      exact Option.some.inj hid ▸ h.ids_old _ hsent _ rfl
  · intro c₁ id' req₁ c₂ req₂ h₁ h₂
    exact h.sent_once c₁ id' req₁ c₂ req₂ (by simpa using h₁) (by simpa using h₂)
  · intro m hm
    rw [horder]
    obtain ⟨⟨c', hc'⟩, hold⟩ := h.requests_pending m hm
    exact ⟨⟨c', by simp [hc']⟩, hold⟩
  · intro m hm
    rw [horder]
    exact h.replies_executed m (mem_without.mp hm).1
  · intro c' id' hw'
    rcases waiting_of_update hw' with ⟨_, hidle⟩ | hw'
    · simp at hidle
    · obtain ⟨req', hm⟩ := h.waiting_sent c' id' hw'
      exact ⟨req', by simp [hm]⟩
  · intro x hx
    obtain ⟨c', hm⟩ := h.executed_sent x (horder ▸ hx)
    exact ⟨c', by simp [hm]⟩
  · intro c' id' rep' hm
    rw [horder]
    rcases List.mem_append.mp hm with hm | hm
    · obtain ⟨x, hx, hid, hr, hs⟩ := h.received c' id' rep' hm
      exact ⟨x, hx, hid, hr, by simp [hs]⟩
    · simp only [List.mem_singleton, Event.recv.injEq] at hm
      obtain ⟨rfl, rfl, rfl⟩ := hm
      obtain ⟨x, hx, hid, hr⟩ := h.replies_executed _ hrep
      obtain ⟨c', hexec⟩ := h.executed_sent x hx
      obtain ⟨rfl, rfl⟩ := h.sent_once _ _ _ _ _ (hid ▸ hexec) hsent
      exact ⟨x, hx, hid, hr, by simp [hsent]⟩

theorem Run.recorded (h : Run handler init trace s) : Recorded handler init trace s := by
  induction h with
  | start => exact Recorded.start handler init
  | step _ hstep ih =>
    cases hstep with
    | send c req _ => exact ih.send req
    | exec id req hreq => exact ih.exec hreq
    | recv c id rep hw hrep => exact ih.recv hw hrep
    | lose id =>
      exact ih.silent rfl rfl rfl rfl (fun m hm => (mem_without.mp hm).1)
        (fun m hm => (mem_without.mp hm).1) fun _ _ hw => hw
    | quit c =>
      refine ih.silent rfl rfl rfl rfl (fun _ hm => hm) (fun _ hm => hm) fun c' id hw => ?_
      rcases waiting_of_update hw with ⟨_, hstop⟩ | hw
      · simp at hstop
      · exact hw

/-! ## Real time -/

theorem Run.last_step {e : Event Client Req Rep} (h : Run handler init (trace ++ [e]) s) :
    ∃ s', Run handler init trace s' ∧ Step handler s' e s := by
  generalize hl : trace ++ [e] = full at h
  cases h with
  | start => simp at hl
  | step hrun hstep =>
    obtain ⟨rfl, he⟩ := List.append_inj' hl rfl
    cases he
    exact ⟨_, hrun, hstep⟩

/-- Every prefix of a trace is the trace of a run. -/
theorem Run.prefix_run {trace' : List (Event Client Req Rep)}
    (h : Run handler init (trace ++ trace') s) : ∃ s', Run handler init trace s' := by
  induction trace' using List.reverseRecOn generalizing s with
  | nil => exact ⟨s, by simpa using h⟩
  | append_singleton trace' e ih =>
    rw [← List.append_assoc] at h
    obtain ⟨s', hrun, _⟩ := h.last_step
    exact ih hrun

/-- A request sent after some reply was received is handled after the one replied to. -/
theorem Run.real_time (h : Run handler init trace s) {c c' : Client} {id : ℕ} {rep : Rep}
    {req : Req} {y : Executed Req Rep} {before after : List (Executed Req Rep)}
    (hbefore : [.recv c id rep, .send c' y.id req].Sublist trace)
    (hsplit : order trace = before ++ y :: after) : ∃ x ∈ before, x.id = id ∧ x.rep = rep := by
  obtain ⟨t₁, t₂, rfl, h₁, h₂⟩ := List.cons_sublist_iff.mp hbefore
  obtain ⟨u₁, u₂, rfl⟩ := List.append_of_mem (List.singleton_sublist.mp h₂)
  -- when the reply was received, its request had been handled
  obtain ⟨x, hx, hid, hrep⟩ : ∃ x ∈ order t₁, x.id = id ∧ x.rep = rep := by
    obtain ⟨s₁, hs₁⟩ := h.prefix_run
    obtain ⟨x, hx, hid, hrep, _⟩ := hs₁.recorded.received c id rep h₁
    exact ⟨x, hx, hid, hrep⟩
  refine ⟨x, ?_, hid, hrep⟩
  -- when the other request was sent, it was new
  have hnew : y ∉ order (t₁ ++ u₁) := by
    rw [show t₁ ++ (u₁ ++ .send c' y.id req :: u₂) = t₁ ++ u₁ ++ [.send c' y.id req] ++ u₂ by simp]
      at h
    obtain ⟨s₂, hs₂⟩ := h.prefix_run
    obtain ⟨s₃, hs₃, hstep⟩ := hs₂.last_step
    intro hy
    have hold := hs₃.recorded.ids_old _ (mem_order.mp hy) _ rfl
    generalize y.id = b at hold hstep
    cases hstep
    exact lt_irrefl _ hold
  have horder : order (t₁ ++ (u₁ ++ .send c' y.id req :: u₂)) =
      order (t₁ ++ u₁) ++ order u₂ := by
    rw [← List.append_assoc, order_append]
    rfl
  rw [horder] at hsplit
  have hx' : x ∈ order (t₁ ++ u₁) := by simp [hx]
  rcases List.append_eq_append_iff.mp hsplit with ⟨rest, hb, _⟩ | ⟨rest, ha, hrest⟩
  · exact hb ▸ List.mem_append_left rest hx'
  · cases rest with
    | nil => simpa [ha] using hx'
    | cons z rest =>
      obtain ⟨rfl, _⟩ := List.cons.inj hrest
      exact absurd (by simp [ha]) hnew

end MadKV.Support
