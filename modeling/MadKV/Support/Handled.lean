import MadKV.Support.AtomicService

/-!
# The handled requests of a service

Those of one client are handled in the order it sent them. If the requests of the
others leave its view of the state alone, it gets the replies it would get alone.
And whatever each request adds and takes away can be summed up over all of them.
-/

namespace MadKV.Support

variable {Client Req Rep State : Type*}

/-- The client sent the request of this number. -/
def Sent (trace : List (Event Client Req Rep)) (c : Client) (id : ℕ) : Prop :=
  ∃ req, .send c id req ∈ trace

/-- The handled requests of a client, in the order of handling. -/
def sentBy [DecidableEq Client] [DecidableEq Req] [DecidableEq Rep] (c : Client)
    (trace : List (Event Client Req Rep)) : List (Executed Req Rep) :=
  (order trace).filter fun x => .send c x.id x.req ∈ trace

/-! ## Program order -/

/-- A client has one request under way, and it is later than those handled before. -/
structure Ordered (trace : List (Event Client Req Rep)) (s : Config Client Req Rep State) :
    Prop where
  idle_none : ∀ c, s.phase c = .idle → ∀ m ∈ s.requests, ¬ Sent trace c m.1
  waiting_only : ∀ c id, s.phase c = .waiting id → ∀ m ∈ s.requests, Sent trace c m.1 → m.1 = id
  one_pending : ∀ c, ∀ m ∈ s.requests, ∀ m' ∈ s.requests, Sent trace c m.1 → Sent trace c m'.1 →
    m.1 = m'.1
  before_pending : ∀ c, ∀ m ∈ s.requests, Sent trace c m.1 → ∀ x ∈ order trace,
    Sent trace c x.id → x.id < m.1
  in_order : (order trace).Pairwise fun x y => ∀ c, Sent trace c x.id → Sent trace c y.id →
    x.id < y.id

variable {handler : State → Req → Rep × State} {init : State}
  {trace : List (Event Client Req Rep)} {s s' : Config Client Req Rep State}

theorem Ordered.start (init : State) :
    Ordered ([] : List (Event Client Req Rep)) (.initial init) := by
  constructor <;> simp [Config.initial, order]

theorem sent_append {e : Event Client Req Rep} {c : Client} {id : ℕ}
    (he : ∀ req, e ≠ .send c id req) : Sent (trace ++ [e]) c id ↔ Sent trace c id := by
  constructor
  · rintro ⟨req, hm⟩
    rcases List.mem_append.mp hm with hm | hm
    · exact ⟨req, hm⟩
    · exact absurd (List.mem_singleton.mp hm).symm (he req)
  · rintro ⟨req, hm⟩
    exact ⟨req, List.mem_append_left _ hm⟩

/-- Nothing is sent or handled: fewer requests are under way, and who turns idle has none. -/
theorem Ordered.silent (h : Ordered trace s) {e : Event Client Req Rep}
    (hexec : e.executed? = none) (hsend : ∀ c id req, e ≠ .send c id req)
    (hreq : ∀ m ∈ s'.requests, m ∈ s.requests)
    (hidle : ∀ c, s'.phase c = .idle → ∀ m ∈ s'.requests, ¬ Sent trace c m.1)
    (hwaiting : ∀ c id, s'.phase c = .waiting id → s.phase c = .waiting id) :
    Ordered (trace ++ [e]) s' := by
  have horder : order (trace ++ [e]) = order trace := by simp [order, hexec]
  have hsent : ∀ c id, Sent (trace ++ [e]) c id ↔ Sent trace c id := fun c id =>
    sent_append (hsend c id)
  refine ⟨?_, ?_, ?_, ?_, ?_⟩ <;> simp only [hsent, horder]
  · exact hidle
  · exact fun c id hw m hm => h.waiting_only c id (hwaiting c id hw) m (hreq m hm)
  · exact fun c m hm m' hm' => h.one_pending c m (hreq m hm) m' (hreq m' hm')
  · exact fun c m hm => h.before_pending c m (hreq m hm)
  · exact h.in_order

theorem Ordered.exec (h : Ordered trace s) {id : ℕ} {req : Req} (hreq : (id, req) ∈ s.requests) :
    Ordered (trace ++ [.exec id req (handler s.state req).1]) (s.exec handler id req) := by
  have horder : order (trace ++ [.exec id req (handler s.state req).1]) =
      order trace ++ [⟨id, req, (handler s.state req).1⟩] := by
    simp [order, Event.executed?]
  have hsent : ∀ c id', Sent (trace ++ [.exec id req (handler s.state req).1]) c id' ↔
      Sent trace c id' := fun c id' => sent_append (by simp)
  have hpending : ∀ m ∈ (s.exec handler id req).requests, m ∈ s.requests ∧ m.1 ≠ id :=
    fun m hm => mem_without.mp hm
  refine ⟨?_, ?_, ?_, ?_, ?_⟩ <;> simp only [hsent, horder]
  · exact fun c hc m hm => h.idle_none c hc m (hpending m hm).1
  · exact fun c id' hw m hm => h.waiting_only c id' hw m (hpending m hm).1
  · exact fun c m hm m' hm' => h.one_pending c m (hpending m hm).1 m' (hpending m' hm').1
  · intro c m hm hc x hx hxc
    obtain ⟨hm, hne⟩ := hpending m hm
    rcases List.mem_append.mp hx with hx | hx
    · exact h.before_pending c m hm hc x hx hxc
    · -- its client has no other request under way
      rw [List.mem_singleton.mp hx] at hxc
      exact absurd (h.one_pending c m hm _ hreq hc hxc) hne
  · refine List.pairwise_append.mpr ⟨h.in_order, by simp, fun x hx y hy c hxc hyc => ?_⟩
    rw [List.mem_singleton.mp hy] at hyc ⊢
    exact h.before_pending c _ hreq hyc x hx hxc

variable [DecidableEq Client]

theorem Ordered.send (h : Ordered trace s) (hr : Recorded handler init trace s) {c : Client}
    (hc : s.phase c = .idle) (req : Req) :
    Ordered (trace ++ [.send c s.nextId req]) (s.send c req) := by
  have horder : order (trace ++ [.send c s.nextId req]) = order trace := by
    simp [order, Event.executed?]
  have hsent : ∀ d id, Sent (trace ++ [.send c s.nextId req]) d id →
      Sent trace d id ∨ d = c ∧ id = s.nextId := by
    rintro d id ⟨req', hm⟩
    rcases List.mem_append.mp hm with hm | hm
    · exact .inl ⟨req', hm⟩
    · obtain ⟨rfl, rfl, _⟩ := Event.send.inj (List.mem_singleton.mp hm)
      exact .inr ⟨rfl, rfl⟩
  have hold : ∀ x ∈ order trace, x.id < s.nextId := fun x hx => by
    exact hr.ids_old _ (mem_order.mp hx) _ rfl
  have hpending : ∀ m ∈ s.requests, m.1 < s.nextId := fun m hm => by
    obtain ⟨⟨d, hd⟩, _⟩ := hr.requests_pending m hm
    exact hr.ids_old _ hd _ rfl
  have hsent_old : ∀ d id, id < s.nextId → Sent (trace ++ [.send c s.nextId req]) d id →
      Sent trace d id := by
    intro d id hlt hd
    rcases hsent d id hd with hd | ⟨_, rfl⟩
    · exact hd
    · exact absurd hlt (lt_irrefl _)
  -- who has a request under way does not send another
  have hnew : ∀ d, ∀ m ∈ s.requests, Sent trace d m.1 →
      ¬ Sent (trace ++ [.send c s.nextId req]) d s.nextId := by
    intro d m hm hdm hd
    rcases hsent d _ hd with ⟨req', hlater⟩ | ⟨hdc, _⟩
    · exact absurd (hr.ids_old _ hlater _ rfl) (lt_irrefl _)
    · exact h.idle_none d (hdc ▸ hc) m hm hdm
  refine ⟨?_, ?_, ?_, ?_, ?_⟩
  · intro d hd m hm hdm
    have hne : d ≠ c := by
      rintro rfl
      simp [Config.send] at hd
    have hidle : s.phase d = .idle := by simpa [Config.send, hne] using hd
    rcases List.mem_cons.mp hm with rfl | hm
    · rcases hsent _ _ hdm with ⟨req', hm⟩ | ⟨hdc, _⟩
      · exact absurd (hr.ids_old _ hm _ rfl) (lt_irrefl _)
      · exact hne hdc
    · exact h.idle_none d hidle m hm (hsent_old d _ (hpending m hm) hdm)
  · intro d id hw m hm hdm
    rcases List.mem_cons.mp hm with rfl | hm
    · rcases hsent _ _ hdm with ⟨req', hm⟩ | ⟨rfl, _⟩
      · exact absurd (hr.ids_old _ hm _ rfl) (lt_irrefl _)
      · simpa [Config.send] using hw
    · have hdm' := hsent_old d _ (hpending m hm) hdm
      by_cases hd : d = c
      · exact absurd hdm' (h.idle_none d (hd ▸ hc) m hm)
      · exact h.waiting_only d id (by simpa [Config.send, hd] using hw) m hm hdm'
  · intro d m hm m' hm' hdm hdm'
    rcases List.mem_cons.mp hm with rfl | hm <;> rcases List.mem_cons.mp hm' with rfl | hm'
    · rfl
    · exact absurd hdm (hnew d m' hm' (hsent_old d _ (hpending m' hm') hdm'))
    · exact absurd hdm' (hnew d m hm (hsent_old d _ (hpending m hm) hdm))
    · exact h.one_pending d m hm m' hm' (hsent_old d _ (hpending m hm) hdm)
        (hsent_old d _ (hpending m' hm') hdm')
  · intro d m hm hdm x hx hdx
    rw [horder] at hx
    rcases List.mem_cons.mp hm with rfl | hm
    · exact hold x hx
    · exact h.before_pending d m hm (hsent_old d _ (hpending m hm) hdm) x hx
        (hsent_old d _ (hold x hx) hdx)
  · rw [horder]
    exact h.in_order.imp_of_mem fun {x y} hx hy hxy d hdx hdy =>
      hxy d (hsent_old d _ (hold x hx) hdx) (hsent_old d _ (hold y hy) hdy)

theorem Run.ordered (h : Run handler init trace s) : Ordered trace s := by
  induction h with
  | start => exact Ordered.start init
  | @step trace s s' e hrun hstep ih =>
    cases hstep with
    | send c req hc => exact ih.send hrun.recorded hc req
    | exec id req hreq => exact ih.exec hreq
    | recv c id rep hw hrep =>
      refine ih.silent rfl (by simp) (fun _ hm => hm) (fun d hd m hm hdm => ?_) fun d id' hw' => ?_
      · by_cases hdc : d = c
        · -- the request that was replied to is no longer under way
          subst hdc
          obtain ⟨x, hx, hxid, _⟩ := hrun.recorded.replies_executed _ hrep
          have hid := ih.waiting_only d id hw m hm hdm
          exact (hrun.recorded.requests_pending m hm).2 x hx (hxid.trans hid.symm)
        · exact ih.idle_none d (by simpa [Config.recv, hdc] using hd) m hm hdm
      · rcases waiting_of_update hw' with ⟨_, hidle⟩ | hw'
        · simp at hidle
        · exact hw'
    | lose id =>
      exact ih.silent rfl (by simp) (fun m hm => (mem_without.mp hm).1)
        (fun d hd m hm => ih.idle_none d hd m (mem_without.mp hm).1) fun _ _ hw => hw
    | quit c =>
      refine ih.silent rfl (by simp) (fun _ hm => hm) (fun d hd m hm => ?_) fun d id hw => ?_
      · have hdc : d ≠ c := by
          rintro rfl
          simp [Config.quit] at hd
        exact ih.idle_none d (by simpa [Config.quit, hdc] using hd) m hm
      · rcases waiting_of_update hw with ⟨_, hstop⟩ | hw
        · simp at hstop
        · exact hw

section

variable [DecidableEq Req] [DecidableEq Rep]

theorem mem_sentBy {c : Client} {x : Executed Req Rep} :
    x ∈ sentBy c trace ↔ x ∈ order trace ∧ .send c x.id x.req ∈ trace := by
  simp [sentBy]

/-- The requests of a client are handled in the order it sent them. -/
theorem Run.program_order (h : Run handler init trace s) (c : Client) :
    (sentBy c trace).Pairwise fun x y => x.id < y.id := by
  have horder := h.ordered.in_order.sublist (List.filter_sublist (p := fun x =>
    decide (Event.send c x.id x.req ∈ trace)))
  refine horder.imp_of_mem fun {x y} hx hy hxy => ?_
  exact hxy c ⟨_, (mem_sentBy.mp hx).2⟩ ⟨_, (mem_sentBy.mp hy).2⟩

end

/-! ## Alone -/

/-- The handled requests for which `own` holds get the replies they would get
without the others, if to each of them two states with the same view look the same
and the others change no view. -/
theorem serve_alone {View : State → State → Prop} (own : Executed Req Rep → Bool)
    {xs : List (Executed Req Rep)} {s s' t : State}
    (hserved : serve handler s (xs.map Executed.req) = (xs.map Executed.rep, s'))
    (hown : ∀ x ∈ xs, own x = true → ∀ s t, View s t →
      (handler s x.req).1 = (handler t x.req).1 ∧
        View (handler s x.req).2 (handler t x.req).2)
    (hother : ∀ x ∈ xs, own x = false → ∀ s t, View s t → View (handler s x.req).2 t)
    (hview : View s t) :
    ∃ t', serve handler t ((xs.filter own).map Executed.req) =
      ((xs.filter own).map Executed.rep, t') ∧ View s' t' := by
  induction xs generalizing s t with
  | nil =>
    obtain rfl : s = s' := congrArg Prod.snd hserved
    exact ⟨t, rfl, hview⟩
  | cons x xs ih =>
    obtain ⟨hreply, hrest⟩ : (handler s x.req).1 = x.rep ∧
        serve handler (handler s x.req).2 (xs.map Executed.req) =
          (xs.map Executed.rep, s') := by
      simpa [serve, Prod.ext_iff, and_assoc] using hserved
    have ih := fun {t} => ih (t := t) hrest (fun y hy => hown y (by simp [hy]))
      fun y hy => hother y (by simp [hy])
    cases hx : own x with
    | true =>
      obtain ⟨hsame, hview'⟩ := hown x (by simp) hx s t hview
      obtain ⟨t', hserve, ht'⟩ := ih hview'
      refine ⟨t', ?_, ht'⟩
      simp [hx, serve, hserve, ← hsame, hreply]
    | false =>
      obtain ⟨t', hserve, ht'⟩ := ih (hother x (by simp) hx s t hview)
      exact ⟨t', by simpa [List.filter_cons, hx] using hserve, ht'⟩

/-! ## Accounts -/

/-- What the state is worth changes by what the handled requests bring in and take
out, as far as their replies tell. -/
theorem serve_account {M : Type*} [AddCommMonoid M] (worth : State → M) (gain loss : Req → Rep → M)
    {xs : List (Executed Req Rep)} {s s' : State}
    (hserved : serve handler s (xs.map Executed.req) = (xs.map Executed.rep, s'))
    (hbalance : ∀ x ∈ xs, ∀ s, (handler s x.req).1 = x.rep →
      worth s + gain x.req x.rep = worth (handler s x.req).2 + loss x.req x.rep) :
    worth s + (xs.map fun x => gain x.req x.rep).sum =
      worth s' + (xs.map fun x => loss x.req x.rep).sum := by
  induction xs generalizing s with
  | nil =>
    obtain rfl : s = s' := congrArg Prod.snd hserved
    simp
  | cons x xs ih =>
    obtain ⟨hreply, hrest⟩ : (handler s x.req).1 = x.rep ∧
        serve handler (handler s x.req).2 (xs.map Executed.req) =
          (xs.map Executed.rep, s') := by
      simpa [serve, Prod.ext_iff, and_assoc] using hserved
    have ih := ih hrest fun y hy => hbalance y (by simp [hy])
    have hx := hbalance x (by simp) s hreply
    rw [List.map_cons, List.map_cons, List.sum_cons, List.sum_cons]
    calc worth s + (gain x.req x.rep + (xs.map fun x => gain x.req x.rep).sum)
        = worth (handler s x.req).2 + loss x.req x.rep +
            (xs.map fun x => gain x.req x.rep).sum := by rw [← add_assoc, hx]
      _ = worth (handler s x.req).2 + (xs.map fun x => gain x.req x.rep).sum +
            loss x.req x.rep := add_right_comm _ _ _
      _ = worth s' + (loss x.req x.rep + (xs.map fun x => loss x.req x.rep).sum) := by
          rw [ih, add_assoc, add_comm (loss x.req x.rep)]

end MadKV.Support
