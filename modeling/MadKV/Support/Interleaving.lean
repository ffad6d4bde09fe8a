import MadKV.Support.AtomicService

/-!
# Interleaving independent requests

Several clients share one service, their requests handled in any order that
keeps the order of each client. When no request disturbs one of another client,
each client gets the replies it would get alone, and the final state does not
depend on the interleaving.
-/

namespace MadKV.Support

variable {ι A Req Rep State : Type*}

section

variable [DecidableEq ι]

/-- The items of client `c`, in their order. -/
def ofClient (c : ι) (run : List (ι × A)) : List A :=
  run.filterMap fun x => if x.1 = c then some x.2 else none

@[simp] theorem ofClient_nil (c : ι) : ofClient c ([] : List (ι × A)) = [] := rfl

theorem ofClient_cons (c : ι) (x : ι × A) (run : List (ι × A)) :
    ofClient c (x :: run) = if x.1 = c then x.2 :: ofClient c run else ofClient c run := by
  unfold ofClient
  rw [List.filterMap_cons]
  by_cases hx : x.1 = c <;> simp [hx]

@[simp] theorem ofClient_append (c : ι) (run run' : List (ι × A)) :
    ofClient c (run ++ run') = ofClient c run ++ ofClient c run' :=
  List.filterMap_append

theorem mem_ofClient {c : ι} {a : A} {run : List (ι × A)} :
    a ∈ ofClient c run ↔ (c, a) ∈ run := by
  unfold ofClient
  rw [List.mem_filterMap]
  constructor
  · rintro ⟨⟨d, b⟩, hmem, h⟩
    split_ifs at h with hd
    cases h
    exact hd ▸ hmem
  · intro h
    exact ⟨(c, a), h, by simp⟩

/-- The first item of a client, and what comes before and after it. -/
theorem ofClient_eq_cons {c : ι} {a : A} {as : List A} {run : List (ι × A)}
    (h : ofClient c run = a :: as) :
    ∃ before after, run = before ++ (c, a) :: after ∧ ofClient c before = [] := by
  induction run with
  | nil => simp at h
  | cons x run ih =>
    rw [ofClient_cons] at h
    split_ifs at h with hx
    · cases h
      exact ⟨[], run, by simp [← hx], rfl⟩
    · obtain ⟨before, after, rfl, hbefore⟩ := ih h
      exact ⟨x :: before, after, rfl, by simp [ofClient_cons, hx, hbefore]⟩

end

variable (handler : State → Req → Rep × State)

/-- Handle the requests of several clients one after another. -/
def serveTagged (s : State) : List (ι × Req) → List (ι × Rep) × State
  | [] => ([], s)
  | (c, req) :: run =>
    ((c, (handler s req).1) :: (serveTagged (handler s req).2 run).1,
      (serveTagged (handler s req).2 run).2)

/-- The order of two requests changes neither a reply nor the state they leave. -/
structure Independent (a b : Req) : Prop where
  reply_left : ∀ s, (handler (handler s b).2 a).1 = (handler s a).1
  reply_right : ∀ s, (handler (handler s a).2 b).1 = (handler s b).1
  state : ∀ s, (handler (handler s a).2 b).2 = (handler (handler s b).2 a).2

/-- Requests of different clients are independent. -/
def NoConflict (run : List (ι × Req)) : Prop :=
  ∀ x ∈ run, ∀ y ∈ run, x.1 ≠ y.1 → Independent handler x.2 y.2

variable {handler}

theorem Independent.symm {a b : Req} (h : Independent handler a b) : Independent handler b a :=
  ⟨h.reply_right, h.reply_left, fun s => (h.state s).symm⟩

theorem NoConflict.of_subset {run run' : List (ι × Req)} (h : NoConflict handler run)
    (hs : ∀ x ∈ run', x ∈ run) : NoConflict handler run' :=
  fun x hx y hy => h x (hs x hx) y (hs y hy)

/-- A handler that refines another inherits its independence, if no two states
mean the same. -/
theorem Independent.of_refines {Spec : Type*} {spec : Spec → Req → Rep × Spec} {abs : State → Spec}
    (habs : Function.Injective abs)
    (h : ∀ s req, spec (abs s) req = ((handler s req).1, abs (handler s req).2)) {a b : Req}
    (hind : Independent spec a b) : Independent handler a b := by
  have hreply : ∀ s req, (handler s req).1 = (spec (abs s) req).1 := fun s req => by rw [h]
  have hstate : ∀ s req, abs (handler s req).2 = (spec (abs s) req).2 := fun s req => by rw [h]
  refine ⟨fun s => ?_, fun s => ?_, fun s => habs ?_⟩
  · rw [hreply, hstate, hind.reply_left, hreply]
  · rw [hreply, hstate, hind.reply_right, hreply]
  · rw [hstate, hstate, hind.state, hstate, hstate]

/-- A request that is independent of all those after it could as well come last. -/
theorem serve_after {req : Req} {reqs : List Req}
    (h : ∀ r ∈ reqs, Independent handler req r) (s : State) :
    (serve handler (handler s req).2 reqs).1 = (serve handler s reqs).1 ∧
      (serve handler (handler s req).2 reqs).2 = (handler (serve handler s reqs).2 req).2 := by
  induction reqs generalizing s with
  | nil => exact ⟨rfl, rfl⟩
  | cons r reqs ih =>
    have hr := h r (by simp)
    obtain ⟨ihreply, ihstate⟩ := ih (fun r' hr' => h r' (by simp [hr'])) (handler s r).2
    simp [serve, hr.reply_right, hr.state, ihreply, ihstate]

/-- Tags aside, the clients' requests are handled like those of one client. -/
theorem serveTagged_state (s : State) (run : List (ι × Req)) :
    (serveTagged handler s run).2 = (serve handler s (run.map Prod.snd)).2 := by
  induction run generalizing s with
  | nil => rfl
  | cons x run ih => simp [serveTagged, serve, ih]

variable [DecidableEq ι]

/-- Each client gets the replies it would get alone. -/
theorem serveTagged_replies {run : List (ι × Req)} (h : NoConflict handler run) (c : ι)
    (s : State) :
    ofClient c (serveTagged handler s run).1 = (serve handler s (ofClient c run)).1 := by
  induction run generalizing s with
  | nil => rfl
  | cons x run ih =>
    obtain ⟨d, req⟩ := x
    have ih := ih (h.of_subset fun y hy => by simp [hy]) (handler s req).2
    by_cases hd : d = c
    · simp [serveTagged, ofClient_cons, hd, serve, ih]
    · have hind : ∀ r ∈ ofClient c run, Independent handler req r := fun r hr =>
        h (d, req) (by simp) (c, r) (by simp [mem_ofClient.mp hr]) hd
      simp [serveTagged, ofClient_cons, hd, ih, (serve_after hind s).1]

/-- Two runs with the same requests of each client leave the same state. -/
theorem serveTagged_state_eq {run run' : List (ι × Req)} (h : NoConflict handler run)
    (hsame : ∀ c, ofClient c run = ofClient c run') (s : State) :
    (serveTagged handler s run).2 = (serveTagged handler s run').2 := by
  induction run generalizing run' s with
  | nil =>
    cases run' with
    | nil => rfl
    | cons x run' =>
      have hx := hsame x.1
      simp [ofClient_cons] at hx
  | cons x run ih =>
    obtain ⟨c, req⟩ := x
    have hfirst : ofClient c run' = req :: ofClient c run := by
      rw [← hsame c]
      simp [ofClient_cons]
    obtain ⟨before, after, rfl, hbefore⟩ := ofClient_eq_cons hfirst
    have hrest : ∀ d, ofClient d run = ofClient d (before ++ after) := by
      intro d
      have hd := hsame d
      by_cases hcd : c = d
      · subst hcd
        simpa [ofClient_cons, hbefore] using hd
      · simpa [ofClient_cons, hcd] using hd
    have hind : ∀ r ∈ before.map Prod.snd, Independent handler req r := by
      intro r hr
      obtain ⟨⟨d, r'⟩, hmem, rfl⟩ := List.mem_map.mp hr
      have hcd : c ≠ d := by
        rintro rfl
        simpa [hbefore] using mem_ofClient.mpr hmem
      have hin : (d, r') ∈ run := by
        rw [← mem_ofClient, hrest d, mem_ofClient]
        exact List.mem_append_left after hmem
      exact h (c, req) (by simp) (d, r') (by simp [hin]) hcd
    have hlater := ih (h.of_subset fun y hy => by simp [hy]) hrest (handler s req).2
    -- the request moves across those the other clients sent before it
    simp only [serveTagged_state, List.map_append, List.map_cons, serve_append, serve] at hlater ⊢
    rw [hlater, (serve_after hind s).2]

end MadKV.Support
