import MadKV.Store.Server
import MadKV.Support.AtomicService

/-!
# Linearizability of the server

Clients, handlers and network run as in `Support.AtomicService`: any number of
clients, each with one blocking RPC at a time, any schedule, messages delivered
at most once and unaltered. The order in which the handlers take the mutex
explains everything the clients see.
-/

namespace MadKV.Store

open Runner Support

variable {Client : Type*} [DecidableEq Client] {trace : List (Event Client Request Reply)}
  {s : Config Client Request Reply InMemoryKVStore}

/-- The runs of the whole system from an empty store. -/
abbrev SystemRun (trace : List (Event Client Request Reply))
    (s : Config Client Request Reply InMemoryKVStore) : Prop :=
  Run ServiceImpl.handle .empty trace s

/-- The abstract contents left by handled requests. -/
def contentsAfter (handled : List (Executed Request Reply)) : Spec.KvMap :=
  Spec.contents ∅ (handled.map fun x => x.req.call)

theorem serve_specHandle (m : Spec.KvMap) (reqs : List Request) :
    (serve specHandle m reqs).2 = Spec.contents m (reqs.map Request.call) := by
  induction reqs generalizing m with
  | nil => rfl
  | cons req reqs ih => simpa [serve, specHandle, Spec.contents] using ih _

/-- The abstract map replays every reply of the run, in the order of handling. -/
theorem SystemRun.replays (h : SystemRun trace s) :
    serve specHandle ∅ ((order trace).map Executed.req) =
      ((order trace).map Executed.rep, s.state.contents) := by
  have hserved := h.recorded.served
  have hrefines := serve_refines specHandle_contents .empty ((order trace).map Executed.req)
  rw [InMemoryKVStore.contents_empty] at hrefines
  rw [hrefines, hserved]

/-- Each reply is the answer to its request on the contents its predecessors left. -/
theorem SystemRun.reply_eq (h : SystemRun trace s) {before after : List (Executed Request Reply)}
    {x : Executed Request Reply} (hsplit : order trace = before ++ x :: after) :
    x.rep = x.req.answer (contentsAfter before) := by
  have hr := congrArg Prod.fst h.replays
  rw [hsplit, List.map_append, List.map_append, serve_append, List.map_cons, List.map_cons,
    serve] at hr
  have hlen : (serve specHandle ∅ (before.map Executed.req)).1.length =
      (before.map Executed.rep).length := by
    have hserve : ∀ (m : Spec.KvMap) (reqs : List Request),
        (serve specHandle m reqs).1.length = reqs.length := by
      intro m reqs
      induction reqs generalizing m with
      | nil => rfl
      | cons req reqs ih => simp [serve, ih]
    simp [hserve]
  have hhead := (List.cons.inj (List.append_inj hr hlen).2).1
  rw [← hhead, serve_specHandle, List.map_map]
  rfl

/-- One total order of the executed operations replays on a finite map, agrees with
what was sent and received, and respects real time: who sends after a reply was
received sees the effect of the operation replied to. -/
theorem server_linearizable (h : SystemRun trace s) :
    serve specHandle ∅ ((order trace).map Executed.req) =
      ((order trace).map Executed.rep, s.state.contents) ∧
    ((order trace).map Executed.id).Nodup ∧
    (∀ x ∈ order trace, ∃ c, .send c x.id x.req ∈ trace) ∧
    (∀ c id rep, .recv c id rep ∈ trace →
      ∃ x ∈ order trace, x.id = id ∧ x.rep = rep ∧ .send c id x.req ∈ trace) ∧
    ∀ c c' id rep req, ∀ y ∈ order trace,
      [.recv c id rep, .send c' y.id req].Sublist trace →
        ∃ before after, order trace = before ++ y :: after ∧
          (∃ x ∈ before, x.id = id ∧ x.rep = rep) ∧
          y.rep = y.req.answer (contentsAfter before) := by
  have hr := h.recorded
  refine ⟨h.replays, hr.executed_once, hr.executed_sent, hr.received, ?_⟩
  intro c c' id rep req y hy hbefore
  obtain ⟨before, after, hsplit⟩ := List.append_of_mem hy
  exact ⟨before, after, hsplit, h.real_time hbefore hsplit, h.reply_eq hsplit⟩

/-- Two clients: the put of the first is acknowledged before the second asks. -/
def putThenGet : List (Event ℕ Request Reply) :=
  [.send 0 0 (.put ⟨"k", "v"⟩), .exec 0 (.put ⟨"k", "v"⟩) (.put ⟨false⟩),
    .recv 0 0 (.put ⟨false⟩), .send 1 1 (.get ⟨"k"⟩),
    .exec 1 (.get ⟨"k"⟩) (.get ⟨true, "v"⟩)]

theorem putThenGet_run : ∃ s, SystemRun putThenGet s := by
  have h₀ : SystemRun ([] : List (Event ℕ Request Reply)) _ := .start
  have h₁ := h₀.step (.send _ 0 (.put ⟨"k", "v"⟩) rfl)
  have h₂ := h₁.step (.exec _ 0 (.put ⟨"k", "v"⟩) (by decide))
  have h₃ := h₂.step (.recv _ 0 0 (.put ⟨false⟩) (by decide) (by decide))
  have h₄ := h₃.step (.send _ 1 (.get ⟨"k"⟩) (by decide))
  have h₅ := h₄.step (.exec _ 1 (.get ⟨"k"⟩) (by decide))
  exact ⟨_, h₅⟩

theorem server_linearizable_putThenGet :
    ∃ before after, order putThenGet = before ++ ⟨1, .get ⟨"k"⟩, .get ⟨true, "v"⟩⟩ :: after ∧
      (∃ x ∈ before, x.id = 0 ∧ x.rep = .put ⟨false⟩) ∧
      Reply.get ⟨true, "v"⟩ = (Request.get ⟨"k"⟩).answer (contentsAfter before) := by
  obtain ⟨s, hs⟩ := putThenGet_run
  exact (server_linearizable hs).2.2.2.2 0 1 0 (.put ⟨false⟩) (.get ⟨"k"⟩)
    ⟨1, .get ⟨"k"⟩, .get ⟨true, "v"⟩⟩ (by decide) (by decide)

end MadKV.Store
