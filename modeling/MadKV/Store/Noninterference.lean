import MadKV.Store.Isolation
import MadKV.Store.Linearizability
import MadKV.Support.Handled

/-!
# Clients nobody disturbs

The view of a client is the keys its requests see. Requests that write none of
them do not change what the client gets, however many others there are and
however their requests are scheduled, and they may read what the client writes.
-/

namespace MadKV.Store

open Runner Support Spec

/-- The two contents agree on every key that one of the requests sees. -/
def SameView (own : List Request) (m m' : KvMap) : Prop :=
  ∀ a ∈ own, ∀ key, a.Sees key → m.lookup key = m'.lookup key

theorem SameView.own {own : List Request} {m m' : KvMap} (h : SameView own m m') {a : Request}
    (ha : a ∈ own) : (specHandle m a).1 = (specHandle m' a).1 ∧
      SameView own (specHandle m a).2 (specHandle m' a).2 := by
  refine ⟨Request.answer_congr (h a ha), fun b hb key hsees => ?_⟩
  by_cases hw : a.written = some key
  · exact Request.lookup_apply_written m m' hw
  · exact ((Request.lookup_apply_of_ne m hw).trans (h b hb key hsees)).trans
      (Request.lookup_apply_of_ne m' hw).symm

theorem SameView.other {own : List Request} {m m' : KvMap} (h : SameView own m m') {b : Request}
    (hb : ∀ key ∈ b.written, ∀ a ∈ own, ¬ a.Sees key) : SameView own (specHandle m b).2 m' := by
  intro a ha key hsees
  have hw : b.written ≠ some key := fun hw => hb key hw a ha hsees
  exact (Request.lookup_apply_of_ne m hw).trans (h a ha key hsees)

variable {Client : Type*} [DecidableEq Client] {trace : List (Event Client Request Reply)}
  {s : Config Client Request Reply InMemoryKVStore}

/-- The requests that were handled and are not the client's. -/
def sentByOthers (c : Client) (trace : List (Event Client Request Reply)) :
    List (Executed Request Reply) :=
  (order trace).filter fun x => .send c x.id x.req ∉ trace

/-- A client whose keys nobody else writes: its requests are handled in the order it
sent them, and get the replies a store of its own would give. -/
theorem undisturbed_client (h : SystemRun trace s) (c : Client)
    (hquiet : Undisturbed ((sentByOthers c trace).map Executed.req)
      ((sentBy c trace).map Executed.req)) :
    (sentBy c trace).Pairwise (fun x y => x.id < y.id) ∧
    (serve ServiceImpl.handle .empty ((sentBy c trace).map Executed.req)).1 =
      (sentBy c trace).map Executed.rep ∧
    ∀ id rep, .recv c id rep ∈ trace → ∃ x ∈ sentBy c trace, x.id = id ∧ x.rep = rep := by
  refine ⟨h.program_order c, ?_, fun id rep hrecv => ?_⟩
  · let own := (sentBy c trace).map Executed.req
    have hown : ∀ x ∈ order trace, decide (Event.send c x.id x.req ∈ trace) = true →
        ∀ m m', SameView own m m' → (specHandle m x.req).1 = (specHandle m' x.req).1 ∧
          SameView own (specHandle m x.req).2 (specHandle m' x.req).2 := by
      intro x hx hc m m' hview
      exact hview.own (List.mem_map_of_mem (mem_sentBy.mpr ⟨hx, of_decide_eq_true hc⟩))
    have hother : ∀ x ∈ order trace, decide (Event.send c x.id x.req ∈ trace) = false →
        ∀ m m', SameView own m m' → SameView own (specHandle m x.req).2 m' := by
      intro x hx hc m m' hview
      have hmem : x ∈ sentByOthers c trace :=
        List.mem_filter.mpr ⟨hx, by simpa using of_decide_eq_false hc⟩
      exact hview.other (hquiet x.req (List.mem_map_of_mem hmem))
    have hview : SameView own ∅ ∅ := fun _ _ _ _ => rfl
    obtain ⟨m, hserve, _⟩ := serve_alone _ h.replays hown hother hview
    have hrefines := serve_refines specHandle_contents .empty ((sentBy c trace).map Executed.req)
    rw [InMemoryKVStore.contents_empty] at hrefines
    rw [sentBy] at hrefines ⊢
    rw [hserve] at hrefines
    exact (congrArg Prod.fst hrefines).symm
  · obtain ⟨x, hx, hid, hrep, hsent⟩ := h.recorded.received c id rep hrecv
    exact ⟨x, mem_sentBy.mpr ⟨hx, hid ▸ hsent⟩, hid, hrep⟩

/-- A second client writes another key while the first works on its own. -/
def besidesAnother : List (Event ℕ Request Reply) :=
  [.send 0 0 (.put ⟨"k", "v"⟩), .send 1 1 (.put ⟨"j", "w"⟩),
    .exec 1 (.put ⟨"j", "w"⟩) (.put ⟨false⟩), .exec 0 (.put ⟨"k", "v"⟩) (.put ⟨false⟩),
    .recv 0 0 (.put ⟨false⟩), .send 0 2 (.get ⟨"k"⟩), .exec 2 (.get ⟨"k"⟩) (.get ⟨true, "v"⟩)]

theorem besidesAnother_run : ∃ s, SystemRun besidesAnother s := by
  have h₀ : SystemRun ([] : List (Event ℕ Request Reply)) _ := .start
  have h₁ := h₀.step (.send _ 0 (.put ⟨"k", "v"⟩) rfl)
  have h₂ := h₁.step (.send _ 1 (.put ⟨"j", "w"⟩) (by decide))
  have h₃ := h₂.step (.exec _ 1 (.put ⟨"j", "w"⟩) (by decide))
  have h₄ := h₃.step (.exec _ 0 (.put ⟨"k", "v"⟩) (by decide))
  have h₅ := h₄.step (.recv _ 0 0 (.put ⟨false⟩) (by decide) (by decide))
  have h₆ := h₅.step (.send _ 0 (.get ⟨"k"⟩) (by decide))
  have h₇ := h₆.step (.exec _ 2 (.get ⟨"k"⟩) (by decide))
  exact ⟨_, h₇⟩

theorem undisturbed_client_besidesAnother :
    sentBy 0 besidesAnother =
      [⟨0, .put ⟨"k", "v"⟩, .put ⟨false⟩⟩, ⟨2, .get ⟨"k"⟩, .get ⟨true, "v"⟩⟩] ∧
    (serve ServiceImpl.handle .empty ((sentBy 0 besidesAnother).map Executed.req)).1 =
      (sentBy 0 besidesAnother).map Executed.rep := by
  obtain ⟨s, hs⟩ := besidesAnother_run
  exact ⟨by decide, (undisturbed_client hs 0 (by unfold Undisturbed; decide)).2.1⟩

end MadKV.Store
