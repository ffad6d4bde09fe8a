import MadKV.Store.Server
import MadKV.Support.Interleaving

/-!
# Clients that do not meet

A request sees its own key, or every key of its range, and writes at most one
key. Clients whose writes are never seen by each other are served as if each
were alone, in whatever order their requests reach the store.
-/

namespace MadKV.Store

open Runner Support Spec

namespace Request

/-- The key a request writes, if it writes one. -/
def written : Request → Option String
  | .put request => some request.key
  | .swap request => some request.key
  | .get _ => none
  | .scan _ => none
  | .delete request => some request.key

/-- The keys whose values a request depends on. -/
def Sees : Request → String → Prop
  | .put request, key => key = request.key
  | .swap request, key => key = request.key
  | .get request, key => key = request.key
  | .scan request, key => request.startKey ≤ key ∧ key ≤ request.endKey
  | .delete request, key => key = request.key

instance (request : Request) (key : String) : Decidable (request.Sees key) := by
  cases request <;> unfold Sees <;> infer_instance

theorem sees_written {request : Request} {key : String} (h : request.written = some key) :
    request.Sees key := by
  cases request <;> cases h <;> rfl

theorem updateInfo_call (request : Request) :
    request.call.updateInfo.map Prod.fst = request.written := by
  cases request <;> rfl

/-- The reply depends on the keys in sight only. -/
theorem answer_congr {request : Request} {m m' : KvMap}
    (h : ∀ key, request.Sees key → m.lookup key = m'.lookup key) :
    request.answer m = request.answer m' := by
  cases request with
  | put request => simp only [answer, h request.key rfl]
  | swap request => simp only [answer, h request.key rfl]
  | get request => simp only [answer, h request.key rfl]
  | delete request => simp only [answer, h request.key rfl]
  | scan request =>
    have hbetween : between m request.startKey request.endKey =
        between m' request.startKey request.endKey := by
      refine eq_of_sorted_of_mem_iff (between_sorted _ _ _) (between_sorted _ _ _) ?_
      rintro ⟨k, v⟩
      rw [mem_between, mem_between]
      exact and_congr_left fun hrange => by rw [h k hrange]
    simp only [answer, hbetween]

/-- What a request leaves in a key it does not write. -/
theorem lookup_apply_of_ne {request : Request} {key : String} (m : KvMap)
    (h : request.written ≠ some key) : (apply m request.call).2.lookup key = m.lookup key := by
  rw [← updateInfo_call] at h
  rw [lookup_apply]
  cases hu : request.call.updateInfo with
  | none => rfl
  | some u =>
    have hne : key ≠ u.1 := by
      rintro rfl
      simp [hu] at h
    simp [hne]

/-- What a request leaves in a key it writes does not depend on the store. -/
theorem lookup_apply_written {request : Request} {key : String} (m m' : KvMap)
    (h : request.written = some key) :
    (apply m request.call).2.lookup key = (apply m' request.call).2.lookup key := by
  rw [← updateInfo_call] at h
  obtain ⟨u, hu, rfl⟩ := Option.map_eq_some_iff.mp h
  rw [lookup_apply, lookup_apply, hu]
  simp

end Request

/-- No request of `others` writes a key that one of `own` sees. -/
def Undisturbed (others own : List Request) : Prop :=
  ∀ b ∈ others, ∀ key ∈ b.written, ∀ a ∈ own, ¬ a.Sees key

/-- Requests that do not write what the other sees can change places. -/
theorem specHandle_independent {a b : Request} (ha : ∀ key ∈ a.written, ¬ b.Sees key)
    (hb : ∀ key ∈ b.written, ¬ a.Sees key) : Independent specHandle a b where
  reply_left := fun m => Request.answer_congr fun key hsees =>
    Request.lookup_apply_of_ne m fun hw => hb key hw hsees
  reply_right := fun m => Request.answer_congr fun key hsees =>
    Request.lookup_apply_of_ne m fun hw => ha key hw hsees
  state := by
    intro m
    refine Finmap.ext_lookup fun key => ?_
    simp only [specHandle]
    by_cases hwa : a.written = some key
    · have hwb : b.written ≠ some key := fun h => ha key hwa (Request.sees_written h)
      rw [Request.lookup_apply_of_ne _ hwb]
      exact Request.lookup_apply_written _ _ hwa
    · rw [Request.lookup_apply_of_ne (apply m b.call).2 hwa]
      by_cases hwb : b.written = some key
      · exact Request.lookup_apply_written _ _ hwb
      · rw [Request.lookup_apply_of_ne _ hwb, Request.lookup_apply_of_ne _ hwb,
          Request.lookup_apply_of_ne _ hwa]

theorem handle_independent {a b : Request} (ha : ∀ key ∈ a.written, ¬ b.Sees key)
    (hb : ∀ key ∈ b.written, ¬ a.Sees key) : Independent ServiceImpl.handle a b :=
  (specHandle_independent ha hb).of_refines InMemoryKVStore.contents_injective
    specHandle_contents

/-- Two clients. -/
inductive Side
  | left
  | right
deriving DecidableEq, Repr

theorem noConflict_of_undisturbed {run : List (Side × Request)}
    (hleft : Undisturbed (ofClient .right run) (ofClient .left run))
    (hright : Undisturbed (ofClient .left run) (ofClient .right run)) :
    NoConflict ServiceImpl.handle run := by
  have hcross : ∀ a b, (Side.left, a) ∈ run → (Side.right, b) ∈ run →
      Independent ServiceImpl.handle a b := by
    intro a b ha hb
    rw [← mem_ofClient] at ha hb
    exact handle_independent (fun key hw => hright a ha key hw b hb)
      fun key hw => hleft b hb key hw a ha
  rintro ⟨c, a⟩ ha ⟨d, b⟩ hb hne
  cases c <;> cases d
  · exact absurd rfl hne
  · exact hcross a b ha hb
  · exact (hcross b a hb ha).symm
  · exact absurd rfl hne

/-- Clients whose writes the other never sees: on any store and in any
interleaving, each receives the replies it would receive alone, and the store
ends up as if one had gone after the other. -/
theorem disjoint_clients_isolated {A B : List Request} (hA : Undisturbed B A)
    (hB : Undisturbed A B) (store : InMemoryKVStore) {run : List (Side × Request)}
    (hleft : ofClient .left run = A) (hright : ofClient .right run = B) :
    ofClient .left (serveTagged ServiceImpl.handle store run).1 =
      (serve ServiceImpl.handle store A).1 ∧
    ofClient .right (serveTagged ServiceImpl.handle store run).1 =
      (serve ServiceImpl.handle store B).1 ∧
    (serveTagged ServiceImpl.handle store run).2 =
      (serve ServiceImpl.handle store (A ++ B)).2 := by
  subst hleft hright
  have hfree := noConflict_of_undisturbed hA hB
  refine ⟨serveTagged_replies hfree .left store, serveTagged_replies hfree .right store, ?_⟩
  let ordered := (ofClient Side.left run).map (Prod.mk Side.left) ++
    (ofClient Side.right run).map (Prod.mk Side.right)
  have hself : ∀ (c : Side) (reqs : List Request), ofClient c (reqs.map (Prod.mk c)) = reqs := by
    intro c reqs
    induction reqs with
    | nil => rfl
    | cons req reqs ih => simp [ofClient_cons, ih]
  have hother : ∀ (c d : Side) (reqs : List Request), d ≠ c →
      ofClient c (reqs.map (Prod.mk d)) = [] := by
    intro c d reqs hne
    induction reqs with
    | nil => rfl
    | cons req reqs ih => simp [ofClient_cons, hne, ih]
  have hsame : ∀ c, ofClient c run = ofClient c ordered := by
    intro c
    cases c <;> simp [ordered, hself, hother]
  rw [serveTagged_state_eq hfree hsame, serveTagged_state]
  simp [ordered, Function.comp_def]

/-- One client scans the range it writes into, the other writes and deletes outside of it. -/
def separateRun : List (Side × Request) :=
  [(.left, .put ⟨"a1", "one"⟩), (.right, .put ⟨"b1", "four"⟩), (.left, .scan ⟨"a1", "a9"⟩),
    (.right, .delete ⟨"b1"⟩)]

theorem disjoint_clients_isolated_separateRun :
    ofClient .left (serveTagged ServiceImpl.handle .empty separateRun).1 =
      (serve ServiceImpl.handle .empty [.put ⟨"a1", "one"⟩, .scan ⟨"a1", "a9"⟩]).1 :=
  (disjoint_clients_isolated (by unfold Undisturbed; decide) (by unfold Undisturbed; decide) .empty
    (show ofClient .left separateRun = _ from rfl)
    (show ofClient .right separateRun = [.put ⟨"b1", "four"⟩, .delete ⟨"b1"⟩] from rfl)).1

end MadKV.Store
