import MadKV.Store.Linearizability
import MadKV.Support.Interleaving
import MadKV.Wire.InOrder
import MadKV.Wire.RoundTrip

/-!
# RPCs that fail

The client ends at the first RPC that fails. The server handled that request or
it did not, and the client cannot know; it has printed the answers to the calls
before it, and the runner hears these and then waits for ever.
-/

namespace MadKV.Wire

open Runner Support Spec Store

/-! ## What the server handled -/

/-- Whose request it is. -/
inductive Origin
  | own
  | other
deriving DecidableEq, Repr

/-- Requests of other clients. -/
def Others (log : List (Origin × Request)) : Prop :=
  ∀ x ∈ log, x.1 = .other ∧ WellFormed isWhitespace x.2.call

def logCalls (log : List (Origin × Request)) : List KvCall := log.map fun x => x.2.call

/-- The store after the requests. -/
def storeAfter (log : List (Origin × Request)) : InMemoryKVStore :=
  (serve ServiceImpl.handle .empty (log.map Prod.snd)).2

theorem contents_storeAfter (log : List (Origin × Request)) :
    (storeAfter log).contents = contents ∅ (logCalls log) := by
  have hrefines := serve_refines specHandle_contents .empty (log.map Prod.snd)
  rw [InMemoryKVStore.contents_empty] at hrefines
  have hstate := congrArg Prod.snd hrefines
  rw [serve_specHandle, List.map_map] at hstate
  exact hstate.symm

/-- The answers to the own requests, each at its place among all of them. -/
def ownAnswers (m : KvMap) : List (Origin × Request) → List KvResp
  | [] => []
  | (.own, req) :: log => (apply m req.call).1 :: ownAnswers (apply m req.call).2 log
  | (.other, req) :: log => ownAnswers (apply m req.call).2 log

theorem ownAnswers_append (m : KvMap) (log log' : List (Origin × Request)) :
    ownAnswers m (log ++ log') =
      ownAnswers m log ++ ownAnswers (contents m (logCalls log)) log' := by
  induction log generalizing m with
  | nil => rfl
  | cons x log ih =>
    obtain ⟨origin, req⟩ := x
    cases origin <;> simp [ownAnswers, ih, logCalls]

theorem Others.ownAnswers_eq {log : List (Origin × Request)} (h : Others log) (m : KvMap) :
    ownAnswers m log = [] := by
  induction log generalizing m with
  | nil => rfl
  | cons x log ih =>
    obtain ⟨origin, req⟩ := x
    obtain rfl : origin = .other := (h _ List.mem_cons_self).1
    exact ih (fun y hy => h y (List.mem_cons_of_mem _ hy)) _

theorem Others.ofClient_own {log : List (Origin × Request)} (h : Others log) :
    ofClient .own log = [] := by
  induction log with
  | nil => rfl
  | cons x log ih =>
    have hx : x.1 ≠ .own := by simp [(h x (by simp)).1]
    rw [ofClient_cons, if_neg hx]
    exact ih fun y hy => h y (by simp [hy])

theorem clean_contents {m : KvMap} {calls : List KvCall} (hm : Clean m)
    (h : ∀ call ∈ calls, WellFormed isWhitespace call) : Clean (contents m calls) := by
  induction calls generalizing m with
  | nil => exact hm
  | cons call calls ih => exact ih (hm.apply (h call (by simp))) fun c hc => h c (by simp [hc])

theorem ownAnswers_wellFormed {m : KvMap} {log : List (Origin × Request)} (hm : Clean m)
    (h : ∀ x ∈ log, WellFormed isWhitespace x.2.call) :
    ∀ resp ∈ ownAnswers m log, WellFormedResp resp := by
  induction log generalizing m with
  | nil => simp [ownAnswers]
  | cons x log ih =>
    obtain ⟨origin, req⟩ := x
    have hreq : WellFormed isWhitespace req.call := h (origin, req) (by simp)
    have hlater := ih (hm.apply hreq) fun y hy => h y (by simp [hy])
    cases origin with
    | own => exact List.forall_mem_cons.mpr ⟨hm.wellFormedResp hreq, hlater⟩
    | other => exact hlater

/-! ## One RPC -/

variable {World : Type}

/-- The RPC of a request. -/
def rpc (stub : Stub World) : Request → World → Except Status Reply × World
  | .put request, world => (stub.put request world).map (Except.map .put) id
  | .swap request, world => (stub.swap request world).map (Except.map .swap) id
  | .get request, world => (stub.get request world).map (Except.map .get) id
  | .scan request, world => (stub.scan request world).map (Except.map .scan) id
  | .delete request, world => (stub.delete request world).map (Except.map .delete) id

/-- An RPC that returns `OK` was handled once, and brings the reply of the handler;
one that fails was handled once or not at all. Others come in between. -/
structure AtMostOnce (stub : Stub World) (handled : World → List (Origin × Request)) : Prop where
  replied : ∀ req world rep world', rpc stub req world = (.ok rep, world') →
    ∃ before after, Others before ∧ Others after ∧
      handled world' = handled world ++ before ++ (.own, req) :: after ∧
      rep = (ServiceImpl.handle (storeAfter (handled world ++ before)) req).1
  failed : ∀ req world status world', rpc stub req world = (.error status, world') →
    ∃ before after, Others before ∧ Others after ∧
      (handled world' = handled world ++ before ∨
        handled world' = handled world ++ before ++ (.own, req) :: after)

/-- The request of a call, except of Stop. -/
def requestOf : KvCall → Option Request
  | .put key value => some (.put ⟨key, value⟩)
  | .swap key value => some (.swap ⟨key, value⟩)
  | .get key => some (.get ⟨key⟩)
  | .scan keyStart keyEnd => some (.scan ⟨keyStart, keyEnd⟩)
  | .delete key => some (.delete ⟨key⟩)
  | .stop => none

theorem requestOf_call {call : KvCall} {req : Request} (h : requestOf call = some req) :
    req.call = call := by
  cases call <;> cases h <;> rfl

/-- What the client prints of a reply. -/
def printed : KvCall → Reply → String
  | .put key _, .put reply =>
    "PUT " ++ key ++ (if reply.found then " found\n" else " not_found\n")
  | .swap key _, .swap reply =>
    "SWAP " ++ key ++ (if reply.found then " " ++ reply.oldValue ++ "\n" else " null\n")
  | .get key, .get reply =>
    if reply.found then "GET " ++ key ++ " " ++ reply.value ++ "\n" else "GET " ++ key ++ " null\n"
  | .scan keyStart keyEnd, .scan reply =>
    "SCAN " ++ keyStart ++ " " ++ keyEnd ++ " BEGIN\n" ++ Client.printPairs reply.list ++
      "SCAN END\n"
  | .delete key, .delete reply =>
    "DELETE " ++ key ++ (if reply.found then " found\n" else " not_found\n")
  | _, _ => ""

/-- The name of the RPC in what the client reports of a failure. -/
def operation : KvCall → String
  | .put _ _ => "Put"
  | .swap _ _ => "Swap"
  | .get _ => "Get"
  | .scan _ _ => "Scan"
  | .delete _ => "Delete"
  | .stop => ""

theorem dispatch_eq (stub : Stub World) {call : KvCall} {req : Request}
    (hreq : requestOf call = some req) (world : World) :
    Client.dispatch stub call world =
      match rpc stub req world with
      | (.ok rep, world') => ⟨printed call rep, "", .next, world'⟩
      | (.error status, world') => Client.rpcFail (operation call) status world' := by
  cases call with
  | put key value =>
    cases hreq
    rcases hput : stub.put ⟨key, value⟩ world with ⟨status | reply, next⟩ <;>
      simp [Client.dispatch, Client.doPut, rpc, hput, Except.map, printed, operation]
  | swap key value =>
    cases hreq
    rcases hswap : stub.swap ⟨key, value⟩ world with ⟨status | reply, next⟩ <;>
      simp [Client.dispatch, Client.doSwap, rpc, hswap, Except.map, printed, operation]
  | get key =>
    cases hreq
    rcases hget : stub.get ⟨key⟩ world with ⟨status | reply, next⟩ <;>
      simp [Client.dispatch, Client.doGet, rpc, hget, Except.map, printed, operation]
  | scan keyStart keyEnd =>
    cases hreq
    rcases hscan : stub.scan ⟨keyStart, keyEnd⟩ world with ⟨status | reply, next⟩ <;>
      simp [Client.dispatch, Client.doScan, rpc, hscan, Except.map, printed, operation]
  | delete key =>
    cases hreq
    rcases hdelete : stub.delete ⟨key⟩ world with ⟨status | reply, next⟩ <;>
      simp [Client.dispatch, Client.doDelete, rpc, hdelete, Except.map, printed, operation]
  | stop => cases hreq

/-- The reply that is owed is printed as the response that is owed. -/
theorem printed_answer {call : KvCall} {req : Request} (hreq : requestOf call = some req)
    (m : KvMap) : printed call (req.answer m) = render (apply m call).1 := by
  cases call with
  | put key value =>
    cases hreq
    simp [printed, Request.answer, Client.foundLine, apply, render, respLines, unlines,
      String.append_assoc]
  | swap key value =>
    cases hreq
    cases hk : m.lookup key <;>
      simp [printed, Request.answer, hk, apply, render, respLines, unlines, valueText,
        String.append_assoc]
  | get key =>
    cases hreq
    cases hk : m.lookup key <;>
      simp [printed, Request.answer, hk, apply, render, respLines, unlines, valueText,
        String.append_assoc]
  | scan keyStart keyEnd =>
    cases hreq
    simp [printed, Request.answer, Client.printPairs_eq, apply, render, respLines, unlines,
      unlines_append, String.append_assoc]
  | delete key =>
    cases hreq
    simp [printed, Request.answer, Client.foundLine, apply, render, respLines, unlines,
      String.append_assoc]
  | stop => cases hreq

/-! ## The RPCs of a sequence of calls -/

/-- The calls before the first Stop. -/
def rpcCalls (calls : List KvCall) : List KvCall := calls.takeWhile (· ≠ .stop)

/-- What is printed at the end if all goes well. -/
def farewell (calls : List KvCall) : List KvResp := if .stop ∈ calls then [.stop] else []

theorem rpcCalls_cons {call : KvCall} (h : call ≠ .stop) (calls : List KvCall) :
    rpcCalls (call :: calls) = call :: rpcCalls calls := by
  simp [rpcCalls, h]

/-- What came of some RPCs: the replies to those that succeeded, the call of the one that
failed with its status, and the world. -/
structure RpcRun (World : Type) where
  replies : List Reply
  failure : Option (KvCall × Status)
  world : World

/-- The RPCs of the calls, one after another, up to Stop or the first that fails. -/
def rpcs (stub : Stub World) : List KvCall → World → RpcRun World
  | [], world => ⟨[], none, world⟩
  | call :: calls, world =>
    match requestOf call with
    | none => ⟨[], none, world⟩
    | some req =>
      match rpc stub req world with
      | (.error status, world) => ⟨[], some (call, status), world⟩
      | (.ok rep, world) =>
        { rpcs stub calls world with replies := rep :: (rpcs stub calls world).replies }

/-- What is printed of the replies. -/
def printedAll : List KvCall → List Reply → String
  | call :: calls, rep :: reps => printed call rep ++ printedAll calls reps
  | _, _ => ""

/-- The process after its RPCs: it goes on to Stop or to the end of the calls, or ends at
the one that failed. -/
def afterRpcs (calls : List KvCall) (out : String) (run : RpcRun World) :
    Client.Progress World :=
  match run.failure with
  | none => ⟨out ++ transcript (farewell calls), "", if .stop ∈ calls then .exit 0 else .next,
      run.world⟩
  | some (call, status) => { Client.rpcFail (operation call) status run.world with out }

theorem requestOf_eq_none {call : KvCall} (h : requestOf call = none) : call = .stop := by
  cases call <;> simp [requestOf] at h ⊢

theorem requestOf_ne {call : KvCall} {req : Request} (h : requestOf call = some req) :
    call ≠ .stop := by
  rintro rfl
  cases h

/-- The client makes these RPCs and no others, and prints what they bring. -/
theorem perform_eq (stub : Stub World) (calls : List KvCall) (world : World) :
    Client.perform stub calls world =
      afterRpcs calls (printedAll (rpcCalls calls) (rpcs stub calls world).replies)
        (rpcs stub calls world) := by
  induction calls generalizing world with
  | nil => simp [Client.perform, rpcs, afterRpcs, printedAll, rpcCalls, farewell]
  | cons call calls ih =>
    cases hreq : requestOf call with
    | none =>
      obtain rfl := requestOf_eq_none hreq
      simp [Client.perform, Client.dispatch, rpcs, requestOf, afterRpcs, printedAll, rpcCalls,
        farewell, render, respLines, unlines]
    | some req =>
      have hne := requestOf_ne hreq
      have hfirst := dispatch_eq stub hreq world
      rcases hrpc : rpc stub req world with ⟨status | rep, world'⟩
      · rw [hrpc] at hfirst
        simp [Client.perform, hfirst, rpcs, hreq, hrpc, afterRpcs, Client.rpcFail,
          rpcCalls_cons hne, printedAll]
      · rw [hrpc] at hfirst
        simp only [Client.perform, hfirst, ih world', rpcs, hreq, hrpc, rpcCalls_cons hne,
          printedAll]
        cases hfailure : (rpcs stub calls world').failure with
        | none => simp [afterRpcs, hfailure, farewell, Ne.symm hne, String.append_assoc]
        | some failed => simp [afterRpcs, hfailure, Client.rpcFail]

/-- The call that failed comes right behind those that succeeded. -/
theorem failure_call {stub : Stub World} {calls : List KvCall} {world : World} {call : KvCall}
    {status : Status} (h : (rpcs stub calls world).failure = some (call, status)) :
    (rpcCalls calls)[(rpcs stub calls world).replies.length]? = some call := by
  induction calls generalizing world with
  | nil => cases h
  | cons c calls ih =>
    cases hreq : requestOf c with
    | none => simp [rpcs, hreq] at h
    | some req =>
      rw [rpcCalls_cons (requestOf_ne hreq)]
      rcases hrpc : rpc stub req world with ⟨status' | rep, world'⟩
      · obtain ⟨rfl, -⟩ : c = call ∧ status' = status := by simpa [rpcs, hreq, hrpc] using h
        simp [rpcs, hreq, hrpc]
      · simp only [rpcs, hreq, hrpc, List.length_cons, List.getElem?_cons_succ] at h ⊢
        exact ih h

/-! ## What the server makes of them -/

/-- What became of the calls in the log, and the answers to the RPCs that succeeded. All
were handled, or they broke off at one that was handled, or was not, and has no answer. -/
inductive Ended (m : KvMap) (log : List (Origin × Request)) (calls : List KvCall) :
    List KvResp → Bool → Prop
  | all : (ofClient .own log).map Request.call = rpcCalls calls →
      Ended m log calls (ownAnswers m log) true
  | unhandled {call : KvCall} {rest : List KvCall} :
      rpcCalls calls = (ofClient .own log).map Request.call ++ call :: rest →
      Ended m log calls (ownAnswers m log) false
  | unanswered {answers : List KvResp} {resp : KvResp} {rest : List KvCall} :
      rpcCalls calls = (ofClient .own log).map Request.call ++ rest →
      ownAnswers m log = answers ++ [resp] → Ended m log calls answers false

/-- The log from a request of the client on, others before it. -/
theorem ofClient_handled {before : List (Origin × Request)} (h : Others before) (req : Request)
    (log : List (Origin × Request)) :
    (ofClient .own (before ++ (.own, req) :: log)).map Request.call =
      req.call :: (ofClient .own log).map Request.call := by
  simp [h.ofClient_own, ofClient_cons]

theorem ownAnswers_handled {before : List (Origin × Request)} (h : Others before) (req : Request)
    (m : KvMap) (log : List (Origin × Request)) :
    ownAnswers m (before ++ (.own, req) :: log) =
      (apply (contents m (logCalls before)) req.call).1 ::
        ownAnswers (contents m (logCalls (before ++ [(.own, req)]))) log := by
  rw [ownAnswers_append, h.ownAnswers_eq, List.nil_append, ownAnswers]
  simp [logCalls, contents]

/-- An answered call before the rest. -/
theorem Ended.cons {m : KvMap} {before log : List (Origin × Request)} {req : Request}
    {calls : List KvCall} {answers : List KvResp} {complete : Bool} (hbefore : Others before)
    (hne : req.call ≠ .stop)
    (h : Ended (contents m (logCalls (before ++ [(.own, req)]))) log calls answers complete) :
    Ended m (before ++ (.own, req) :: log) (req.call :: calls)
      ((apply (contents m (logCalls before)) req.call).1 :: answers) complete := by
  have hclient := ofClient_handled hbefore req log
  have hanswers := ownAnswers_handled hbefore req m log
  cases h with
  | all hall =>
    rw [← hanswers]
    exact .all (by rw [hclient, rpcCalls_cons hne, hall])
  | unhandled hrest =>
    rw [← hanswers]
    exact .unhandled (by rw [hclient, rpcCalls_cons hne, hrest, List.cons_append])
  | unanswered hrest hlast =>
    have hbroken := hanswers.trans (congrArg (List.cons _) hlast)
    exact .unanswered (by rw [hclient, rpcCalls_cons hne, hrest, List.cons_append]) hbroken

/-- Others before the rest. -/
theorem Ended.others {m : KvMap} {before log : List (Origin × Request)} {calls : List KvCall}
    {answers : List KvResp} {complete : Bool} (hbefore : Others before)
    (h : Ended (contents m (logCalls before)) log calls answers complete) :
    Ended m (before ++ log) calls answers complete := by
  have hclient : ofClient .own (before ++ log) = ofClient .own log := by
    simp [hbefore.ofClient_own]
  have hanswers : ownAnswers m (before ++ log) =
      ownAnswers (contents m (logCalls before)) log := by
    rw [ownAnswers_append, hbefore.ownAnswers_eq, List.nil_append]
  cases h with
  | all hall =>
    rw [← hanswers]
    exact .all (hclient ▸ hall)
  | unhandled hrest =>
    rw [← hanswers]
    exact .unhandled (hclient ▸ hrest)
  | unanswered hrest hlast => exact .unanswered (hclient ▸ hrest) (hanswers.trans hlast)

theorem contents_logCalls (log log' : List (Origin × Request)) :
    contents ∅ (logCalls (log ++ log')) = contents (contents ∅ (logCalls log)) (logCalls log') := by
  simp [logCalls, contents]

def WellFormedLog (log : List (Origin × Request)) : Prop :=
  ∀ x ∈ log, WellFormed isWhitespace x.2.call

theorem WellFormedLog.handled {before log : List (Origin × Request)} {req : Request}
    (hbefore : Others before) (hreq : WellFormed isWhitespace req.call) (hlog : WellFormedLog log) :
    WellFormedLog (before ++ (.own, req) :: log) := by
  intro x hx
  rcases List.mem_append.mp hx with hx | hx
  · exact (hbefore x hx).2
  · rcases List.mem_cons.mp hx with rfl | hx
    · exact hreq
    · exact hlog x hx

/-- What the RPCs did to the log: each reply is printed as an answer of the server. -/
def Accounted (handled : World → List (Origin × Request)) (world : World) (calls : List KvCall)
    (run : RpcRun World) : Prop :=
  ∃ log answers, handled run.world = handled world ++ log ∧ WellFormedLog log ∧
    Ended (contents ∅ (logCalls (handled world))) log calls answers run.failure.isNone ∧
    answers.length = run.replies.length ∧
    printedAll (rpcCalls calls) run.replies = transcript answers

/-- The handler answers as the map does that the requests before it left. -/
theorem handle_storeAfter (log : List (Origin × Request)) (req : Request) :
    (ServiceImpl.handle (storeAfter log) req).1 = req.answer (contents ∅ (logCalls log)) := by
  have hspec := congrArg Prod.fst (specHandle_contents (storeAfter log) req)
  rw [contents_storeAfter] at hspec
  exact hspec.symm

/-- An RPC that succeeds, and the rest. -/
theorem Accounted.replied {stub : Stub World} {handled : World → List (Origin × Request)}
    (h : AtMostOnce stub handled) {req : Request} {calls : List KvCall} {world world' : World}
    {rep : Reply} (hreq : requestOf req.call = some req) (hwf : WellFormed isWhitespace req.call)
    (hrpc : rpc stub req world = (.ok rep, world'))
    (hlater : Accounted handled world' calls (rpcs stub calls world')) :
    Accounted handled world (req.call :: calls) (rpcs stub (req.call :: calls) world) := by
  have hne := requestOf_ne hreq
  obtain ⟨before, after, hbefore, hafter, hhandled, rfl⟩ := h.replied req world rep world' hrpc
  obtain ⟨log, answers, hlog, hlogwf, hended, hlength, hprinted⟩ := hlater
  have hrest : Ended (contents (contents ∅ (logCalls (handled world)))
      (logCalls (before ++ [(.own, req)]))) (after ++ log) calls answers
        (rpcs stub calls world').failure.isNone := by
    refine .others hafter ?_
    rw [hhandled] at hended
    simpa [contents_logCalls, logCalls, contents] using hended
  simp only [rpcs, hreq, hrpc]
  refine ⟨before ++ (.own, req) :: (after ++ log), _, ?_, ?_, .cons hbefore hne hrest, ?_, ?_⟩
  · rw [hlog, hhandled]
    simp
  · refine .handled hbefore hwf fun x hx => ?_
    rcases List.mem_append.mp hx with hx | hx
    · exact (hafter x hx).2
    · exact hlogwf x hx
  · simp [hlength]
  · rw [rpcCalls_cons hne, printedAll, handle_storeAfter, printed_answer hreq, hprinted,
      contents_logCalls, transcript_cons]

/-- An RPC that fails is the last one. -/
theorem Accounted.failed {stub : Stub World} {handled : World → List (Origin × Request)}
    (h : AtMostOnce stub handled) {req : Request} {world world' : World} {status : Status}
    (hreq : requestOf req.call = some req) (hwf : WellFormed isWhitespace req.call)
    (hrpc : rpc stub req world = (.error status, world')) (calls : List KvCall) :
    Accounted handled world (req.call :: calls) (rpcs stub (req.call :: calls) world) := by
  have hcalls := rpcCalls_cons (requestOf_ne hreq) calls
  have hprinted : ∀ cs : List KvCall, printedAll cs [] = transcript [] := by
    intro cs
    cases cs <;> rfl
  simp only [rpcs, hreq, hrpc]
  obtain ⟨before, after, hbefore, hafter, hhandled | hhandled⟩ :=
    h.failed req world status world' hrpc
  · have hended : Ended (contents ∅ (logCalls (handled world))) before (req.call :: calls)
        (ownAnswers (contents ∅ (logCalls (handled world))) before) false :=
      .unhandled (by rw [hbefore.ofClient_own, hcalls]; rfl)
    rw [hbefore.ownAnswers_eq] at hended
    exact ⟨before, [], hhandled, fun x hx => (hbefore x hx).2, hended, rfl, hprinted _⟩
  · refine ⟨before ++ (.own, req) :: after, [], by rw [← List.append_assoc]; exact hhandled,
      .handled hbefore hwf fun x hx => (hafter x hx).2, ?_, rfl, hprinted _⟩
    have hanswers := ownAnswers_handled hbefore req (contents ∅ (logCalls (handled world))) after
    rw [hafter.ownAnswers_eq, ← List.nil_append [_]] at hanswers
    have hown : rpcCalls (req.call :: calls) =
        (ofClient .own (before ++ (.own, req) :: after)).map Request.call ++ rpcCalls calls := by
      rw [ofClient_handled hbefore, hafter.ofClient_own, hcalls]
      rfl
    exact .unanswered hown hanswers

/-- A run of RPCs, whether they fail or not. -/
theorem rpcs_accounted {stub : Stub World} {handled : World → List (Origin × Request)}
    (h : AtMostOnce stub handled) {calls : List KvCall}
    (hwf : ∀ call ∈ calls, WellFormed isWhitespace call) (world : World) :
    Accounted handled world calls (rpcs stub calls world) := by
  induction calls generalizing world with
  | nil => exact ⟨[], [], by simp [rpcs], by simp [WellFormedLog], .all rfl, rfl, rfl⟩
  | cons call calls ih =>
    have hlater : ∀ c ∈ calls, WellFormed isWhitespace c := fun c hc => hwf c (by simp [hc])
    cases hreq : requestOf call with
    | none =>
      obtain rfl := requestOf_eq_none hreq
      exact ⟨[], [], by simp [rpcs, requestOf], by simp [WellFormedLog], .all (by simp [rpcCalls]),
        rfl, rfl⟩
    | some req =>
      obtain rfl := requestOf_call hreq
      have hcall := hwf req.call (by simp)
      rcases hrpc : rpc stub req world with ⟨status | rep, world'⟩
      · exact .failed h hreq hcall hrpc calls
      · exact .replied h hreq hcall hrpc (ih hlater world')

/-! ## What the runner hears -/

/-- Reading on and on yields the responses, and then never returns. -/
inductive Hears : List UInt8 → List KvResp → Prop
  | silence {stream : List UInt8} : (∀ fuel, KvResp.fromRead fuel stream = none) → Hears stream []
  | response {stream rest : List UInt8} {fuel : ℕ} {resp : KvResp} {resps : List KvResp} :
      KvResp.fromRead fuel stream = some (.ok resp, rest) → Hears rest resps →
      Hears stream (resp :: resps)

theorem hears_padded {resps : List KvResp} {ts : List String}
    (hwf : ∀ resp ∈ resps, WellFormedResp resp) (h : Padded (resps.flatMap respLines) ts)
    (hun : ∀ resp ∈ resps, Unterminated resp) :
    Hears (bytes (unlines ts)) (resps.map reread) := by
  induction resps generalizing ts with
  | nil => exact .silence (fromRead_blanks h)
  | cons resp resps ih =>
    have hresp : Unterminated resp := hun resp (by simp)
    rw [List.flatMap_cons] at h
    obtain ⟨block, rest, rfl, hrest, -, enough, hread⟩ := fromRead_padded (hwf resp (by simp)) h
    have hleft : Padded (resps.flatMap respLines) rest := by
      cases resp with
      | scan keyStart keyEnd entries =>
        rw [respLeftover, leftover_of_not_mem hresp] at hrest
        exact hrest
      | _ => exact hrest
    exact .response (hread enough le_rfl)
      (ih (fun r hr => hwf r (by simp [hr])) hleft fun r hr => hun r (by simp [hr]))

theorem Ended.wellFormed {m : KvMap} {log : List (Origin × Request)} {calls : List KvCall}
    {answers : List KvResp} {complete : Bool} (h : Ended m log calls answers complete)
    (hm : Clean m) (hlog : WellFormedLog log) : ∀ resp ∈ answers, WellFormedResp resp := by
  have hanswers := ownAnswers_wellFormed hm hlog
  intro resp hresp
  cases h with
  | all => exact hanswers resp hresp
  | unhandled => exact hanswers resp hresp
  | unanswered _ hlast => exact hanswers resp (by simp [hlast, hresp])

/-- What the client prints in all. -/
def allPrinted (calls : List KvCall) (answers : List KvResp) (run : RpcRun World) : List KvResp :=
  if run.failure = none then answers ++ farewell calls else answers

/-- However the RPCs fail and whatever others do, the client makes the RPCs of its calls up
to the first that fails. The calls were handled in order, each at most once, and what is
printed are the server's answers to those that succeeded. After a failure the one call in
doubt is the last, and the runner hears the other answers and no more. -/
theorem failing_rpcs {stub : Stub World} {handled : World → List (Origin × Request)}
    (h : AtMostOnce stub handled) {world : World} (hstart : Others (handled world))
    {calls : List KvCall} (hwf : ∀ call ∈ calls, WellFormed isWhitespace call) :
    ∃ answers : List KvResp, answers.length = (rpcs stub calls world).replies.length ∧
      Ended ∅ (handled (rpcs stub calls world).world) calls answers
        (rpcs stub calls world).failure.isNone ∧
      (Client.main stub (written calls) world).world = (rpcs stub calls world).world ∧
      (Client.main stub (written calls) world).out =
        transcript (allPrinted calls answers (rpcs stub calls world)) ∧
      ((rpcs stub calls world).failure = none →
        (Client.main stub (written calls) world).flow = .exit 0 ∧
        (Client.main stub (written calls) world).err = "") ∧
      (∀ call status, (rpcs stub calls world).failure = some (call, status) →
        (rpcCalls calls)[answers.length]? = some call ∧
        (Client.main stub (written calls) world).flow = .exit 2 ∧
        (Client.main stub (written calls) world).err = operation call ++
          " failed with error code: " ++ toString status.errorCode ++ ", message: " ++
          status.errorMessage ++ "\n") ∧
      ((∀ resp ∈ answers, Unterminated resp) →
        Hears (bytes (Client.main stub (written calls) world).out)
          ((allPrinted calls answers (rpcs stub calls world)).map reread)) := by
  have hlines := (calls_round_trip hwf).2.1 World stub world
  obtain ⟨log, answers, hlog, hlogwf, hended, hlength, hprinted⟩ := rpcs_accounted h hwf world
  have hall : Ended ∅ (handled world ++ log) calls answers
      (rpcs stub calls world).failure.isNone := .others hstart hended
  have hanswers := hended.wellFormed
    (clean_contents clean_empty (List.forall_mem_map.mpr fun x hx => (hstart x hx).2)) hlogwf
  have hperform := perform_eq stub calls world
  rw [hprinted] at hperform
  have hcall : ∀ call status, (rpcs stub calls world).failure = some (call, status) →
      (rpcCalls calls)[answers.length]? = some call := fun _ _ hfailure =>
    hlength ▸ failure_call hfailure
  generalize rpcs stub calls world = run at hlog hended hlength hprinted hall hperform hcall ⊢
  have hmain : Client.main stub (written calls) world =
      { afterRpcs calls (transcript answers) run with
        flow := if run.failure = none then .exit 0 else .exit 2 } := by
    rw [Client.main, hlines, hperform]
    cases hfailure : run.failure with
    | none => by_cases hstop : .stop ∈ calls <;> simp [afterRpcs, hfailure, hstop]
    | some failed => simp [afterRpcs, hfailure, Client.rpcFail]
  have hout : (Client.main stub (written calls) world).out =
      transcript (allPrinted calls answers run) := by
    rw [hmain]
    cases hfailure : run.failure <;>
      simp [afterRpcs, allPrinted, hfailure, transcript, List.flatMap_append, unlines_append]
  refine ⟨answers, hlength, hlog ▸ hall, ?_, hout, fun hfailure => ?_,
    fun call status hfailure => ⟨hcall call status hfailure, ?_⟩, fun hun => ?_⟩
  · rw [hmain]
    cases hfailure : run.failure <;> simp [afterRpcs, hfailure, Client.rpcFail]
  · simp [hmain, afterRpcs, hfailure]
  · simp [hmain, afterRpcs, hfailure, Client.rpcFail]
  · have hboth : ∀ resp ∈ allPrinted calls answers run,
        WellFormedResp resp ∧ Unterminated resp := by
      intro resp hresp
      have hcases : resp ∈ answers ∨ resp = .stop := by
        unfold allPrinted farewell at hresp
        split_ifs at hresp <;> simp_all
      rcases hcases with hresp | rfl
      · exact ⟨hanswers resp hresp, hun resp hresp⟩
      · exact ⟨fun w hw => absurd hw (by simp [respArgs]), trivial⟩
    rw [hout]
    exact hears_padded (fun resp hresp => (hboth resp hresp).1) (.refl _)
      fun resp hresp => (hboth resp hresp).2

/-! ## A reply that is lost -/

/-- A server that handles every request, but loses some of the replies. -/
def lossyStub (lost : Request → Bool) : Stub (List (Origin × Request)) where
  put request log := (if lost (.put request) then .error ⟨14, "Socket closed"⟩
    else .ok (ServiceImpl.put (storeAfter log) request).1, log ++ [(.own, .put request)])
  swap request log := (if lost (.swap request) then .error ⟨14, "Socket closed"⟩
    else .ok (ServiceImpl.swap (storeAfter log) request).1, log ++ [(.own, .swap request)])
  get request log := (if lost (.get request) then .error ⟨14, "Socket closed"⟩
    else .ok (ServiceImpl.get (storeAfter log) request).1, log ++ [(.own, .get request)])
  scan request log := (if lost (.scan request) then .error ⟨14, "Socket closed"⟩
    else .ok (ServiceImpl.scan (storeAfter log) request).1, log ++ [(.own, .scan request)])
  delete request log := (if lost (.delete request) then .error ⟨14, "Socket closed"⟩
    else .ok (ServiceImpl.delete (storeAfter log) request).1, log ++ [(.own, .delete request)])

theorem rpc_lossyStub (lost : Request → Bool) (req : Request) (log : List (Origin × Request)) :
    rpc (lossyStub lost) req log =
      (if lost req then .error ⟨14, "Socket closed"⟩
        else .ok (ServiceImpl.handle (storeAfter log) req).1, log ++ [(.own, req)]) := by
  cases req <;> simp only [rpc, lossyStub, ServiceImpl.handle, Prod.map] <;> split_ifs <;> rfl

theorem others_nil : Others [] := fun _ hx => absurd hx List.not_mem_nil

theorem atMostOnce_lossyStub (lost : Request → Bool) : AtMostOnce (lossyStub lost) id where
  replied := by
    intro req log rep log' hrpc
    rw [rpc_lossyStub] at hrpc
    split_ifs at hrpc
    · cases hrpc
    · cases hrpc
      exact ⟨[], [], others_nil, others_nil, by simp, by simp⟩
  failed := by
    intro req log status log' hrpc
    rw [rpc_lossyStub] at hrpc
    split_ifs at hrpc
    · cases hrpc
      exact ⟨[], [], others_nil, others_nil, .inr (by simp)⟩
    · cases hrpc

/-- The calls of a client whose Delete gets no reply. -/
def lostDelete : List KvCall := [.swap "k" "v", .delete "k", .get "k"]

/-- The Delete was handled, and nobody hears of it; another client had put the key. -/
theorem failing_rpcs_lostDelete : ∃ answers : List KvResp, answers.length = 1 ∧
    Ended ∅ (Client.main (lossyStub (· = .delete ⟨"k"⟩)) (written lostDelete)
      [(.other, .put ⟨"k", "u"⟩)]).world lostDelete answers false ∧
    (Client.main (lossyStub (· = .delete ⟨"k"⟩)) (written lostDelete)
      [(.other, .put ⟨"k", "u"⟩)]).out = transcript answers ∧
    (Client.main (lossyStub (· = .delete ⟨"k"⟩)) (written lostDelete)
      [(.other, .put ⟨"k", "u"⟩)]).flow = .exit 2 := by
  have hstart : Others (id [(Origin.other, Request.put ⟨"k", "u"⟩)]) := by
    refine List.forall_mem_singleton.mpr ⟨rfl, ?_⟩
    unfold WellFormed
    decide
  have hwf : ∀ call ∈ lostDelete, WellFormed isWhitespace call := by
    unfold WellFormed
    decide
  have hfailure : (rpcs (lossyStub (· = .delete ⟨"k"⟩)) lostDelete
      [(.other, .put ⟨"k", "u"⟩)]).failure = some (.delete "k", ⟨14, "Socket closed"⟩) := rfl
  have hreplies : (rpcs (lossyStub (· = .delete ⟨"k"⟩)) lostDelete
      [(.other, .put ⟨"k", "u"⟩)]).replies.length = 1 := rfl
  obtain ⟨answers, hlength, hended, hworld, hout, -, hfailed, -⟩ :=
    failing_rpcs (atMostOnce_lossyStub (· = .delete ⟨"k"⟩)) hstart hwf
  rw [hfailure, ← hworld] at hended
  rw [allPrinted, hfailure] at hout
  exact ⟨answers, hlength.trans hreplies, hended, hout, (hfailed _ _ hfailure).2.1⟩

end MadKV.Wire
