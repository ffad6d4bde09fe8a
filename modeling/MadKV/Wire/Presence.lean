import MadKV.Wire.Driver

/-!
# Presence on the wire

An absent value is printed as null, and so is the value null. A Get or a Swap is
therefore answered with no value exactly when the key was absent or held the
text null, and with the value the key held otherwise, whatever else goes wrong
between the runner and its clients.
-/

namespace MadKV.Wire

open Runner Support Spec Store

/-! ## Contents without whitespace -/

/-- All keys and values are words. -/
def Clean (m : KvMap) : Prop :=
  ∀ key value, m.lookup key = some value → EntryTokens (key, value)

theorem clean_empty : Clean ∅ := by
  intro key value h
  simp at h

theorem Clean.apply {m : KvMap} {call : KvCall} (hm : Clean m)
    (hcall : WellFormed isWhitespace call) : Clean (apply m call).2 := by
  intro key value h
  rw [lookup_apply] at h
  have hupdate : ∀ k v, call.updateInfo = some (k, some v) → EntryTokens (k, v) := by
    intro k v hu
    cases call <;> simp_all [KvCall.updateInfo, WellFormed, callWords, EntryTokens]
  cases hu : call.updateInfo with
  | none => exact hm key value (by simpa [hu] using h)
  | some update =>
    obtain ⟨k, v⟩ := update
    by_cases hk : key = k
    · subst hk
      exact hupdate key value (by simpa [hu] using h)
    · exact hm key value (by simpa [hu, hk] using h)

theorem Clean.wellFormedResp {m : KvMap} {call : KvCall} (hm : Clean m)
    (hcall : WellFormed isWhitespace call) : WellFormedResp (Spec.apply m call).1 := by
  have hvalue : ∀ key, ∀ v ∈ (m.lookup key).toList, Token isWhitespace v.toList := by
    intro key v hv
    exact (hm key v (by simpa using hv)).2
  have hentries : ∀ lo hi, ∀ e ∈ between m lo hi, EntryTokens e := fun lo hi e he =>
    hm e.1 e.2 (mem_between.mp he).1
  cases call with
  | scan lo hi =>
    simp only [WellFormed, callWords, List.mem_cons, List.not_mem_nil, or_false,
      forall_eq_or_imp, forall_eq] at hcall
    intro w hw
    simp only [Spec.apply, respArgs, List.mem_cons, List.mem_flatMap, List.not_mem_nil,
      or_false] at hw
    rcases hw with rfl | rfl | ⟨e, he, rfl | rfl⟩
    · exact hcall.2.1
    · exact hcall.2.2
    · exact (hentries lo hi e he).1
    · exact (hentries lo hi e he).2
  | swap key value =>
    have hkey : Token isWhitespace key.toList := hcall key (by simp [callWords])
    simpa [WellFormedResp, respArgs, Spec.apply, hkey] using hvalue key
  | get key =>
    have hkey : Token isWhitespace key.toList := hcall key (by simp [callWords])
    simpa [WellFormedResp, respArgs, Spec.apply, hkey] using hvalue key
  | _ => simp_all [WellFormed, callWords, WellFormedResp, respArgs, Spec.apply]

/-! ## What the driver has yet to read -/

/-- The text in the pipe: the blocks of the unread answers, or the rest of a Scan
block whose end was seen too early, some of it perhaps already taken for Stop. -/
inductive Pipe (unread : List KvResp) : List KvResp → List UInt8 → Prop
  | blocks {ts : List String} : Padded (unread.flatMap respLines) ts →
      Pipe unread [] (bytes (unlines ts))
  | leftover {stops : List KvResp} {es : List (String × String)} {more ts : List String} :
      (∀ e ∈ es, EntryTokens e) → Padded (es.map entryLine ++ "SCAN END" :: more) ts →
      Pipe unread stops (bytes (unlines ts))

theorem Pipe.print {unread stops : List KvResp} {out : List UInt8} (h : Pipe unread stops out)
    (resp : KvResp) : Pipe (unread ++ [resp]) stops (out ++ bytes (render resp)) := by
  have hbytes : ∀ ts, bytes (unlines ts) ++ bytes (render resp) =
      bytes (unlines (ts ++ respLines resp)) := by
    intro ts
    simp [bytes, render, unlines_append]
  cases h with
  | blocks hpad =>
    rw [hbytes]
    refine .blocks ?_
    rw [List.flatMap_append, List.flatMap_singleton]
    exact hpad.append (.refl _)
  | leftover hes hpad =>
    rw [hbytes]
    have hpad' := hpad.append (.refl (respLines resp))
    rw [List.append_assoc, List.cons_append] at hpad'
    exact .leftover hes hpad'

theorem leftover_cases (es : List (String × String)) (more : List String) :
    leftover es more = more ∨
      ∃ es' : List (String × String), (∀ e ∈ es', e ∈ es) ∧
        leftover es more = es'.map entryLine ++ "SCAN END" :: more := by
  induction es with
  | nil => exact .inl rfl
  | cons e es ih =>
    by_cases he : e = terminator
    · exact .inr ⟨es, fun e' he' => by simp [he'], by rw [leftover, if_pos he]⟩
    · rw [leftover, if_neg he]
      rcases ih with heq | ⟨es', hsub, heq⟩
      · exact .inl heq
      · exact .inr ⟨es', fun e' he' => by simp [hsub e' he'], heq⟩

/-- Two words alone are no Get and no Swap. -/
theorem fromLine_two {buffer : List Char} {a b : String} (h : splitWhitespace buffer = [a, b])
    (fuel : ℕ) (reader : List UInt8) :
    ∃ result, KvResp.fromLine fuel buffer reader = some (result, reader) ∧
      (a = "STOP" ∧ result = .ok .stop ∨ ∃ err, result = .error err) := by
  have hsegs : KvResp.getSegsOfLine buffer = [a, b] := h
  simp only [KvResp.fromLine, hsegs]
  by_cases hstop : a = "STOP"
  · subst hstop
    exact ⟨_, rfl, .inl ⟨rfl, rfl⟩⟩
  · simp only [hstop, ↓reduceIte]
    split_ifs <;> exact ⟨_, rfl, .inr ⟨_, rfl⟩⟩

/-- So reading one of the lines left over gives Stop or an error. -/
theorem fromRead_two {l a b : String} {ls ts : List String} (h : Padded (l :: ls) ts)
    (hnl : '\n' ∉ l.toList) (hwords : ∀ gap after : List Char, Gap isWhitespace gap →
      Gap isWhitespace after → splitWhitespace (gap ++ (l.toList ++ after)) = [a, b]) :
    ∃ rest fuel result, Padded ls rest ∧
      (a = "STOP" ∧ result = .ok .stop ∨ ∃ err, result = .error err) ∧
      KvResp.fromRead fuel (bytes (unlines ts)) = some (result, bytes (unlines rest)) := by
  have hne : ¬ Gap isWhitespace l.toList := by
    intro hgap
    have hnil := hwords [] [] gap_nil gap_nil
    rw [List.nil_append, List.append_nil, splitWhitespace, words_gap hgap] at hnil
    simp at hnil
  obtain ⟨blanks, rest, rfl, _, hrest, gap, hgap, hread⟩ := readNextLine_padded h hnl hne
  obtain ⟨result, hline, hresult⟩ := fromLine_two (hwords gap ['\n'] hgap (by decide))
    (blanks.length + 1) (bytes (unlines rest))
  refine ⟨rest, blanks.length + 1, result, hrest, hresult, ?_⟩
  rw [KvResp.fromRead, hread _ (Nat.lt_succ_self _)]
  exact hline

/-- Reading takes the next answer off the pipe, or finds Stop or nonsense in what
is left of a Scan block. -/
theorem Pipe.read {unread stops : List KvResp} {out : List UInt8} {fuel : ℕ}
    {result : Except RunnerError KvResp × List UInt8} (h : Pipe unread stops out)
    (hwf : ∀ resp ∈ unread, WellFormedResp resp) (hread : KvResp.fromRead fuel out = some result) :
    (∃ resp later, unread = resp :: later ∧ stops = [] ∧ result.1 = .ok (reread resp) ∧
      Pipe later [] result.2) ∨
    (result.1 = .ok .stop ∧ Pipe unread (stops ++ [.stop]) result.2) ∨
    ∃ err, result.1 = .error err := by
  cases h with
  | @blocks ts hpad =>
    cases unread with
    | nil => rw [fromRead_blanks hpad] at hread; cases hread
    | cons resp later =>
      rw [List.flatMap_cons] at hpad
      have hresp : WellFormedResp resp := hwf resp (by simp)
      obtain ⟨block, rest, rfl, hrest, _, enough, hread'⟩ := fromRead_padded hresp hpad
      obtain rfl := KvResp.fromRead_det (hread' enough le_rfl) hread
      refine .inl ⟨resp, later, rfl, rfl, rfl, ?_⟩
      cases resp with
      | scan keyStart keyEnd entries =>
        rcases leftover_cases entries (later.flatMap respLines) with heq | ⟨es, hsub, heq⟩
        · rw [respLeftover, heq] at hrest
          exact .blocks hrest
        · rw [respLeftover, heq] at hrest
          exact .leftover (fun e he => hresp.entries e (hsub e he)) hrest
      | _ => exact .blocks hrest
  | @leftover _ es more ts hes hpad =>
    cases es with
    | nil =>
      -- the end of the block is no response
      have hwords : ∀ gap after : List Char, Gap isWhitespace gap → Gap isWhitespace after →
          splitWhitespace (gap ++ ("SCAN END".toList ++ after)) = ["SCAN", "END"] := by
        intro gap after hgap hafter
        have hends : ∀ w ∈ ["SCAN", "END"], Token isWhitespace w.toList := by decide
        exact splitWhitespace_line hends hgap hafter
      obtain ⟨rest, fuel', result', _, hresult, hread'⟩ := fromRead_two hpad (by decide) hwords
      obtain rfl := KvResp.fromRead_det hread' hread
      rcases hresult with ⟨hstop, _⟩ | herr
      · exact absurd hstop (by decide)
      · exact .inr (.inr herr)
    | cons e es =>
      have he : EntryTokens e := hes e (by simp)
      obtain ⟨rest, fuel', result', hrest, hresult, hread'⟩ :=
        fromRead_two hpad (newline_not_mem_entryLine he) fun gap after hgap hafter =>
          splitWhitespace_entryLine he hgap hafter
      obtain rfl := KvResp.fromRead_det hread' hread
      rcases hresult with ⟨_, rfl⟩ | herr
      · have hes' : ∀ e' ∈ es, EntryTokens e' := fun e' he' => hes e' (by simp [he'])
        exact .inr (.inl ⟨rfl, .leftover hes' hrest⟩)
      · exact .inr (.inr herr)

/-! ## One client process -/

/-- What holds between a driver and its process. -/
structure ClientProc.Inv (p : ClientProc) : Prop where
  executed : p.before.length ≤ p.calls.length
  stdin_eq : p.stdin = (p.calls.drop p.before.length).map callLine
  wellFormed : ∀ call ∈ p.calls, WellFormed isWhitespace call
  clean : ∀ m ∈ p.before, Clean m
  /-- The responses are the first answers, and after a Scan gone wrong only Stop. -/
  stream : ∃ passed unread stops, p.answers = passed ++ unread ∧
    p.responses = passed.map reread ++ stops ∧ (∀ r ∈ stops, r = .stop) ∧
    (p.driving = true → Pipe unread stops p.stdout)

namespace ClientProc

theorem inv_new : new.Inv where
  executed := le_rfl
  stdin_eq := rfl
  wellFormed := by simp [new]
  clean := by simp [new]
  stream := ⟨[], [], [], rfl, rfl, by simp, fun _ => @Pipe.blocks [] [] .nil⟩

variable {p : ClientProc}

theorem Inv.write (h : p.Inv) {call : KvCall} (hcall : WellFormed isWhitespace call) :
    (p.write call).Inv where
  executed := by
    have hle := h.executed
    simp [ClientProc.write]
    omega
  stdin_eq := by
    rw [ClientProc.write, getlines_intoWrite hcall]
    simp [h.stdin_eq, List.drop_append_of_le_length h.executed]
  wellFormed := by
    intro c hc
    rcases List.mem_append.mp hc with hc | hc
    · exact h.wellFormed c hc
    · exact List.mem_singleton.mp hc ▸ hcall
  clean := h.clean
  stream := by
    rw [answers, operations_write h.executed]
    exact h.stream

/-- The process has a call to execute when it has a line. -/
theorem Inv.next_call (h : p.Inv) {line : String} {rest : List String}
    (hline : p.stdin = line :: rest) : ∃ call, p.calls[p.before.length]? = some call ∧
      WellFormed isWhitespace call ∧ line = callLine call ∧
      rest = (p.calls.drop (p.before.length + 1)).map callLine := by
  rw [h.stdin_eq] at hline
  cases hd : p.calls.drop p.before.length with
  | nil => simp [hd] at hline
  | cons call later =>
    rw [hd, List.map_cons, List.cons.injEq] at hline
    have hget : p.calls[p.before.length]? = some call := by
      rw [← List.head?_drop, hd, List.head?_cons]
    refine ⟨call, hget, h.wellFormed call (List.mem_of_getElem? hget), hline.1.symm, ?_⟩
    rw [← hline.2, ← List.tail_drop, hd, List.tail_cons]

theorem Inv.execute (h : p.Inv) {line : String} {rest : List String} {store : InMemoryKVStore}
    (hstore : Clean store.contents) (hline : p.stdin = line :: rest) :
    (p.execute rest store.contents (Client.runLine serverStub line store)).Inv := by
  obtain ⟨call, hget, hwf, rfl, rfl⟩ := h.next_call hline
  obtain ⟨hout, _, _, _⟩ := Client.runLine_call (splitBySpace_callLine hwf) store
  have hlt : p.before.length < p.calls.length := (List.getElem?_eq_some_iff.mp hget).1
  obtain ⟨passed, unread, stops, hanswers, hresps, hstops, hpipe⟩ := h.stream
  refine ⟨?_, ?_, h.wellFormed, ?_, passed, unread ++ [(apply store.contents call).1], stops, ?_,
    hresps, hstops, fun hdriving => ?_⟩
  · simpa [ClientProc.execute] using hlt
  · simp [ClientProc.execute]
  · intro m hm
    rcases List.mem_append.mp hm with hm | hm
    · exact h.clean m hm
    · exact List.mem_singleton.mp hm ▸ hstore
  · rw [answers, operations_execute hget, List.map_append, ← answers, hanswers, List.append_assoc]
    rfl
  · rw [ClientProc.execute, hout]
    exact (hpipe hdriving).print _

theorem Inv.answers_wellFormed (h : p.Inv) : ∀ resp ∈ p.answers, WellFormedResp resp := by
  intro resp hresp
  obtain ⟨op, hop, rfl⟩ := List.mem_map.mp hresp
  obtain ⟨hcall, hm⟩ := List.of_mem_zip hop
  exact (h.clean _ hm).wellFormedResp (h.wellFormed _ hcall)

theorem Inv.read (h : p.Inv) (hdriving : p.driving = true) {fuel : ℕ}
    {result : Except RunnerError KvResp × List UInt8}
    (hread : KvResp.fromRead fuel p.stdout = some result) : (p.read result).Inv := by
  obtain ⟨passed, unread, stops, hanswers, hresps, hstops, hpipe⟩ := h.stream
  have hwf : ∀ resp ∈ unread, WellFormedResp resp := fun resp hresp =>
    h.answers_wellFormed resp (by simp [hanswers, hresp])
  obtain ⟨outcome, rest⟩ := result
  rcases (hpipe hdriving).read hwf hread with
    ⟨resp, later, rfl, rfl, rfl, hlater⟩ | ⟨rfl, hleft⟩ | ⟨err, rfl⟩
  · refine ⟨h.executed, h.stdin_eq, h.wellFormed, h.clean, passed ++ [resp], later, [], ?_, ?_, ?_,
      fun _ => hlater⟩
    · change p.answers = _
      rw [hanswers, List.append_assoc, List.singleton_append]
    · simp [ClientProc.read, hresps]
    · simp
  · refine ⟨h.executed, h.stdin_eq, h.wellFormed, h.clean, passed, unread, stops ++ [.stop],
      hanswers, ?_, ?_, fun _ => hleft⟩
    · simp [ClientProc.read, hresps]
    · intro r hr
      rcases List.mem_append.mp hr with hr | hr
      · exact hstops r hr
      · exact List.mem_singleton.mp hr
  · exact ⟨h.executed, h.stdin_eq, h.wellFormed, h.clean, passed, unread, stops, hanswers, hresps,
      hstops, fun hd => absurd hd (by simp [ClientProc.read])⟩

/-- A response is the answer to the operation it stands for, as read back, or Stop. -/
theorem Inv.response (h : p.Inv) {k : ℕ} {resp : KvResp} (hresp : p.responses[k]? = some resp) :
    resp = .stop ∨ ∃ op, p.operations[k]? = some op ∧ resp = reread (apply op.2 op.1).1 := by
  obtain ⟨passed, unread, stops, hanswers, hresps, hstops, _⟩ := h.stream
  rw [hresps] at hresp
  rcases Nat.lt_or_ge k passed.length with hlt | hge
  · rw [List.getElem?_append_left (by simpa using hlt), List.getElem?_map] at hresp
    obtain ⟨answer, hanswer, rfl⟩ := Option.map_eq_some_iff.mp hresp
    have hop : p.answers[k]? = some answer := by
      rw [hanswers, List.getElem?_append_left hlt, hanswer]
    rw [answers, List.getElem?_map] at hop
    obtain ⟨op, hget, rfl⟩ := Option.map_eq_some_iff.mp hop
    exact .inr ⟨op, hget, rfl⟩
  · rw [List.getElem?_append_right (by simpa using hge)] at hresp
    exact .inl (hstops resp (List.mem_of_getElem? hresp))

end ClientProc

/-! ## Whole runs -/

section

variable {ι : Type*} [DecidableEq ι] {s s' : Session ι}

structure Session.Inv (s : Session ι) : Prop where
  clean : Clean s.store.contents
  procs : ∀ i, (s.procs i).Inv

theorem Session.Inv.update (h : s.Inv) (i : ι) {p : ClientProc} (hp : p.Inv) :
    (s.update i p).Inv where
  clean := h.clean
  procs := by
    intro j
    by_cases hj : j = i
    · subst hj
      simpa [Session.update] using hp
    · simpa [Session.update, hj] using h.procs j

theorem Step.inv (h : Step s s') (hs : s.Inv) : s'.Inv := by
  cases h with
  | write _ _ hcall => exact hs.update _ ((hs.procs _).write hcall)
  | @execute i line rest _ hline =>
    obtain ⟨call, _, hwf, rfl, _⟩ := (hs.procs i).next_call hline
    obtain ⟨_, _, _, hworld⟩ := Client.runLine_call (splitBySpace_callLine hwf) s.store
    have hupdate := hs.update i ((hs.procs i).execute hs.clean hline)
    exact ⟨hworld ▸ hs.clean.apply hwf, hupdate.procs⟩
  | read hdriving _ hread => exact hs.update _ ((hs.procs _).read hdriving hread)
  | @exit i =>
    obtain ⟨hle, hstdin, hwf, hclean, hstream⟩ := hs.procs i
    exact hs.update i ⟨hle, hstdin, hwf, hclean, hstream⟩
  | @hangUp i =>
    obtain ⟨hle, hstdin, hwf, hclean, passed, unread, stops, hanswers, hresps, hstops, _⟩ :=
      hs.procs i
    exact hs.update i ⟨hle, hstdin, hwf, hclean, passed, unread, stops, hanswers, hresps, hstops,
      fun hd => absurd hd (by simp)⟩
  | @request request hwf =>
    have hstore : (apply s.store.contents request.call).2 =
        (ServiceImpl.handle s.store request).2.contents :=
      congrArg Prod.snd (specHandle_contents s.store request)
    exact ⟨hstore ▸ hs.clean.apply hwf, hs.procs⟩

theorem Reachable.inv (h : Reachable s) : s.Inv := by
  induction h with
  | new => exact ⟨by simpa using clean_empty, fun _ => ClientProc.inv_new⟩
  | step _ hstep ih => exact hstep.inv ih

/-- Nothing is under way between the driver and its process. -/
structure ClientProc.Idle (p : ClientProc) : Prop where
  running : p.running = true
  driving : p.driving = true
  waiting : p.waiting = false
  stdin : p.stdin = []
  stdout : p.stdout = []
  executed : p.before.length = p.calls.length

theorem ClientProc.idle_new : new.Idle := ⟨rfl, rfl, rfl, rfl, rfl, rfl⟩

/-- An idle client executes a call and passes on the answer, and is idle again. -/
theorem Reachable.round (h : Reachable s) (i : ι) (hidle : (s.procs i).Idle) {call : KvCall}
    (hcall : WellFormed isWhitespace call) (hstop : call ≠ .stop)
    (hun : Unterminated (apply s.store.contents call).1) :
    ∃ s', Reachable s' ∧ (s'.procs i).Idle ∧
      s'.store.contents = (apply s.store.contents call).2 ∧
      (s'.procs i).operations = (s.procs i).operations ++ [(call, s.store.contents)] ∧
      (s'.procs i).responses =
        (s.procs i).responses ++ [reread (apply s.store.contents call).1] := by
  have hexecuted := hidle.executed
  obtain ⟨hrunning, hdriving, hwaiting, hstdin, hstdout, _⟩ := hidle
  obtain ⟨hout, _, hflow, hworld⟩ := Client.runLine_call (splitBySpace_callLine hcall) s.store
  -- the call is written
  let p₁ := (s.procs i).write call
  let s₁ := s.update i p₁
  have h₁ : Reachable s₁ := h.step (.write hdriving hwaiting hcall)
  have hproc₁ : s₁.procs i = p₁ := s.update_self i p₁
  -- the process executes it
  let done := Client.runLine serverStub (callLine call) s.store
  let p₂ := p₁.execute [] s.store.contents done
  let s₂ : Session ι := { s₁.update i p₂ with store := done.world }
  have hline : p₁.stdin = [callLine call] := by
    simp [p₁, ClientProc.write, hstdin, getlines_intoWrite hcall]
  have h₂ : Reachable s₂ := by
    have hstep := @Step.execute ι _ s₁ i (callLine call) []
      (by rw [hproc₁]; exact hrunning) (by rw [hproc₁, hline])
    rw [hproc₁] at hstep
    exact h₁.step hstep
  have hproc₂ : s₂.procs i = p₂ := s₁.update_self i p₂
  -- the driver reads the answer
  have hstdout : p₂.stdout = bytes (render (apply s.store.contents call).1) := by
    simp [p₂, p₁, ClientProc.execute, ClientProc.write, hstdout, done, hout]
  obtain ⟨fuel, hread⟩ := fromRead_render (h.inv.clean.wellFormedResp hcall) hun
  have h₃ : Reachable
      (s₂.update i (p₂.read (.ok (reread (apply s.store.contents call).1), []))) := by
    have hstep := @Step.read ι _ s₂ i fuel _ (by rw [hproc₂]; exact hdriving)
      (by rw [hproc₂]; rfl) (by rw [hproc₂, hstdout]; exact hread)
    rw [hproc₂] at hstep
    exact h₂.step hstep
  refine ⟨_, h₃, ?_, hworld, ?_, ?_⟩
  · rw [Session.update_self]
    refine ⟨?_, hdriving, rfl, rfl, rfl, ?_⟩
    · simp [ClientProc.read, p₂, ClientProc.execute, done, hflow, hstop]
    · simp [ClientProc.read, p₂, p₁, ClientProc.execute, ClientProc.write, hexecuted]
  · have hget : p₁.calls[p₁.before.length]? = some call := by
      simp [p₁, ClientProc.write, hexecuted]
    rw [Session.update_self]
    change p₂.operations = _
    rw [ClientProc.operations_execute hget, ClientProc.operations_write hexecuted.le]
  · rw [Session.update_self]
    rfl

theorem reread_eq_get {m : KvMap} {call : KvCall} {key : String} {value : Option String}
    (h : reread (apply m call).1 = .get key value) :
    call = .get key ∧ value = (m.lookup key).filter (· ≠ "null") := by
  cases call with
  | get k =>
    obtain ⟨rfl, rfl⟩ : k = key ∧ (m.lookup k).filter (· ≠ "null") = value := by
      simpa [apply, reread] using h
    exact ⟨rfl, rfl⟩
  | _ => cases h

theorem reread_eq_swap {m : KvMap} {call : KvCall} {key : String} {oldValue : Option String}
    (h : reread (apply m call).1 = .swap key oldValue) :
    (∃ value, call = .swap key value) ∧ oldValue = (m.lookup key).filter (· ≠ "null") := by
  cases call with
  | swap k value =>
    obtain ⟨rfl, rfl⟩ : k = key ∧ (m.lookup k).filter (· ≠ "null") = oldValue := by
      simpa [apply, reread] using h
    exact ⟨⟨value, rfl⟩, rfl⟩
  | _ => cases h

/-- The values that null can stand for. -/
theorem filter_null (m : KvMap) (key : String) :
    ((m.lookup key).filter (· ≠ "null") = none ↔ key ∉ m ∨ m.lookup key = some "null") ∧
      ∀ v, (m.lookup key).filter (· ≠ "null") = some v → m.lookup key = some v := by
  constructor
  · rw [← Finmap.lookup_eq_none, Option.filter_eq_none_iff]
    cases m.lookup key <;> simp
  · intro v hv
    exact (Option.filter_eq_some_iff.mp hv).1

/-- A Get or a Swap is answered with no value exactly when the key was absent or
held the text null, and otherwise with the value it held. -/
theorem presence_up_to_null (h : Reachable s) (i : ι) (k : ℕ) :
    (∀ key value, (s.procs i).responses[k]? = some (.get key value) →
      ∃ m, (s.procs i).operations[k]? = some (.get key, m) ∧
        (value = none ↔ key ∉ m ∨ m.lookup key = some "null") ∧
        ∀ v, value = some v → m.lookup key = some v) ∧
    (∀ key oldValue, (s.procs i).responses[k]? = some (.swap key oldValue) →
      ∃ value m, (s.procs i).operations[k]? = some (.swap key value, m) ∧
        (oldValue = none ↔ key ∉ m ∨ m.lookup key = some "null") ∧
        ∀ v, oldValue = some v → m.lookup key = some v) := by
  refine ⟨fun key value hresp => ?_, fun key oldValue hresp => ?_⟩
  · obtain hstop | ⟨op, hop, hanswer⟩ := (h.inv.procs i).response hresp
    · cases hstop
    · obtain ⟨hcall, rfl⟩ := reread_eq_get hanswer.symm
      exact ⟨op.2, hcall ▸ hop, filter_null op.2 key⟩
  · obtain hstop | ⟨op, hop, hanswer⟩ := (h.inv.procs i).response hresp
    · cases hstop
    · obtain ⟨⟨value, hcall⟩, rfl⟩ := reread_eq_swap hanswer.symm
      exact ⟨value, op.2, hcall ▸ hop, filter_null op.2 key⟩

end

/-- A client that stores a value and gets it back. -/
theorem reachable_putGet {key value : String} (hkey : Token isWhitespace key.toList)
    (hvalue : Token isWhitespace value.toList) :
    ∃ s : Session Unit, Reachable s ∧
      (s.procs ()).operations = [(.put key value, ∅), (.get key, Finmap.insert key value ∅)] ∧
      (s.procs ()).responses =
        [.put key false, .get key ((some value).filter (· ≠ "null"))] := by
  have hput : WellFormed isWhitespace (.put key value) := by
    intro w hw
    simp only [callWords, List.mem_cons, List.not_mem_nil, or_false] at hw
    rcases hw with rfl | rfl | rfl
    · decide
    · exact hkey
    · exact hvalue
  have hget : WellFormed isWhitespace (.get key) := by
    intro w hw
    simp only [callWords, List.mem_cons, List.not_mem_nil, or_false] at hw
    rcases hw with rfl | rfl
    · decide
    · exact hkey
  let s₀ : Session Unit := ⟨.empty, fun _ => .new⟩
  have h₀ : Reachable s₀ := .new
  obtain ⟨s₁, h₁, hidle₁, hm₁, hops₁, hresps₁⟩ :=
    h₀.round () ClientProc.idle_new hput (by simp) trivial
  obtain ⟨s₂, h₂, _, _, hops₂, hresps₂⟩ := h₁.round () hidle₁ hget (by simp) trivial
  have hm₀ : s₀.store.contents = ∅ := InMemoryKVStore.contents_empty
  refine ⟨s₂, h₂, ?_, ?_⟩
  · rw [hops₂, hops₁, hm₁, hm₀]
    rfl
  · rw [hresps₂, hresps₁, hm₁, hm₀]
    simp [apply, reread]
    rfl

theorem presence_up_to_null_putGet :
    ∃ s : Session Unit, Reachable s ∧ ∃ m, (s.procs ()).operations[1]? = some (.get "k", m) ∧
      ∀ v, some "v" = some v → m.lookup "k" = some v := by
  obtain ⟨s, h, _, hresps⟩ := reachable_putGet (by decide : Token _ "k".toList)
    (by decide : Token _ "v".toList)
  obtain ⟨m, hop, _, hvalue⟩ := (presence_up_to_null h () 1).1 "k" (some "v") (by simp [hresps])
  exact ⟨s, h, m, hop, hvalue⟩

/-- A Get of the value null is answered as if the key were absent. -/
theorem presence_lost : ¬ ∀ s : Session Unit, Reachable s → ∀ (k : ℕ) (key : String)
    (value : Option String), (s.procs ()).responses[k]? = some (.get key value) →
      ∃ m, (s.procs ()).operations[k]? = some (.get key, m) ∧ (value = none ↔ key ∉ m) := by
  intro hclaim
  obtain ⟨s, h, hops, hresps⟩ := reachable_putGet (by decide : Token _ "k".toList)
    (by decide : Token _ "null".toList)
  obtain ⟨m, hop, hiff⟩ := hclaim s h 1 "k" none (by simp [hresps])
  obtain rfl : m = Finmap.insert "k" "null" ∅ := by
    simpa [hops, eq_comm] using hop
  exact hiff.mp rfl (by simp)

end MadKV.Wire
