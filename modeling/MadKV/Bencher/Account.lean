import MadKV.Bencher.Feeder

/-!
# What the feeder accounts for

The lines of a driver stand for exchanges with the client. A feeder thread that
comes to the end of the lines returns one sample for each exchange, and the keys
it started from together with those that were put.
-/

namespace MadKV.Bencher

open Runner Support

variable {F : Type} [NatCast F]

/-- A call, and what became of it. -/
structure Exchange where
  call : KvCall
  op : String
  served : Served

/-- A response came. -/
def Exchange.Answered (e : Exchange) : Prop :=
  e.served.sendCall e.call = .ok () ∧ ∃ resp, e.served.waitResp = .ok resp

/-- The exchanges that the lines stand for, each served in its turn. -/
def exchanges (build : Build) :
    List (List Char) → List Served → InsertedKeys → Option (List Exchange)
  | [], _, _ => some []
  | _ :: _, [], _ => none
  | line :: lines, served :: rest, ikeys =>
    match interpretYcsbCall build line ikeys with
    | .error _ => none
    | .ok (none, ikeys) => exchanges build lines rest ikeys
    | .ok (some (call, op), ikeys) =>
      (exchanges build lines rest ikeys).map fun es => ⟨call, op, served⟩ :: es

/-- All that a driver printed stands for these exchanges, and each was answered. -/
structure Exchanged (build : Build) (served : List Served) (stdout : List UInt8)
    (ikeys : InsertedKeys) (es : List Exchange) : Prop where
  lines : ∃ lines, pieces 10 stdout = lines.map utf8 ∧ lines.length < served.length ∧
    exchanges build lines served ikeys = some es
  answered : ∀ e ∈ es, e.Answered

/-- The latencies of the exchanges of a type. -/
def latencies (op : String) (es : List Exchange) : List F :=
  (es.filter fun e => e.op = op).map fun e => e.served.latencyUs

theorem latencies_cons (op : String) (e : Exchange) (es : List Exchange) :
    (latencies op (e :: es) : List F) =
      (if e.op = op then [e.served.latencyUs] else []) ++ latencies op es := by
  by_cases h : e.op = op <;> simp [latencies, h]

theorem latencies_append (op : String) (es es' : List Exchange) :
    (latencies op (es ++ es') : List F) = latencies op es ++ latencies op es' := by
  simp [latencies]

/-- The keys that the exchanges put. -/
def PutBy (es : List Exchange) (key : String) : Prop := ∃ e ∈ es, ∃ value, e.call = .put key value

theorem putBy_cons {e : Exchange} {es : List Exchange} {key : String} :
    PutBy (e :: es) key ↔ (∃ value, e.call = .put key value) ∨ PutBy es key := by
  simp [PutBy]

theorem putBy_append {es es' : List Exchange} {key : String} :
    PutBy (es ++ es') key ↔ PutBy es key ∨ PutBy es' key := by
  simp only [PutBy, List.mem_append, or_and_right, exists_or]

/-! ## A line -/

theorem mem_keys_insert {ikeys : InsertedKeys} {key k : String} :
    k ∈ InsertedKeys.keys (ikeys.insert key ()) ↔ k = key ∨ k ∈ ikeys.keys := by
  have hkeys : ∀ (m : InsertedKeys), k ∈ m.keys ↔ m.find? k = some () := by
    intro m
    rw [← m.mem_entries_iff, InsertedKeys.keys, List.mem_map]
    constructor
    · rintro ⟨p, hp, rfl⟩
      exact hp
    · exact fun hp => ⟨_, hp, rfl⟩
  rw [hkeys, hkeys, SortedMap.find?_insert]
  split_ifs with h <;> simp [h]

/-- A line without a call leaves the inserted keys alone. -/
theorem interpret_none {build : Build} {line : List Char} {ikeys ikeys' : InsertedKeys}
    (h : interpretYcsbCall build line ikeys = .ok (none, ikeys')) : ikeys' = ikeys := by
  have htranslates := interpretYcsbCall_translates build line ikeys
  rw [h] at htranslates
  generalize splitWhitespace line = segs at htranslates
  cases htranslates
  rfl

/-- A call adds the key it puts, if it puts one. -/
theorem interpret_some {build : Build} {line : List Char} {ikeys ikeys' : InsertedKeys}
    {call : KvCall} {op : String}
    (h : interpretYcsbCall build line ikeys = .ok (some (call, op), ikeys')) (key : String) :
    key ∈ ikeys'.keys ↔ key ∈ ikeys.keys ∨ ∃ value, call = .put key value := by
  have htranslates := interpretYcsbCall_translates build line ikeys
  rw [h] at htranslates
  generalize splitWhitespace line = segs at htranslates
  cases htranslates with
  | insert =>
    rw [mem_keys_insert]
    simp [or_comm, eq_comm]
  | update => simp
  | read => simp
  | scan => simp

theorem interpret_blank {build : Build} {line : List Char} (h : Gap isWhitespace line)
    (ikeys : InsertedKeys) : interpretYcsbCall build line ikeys = .ok (none, ikeys) := by
  have hwords : splitWhitespace line = [] := by rw [splitWhitespace, words_gap h, List.map_nil]
  rw [interpretYcsbCall, hwords]

/-! ## An iteration -/

namespace Feeder

variable {s s' : Feeder F} {build : Build} {served : Served}

/-- The line of a driver that does not find its workload. -/
def MissingFile (line : List Char) : Prop :=
  line.head? ≠ some '[' ∧ "No such file".toList <:+: line

instance (line : List Char) : Decidable (MissingFile line) :=
  inferInstanceAs (Decidable (line.head? ≠ some '[' ∧ "No such file".toList <:+: line))

theorem not_missingFile_of_gap {line : List Char} (h : Gap isWhitespace line) :
    ¬ MissingFile line := by
  rintro ⟨-, hfile⟩
  exact absurd (h 'N' (hfile.subset (by decide))) (by decide)

/-- What one iteration does with a line. -/
theorem feedALine_line (build : Build) (served : Served) {piece : List UInt8}
    {after : List (List UInt8)} (hpieces : pieces 10 s.stdout = piece :: after) :
    ∃ stdout, pieces 10 stdout = after ∧
      s.feedALine build served = match ofUtf8? piece with
        | none => .error (.err (.io "stream did not contain valid UTF-8"))
        | some line => match interpretYcsbCall build line s.ikeys with
          | .error failure => .error failure
          | .ok (some (call, op), ikeys) => match served.sendCall call with
            | .error err => .error (.err err)
            | .ok () => match served.waitResp with
              | .error err => .error (.err err)
              | .ok _ => .ok ({ s with stdout }.called served op ikeys)
          | .ok (none, _) =>
            if MissingFile line then .error (.err (.io (String.ofList line)))
            else .ok { s with stdout } := by
  obtain ⟨rfl, hafter⟩ := pieces_eq_cons hpieces
  refine ⟨_, hafter, ?_⟩
  have hout : s.stdout ≠ [] := by
    rintro hnil
    simp [hnil, pieces] at hpieces
  have hsize : (cutLine 10 s.stdout).1.length ≠ 0 := by
    obtain ⟨c, text, hc⟩ := List.exists_cons_of_ne_nil hout
    rw [hc, cutLine]
    split_ifs <;> simp
  cases hline : ofUtf8? (cutLine 10 s.stdout).1 with
  | none =>
    have hread : readLine s.stdout [] =
        (.error "stream did not contain valid UTF-8", (cutLine 10 s.stdout).2) := by
      simp only [readLine, hline]
    simp only [feedALine, hread]
  | some line =>
    have hread : readLine s.stdout [] =
        (.ok ((cutLine 10 s.stdout).1.length, line), (cutLine 10 s.stdout).2) := by
      simp only [readLine, hline, List.nil_append]
    simp only [feedALine, hread, hsize, ↓reduceIte]
    by_cases hblank : trim isWhitespace line = []
    · have hgap := trim_eq_nil_iff.mp hblank
      simp only [hblank, interpret_blank hgap, not_missingFile_of_gap hgap, ↓reduceIte]
    · simp only [hblank, ↓reduceIte]
      cases hcall : interpretYcsbCall build line s.ikeys with
      | error failure => rfl
      | ok result =>
        obtain ⟨_ | call, ikeys⟩ := result
        · by_cases hhead : line.head? = some '['
          · have hnot : ¬ MissingFile line := fun hmissing => hmissing.1 hhead
            simp only [hhead, hnot, ↓reduceIte]
          · have hiff : MissingFile line ↔ "No such file".toList <:+: line :=
              and_iff_right hhead
            simp only [hhead, hiff, ↓reduceIte]
        · rfl

/-- What one iteration does when it goes well. -/
inductive Fed (build : Build) (served : Served) (s : Feeder F) : Feeder F → Prop
  | eof : s.stdout = [] → Fed build served s { s with ended := true }
  | skipped {line : List Char} {stdout : List UInt8} :
      pieces 10 s.stdout = utf8 line :: pieces 10 stdout →
      interpretYcsbCall build line s.ikeys = .ok (none, s.ikeys) → ¬ MissingFile line →
      Fed build served s { s with stdout }
  | called {line : List Char} {stdout : List UInt8} {call : KvCall} {op : String}
      {ikeys : InsertedKeys} :
      pieces 10 s.stdout = utf8 line :: pieces 10 stdout →
      interpretYcsbCall build line s.ikeys = .ok (some (call, op), ikeys) →
      Exchange.Answered ⟨call, op, served⟩ →
      Fed build served s ({ s with stdout }.called served op ikeys)

/-- A line that cannot be fed: it is not valid text, no call can be made of it, its
call is not answered, or it says that a file is missing. -/
def Unfed (build : Build) (served : Served) (ikeys : InsertedKeys) (piece : List UInt8) : Prop :=
  ∀ line, ofUtf8? piece = some line →
    match interpretYcsbCall build line ikeys with
    | .error failure => ∃ err, failure = .err err
    | .ok (some (call, op), _) => ¬ Exchange.Answered ⟨call, op, served⟩
    | .ok (none, _) => MissingFile line

theorem interpret_panic {line : List Char} {ikeys : InsertedKeys} {why : Panic}
    (h : interpretYcsbCall build line ikeys = .error (.panic why)) : build = .dev := by
  have htranslates := interpretYcsbCall_translates build line ikeys
  rw [h] at htranslates
  generalize splitWhitespace line = segs at htranslates
  cases htranslates with
  | panic hpanic => exact (scanEnd_panic_iff.mp ⟨why, hpanic⟩).1

theorem feedALine_eof (h : s.stdout = []) :
    s.feedALine build served = .ok { s with ended := true } := by
  have hempty : ofUtf8? [] = some [] := ofUtf8?_utf8 []
  simp [feedALine, readLine, h, cutLine, hempty]

theorem feedALine_ok (h : s.feedALine build served = .ok s') : Fed build served s s' := by
  cases hpieces : pieces 10 s.stdout with
  | nil =>
    have hout := pieces_eq_nil_iff.mp hpieces
    obtain rfl := Except.ok.inj ((feedALine_eof hout).symm.trans h)
    exact .eof hout
  | cons piece after =>
    obtain ⟨stdout, rfl, hfeed⟩ := feedALine_line build served hpieces
    rw [h] at hfeed
    cases hline : ofUtf8? piece with
    | none => simp [hline] at hfeed
    | some line =>
      rw [ofUtf8?_eq_some.mp hline] at hpieces
      cases hcall : interpretYcsbCall build line s.ikeys with
      | error failure => simp [hline, hcall] at hfeed
      | ok result =>
        obtain ⟨_ | ⟨call, op⟩, ikeys⟩ := result
        · obtain rfl := interpret_none hcall
          by_cases hfile : MissingFile line
          · simp [hline, hcall, hfile] at hfeed
          · obtain rfl : s' = { s with stdout } := by simpa [hline, hcall, hfile] using hfeed
            exact .skipped hpieces hcall hfile
        · cases hsend : served.sendCall call with
          | error err => simp [hline, hcall, hsend] at hfeed
          | ok _ =>
            cases hwait : served.waitResp with
            | error err => simp [hline, hcall, hsend, hwait] at hfeed
            | ok resp =>
              obtain rfl : s' = { s with stdout }.called served op ikeys := by
                simpa [hline, hcall, hsend, hwait] using hfeed
              exact .called hpieces hcall ⟨hsend, resp, hwait⟩

/-- Only a subtraction panics, and only in a `dev` build. -/
theorem feedALine_panic {why : Panic} (h : s.feedALine build served = .error (.panic why)) :
    build = .dev := by
  cases hpieces : pieces 10 s.stdout with
  | nil => cases (feedALine_eof (pieces_eq_nil_iff.mp hpieces)).symm.trans h
  | cons piece after =>
    obtain ⟨stdout, rfl, hfeed⟩ := feedALine_line build served hpieces
    rw [h] at hfeed
    cases hline : ofUtf8? piece with
    | none => simp [hline] at hfeed
    | some line =>
      cases hcall : interpretYcsbCall build line s.ikeys with
      | error failure =>
        obtain rfl : failure = .panic why := by simpa [hline, hcall, eq_comm] using hfeed
        exact interpret_panic hcall
      | ok result =>
        obtain ⟨_ | ⟨call, op⟩, ikeys⟩ := result
        · by_cases hfile : MissingFile line <;> simp [hline, hcall, hfile] at hfeed
        · cases hsend : served.sendCall call with
          | error err => simp [hline, hcall, hsend] at hfeed
          | ok _ => cases hwait : served.waitResp <;> simp [hline, hcall, hsend, hwait] at hfeed

/-- An iteration fails exactly at a line that cannot be fed. -/
theorem feedALine_err_iff : (∃ err, s.feedALine build served = .error (.err err)) ↔
    ∃ piece after, pieces 10 s.stdout = piece :: after ∧ Unfed build served s.ikeys piece := by
  cases hpieces : pieces 10 s.stdout with
  | nil => simp [feedALine_eof (pieces_eq_nil_iff.mp hpieces)]
  | cons piece after =>
    obtain ⟨stdout, -, hfeed⟩ := feedALine_line build served hpieces
    simp only [hfeed, Unfed, List.cons.injEq]
    cases hline : ofUtf8? piece with
    | none => simp [hline]
    | some line =>
      cases hcall : interpretYcsbCall build line s.ikeys with
      | error failure => simp [hline, hcall]
      | ok result =>
        obtain ⟨_ | ⟨call, op⟩, ikeys⟩ := result
        · by_cases hfile : MissingFile line <;> simp [hline, hcall, hfile]
        · cases hsend : served.sendCall call with
          | error err => simp [hline, hcall, hsend, Exchange.Answered]
          | ok _ =>
            cases hwait : served.waitResp <;>
              simp [hline, hcall, hsend, hwait, Exchange.Answered]

/-! ## The loop -/

/-- What the exchanges did to the variables. -/
structure Accounts (es : List Exchange) (s s' : Feeder F) : Prop where
  answered : ∀ e ∈ es, e.Answered
  samples : ∀ op, s'.stats.samplesOf op = s.stats.samplesOf op ++ latencies op es
  sampled : s.stats.Sampled → s'.stats.Sampled
  keys : ∀ key, key ∈ s'.ikeys.keys ↔ key ∈ s.ikeys.keys ∨ PutBy es key
  totalMs : s'.stats.totalMs = s.stats.totalMs
  started : s'.started = s.started.or (es.head?.map fun e => e.served.start)
  lastEnd : s'.lastEnd = (es.getLast?.map fun e => e.served.now).or s.lastEnd

theorem Accounts.nil : Accounts [] s { s with ended := true } where
  answered := by simp
  samples op := by simp [latencies]
  sampled := id
  keys key := by simp [PutBy]
  totalMs := rfl
  started := by simp
  lastEnd := by simp

/-- An exchange comes before those of the rest of the run. -/
theorem Accounts.cons {line : List Char} {stdout : List UInt8} {call : KvCall} {op : String}
    {ikeys : InsertedKeys} {es : List Exchange}
    (hcall : interpretYcsbCall build line s.ikeys = .ok (some (call, op), ikeys))
    (hanswered : Exchange.Answered ⟨call, op, served⟩)
    (h : Accounts es ({ s with stdout }.called served op ikeys) s') :
    Accounts (⟨call, op, served⟩ :: es) s s' where
  answered := List.forall_mem_cons.mpr ⟨hanswered, h.answered⟩
  samples op' := by
    rw [h.samples op', latencies_cons, called, CliStats.samplesOf_recordOp, List.append_assoc]
  sampled hs := h.sampled (hs.recordOp op _)
  keys key := by
    rw [h.keys key, putBy_cons, ← or_assoc, called, interpret_some hcall key]
  totalMs := h.totalMs
  started := by
    rw [h.started]
    cases hstarted : s.started <;> simp [called]
  lastEnd := by
    rw [h.lastEnd, List.getLast?_cons]
    cases es.getLast? <;> simp [called]

/-- A run that comes to the end of the lines accounts for all of them. -/
theorem feederLoop_ended {served : List Served} (hended : s.ended = false)
    (h : feederLoop build served s = .ended s') :
    ∃ lines es, pieces 10 s.stdout = lines.map utf8 ∧ lines.length < served.length ∧
      exchanges build lines served s.ikeys = some es ∧ Accounts es s s' := by
  induction served generalizing s with
  | nil => cases h
  | cons first rest ih =>
    rw [feederLoop] at h
    cases hfed : s.feedALine build first with
    | error failure => cases failure <;> simp [hfed] at h
    | ok next =>
      simp only [hfed] at h
      cases feedALine_ok hfed with
      | eof hout =>
        obtain rfl : { s with ended := true } = s' := by simpa using h
        exact ⟨[], [], by simp [hout, pieces], by simp, rfl, .nil⟩
      | @skipped line stdout hpieces hcall _ =>
        rw [if_neg (by simp [hended])] at h
        obtain ⟨lines, es, hlines, hlen, hes, haccounts⟩ := ih (s := { s with stdout }) hended h
        refine ⟨line :: lines, es, by simp [hpieces, hlines], by simpa using hlen, ?_, ?_⟩
        · rw [exchanges, hcall]
          exact hes
        · exact ⟨haccounts.1, haccounts.2, haccounts.3, haccounts.4, haccounts.5,
            haccounts.6, haccounts.7⟩
      | @called line stdout call op ikeys hpieces hcall hanswered =>
        rw [if_neg (by simp [Feeder.called, hended])] at h
        obtain ⟨lines, es, hlines, hlen, hes, haccounts⟩ :=
          ih (s := { s with stdout }.called first op ikeys) hended h
        refine ⟨line :: lines, ⟨call, op, first⟩ :: es, ?_, by simpa using hlen, ?_,
          haccounts.cons hcall hanswered⟩
        · rw [hpieces, List.map_cons, ← hlines]
          rfl
        · rw [exchanges, hcall]
          simp only [Option.map_eq_some_iff]
          exact ⟨es, hes, rfl⟩

theorem feederLoop_panic {served : List Served} {why : Panic}
    (h : feederLoop build served s = .panic why) : build = .dev := by
  induction served generalizing s with
  | nil => cases h
  | cons first rest ih =>
    rw [feederLoop] at h
    cases hfed : s.feedALine build first with
    | error failure =>
      cases failure with
      | err err => simp [hfed] at h
      | panic why' => exact feedALine_panic hfed
    | ok next =>
      simp only [hfed] at h
      split_ifs at h
      exact ih h

/-- The loop does not outlast the lines. -/
theorem feederLoop_ne_running {served : List Served} (hended : s.ended = false)
    (hlen : (pieces 10 s.stdout).length < served.length) :
    feederLoop build served s ≠ .running := by
  induction served generalizing s with
  | nil => simp at hlen
  | cons first rest ih =>
    rw [feederLoop]
    cases hfed : s.feedALine build first with
    | error failure => cases failure <;> simp
    | ok next =>
      simp only
      cases feedALine_ok hfed with
      | eof hout => simp
      | @skipped line stdout hpieces hcall _ =>
        have hrest : (pieces 10 stdout).length < rest.length := by simpa [hpieces] using hlen
        rw [if_neg (by simp [hended])]
        exact ih (s := { s with stdout }) hended hrest
      | @called line stdout call op ikeys hpieces hcall hanswered =>
        have hrest : (pieces 10 stdout).length < rest.length := by simpa [hpieces] using hlen
        rw [if_neg (by simp [Feeder.called, hended])]
        exact ih (s := { s with stdout }.called first op ikeys) hended hrest

/-- The line is fed, which may add to the inserted keys. -/
inductive FedLine (build : Build) (line : List Char) (served : Served) (ikeys : InsertedKeys) :
    InsertedKeys → Prop
  | skipped : interpretYcsbCall build line ikeys = .ok (none, ikeys) → ¬ MissingFile line →
      FedLine build line served ikeys ikeys
  | called {call : KvCall} {op : String} {ikeys' : InsertedKeys} :
      interpretYcsbCall build line ikeys = .ok (some (call, op), ikeys') →
      Exchange.Answered ⟨call, op, served⟩ → FedLine build line served ikeys ikeys'

/-- The lines are fed one after another, each with what is served in its turn. -/
inductive FedLines (build : Build) :
    List (List Char) → List Served → InsertedKeys → InsertedKeys → Prop
  | nil {ikeys : InsertedKeys} : FedLines build [] [] ikeys ikeys
  | cons {line : List Char} {lines : List (List Char)} {first : Served} {served : List Served}
      {ikeys ikeys₁ ikeys' : InsertedKeys} : FedLine build line first ikeys ikeys₁ →
      FedLines build lines served ikeys₁ ikeys' →
      FedLines build (line :: lines) (first :: served) ikeys ikeys'

/-- Behind lines that are fed comes one that cannot be. -/
def Stuck (build : Build) (served : List Served) (stdout : List UInt8) (ikeys : InsertedKeys) :
    Prop :=
  ∃ lines piece after earlier last later ikeys',
    pieces 10 stdout = lines.map utf8 ++ piece :: after ∧ served = earlier ++ last :: later ∧
    FedLines build lines earlier ikeys ikeys' ∧ Unfed build last ikeys' piece

theorem Stuck.cons {line : List Char} {stdout stdout' : List UInt8}
    {ikeys ikeys₁ : InsertedKeys} {rest : List Served}
    (hpieces : pieces 10 stdout = utf8 line :: pieces 10 stdout')
    (hline : FedLine build line served ikeys ikeys₁) (h : Stuck build rest stdout' ikeys₁) :
    Stuck build (served :: rest) stdout ikeys := by
  obtain ⟨lines, piece, after, earlier, last, later, ikeys', hlines, rfl, hfed, hunfed⟩ := h
  exact ⟨line :: lines, piece, after, served :: earlier, last, later, ikeys',
    by simp [hpieces, hlines], rfl, .cons hline hfed, hunfed⟩

/-- A line that is fed takes the loop to the next one. -/
theorem feedALine_fed {line : List Char} {after : List (List UInt8)} {ikeys : InsertedKeys}
    (hpieces : pieces 10 s.stdout = utf8 line :: after)
    (h : FedLine build line served s.ikeys ikeys) : ∃ s', s.feedALine build served = .ok s' ∧
      s'.ended = s.ended ∧ s'.ikeys = ikeys ∧ pieces 10 s'.stdout = after := by
  obtain ⟨stdout, hafter, hfeed⟩ := feedALine_line build served hpieces
  cases h with
  | skipped hcall hfile =>
    refine ⟨{ s with stdout }, ?_, rfl, rfl, hafter⟩
    simpa [ofUtf8?_utf8, hcall, hfile] using hfeed
  | @called call op _ hcall hanswered =>
    have hsend : served.sendCall call = .ok () := hanswered.1
    obtain ⟨resp, hwait⟩ : ∃ resp, served.waitResp = .ok resp := hanswered.2
    refine ⟨{ s with stdout }.called served op ikeys, ?_, rfl, rfl, hafter⟩
    simpa [ofUtf8?_utf8, hcall, hsend, hwait] using hfeed

theorem feederLoop_err {served : List Served} {err : RunnerError} (hended : s.ended = false)
    (h : feederLoop build served s = .err err) : Stuck build served s.stdout s.ikeys := by
  induction served generalizing s with
  | nil => cases h
  | cons first rest ih =>
    rw [feederLoop] at h
    cases hfed : s.feedALine build first with
    | error failure =>
      cases failure with
      | panic why => simp [hfed] at h
      | err err' =>
        obtain ⟨piece, after, hpieces, hunfed⟩ := feedALine_err_iff.mp ⟨err', hfed⟩
        exact ⟨[], piece, after, [], first, rest, s.ikeys, by simpa using hpieces, rfl, .nil,
          hunfed⟩
    | ok next =>
      simp only [hfed] at h
      cases feedALine_ok hfed with
      | eof hout => simp at h
      | @skipped line stdout hpieces hcall hfile =>
        rw [if_neg (by simp [hended])] at h
        exact .cons hpieces (.skipped hcall hfile) (ih (s := { s with stdout }) hended h)
      | @called line stdout call op ikeys hpieces hcall hanswered =>
        rw [if_neg (by simp [Feeder.called, hended])] at h
        exact .cons hpieces (.called hcall hanswered)
          (ih (s := { s with stdout }.called first op ikeys) hended h)

theorem feederLoop_of_fedLines {lines : List (List Char)} {earlier later : List Served}
    {last : Served} {ikeys ikeys' : InsertedKeys} {piece : List UInt8}
    {after : List (List UInt8)} (h : FedLines build lines earlier ikeys ikeys')
    (hunfed : Unfed build last ikeys' piece) (hkeys : s.ikeys = ikeys) (hended : s.ended = false)
    (hpieces : pieces 10 s.stdout = lines.map utf8 ++ piece :: after) :
    ∃ err, feederLoop build (earlier ++ last :: later) s = .err err := by
  induction h generalizing s with
  | nil =>
    subst hkeys
    obtain ⟨err, herr⟩ := feedALine_err_iff.mpr ⟨piece, after, hpieces, hunfed⟩
    exact ⟨err, by simp [feederLoop, herr]⟩
  | cons hline _ ih =>
    subst hkeys
    obtain ⟨next, hok, hended', hkeys', hrest⟩ := feedALine_fed hpieces hline
    obtain ⟨err, hloop⟩ := ih hunfed hkeys' (hended'.trans hended) hrest
    exact ⟨err, by simpa [feederLoop, hok, hended', hended] using hloop⟩

/-- The loop ends with an error exactly when it comes to a line that cannot be fed. -/
theorem feederLoop_err_iff {served : List Served} (hended : s.ended = false) :
    (∃ err, feederLoop build served s = .err err) ↔ Stuck build served s.stdout s.ikeys := by
  refine ⟨fun ⟨err, h⟩ => feederLoop_err hended h, ?_⟩
  rintro ⟨lines, piece, after, earlier, last, later, ikeys', hpieces, rfl, hfed, hunfed⟩
  exact feederLoop_of_fedLines hfed hunfed rfl hended hpieces

end Feeder

/-! ## The thread -/

variable [Add F] [Mul F] [Div F] [OfScientific F]

/-- The milliseconds from the first call to the last response. -/
def spanMs (es : List Exchange) : F :=
  match es.head?, es.getLast? with
  | some first, some last => secs (last.served.now - first.served.start) * 1000.0
  | _, _ => 0.0

/-- What a feeder thread returns accounts for all that its driver printed. -/
structure Accounted (build : Build) (served : List Served) (stdout : List UInt8)
    (ikeys : InsertedKeys) (es : List Exchange) (stats : CliStats F) (ikeys' : InsertedKeys) :
    Prop where
  exchanged : Exchanged build served stdout ikeys es
  merged : stats.merged = 1
  totalMs : stats.totalMs = spanMs es
  samples : ∀ op, stats.samplesOf op = latencies op es
  sampled : stats.Sampled
  keys : ∀ key, key ∈ ikeys'.keys ↔ key ∈ ikeys.keys ∨ PutBy es key

theorem accounted_of_ended {build : Build} {served : List Served} {stdout : List UInt8}
    {ikeys : InsertedKeys} {s : Feeder F}
    (h : feederLoop build served (.start stdout ikeys) = .ended s) :
    ∃ es, Accounted build served stdout ikeys es s.finalStats s.ikeys := by
  obtain ⟨lines, es, hlines, hlen, hes, haccounts⟩ := Feeder.feederLoop_ended rfl h
  refine ⟨es, ⟨⟨lines, hlines, hlen, hes⟩, haccounts.answered⟩, rfl, ?_,
    fun op => haccounts.samples op, haccounts.sampled CliStats.sampled_new, haccounts.keys⟩
  have hstarted : s.started = es.head?.map fun e => e.served.start := haccounts.started
  have hlastEnd : s.lastEnd = es.getLast?.map fun e => e.served.now :=
    haccounts.lastEnd.trans Option.or_none
  have htotalMs : s.stats.totalMs = 0.0 := haccounts.totalMs
  simp only [Feeder.finalStats, spanMs, hstarted, hlastEnd, htotalMs]
  cases es.head? <;> cases es.getLast? <;> rfl

theorem feederThread_accounted {build : Build} {served : List Served} {stdout : List UInt8}
    {ikeys ikeys' : InsertedKeys} {stats : CliStats F}
    (h : feederThread build served stdout ikeys = .returned (some (stats, ikeys'))) :
    ∃ es, Accounted build served stdout ikeys es stats ikeys' := by
  unfold feederThread at h
  cases hloop : feederLoop build served (.start stdout ikeys : Feeder F) with
  | running => simp [hloop] at h
  | panic why => simp [hloop] at h
  | err err => simp [hloop] at h
  | ended s =>
    simp only [hloop, FeederResult.returned.injEq, Option.some.injEq, Prod.mk.injEq] at h
    obtain ⟨rfl, rfl⟩ := h
    exact accounted_of_ended hloop

/-- A feeder thread comes to an end. It returns nothing exactly when it comes to a line
that it cannot feed, and else the account of all the lines; only in a `dev` build can it
panic. -/
theorem feeder_account (build : Build) {served : List Served} {stdout : List UInt8}
    (ikeys : InsertedKeys) (h : (pieces 10 stdout).length < served.length) :
    ((feederThread build served stdout ikeys : FeederResult F) = .returned none ↔
      Feeder.Stuck build served stdout ikeys) ∧
    ((build = .dev ∧
        ∃ why, (feederThread build served stdout ikeys : FeederResult F) = .panic why) ∨
      (feederThread build served stdout ikeys : FeederResult F) = .returned none ∨
      ∃ es ikeys', ∃ stats : CliStats F,
        feederThread build served stdout ikeys = .returned (some (stats, ikeys')) ∧
          Accounted build served stdout ikeys es stats ikeys') := by
  have hstuck : (∃ err, feederLoop build served (.start stdout ikeys : Feeder F) = .err err) ↔
      Feeder.Stuck build served stdout ikeys := Feeder.feederLoop_err_iff rfl
  unfold feederThread
  cases hloop : feederLoop build served (.start stdout ikeys : Feeder F) with
  | running => exact absurd hloop (Feeder.feederLoop_ne_running rfl h)
  | panic why =>
    exact ⟨by simpa [hloop] using hstuck, .inl ⟨Feeder.feederLoop_panic hloop, why, rfl⟩⟩
  | err err => exact ⟨by simpa [hloop] using hstuck, .inr (.inl rfl)⟩
  | ended s =>
    obtain ⟨es, haccounted⟩ := accounted_of_ended hloop
    exact ⟨by simpa [hloop] using hstuck,
      .inr (.inr ⟨es, s.ikeys, s.finalStats, rfl, haccounted⟩)⟩

/-- The response comes after two milliseconds. -/
def prompt : Served where
  sendCall _ := .ok ()
  waitResp := .ok .stop
  start := 1000000
  responded := 3000000
  now := 3000100

theorem feederLoop_prompt {s : Feeder ℚ} {build : Build} {line : List Char} {call : KvCall}
    {op : String} {ikeys : InsertedKeys} {after : List (List UInt8)} (hended : s.ended = false)
    (hpieces : pieces 10 s.stdout = utf8 line :: after)
    (hcall : interpretYcsbCall build line s.ikeys = .ok (some (call, op), ikeys))
    (rest : List Served) : feederLoop build (prompt :: rest) s =
      feederLoop build rest ({ s with stdout := after.flatten }.called prompt op ikeys) := by
  obtain ⟨stdout, rfl, hfeed⟩ :=
    Feeder.feedALine_line build prompt hpieces
  have hsend : prompt.sendCall call = .ok () := rfl
  have hwait : prompt.waitResp = .ok .stop := rfl
  rw [flatten_pieces, feederLoop, hfeed]
  simp only [ofUtf8?_utf8, hcall, hsend, hwait, Feeder.called, hended, Bool.false_eq_true,
    ↓reduceIte]

theorem feederLoop_eof {s : Feeder ℚ} {build : Build} (h : s.stdout = []) (served : Served)
    (rest : List Served) :
    feederLoop build (served :: rest) s = .ended { s with ended := true } := by
  simp only [feederLoop, Feeder.feedALine_eof h, ↓reduceIte]

theorem latencyUs_prompt : (prompt.latencyUs : ℚ) = 2000 := by
  norm_num [Served.latencyUs, prompt]

/-- A driver that inserts a key and reads it. -/
def insertRead : String := "INSERT t a [ x ]\nREAD t a\n"

theorem feeder_account_insertRead : ∃ es ikeys', ∃ stats : CliStats ℚ,
    feederThread .release [prompt, prompt, prompt] (bytes insertRead) SortedMap.empty =
      .returned (some (stats, ikeys')) ∧
    Accounted .release [prompt, prompt, prompt] (bytes insertRead) SortedMap.empty es stats
      ikeys' := by
  have hpieces : pieces 10 (bytes insertRead) =
      [utf8 "INSERT t a [ x ]\n".toList, utf8 "READ t a\n".toList] := by decide
  have hlong : (pieces 10 (bytes insertRead)).length < [prompt, prompt, prompt].length := by
    rw [hpieces]
    decide
  have hinsert : interpretYcsbCall .release "INSERT t a [ x ]\n".toList SortedMap.empty =
      .ok (some (.put "t_a" "_x_]", "INSERT"), SortedMap.empty.insert "t_a" ()) := rfl
  have hread : interpretYcsbCall .release "READ t a\n".toList
      (SortedMap.empty.insert "t_a" ()) =
        .ok (some (.get "t_a", "READ"), SortedMap.empty.insert "t_a" ()) := rfl
  have hrest : pieces 10 [utf8 "READ t a\n".toList].flatten = [utf8 "READ t a\n".toList] := by
    decide
  have hloop : ∃ s : Feeder ℚ, feederLoop .release [prompt, prompt, prompt]
      (.start (bytes insertRead) SortedMap.empty) = .ended s := by
    rw [feederLoop_prompt rfl hpieces hinsert, feederLoop_prompt rfl hrest hread,
      feederLoop_eof rfl]
    exact ⟨_, rfl⟩
  obtain ⟨s, hloop⟩ := hloop
  obtain ⟨-, ⟨hbuild, -⟩ | hnone | haccount⟩ :=
    feeder_account (F := ℚ) .release SortedMap.empty hlong
  · cases hbuild
  · simp [feederThread, hloop] at hnone
  · exact haccount

end MadKV.Bencher
