import MadKV.Bencher.Translation
import MadKV.Store.Linearizability

/-!
# The benchmark at the server

The drivers of a benchmark send what they translate, and no line is translated to a
Delete. So a key whose insertion was acknowledged stays in the store, however the
requests of all drivers interleave, and reads, updates and scans that are sent
afterwards find it.
-/

namespace MadKV.Bencher

open Runner Support Spec Store

/-- A call that some line is translated to. -/
def Translated (call : KvCall) : Prop :=
  ∃ build line ikeys op ikeys', interpretYcsbCall build line ikeys = .ok (some (call, op), ikeys')

theorem Translated.not_delete {key : String} : ¬ Translated (.delete key) := by
  rintro ⟨build, line, ikeys, op, ikeys', h⟩
  have htranslates := interpretYcsbCall_translates build line ikeys
  rw [h] at htranslates
  generalize splitWhitespace line = segs at htranslates
  cases htranslates

/-! ## Keys in the store -/

/-- A translated call keeps the keys of the store. -/
theorem mem_apply {m : KvMap} {call : KvCall} (h : Translated call) {key : String}
    (hkey : key ∈ m) : key ∈ (apply m call).2 := by
  cases call with
  | put k value => exact Finmap.mem_insert.mpr (.inr hkey)
  | swap k value => exact Finmap.mem_insert.mpr (.inr hkey)
  | get k => exact hkey
  | scan lo hi => exact hkey
  | delete k => exact absurd h Translated.not_delete
  | stop => exact hkey

theorem mem_contents {m : KvMap} {calls : List KvCall} (h : ∀ call ∈ calls, Translated call)
    {key : String} (hkey : key ∈ m) : key ∈ contents m calls := by
  induction calls generalizing m with
  | nil => exact hkey
  | cons call calls ih =>
    exact ih (fun c hc => h c (by simp [hc])) (mem_apply (h call (by simp)) hkey)

/-- A key stays from when it was put. -/
theorem mem_contents_of_put {m : KvMap} {calls : List KvCall}
    (h : ∀ call ∈ calls, Translated call) {key value : String} (hput : .put key value ∈ calls) :
    key ∈ contents m calls := by
  obtain ⟨before, after, rfl⟩ := List.append_of_mem hput
  have hsplit : contents m (before ++ .put key value :: after) =
      contents (apply (contents m before) (.put key value)).2 after := by
    simp [contents]
  rw [hsplit]
  exact mem_contents (fun call hcall => h call (by simp [hcall]))
    (Finmap.mem_insert.mpr (.inl rfl))

/-- The keys that a scan reads. -/
theorem scan_pairs {m : KvMap} {keyStart keyEnd key : String} :
    key ∈ ((between m keyStart keyEnd).map fun p => (⟨p.1, p.2⟩ : KVPair)).map KVPair.key ↔
      key ∈ m ∧ keyStart ≤ key ∧ key ≤ keyEnd := by
  simp only [List.map_map, List.mem_map, Function.comp_def, Prod.exists, mem_between,
    Finmap.mem_iff]
  constructor
  · rintro ⟨k, value, ⟨hlookup, hrange⟩, rfl⟩
    exact ⟨⟨value, hlookup⟩, hrange⟩
  · rintro ⟨⟨value, hlookup⟩, hrange⟩
    exact ⟨key, value, ⟨hlookup, hrange⟩, rfl⟩

/-! ## Requests handled in order -/

/-- Some request wrote the value. -/
def Wrote (handled : List (Executed Request Reply)) (key value : String) : Prop :=
  ∃ x ∈ handled, x.req.call.updateInfo = some (key, some value)

/-- A key in the store has a value that some request wrote. -/
theorem lookup_wrote {handled : List (Executed Request Reply)} {key : String}
    (h : key ∈ contentsAfter handled) :
    ∃ value, (contentsAfter handled).lookup key = some value ∧ Wrote handled key value := by
  obtain ⟨value, hvalue⟩ := Finmap.mem_iff.mp h
  refine ⟨value, hvalue, ?_⟩
  rcases lookup_contents ∅ (handled.map fun x => x.req.call) key with
    ⟨hempty, -⟩ | ⟨front, call, rest, hcalls, hupdate, -⟩
  · have hnone := hvalue.symm.trans (hempty.trans (Finmap.lookup_empty key))
    cases hnone
  · have hcall : call ∈ handled.map fun x => x.req.call := by simp [hcalls]
    obtain ⟨x, hx, rfl⟩ := List.mem_map.mp hcall
    exact ⟨x, hx, hupdate.trans (congrArg (fun v => some (key, v)) hvalue)⟩

section Run

variable {Client : Type*} {trace : List (Event Client Request Reply)}

/-- All that was sent are translated calls. -/
def Workload (trace : List (Event Client Request Reply)) : Prop :=
  ∀ c id req, .send c id req ∈ trace → Translated (Request.call req)

/-- A Put of the key was acknowledged before the request with this number was sent. -/
def LoadedBefore (trace : List (Event Client Request Reply)) (id : ℕ) (key : String) : Prop :=
  ∃ c put value rep c' req, .send c put (.put ⟨key, value⟩) ∈ trace ∧
    [.recv c put rep, .send c' id req].Sublist trace

variable [DecidableEq Client] {s : Config Client Request Reply InMemoryKVStore}

theorem loaded_mem (h : SystemRun trace s) (hload : Workload trace) {y : Executed Request Reply}
    {before after : List (Executed Request Reply)} (hsplit : order trace = before ++ y :: after)
    {key : String} (hkey : LoadedBefore trace y.id key) : key ∈ contentsAfter before := by
  obtain ⟨c, put, value, rep, c', req, hput, hbefore⟩ := hkey
  obtain ⟨x, hx, hid, -⟩ := h.real_time hbefore hsplit
  have hr := h.recorded
  have hmem : ∀ z ∈ before, z ∈ order trace := fun z hz => by simp [hsplit, hz]
  obtain ⟨c'', hsent⟩ := hr.executed_sent x (hmem x hx)
  rw [hid] at hsent
  have hreq : Request.put ⟨key, value⟩ = x.req := (hr.sent_once _ _ _ _ _ hput hsent).2
  have hcalls : ∀ call ∈ before.map (fun z => z.req.call), Translated call := by
    intro call hcall
    obtain ⟨z, hz, rfl⟩ := List.mem_map.mp hcall
    obtain ⟨d, hd⟩ := hr.executed_sent z (hmem z hz)
    exact hload d z.id z.req hd
  have hput : KvCall.put key value ∈ before.map fun z => z.req.call :=
    List.mem_map.mpr ⟨x, hx, by rw [← hreq]; rfl⟩
  exact mem_contents_of_put hcalls hput

/-- The range of a translated scan holds the first keys from its start on. -/
theorem scan_reaches {build : Build} {line : List Char} {ikeys ikeys' : InsertedKeys}
    {keyStart keyEnd op : String} {scnt : ℕ} (hline : ScanLine line keyStart scnt)
    (hpos : scnt ≠ 0) (hne : ikeys.keys ≠ [])
    (h : interpretYcsbCall build line ikeys = .ok (some (.scan keyStart keyEnd, op), ikeys')) :
    ikeys.inRange keyStart keyEnd = (ikeys.keysFrom keyStart).take scnt := by
  obtain ⟨last, hlast⟩ := Option.isSome_iff_exists.mp (List.getLast?_isSome.mpr hne)
  have hone : 1 ≤ scnt := Nat.one_le_iff_ne_zero.mpr hpos
  rw [interpretYcsbCall_scan hline hlast, usizeSub_of_le build hone] at h
  simp only [Except.ok.injEq, Prod.mk.injEq, Option.some.injEq, KvCall.scan.injEq, true_and] at h
  obtain ⟨⟨rfl, -⟩, -⟩ := h
  rw [InsertedKeys.inRange_nth hlast, Nat.sub_add_cancel hone]

/-- Reads, updates and scans find the keys that were loaded before they were sent. -/
theorem loaded_keys_found (h : SystemRun trace s) (hload : Workload trace)
    {y : Executed Request Reply} {before after : List (Executed Request Reply)}
    (hsplit : order trace = before ++ y :: after) :
    (∀ key, y.req = .get ⟨key⟩ → LoadedBefore trace y.id key →
      ∃ value, y.rep = .get ⟨true, value⟩ ∧ Wrote before key value) ∧
    (∀ key value, y.req = .swap ⟨key, value⟩ → LoadedBefore trace y.id key →
      ∃ old, y.rep = .swap ⟨true, old⟩ ∧ Wrote before key old) ∧
    ∀ build line ikeys ikeys' keyStart keyEnd op scnt,
      interpretYcsbCall build line ikeys = .ok (some (.scan keyStart keyEnd, op), ikeys') →
      ScanLine line keyStart scnt → scnt ≠ 0 → ikeys.keys ≠ [] →
      y.req = .scan ⟨keyStart, keyEnd⟩ → (∀ key ∈ ikeys.keys, LoadedBefore trace y.id key) →
      ∃ pairs, y.rep = .scan ⟨pairs⟩ ∧
        (ikeys.keysFrom keyStart).take scnt ⊆ pairs.map KVPair.key ∧
        min scnt (ikeys.keysFrom keyStart).length ≤ pairs.length := by
  have hreply := h.reply_eq hsplit
  have hloaded : ∀ key, LoadedBefore trace y.id key → key ∈ contentsAfter before :=
    fun key hkey => loaded_mem h hload hsplit hkey
  refine ⟨fun key hreq hkey => ?_, fun key value hreq hkey => ?_, ?_⟩
  · obtain ⟨value, hlookup, hwrote⟩ := lookup_wrote (hloaded key hkey)
    refine ⟨value, ?_, hwrote⟩
    simp [hreply, hreq, Request.answer, hlookup]
  · obtain ⟨old, hlookup, hwrote⟩ := lookup_wrote (hloaded key hkey)
    refine ⟨old, ?_, hwrote⟩
    simp [hreply, hreq, Request.answer, hlookup]
  · intro build line ikeys ikeys' keyStart keyEnd op scnt hcall hline hpos hne hreq hkeys
    have hrange := scan_reaches hline hpos hne hcall
    have hsub : (ikeys.keysFrom keyStart).take scnt ⊆
        ((between (contentsAfter before) keyStart keyEnd).map fun p =>
          (⟨p.1, p.2⟩ : KVPair)).map KVPair.key := by
      intro key hkey
      rw [← hrange, InsertedKeys.inRange, List.mem_filter] at hkey
      obtain ⟨hmem, hbounds⟩ := hkey
      exact scan_pairs.mpr ⟨hloaded key (hkeys key hmem), by simpa using hbounds⟩
    refine ⟨_, by rw [hreply, hreq]; rfl, hsub, ?_⟩
    have hnodup : ((ikeys.keysFrom keyStart).take scnt).Nodup :=
      ((ikeys.keysFrom_sorted keyStart).sublist (List.take_sublist _ _)).nodup
    have hlen := (List.subperm_of_subset hnodup hsub).length_le
    simpa using hlen

end Run

/-! ## A driver that loads, another that scans -/

def loadThenScan : List (Event ℕ Request Reply) :=
  [.send 0 0 (.put ⟨"t_a", "_f=1_]"⟩), .exec 0 (.put ⟨"t_a", "_f=1_]"⟩) (.put ⟨false⟩),
    .recv 0 0 (.put ⟨false⟩), .send 1 1 (.scan ⟨"t_a", "t_a"⟩),
    .exec 1 (.scan ⟨"t_a", "t_a"⟩) (.scan ⟨[⟨"t_a", "_f=1_]"⟩]⟩)]

theorem loadThenScan_run : ∃ s, SystemRun loadThenScan s := by
  have h₀ : SystemRun ([] : List (Event ℕ Request Reply)) _ := .start
  have h₁ := h₀.step (.send _ 0 (.put ⟨"t_a", "_f=1_]"⟩) rfl)
  have h₂ := h₁.step (.exec _ 0 (.put ⟨"t_a", "_f=1_]"⟩) (by decide))
  have h₃ := h₂.step (.recv _ 0 0 (.put ⟨false⟩) (by decide) (by decide))
  have h₄ := h₃.step (.send _ 1 (.scan ⟨"t_a", "t_a"⟩) (by decide))
  have h₅ := h₄.step (.exec _ 1 (.scan ⟨"t_a", "t_a"⟩) (by decide))
  exact ⟨_, h₅⟩

/-- The keys of the loading driver. -/
def oneKey : InsertedKeys := SortedMap.empty.insert "t_a" ()

theorem insertOne_translated :
    interpretYcsbCall .dev "INSERT t a [ f=1 ]\n".toList SortedMap.empty =
      .ok (some (.put "t_a" "_f=1_]", "INSERT"), oneKey) := by
  rfl

theorem scanTwo_translated :
    interpretYcsbCall .dev "SCAN t a 2\n".toList oneKey =
      .ok (some (.scan "t_a" "t_a", "SCAN"), oneKey) := by
  rfl

theorem loadThenScan_workload : Workload loadThenScan := by
  intro c id req hsend
  simp only [loadThenScan, List.mem_cons, reduceCtorEq, Event.send.injEq, List.not_mem_nil,
    or_false, false_or] at hsend
  rcases hsend with ⟨-, -, rfl⟩ | ⟨-, -, rfl⟩
  · exact ⟨_, _, _, _, _, insertOne_translated⟩
  · exact ⟨_, _, _, _, _, scanTwo_translated⟩

theorem loaded_keys_found_loadThenScan :
    ∃ pairs, Reply.scan ⟨[⟨"t_a", "_f=1_]"⟩]⟩ = .scan ⟨pairs⟩ ∧
      (oneKey.keysFrom "t_a").take 2 ⊆ pairs.map KVPair.key ∧
      min 2 (oneKey.keysFrom "t_a").length ≤ pairs.length := by
  obtain ⟨s, hs⟩ := loadThenScan_run
  have hsplit : order loadThenScan =
      [⟨0, .put ⟨"t_a", "_f=1_]"⟩, .put ⟨false⟩⟩] ++
        ⟨1, .scan ⟨"t_a", "t_a"⟩, .scan ⟨[⟨"t_a", "_f=1_]"⟩]⟩⟩ :: [] := rfl
  have hline : ScanLine "SCAN t a 2\n".toList "t_a" 2 :=
    ⟨["t", "a", "2"], ["2"], [], by decide, rfl, rfl⟩
  have hkeys : ∀ key ∈ oneKey.keys, LoadedBefore loadThenScan 1 key := by
    refine List.forall_mem_singleton.mpr ?_
    exact ⟨0, 0, "_f=1_]", .put ⟨false⟩, 1, .scan ⟨"t_a", "t_a"⟩, by decide, by decide⟩
  exact (loaded_keys_found hs loadThenScan_workload hsplit).2.2 _ _ _ _ _ _ _ _
    scanTwo_translated hline (by decide) (by decide) rfl hkeys

end MadKV.Bencher
