import MadKV.Bencher.Account

/-!
# The benchmark

`ycsb_bench` launches a driver for each client, waits for them in turn and merges
what their feeders return. The inserted keys of the load phase are known to the
drivers of the run phase.
-/

namespace MadKV.Bencher

open Runner Support

variable {F : Type}

namespace CliStats

/-- `entry(op).or_default().extend(samples)`. -/
def extend (latSamples : SortedMap String (List F)) (e : String × List F) :
    SortedMap String (List F) :=
  latSamples.insert e.1 ((latSamples.find? e.1).getD [] ++ e.2)

/-- Merge with another stats struct, taking reasonable arithmetics on the stats fields. -/
def merge [Max F] (build : Build) (stats other : CliStats F) : Except Panic (CliStats F) :=
  if build = .dev ∧ other.merged = 0 then .error (.assertion "other.merged != 0")
  else if stats.merged = 0 then .ok other
  -- take longer total run time
  else .ok ⟨⟨max stats.totalMs other.totalMs,
    other.latSamples.entries.foldl extend stats.latSamples⟩, stats.merged + other.merged⟩

end CliStats

/-- What a driver takes from outside: whether its client and its process start, what that
prints, how the client serves the feeder, and whether the process can be killed. -/
structure YcsbDriver where
  client : Except RunnerError Unit
  spawn : Except RunnerError Unit
  stdout : List UInt8
  served : List Served
  kill : Except RunnerError Unit

/-- Start one after another, up to the first that fails. -/
def startAll : List (Except RunnerError Unit) → Except RunnerError Unit
  | [] => .ok ()
  | .ok () :: starts => startAll starts
  | .error err :: _ => .error err

section Bench

variable [NatCast F] [Add F] [Mul F] [Div F] [OfScientific F] [Max F]

namespace YcsbDriver

variable (driver : YcsbDriver)

def feeder (build : Build) (ikeys : InsertedKeys) : FeederResult F :=
  feederThread build driver.served driver.stdout ikeys

/-- Wait for the workload to finish. A feeder that panics drops its end of the channel. -/
def wait (build : Build) (ikeys : InsertedKeys) :
    Except RunnerError (Option (CliStats F × InsertedKeys)) :=
  match driver.feeder build ikeys with
  | .running => .error (.chan "timed out waiting on channel")
  | .panic _ => .error (.chan "channel is empty and sending half is closed")
  | .returned feederRet => driver.kill.map fun _ => feederRet

end YcsbDriver

/-- `extend` of a `BTreeSet`. -/
def InsertedKeys.extend (ikeys cliIkeys : InsertedKeys) : InsertedKeys :=
  cliIkeys.keys.foldl (fun ikeys key => SortedMap.insert ikeys key ()) ikeys

/-- Wait for the drivers in turn. -/
def mergeAll (build : Build) (ikeys : InsertedKeys) :
    List YcsbDriver → CliStats F × InsertedKeys → Except Failure (CliStats F × InsertedKeys)
  | [], acc => .ok acc
  | driver :: drivers, (stats, ikeysOut) =>
    match driver.wait build ikeys with
    | .error err => .error (.err err)
    | .ok none => .error (.err (.io "a YCSB driver process failed"))
    | .ok (some (cliStats, cliIkeys)) =>
      match stats.merge build cliStats with
      | .error why => .error (.panic why)
      | .ok stats => mergeAll build ikeys drivers (stats, ikeysOut.extend cliIkeys)

/-- YCSB benchmarking logic. -/
def ycsbBench (build : Build) (drivers : List YcsbDriver) (ikeys : InsertedKeys) :
    Except Failure (CliStats F × InsertedKeys) :=
  match startAll (drivers.map YcsbDriver.spawn) with
  | .error err => .error (.err err)
  | .ok () => mergeAll build ikeys drivers (.new, SortedMap.empty)

/-- A phase of `main`. -/
def benchPhase (build : Build) (drivers : List YcsbDriver) (ikeys : InsertedKeys) :
    Except Failure (CliStats F × InsertedKeys) :=
  match startAll (drivers.map YcsbDriver.client) with
  | .error err => .error (.err err)
  | .ok () => ycsbBench build drivers ikeys

/-- The results that `main` prints. Each client stands for a driver in either phase. -/
def benchMain (build : Build) (f : F64 F) (colors : Colors) (workload : Char)
    (clis : List (YcsbDriver × YcsbDriver)) : Except Failure String :=
  if clis.length = 0 then .error (.panic (.assertion "args.num_clis != 0"))
  else if workload ∉ validWorkloads then
    .error (.panic (.assertion "VALID_WORKLOADS.contains(&args.workload)"))
  else do
    let (statsLoad, ikeysLoad) ← benchPhase build (clis.map Prod.fst) SortedMap.empty
    let (statsRun, _) ← benchPhase build (clis.map Prod.snd) ikeysLoad
    (printResults f colors workload clis.length statsLoad.toStats statsRun.toStats).mapError .panic

end Bench

/-! ## Merging -/

namespace CliStats

variable {stats other merged : CliStats F} {build : Build}

theorem find?_foldl_extend {entries : List (String × List F)}
    (h : (entries.map Prod.fst).Nodup) (latSamples : SortedMap String (List F)) (op : String) :
    (entries.foldl extend latSamples).find? op =
      if op ∈ entries.map Prod.fst then
        some ((latSamples.find? op).getD [] ++ (entries.lookup op).getD [])
      else latSamples.find? op := by
  induction entries generalizing latSamples with
  | nil => simp
  | cons e entries ih =>
    obtain ⟨hnew, hnodup⟩ := List.nodup_cons.mp h
    rw [List.foldl_cons, ih hnodup, extend, SortedMap.find?_insert, lookup_cons_ite]
    by_cases hop : op = e.1
    · subst hop
      simp [hnew]
    · have hmem : op ∈ (e :: entries).map Prod.fst ↔ op ∈ entries.map Prod.fst := by
        simp only [List.map_cons, List.mem_cons, hop, false_or]
      simp only [hmem, if_neg hop]

variable [Max F]

theorem merge_new [OfScientific F] (h : other.merged ≠ 0) :
    (new : CliStats F).merge build other = .ok other := by
  simp [merge, h, new]

/-- One after the other, the samples of both. -/
theorem merge_ok (hstats : stats.merged ≠ 0) (hother : other.merged ≠ 0)
    (h : stats.merge build other = .ok merged) :
    merged.merged = stats.merged + other.merged ∧
      merged.totalMs = max stats.totalMs other.totalMs ∧
      (∀ op, merged.samplesOf op = stats.samplesOf op ++ other.samplesOf op) ∧
      (stats.Sampled → other.Sampled → merged.Sampled) := by
  have hnodup : (other.latSamples.entries.map Prod.fst).Nodup :=
    (List.pairwise_map.mpr other.latSamples.sorted).imp fun hlt => hlt.ne
  rw [merge, if_neg (by simp [hother]), if_neg hstats] at h
  cases h
  have hfind : ∀ op, (other.latSamples.entries.foldl extend stats.latSamples).find? op =
      if op ∈ other.ops then some (stats.samplesOf op ++ other.samplesOf op)
      else stats.latSamples.find? op :=
    fun op => find?_foldl_extend hnodup stats.latSamples op
  have hnone : ∀ op, op ∉ other.ops → other.samplesOf op = [] := by
    intro op hop
    have hlookup : other.latSamples.find? op = none := by
      by_contra hsome
      obtain ⟨samples, hsamples⟩ := Option.ne_none_iff_exists'.mp hsome
      exact hop (List.mem_map.mpr ⟨_, (other.latSamples.mem_entries_iff op samples).mpr hsamples,
        rfl⟩)
    simp [samplesOf, hlookup]
  refine ⟨rfl, rfl, fun op => ?_, fun hs ho op samples hsamples => ?_⟩
  · by_cases hop : op ∈ other.ops
    · simp [samplesOf, hfind, hop]
    · rw [hnone op hop, List.append_nil]
      simp [samplesOf, hfind, hop]
  · rw [hfind] at hsamples
    split_ifs at hsamples with hop
    · obtain rfl := Option.some.inj hsamples
      simp [ho.mem_ops.mp hop]
    · exact hs op samples hsamples

theorem merge_panic_free (hother : other.merged ≠ 0) (why : Panic) :
    stats.merge build other ≠ .error why := by
  unfold merge
  rw [if_neg (by simp [hother])]
  split_ifs <;> simp

end CliStats

/-! ## The drivers together -/

theorem mem_keys_extend {ikeys cliIkeys : InsertedKeys} {key : String} :
    key ∈ (ikeys.extend cliIkeys).keys ↔ key ∈ ikeys.keys ∨ key ∈ cliIkeys.keys := by
  unfold InsertedKeys.extend
  induction cliIkeys.keys generalizing ikeys with
  | nil => simp
  | cons k keys ih =>
    rw [List.foldl_cons, ih, mem_keys_insert, List.mem_cons]
    tauto

/-- The longest of some times. -/
def longest [Max F] : F → List F → F := List.foldl max

/-- What the benchmark returns accounts for all that its drivers printed. -/
structure BenchAccount [NatCast F] [Add F] [Mul F] [Div F] [OfScientific F] [Max F]
    (build : Build) (drivers : List YcsbDriver) (ikeys : InsertedKeys)
    (ess : List (List Exchange)) (stats : CliStats F) (ikeys' : InsertedKeys) : Prop where
  exchanged : List.Forall₂
    (fun driver es => Exchanged build driver.served driver.stdout ikeys es) drivers ess
  merged : stats.merged = drivers.length
  totalMs : ∀ first rest, ess = first :: rest →
    stats.totalMs = longest (spanMs first) (rest.map spanMs)
  samples : ∀ op, stats.samplesOf op = latencies op ess.flatten
  sampled : stats.Sampled
  keys : ∀ key, key ∈ ikeys'.keys ↔ drivers ≠ [] ∧ key ∈ ikeys.keys ∨ PutBy ess.flatten key

section Drivers

variable [NatCast F] [Add F] [Mul F] [Div F] [OfScientific F] {build : Build}
  {ikeys ikeys' out : InsertedKeys} {driver : YcsbDriver} {drivers : List YcsbDriver}
  {stats : CliStats F}

theorem wait_ok {cliStats : CliStats F} {cliIkeys : InsertedKeys}
    (h : driver.wait build ikeys = .ok (some (cliStats, cliIkeys))) :
    ∃ es, Accounted build driver.served driver.stdout ikeys es cliStats cliIkeys := by
  unfold YcsbDriver.wait at h
  cases hfeeder : (driver.feeder build ikeys : FeederResult F) with
  | running => simp [hfeeder] at h
  | panic why => simp [hfeeder] at h
  | returned feederRet =>
    cases hkill : driver.kill with
    | error err => simp [hfeeder, hkill, Except.map] at h
    | ok _ =>
      obtain rfl : feederRet = some (cliStats, cliIkeys) := by
        simpa [hfeeder, hkill, Except.map] using h
      exact feederThread_accounted hfeeder

variable [Max F]

/-- A driver that was waited for is merged. -/
theorem mergeAll_cons {acc result : CliStats F × InsertedKeys}
    (h : mergeAll build ikeys (driver :: drivers) acc = .ok result) :
    ∃ es cliIkeys, ∃ cliStats merged : CliStats F,
      Accounted build driver.served driver.stdout ikeys es cliStats cliIkeys ∧
      acc.1.merge build cliStats = .ok merged ∧
      mergeAll build ikeys drivers (merged, acc.2.extend cliIkeys) = .ok result := by
  rw [mergeAll] at h
  cases hwait : (driver.wait build ikeys : Except RunnerError (Option (CliStats F × _))) with
  | error err => simp [hwait] at h
  | ok feederRet =>
    cases feederRet with
    | none => simp [hwait] at h
    | some feederRet =>
      obtain ⟨cliStats, cliIkeys⟩ := feederRet
      obtain ⟨es, haccounted⟩ := wait_ok hwait
      cases hmerge : acc.1.merge build cliStats with
      | error why => simp [hwait, hmerge] at h
      | ok merged =>
        simp only [hwait, hmerge] at h
        exact ⟨es, cliIkeys, cliStats, merged, haccounted, hmerge, h⟩

/-- From the first driver on. -/
theorem mergeAll_ok (hmerged : stats.merged ≠ 0) (hsampled : stats.Sampled)
    {result : CliStats F × InsertedKeys}
    (h : mergeAll build ikeys drivers (stats, out) = .ok result) :
    ∃ ess : List (List Exchange), List.Forall₂
      (fun driver es => Exchanged build driver.served driver.stdout ikeys es) drivers ess ∧
      result.1.merged = stats.merged + drivers.length ∧
      result.1.totalMs = longest stats.totalMs (ess.map spanMs) ∧
      (∀ op, result.1.samplesOf op = stats.samplesOf op ++ latencies op ess.flatten) ∧
      result.1.Sampled ∧
      ∀ key, key ∈ result.2.keys ↔
        key ∈ out.keys ∨ drivers ≠ [] ∧ key ∈ ikeys.keys ∨ PutBy ess.flatten key := by
  induction drivers generalizing stats out with
  | nil =>
    cases h
    exact ⟨[], .nil, rfl, rfl, fun op => by simp [latencies], hsampled, fun key => by simp [PutBy]⟩
  | cons driver drivers ih =>
    obtain ⟨es, cliIkeys, cliStats, merged, haccounted, hmerge, hrest⟩ := mergeAll_cons h
    have hcli : cliStats.merged ≠ 0 := by simp [haccounted.merged]
    obtain ⟨hcount, htotalMs, hsamples, hkept⟩ := CliStats.merge_ok hmerged hcli hmerge
    obtain ⟨ess, hess, hcount', htotalMs', hsamples', hsampled', hkeys'⟩ :=
      ih (by omega) (hkept hsampled haccounted.sampled) hrest
    refine ⟨es :: ess, .cons haccounted.exchanged hess, ?_, ?_, fun op => ?_, hsampled',
      fun key => ?_⟩
    · rw [hcount', hcount, haccounted.merged, List.length_cons]
      omega
    · rw [htotalMs', htotalMs, haccounted.totalMs]
      rfl
    · rw [hsamples', hsamples, haccounted.samples, List.flatten_cons, latencies_append,
        List.append_assoc]
    · rw [hkeys', mem_keys_extend, haccounted.keys, List.flatten_cons, putBy_append]
      have hne : driver :: drivers ≠ [] := by simp
      tauto

/-- No statistics of no clients are ever merged. -/
theorem mergeAll_panic_free {acc : CliStats F × InsertedKeys} (why : Panic) :
    mergeAll build ikeys drivers acc ≠ .error (.panic why) := by
  induction drivers generalizing acc with
  | nil => simp [mergeAll]
  | cons driver drivers ih =>
    rw [mergeAll]
    cases hwait : (driver.wait build ikeys : Except RunnerError (Option (CliStats F × _))) with
    | error err => simp
    | ok feederRet =>
      cases feederRet with
      | none => simp
      | some feederRet =>
        obtain ⟨cliStats, cliIkeys⟩ := feederRet
        obtain ⟨es, haccounted⟩ := wait_ok hwait
        have hcli : cliStats.merged ≠ 0 := by simp [haccounted.merged]
        cases hmerge : acc.1.merge build cliStats with
        | error why' => exact absurd hmerge (CliStats.merge_panic_free hcli why')
        | ok merged =>
          simp only [hmerge]
          exact ih

theorem ycsbBench_panic_free (why : Panic) :
    (ycsbBench build drivers ikeys : Except Failure (CliStats F × InsertedKeys)) ≠
      .error (.panic why) := by
  unfold ycsbBench
  cases hstart : startAll (drivers.map YcsbDriver.spawn) with
  | error err => simp
  | ok _ => simpa using mergeAll_panic_free why

/-- The statistics and the inserted keys of a phase account for all that its drivers printed. -/
theorem ycsbBench_ok {result : CliStats F × InsertedKeys}
    (h : ycsbBench build drivers ikeys = .ok result) :
    ∃ ess, BenchAccount build drivers ikeys ess result.1 result.2 := by
  unfold ycsbBench at h
  cases hstart : startAll (drivers.map YcsbDriver.spawn) with
  | error err => simp [hstart] at h
  | ok _ =>
    simp only [hstart] at h
    cases drivers with
    | nil =>
      cases h
      exact ⟨[], .nil, rfl, by simp, by simp [latencies], CliStats.sampled_new, by
        simp [PutBy, InsertedKeys.keys, SortedMap.empty]⟩
    | cons driver drivers =>
      obtain ⟨es, cliIkeys, cliStats, merged, haccounted, hmerge, hrest⟩ := mergeAll_cons h
      have hcli : cliStats.merged ≠ 0 := by simp [haccounted.merged]
      -- the first of the statistics replace the initial ones
      obtain rfl : cliStats = merged := by
        rw [CliStats.merge_new hcli] at hmerge
        exact Except.ok.inj hmerge
      obtain ⟨ess, hess, hcount, htotalMs, hsamples, hsampled, hkeys⟩ :=
        mergeAll_ok hcli haccounted.sampled hrest
      refine ⟨es :: ess, .cons haccounted.exchanged hess, ?_, ?_, fun op => ?_, hsampled,
        fun key => ?_⟩
      · rw [hcount, haccounted.merged, List.length_cons, Nat.add_comm]
      · rintro first rest hsplit
        obtain ⟨rfl, rfl⟩ := List.cons.inj hsplit
        rw [htotalMs, haccounted.totalMs]
      · rw [hsamples, haccounted.samples, List.flatten_cons, latencies_append]
      · have hempty : key ∉ InsertedKeys.keys SortedMap.empty := by
          simp [InsertedKeys.keys, SortedMap.empty]
        rw [hkeys, mem_keys_extend, haccounted.keys, List.flatten_cons, putBy_append]
        have hne : driver :: drivers ≠ [] := by simp
        tauto

theorem ycsbBench_of_benchPhase {result : CliStats F × InsertedKeys}
    (h : benchPhase build drivers ikeys = .ok result) :
    ycsbBench build drivers ikeys = .ok result := by
  unfold benchPhase at h
  cases hstart : startAll (drivers.map YcsbDriver.client) with
  | error err => simp [hstart] at h
  | ok _ => simpa [hstart] using h

end Drivers

/-! ## Two clients -/

/-- A driver that prints one line. -/
def oneLiner (line : String) : YcsbDriver :=
  ⟨.ok (), .ok (), bytes line, [prompt, prompt], .ok ()⟩

/-- What the feeder of such a driver measures. -/
def onceStats (op : String) : CliStats ℚ :=
  ⟨⟨secs 2000100 * 1000.0, SortedMap.empty.insert op [2000]⟩, 1⟩

theorem wait_oneLiner {line op : String} {call : KvCall} {ikeys ikeys' : InsertedKeys}
    (hpieces : pieces 10 (bytes line) = [bytes line])
    (hcall : interpretYcsbCall .release line.toList ikeys = .ok (some (call, op), ikeys')) :
    (oneLiner line).wait .release ikeys = .ok (some (onceStats op, ikeys')) := by
  have hfeeder : (oneLiner line).feeder .release ikeys =
      .returned (some (onceStats op, ikeys')) := by
    rw [YcsbDriver.feeder, feederThread, oneLiner, feederLoop_prompt rfl hpieces hcall,
      feederLoop_eof rfl]
    simp only [Feeder.called, CliStats.recordOp, latencyUs_prompt]
    rfl
  rw [YcsbDriver.wait, hfeeder]
  rfl

/-- Each client inserts a key, and then reads or scans what both inserted. -/
def twoClis : List (YcsbDriver × YcsbDriver) :=
  [(oneLiner "INSERT t a [ x ]\n", oneLiner "READ t a\n"),
    (oneLiner "INSERT t b [ y ]\n", oneLiner "SCAN t a 2\n")]

def keysAB : InsertedKeys := (SortedMap.empty.insert "t_a" ()).insert "t_b" ()

def insertStats : CliStats ℚ :=
  ⟨⟨secs 2000100 * 1000.0, SortedMap.empty.insert "INSERT" [2000, 2000]⟩, 2⟩

def readScanStats : CliStats ℚ :=
  ⟨⟨secs 2000100 * 1000.0, (SortedMap.empty.insert "READ" [2000]).insert "SCAN" [2000]⟩, 2⟩

theorem benchPhase_load : benchPhase .release (twoClis.map Prod.fst) SortedMap.empty =
    .ok (insertStats, keysAB) := by
  have hwaitA : (oneLiner "INSERT t a [ x ]\n").wait .release SortedMap.empty =
      .ok (some (onceStats "INSERT", SortedMap.empty.insert "t_a" ())) :=
    wait_oneLiner (by decide) rfl
  have hwaitB : (oneLiner "INSERT t b [ y ]\n").wait .release SortedMap.empty =
      .ok (some (onceStats "INSERT", SortedMap.empty.insert "t_b" ())) :=
    wait_oneLiner (by decide) rfl
  have hfirst : CliStats.new.merge .release (onceStats "INSERT") = .ok (onceStats "INSERT") := rfl
  have hsecond : (onceStats "INSERT").merge .release (onceStats "INSERT") = .ok insertStats := by
    simp only [CliStats.merge, onceStats, one_ne_zero, and_false, ↓reduceIte, max_self]
    rfl
  have hclient : startAll ((twoClis.map Prod.fst).map YcsbDriver.client) = .ok () := rfl
  have hspawn : startAll ((twoClis.map Prod.fst).map YcsbDriver.spawn) = .ok () := rfl
  simp only [benchPhase, hclient, ycsbBench, hspawn]
  simp only [twoClis, List.map_cons, List.map_nil, mergeAll, hwaitA, hfirst, hwaitB, hsecond]
  rfl

theorem benchPhase_run :
    benchPhase .release (twoClis.map Prod.snd) keysAB = .ok (readScanStats, keysAB) := by
  have hwaitA : (oneLiner "READ t a\n").wait .release keysAB =
      .ok (some (onceStats "READ", keysAB)) :=
    wait_oneLiner (by decide) rfl
  have hwaitB : (oneLiner "SCAN t a 2\n").wait .release keysAB =
      .ok (some (onceStats "SCAN", keysAB)) :=
    wait_oneLiner (by decide) rfl
  have hfirst : CliStats.new.merge .release (onceStats "READ") = .ok (onceStats "READ") := rfl
  have hsecond : (onceStats "READ").merge .release (onceStats "SCAN") = .ok readScanStats := by
    simp only [CliStats.merge, onceStats, one_ne_zero, and_false, ↓reduceIte, max_self]
    rfl
  have hclient : startAll ((twoClis.map Prod.snd).map YcsbDriver.client) = .ok () := rfl
  have hspawn : startAll ((twoClis.map Prod.snd).map YcsbDriver.spawn) = .ok () := rfl
  simp only [benchPhase, hclient, ycsbBench, hspawn]
  simp only [twoClis, List.map_cons, List.map_nil, mergeAll, hwaitA, hfirst, hwaitB, hsecond]
  rfl

end MadKV.Bencher
