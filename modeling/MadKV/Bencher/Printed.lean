import MadKV.Sumgen.Tallies

/-!
# When the benchmark prints

A feeder may panic, but the main thread does not: it prints the results if every
client and every driver starts and every feeder returns its statistics, and it returns
an error otherwise. What is sorted for a percentile are whole numbers of microseconds.
-/

namespace MadKV.Bencher

open Runner Support Spec

variable {F : Type} {f : F64 F}

/-! ## A row -/

theorem index_ok {samples : List F} {i : ℕ} (h : i < samples.length) :
    ∃ sample, index samples i = .ok sample := by
  unfold index
  rw [List.getElem?_eq_getElem h]
  exact ⟨_, rfl⟩

variable [NatCast F]

/-- The samples are whole numbers. -/
def Whole (samples : List F) : Prop := ∀ sample ∈ samples, ∃ k : ℕ, sample = k

theorem whole_latencies (op : String) (es : List Exchange) : Whole (latencies op es : List F) := by
  intro sample hsample
  obtain ⟨e, -, rfl⟩ := List.mem_map.mp hsample
  exact ⟨_, rfl⟩

theorem sortSamples_ok (hcmp : ∀ k : ℕ, f.partialCmp (k : F) k ≠ none) {samples : List F}
    (h : Whole samples) :
    ∃ sorted, sortSamples f samples = .ok sorted ∧ sorted.length = samples.length := by
  have hcompared : ¬ (2 ≤ samples.length ∧
      ∃ sample ∈ samples, f.partialCmp sample sample = none) := by
    rintro ⟨-, sample, hsample, hnone⟩
    obtain ⟨k, rfl⟩ := h sample hsample
    exact hcmp k hnone
  exact ⟨_, if_neg hcompared, List.length_insertionSort _ _⟩

variable [Add F] [Mul F] [Div F] [OfScientific F]

/-- Neither the comparisons nor the indices of `latency_stats` panic. -/
theorem latencyStats_ok (hcmp : ∀ k : ℕ, f.partialCmp (k : F) k ≠ none) {samples : List F}
    (h : Whole samples) : ∃ found, latencyStats f samples = .ok found := by
  unfold latencyStats
  split_ifs with hempty
  · exact ⟨_, rfl⟩
  · obtain ⟨sorted, hsorted, hlen⟩ := sortSamples_ok hcmp h
    have hpos : 0 < sorted.length := hlen ▸ List.length_pos_of_ne_nil hempty
    obtain ⟨least, hleast⟩ := index_ok hpos
    obtain ⟨most, hmost⟩ := index_ok (show sorted.length - 1 < sorted.length by omega)
    obtain ⟨p99, hp99⟩ := index_ok (show Nat.min (f.ceil ((sorted.length : F) * 0.99) - 1)
      (sorted.length - 1) < sorted.length from (Nat.min_le_right _ _).trans_lt (by omega))
    simp only [hsorted, hleast, hmost, hp99, bind, Except.bind]
    exact ⟨_, rfl⟩

theorem rowsOf_ok_of_whole (hcmp : ∀ k : ℕ, f.partialCmp (k : F) k ≠ none)
    {entries : List (String × List F)} (h : ∀ e ∈ entries, Whole e.2) :
    ∃ rows, Stats.rowsOf f entries = .ok rows := by
  induction entries with
  | nil => exact ⟨[], rfl⟩
  | cons e entries ih =>
    obtain ⟨op, samples⟩ := e
    obtain ⟨found, hfound⟩ := latencyStats_ok hcmp (h (op, samples) (by simp))
    obtain ⟨rest, hrest⟩ := ih fun e he => h e (by simp [he])
    simp only [Stats.rowsOf, Stats.row, hfound, hrest, bind, Except.bind]
    exact ⟨_, rfl⟩

theorem print_ok (hcmp : ∀ k : ℕ, f.partialCmp (k : F) k ≠ none) {stats : CliStats F}
    {es : List Exchange} (h : ∀ op, stats.samplesOf op = latencies op es) (colors : Colors)
    (phase : String) : ∃ text, stats.toStats.print f colors phase = .ok text := by
  have hwhole : ∀ e ∈ stats.latSamples.entries, Whole e.2 := by
    rintro ⟨op, samples⟩ hentry
    have hfind : stats.latSamples.find? op = some samples :=
      (stats.latSamples.mem_entries_iff op samples).mp hentry
    have hsamples : samples = latencies op es := by
      rw [← h, CliStats.samplesOf, hfind, Option.getD_some]
    exact hsamples ▸ whole_latencies op es
  obtain ⟨rows, hrows⟩ := rowsOf_ok_of_whole hcmp hwhole
  exact ⟨_, by simp only [Stats.print, Stats.rows, hrows, bind, Except.bind]; rfl⟩

/-! ## A phase -/

variable [Max F] {build : Build} {ikeys : InsertedKeys}

/-- The driver and its client start, and its feeder returns statistics in time. -/
def YcsbDriver.Completes (F : Type) [NatCast F] [Add F] [Mul F] [Div F] [OfScientific F]
    (build : Build) (ikeys : InsertedKeys) (driver : YcsbDriver) : Prop :=
  driver.client = .ok () ∧ driver.spawn = .ok () ∧
    ∃ cliStats : CliStats F, ∃ cliIkeys, driver.wait build ikeys = .ok (some (cliStats, cliIkeys))

theorem startAll_ok_iff {starts : List (Except RunnerError Unit)} :
    startAll starts = .ok () ↔ ∀ start ∈ starts, start = .ok () := by
  induction starts with
  | nil => simp [startAll]
  | cons start starts ih =>
    cases start with
    | error err => simp [startAll]
    | ok _ => simp [startAll, ih]

theorem mergeAll_ok_iff {drivers : List YcsbDriver} (acc : CliStats F × InsertedKeys) :
    (∃ result, mergeAll build ikeys drivers acc = .ok result) ↔
      ∀ driver ∈ drivers, ∃ cliStats : CliStats F, ∃ cliIkeys,
        driver.wait build ikeys = .ok (some (cliStats, cliIkeys)) := by
  induction drivers generalizing acc with
  | nil => simp [mergeAll]
  | cons driver drivers ih =>
    rw [List.forall_mem_cons, mergeAll]
    rcases hwait : (driver.wait build ikeys : Except RunnerError (Option (CliStats F × _))) with
      err | _ | ⟨cliStats, cliIkeys⟩
    · simp
    · simp
    · obtain ⟨es, haccounted⟩ := wait_ok hwait
      have hcli : cliStats.merged ≠ 0 := by simp [haccounted.merged]
      cases hmerge : acc.1.merge build cliStats with
      | error why => exact absurd hmerge (CliStats.merge_panic_free hcli why)
      | ok merged =>
        simp only [hmerge, ih]
        exact ⟨fun h => ⟨⟨cliStats, cliIkeys, rfl⟩, h⟩, fun h => h.2⟩

/-- A phase returns its statistics exactly when all its drivers complete. -/
theorem benchPhase_ok_iff {drivers : List YcsbDriver} :
    (∃ result : CliStats F × InsertedKeys, benchPhase build drivers ikeys = .ok result) ↔
      ∀ driver ∈ drivers, driver.Completes F build ikeys := by
  have hclients : startAll (drivers.map YcsbDriver.client) = .ok () ↔
      ∀ driver ∈ drivers, driver.client = .ok () := by
    rw [startAll_ok_iff, List.forall_mem_map]
  have hspawns : startAll (drivers.map YcsbDriver.spawn) = .ok () ↔
      ∀ driver ∈ drivers, driver.spawn = .ok () := by
    rw [startAll_ok_iff, List.forall_mem_map]
  constructor
  · rintro ⟨result, h⟩
    cases hclient : startAll (drivers.map YcsbDriver.client) with
    | error err => simp [benchPhase, hclient] at h
    | ok _ =>
      cases hspawn : startAll (drivers.map YcsbDriver.spawn) with
      | error err => simp [benchPhase, ycsbBench, hclient, hspawn] at h
      | ok _ =>
        have hmerged : mergeAll build ikeys drivers (.new, SortedMap.empty) = .ok result := by
          simpa [benchPhase, ycsbBench, hclient, hspawn] using h
        have hwaits := (mergeAll_ok_iff _).mp ⟨result, hmerged⟩
        exact fun driver hdriver => ⟨hclients.mp hclient driver hdriver,
          hspawns.mp hspawn driver hdriver, hwaits driver hdriver⟩
  · intro h
    have hclient := hclients.mpr fun driver hdriver => (h driver hdriver).1
    have hspawn := hspawns.mpr fun driver hdriver => (h driver hdriver).2.1
    obtain ⟨result, hmerged⟩ := (mergeAll_ok_iff (.new, SortedMap.empty)).mpr
      fun driver hdriver => (h driver hdriver).2.2
    exact ⟨result, by simp only [benchPhase, hclient, ycsbBench, hspawn, hmerged]⟩

theorem benchPhase_panic_free {drivers : List YcsbDriver} (why : Panic) :
    (benchPhase build drivers ikeys : Except Failure (CliStats F × InsertedKeys)) ≠
      .error (.panic why) := by
  unfold benchPhase
  cases startAll (drivers.map YcsbDriver.client) with
  | error err => simp
  | ok _ => simpa using ycsbBench_panic_free why

/-! ## Both phases -/

/-- With arguments that pass its checks `main` never panics, and prints the results exactly
when all drivers of the load phase complete, and then all of the run phase, which start
from the keys that the load phase inserted. -/
theorem bench_prints_iff (hcmp : ∀ k : ℕ, f.partialCmp (k : F) k ≠ none) {colors : Colors}
    {workload : Char} {clis : List (YcsbDriver × YcsbDriver)} (hclis : clis.length ≠ 0)
    (hworkload : workload ∈ validWorkloads) :
    (∀ why, benchMain build f colors workload clis ≠ .error (.panic why)) ∧
    ((∃ log, benchMain build f colors workload clis = .ok log) ↔
      (∀ cli ∈ clis, cli.1.Completes F build SortedMap.empty) ∧
      ∀ load : CliStats F, ∀ ikeysLoad,
        benchPhase build (clis.map Prod.fst) SortedMap.empty = .ok (load, ikeysLoad) →
        ∀ cli ∈ clis, cli.2.Completes F build ikeysLoad) := by
  have hphases : ∀ ikeys, (∀ cli ∈ clis, cli.2.Completes F build ikeys) ↔
      ∃ result : CliStats F × InsertedKeys,
        benchPhase build (clis.map Prod.snd) ikeys = .ok result := by
    intro ikeys
    rw [benchPhase_ok_iff, List.forall_mem_map]
  have hload : (∀ cli ∈ clis, cli.1.Completes F build SortedMap.empty) ↔
      ∃ result : CliStats F × InsertedKeys,
        benchPhase build (clis.map Prod.fst) SortedMap.empty = .ok result := by
    rw [benchPhase_ok_iff, List.forall_mem_map]
  simp only [hphases, hload]
  unfold benchMain
  rw [if_neg hclis, if_neg (not_not.mpr hworkload)]
  rcases hfirst : (benchPhase build (clis.map Prod.fst) SortedMap.empty :
      Except Failure (CliStats F × InsertedKeys)) with (err | why) | ⟨load, ikeysLoad⟩
  · simp [bind, Except.bind]
  · exact absurd hfirst (benchPhase_panic_free why)
  · rcases hsecond : (benchPhase build (clis.map Prod.snd) ikeysLoad :
        Except Failure (CliStats F × InsertedKeys)) with (err | why) | ⟨run, ikeysRun⟩
    · simp [bind, Except.bind, hsecond]
    · exact absurd hsecond (benchPhase_panic_free why)
    · obtain ⟨loadEss, hloadEss⟩ := ycsbBench_ok (ycsbBench_of_benchPhase hfirst)
      obtain ⟨runEss, hrunEss⟩ := ycsbBench_ok (ycsbBench_of_benchPhase hsecond)
      obtain ⟨loadText, hloadText⟩ := print_ok hcmp hloadEss.samples colors "Load"
      obtain ⟨runText, hrunText⟩ := print_ok hcmp hrunEss.samples colors "Run"
      have hprinted : printResults f colors workload clis.length load.toStats run.toStats =
          .ok (unlines [resultsLine colors workload clis.length] ++ loadText ++ runText) := by
        simp only [printResults, hloadText, hrunText, bind, Except.bind]
      simp [bind, Except.bind, hsecond, hprinted, Except.mapError]

theorem bench_prints_iff_twoClis :
    ∃ log, benchMain .release Sumgen.decimal Sumgen.ansi 'a' twoClis = .ok log := by
  have hcmp : ∀ k : ℕ, Sumgen.decimal.partialCmp (k : ℚ) k ≠ none := fun k => by
    simp [Sumgen.decimal]
  refine (bench_prints_iff hcmp (by decide) (by decide)).2.mpr ⟨?_, fun load ikeysLoad hload => ?_⟩
  · exact List.forall_mem_map.mp (benchPhase_ok_iff.mp ⟨_, benchPhase_load⟩)
  · have hresult := Except.ok.inj (benchPhase_load.symm.trans hload)
    obtain rfl : keysAB = ikeysLoad := congrArg Prod.snd hresult
    exact List.forall_mem_map.mp (benchPhase_ok_iff.mp ⟨_, benchPhase_run⟩)

end MadKV.Bencher
