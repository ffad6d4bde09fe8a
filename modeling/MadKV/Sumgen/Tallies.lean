import MadKV.Bencher.Bench
import MadKV.Sumgen.ReadsBack

/-!
# The printed table counts the calls

From what the YCSB drivers print to what the bencher prints: in the section of
each phase there is a line for each type of operation that was called, with the
number of its calls by all drivers.
-/

namespace MadKV.Sumgen

open Runner Support Spec Bencher

variable {F : Type} [NatCast F] [Add F] [Mul F] [Div F] [OfScientific F] {f : F64 F}

/-- The rows count the exchanges by their type. -/
structure Tallies (es : List Exchange) (rows : List Row) : Prop where
  sorted : (rows.map Row.op).Pairwise (· < ·)
  called : ∀ op, op ∈ rows.map Row.op ↔ ∃ e ∈ es, e.op = op
  counts : ∀ row ∈ rows, row.ops = toString (es.countP fun e => e.op = row.op)

theorem rowsOf_counts {entries : List (String × List F)} {rows : List Row}
    (h : Stats.rowsOf f entries = .ok rows) :
    rows.map (fun row => (row.op, row.ops)) =
      entries.map fun e => (e.1, toString e.2.length) := by
  induction entries generalizing rows with
  | nil =>
    cases h
    rfl
  | cons e entries ih =>
    obtain ⟨op, samples⟩ := e
    simp only [Stats.rowsOf, Stats.row, bind, Except.bind] at h
    cases hstats : latencyStats f samples with
    | error why => simp [hstats] at h
    | ok found =>
      cases hrest : Stats.rowsOf f entries with
      | error why => simp [hstats, hrest] at h
      | ok rest =>
        simp only [hstats, hrest, Except.ok.injEq] at h
        subst h
        simp [ih hrest]

/-- Where there is a sample for each exchange, the rows count them. -/
theorem tallies_of_samples {stats : CliStats F} {es : List Exchange} {rows : List Row}
    (hsampled : stats.Sampled) (hsamples : ∀ op, stats.samplesOf op = latencies op es)
    (h : stats.toStats.rows f = .ok rows) : Tallies es rows := by
  have hrows := rowsOf_counts h
  have hops : rows.map Row.op = stats.ops := by
    have hfst := congrArg (List.map Prod.fst) hrows
    simpa [Stats.ops, Function.comp_def] using hfst
  have hlength : ∀ op, (latencies op es : List F).length = es.countP fun e => e.op = op := by
    intro op
    rw [latencies, List.length_map, List.countP_eq_length_filter]
  refine ⟨?_, fun op => ?_, fun row hrow => ?_⟩
  · rw [hops]
    exact List.pairwise_map.mpr stats.latSamples.sorted
  · rw [hops, hsampled.mem_ops, hsamples, ← List.length_pos_iff, hlength, List.countP_pos_iff]
    simp
  · have hmem : (row.op, row.ops) ∈ rows.map fun row => (row.op, row.ops) :=
      List.mem_map.mpr ⟨row, hrow, rfl⟩
    rw [hrows] at hmem
    obtain ⟨⟨op, samples⟩, hentry, heq⟩ := List.mem_map.mp hmem
    obtain ⟨rfl, hops'⟩ : op = row.op ∧ toString samples.length = row.ops := by simpa using heq
    have hfind : stats.latSamples.find? row.op = some samples :=
      (stats.latSamples.mem_entries_iff _ samples).mp hentry
    have hsamplesOf : samples = latencies row.op es := by
      rw [← hsamples, CliStats.samplesOf, hfind, Option.getD_some]
    rw [← hops', hsamplesOf, hlength]

variable [Max F] {build : Build}

/-- Both sections of the log count the calls that the drivers of the phase made. -/
theorem bench_prints_counts {colors : Colors} {workload : Char}
    {clis : List (YcsbDriver × YcsbDriver)} {log : String}
    (h : benchMain build f colors workload clis = .ok log) :
    ∃ load run : CliStats F, ∃ ikeysLoad ikeysRun loadEss runEss loadRows runRows,
      BenchAccount build (clis.map Prod.fst) SortedMap.empty loadEss load ikeysLoad ∧
      BenchAccount build (clis.map Prod.snd) ikeysLoad runEss run ikeysRun ∧
      Tallies loadEss.flatten loadRows ∧ Tallies runEss.flatten runRows ∧
      log = unlines (resultsLine colors workload clis.length ::
        (sectionLines f colors load.toStats "Load" loadRows ++
          sectionLines f colors run.toStats "Run" runRows)) := by
  unfold benchMain at h
  split_ifs at h
  cases hload : (benchPhase build (clis.map Prod.fst) SortedMap.empty :
      Except Failure (CliStats F × InsertedKeys)) with
  | error failure => simp [hload, bind, Except.bind] at h
  | ok loadResult =>
    obtain ⟨load, ikeysLoad⟩ := loadResult
    cases hrun : (benchPhase build (clis.map Prod.snd) ikeysLoad :
        Except Failure (CliStats F × InsertedKeys)) with
    | error failure => simp [hload, hrun, bind, Except.bind] at h
    | ok runResult =>
      obtain ⟨run, ikeysRun⟩ := runResult
      cases hlog : printResults f colors workload clis.length load.toStats run.toStats with
      | error why => simp [hload, hrun, hlog, bind, Except.bind, Except.mapError] at h
      | ok text =>
        obtain rfl : text = log := by
          simpa [hload, hrun, hlog, bind, Except.bind, Except.mapError] using h
        obtain ⟨loadRows, runRows, hloadRows, hrunRows, htext⟩ := printResults_ok hlog
        obtain ⟨loadEss, hloadEss⟩ := ycsbBench_ok (ycsbBench_of_benchPhase hload)
        obtain ⟨runEss, hrunEss⟩ := ycsbBench_ok (ycsbBench_of_benchPhase hrun)
        exact ⟨load, run, ikeysLoad, ikeysRun, loadEss, runEss, loadRows, runRows, hloadEss,
          hrunEss, tallies_of_samples hloadEss.sampled hloadEss.samples hloadRows,
          tallies_of_samples hrunEss.sampled hrunEss.samples hrunRows, htext⟩

theorem benchMain_twoClis {f : F64 ℚ} {colors : Colors} {log : String}
    (h : printResults f colors 'a' 2 insertStats.toStats readScanStats.toStats = .ok log) :
    benchMain .release f colors 'a' twoClis = .ok log := by
  have hworkload : ¬ 'a' ∉ validWorkloads := by decide
  have hlen : twoClis.length = 2 := rfl
  unfold benchMain
  rw [if_neg (by simp [hlen]), if_neg hworkload, benchPhase_load]
  simp only [bind, Except.bind]
  rw [benchPhase_run, hlen]
  simp only [h, Except.mapError]

/-- Both drivers of the load phase count for its row, and the keys they inserted are those
that the run phase starts from. -/
theorem bench_prints_counts_twoClis :
    ∃ log, benchMain .release decimal ansi 'a' twoClis = .ok log ∧
      ∃ load run : CliStats ℚ, ∃ ikeysLoad ikeysRun loadEss runEss loadRows runRows,
        BenchAccount .release (twoClis.map Prod.fst) SortedMap.empty loadEss load ikeysLoad ∧
        BenchAccount .release (twoClis.map Prod.snd) ikeysLoad runEss run ikeysRun ∧
        Tallies loadEss.flatten loadRows ∧ Tallies runEss.flatten runRows ∧
        log = unlines (resultsLine ansi 'a' 2 ::
          (sectionLines decimal ansi load.toStats "Load" loadRows ++
            sectionLines decimal ansi run.toStats "Run" runRows)) := by
  have hload : insertStats.rows decimal =
      .ok [⟨"INSERT", "2", "2000.00", "2000", "2000", "2000"⟩] := by decide +kernel
  have hrun : readScanStats.rows decimal =
      .ok [⟨"READ", "1", "2000.00", "2000", "2000", "2000"⟩,
        ⟨"SCAN", "1", "2000.00", "2000", "2000", "2000"⟩] := by decide +kernel
  have hprint : ∃ log, printResults decimal ansi 'a' 2 insertStats.toStats readScanStats.toStats =
      .ok log := by
    simp only [printResults, Stats.print, hload, hrun, bind, Except.bind, Except.ok.injEq,
      exists_eq']
  obtain ⟨log, hprint⟩ := hprint
  exact ⟨log, benchMain_twoClis hprint, bench_prints_counts (benchMain_twoClis hprint)⟩

end MadKV.Sumgen
