import MadKV.Bencher.Loaded
import MadKV.Bencher.Printed
import MadKV.Bencher.Reversed
import MadKV.Bencher.ScanRange
import MadKV.Bencher.Survival
import MadKV.Fuzzer.Coverage
import MadKV.Fuzzer.EndToEnd
import MadKV.Fuzzer.Mismatch
import MadKV.Fuzzer.NoFalseAlarm
import MadKV.Fuzzer.ScanEntries
import MadKV.Fuzzer.SingleClient
import MadKV.Fuzzer.Statistics
import MadKV.Fuzzer.Stopping
import MadKV.Fuzzer.Trimming
import MadKV.RefCli.Language
import MadKV.Store.Conservation
import MadKV.Store.Isolation
import MadKV.Store.Linearizability
import MadKV.Store.Noninterference
import MadKV.Sumgen.Outcome
import MadKV.Sumgen.ReadsBack
import MadKV.Sumgen.Tallies
import MadKV.Support.IntervalChain
import MadKV.Wire.Grammar
import MadKV.Wire.InOrder
import MadKV.Wire.Presence
import MadKV.Wire.RoundTrip
import MadKV.Wire.RpcFailure
