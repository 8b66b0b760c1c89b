import FlowProfile.Binary64
import FlowProfile.Collector
import FlowProfile.Comm.Operation
import FlowProfile.Comm.Site
import FlowProfile.Command.Basic
import FlowProfile.Command.Execute
import FlowProfile.Command.Options
import FlowProfile.Decimal.Basic
import FlowProfile.Decimal.Layout
import FlowProfile.Decimal.Literal
import FlowProfile.Decimal.Shortest
import FlowProfile.Exec.Counters
import FlowProfile.Exec.Host
import FlowProfile.Exec.Machine
import FlowProfile.Exec.Variables
import FlowProfile.Failure
import FlowProfile.Files
import FlowProfile.Graph.Basic
import FlowProfile.Graph.Edge
import FlowProfile.Graph.Edit
import FlowProfile.Graph.Json
import FlowProfile.Graph.Validate
import FlowProfile.Instrument.Basic
import FlowProfile.Instrument.Blocks
import FlowProfile.Instrument.Edges
import FlowProfile.Instrument.Strategy
import FlowProfile.Instrument.Traps
import FlowProfile.Instrument.Weight
import FlowProfile.Json.Basic
import FlowProfile.Json.Decode
import FlowProfile.Json.Printer
import FlowProfile.Json.Reader
import FlowProfile.Main
import FlowProfile.Notice
import FlowProfile.Price.Analyzer
import FlowProfile.Price.Model
import FlowProfile.Price.Report
import FlowProfile.Price.Source
import FlowProfile.Profile.Basic
import FlowProfile.Profile.Binding
import FlowProfile.Profile.Json
import FlowProfile.Proofs.Collector
import FlowProfile.Proofs.Comm.RankNames
import FlowProfile.Proofs.Exec.AddedWeights
import FlowProfile.Proofs.Exec.Agreement
import FlowProfile.Proofs.Exec.Counting
import FlowProfile.Proofs.Exec.Declared
import FlowProfile.Proofs.Exec.EdgeCounts
import FlowProfile.Proofs.Exec.ExactTimes
import FlowProfile.Proofs.Exec.Executions
import FlowProfile.Proofs.Exec.Faults
import FlowProfile.Proofs.Exec.Handlers
import FlowProfile.Proofs.Exec.Instruction
import FlowProfile.Proofs.Exec.Intervals
import FlowProfile.Proofs.Exec.LastStored
import FlowProfile.Proofs.Exec.Library
import FlowProfile.Proofs.Exec.Payloads
import FlowProfile.Proofs.Exec.Places
import FlowProfile.Proofs.Exec.Quiet
import FlowProfile.Proofs.Exec.RankQueries
import FlowProfile.Proofs.Exec.Records
import FlowProfile.Proofs.Exec.Registrations
import FlowProfile.Proofs.Exec.Requests
import FlowProfile.Proofs.Exec.Safety
import FlowProfile.Proofs.Exec.Simulation
import FlowProfile.Proofs.Exec.StepLimit
import FlowProfile.Proofs.Exec.Timers
import FlowProfile.Proofs.Exec.Trace
import FlowProfile.Proofs.Graph.Change
import FlowProfile.Proofs.Graph.Document
import FlowProfile.Proofs.Graph.Edited
import FlowProfile.Proofs.Graph.Plain
import FlowProfile.Proofs.Graph.Refinement
import FlowProfile.Proofs.Graph.Words
import FlowProfile.Proofs.Instrument.Applied
import FlowProfile.Proofs.Instrument.Arrays
import FlowProfile.Proofs.Instrument.BlockWeights
import FlowProfile.Proofs.Instrument.Calls
import FlowProfile.Proofs.Instrument.CriticalEdges
import FlowProfile.Proofs.Instrument.EdgeCounters
import FlowProfile.Proofs.Instrument.EdgeLayout
import FlowProfile.Proofs.Instrument.EdgeSlots
import FlowProfile.Proofs.Instrument.Enclosing
import FlowProfile.Proofs.Instrument.Erasure
import FlowProfile.Proofs.Instrument.Installed
import FlowProfile.Proofs.Instrument.Instrumented
import FlowProfile.Proofs.Instrument.Originals
import FlowProfile.Proofs.Instrument.PassFailures
import FlowProfile.Proofs.Instrument.Passes
import FlowProfile.Proofs.Instrument.PayloadTraps
import FlowProfile.Proofs.Instrument.Placement
import FlowProfile.Proofs.Instrument.RankTraps
import FlowProfile.Proofs.Instrument.Refusals
import FlowProfile.Proofs.Instrument.Registering
import FlowProfile.Proofs.Instrument.Repeated
import FlowProfile.Proofs.Instrument.Sites
import FlowProfile.Proofs.Instrument.SplitOrder
import FlowProfile.Proofs.Instrument.Splitting
import FlowProfile.Proofs.Instrument.TimedCalls
import FlowProfile.Proofs.Instrument.Timing
import FlowProfile.Proofs.Instrument.WeightSyntax
import FlowProfile.Proofs.Json.Decode
import FlowProfile.Proofs.Json.Pretty
import FlowProfile.Proofs.Outcome
import FlowProfile.Proofs.Price.Breakdown
import FlowProfile.Proofs.Price.Computation
import FlowProfile.Proofs.Price.Ignoring
import FlowProfile.Proofs.Price.Instrumented
import FlowProfile.Proofs.Price.Merged
import FlowProfile.Proofs.Price.Parts
import FlowProfile.Proofs.Price.Totals
import FlowProfile.Proofs.Profile.Additive
import FlowProfile.Proofs.Profile.BindFaults
import FlowProfile.Proofs.Profile.BlockCalls
import FlowProfile.Proofs.Profile.CommProfile
import FlowProfile.Proofs.Profile.Conversion
import FlowProfile.Proofs.Profile.EdgeBinding
import FlowProfile.Proofs.Profile.EdgeProfile
import FlowProfile.Proofs.Profile.Fits
import FlowProfile.Proofs.Profile.FreshProfile
import FlowProfile.Proofs.Profile.Merging
import FlowProfile.Proofs.Profile.Rebinding
import FlowProfile.Proofs.Profile.Sum
import FlowProfile.Proofs.Profile.SumBinding
import FlowProfile.Proofs.Profile.TimeProfile
import FlowProfile.Proofs.Profile.WeightProfile
import FlowProfile.Proofs.Record.Arguments
import FlowProfile.Proofs.Record.LastAnswer
import FlowProfile.Proofs.Record.Ranks
import FlowProfile.Proofs.Record.RoundTrip
import FlowProfile.Proofs.Record.Rounds
import FlowProfile.Proofs.Record.Spelling
import FlowProfile.Proofs.Record.Truncation
import FlowProfile.Proofs.Sums
import FlowProfile.Proofs.Text.Numeral
import FlowProfile.Proofs.Text.Utf8
import FlowProfile.Proofs.Transparency
import FlowProfile.Record.Basic
import FlowProfile.Record.Codec
import FlowProfile.Table
import FlowProfile.Text.Blank
import FlowProfile.Text.Invisible
import FlowProfile.Text.Marks
import FlowProfile.Text.Numeral
import FlowProfile.Text.Quoted
import FlowProfile.Text.Ranges
import FlowProfile.Text.Unassigned
import FlowProfile.Text.Utf8
