import StreamGrammar.BuildError
import StreamGrammar.Bundled
import StreamGrammar.Bundled.Csv
import StreamGrammar.Bundled.Ini
import StreamGrammar.Bundled.Numbers
import StreamGrammar.Callback
import StreamGrammar.CharSet
import StreamGrammar.CommandLine
import StreamGrammar.CommandLine.Arguments
import StreamGrammar.CommandLine.Report
import StreamGrammar.Encoding
import StreamGrammar.Encoding.Utf16
import StreamGrammar.Encoding.Utf8
import StreamGrammar.Engine
import StreamGrammar.Engine.Decision
import StreamGrammar.Engine.Failure
import StreamGrammar.Engine.Journal
import StreamGrammar.Feeding
import StreamGrammar.Grammar
import StreamGrammar.Grammar.RouteTable
import StreamGrammar.Graph
import StreamGrammar.Graph.Builder
import StreamGrammar.Graph.Reachability
import StreamGrammar.Graph.Run
import StreamGrammar.Graph.Validity
import StreamGrammar.Input.Capture
import StreamGrammar.Input.Location
import StreamGrammar.Input.Lookahead
import StreamGrammar.Log
import StreamGrammar.Main
import StreamGrammar.Matcher
import StreamGrammar.Matcher.Definition
import StreamGrammar.Matcher.Printer
import StreamGrammar.Printer
import StreamGrammar.Route
import StreamGrammar.Route.Candidate
import StreamGrammar.Route.Resolution
import StreamGrammar.Route.Way
import StreamGrammar.Symbol
import StreamGrammar.Text.Hexadecimal
import StreamGrammar.Text.Hidden
import StreamGrammar.Text.Quoted
import StreamGrammar.Proofs.CharSetAlgebra
import StreamGrammar.Proofs.CharSetLaws
import StreamGrammar.Proofs.MatcherSets
import StreamGrammar.Proofs.Walks
import StreamGrammar.Proofs.WayEnumeration
import StreamGrammar.Proofs.WayOrder
import StreamGrammar.Proofs.LookaheadFit
import StreamGrammar.Proofs.Division
import StreamGrammar.Proofs.DecisionLoop
import StreamGrammar.Proofs.Decisions
import StreamGrammar.Proofs.RouteTables
import StreamGrammar.Proofs.EngineSteps
import StreamGrammar.Proofs.Settling
import StreamGrammar.Proofs.Simulation
import StreamGrammar.Proofs.Erasure
import StreamGrammar.Proofs.StrictLanguage
import StreamGrammar.Proofs.Chunking
import StreamGrammar.Proofs.SilentWalks
import StreamGrammar.Proofs.CycleFaults
import StreamGrammar.Proofs.Streaming
import StreamGrammar.Proofs.Moments
import StreamGrammar.Proofs.Waiting
import StreamGrammar.Proofs.Histories
import StreamGrammar.Proofs.Conservation
import StreamGrammar.Proofs.MalformedInput
import StreamGrammar.Proofs.EndOfInput
import StreamGrammar.Proofs.Captures
import StreamGrammar.Proofs.Renewal
import StreamGrammar.Proofs.LifeCycle
import StreamGrammar.Proofs.StrictRoutes
import StreamGrammar.Proofs.Decoding
import StreamGrammar.Proofs.MatcherOverlap
import StreamGrammar.Proofs.Classification
import StreamGrammar.Proofs.Reading
import StreamGrammar.Proofs.EncodingAgreement
import StreamGrammar.Proofs.PieceSizes
import StreamGrammar.Proofs.SoundGraphs
import StreamGrammar.Proofs.CheckedSearch
import StreamGrammar.Proofs.CheckedResolution
import StreamGrammar.Proofs.CheckedBuild
import StreamGrammar.Proofs.CheckedTable
import StreamGrammar.Proofs.CheckedDecisions
import StreamGrammar.Proofs.CaptureBytes
import StreamGrammar.Proofs.CheckedEngine
import StreamGrammar.Proofs.LookupSafety
import StreamGrammar.Proofs.WholeInput
import StreamGrammar.Proofs.BundledBuilds
import StreamGrammar.Proofs.NumberLists
import StreamGrammar.Proofs.CsvRecords
import StreamGrammar.Proofs.CsvLineBreaks
import StreamGrammar.Proofs.ConfigurationFiles
import StreamGrammar.Proofs.CaptureRegions
import StreamGrammar.Proofs.LiveNodes
import StreamGrammar.Proofs.ListedEdges
import StreamGrammar.Proofs.Expectations
import StreamGrammar.Proofs.LineBreaks
import StreamGrammar.Proofs.SharedMatchers
import StreamGrammar.Proofs.Literals
