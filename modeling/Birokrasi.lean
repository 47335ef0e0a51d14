import Birokrasi.Bytecode.Compiler
import Birokrasi.Bytecode.File
import Birokrasi.Bytecode.Image
import Birokrasi.Bytecode.Listing
import Birokrasi.Bytecode.Opcode
import Birokrasi.Challenge.Ordeal
import Birokrasi.Challenge.Prime
import Birokrasi.Challenge.Stages
import Birokrasi.Classic.Execution
import Birokrasi.Classic.Formula
import Birokrasi.Classic.Reader
import Birokrasi.Classic.State
import Birokrasi.Command.Debugger
import Birokrasi.Command.Programs
import Birokrasi.Command.Tool
import Birokrasi.Command.Usage
import Birokrasi.Command.World
import Birokrasi.Decimal.Binary
import Birokrasi.Decimal.Digits
import Birokrasi.Decimal.Layout
import Birokrasi.Decimal.Read
import Birokrasi.Decimal.Root
import Birokrasi.Digest.Sha256
import Birokrasi.Disguise.Flattening
import Birokrasi.Disguise.Mapping
import Birokrasi.Disguise.Mutation
import Birokrasi.Disguise.Relocation
import Birokrasi.Disguise.Variants
import Birokrasi.Extended.Arguments
import Birokrasi.Extended.Blocks
import Birokrasi.Extended.Execution
import Birokrasi.Extended.Expression
import Birokrasi.Extended.Operator
import Birokrasi.Extended.Pattern
import Birokrasi.Extended.Services
import Birokrasi.Extended.State
import Birokrasi.Extended.Store
import Birokrasi.Files
import Birokrasi.Guard.Shield
import Birokrasi.Guard.Watch
import Birokrasi.Json.Access
import Birokrasi.Json.Read
import Birokrasi.Json.Write
import Birokrasi.Machine.Execution
import Birokrasi.Machine.Guarded
import Birokrasi.Machine.State
import Birokrasi.Main
import Birokrasi.Project
import Birokrasi.Random.Source
import Birokrasi.Random.Twister
import Birokrasi.Structured.Arguments
import Birokrasi.Structured.Execution
import Birokrasi.Structured.Expression
import Birokrasi.Structured.Parser
import Birokrasi.Structured.State
import Birokrasi.Structured.Syntax
import Birokrasi.Survey.Coverage
import Birokrasi.Survey.Probe
import Birokrasi.Survey.Report
import Birokrasi.Survey.Sample
import Birokrasi.Survey.Verdict
import Birokrasi.Table
import Birokrasi.Text.Blank
import Birokrasi.Text.Class
import Birokrasi.Text.Lower
import Birokrasi.Text.Quoted
import Birokrasi.Text.Split
import Birokrasi.Text.Utf8
import Birokrasi.Value.Arithmetic
import Birokrasi.Value.Basic
import Birokrasi.Value.Convert
import Birokrasi.Value.Fault
import Birokrasi.Value.Number
import Birokrasi.Proofs.Outcome
import Birokrasi.Proofs.Utf8
import Birokrasi.Proofs.FileRoundTrip
import Birokrasi.Proofs.Building
import Birokrasi.Proofs.CoreLanguage
import Birokrasi.Proofs.Stepping
import Birokrasi.Proofs.CompilerCorrectness
import Birokrasi.Proofs.DisguisedRuns
import Birokrasi.Proofs.BlockTrees
import Birokrasi.Proofs.LoopHeaders
import Birokrasi.Proofs.TreeExecution
import Birokrasi.Proofs.WrittenPrograms
import Birokrasi.Proofs.RunStates
import Birokrasi.Proofs.BudgetMirror
import Birokrasi.Proofs.TwoEditions
import Birokrasi.Proofs.SavedRuns
import Birokrasi.Proofs.Conservation
import Birokrasi.Proofs.WatchedRuns
import Birokrasi.Proofs.Scopes
import Birokrasi.Proofs.StepLimit
import Birokrasi.Proofs.EmittedCode
import Birokrasi.Proofs.Decoding
import Birokrasi.Proofs.CallFree
import Birokrasi.Proofs.NestedLines
import Birokrasi.Proofs.Conditionals
import Birokrasi.Proofs.Marks
import Birokrasi.Proofs.LoopMarks
import Birokrasi.Proofs.RunEndings
import Birokrasi.Proofs.EmittedDeeds
import Birokrasi.Proofs.WholeDoubles
import Birokrasi.Proofs.Walks
import Birokrasi.Proofs.MeetingPasses
import Birokrasi.Proofs.ExpressionTrees
import Birokrasi.Proofs.ExpressionTexts
import Birokrasi.Proofs.CompiledExpressions
import Birokrasi.Proofs.IrregularOperators
import Birokrasi.Proofs.ParsedLines
import Birokrasi.Proofs.Inspections
import Birokrasi.Proofs.NextAddresses
import Birokrasi.Proofs.ShieldedRuns
import Birokrasi.Proofs.WipedCode
import Birokrasi.Proofs.SameContent
import Birokrasi.Proofs.SleddedCode
import Birokrasi.Proofs.ExchangedCode
import Birokrasi.Proofs.VariantRuns
import Birokrasi.Proofs.SeededWords
import Birokrasi.Proofs.FunctionBodies
import Birokrasi.Proofs.CutFiles
import Birokrasi.Proofs.FailedSaves
import Birokrasi.Proofs.ExactValues
import Birokrasi.Proofs.PooledLiterals
import Birokrasi.Proofs.SpacedCode
import Birokrasi.Proofs.TamperedCode
import Birokrasi.Proofs.FlagStages
import Birokrasi.Proofs.ArgumentLists
import Birokrasi.Proofs.TwoSplitters
import Birokrasi.Proofs.InvertibleMappings
import Birokrasi.Proofs.ExpressionForms
import Birokrasi.Proofs.JoinedComparisons
import Birokrasi.Proofs.Operands
import Birokrasi.Proofs.SumsOfOperands
import Birokrasi.Proofs.TiledCode
import Birokrasi.Proofs.WholeRoots
import Birokrasi.Proofs.TrialDivision
import Birokrasi.Proofs.ShiftedJumps
import Birokrasi.Proofs.Decoys
