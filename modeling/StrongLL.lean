import StrongLL.Grammar.Expansion
import StrongLL.Grammar.Recorder
import StrongLL.Lexer.Bounds
import StrongLL.Main
import StrongLL.Parser.Derivation
import StrongLL.Parser.Moments
import StrongLL.Proofs.Expansion
import StrongLL.Proofs.LeftRecursion
import StrongLL.Proofs.FirstSets
import StrongLL.Proofs.FirstStore
import StrongLL.Proofs.Contexts
import StrongLL.Proofs.FollowSets
import StrongLL.Proofs.Decisions
import StrongLL.Proofs.Recording
import StrongLL.Proofs.Prediction
import StrongLL.Proofs.Acceptance
import StrongLL.Proofs.CycleReport
import StrongLL.Proofs.ExactSets
import StrongLL.Proofs.Choice
import StrongLL.Proofs.Readings
import StrongLL.Proofs.Soundness
import StrongLL.Proofs.Completeness
import StrongLL.Proofs.DeeperLookahead
import StrongLL.Proofs.EarlyErrors
import StrongLL.Proofs.Moments
import StrongLL.Proofs.Nesting
import StrongLL.Proofs.LexerEntries
import StrongLL.Proofs.Tiling
import StrongLL.Proofs.Renaming
import StrongLL.Proofs.Storeless
import StrongLL.Proofs.FirstTypes
import StrongLL.Proofs.RenamedRuns
import StrongLL.Proofs.RuleOrder
import StrongLL.Proofs.AutomatonRuns
import StrongLL.Proofs.JsonDocuments
import StrongLL.Proofs.JsonLexing
import StrongLL.Proofs.JsonParsing
import StrongLL.Proofs.Sessions
import StrongLL.Proofs.Truncation
import StrongLL.Proofs.UniqueChoice
import StrongLL.Proofs.WellFormed
import StrongLL.Proofs.BodyImage
import StrongLL.Proofs.InTurn
import StrongLL.Proofs.EmptyIterations
import StrongLL.Proofs.BodyDefects
import StrongLL.Proofs.DraftReport
import StrongLL.Proofs.LexerChecks
import StrongLL.Proofs.Places
import StrongLL.Proofs.Resumption
import StrongLL.Proofs.NestingLimit
import StrongLL.Proofs.Steps
import StrongLL.Proofs.InputDependence
import StrongLL.Proofs.ErrorCauses
import StrongLL.Proofs.Concatenation
import StrongLL.Proofs.FollowDepth
import StrongLL.Proofs.WrittenForm
