import Classad.PartialRun
import Classad.FloatOrder
import Classad.Syntax
import Classad.Operators
import Classad.OperatorProofs
import Classad.TreeWalk
import Classad.TreeWalkSimulation
import Classad.VmCompile
import Classad.VmSimulation
import Classad.VmCompileProofs
import Classad.LogicalTruth
import Classad.ConstantFold
import Classad.ConstantFoldProofs
import Classad.ProbeFolding
import Classad.QueryProbe
import Classad.ProbeComparisons
import Classad.QueryProbeProofs
import Classad.Worklist
import Classad.PartialDecode
import Classad.PartialDecodeProofs
import Classad.BinarySearch
import Classad.BitPlanes
import Classad.VecColumns
import Classad.VecEval
import Classad.VecColumnProofs
import Classad.VecSimdProofs
import Classad.VecKernelProofs
import Classad.VecEvalProofs
import Classad.FoldExactness
import Classad.Wire
import Classad.WireProofs
import Classad.ZoneMap
import Classad.ZoneMapProofs
import Classad.PostingLists
import Classad.SegmentIndex
import Classad.AsciiFolding
import Classad.SegIndexProofs
import Classad.SegProbeProofs
import Classad.MatchReorder
import Classad.SequentialChain
import Classad.MatchReorderProofs
import Classad.MatchComparison
import Classad.ReorderedMatches
import Classad.MatchClosure
import Classad.MatchClosureProofs
import Classad.MatchPrefilter
import Classad.MatchPrefilterProofs
import Classad.ByteParser
import Classad.TableWriter
import Classad.Ast
import Classad.WireCodec
import Classad.WireCodecProofs
import Classad.WireSealing
import Classad.WireSkip
import Classad.WireCursor
import Classad.WireCursorProofs
import Classad.ByteLexer
import Classad.StreamingLexer
import Classad.StreamingLexerProofs
import Classad.ByteLexerProofs
import Classad.LexerAgreement
import Classad.WatchCursor
import Classad.Arena
import Classad.Chains
import Classad.DepthAccounting
import Classad.Listing
import Classad.ShardStore
import Classad.ShardSteps
import Classad.ShardInvariant
import Classad.ShardWrites
import Classad.ShardHistory
import Classad.ShardMaintenance
import Classad.CompactionCopy
import Classad.CompactionInstall
import Classad.ShardSystem
import Classad.KeyEviction
import Classad.TimeTravel
import Classad.CompactionReads
import Classad.ShardRuns
import Classad.SegmentRewrite
import Classad.RewriteVeil
import Classad.RewriteSwap
import Classad.UpkeepRuns
import Classad.TimeReplay
import Classad.SealMigration
import Classad.ConflictEvidence
import Classad.ConstraintGates
import Classad.TxnViews
import Classad.MergedReads
import Classad.TxnOutcome
import Classad.FoldShapes
