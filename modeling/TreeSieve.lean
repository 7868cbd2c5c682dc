import TreeSieve.Session
import TreeSieve.Proofs.FileTree
import TreeSieve.Proofs.PathNames
import TreeSieve.Proofs.Following
import TreeSieve.Proofs.Place
import TreeSieve.Proofs.Ranking
import TreeSieve.Proofs.Harvest
import TreeSieve.Proofs.Simulation
import TreeSieve.Proofs.Delivery
import TreeSieve.Proofs.LoopHead
import TreeSieve.Proofs.LoopInvariant
import TreeSieve.Proofs.NameOrder
import TreeSieve.Proofs.Resemblance
import TreeSieve.Proofs.Lexical
import TreeSieve.Proofs.Pruning
import TreeSieve.Proofs.Reported
import TreeSieve.Proofs.Containing
import TreeSieve.Proofs.Complement
import TreeSieve.Proofs.Failure
import TreeSieve.Proofs.Reinclusion
import TreeSieve.Proofs.Expression
import TreeSieve.Proofs.GlobLanguage
import TreeSieve.Proofs.Below
import TreeSieve.Proofs.Anchoring
import TreeSieve.Proofs.RuleRegex
import TreeSieve.Proofs.Ending
import TreeSieve.Proofs.LinkLoops
import TreeSieve.Proofs.Finding
import TreeSieve.Proofs.Resolution
import TreeSieve.Proofs.Placement
import TreeSieve.Proofs.Relocation
import TreeSieve.Proofs.Raising
import TreeSieve.Proofs.Isolation
import TreeSieve.Proofs.Monotonicity
import TreeSieve.Proofs.Reordering
import TreeSieve.Proofs.StackHistory
import TreeSieve.Proofs.Segments
import TreeSieve.Proofs.TrailingSlash
import TreeSieve.Proofs.Depth
import TreeSieve.Proofs.FileLines
import TreeSieve.Proofs.Overwriting
import TreeSieve.Proofs.Seeding
import TreeSieve.Proofs.LineText
import TreeSieve.Proofs.EscapedNames
import TreeSieve.Proofs.Backslashes
import TreeSieve.Proofs.Rebasing
import TreeSieve.Proofs.DepthLimit
import TreeSieve.Proofs.Selection
import TreeSieve.Proofs.FileRoot
import TreeSieve.Proofs.Naming
import TreeSieve.Proofs.LineBreaks
import TreeSieve.Proofs.RuleLines
import TreeSieve.Proofs.EventSequence
import TreeSieve.Proofs.Stopping
import TreeSieve.Proofs.WriterCalls
import TreeSieve.Proofs.ByteTexts
import TreeSieve.Proofs.BytePaths
import TreeSieve.Proofs.ByteTrees
import TreeSieve.Proofs.ByteRoots
import TreeSieve.Proofs.ShownPaths
import TreeSieve.Proofs.PrintedBytes
import TreeSieve.Proofs.CommandPaths
import TreeSieve.Proofs.RunWrites
import TreeSieve.Proofs.NulRecords
import TreeSieve.Proofs.Arrangement
import TreeSieve.Proofs.WrittenFile
import TreeSieve.Proofs.RunEvents
import TreeSieve.Proofs.EndedWalks
import TreeSieve.Proofs.EndedRuns
import TreeSieve.Proofs.ReachedRoots
import TreeSieve.Proofs.RunReport
