import TreeQuery.Diagnostics
import TreeQuery.Proofs.CacheTransparency
import TreeQuery.Proofs.CaptureErasure
import TreeQuery.Proofs.Combinations
import TreeQuery.Proofs.Consumption
import TreeQuery.Proofs.Deduplication
import TreeQuery.Proofs.Enumeration
import TreeQuery.Proofs.ExactCover
import TreeQuery.Proofs.ModeOrder
import TreeQuery.Proofs.Nesting
import TreeQuery.Proofs.Permutation
import TreeQuery.Proofs.Sharing
import TreeQuery.Proofs.Shortcut
import TreeQuery.Proofs.TreeOrder
import TreeQuery.Replay.Session
import TreeQuery.Search.Items
import TreeQuery.Search.Transcript
import TreeQuery.Source.Adapters
import TreeQuery.Source.Tape
import TreeQuery.State.Anchored
import TreeQuery.Trace
import TreeQuery.Proofs.Thinning
import TreeQuery.Proofs.Insertion
import TreeQuery.Proofs.Monotonicity
import TreeQuery.Cells
import TreeQuery.Proofs.Promises
import TreeQuery.Proofs.CellUpdates
import TreeQuery.Proofs.Building
import TreeQuery.Proofs.Pulls
import TreeQuery.Proofs.Safety
import TreeQuery.Proofs.DirectChildren
import TreeQuery.Proofs.Walks
import TreeQuery.Proofs.ExactSpans
import TreeQuery.Arena
import TreeQuery.Proofs.Flattening
import TreeQuery.Proofs.LoneChild
import TreeQuery.Proofs.ResultBounds
import TreeQuery.Proofs.FirstPull
import TreeQuery.Proofs.MappedNotes
import TreeQuery.Proofs.Journal
import TreeQuery.Proofs.CacheHits
import TreeQuery.Proofs.Sameness
import TreeQuery.Proofs.Wrappers
import TreeQuery.Proofs.Documents
import TreeQuery.Proofs.QueryText
import TreeQuery.Proofs.Packing
import TreeQuery.Proofs.Adapters
import TreeQuery.Proofs.NotedRuns
