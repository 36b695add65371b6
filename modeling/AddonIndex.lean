import AddonIndex.Main
import AddonIndex.Proofs.ClassConfig.Accepts
import AddonIndex.Proofs.Indexing.Protocol
import AddonIndex.Proofs.Reference.Interruption
import AddonIndex.Proofs.Path.Order
import AddonIndex.Proofs.FileTree.Way
import AddonIndex.Proofs.ClassConfig.Inclusion
import AddonIndex.Proofs.FileTree.Growth
import AddonIndex.Proofs.FileTree.Outcome
import AddonIndex.Proofs.Indexing.Configs
import AddonIndex.Proofs.Indexing.Obtained
import AddonIndex.Proofs.Reference.Relocation
import AddonIndex.Proofs.Number.Rounding
import AddonIndex.Proofs.Number.Shortest
import AddonIndex.Proofs.Number.Literal
import AddonIndex.Proofs.ClassConfig.Arithmetic
import AddonIndex.Proofs.ClassConfig.Expression
import AddonIndex.Proofs.Indexing.Course
import AddonIndex.Proofs.Indexing.Extraction
import AddonIndex.Proofs.Indexing.Agreement
import AddonIndex.Proofs.ClassConfig.LineNumber
import AddonIndex.Proofs.Indexing.Saving
import AddonIndex.Proofs.Indexing.Publication
import AddonIndex.Proofs.ClassConfig.Nesting
import AddonIndex.Proofs.ClassConfig.Inlining
import AddonIndex.Proofs.Balance
import AddonIndex.Proofs.Indexing.Separation
import AddonIndex.Proofs.Indexing.Settlement
import AddonIndex.Proofs.Indexing.Accounting
import AddonIndex.Proofs.Indexing.Residue
import AddonIndex.Proofs.Indexing.Frame
import AddonIndex.Proofs.Event.Drain
import AddonIndex.Proofs.Addon.Announcement
import AddonIndex.Proofs.Indexing.FileSystem
import AddonIndex.Proofs.FileTree.Confluence
import AddonIndex.Proofs.Indexing.Answers
import AddonIndex.Proofs.ClassConfig.Expansion
import AddonIndex.Proofs.Indexing.Promptness
import AddonIndex.Proofs.Indexing.Counting
import AddonIndex.Proofs.Indexing.CopyOrder
import AddonIndex.Proofs.Indexing.ToolOrder
import AddonIndex.Proofs.FileTree.RemovalOrder
import AddonIndex.Proofs.Indexing.Parallelism
import AddonIndex.Proofs.Reference.Construction
import AddonIndex.Proofs.Indexing.ConfigListing
import AddonIndex.Proofs.ClassConfig.ItemPlace
import AddonIndex.Proofs.ClassConfig.RawText
import AddonIndex.Proofs.ClassConfig.ViablePrefix
import AddonIndex.Proofs.ClassConfig.OptionalSemicolon
import AddonIndex.Proofs.ClassConfig.CommentRemoval
import AddonIndex.Proofs.ClassConfig.LineEnding
import AddonIndex.Proofs.ClassConfig.Lookup
import AddonIndex.Proofs.ClassConfig.Record
import AddonIndex.Proofs.Event.LogLag
import AddonIndex.Proofs.Reference.MarkerLine
import AddonIndex.Proofs.Indexing.Independence
import AddonIndex.Proofs.Indexing.Company
import AddonIndex.Proofs.Configuration.RoundTrip
