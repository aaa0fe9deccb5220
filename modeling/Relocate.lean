import Relocate.Main
import Relocate.Proofs.Guarantees
import Relocate.Proofs.KeptImports
import Relocate.Proofs.Refusals
import Relocate.Proofs.Retargeting
import Relocate.Proofs.Rewriting
import Relocate.Proofs.RoundTrip
import Relocate.Proofs.ShortSpecifiers
import Relocate.Proofs.FailedMoves
import Relocate.Proofs.Heads
import Relocate.Proofs.Rereading
import Relocate.Proofs.Loops
import Relocate.Proofs.Endings
import Relocate.Proofs.Histories
import Relocate.Proofs.Safekeeping
import Relocate.Proofs.Reports
import Relocate.Proofs.Returns
import Relocate.Proofs.ExtendsChains
import Relocate.Proofs.Overriding
import Relocate.Proofs.Inheritance
import Relocate.Proofs.AliasOverrides
import Relocate.Proofs.WrittenTargets
import Relocate.Proofs.JsonTokens
import Relocate.Proofs.JsonValues
import Relocate.Proofs.JsonComments
import Relocate.Proofs.Undoing
import Relocate.Proofs.ImportGraph
import Relocate.Proofs.FilesOnRecord
import Relocate.Proofs.Reindexing
import Relocate.Proofs.Spans
import Relocate.Proofs.MappedDirectories
import Relocate.Proofs.PackageNames
import Relocate.Proofs.GoverningTables
import Relocate.Proofs.Discovery
