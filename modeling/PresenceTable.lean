import PresenceTable.Formula.Grammar
import PresenceTable.Main
import PresenceTable.Token.Scanner
import PresenceTable.Proofs.Store.Denotation
import PresenceTable.Proofs.Formula.Elimination
import PresenceTable.Proofs.Store.Elimination
import PresenceTable.Proofs.Formula.Reading
import PresenceTable.Proofs.Store.Read
import PresenceTable.Proofs.Conversion
import PresenceTable.Proofs.Cutting
import PresenceTable.Proofs.Listing
import PresenceTable.Proofs.Model
import PresenceTable.Proofs.Store.Printing
import PresenceTable.Proofs.Canonicity
import PresenceTable.Proofs.Independence
import PresenceTable.Proofs.Accounting
import PresenceTable.Proofs.Decoding
import PresenceTable.Proofs.Formula.Weight
import PresenceTable.Proofs.Growth
import PresenceTable.Proofs.Safety
import PresenceTable.Proofs.CommandLine.FileTree
import PresenceTable.Proofs.Table
import PresenceTable.Proofs.CommandLine.Run
import PresenceTable.Proofs.Acceptance
import PresenceTable.Proofs.CommandLine.Status
import PresenceTable.Proofs.Formula.NormalForm
import PresenceTable.Proofs.Store.Stages
import PresenceTable.Proofs.Store.NormalForm
import PresenceTable.Proofs.Repetition
import PresenceTable.Proofs.Composition
import PresenceTable.Proofs.Token.Tiling
import PresenceTable.Proofs.Token.LookAhead
import PresenceTable.Proofs.Formula.ViablePrefix
import PresenceTable.Proofs.Store.Refusal
import PresenceTable.Proofs.Store.Acyclic
import PresenceTable.Proofs.Store.Termination
import PresenceTable.Proofs.Persistence
import PresenceTable.Proofs.Store.Postorder
import PresenceTable.Proofs.InvalidMarker
import PresenceTable.Proofs.Likeness
import PresenceTable.Proofs.LineEndings
import PresenceTable.Proofs.Resumption
import PresenceTable.Proofs.TypeDeclarations
import PresenceTable.Proofs.Erasure
import PresenceTable.Proofs.CommandLine.Items
import PresenceTable.Proofs.CommandLine.Presentation
import PresenceTable.Proofs.SelfTest.Tally
