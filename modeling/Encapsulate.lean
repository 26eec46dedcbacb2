import Encapsulate.Main
import Encapsulate.Proofs.Confinement
import Encapsulate.Proofs.Conservation
import Encapsulate.Proofs.Hoisting
import Encapsulate.Proofs.Numbering
import Encapsulate.Proofs.Composition
import Encapsulate.Proofs.Splicing
import Encapsulate.Proofs.Edits
import Encapsulate.Proofs.Visiting
import Encapsulate.Proofs.AccessorNames
import Encapsulate.Proofs.Applying
import Encapsulate.Proofs.Actions
import Encapsulate.Proofs.Legality
import Encapsulate.Proofs.Origins
import Encapsulate.Proofs.Reports
import Encapsulate.Proofs.Scoping
import Encapsulate.Proofs.Comments
import Encapsulate.Proofs.Coverage
import Encapsulate.Proofs.HiddenFunctions
import Encapsulate.Proofs.Independence
import Encapsulate.Proofs.SelfCalls
import Encapsulate.Proofs.Naming
import Encapsulate.Proofs.Backups
import Encapsulate.Proofs.OutputDirectory
import Encapsulate.Proofs.Spellings
import Encapsulate.Proofs.Includes
import Encapsulate.Proofs.Chains
import Encapsulate.Proofs.Words
import Encapsulate.Proofs.Shadowing
import Encapsulate.Proofs.EnclosingRecord
import Encapsulate.Proofs.WrappedDeclarations
import Encapsulate.Proofs.Warnings
import Encapsulate.Proofs.Inheritance
import Encapsulate.Proofs.Selecting
import Encapsulate.Proofs.Namespaces
import Encapsulate.Proofs.GlobalNames
import Encapsulate.Proofs.Lifetimes
import Encapsulate.Proofs.TemplateArguments
import Encapsulate.Proofs.TypeNames
import Encapsulate.Proofs.Operators
import Encapsulate.Proofs.Locations
