import Retarget.Bytes.Cursor
import Retarget.ClassFile.References
import Retarget.Embedding
import Retarget.Proofs.AccessorNames
import Retarget.Proofs.ClassFile.Renamable
import Retarget.Proofs.ClassFile.Stopped
import Retarget.Proofs.ClassFile.Warnings
import Retarget.Proofs.Pass.Embedded
import Retarget.Proofs.Symbol.Sentences
import Retarget.Proofs.Pass.Course
import Retarget.Proofs.Pass.Refused
import Retarget.Proofs.Pass.Kept
import Retarget.Proofs.Pass.Itself
import Retarget.Proofs.ClassFile.OwnName
import Retarget.Proofs.Files.Copying
import Retarget.Proofs.Pass.Stocked
import Retarget.Proofs.Pass.Again
import Retarget.Proofs.ClassFile.PoolTexts
import Retarget.Proofs.Pass.Confined
import Retarget.Proofs.Pass.Apart
import Retarget.Proofs.ClassFile.PoolRequests
import Retarget.Proofs.ClassFile.SelfDelimiting
import Retarget.Proofs.ClassFile.ReferencedNames
import Retarget.Proofs.ClassFile.Title
import Retarget.Proofs.Symbol.Composition
import Retarget.Proofs.Text.Sequences
import Retarget.Proofs.ClassFile.Isolated
import Retarget.Proofs.Symbol.DescriptorGrammar
import Retarget.Proofs.ClassFile.OneIndex
import Retarget.Proofs.TwoTables
import Retarget.Proofs.Pass.Spelled
import Retarget.Proofs.Pass.Vanished
import Retarget.Proofs.Files.Remainders
import Retarget.Proofs.ClassFile.TableWrites
import Retarget.Proofs.ClassFile.Depth
import Retarget.Proofs.Loading
import Retarget.Proofs.Placing
import Retarget.Proofs.Locating
import Retarget.Proofs.Bytes.BigEndian
import Retarget.Proofs.Bytes.Words
