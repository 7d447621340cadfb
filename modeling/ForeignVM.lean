import ForeignVM.Code.Assembler
import ForeignVM.Main
import ForeignVM.Proofs.ArgumentClasses
import ForeignVM.Proofs.Arrays
import ForeignVM.Proofs.Assembly
import ForeignVM.Proofs.Canonical
import ForeignVM.Proofs.Corruption
import ForeignVM.Proofs.Declared
import ForeignVM.Proofs.DelayedNarrowing
import ForeignVM.Proofs.Derived
import ForeignVM.Proofs.FieldAccess
import ForeignVM.Proofs.FieldPath
import ForeignVM.Proofs.Forgetting
import ForeignVM.Proofs.Indirect
import ForeignVM.Proofs.JsonForm
import ForeignVM.Proofs.Lifetimes
import ForeignVM.Proofs.Limits
import ForeignVM.Proofs.ListingLines
import ForeignVM.Proofs.ListingText
import ForeignVM.Proofs.LowBits
import ForeignVM.Proofs.Nested
import ForeignVM.Proofs.NoPanic
import ForeignVM.Proofs.Overlap
import ForeignVM.Proofs.Positions
import ForeignVM.Proofs.Promises
import ForeignVM.Proofs.Readback
import ForeignVM.Proofs.Registration
import ForeignVM.Proofs.Requirements
import ForeignVM.Proofs.Residue
import ForeignVM.Proofs.Resolution
