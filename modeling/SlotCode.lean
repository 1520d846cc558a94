import SlotCode.Proofs.Code.Texts
import SlotCode.Proofs.Lowering.Targets
import SlotCode.Proofs.Program.Assignments
import SlotCode.Proofs.Program.Comparisons
import SlotCode.Proofs.Program.Convention
import SlotCode.Proofs.Program.Graphs
import SlotCode.Proofs.Program.Groups
import SlotCode.Proofs.Program.Independence
import SlotCode.Proofs.Program.Meaning
import SlotCode.Proofs.Program.Mismatches
import SlotCode.Proofs.Program.Operands
import SlotCode.Proofs.Program.Placeholders
import SlotCode.Proofs.Program.Surroundings
import SlotCode.Proofs.Program.WellTyped
import SlotCode.Proofs.Program.Writers
import SlotCode.Proofs.Report.Layout
import SlotCode.Proofs.Scope.Visibility
import SlotCode.Report.Document
import SlotCode.Report.Explain
