import SheetFormula.Main
import SheetFormula.Proofs.Coherence
import SheetFormula.Proofs.Composition
import SheetFormula.Proofs.Discipline
import SheetFormula.Proofs.Distinct
import SheetFormula.Proofs.Enclosing
import SheetFormula.Proofs.Labels
import SheetFormula.Proofs.Layout
import SheetFormula.Proofs.Limits
import SheetFormula.Proofs.NormalForm
import SheetFormula.Proofs.NumberTexts
import SheetFormula.Proofs.QuotedSheets
import SheetFormula.Proofs.Rendering
import SheetFormula.Proofs.Segments
import SheetFormula.Proofs.SourceOrder
import SheetFormula.Proofs.StackDiscipline
import SheetFormula.Proofs.StackParser
import SheetFormula.Proofs.WellFormed
