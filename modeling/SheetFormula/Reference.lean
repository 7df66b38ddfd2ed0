import SheetFormula.Text.DecimalDigit

/-!
# Cell references

`Anchoring.ofText` tells how the text of a reference is anchored: `$` fixes a column or a row. Only
what follows the last `!` counts, so a sheet in front changes nothing.
-/

namespace SheetFormula

/-- How a cell reference is anchored. -/
inductive Anchoring where
  /-- Every part is fixed: `$A$1`, `$A`, `$1`. -/
  | absolute
  /-- One of two parts is fixed: `$A1`, `A$1`. -/
  | mixed
  /-- No part is fixed: `A1`, `A`, `1`. -/
  | relative
  /-- Any other text, such as a name. -/
  | unspecified
  deriving DecidableEq, Repr

namespace Anchoring

/-- The name of the anchoring in listings. -/
def name : Anchoring → String
  | .absolute => "Absolute"
  | .mixed => "Mixed"
  | .relative => "Relative"
  | .unspecified => "Unspecified"

/-- Whether a character may stand in a column name: an ASCII letter, or one of the two characters
that differ from an ASCII letter in case alone, the long s and the kelvin sign. -/
def isColumnLetter (c : Char) : Bool :=
  c.isAlpha || c == '\u017F' || c == '\u212A'

/-- The parts that a reference consists of. -/
structure Parts where
  columnFixed : Bool
  column : List Char
  rowFixed : Bool
  row : List Char
  deriving DecidableEq, Repr

/-- Splits off a leading `$`. -/
def splitDollar : List Char → Bool × List Char
  | '$' :: rest => (true, rest)
  | rest => (false, rest)

/-- Reads a column and a row, either of which may be missing with its `$`; none where something
else remains, where both are missing, or where a `$` fixes nothing. -/
def parts? (text : List Char) : Option Parts :=
  let (firstFixed, afterFirst) := splitDollar text
  let column := afterFirst.takeWhile isColumnLetter
  let afterColumn := afterFirst.dropWhile isColumnLetter
  if column.isEmpty then
    if afterFirst.isEmpty || !afterFirst.all Text.isDecimalDigit then none
    else some ⟨false, [], firstFixed, afterFirst⟩
  else if afterColumn.isEmpty then some ⟨firstFixed, column, false, []⟩
  else
    let (rowFixed, row) := splitDollar afterColumn
    if row.isEmpty || !row.all Text.isDecimalDigit then none
    else some ⟨firstFixed, column, rowFixed, row⟩

/-- The anchoring of a reference with these parts. -/
def ofParts (parts : Parts) : Anchoring :=
  if parts.column.isEmpty then if parts.rowFixed then .absolute else .relative
  else if parts.row.isEmpty then if parts.columnFixed then .absolute else .relative
  else match parts.columnFixed, parts.rowFixed with
    | true, true => .absolute
    | false, false => .relative
    | _, _ => .mixed

/-- What follows the last `!` of a text; the whole text if there is none. -/
def withoutSheet (text : List Char) : List Char :=
  (text.reverse.takeWhile (· != '!')).reverse

/-- The anchoring of a reference as written. -/
def ofText (text : String) : Anchoring :=
  match parts? (withoutSheet text.toList) with
  | some parts => ofParts parts
  | none => .unspecified

end Anchoring

/-- One cell, column or row as written, with its anchoring. -/
structure Reference where
  anchoring : Anchoring
  raw : String
  deriving DecidableEq, Repr

/-- The reference with this text. -/
def Reference.ofText (text : String) : Reference := ⟨.ofText text, text⟩

end SheetFormula
