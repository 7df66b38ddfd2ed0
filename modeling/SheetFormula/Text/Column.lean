/-!
# Columns

Texts filled up with spaces to the width of a column, counted in characters. A text that is wider
than its column is kept whole.
-/

namespace SheetFormula.Text

/-- As many spaces as the text is short of the width. -/
def fill (width : Nat) (text : String) : String :=
  String.ofList (List.replicate (width - text.length) ' ')

/-- The text at the left of its column. -/
def alignLeft (width : Nat) (text : String) : String := text ++ fill width text

/-- The text at the right of its column. -/
def alignRight (width : Nat) (text : String) : String := fill width text ++ text

end SheetFormula.Text
