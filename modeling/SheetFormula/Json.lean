import SheetFormula.Number.Layout
import SheetFormula.Outline
import SheetFormula.Text.Escaped

/-!
# JSON

The values of JSON as outlines; written in `Json.style` they are JSON text, one item a line.
-/

namespace SheetFormula.Json

/-- JSON is indented by two spaces. -/
def style : Outline.Style := ⟨2, false⟩

/-- A string. -/
def string (text : String) : Outline := .leaf (Text.escaped Text.escapeJson text)

/-- A whole number. -/
def nat (n : Nat) : Outline := .leaf (toString n)

/-- A truth value. -/
def bool (b : Bool) : Outline := .leaf (if b then "true" else "false")

/-- The absent value. -/
def null : Outline := .leaf "null"

/-- A value that may be absent. -/
def optional (encode : α → Outline) : Option α → Outline
  | some value => encode value
  | none => null

/-- A number; JSON has no infinities and no `nan`. -/
def number (value : Number.Binary64) : Outline :=
  if value.isFinite then .leaf (Number.Layout.json.write value) else null

/-- An array. -/
def array (items : List Outline) : Outline := .group "[" "]" items

/-- An object, with its fields in this order. -/
def object (fields : List (String × Outline)) : Outline :=
  .group "\x7b" "\x7d" (fields.map fun (name, value) =>
    .labelled (Text.escaped Text.escapeJson name ++ ": ") value)

/-- The JSON text of a value. -/
def write (value : Outline) : String := value.write style

end SheetFormula.Json
