import SheetFormula.Expr
import SheetFormula.Json

/-!
# Expressions as listings and as JSON

`Expr.outline` lists a tree with the names of its parts, in `Listing.style`; `Expr.json` is the
same tree as a JSON value, whose first field is the type.
-/

namespace SheetFormula

namespace Listing

/-- A listing is indented by four spaces, and every item ends in a comma. -/
def style : Outline.Style := ⟨4, true⟩

/-- A text in quotes. -/
def string (text : String) : Outline := .leaf (Text.escaped Text.escapeShown text)

/-- A record with named fields. -/
def record (name : String) (fields : List (String × Outline)) : Outline :=
  .group (name ++ " \x7b") "\x7d" (fields.map fun (label, value) => .labelled (label ++ ": ") value)

/-- The listing of a reference. -/
def ref (ref : Reference) : Outline :=
  record "CellRef" [("ref_type", .leaf ref.anchoring.name), ("raw", string ref.raw)]

end Listing

/-- The fields of a reference in JSON. -/
def Reference.jsonFields (ref : Reference) : List (String × Outline) :=
  [("ref_type", Json.string ref.anchoring.name), ("raw", Json.string ref.raw)]

namespace Expr

mutual

/-- The listing of an expression. -/
def outline : Expr → Outline
  | number value => Listing.record "Number" [("value", .leaf (Number.Layout.outline.write value))]
  | text value => Listing.record "Text" [("value", Listing.string value)]
  | logical value => Listing.record "Logical" [("value", Json.bool value)]
  | cell ref => .group "Cell(" ")" [Listing.ref ref]
  | cellRange first last =>
    Listing.record "CellRange" [("start", Listing.ref first), ("end", Listing.ref last)]
  | unary op operand =>
    Listing.record "UnaryExpression" [("op", Listing.string op), ("operand", operand.outline)]
  | binary op left right =>
    Listing.record "BinaryExpression"
      [("op", Listing.string op), ("left", left.outline), ("right", right.outline)]
  | call name args =>
    Listing.record "Function"
      [("name", Listing.string name), ("args", .group "[" "]" (outlineList args))]
  | errorValue value => Listing.record "ErrorValue" [("value", Listing.string value)]
  | emptyArgument => .leaf "EmptyArgument"
  | unknown raw => Listing.record "Unknown" [("raw", Listing.string raw)]

/-- The listings of arguments. -/
def outlineList : List Expr → List Outline
  | [] => []
  | arg :: rest => arg.outline :: outlineList rest

end

/-- A JSON object with the type of an expression in front of its fields. -/
def typed (type : String) (fields : List (String × Outline)) : Outline :=
  Json.object (("type", Json.string type) :: fields)

mutual

/-- An expression in JSON. -/
def json : Expr → Outline
  | number value => typed "Number" [("value", Json.number value)]
  | text value => typed "Text" [("value", Json.string value)]
  | logical value => typed "Logical" [("value", Json.bool value)]
  | cell ref => typed "Cell" ref.jsonFields
  | cellRange first last =>
    typed "CellRange"
      [("start", Json.object first.jsonFields), ("end", Json.object last.jsonFields)]
  | unary op operand =>
    typed "UnaryExpression" [("op", Json.string op), ("operand", operand.json)]
  | binary op left right =>
    typed "BinaryExpression" [("op", Json.string op), ("left", left.json), ("right", right.json)]
  | call name args =>
    typed "Function" [("name", Json.string name), ("args", Json.array (jsonList args))]
  | errorValue value => typed "ErrorValue" [("value", Json.string value)]
  | emptyArgument => typed "EmptyArgument" []
  | unknown raw => typed "Unknown" [("raw", Json.string raw)]

/-- Arguments in JSON. -/
def jsonList : List Expr → List Outline
  | [] => []
  | arg :: rest => arg.json :: jsonList rest

end

end Expr

end SheetFormula
