/-!
# Outlines

An outline is a tree of lines: leaves, groups between an opening and a closing text with one item a
line, and labels in front of items. Tree listings and JSON are both outlines, written in a style of
their own.
-/

namespace SheetFormula

/-- A tree of lines. -/
inductive Outline where
  | leaf (text : String)
  | labelled (label : String) (item : Outline)
  | group (opening closing : String) (items : List Outline)
  deriving Repr

namespace Outline

/-- How an outline is laid out. -/
structure Style where
  /-- How many spaces a group moves its items to the right. -/
  indent : Nat
  /-- Whether a comma stands behind the last item of a group too. -/
  trailingComma : Bool
  deriving DecidableEq, Repr

/-- The spaces in front of a line at this depth. -/
def Style.margin (style : Style) (depth : Nat) : String :=
  String.ofList (List.replicate (style.indent * depth) ' ')

mutual

/-- The text of an outline whose items stand at this depth. A group without items takes no line of
its own. -/
def writeAt (style : Style) (depth : Nat) : Outline → String
  | leaf text => text
  | labelled label item => label ++ item.writeAt style depth
  | group opening closing [] => opening ++ closing
  | group opening closing (item :: items) =>
    opening ++ "\n" ++ writeItems style (depth + 1) (item :: items) ++ style.margin depth ++ closing

/-- The lines of the items of a group. -/
def writeItems (style : Style) (depth : Nat) : List Outline → String
  | [] => ""
  | [item] =>
    style.margin depth ++ item.writeAt style depth ++ (if style.trailingComma then ",\n" else "\n")
  | item :: items =>
    style.margin depth ++ item.writeAt style depth ++ ",\n" ++ writeItems style depth items

end

/-- The text of an outline. -/
def write (style : Style) (outline : Outline) : String := outline.writeAt style 0

end Outline

end SheetFormula
