/-!
# Spans of a text

Spans are counted in bytes of the UTF-8 encoding. `slice text start stop` is the part of the text
between two such offsets.
-/

namespace SheetFormula.Text

/-- The part of a text from byte `start` up to byte `stop`. -/
def slice (text : String) (start stop : Nat) : String :=
  String.Pos.Raw.extract text ⟨start⟩ ⟨stop⟩

end SheetFormula.Text
