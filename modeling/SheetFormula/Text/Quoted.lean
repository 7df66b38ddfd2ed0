/-!
# Quoted text

A quoted text stands between two quotes, and a quote inside it is written twice.
-/

namespace SheetFormula.Text

/-- The text with every occurrence of `quote` written twice. -/
def doubled (quote : Char) : List Char → List Char
  | [] => []
  | c :: rest => if c = quote then quote :: quote :: doubled quote rest else c :: doubled quote rest

/-- The text between two double quotes. -/
def quoted (text : String) : String :=
  "\"" ++ String.ofList (doubled '"' text.toList) ++ "\""

@[simp] theorem doubled_append (quote : Char) (s t : List Char) :
    doubled quote (s ++ t) = doubled quote s ++ doubled quote t := by
  induction s with
  | nil => rfl
  | cons c rest ih =>
    by_cases h : c = quote <;> simp [doubled, h, ih]

end SheetFormula.Text
