import SheetFormula.Locale
import SheetFormula.Text.Quoted
import SheetFormula.Token

/-!
# Writing tokens as formula text

`Token.render` writes tokens in the spelling of a locale, without the leading `=`. An array takes
its braces from the row that follows it, and each closer prints what its opener asks for.
-/

namespace SheetFormula.Token

/-- What an opener writes, and what the token that closes it will write. -/
def opening (token : Token) (next : Option Token) : String × String :=
  if token.opensRow then ("", "")
  else if token.opensCall && token.value == arrayName && next.any opensRow then
    ("\x7b", "\x7d")
  else if token.opensCall then (token.value ++ "(", ")")
  else ("(", ")")

/-- A number with its points replaced by the decimal separator of the locale. -/
def spellNumber (locale : Locale) (value : String) : String :=
  String.ofList (value.toList.map fun c => if c = '.' then locale.decimalSeparator else c)

/-- What a token writes that neither opens nor closes anything. -/
def spell (locale : Locale) (token : Token) : String :=
  if token.isText then Text.quoted token.value
  else if token.isNumber then spellNumber locale token.value
  else if token.isLogical then locale.logicalLiteral (token.value == "TRUE")
  else if token.is .infixOp .intersect || token.kind == .whitespace then " "
  else token.value

/-- Writes tokens where `closers` are still to be written, the innermost first. -/
def renderFrom (locale : Locale) (closers : List String) : List Token → String
  | [] => ""
  | token :: rest =>
    if token.opensBracket then
      let (now, later) := token.opening rest.head?
      now ++ renderFrom locale (later :: closers) rest
    else if token.closesBracket then
      closers.headD ")" ++ renderFrom locale closers.tail rest
    else token.spell locale ++ renderFrom locale closers rest

/-- The text of the tokens. -/
def render (locale : Locale) (tokens : List Token) : String := renderFrom locale [] tokens

end SheetFormula.Token
