import SheetFormula.CommandLine.Help
import SheetFormula.Expr.Display
import SheetFormula.Expr.Outline
import SheetFormula.Segment

/-!
# What the program answers

`run` is the program as a function of its arguments: an exit code and two texts. The code is 0 for a
result, 1 for a formula that is refused, and 2 for arguments that cannot be understood.
-/

namespace SheetFormula.CommandLine

/-- The outcome of a run. -/
structure Report where
  code : Nat
  output : String
  errors : String
  deriving DecidableEq, Repr

/-- A run with a result. -/
def Report.result (output : String) : Report := ⟨0, output ++ "\n", ""⟩

/-- A run with a result of lines. -/
def Report.lines (lines : List String) : Report :=
  ⟨0, String.join (lines.map fun line => line ++ "\n"), ""⟩

/-- A text whose further lines are indented like its first. -/
def indented (text : String) : String :=
  let indentOne (c : Char) : List Char := if c = '\n' then "\n    ".toList else [c]
  "    " ++ String.ofList (text.toList.flatMap indentOne)

/-- A run that refuses the formula. -/
def Report.refusal (attempt formula : String) (error : FormulaError) : Report :=
  ⟨1, "", "Error: Failed to " ++ attempt ++ " '" ++ formula ++ "'\n\nCaused by:\n" ++
    indented error.describe ++ "\n"⟩

/-- A run whose arguments cannot be understood. -/
def Report.usage : Report :=
  ⟨2, "", "Usage: " ++ (Help.page .program).usage ++ "\n\nFor more information, try '--help'.\n"⟩

/-! ## Tokens -/

/-- The bytes that something covers, in two columns. -/
def spanColumns (start stop : Nat) : String :=
  Text.alignRight 4 (toString start) ++ ".." ++ Text.alignLeft 4 (toString stop)

/-- A token on one line. -/
def tokenLine (token : Token) : String :=
  spanColumns token.start token.stop ++ " " ++ Text.alignLeft 10 token.kind.name ++ " " ++
    Text.alignLeft 10 token.subkind.name ++ " " ++ token.value

/-- A token in JSON. -/
def tokenJson (token : Token) : Outline :=
  Json.object [("value", Json.string token.value), ("token_type", Json.string token.kind.name),
    ("subtype", Json.string token.subkind.name), ("start", Json.nat token.start),
    ("end", Json.nat token.stop)]

/-- Lists the tokens of a formula. -/
def reportTokens (i : Invocation) : Report :=
  match i.options.tokens i.formula with
  | .error error => .refusal "tokenize" i.formula error
  | .ok tokens =>
    if i.json then .result (Json.write (Json.array (tokens.map tokenJson)))
    else .lines (tokens.map tokenLine)

/-! ## Trees -/

/-- Writes the tree of a formula. -/
def reportTree (i : Invocation) : Report :=
  match Formula.parse i.options i.formula with
  | .error error => .refusal "parse" i.formula error
  | .ok tree =>
    if i.json then .result (Json.write tree.json)
    else .lines ["=" ++ tree.display, tree.outline.write Listing.style]

/-! ## Segments -/

/-- A segment on one line, marked if the cursor belongs to it. -/
def segmentLine (marked : Option Nat) (segment : Segment) (index : Nat) : String :=
  (if marked = some index then ">" else " ") ++ Text.alignRight 3 (toString index) ++ " " ++
    spanColumns segment.start segment.stop ++ " " ++ Text.alignLeft 12 segment.kind.name ++ " " ++
    segment.text

/-- What surrounds the cursor, on one line. -/
def surroundingsLine (around : Surroundings) : String :=
  match around.call with
  | some name => "inside " ++ name ++ ", argument " ++ toString (around.argument + 1)
  | none => "not inside a function call"

/-- A segment in JSON, its fields in the order of their names. -/
def segmentJson (segment : Segment) : Outline :=
  Json.object [("end", Json.nat segment.stop), ("kind", Json.string segment.kind.name),
    ("start", Json.nat segment.start), ("text", Json.string segment.text),
    ("token_index", Json.optional Json.nat segment.token)]

/-- What surrounds the cursor in JSON, its fields in the order of their names. -/
def surroundingsJson (around : Surroundings) : Outline :=
  Json.object [("argument_index", Json.nat around.argument),
    ("function", Json.optional Json.string around.call),
    ("unit_index", Json.optional Json.nat around.segment)]

/-- Lists the segments of a formula and what surrounds the cursor. -/
def reportSegments (i : Invocation) : Report :=
  let segments := Formula.segments i.options.locale i.formula
  let around := i.cursor.map (Formula.surroundings i.options.locale i.formula)
  if i.json then
    .result (Json.write (Json.object [("cursor", Json.optional surroundingsJson around),
      ("units", Json.array (segments.map segmentJson))]))
  else
    let marked := around.bind (·.segment)
    .lines (segments.zipIdx.map (fun (segment, index) => segmentLine marked segment index) ++
      (around.map surroundingsLine).toList)

/-! ## The program -/

/-- Runs a command. -/
def runCommand (i : Invocation) : Report :=
  match i.command with
  | .tokenize => reportTokens i
  | .parse => reportTree i
  | .units => reportSegments i

/-- Runs the program. -/
def run (arguments : List String) : Report :=
  match Request.ofArguments? arguments with
  | none => .usage
  | some .version => .result versionLine
  | some (.help topic) => .lines (Help.page topic).lines
  | some (.run i) => runCommand i

end SheetFormula.CommandLine
