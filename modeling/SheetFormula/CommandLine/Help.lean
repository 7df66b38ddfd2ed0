import SheetFormula.CommandLine.Arguments
import SheetFormula.Text.Column

/-!
# Help

What the program says about itself: `versionLine`, and for each topic a `Page` that states a
purpose, the order of the arguments, and the meaning of each one.
-/

namespace SheetFormula.CommandLine

/-- The name under which the program is run. -/
def programName : String := "gridform"

/-- The name of the program and its version. -/
def versionLine : String := programName ++ " 0.3.0"

namespace Help

/-- Something that can be written, and what it means. -/
structure Entry where
  written : String
  meaning : String
  deriving DecidableEq, Repr

/-- Entries of one kind. -/
structure Section where
  title : String
  entries : List Entry
  deriving DecidableEq, Repr

/-- What is said on a topic. -/
structure Page where
  purpose : String
  /-- The order of the arguments. -/
  usage : String
  sections : List Section
  deriving DecidableEq, Repr

/-! ## Layout -/

/-- The lines of a section: the title, and the entries in two columns. -/
def Section.lines (s : Section) : List String :=
  let width := (s.entries.map (·.written.length)).foldl max 0
  (s.title ++ ":") :: s.entries.map fun entry =>
    "  " ++ Text.alignLeft width entry.written ++ "  " ++ entry.meaning

/-- The lines of a page: its parts with an empty line between them. -/
def Page.lines (page : Page) : List String :=
  [page.purpose, "", "Usage: " ++ page.usage] ++ page.sections.flatMap fun s => "" :: s.lines

/-! ## Entries -/

/-- The spellings of an option, the long ones in one column. -/
def spelling (short : Option Char) (long : String) (value : Option String) : String :=
  short.elim "    " (fun c => "-" ++ c.toString ++ ", ") ++ "--" ++ long ++
    value.elim "" fun name => " <" ++ name ++ ">"

/-- What the value of an option is called. -/
def valueName? : OptionName → Option String
  | .locale => some "LOCALE"
  | .maxDepth => some "MAX_DEPTH"
  | .maxHeight => some "MAX_HEIGHT"
  | .cursor => some "CURSOR"
  | .json | .strict => none

/-- What an option does. -/
def optionMeaning : OptionName → String
  | .locale => "Formula locale (en-US or de-DE)"
  | .json => "Print JSON instead of text"
  | .strict => "Fail on unterminated strings, sheet names and brackets"
  | .maxDepth => "Maximum nesting of parentheses and function calls"
  | .maxHeight => "Maximum height of the parsed tree"
  | .cursor => "Byte offset of the cursor"

/-- The value of an option that is not given. -/
def standardValue? : OptionName → Option String
  | .locale => some Formula.Options.standard.locale.tag
  | .maxDepth => some (toString Formula.Options.standard.limits.depth)
  | .maxHeight => some (toString Formula.Options.standard.limits.height)
  | .json | .strict | .cursor => none

/-- The entry of an option. -/
def optionEntry (name : OptionName) : Entry :=
  ⟨spelling name.short? name.long (valueName? name),
    optionMeaning name ++ (standardValue? name).elim "" fun value => " [default: " ++ value ++ "]"⟩

/-- The entry of a question. -/
def questionEntry (question : Question) : Entry :=
  ⟨spelling (some question.short) question.long none, "Print " ++ question.long⟩

/-- The options that are allowed behind a command, or in front of it. -/
def optionSection (command : Option Command) : Section :=
  ⟨"Options", (OptionName.allowed command).map optionEntry ++
    (Question.allowed command).map questionEntry⟩

/-! ## Pages -/

/-- What a command does. -/
def commandMeaning : Command → String
  | .tokenize => "List the tokens of a formula"
  | .parse => "Parse a formula and print its tree"
  | .units => "List display units, optionally describing a cursor position"

/-- What asking for help does. -/
def helpMeaning : String := "Print this message or the help of the given subcommand(s)"

/-- The page on a topic. -/
def page : Topic → Page
  | .program => {
      purpose := "Tokenize and parse spreadsheet formulas"
      usage := programName ++ " [OPTIONS] <COMMAND>"
      sections := [
        ⟨"Commands", [.tokenize, .parse, .units].map
          (fun command : Command => ⟨command.name, commandMeaning command⟩) ++
            [⟨"help", helpMeaning⟩]⟩,
        optionSection none] }
  | .command command => {
      purpose := commandMeaning command
      usage := programName ++ " " ++ command.name ++ " [OPTIONS] <FORMULA>"
      sections := [⟨"Arguments", [⟨"<FORMULA>", ""⟩]⟩, optionSection (some command)] }
  | .help => {
      purpose := helpMeaning
      usage := programName ++ " help [COMMAND]..."
      sections := [⟨"Arguments", [⟨"[COMMAND]...", "Print help for the subcommand(s)"⟩]⟩] }

end Help

end SheetFormula.CommandLine
