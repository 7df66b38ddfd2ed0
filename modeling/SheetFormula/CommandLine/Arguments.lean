import SheetFormula.Formula

/-!
# Command-line arguments

`Request.ofArguments?` reads the arguments of the program: a command, one formula, and options, or a
question about the program. They are read from left to right, and a question is answered whatever
follows it.

1. The options for all commands stand in front of the command or behind it; behind it they count
   for more. The options of a command stand behind it. No option is given twice in one place.
2. A value follows its option, or is attached: `--name=value`, `-nvalue`, `-n=value`. A value that
   is not attached does not start with `-`, unless it is `-` alone; neither does a formula.
3. `--` behind the command ends the options.
4. `--help` asks for help on the command it stands behind, or else on the program, and so does
   `help` with the name of a command; `--version` in front of the command asks for the version.
-/

namespace SheetFormula.CommandLine

/-- The commands. -/
inductive Command where
  | tokenize
  | parse
  | units
  deriving DecidableEq, Repr

namespace Command

/-- The name of a command. -/
def name : Command → String
  | .tokenize => "tokenize"
  | .parse => "parse"
  | .units => "units"

/-- The command with this name. -/
def ofName? : String → Option Command
  | "tokenize" => some .tokenize
  | "parse" => some .parse
  | "units" => some .units
  | _ => none

end Command

/-- The options. -/
inductive OptionName where
  | locale
  | json
  | strict
  | maxDepth
  | maxHeight
  | cursor
  deriving DecidableEq, Repr

namespace OptionName

/-- The long spelling. -/
def long : OptionName → String
  | .locale => "locale"
  | .json => "json"
  | .strict => "strict"
  | .maxDepth => "max-depth"
  | .maxHeight => "max-height"
  | .cursor => "cursor"

/-- The short spelling, for options that have one. -/
def short? : OptionName → Option Char
  | .locale => some 'l'
  | .cursor => some 'c'
  | _ => none

/-- Whether the option takes a value. -/
def takesValue : OptionName → Bool
  | .json | .strict => false
  | _ => true

/-- The options that may stand behind a command, or in front of it, in the order of the help. -/
def allowed : Option Command → List OptionName
  | none => [.locale, .json]
  | some .tokenize => [.locale, .strict, .json]
  | some .parse => [.locale, .strict, .json, .maxDepth, .maxHeight]
  | some .units => [.cursor, .locale, .json]

end OptionName

/-- The options that ask about the program. -/
inductive Question where
  | help
  | version
  deriving DecidableEq, Repr

namespace Question

/-- The long spelling. -/
def long : Question → String
  | .help => "help"
  | .version => "version"

/-- The short spelling. -/
def short : Question → Char
  | .help => 'h'
  | .version => 'V'

/-- The questions that may stand behind a command, or in front of it. -/
def allowed : Option Command → List Question
  | none => [.help, .version]
  | some _ => [.help]

end Question

/-- What there is help on. -/
inductive Topic where
  | program
  | command (command : Command)
  /-- The word that asks for help. -/
  | help
  deriving DecidableEq, Repr

/-- The topic that these words name. -/
def Topic.ofWords? : List String → Option Topic
  | [] => some .program
  | ["help"] => some .help
  | [name] => (Command.ofName? name).map .command
  | _ => none

/-! ## Single arguments -/

/-- What one argument is. -/
inductive Argument where
  | word (text : String)
  | endOfOptions
  | option (name : OptionName) (attached : Option String)
  | question (question : Question)
  /-- The word in front of a topic. -/
  | help
  deriving DecidableEq, Repr

/-- Splits a long option into its name and the value that is attached to it. -/
def splitValue (text : List Char) : List Char × Option String :=
  match text.dropWhile (· != '=') with
  | [] => (text, none)
  | _ :: value => (text.takeWhile (· != '='), some (String.ofList value))

/-- The value attached to a short option. -/
def shortValue : List Char → Option String
  | [] => none
  | '=' :: value => some (String.ofList value)
  | value => some (String.ofList value)

/-- Reads one argument behind a command, or in front of it; none for an option that is not allowed
there. What is attached to the short spelling of a question does not matter. -/
def Argument.read? (command : Option Command) (text : String) : Option Argument :=
  let options := OptionName.allowed command
  let questions := Question.allowed command
  match text.toList with
  | ['-', '-'] => some .endOfOptions
  | '-' :: '-' :: rest =>
    match questions.find? (·.long.toList == rest) with
    | some asked => some (.question asked)
    | none =>
      let (name, value) := splitValue rest
      (options.find? (·.long.toList == name)).map (.option · value)
  | '-' :: c :: rest =>
    match questions.find? (·.short == c) with
    | some asked => some (.question asked)
    | none => (options.find? (·.short? == some c)).map (.option · (shortValue rest))
  | _ => some (if command.isNone && text == "help" then .help else .word text)

/-- Whether an argument may be the value of the option in front of it. -/
def mayBeValue (text : String) : Bool := text.toList.head? != some '-' || text == "-"

/-- Reads a count: digits with an optional plus sign, below `2 ^ 64`. -/
def readCount? (text : String) : Option Nat :=
  let digits := match text.toList with
    | '+' :: digits => digits
    | digits => digits
  if digits.isEmpty || !digits.all Char.isDigit then none
  else
    let n := Nat.ofDigitChars 10 digits 0
    if n < UInt64.size then some n else none

/-! ## Settings -/

/-- The values of the options given in one place. -/
structure Settings where
  locale : Option Locale
  json : Bool
  strict : Bool
  maxDepth : Option Nat
  maxHeight : Option Nat
  cursor : Option Nat
  deriving DecidableEq, Repr

namespace Settings

/-- No option is given. -/
def empty : Settings := ⟨none, false, false, none, none, none⟩

/-- The value of an option that was not given before. -/
def once (previous : Option α) (value : Option α) : Option (Option α) :=
  if previous.isSome then none else value.map some

/-- Adds an option with its value; none where it was given before or cannot have the value. -/
def add (s : Settings) (name : OptionName) (value : String) : Option Settings :=
  match name with
  | .locale => (once s.locale (Locale.read value).toOption).map fun v => { s with locale := v }
  | .json => if s.json then none else some { s with json := true }
  | .strict => if s.strict then none else some { s with strict := true }
  | .maxDepth => (once s.maxDepth (readCount? value)).map fun v => { s with maxDepth := v }
  | .maxHeight => (once s.maxHeight (readCount? value)).map fun v => { s with maxHeight := v }
  | .cursor => (once s.cursor (readCount? value)).map fun v => { s with cursor := v }

end Settings

/-! ## All arguments -/

/-- A command with its formula and its options. -/
structure Invocation where
  command : Command
  formula : String
  options : Formula.Options
  json : Bool
  cursor : Option Nat
  deriving DecidableEq, Repr

/-- What the program is asked for. -/
inductive Request where
  | run (invocation : Invocation)
  | help (topic : Topic)
  | version
  deriving DecidableEq, Repr

/-- What a question asks for behind a command, or in front of it. -/
def Question.request (command : Option Command) : Question → Request
  | .help => .help (command.elim .program .command)
  | .version => .version

/-- What is read of the arguments. -/
structure Reading where
  command : Option Command
  /-- The options in front of the command. -/
  before : Settings
  /-- The options behind the command, or in front of it while none is read. -/
  settings : Settings
  formula : Option String
  /-- The option whose value is the next argument. -/
  pending : Option OptionName
  /-- Whether the options are ended. -/
  ended : Bool
  deriving DecidableEq, Repr

namespace Reading

/-- Nothing is read. -/
def empty : Reading := ⟨none, .empty, .empty, none, none, false⟩

/-- Adds a word: the first one names the command, the second one is the formula. -/
def addWord (r : Reading) (word : String) : Option Reading :=
  match r.command, r.formula with
  | none, _ => (Command.ofName? word).map fun command =>
      { r with command := some command, before := r.settings, settings := .empty }
  | some _, none => some { r with formula := some word }
  | some _, some _ => none

/-- Adds an option with its value. -/
def addOption (r : Reading) (name : OptionName) (value : String) : Option Reading :=
  (r.settings.add name value).map fun settings => { r with settings := settings, pending := none }

/-- Adds an option as it is written. -/
def addWritten (r : Reading) (name : OptionName) : Option String → Option Reading
  | some value => if name.takesValue then r.addOption name value else none
  | none => if name.takesValue then some { r with pending := some name } else r.addOption name ""

/-- Ends the options, which only a command has. -/
def endOptions (r : Reading) : Option Reading :=
  if r.command.isSome then some { r with ended := true } else none

/-- What the next argument is; none where it cannot be understood. -/
def argument? (r : Reading) (text : String) : Option Argument :=
  match r.pending with
  | some name => if mayBeValue text then some (.option name (some text)) else none
  | none => if r.ended then some (.word text) else Argument.read? r.command text

/-- The invocation that is read, if it is complete. -/
def invocation? (r : Reading) : Option Invocation := do
  let none := r.pending | none
  let command ← r.command
  let formula ← r.formula
  let standard := Formula.Options.standard
  return {
    command, formula
    options := {
      locale := (r.settings.locale <|> r.before.locale).getD standard.locale
      limits := {
        depth := r.settings.maxDepth.getD standard.limits.depth
        height := r.settings.maxHeight.getD standard.limits.height }
      strict := r.settings.strict }
    json := r.settings.json || r.before.json
    cursor := r.settings.cursor }

/-- What is asked for where these arguments follow; none where they cannot be understood. -/
def request? (r : Reading) : List String → Option Request
  | [] => r.invocation?.map .run
  | text :: rest => do
    match ← r.argument? text with
    | .word word => (← r.addWord word).request? rest
    | .option name attached => (← r.addWritten name attached).request? rest
    | .endOfOptions => (← r.endOptions).request? rest
    | .question question => some (question.request r.command)
    | .help => (Topic.ofWords? rest).map .help

end Reading

/-- Reads the arguments of the program; none where they cannot be understood. -/
def Request.ofArguments? (arguments : List String) : Option Request :=
  Reading.empty.request? arguments

end SheetFormula.CommandLine
