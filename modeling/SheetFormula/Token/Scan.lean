import SheetFormula.Error
import SheetFormula.Locale
import SheetFormula.Token

/-!
# Cutting a formula into raw tokens

A scan reads the characters after the leading spaces and one `=`, once and from left to right.

1. Between its iterations it is a `Scan.State`: the tokens so far, the open brackets, the offset of
   the next character, and the pending text of the token that is being read.
2. Texts, quoted sheet paths, brackets, error literals and numbers have a mode of their own; in
   every other place the rules of `Scan.ordinary` decide.
3. `Scan.step` is one iteration. It takes the character before it and says how many more it took,
   so that `Scan.run` ends with the formula.
4. A scan never fails. It notes the first fault, for a reader who wants to refuse the formula.
-/

namespace SheetFormula.Scan

/-- The error literals. -/
def errorLiterals : List String :=
  ["#NULL!", "#DIV/0!", "#VALUE!", "#REF!", "#NAME?", "#NUM!", "#N/A"]

/-- What the next character belongs to. -/
inductive Mode where
  | ordinary
  /-- A text between double quotes. -/
  | text
  /-- A sheet path between single quotes. -/
  | path
  /-- Square brackets, this many of them open. -/
  | bracket (depth : Nat)
  /-- An error literal of which this much is read, the `#` included. -/
  | errorLiteral (read : String)
  | number
  deriving DecidableEq, Repr

/-- What an open bracket was opened by. -/
inductive Opening where
  /-- A call or a parenthesis, with its token. -/
  | bracket (token : Token)
  /-- The brace at this offset. -/
  | array (offset : Nat)
  /-- A row inside the brace at this offset. -/
  | arrayRow (offset : Nat)
  deriving DecidableEq, Repr

/-- A scan between two iterations. -/
structure State where
  tokens : Array Token
  /-- What is open, the innermost first. -/
  openings : List Opening
  /-- The byte of the next character. -/
  offset : Nat
  /-- What is read of the token that is being read. -/
  pending : String
  /-- The byte where that token starts. -/
  pendingStart : Nat
  mode : Mode
  /-- The first fault that was met. -/
  fault : Option LexError
  deriving DecidableEq, Repr

namespace State

/-- The state in front of the character at this offset, with nothing read. -/
def initial (offset : Nat) : State := ⟨#[], [], offset, "", 0, .ordinary, none⟩

/-- Notes a fault unless one is noted already. -/
def note (s : State) (fault : LexError) : State :=
  { s with fault := s.fault.or (some fault) }

/-- Takes a character of the token that is being read. -/
def take (s : State) (c : Char) : State :=
  { s with pending := s.pending.push c, offset := s.offset + c.utf8Size }

/-- Takes a character of an operand or a name, which may be its first. -/
def extend (s : State) (c : Char) : State :=
  if s.pending.isEmpty then { s with pendingStart := s.offset }.take c else s.take c

/-- Adds a token. -/
def emit (s : State) (value : String) (kind : Token.Kind) (subkind : Token.Subkind)
    (start stop : Nat) : State :=
  { s with tokens := s.tokens.push ⟨value, kind, subkind, start, stop⟩ }

/-- Makes a token of the pending text. -/
def emitPending (s : State) (kind : Token.Kind) (subkind : Token.Subkind) : State :=
  { s.emit s.pending kind subkind s.pendingStart s.offset with pending := "" }

/-- Makes a token of the pending text unless it is empty. -/
def endPending (s : State) (kind : Token.Kind) (subkind : Token.Subkind) : State :=
  if s.pending.isEmpty then s else s.emitPending kind subkind

/-- Ends the operand that is being read, if there is one. -/
def endOperand (s : State) : State := s.endPending .operand .unspecified

/-- Ends a name that stands where no name can, if there is one. -/
def endStray (s : State) : State := s.endPending .unknown .unspecified

/-- Passes the next `width` bytes and makes a token of them. -/
def mark (s : State) (value : String) (kind : Token.Kind) (subkind : Token.Subkind)
    (width : Nat) : State :=
  let stop := s.offset + width
  { s.emit value kind subkind s.offset stop with offset := stop }

/-- Whether separators belong to a call or to a row. -/
def separatesHere (s : State) : Bool :=
  match s.openings.head? with
  | some (.bracket token) => token.kind == .function
  | some (.arrayRow _) => true
  | _ => false

/-- Whether the innermost open bracket is a row. -/
def inRow (s : State) : Bool :=
  match s.openings.head? with
  | some (.arrayRow _) => true
  | _ => false

/-- Opens a row of the array at `array`. Its token covers no text. -/
def openRow (s : State) (array : Nat) : State :=
  { s with openings := .arrayRow array :: s.openings }.mark Token.arrayRowName .function .start 0

end State

/-- What an iteration leads to: the next state, and how many characters it took beyond its own. -/
abbrev Next := State × Nat

/-! ## Modes of their own -/

/-- Inside a text: a quote ends it, two quotes stand for one. -/
def text (c : Char) (rest : List Char) (s : State) : Next :=
  if c ≠ '"' then (s.take c, 0)
  else if rest.head? = some '"' then
    ({ s with pending := s.pending.push '"', offset := s.offset + 2 }, 1)
  else
    ({ s with offset := s.offset + 1, mode := .ordinary }.emitPending .operand .text, 0)

/-- Inside a sheet path: a single quote ends it, two stay two. -/
def path (c : Char) (rest : List Char) (s : State) : Next :=
  if c ≠ '\'' then (s.take c, 0)
  else if rest.head? = some '\'' then ((s.take c).take c, 1)
  else ({ s with mode := .ordinary }.take c, 0)

/-- Inside square brackets, which nest. -/
def bracket (depth : Nat) (c : Char) (s : State) : Next :=
  let mode :=
    if c = '[' then .bracket (depth + 1)
    else if c = ']' then if depth ≤ 1 then .ordinary else .bracket (depth - 1)
    else .bracket depth
  ({ s with mode := mode }.take c, 0)

/-- Inside an error literal, which ends as soon as it is complete. -/
def errorLiteral (read : String) (c : Char) (s : State) : Next :=
  let read := read.push c
  if read ∈ errorLiterals then
    ({ s.take c with mode := .ordinary }.endPending .operand .error, 0)
  else ({ s.take c with mode := .errorLiteral read }, 0)

/-- Whether a number has its exponent mark. -/
def hasExponentMark (pending : String) : Bool :=
  pending.toList.any fun c => c == 'E' || c == 'e'

/-- Whether a character continues the pending number: a digit, one decimal separator before
the exponent mark, one exponent mark, and a sign directly behind the mark. -/
def continuesNumber (locale : Locale) (c : Char) (pending : String) : Bool :=
  if c.isDigit then true
  else if c = locale.decimalSeparator then
    !hasExponentMark pending && !pending.toList.contains locale.decimalSeparator
  else if c = 'E' ∨ c = 'e' then !hasExponentMark pending
  else if c = '+' ∨ c = '-' then locale.awaitsExponent pending
  else false

/-! ## Ordinary characters -/

/-- Whether the text starts with a row reference such as `1:3`, whose digits are no number. -/
def startsRowReference (text : List Char) : Bool :=
  (text.dropWhile Char.isDigit).head? == some ':'

/-- Whether a character separates tokens without being one. -/
def isGap (c : Char) : Bool := c == ' ' || c == '\n'

/-- Whether a character and the next one are a comparison operator. -/
def isComparison (c : Char) (next : Option Char) : Bool :=
  (c == '>' && next == some '=') || (c == '<' && (next == some '=' || next == some '>'))

/-- Opens an array and its first row. -/
def openArray (s : State) : State :=
  let array := s.offset
  let s := s.endStray
  let opened := { s with openings := .array array :: s.openings }
  (opened.mark Token.arrayName .function .start 1).openRow array

/-- Ends a row and opens the next one; outside an array the separator is unknown. -/
def nextRow (s : State) : State :=
  let s := s.endOperand
  match s.openings with
  | .arrayRow array :: outer =>
    let closed := { s with openings := outer }.mark "" .function .stop 0
    (closed.mark ";" .argument .unspecified 1).openRow array
  | _ => (s.note (.rowOutsideArray s.offset)).mark ";" .unknown .unspecified 1

/-- Ends a row and its array; outside an array the brace is unknown. -/
def closeArray (s : State) : State :=
  let s := s.endOperand
  match s.openings with
  | .arrayRow _ :: outer =>
    ({ s with openings := outer.drop 1 }.mark "" .function .stop 0).mark "" .function .stop 1
  | _ => (s.note (.noArrayToClose s.offset)).mark "\x7d" .unknown .unspecified 1

/-- Opens a call of the pending name, or a parenthesis if there is none. -/
def openGroup (s : State) : State :=
  let stop := s.offset + 1
  let opening : Token :=
    if s.pending.isEmpty then ⟨"", .subexpr, .start, s.offset, stop⟩
    else ⟨s.pending, .function, .start, s.pendingStart, stop⟩
  { s with
    tokens := s.tokens.push opening
    openings := .bracket opening :: s.openings
    pending := ""
    offset := stop }

/-- Closes the innermost call or parenthesis. Directly inside a row the parenthesis is unknown; with
nothing open it closes a group that was never opened. -/
def closeGroup (s : State) : State :=
  let s := s.endOperand
  match s.openings with
  | .bracket opening :: outer => { s with openings := outer }.mark "" opening.kind .stop 1
  | _ =>
    let noted := s.note (.noOpener s.offset)
    if s.inRow then noted.mark ")" .unknown .unspecified 1
    else noted.mark "" .subexpr .stop 1

/-- Starts an error literal. A name in front of it stays with it only where it ends in `!`. -/
def openErrorLiteral (c : Char) (s : State) : State :=
  let s := if s.pending.toList.getLast? = some '!' then s else s.endStray
  { s.extend c with mode := .errorLiteral (String.singleton c) }

/-- The rules for a character that is neither a separator nor the start of a number. -/
def symbol (c : Char) (rest : List Char) (s : State) : Next :=
  if c = '"' then
    let s := s.endStray
    ({ s with pendingStart := s.offset, offset := s.offset + 1, mode := .text }, 0)
  else if c = '\'' then ({ s.extend c with mode := .path }, 0)
  else if c = '[' then ({ s.extend c with mode := .bracket 1 }, 0)
  else if c = '#' then (openErrorLiteral c s, 0)
  else if c = '\x7b' then (openArray s, 0)
  else if c = ';' then (nextRow s, 0)
  else if c = '\x7d' then (closeArray s, 0)
  else if isGap c then
    let more := (rest.takeWhile isGap).length
    (s.endOperand.mark " " .whitespace .unspecified (1 + more), more)
  else if isComparison c rest.head? then
    (s.endOperand.mark (String.ofList (c :: rest.take 1)) .infixOp .logical 2, 1)
  else if c ∈ ['+', '-', '*', '/', '^', '&', '=', '>', '<'] then
    (s.endOperand.mark (String.singleton c) .infixOp .unspecified 1, 0)
  else if c = '%' then (s.endOperand.mark "%" .postfixOp .unspecified 1, 0)
  else if c = '(' then (openGroup s, 0)
  else if c = ')' then (closeGroup s, 0)
  else (s.extend c, 0)

/-- The rules outside the modes of their own. The argument separator of the locale counts only
inside a call or a row, and a `;` directly inside a row always ends the row. -/
def ordinary (locale : Locale) (c : Char) (rest : List Char) (s : State) : Next :=
  if c = locale.argumentSeparator && s.separatesHere && !(c = ';' && s.inRow) then
    (s.endOperand.mark (String.singleton c) .argument .unspecified 1, 0)
  else if c = ',' then (s.endOperand.mark "," .infixOp .union 1, 0)
  else if c.isDigit && s.pending.isEmpty && !startsRowReference (c :: rest) then
    ({ s.extend c with mode := .number }, 0)
  else symbol c rest s

/-! ## The scan -/

/-- One iteration, at the character `c` with `rest` behind it. -/
def step (locale : Locale) (c : Char) (rest : List Char) (s : State) : Next :=
  match s.mode with
  | .text => text c rest s
  | .path => path c rest s
  | .bracket depth => bracket depth c s
  | .errorLiteral read => errorLiteral read c s
  | .number =>
    if continuesNumber locale c s.pending then (s.take c, 0)
    else ordinary locale c rest { s with mode := .ordinary }
  | .ordinary => ordinary locale c rest s

/-- Iterates to the end of the text. -/
def run (locale : Locale) : List Char → State → State
  | [], s => s
  | c :: rest, s =>
    let (next, more) := step locale c rest s
    run locale (rest.drop more) next
termination_by text => text.length
decreasing_by simp only [List.length_drop, List.length_cons]; omega

/-- Ends the token that is being read; what is unfinished is noted and kept as far as it goes. -/
def finishToken (s : State) : State :=
  match s.mode with
  | .text => (s.note .unfinishedText).emitPending .operand .text
  | .path => (s.note .unfinishedPath).endOperand
  | .bracket _ => (s.note .unfinishedBracket).endOperand
  | .errorLiteral _ => (s.note (.unfinishedErrorLiteral s.pending)).endStray
  | .number | .ordinary => s.endOperand

/-- Notes the innermost bracket that is still open. -/
def noteUnclosed (s : State) : State :=
  match s.openings with
  | [] => s
  | .bracket token :: _ =>
    s.note (.unclosed (if token.value.isEmpty then "(" else token.value) token.start)
  | .array offset :: _ | .arrayRow offset :: _ => s.note (.unclosed "\x7b" offset)

/-- Ends the scan. -/
def finish (s : State) : State := noteUnclosed { finishToken s with mode := .ordinary }

/-- What a scan reads: the text without its leading spaces and one `=` behind them. -/
def body (text : List Char) : List Char :=
  match text.dropWhile (· == ' ') with
  | '=' :: rest => rest
  | rest => rest

/-- The offset at which a scan starts. What stands in front of it takes one byte a character. -/
def leadSize (formula : String) : Nat :=
  formula.toList.length - (body formula.toList).length

/-- Scans a formula. -/
def ofFormula (locale : Locale) (formula : String) : State :=
  finish (run locale (body formula.toList) (.initial (leadSize formula)))

end SheetFormula.Scan
