import SheetFormula.Formula
import SheetFormula.Text.Slice

/-!
# Segments and the cursor

A segment is the smallest piece of a formula that an editor highlights or sets its cursor against.

1. `Formula.segments` cuts a formula into segments. They follow the tokens, except that the leading
   `=` is a segment of its own and that a call is split into its name and its parenthesis. White
   space without a meaning and the marks of array rows have none.
2. `Segment.indexAt` finds the segment that the cursor directly follows or is inside.
3. `Formula.surroundings` adds the innermost call around the cursor, with the argument it is in.
-/

namespace SheetFormula

/-- What a segment is. -/
inductive Segment.Kind where
  | equals
  | callName
  | opening
  | closing
  | separator
  | operator
  | operand
  | unknown
  deriving DecidableEq, Repr

/-- The name of a kind in listings. -/
def Segment.Kind.name : Segment.Kind → String
  | .equals => "Equals"
  | .callName => "FunctionName"
  | .opening => "Open"
  | .closing => "Close"
  | .separator => "Separator"
  | .operator => "Operator"
  | .operand => "Operand"
  | .unknown => "Unknown"

/-- A piece of a formula; offsets are in bytes. -/
structure Segment where
  text : String
  kind : Segment.Kind
  start : Nat
  stop : Nat
  /-- The place of its token among all tokens; none for the leading `=`. -/
  token : Option Nat
  deriving DecidableEq, Repr

/-- What stands around the cursor. -/
structure Surroundings where
  /-- The place of the segment that the cursor belongs to. -/
  segment : Option Nat
  /-- The name of the innermost call around the cursor. -/
  call : Option String
  /-- The argument of that call which the cursor is in, counted from zero. -/
  argument : Nat
  deriving DecidableEq, Repr

/-! ## Segments -/

namespace Segment

/-- The kind of the single segment of a token. -/
def Kind.ofToken (token : Token) : Kind :=
  if token.opensBracket then .opening
  else if token.closesBracket then .closing
  else match token.kind with
    | .argument => .separator
    | .prefixOp | .infixOp | .postfixOp => .operator
    | .operand => .operand
    | _ => .unknown

/-- The segments of a token; none for a token that covers no text. -/
def ofToken (formula : String) (token : Token) (index : Nat) : List Segment :=
  if token.start = token.stop then []
  else
    let source := Text.slice formula token.start token.stop
    if token.opensCall && source.toList.getLast? == some '(' then
      let paren := token.stop - 1
      [⟨Text.slice formula token.start paren, .callName, token.start, paren, some index⟩,
       ⟨"(", .opening, paren, token.stop, some index⟩]
    else [⟨source, .ofToken token, token.start, token.stop, some index⟩]

/-- The segment of the leading `=`, if there is one. -/
def ofLead (formula : String) : List Segment :=
  let size := Scan.leadSize formula
  if (formula.toList.take size).getLast? == some '=' then
    [⟨"=", .equals, size - 1, size, none⟩]
  else []

/-- Whether the cursor at this offset directly follows a segment or is inside it. -/
def holds (segment : Segment) (offset : Nat) : Bool :=
  segment.start < offset && offset ≤ segment.stop

/-- The place of the segment that the cursor belongs to. At the very start that is the first. -/
def indexAt (segments : List Segment) (offset : Nat) : Option Nat :=
  if offset = 0 then if segments.isEmpty then none else some 0
  else segments.findIdx? fun segment => segment.holds offset

end Segment

/-- The segments of a formula, in its order. -/
def Formula.segments (locale : Locale) (formula : String) : List Segment :=
  Segment.ofLead formula ++
    (Formula.tokens locale formula).zipIdx.flatMap fun (token, index) =>
      Segment.ofToken formula token index

/-! ## The cursor -/

namespace Surroundings

/-- An open bracket: the name of its call, none for a parenthesis, and the argument reached. -/
abbrev Frame := Option String × Nat

/-- The open brackets behind one more token, the innermost first. -/
def behind (frames : List Frame) (token : Token) : List Frame :=
  if token.opensCall then (some token.value, 0) :: frames
  else if token.opensGroup then (none, 0) :: frames
  else if token.closesBracket then frames.tail
  else if token.separatesArguments then
    match frames with
    | (name, argument) :: outer => (name, argument + 1) :: outer
    | [] => []
  else frames

/-- The innermost call among open brackets. -/
def innermostCall : List Frame → Option (String × Nat)
  | [] => none
  | (some name, argument) :: _ => some (name, argument)
  | (none, _) :: outer => innermostCall outer

end Surroundings

/-- What stands around the cursor at a byte of a formula. -/
def Formula.surroundings (locale : Locale) (formula : String) (offset : Nat) : Surroundings :=
  let passed := (Formula.tokens locale formula).takeWhile fun token => token.stop ≤ offset
  let call := Surroundings.innermostCall (passed.foldl Surroundings.behind [])
  { segment := Segment.indexAt (Formula.segments locale formula) offset
    call := call.map (·.1)
    argument := (call.map (·.2)).getD 0 }

end SheetFormula
