import SheetFormula.Token
import SheetFormula.Error

/-!
# Reading tokens in order

A cursor stands before the first unread token. Behind the last token it sees an end token, which
cannot be passed.
-/

namespace SheetFormula.Token

/-- A place in a list of tokens. -/
structure Cursor where
  /-- How many tokens are read. -/
  position : Nat
  /-- The tokens still to read. -/
  unread : List Token
  /-- What stands behind the last token. -/
  final : Token
  deriving DecidableEq, Repr

namespace Cursor

/-- The cursor before the first token; the end token stands where the last token stops. -/
def ofTokens (tokens : List Token) : Cursor :=
  let place := match tokens.getLast? with
    | some token => token.stop
    | none => 0
  ⟨0, tokens, ⟨"", .unspecified, .unspecified, place, place⟩⟩

/-- The number of tokens, read and unread. -/
def size (cursor : Cursor) : Nat := cursor.position + cursor.unread.length

/-- The token at the cursor, the end token included. -/
def peek (cursor : Cursor) : Token := cursor.unread.headD cursor.final

/-- Whether every token is read. -/
def atEnd (cursor : Cursor) : Bool := cursor.unread.isEmpty

/-- Passes one token. -/
def advance (cursor : Cursor) : Except SyntaxError Cursor :=
  match cursor.unread with
  | [] => .error .pastEnd
  | _ :: rest => .ok { cursor with position := cursor.position + 1, unread := rest }

theorem position_add_length (cursor : Cursor) :
    cursor.position + cursor.unread.length = cursor.size := rfl

theorem advance_of_unread {cursor : Cursor} {token : Token} {rest : List Token}
    (h : cursor.unread = token :: rest) :
    cursor.advance = .ok { cursor with position := cursor.position + 1, unread := rest } := by
  unfold advance
  rw [h]

theorem size_advance {cursor next : Cursor} (h : cursor.advance = .ok next) :
    next.size = cursor.size := by
  unfold advance at h
  split at h
  · cases h
  · rename_i token rest hu
    cases h
    simp [size, hu]
    omega

end Cursor

end SheetFormula.Token
