import Mathlib.Data.String.Basic
import SheetFormula.Proofs.Moves
import SheetFormula.Text.Quoted
import SheetFormula.Text.Slice

/-!
# The pieces of a formula

Which tokens a scan adds at once, and which part of the formula each of them covers.

1. `Covers` says that a span is a part of a text; `slice_of_covers` reads it back.
2. A `Piece` is what is added between two stacks of open brackets. The tokens of an array come in
   pieces of several tokens, because its rows have no text of their own.
3. `Tracks` is the invariant of a scan: its tokens are made of pieces, and what is pending stands
   directly in front of the next character.
-/

namespace SheetFormula.Scan

open String (utf8Len)

/-! ## Spans -/

/-- A span covers this part of a text. -/
def Covers (source : List Char) (start stop : Nat) (part : List Char) : Prop :=
  ∃ before after, source = before ++ part ++ after ∧ start = utf8Len before ∧
    stop = utf8Len before + utf8Len part

theorem slice_of_covers {formula : String} {start stop : Nat} {part : List Char}
    (h : Covers formula.toList start stop part) :
    Text.slice formula start stop = String.ofList part := by
  obtain ⟨before, after, htext, rfl, rfl⟩ := h
  have hformula : formula = String.ofList (before ++ part ++ after) := by
    rw [← htext, String.ofList_toList]
  rw [hformula]
  exact String.extract_of_valid before part after

/-- What covers two parts covers each of them. -/
theorem covers_append {source front back : List Char} {start stop : Nat}
    (h : Covers source start stop (front ++ back)) :
    Covers source start (start + utf8Len front) front ∧
      Covers source (start + utf8Len front) stop back := by
  obtain ⟨before, after, htext, rfl, rfl⟩ := h
  refine ⟨⟨before, back ++ after, ?_, rfl, rfl⟩, ⟨before ++ front, after, ?_, ?_, ?_⟩⟩
  · rw [htext, List.append_assoc, List.append_assoc, List.append_assoc]
  · rw [htext, ← List.append_assoc before]
  · rw [String.utf8Len_append]
  · rw [String.utf8Len_append, String.utf8Len_append, Nat.add_assoc]

/-! ## Pieces -/

/-- The kinds of the tokens that cover their own text and neither open nor close anything. -/
def plainKinds : List (Token.Kind × Token.Subkind) :=
  [(.operand, .unspecified), (.operand, .error), (.unknown, .unspecified),
   (.argument, .unspecified), (.infixOp, .union), (.infixOp, .logical), (.infixOp, .unspecified),
   (.postfixOp, .unspecified)]

theorem fits_of_word {locale : Locale} {openings : List Opening} {value : String}
    {kind : Token.Kind} (h : kind ≠ .argument ∧ kind ≠ .infixOp) :
    Fits locale openings value kind := fits_of_ne h.1 fun heq => absurd heq h.2

/-- The tokens that are added at once, between the stacks of open brackets before and after. -/
inductive Piece (locale : Locale) (source : List Char) :
    List Opening → List Token → List Opening → Prop
  | plain {openings value kind subkind start stop} : (kind, subkind) ∈ plainKinds →
      Covers source start stop value.toList → Fits locale openings value kind →
      Piece locale source openings [⟨value, kind, subkind, start, stop⟩] openings
  | gap {openings start stop part} : Covers source start stop part →
      Piece locale source openings [⟨" ", .whitespace, .unspecified, start, stop⟩] openings
  | text {openings value start stop} :
      Covers source start stop ('"' :: Text.doubled '"' value.toList ++ ['"']) →
      Piece locale source openings [⟨value, .operand, .text, start, stop⟩] openings
  /-- A text that the formula ends in. -/
  | openText {openings value start stop} :
      Covers source start stop ('"' :: Text.doubled '"' value.toList) → stop = utf8Len source →
      Piece locale source openings [⟨value, .operand, .text, start, stop⟩] openings
  | group {openings start stop} : Covers source start stop ['('] →
      Piece locale source openings [⟨"", .subexpr, .start, start, stop⟩]
        (.bracket ⟨"", .subexpr, .start, start, stop⟩ :: openings)
  | call {openings value start stop} : Covers source start stop (value.toList ++ ['(']) →
      Piece locale source openings [⟨value, .function, .start, start, stop⟩]
        (.bracket ⟨value, .function, .start, start, stop⟩ :: openings)
  | close {openings opening start stop} : opening.kind = .function ∨ opening.kind = .subexpr →
      Covers source start stop [')'] →
      Piece locale source (.bracket opening :: openings) [⟨"", opening.kind, .stop, start, stop⟩] openings
  /-- A closer with nothing open. -/
  | closeNothing {start stop} : Covers source start stop [')'] →
      Piece locale source [] [⟨"", .subexpr, .stop, start, stop⟩] []
  | array {openings array row start stop} : Covers source start stop ['\x7b'] →
      Piece locale source openings
        [⟨Token.arrayName, .function, .start, start, stop⟩,
         ⟨Token.arrayRowName, .function, .start, stop, stop⟩]
        (.arrayRow row :: .array array :: openings)
  | nextRow {openings row start stop} : Covers source start stop [';'] →
      Piece locale source (.arrayRow row :: openings)
        [⟨"", .function, .stop, start, start⟩, ⟨";", .argument, .unspecified, start, stop⟩,
         ⟨Token.arrayRowName, .function, .start, stop, stop⟩] (.arrayRow row :: openings)
  | closeArray {openings array row start stop} : Covers source start stop ['\x7d'] →
      Piece locale source (.arrayRow row :: .array array :: openings)
        [⟨"", .function, .stop, start, start⟩, ⟨"", .function, .stop, start, stop⟩] openings

/-- The tokens of a formula so far, with the brackets that are open behind them. -/
inductive Pieces (locale : Locale) (source : List Char) : List Token → List Opening → Prop
  | nil : Pieces locale source [] []
  | concat {tokens openings more openings'} : Pieces locale source tokens openings →
      Piece locale source openings more openings' →
      Pieces locale source (tokens ++ more) openings'

/-- A row is open inside its array only. -/
inductive Nested : List Opening → Prop
  | nil : Nested []
  | bracket {token openings} : token.kind = .function ∨ token.kind = .subexpr → Nested openings →
      Nested (.bracket token :: openings)
  | row {row array openings} : Nested openings → Nested (.arrayRow row :: .array array :: openings)

theorem Pieces.nested {locale : Locale} {source : List Char} {tokens : List Token}
    {openings : List Opening} (h : Pieces locale source tokens openings) : Nested openings := by
  induction h with
  | nil => exact .nil
  | concat _ hpiece ih =>
    cases hpiece with
    | plain | gap | text | openText | closeNothing => exact ih
    | group => exact .bracket (.inr rfl) ih
    | call => exact .bracket (.inl rfl) ih
    | close => cases ih; assumption
    | array => exact .row ih
    | nextRow => cases ih; exact .row ‹_›
    | closeArray => cases ih; assumption

/-- Where neither a bracket nor a row is innermost, nothing is open. -/
theorem Nested.eq_nil {s : State} (h : Nested s.openings)
    (hbracket : ∀ opening outer, s.openings ≠ .bracket opening :: outer) (hrow : s.inRow = false) :
    s.openings = [] := by
  cases hopenings : s.openings with
  | nil => rfl
  | cons opening outer =>
    rw [hopenings] at h
    cases h with
    | bracket => exact absurd hopenings (hbracket _ _)
    | row => simp [State.inRow, hopenings] at hrow

/-! ## The invariant -/

/-- What is read of the formula behind the last token. -/
def State.part (s : State) : List Char :=
  if s.mode = .text then '"' :: Text.doubled '"' s.pending.toList else s.pending.toList

/-- The pending text of a scan stands behind the part `before` of a text and in front of what is
unread. -/
def Placed (source before : List Char) (s : State) (unread : List Char) : Prop :=
  source = before ++ s.part ++ unread ∧ s.offset = utf8Len before + utf8Len s.part ∧
    (s.part ≠ [] → s.pendingStart = utf8Len before)

namespace Placed

variable {source before taken rest : List Char} {s s' : State}

/-- What is pending starts behind the part in front of it. -/
theorem start (h : Placed source before s rest) :
    (if s.part = [] then s.offset else s.pendingStart) = utf8Len before := by
  obtain ⟨-, hplace, hstart⟩ := h
  split
  · rename_i hnil
    rw [hplace, hnil]
    rfl
  · rename_i hne
    exact hstart hne

/-- More is pending. -/
theorem extend (h : Placed source before s (taken ++ rest)) (hoffset : s'.offset = s.offset + utf8Len taken)
    (hpart : s'.part = s.part ++ taken)
    (hstart : s'.pendingStart = if s.part = [] then s.offset else s.pendingStart) :
    Placed source before s' rest := by
  obtain ⟨htext, hplace, -⟩ := id h
  refine ⟨?_, ?_, fun _ => hstart.trans h.start⟩
  · rw [htext, hpart, List.append_assoc, List.append_assoc, List.append_assoc]
  · rw [hoffset, hplace, hpart, String.utf8Len_append, Nat.add_assoc]

/-- Nothing is pending behind what was pending and what is taken. -/
theorem add (h : Placed source before s (taken ++ rest)) (hoffset : s'.offset = s.offset + utf8Len taken)
    (hpart : s'.part = []) : Placed source (before ++ (s.part ++ taken)) s' rest := by
  obtain ⟨htext, hplace, -⟩ := h
  refine ⟨?_, ?_, fun hne => absurd hpart hne⟩
  · rw [htext, hpart, List.append_nil, List.append_assoc, List.append_assoc, List.append_assoc]
  · rw [hoffset, hplace, hpart, String.utf8Len_append, String.utf8Len_append, Nat.add_assoc]
    rfl

theorem with_mode (h : Placed source before s rest) (hmode : s.mode = .ordinary ∨ s.mode = .number) :
    Placed source before { s with mode := .ordinary } rest := by
  have hpart : State.part { s with mode := .ordinary } = s.part := by
    rcases hmode with h | h
    · rw [State.part, State.part, h]
    · rw [State.part, State.part, h]
      rfl
  unfold Placed at h
  rw [← hpart] at h
  exact h

end Placed

/-- The tokens of a scan are made of pieces, and its pending text stands in front of what is
unread. -/
structure Tracks (locale : Locale) (source : List Char) (s : State) (unread : List Char) : Prop where
  pieces : Pieces locale source s.tokens.toList s.openings
  place : ∃ before, source = before ++ s.part ++ unread ∧
    s.offset = utf8Len before + utf8Len s.part ∧ (s.part ≠ [] → s.pendingStart = utf8Len before)

namespace Tracks

variable {locale : Locale} {source : List Char} {s s' : State} {unread taken rest : List Char}

theorem part_of_idle (h : Idle s) : s.part = [] := by
  rw [State.part, h.1, h.2]
  rfl

theorem covers_part (h : Tracks locale source s unread) (hpart : s.part ≠ []) :
    Covers source s.pendingStart s.offset s.part := by
  obtain ⟨before, htext, hoffset, hstart⟩ := h.place
  exact ⟨before, unread, htext, hstart hpart, hoffset⟩

theorem covers_taken (h : Tracks locale source s (taken ++ rest)) :
    Covers source s.offset (s.offset + utf8Len taken) taken := by
  obtain ⟨before, htext, hoffset, -⟩ := h.place
  refine ⟨before ++ s.part, rest, ?_, ?_, ?_⟩
  · rw [htext, List.append_assoc, List.append_assoc, List.append_assoc]
  · rw [hoffset, String.utf8Len_append]
  · rw [hoffset, String.utf8Len_append]

theorem covers_through (h : Tracks locale source s (taken ++ rest)) (hpart : s.part ≠ []) :
    Covers source s.pendingStart (s.offset + utf8Len taken) (s.part ++ taken) := by
  obtain ⟨before, htext, hoffset, hstart⟩ := h.place
  refine ⟨before, rest, ?_, hstart hpart, ?_⟩
  · rw [htext, List.append_assoc, List.append_assoc, List.append_assoc]
  · rw [hoffset, String.utf8Len_append, Nat.add_assoc]

theorem size (h : Tracks locale source s unread) : s.offset + utf8Len unread = utf8Len source := by
  obtain ⟨before, htext, hoffset, -⟩ := h.place
  rw [htext, String.utf8Len_append, String.utf8Len_append, hoffset]

/-- More is pending. -/
theorem extend (h : Tracks locale source s (taken ++ rest)) (htokens : s'.tokens = s.tokens)
    (hopenings : s'.openings = s.openings) (hoffset : s'.offset = s.offset + utf8Len taken)
    (hpart : s'.part = s.part ++ taken)
    (hstart : s'.pendingStart = if s.part = [] then s.offset else s.pendingStart) :
    Tracks locale source s' rest := by
  obtain ⟨before, hplaced⟩ := h.place
  refine ⟨?_, before, Placed.extend hplaced hoffset hpart hstart⟩
  rw [htokens, hopenings]
  exact h.pieces

/-- Nothing is pending behind a piece. -/
theorem add (more : List Token) (h : Tracks locale source s (taken ++ rest))
    (hpiece : Piece locale source s.openings more s'.openings)
    (htokens : s'.tokens.toList = s.tokens.toList ++ more)
    (hoffset : s'.offset = s.offset + utf8Len taken) (hpart : s'.part = []) :
    Tracks locale source s' rest := by
  obtain ⟨before, hplaced⟩ := h.place
  refine ⟨?_, _, Placed.add hplaced hoffset hpart⟩
  rw [htokens]
  exact .concat h.pieces hpiece

theorem note (h : Tracks locale source s unread) (fault : LexError) :
    Tracks locale source (s.note fault) unread := ⟨h.pieces, h.place⟩

/-- The end of a word makes a plain token of it. -/
theorem pieces_endPending {kind : Token.Kind} {subkind : Token.Subkind}
    (h : Tracks locale source s rest) (hmode : s.mode ≠ .text)
    (hkind : (kind, subkind) ∈ plainKinds) (hword : kind ≠ .argument ∧ kind ≠ .infixOp) :
    Pieces locale source (s.endPending kind subkind).tokens.toList s.openings := by
  unfold State.endPending
  split
  · exact h.pieces
  · rename_i hp
    have hpart : s.part = s.pending.toList := if_neg hmode
    have hcovers := h.covers_part (by
      rw [hpart]
      simpa [String.isEmpty_iff] using hp)
    rw [hpart] at hcovers
    show Pieces locale source (s.tokens.push _).toList s.openings
    rw [Array.toList_push]
    exact .concat h.pieces (.plain hkind hcovers (fits_of_word hword))

theorem endPending {kind : Token.Kind} {subkind : Token.Subkind}
    (h : Tracks locale source s rest) (hmode : s.mode = .ordinary)
    (hkind : (kind, subkind) ∈ plainKinds) (hword : kind ≠ .argument ∧ kind ≠ .infixOp) :
    Tracks locale source (s.endPending kind subkind) rest := by
  unfold State.endPending
  split
  · exact h
  · rename_i hp
    have hpart : s.part = s.pending.toList := by rw [State.part, hmode]; rfl
    have hne : s.part ≠ [] := by
      rw [hpart]
      simpa [String.isEmpty_iff] using hp
    have hcovers := h.covers_part hne
    rw [hpart] at hcovers
    have hnone : Tracks locale source s ([] ++ rest) := h
    exact hnone.add _ (.plain hkind hcovers (fits_of_word hword)) Array.toList_push rfl (part_of_idle ⟨hmode, rfl⟩)

theorem with_mode (h : Tracks locale source s rest) (hmode : s.mode = .ordinary ∨ s.mode = .number) :
    Tracks locale source { s with mode := .ordinary } rest := by
  obtain ⟨before, hplaced⟩ := h.place
  exact ⟨h.pieces, before, Placed.with_mode hplaced hmode⟩

/-- A token that covers what is taken, in a state between two tokens. -/
theorem mark {value : String} {kind : Token.Kind} {subkind : Token.Subkind} {width : Nat}
    (h : Tracks locale source s (taken ++ rest)) (hidle : Idle s) (hwidth : utf8Len taken = width)
    (hpiece : Piece locale source s.openings
      [⟨value, kind, subkind, s.offset, s.offset + utf8Len taken⟩] s'.openings)
    (hs' : s' = { s.mark value kind subkind width with openings := s'.openings, fault := s'.fault }) :
    Tracks locale source s' rest := by
  refine h.add _ hpiece ?_ ?_ ?_
  · rw [hs', ← hwidth]
    exact Array.toList_push
  · rw [hs', ← hwidth]
    rfl
  · rw [hs']
    exact part_of_idle hidle

end Tracks

theorem utf8Len_signs {sign : String × Token.Kind × Token.Subkind} (h : sign ∈ signs) :
    utf8Len sign.1.toList = sign.1.toList.length := by
  revert sign
  decide

theorem plain_of_signs {sign : String × Token.Kind × Token.Subkind} (h : sign ∈ signs) :
    sign.2 ∈ plainKinds := by
  revert sign
  decide

theorem utf8Len_gaps {gaps : List Char} (h : ∀ c ∈ gaps, isGap c) : utf8Len gaps = gaps.length := by
  induction gaps with
  | nil => rfl
  | cons c gaps ih =>
    have hc : c = ' ' ∨ c = '\n' := by simpa [isGap] using h c List.mem_cons_self
    rw [String.utf8Len_cons, ih fun d hd => h d (List.mem_cons_of_mem _ hd), List.length_cons]
    rcases hc with rfl | rfl <;> rfl

theorem part_of_word {s : State} (h : s.mode ≠ .text) : s.part = s.pending.toList := if_neg h

theorem part_of_text {s : State} (h : s.mode = .text) :
    s.part = '"' :: Text.doubled '"' s.pending.toList := if_pos h

theorem part_eq_nil {s : State} (h : s.mode ≠ .text) : s.part = [] ↔ s.pending.isEmpty := by
  rw [part_of_word h, String.toList_eq_nil_iff, String.isEmpty_iff]

theorem part_extend {s : State} {c : Char} {next : Mode} (hmode : s.mode ≠ .text) (hnext : next ≠ .text) :
    State.part { s.extend c with mode := next } = s.part ++ [c] := by
  rw [part_of_word hmode, part_of_word (show State.mode { s.extend c with mode := next } ≠ .text from hnext)]
  simp only [pending_extend, String.toList_push]

theorem pendingStart_extend_part {s : State} (c : Char) (hmode : s.mode ≠ .text) :
    (s.extend c).pendingStart = if s.part = [] then s.offset else s.pendingStart := by
  simp only [part_eq_nil hmode]
  exact pendingStart_extend s c

theorem part_openText {s : State} {start offset : Nat} (h : Idle s) :
    State.part { s with pendingStart := start, offset := offset, mode := .text } = s.part ++ ['"'] := by
  rw [part_of_text rfl, part_of_word (by rw [h.1]; simp), h.2]
  rfl

theorem part_textChar {s : State} {c : Char} (hmode : s.mode = .text) (hc : c ≠ '"') :
    (s.take c).part = s.part ++ [c] := by
  rw [part_of_text hmode, part_of_text (show (s.take c).mode = .text from hmode)]
  simp [State.take, Text.doubled, hc]

theorem part_textQuote {s : State} {offset : Nat} (hmode : s.mode = .text) :
    State.part { s with pending := s.pending.push '"', offset := offset } = s.part ++ ['"', '"'] := by
  rw [part_of_text hmode, part_of_text]
  · simp [Text.doubled]
  · exact hmode

theorem pendingStart_of_text {s : State} (hmode : s.mode = .text) :
    s.pendingStart = if s.part = [] then s.offset else s.pendingStart := by
  rw [if_neg (by simp [part_of_text hmode])]

namespace Tracks

variable {locale : Locale} {source : List Char} {s : State} {c : Char} {rest : List Char} {next : Mode}

/-- A character of a word or of an error literal. -/
theorem extend_char (h : Tracks locale source s (c :: rest)) (hmode : s.mode ≠ .text)
    (hnext : next ≠ .text) : Tracks locale source { s.extend c with mode := next } rest := by
  refine Tracks.extend (show Tracks locale source s ([c] ++ rest) from h) ?_ ?_ ?_ ?_ ?_
  · exact tokens_extend s c
  · exact openings_extend s c
  · exact (offset_extend s c).trans (by simp)
  · exact part_extend hmode hnext
  · exact pendingStart_extend_part c hmode

/-- A character of an error literal. -/
theorem take_char (h : Tracks locale source s (c :: rest)) (hmode : s.mode ≠ .text) (hp : s.pending ≠ "")
    (hnext : next ≠ .text) : Tracks locale source { s.take c with mode := next } rest := by
  rw [← extend_of_ready hp]
  exact h.extend_char hmode hnext

theorem endStray (h : Tracks locale source s rest) (hmode : s.mode = .ordinary) :
    Tracks locale source s.endStray rest ∧ Idle s.endStray :=
  ⟨h.endPending hmode (by decide) (by decide), idle_endStray hmode⟩

end Tracks

/-- Every move keeps track. -/
theorem Move.tracks {locale : Locale} {source : List Char} {s s' : State}
    {unread unread' : List Char} (h : Move locale s unread s' unread') (hready : Ready s)
    (hs : Tracks locale source s unread) : Tracks locale source s' unread' := by
  cases h with
  | absorb h =>
    obtain ⟨hmode, hnext⟩ := not_inLiteral_of_absorb h
    exact hs.extend_char (fun heq => hmode (.inl heq)) fun heq => hnext (.inl heq)
  | endOperand hmode hp hc => exact (hs.with_mode hmode).endPending rfl (by decide) (by decide)
  | sign hidle hsign hfits =>
    exact hs.mark hidle (utf8Len_signs hsign)
      (.plain (plain_of_signs hsign) hs.covers_taken hfits) rfl
  | gap hidle hne hgap => exact hs.mark hidle (utf8Len_gaps hgap) (.gap hs.covers_taken) rfl
  | refuse hidle hc =>
    rename_i c fault
    have htaken : Tracks locale source s ([c] ++ unread') := hs
    have hsize : utf8Len [c] = 1 := by rcases hc with rfl | rfl | rfl <;> rfl
    refine htaken.mark hidle hsize (.plain (by decide) ?_ (fits_of_word (by decide))) rfl
    rw [String.toList_singleton]
    exact htaken.covers_taken
  | openText hmode =>
    obtain ⟨hstray, hidle⟩ := (hs.with_mode hmode).endStray rfl
    refine Tracks.extend (show Tracks locale source _ (['"'] ++ unread') from hstray) rfl rfl rfl
      (part_openText hidle) ?_
    rw [if_pos (Tracks.part_of_idle hidle)]
    rfl
  | textChar hmode hc =>
    rename_i c
    exact Tracks.extend (show Tracks locale source _ ([c] ++ unread') from hs) rfl rfl
      (by simp [State.take]) (part_textChar hmode hc) (pendingStart_of_text hmode)
  | textQuote hmode =>
    exact Tracks.extend (show Tracks locale source _ (['"', '"'] ++ unread') from hs) rfl rfl rfl
      (part_textQuote hmode) (pendingStart_of_text hmode)
  | closeText hmode =>
    have htaken : Tracks locale source s (['"'] ++ unread') := hs
    have hcovers := htaken.covers_through (by simp [part_of_text hmode])
    rw [part_of_text hmode] at hcovers
    exact htaken.add _ (.text hcovers) Array.toList_push rfl (Tracks.part_of_idle ⟨rfl, rfl⟩)
  | openError hmode =>
    have hs := hs.with_mode hmode
    rw [openErrorLiteral]
    split
    · exact hs.extend_char (by simp) (by simp)
    · obtain ⟨hstray, hidle⟩ := hs.endStray rfl
      exact hstray.extend_char (by rw [hidle.1]; simp) (by simp)
  | errorChar hmode hread =>
    have hp : s.pending ≠ "" := by simpa [Ready, hmode] using hready
    exact hs.take_char (by simp [hmode]) hp (by simp)
  | closeError hmode hread =>
    have hp : s.pending ≠ "" := by simpa [Ready, hmode] using hready
    exact (hs.take_char (by simp [hmode]) hp (by simp)).endPending rfl (by decide) (by decide)
  | openArray hmode =>
    obtain ⟨hstray, hidle⟩ := (hs.with_mode hmode).endStray rfl
    have htaken : Tracks locale source _ (['\x7b'] ++ unread') := hstray
    refine htaken.add _ (.array htaken.covers_taken) ?_ rfl (Tracks.part_of_idle ⟨hidle.1, hidle.2⟩)
    rw [Scan.openArray, toList_openRow, toList_mark, List.append_assoc]
    rfl
  | nextRow hidle hopen =>
    have htaken : Tracks locale source s ([';'] ++ unread') := hs
    rw [nextRow_of_row hidle hopen]
    refine htaken.add [⟨"", .function, .stop, s.offset, s.offset⟩,
      ⟨";", .argument, .unspecified, s.offset, s.offset + 1⟩,
      ⟨Token.arrayRowName, .function, .start, s.offset + 1, s.offset + 1⟩] ?_ ?_ rfl
      (Tracks.part_of_idle ⟨hidle.1, hidle.2⟩)
    · rw [hopen]
      exact .nextRow htaken.covers_taken
    · rw [toList_openRow, toList_mark, toList_mark, List.append_assoc, List.append_assoc]
      rfl
  | closeArray hidle hopen =>
    have htaken : Tracks locale source s (['\x7d'] ++ unread') := hs
    have hnested := hs.pieces.nested
    rw [hopen] at hnested
    cases hnested
    rw [closeArray_of_row hidle hopen]
    refine htaken.add [⟨"", .function, .stop, s.offset, s.offset⟩,
      ⟨"", .function, .stop, s.offset, s.offset + 1⟩] ?_ ?_ rfl
      (Tracks.part_of_idle ⟨hidle.1, hidle.2⟩)
    · rw [hopen]
      exact .closeArray htaken.covers_taken
    · rw [toList_mark, toList_mark, List.append_assoc]
      rfl
  | openGroup hmode =>
    have htaken : Tracks locale source { s with mode := .ordinary } (['('] ++ unread') := hs.with_mode hmode
    rw [Scan.openGroup]
    refine htaken.add _ ?_ Array.toList_push rfl (Tracks.part_of_idle ⟨rfl, rfl⟩)
    split
    · exact .group htaken.covers_taken
    · rename_i hp
      have hpart : State.part { s with mode := .ordinary } = s.pending.toList := rfl
      have hcovers := htaken.covers_through (by
        rw [hpart]
        simpa [String.isEmpty_iff] using hp)
      exact .call hcovers
  | closeGroup hidle hopen =>
    have htaken : Tracks locale source s ([')'] ++ unread') := hs
    have hnested := hs.pieces.nested
    rw [hopen] at hnested
    cases hnested with
    | bracket hkind _ =>
      rw [closeGroup_of_bracket hidle hopen]
      refine htaken.add _ ?_ Array.toList_push rfl (Tracks.part_of_idle ⟨hidle.1, hidle.2⟩)
      rw [hopen]
      exact .close hkind htaken.covers_taken
  | closeNothing hidle hopen hrow =>
    have htaken : Tracks locale source s ([')'] ++ unread') := hs
    have hnil : s.openings = [] := hs.pieces.nested.eq_nil hopen hrow
    refine htaken.add _ ?_ Array.toList_push rfl (Tracks.part_of_idle ⟨hidle.1, hidle.2⟩)
    show Piece locale source s.openings _ s.openings
    rw [hnil]
    exact .closeNothing htaken.covers_taken

theorem Tracks.step {locale : Locale} {source rest : List Char} {s : State} {c : Char}
    (h : Tracks locale source s (c :: rest)) (hready : Ready s) :
    Tracks locale source (step locale c rest s).1 (rest.drop (step locale c rest s).2) :=
  ((step_moves hready).preserves (fun s unread => Ready s ∧ Tracks locale source s unread)
    (fun hmove h => ⟨hmove.ready, hmove.tracks h.1 h.2⟩) ⟨hready, h⟩).2

/-! ## Whole formulas -/

/-- A text that starts with neither a space nor a sign is read from its first character on. -/
theorem body_of_head {text : List Char} (h : ∀ c ∈ text.head?, c ≠ ' ' ∧ c ≠ '=') : body text = text := by
  cases text with
  | nil => rfl
  | cons c rest =>
    obtain ⟨hspace, hequals⟩ := h c rfl
    have hdrop : (c :: rest).dropWhile (· == ' ') = c :: rest := by
      rw [List.dropWhile_cons, if_neg (by simpa using hspace)]
    unfold body
    rw [hdrop]
    split
    · rename_i heq
      exact absurd (List.cons.inj heq).1 hequals
    · rfl

theorem body_append_spaces {spaces rest : List Char} (hspaces : ∀ c ∈ spaces, c = ' ') :
    body (spaces ++ rest) = body rest := by
  rw [body, List.dropWhile_append_of_pos fun c hc => beq_iff_eq.2 (hspaces c hc), body]

/-- A text starts with spaces, and behind them with a sign or not. -/
theorem body_cases (text : List Char) : ∃ spaces, (∀ c ∈ spaces, c = ' ') ∧
    (text = spaces ++ '=' :: body text ∨
      text = spaces ++ body text ∧ ∀ c ∈ (body text).head?, c ≠ ' ' ∧ c ≠ '=') := by
  have htext : text = text.takeWhile (· == ' ') ++ text.dropWhile (· == ' ') :=
    List.takeWhile_append_dropWhile.symm
  refine ⟨text.takeWhile (· == ' '), fun c hc => ?_, ?_⟩
  · exact beq_iff_eq.1 (List.all_eq_true.1 List.all_takeWhile c hc)
  by_cases hsign : ∃ rest, text.dropWhile (· == ' ') = '=' :: rest
  · obtain ⟨rest, hdrop⟩ := hsign
    have hbody : body text = rest := by simp only [body, hdrop]
    rw [hbody, ← hdrop]
    exact .inl htext
  · have hbody : body text = text.dropWhile (· == ' ') := by
      unfold body
      split
      · rename_i rest hdrop
        exact absurd ⟨rest, hdrop⟩ hsign
      · rfl
    refine .inr ⟨hbody ▸ htext, fun c hc => ⟨?_, ?_⟩⟩
    · rintro rfl
      have hnot := List.head?_dropWhile_not (· == ' ') text
      rw [← hbody, Option.mem_def.1 hc] at hnot
      exact absurd hnot (by decide)
    · rintro rfl
      obtain ⟨rest, hrest⟩ := List.head?_eq_some_iff.1 (hbody ▸ hc)
      exact hsign ⟨rest, hrest⟩

theorem utf8Len_spaces {spaces : List Char} (h : ∀ c ∈ spaces, c = ' ') :
    utf8Len spaces = spaces.length := utf8Len_gaps fun c hc => by rw [h c hc]; rfl

/-- In front of the text that is read there is a sign, which leaves every text behind it as it is, or
there are spaces only. -/
theorem lead_cases (text : List Char) : ∃ lead, text = lead ++ body text ∧ utf8Len lead = lead.length ∧
    ((∀ rest, body (lead ++ rest) = rest) ∨
      (∀ rest, body (lead ++ rest) = body rest) ∧ ∀ c ∈ (body text).head?, c ≠ ' ' ∧ c ≠ '=') := by
  obtain ⟨spaces, hspaces, htext⟩ := body_cases text
  rcases htext with htext | ⟨htext, hhead⟩
  · refine ⟨spaces ++ ['='], ?_, ?_, .inl fun rest => ?_⟩
    · rw [List.append_assoc]
      exact htext
    · rw [String.utf8Len_append, utf8Len_spaces hspaces, List.length_append]
      rfl
    · rw [List.append_assoc, body_append_spaces hspaces]
      rfl
  · exact ⟨spaces, htext, utf8Len_spaces hspaces, .inr ⟨fun rest => body_append_spaces hspaces, hhead⟩⟩

/-- What stands in front of the text that a scan reads takes one byte a character. -/
theorem lead_of_formula (text : List Char) :
    ∃ lead, text = lead ++ body text ∧ utf8Len lead = text.length - (body text).length := by
  obtain ⟨lead, htext, hsize, -⟩ := lead_cases text
  refine ⟨lead, htext, ?_⟩
  have hlength := congrArg List.length htext
  rw [List.length_append] at hlength
  omega

theorem tracks_initial (locale : Locale) (formula : String) :
    Tracks locale formula.toList (.initial (leadSize formula)) (body formula.toList) := by
  obtain ⟨lead, htext, hsize⟩ := lead_of_formula formula.toList
  refine ⟨.nil, lead, ?_, ?_, fun h => absurd rfl h⟩
  · exact (congrArg (· ++ body formula.toList) (List.append_nil lead)).symm ▸ htext
  · exact hsize.symm

/-- A scan to the end of a formula keeps track. -/
theorem tracks_run (locale : Locale) (formula : String) :
    Ready (run locale (body formula.toList) (.initial (leadSize formula))) ∧
      Tracks locale formula.toList (run locale (body formula.toList) (.initial (leadSize formula)))
        [] :=
  (run_moves (body formula.toList) (.inl rfl)).preserves
    (fun s unread => Ready s ∧ Tracks locale formula.toList s unread)
    (fun hmove h => ⟨hmove.ready, hmove.tracks h.1 h.2⟩) ⟨.inl rfl, tracks_initial locale formula⟩

/-- The tokens of a formula are made of pieces. -/
theorem pieces_ofFormula (locale : Locale) (formula : String) :
    Pieces locale formula.toList (ofFormula locale formula).tokens.toList
      (ofFormula locale formula).openings := by
  obtain ⟨-, hs⟩ := tracks_run locale formula
  rw [ofFormula, openings_finish, tokens_finish]
  generalize run locale (body formula.toList) (.initial (leadSize formula)) = s at hs
  unfold finishToken
  cases hmode : s.mode with
  | text =>
    have hpart := part_of_text hmode
    have hcovers := hs.covers_part (by simp [hpart])
    obtain ⟨before, htext, hplace, -⟩ := hs.place
    rw [hpart] at hcovers
    have hend : s.offset = utf8Len formula.toList := by
      rw [htext, List.append_nil, String.utf8Len_append, hplace]
    show Pieces locale formula.toList (s.tokens.push _).toList s.openings
    rw [Array.toList_push]
    exact .concat hs.pieces (.openText hcovers hend)
  | path | bracket | errorLiteral =>
    exact (hs.note _).pieces_endPending (by simp [State.note, hmode]) (by decide)
      (by decide)
  | number | ordinary => exact hs.pieces_endPending (by simp [hmode]) (by decide) (by decide)

end SheetFormula.Scan
