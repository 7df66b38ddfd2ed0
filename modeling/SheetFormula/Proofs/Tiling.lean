import SheetFormula.Proofs.Discipline

/-!
# The places of tokens

Main statement: `Formula.tokens_tile`, that the tokens of a formula lie in its text one behind the
other, and what lies between them.

1. `Tiles` says that tokens stand between two parts of a text, with nothing between them but skipped
   characters. Raw tokens are `Filled` by their parts; the passes leave the rest of it: `Tiles.normal`.
2. `Lays` is the invariant of a scan: its tokens tile the text up to the pending part.
3. A stop without text closes a row: `pieces_rowStops`. It comes with the start that each open bracket
   was opened by, `OpenedBy`.
4. `Reached` are the states of a scan between its iterations. All of them are at a character, and have
   no more brackets open than there are bytes.
-/

namespace SheetFormula

open String (utf8Len)

/-! ## Places in a text -/

section

variable {front part more before after : List Char} {c : Char}

/-- Of two parts in front of the same text, the one of no more bytes is the front of the other. -/
theorem Text.exists_append_of_utf8Len_le {front back before after : List Char}
    (heq : front ++ back = before ++ after) (h : utf8Len front ≤ utf8Len before) :
    ∃ part, before = front ++ part ∧ back = part ++ after := by
  rcases List.append_eq_append_iff.1 heq with ⟨part, rfl, rfl⟩ | ⟨part, rfl, rfl⟩
  · exact ⟨part, rfl, rfl⟩
  · rw [String.utf8Len_append] at h
    obtain rfl : part = [] := String.utf8Len_eq_zero.1 (by omega)
    exact ⟨[], by simp, rfl⟩

/-- A character at a byte of a part is one of its characters. -/
theorem Text.mem_of_within (heq : front ++ part ++ more = before ++ c :: after)
    (hfront : utf8Len front ≤ utf8Len before)
    (hpart : utf8Len before < utf8Len front + utf8Len part) : c ∈ part := by
  rw [List.append_assoc] at heq
  obtain ⟨gap, rfl, hback⟩ := exists_append_of_utf8Len_le heq hfront
  rw [String.utf8Len_append] at hpart
  obtain ⟨tail, rfl, htail⟩ := exists_append_of_utf8Len_le hback.symm (by omega)
  cases tail with
  | nil => simp at hpart
  | cons d tail =>
    obtain ⟨rfl, -⟩ := List.cons_eq_cons.1 htail
    simp

end

open Scan (Covers isGap)

namespace Token

/-! ## Tiles -/

/-- The characters that may stand between tokens. -/
def skipped : List Char := [' ', '\n', '+']

/-- Tokens stand in a text one behind the other, behind the text `front` and up to the end of the text
`back`, which goes on from it. Each of them covers a part that fills it, and only skipped characters
stand between them. -/
inductive Tiles (Fills : Token → List Char → Prop) : List Char → List Token → List Char → Prop
  | nil {front} : Tiles Fills front [] front
  | skip {front part tokens back} : (∀ c ∈ part, c ∈ skipped) →
      Tiles Fills (front ++ part) tokens back → Tiles Fills front tokens back
  | cons {front part token tokens back} : token.start = utf8Len front →
      token.stop = utf8Len front + utf8Len part → Fills token part →
      Tiles Fills (front ++ part) tokens back → Tiles Fills front (token :: tokens) back

namespace Tiles

variable {Fills : Token → List Char → Prop} {front back before after : List Char}
  {tokens : List Token} {token : Token} {c : Char}

theorem append {middle : List Char} {more : List Token} (h : Tiles Fills front tokens middle)
    (h' : Tiles Fills middle more back) : Tiles Fills front (tokens ++ more) back := by
  induction h with
  | nil => exact h'
  | skip hskipped _ ih => exact .skip hskipped (ih h')
  | cons hstart hstop hfills _ ih => exact .cons hstart hstop hfills (ih h')

theorem exists_back (h : Tiles Fills front tokens back) : ∃ part, back = front ++ part := by
  induction h with
  | nil => exact ⟨[], (List.append_nil _).symm⟩
  | skip _ _ ih =>
    obtain ⟨rest, rfl⟩ := ih
    exact ⟨_, List.append_assoc _ _ _⟩
  | cons _ _ _ _ ih =>
    obtain ⟨rest, rfl⟩ := ih
    exact ⟨_, List.append_assoc _ _ _⟩

/-- A token covers the part that fills it, behind the text in front of all tokens. -/
theorem covers (h : Tiles Fills front tokens back) (ht : token ∈ tokens) :
    utf8Len front ≤ token.start ∧
      ∃ part, Fills token part ∧ Covers back token.start token.stop part := by
  induction h with
  | nil => cases ht
  | skip _ _ ih =>
    obtain ⟨hfront, hcovers⟩ := ih ht
    rw [String.utf8Len_append] at hfront
    exact ⟨by omega, hcovers⟩
  | cons hstart hstop hfills hrest ih =>
    rcases List.mem_cons.1 ht with rfl | ht
    · obtain ⟨rest, rfl⟩ := hrest.exists_back
      exact ⟨hstart.ge, _, hfills, _, rest, rfl, hstart, hstop⟩
    · obtain ⟨hfront, hcovers⟩ := ih ht
      rw [String.utf8Len_append] at hfront
      exact ⟨by omega, hcovers⟩

theorem ordered (h : Tiles Fills front tokens back) :
    tokens.Pairwise fun token next => token.stop ≤ next.start := by
  induction h with
  | nil => exact .nil
  | skip _ _ ih => exact ih
  | cons hstart hstop _ hrest ih =>
    refine List.pairwise_cons.2 ⟨fun next hnext => ?_, ih⟩
    have hfront := (hrest.covers hnext).1
    rw [String.utf8Len_append] at hfront
    omega

/-- A character behind the text in front of all tokens is skipped or covered. -/
theorem skipped_or_covered (h : Tiles Fills front tokens back) (heq : back = before ++ c :: after)
    (hfront : utf8Len front ≤ utf8Len before) :
    c ∈ skipped ∨ ∃ token ∈ tokens, token.start ≤ utf8Len before ∧ utf8Len before < token.stop := by
  induction h with
  | nil =>
    rw [heq, String.utf8Len_append, String.utf8Len_cons] at hfront
    have := c.utf8Size_pos
    omega
  | @skip front part tokens back hskipped hrest ih =>
    obtain ⟨rest, rfl⟩ := hrest.exists_back
    by_cases hwithin : utf8Len before < utf8Len front + utf8Len part
    · exact .inl (hskipped c (Text.mem_of_within heq hfront hwithin))
    · exact ih heq (by rw [String.utf8Len_append]; omega)
  | @cons front part token tokens back hstart hstop _ _ ih =>
    by_cases hwithin : utf8Len before < utf8Len front + utf8Len part
    · exact .inr ⟨token, List.mem_cons_self, by omega, by omega⟩
    · refine (ih heq (by rw [String.utf8Len_append]; omega)).imp_right ?_
      rintro ⟨next, hnext, hcovers⟩
      exact ⟨next, List.mem_cons_of_mem _ hnext, hcovers⟩

end Tiles

/-! ## Raw tokens and what the passes leave of them -/

/-- A token without text is the start of a row, or a stop. -/
def Blank (token : Token) : Prop :=
  token.kind = .function ∧
    (token.subkind = .start ∧ token.value = arrayRowName ∨ token.subkind = .stop)

/-- What a raw token is, given the part of the text that it covers. -/
structure Filled (raw : Token) (part : List Char) : Prop where
  space : raw.kind = .whitespace → raw.value = " " ∧ ∀ c ∈ part, isGap c
  sign : raw.kind = .infixOp → part = raw.value.toList
  kept : raw.kind ≠ .noop
  /-- A call has a name in front of its parenthesis. -/
  call : raw.opensCall → part ≠ ['(']
  blank : part = [] → Blank raw

/-- What the passes leave of this. -/
structure Fills (token : Token) (part : List Char) : Prop where
  call : token.opensCall → part ≠ ['(']
  blank : part = [] → Blank token

theorem filled_of_kind {raw : Token} {part : List Char} (hspace : raw.kind ≠ .whitespace)
    (hsign : raw.kind ≠ .infixOp) (hkept : raw.kind ≠ .noop) (hcall : raw.kind ≠ .function)
    (hpart : part ≠ []) : Filled raw part where
  space h := absurd h hspace
  sign h := absurd h hsign
  kept := hkept
  call h := by simp [opensCall, is, hcall] at h
  blank h := absurd h hpart

theorem filled_function {raw : Token} {part : List Char} (hkind : raw.kind = .function)
    (hcall : raw.opensCall → part ≠ ['(']) (hblank : part = [] → Blank raw) : Filled raw part where
  space h := by simp [hkind] at h
  sign h := by simp [hkind] at h
  kept := by simp [hkind]
  call := hcall
  blank := hblank

section

variable {locale : Locale} {previous resolved : Option Token} {raw : Token} {part : List Char}

theorem fills_of_kind {token : Token} (hcall : token.kind ≠ .function) (hpart : part ≠ []) :
    Fills token part where
  call h := by simp [opensCall, is, hcall] at h
  blank h := absurd h hpart

theorem Filled.ne_nil (h : Filled raw part) (hkind : raw.kind ≠ .function) : part ≠ [] :=
  fun hpart => hkind (h.blank hpart).1

theorem Filled.resolveOne (h : Filled raw part) : Fills (resolveOne locale previous raw) part := by
  by_cases hsign : raw.kind = .infixOp
  · refine fills_of_kind ?_ (h.ne_nil (by simp [hsign]))
    have hkinds : (Token.resolveOne locale previous raw).kind = .infixOp ∨
        (Token.resolveOne locale previous raw).kind = .prefixOp ∨
        (Token.resolveOne locale previous raw).kind = .noop := kind_resolveOne_infixOp hsign
    rcases hkinds with hkind | hkind | hkind <;> simp [hkind]
  by_cases hfunction : raw.kind = .function
  · obtain ⟨value, kind, subkind, start, stop⟩ := raw
    cases hfunction
    rw [resolveOne_function]
    refine ⟨h.call, fun hpart => ⟨rfl, (h.blank hpart).2.imp_left fun hrow => ⟨hrow.1, ?_⟩⟩⟩
    obtain ⟨-, rfl⟩ := hrow
    exact withoutAt_arrayRowName
  · exact fills_of_kind (kind_resolveOne hsign ▸ hfunction) (h.ne_nil hfunction)

theorem places_resolveOne (locale : Locale) (previous : Option Token) (raw : Token) :
    (Token.resolveOne locale previous raw).start = raw.start ∧
    (Token.resolveOne locale previous raw).stop = raw.stop := by
  unfold Token.resolveOne resolveSign resolveOperand stripAt
  repeat' split
  all_goals exact ⟨rfl, rfl⟩

/-- A sign that does nothing is a plus. -/
theorem value_of_noop (h : (resolveOne locale previous raw).kind = .noop) (hkept : raw.kind ≠ .noop) :
    raw.kind = .infixOp ∧ raw.value = "+" := by
  have hkind : raw.kind = .infixOp := by
    by_contra hkind
    rw [kind_resolveOne hkind] at h
    exact hkept h
  refine ⟨hkind, ?_⟩
  unfold Token.resolveOne resolveSign at h
  rw [hkind] at h
  dsimp only at h
  split_ifs at h <;> simp_all

/-- The passes skip white space and signs that do nothing. -/
theorem Tiles.normal {front back : List Char} {raws : List Token} (h : Tiles Filled front raws back) :
    Tiles Fills front (withoutNoops (resolveFrom locale resolved (settleFrom previous raws))) back := by
  induction h generalizing previous resolved with
  | nil => exact .nil
  | skip hskipped _ ih => exact .skip hskipped ih
  | @cons front part raw raws back hstart hstop hfilled _ ih =>
    rcases normal_cases previous resolved raw raws fun hkind => (hfilled.space hkind).1 with
      ⟨-, heq⟩ | ⟨hkind, -, -, heq⟩ | ⟨hdropped, resolved', heq⟩
    · rw [heq]
      obtain ⟨hstart', hstop'⟩ := places_resolveOne locale resolved raw
      exact .cons (hstart'.trans hstart) (hstop'.trans hstop) hfilled.resolveOne ih
    · rw [heq]
      exact .cons hstart hstop (fills_of_kind (by simp) (hfilled.ne_nil (by simp [hkind]))) ih
    · rw [heq]
      refine .skip (fun c hc => ?_) ih
      rcases hdropped with hkind | hnoop
      · have hgap : c = ' ' ∨ c = '\n' := by simpa [isGap] using (hfilled.space hkind).2 c hc
        rcases hgap with rfl | rfl <;> decide
      · obtain ⟨hkind, hvalue⟩ := value_of_noop hnoop hfilled.kept
        rw [hfilled.sign hkind, hvalue] at hc
        obtain rfl : c = '+' := by simpa using hc
        decide

end

end Token

/-! ## The invariant of a scan -/

namespace Scan

open Token (Tiles Filled filled_of_kind Throughout throughout_nil throughout_cons throughout_append
  startsBehind openStarts)

/-- The tokens of a scan tile the text up to what is pending, which stands in front of what is
unread. -/
def Lays (lead source : List Char) (s : State) (unread : List Char) : Prop :=
  ∃ before, Tiles Filled lead s.tokens.toList before ∧ Placed source before s unread

section

variable {lead source taken rest : List Char} {s s' : State} {c : Char} {next : Mode}
  {kind : Token.Kind} {subkind : Token.Subkind}

namespace Lays

/-- More is pending. -/
theorem extend (h : Lays lead source s (taken ++ rest)) (htokens : s'.tokens = s.tokens)
    (hoffset : s'.offset = s.offset + utf8Len taken) (hpart : s'.part = s.part ++ taken)
    (hstart : s'.pendingStart = if s.part = [] then s.offset else s.pendingStart) :
    Lays lead source s' rest := by
  obtain ⟨before, htiles, hplaced⟩ := h
  exact ⟨before, htokens ▸ htiles, hplaced.extend hoffset hpart hstart⟩

/-- Nothing is pending behind a token of what was pending and what is taken. -/
theorem add {token : Token} (h : Lays lead source s (taken ++ rest))
    (hfilled : Filled token (s.part ++ taken))
    (hstart : token.start = if s.part = [] then s.offset else s.pendingStart)
    (hstop : token.stop = s.offset + utf8Len taken)
    (htokens : s'.tokens.toList = s.tokens.toList ++ [token])
    (hoffset : s'.offset = s.offset + utf8Len taken) (hpart : s'.part = []) :
    Lays lead source s' rest := by
  obtain ⟨before, htiles, hplaced⟩ := h
  refine ⟨_, ?_, hplaced.add hoffset hpart⟩
  rw [htokens]
  refine htiles.append (.cons (hstart.trans hplaced.start) ?_ hfilled .nil)
  rw [hstop, hplaced.2.1, String.utf8Len_append, Nat.add_assoc]

/-- A token of what is taken between two tokens. -/
theorem mark {value : String} {width : Nat} (h : Lays lead source s (taken ++ rest)) (hidle : Idle s)
    (hwidth : utf8Len taken = width)
    (hfilled : Filled ⟨value, kind, subkind, s.offset, s.offset + width⟩ taken) :
    Lays lead source (s.mark value kind subkind width) rest := by
  have hpart := Tracks.part_of_idle hidle
  refine h.add (by rwa [hpart]) ?_ ?_ Array.toList_push ?_ (Tracks.part_of_idle ⟨hidle.1, hidle.2⟩)
  · rw [if_pos hpart]
  · rw [hwidth]
  · rw [hwidth]
    rfl

/-- The end of a word makes a token of it. -/
theorem endPending (h : Lays lead source s rest) (hmode : s.mode ≠ .text)
    (hkind : kind = .operand ∨ kind = .unknown) : Lays lead source (s.endPending kind subkind) rest := by
  unfold State.endPending
  split
  · exact h
  · rename_i hp
    have hne : s.part ≠ [] := fun hnil => hp ((part_eq_nil hmode).1 hnil)
    refine add (show Lays lead source s ([] ++ rest) from h) ?_ ?_ rfl Array.toList_push rfl ?_
    · rw [List.append_nil]
      rcases hkind with rfl | rfl <;>
        exact filled_of_kind (by simp) (by simp) (by simp) (by simp) hne
    · rw [if_neg hne]
    · exact part_of_word hmode

theorem note (h : Lays lead source s rest) (fault : LexError) :
    Lays lead source (s.note fault) rest := h

theorem with_mode (h : Lays lead source s rest) (hmode : s.mode = .ordinary ∨ s.mode = .number) :
    Lays lead source { s with mode := .ordinary } rest := by
  obtain ⟨before, htiles, hplaced⟩ := h
  exact ⟨before, htiles, hplaced.with_mode hmode⟩

theorem endStray (h : Lays lead source s rest) (hmode : s.mode = .ordinary) :
    Lays lead source s.endStray rest ∧ Idle s.endStray :=
  ⟨h.endPending (by simp [hmode]) (.inr rfl), idle_endStray hmode⟩

/-- A character of a word or of an error literal. -/
theorem extend_char (h : Lays lead source s (c :: rest)) (hmode : s.mode ≠ .text)
    (hnext : next ≠ .text) : Lays lead source { s.extend c with mode := next } rest := by
  exact extend (show Lays lead source s ([c] ++ rest) from h) (tokens_extend s c)
    ((offset_extend s c).trans (by simp)) (part_extend hmode hnext) (pendingStart_extend_part c hmode)

/-- A character of an error literal. -/
theorem take_char (h : Lays lead source s (c :: rest)) (hmode : s.mode ≠ .text) (hp : s.pending ≠ "")
    (hnext : next ≠ .text) : Lays lead source { s.take c with mode := next } rest := by
  rw [← extend_of_ready hp]
  exact h.extend_char hmode hnext

end Lays

theorem filled_sign {value : String} {start stop : Nat} (h : (value, kind, subkind) ∈ signs) :
    Filled ⟨value, kind, subkind, start, stop⟩ value.toList := by
  have hsigns : ∀ sign ∈ signs, sign.1.toList ≠ [] ∧ sign.2.1 ≠ .whitespace ∧ sign.2.1 ≠ .noop ∧
      sign.2.1 ≠ .function := by decide
  obtain ⟨hne, hspace, hkept, hcall⟩ := hsigns _ h
  exact ⟨fun heq => absurd heq hspace, fun _ => rfl, hkept,
    fun h => absurd (Token.is_iff.1 h).1 hcall, fun heq => absurd heq hne⟩

theorem filled_gap {gaps : List Char} {start stop : Nat} (hne : gaps ≠ []) (h : ∀ c ∈ gaps, isGap c) :
    Filled ⟨" ", .whitespace, .unspecified, start, stop⟩ gaps :=
  ⟨fun _ => ⟨rfl, h⟩, by simp, by simp, by simp [Token.opensCall, Token.is], fun heq => absurd heq hne⟩

theorem filled_stop {start stop : Nat} {c : Char} (hkind : kind = .function ∨ kind = .subexpr) :
    Filled ⟨"", kind, .stop, start, stop⟩ [c] := by
  rcases hkind with rfl | rfl
  · exact Token.filled_function rfl (by simp [Token.opensCall, Token.is]) (by simp)
  · exact filled_of_kind (by simp) (by simp) (by simp) (by simp) (by simp)

theorem filled_separator (start stop : Nat) :
    Filled ⟨";", .argument, .unspecified, start, stop⟩ [';'] := filled_sign (by decide)

theorem filled_brace (start stop : Nat) :
    Filled ⟨Token.arrayName, .function, .start, start, stop⟩ ['\x7b'] :=
  Token.filled_function rfl (by simp) (by simp)

/-- A row starts and stops without text. -/
theorem filled_row {raw : Token} (h : raw.Blank) : Filled raw [] :=
  Token.filled_function h.1 (by simp) fun _ => h

theorem filled_rowStart (place : Nat) : Filled ⟨Token.arrayRowName, .function, .start, place, place⟩ [] :=
  filled_row ⟨rfl, .inl ⟨rfl, rfl⟩⟩

theorem filled_rowStop (place : Nat) : Filled ⟨"", .function, .stop, place, place⟩ [] :=
  filled_row ⟨rfl, .inr rfl⟩

/-- Every move keeps the tokens in their places. -/
theorem Move.lays {locale : Locale} {unread unread' : List Char} (h : Move locale s unread s' unread')
    (hready : Ready s) (hnested : Nested s.openings) (hs : Lays lead source s unread) :
    Lays lead source s' unread' := by
  cases h with
  | absorb h =>
    obtain ⟨hmode, hnext⟩ := not_inLiteral_of_absorb h
    exact hs.extend_char (fun heq => hmode (.inl heq)) fun heq => hnext (.inl heq)
  | endOperand hmode => exact (hs.with_mode hmode).endPending (by simp) (.inl rfl)
  | sign hidle hsign => exact hs.mark hidle (utf8Len_signs hsign) (filled_sign hsign)
  | gap hidle hne hgap => exact hs.mark hidle (utf8Len_gaps hgap) (filled_gap hne hgap)
  | refuse hidle hc =>
    rename_i c fault
    have hsize : utf8Len [c] = 1 := by rcases hc with rfl | rfl | rfl <;> rfl
    exact Lays.mark (show Lays lead source (s.note fault) ([c] ++ unread') from hs) hidle hsize
      (filled_of_kind (by simp) (by simp) (by simp) (by simp) (by simp))
  | openText hmode =>
    obtain ⟨hstray, hidle⟩ := (hs.with_mode hmode).endStray rfl
    refine Lays.extend (show Lays lead source _ (['"'] ++ unread') from hstray) rfl rfl
      (part_openText hidle) ?_
    rw [if_pos (Tracks.part_of_idle hidle)]
    rfl
  | textChar hmode hc =>
    rename_i c
    exact Lays.extend (show Lays lead source _ ([c] ++ unread') from hs) rfl (by simp [State.take])
      (part_textChar hmode hc) (pendingStart_of_text hmode)
  | textQuote hmode =>
    exact Lays.extend (show Lays lead source _ (['"', '"'] ++ unread') from hs) rfl rfl
      (part_textQuote hmode) (pendingStart_of_text hmode)
  | closeText hmode =>
    refine Lays.add (show Lays lead source s (['"'] ++ unread') from hs) ?_
      (pendingStart_of_text hmode) rfl Array.toList_push rfl (Tracks.part_of_idle ⟨rfl, rfl⟩)
    exact filled_of_kind (by simp) (by simp) (by simp) (by simp) (by simp)
  | openError hmode =>
    have hs := hs.with_mode hmode
    rw [openErrorLiteral]
    split
    · exact hs.extend_char (by simp) (by simp)
    · obtain ⟨hstray, hidle⟩ := hs.endStray rfl
      exact hstray.extend_char (by rw [hidle.1]; simp) (by simp)
  | errorChar hmode =>
    have hp : s.pending ≠ "" := by simpa [Ready, hmode] using hready
    exact hs.take_char (by simp [hmode]) hp (by simp)
  | closeError hmode =>
    have hp : s.pending ≠ "" := by simpa [Ready, hmode] using hready
    exact (hs.take_char (by simp [hmode]) hp (by simp)).endPending (by simp) (.inl rfl)
  | openArray hmode =>
    obtain ⟨hstray, hidle⟩ := (hs.with_mode hmode).endStray rfl
    have hbrace := Lays.mark (show Lays lead source _ (['\x7b'] ++ unread') from hstray) hidle rfl
      (filled_brace _ _)
    exact Lays.mark (show Lays lead source _ ([] ++ unread') from hbrace) hidle rfl (filled_rowStart _)
  | nextRow hidle hopen =>
    rw [nextRow_of_row hidle hopen]
    have hstop := Lays.mark (show Lays lead source s ([] ++ ([';'] ++ unread')) from hs) hidle rfl
      (filled_rowStop _)
    have hsign := Lays.mark hstop hidle rfl (filled_separator _ _)
    exact Lays.mark (show Lays lead source _ ([] ++ unread') from hsign) hidle rfl (filled_rowStart _)
  | closeArray hidle hopen =>
    rw [closeArray_of_row hidle hopen]
    have hstop := Lays.mark (show Lays lead source s ([] ++ (['\x7d'] ++ unread')) from hs) hidle rfl
      (filled_rowStop _)
    exact Lays.mark hstop hidle rfl (filled_stop (.inl rfl))
  | openGroup hmode =>
    have hordinary : Lays lead source { s with mode := .ordinary } (['('] ++ unread') := hs.with_mode hmode
    have hpart : State.part { s with mode := .ordinary } = s.pending.toList := rfl
    rw [Scan.openGroup]
    split
    · rename_i hp
      have hnil : State.part { s with mode := .ordinary } = [] := (part_eq_nil (by simp)).2 hp
      refine hordinary.add ?_ (if_pos hnil).symm rfl Array.toList_push rfl (Tracks.part_of_idle ⟨rfl, rfl⟩)
      exact filled_of_kind (by simp) (by simp) (by simp) (by simp) (by simp)
    · rename_i hp
      have hne : State.part { s with mode := .ordinary } ≠ [] := mt (part_eq_nil (by simp)).1 hp
      refine hordinary.add ?_ (if_neg hne).symm rfl Array.toList_push rfl (Tracks.part_of_idle ⟨rfl, rfl⟩)
      exact Token.filled_function rfl (fun _ => by simpa using hne) (by simp)
  | closeGroup hidle hopen =>
    rw [hopen] at hnested
    cases hnested with
    | bracket hkind _ =>
      rw [closeGroup_of_bracket hidle hopen]
      exact Lays.mark (show Lays lead source s ([')'] ++ unread') from hs) hidle rfl (filled_stop hkind)
  | closeNothing hidle =>
    rename_i fault _ _
    exact Lays.mark (show Lays lead source (s.note fault) ([')'] ++ unread') from hs) hidle rfl
      (filled_stop (.inr rfl))

end

/-! ## Whole formulas -/

section

variable {locale : Locale} {formula : String}

theorem part_endPending {s : State} {kind : Token.Kind} {subkind : Token.Subkind} (h : s.mode ≠ .text) :
    (s.endPending kind subkind).part = [] := by
  unfold State.endPending
  split
  · rename_i hp
    exact (part_eq_nil h).2 hp
  · exact part_of_word h

/-- The raw tokens of a formula tile the text that a scan reads. -/
theorem tiles_ofFormula (locale : Locale) (formula : String) :
    ∃ lead, utf8Len lead = leadSize formula ∧
      Tiles Filled lead (ofFormula locale formula).tokens.toList formula.toList := by
  obtain ⟨lead, htext, hsize⟩ := lead_of_formula formula.toList
  refine ⟨lead, hsize, ?_⟩
  have hinitial : Lays lead formula.toList (.initial (leadSize formula)) (body formula.toList) :=
    ⟨lead, .nil, by rw [show (State.initial (leadSize formula)).part = [] from rfl, List.append_nil, ← htext],
      hsize.symm, fun h => absurd rfl h⟩
  obtain ⟨-, -, hrun⟩ := (run_moves (body formula.toList) (.inl rfl)).preserves
    (fun s unread => Ready s ∧ Tracks locale formula.toList s unread ∧
      Lays lead formula.toList s unread)
    (fun hmove h => ⟨hmove.ready, hmove.tracks h.1 h.2.1, hmove.lays h.1 h.2.1.pieces.nested h.2.2⟩)
    ⟨.inl rfl, tracks_initial locale formula, hinitial⟩
  rw [ofFormula, tokens_finish]
  generalize run locale (body formula.toList) (.initial (leadSize formula)) = s at hrun
  have hended : ∀ {s : State}, Lays lead formula.toList s [] → s.part = [] →
      Tiles Filled lead s.tokens.toList formula.toList := by
    rintro s ⟨before, htiles, htext, -⟩ hpart
    rw [htext, hpart, List.append_nil, List.append_nil]
    exact htiles
  unfold finishToken
  cases hmode : s.mode with
  | text =>
    have hclosed : Lays lead formula.toList
        { (s.note .unfinishedText).emitPending .operand .text with mode := .ordinary } [] :=
      Lays.add (show Lays lead formula.toList s ([] ++ []) from hrun)
        (filled_of_kind (by simp) (by simp) (by simp) (by simp) (by simp [part_of_text hmode]))
        (pendingStart_of_text hmode) rfl Array.toList_push rfl (Tracks.part_of_idle ⟨rfl, rfl⟩)
    have htiles := hended hclosed (Tracks.part_of_idle ⟨rfl, rfl⟩)
    exact htiles
  | path | bracket =>
    exact hended ((hrun.note _).endPending (by simp [State.note, hmode]) (.inl rfl))
      (part_endPending (by simp [State.note, hmode]))
  | errorLiteral =>
    exact hended ((hrun.note _).endPending (by simp [State.note, hmode]) (.inr rfl))
      (part_endPending (by simp [State.note, hmode]))
  | number | ordinary =>
    exact hended (hrun.endPending (by simp [hmode]) (.inl rfl)) (part_endPending (by simp [hmode]))

/-! ### Stops without text -/

/-- A stop without text closes a row. -/
def RowStops (starts tokens : List Token) : Prop :=
  Throughout (fun before token _ => token.subkind = .stop → token.start = token.stop →
    ∃ opener ∈ (before.foldl startsBehind starts).head?, opener.opensRow) tokens

theorem lt_of_covers {source part : List Char} {start stop : Nat} (h : Covers source start stop part)
    (hpart : part ≠ []) : start < stop := by
  obtain ⟨before, after, -, rfl, rfl⟩ := h
  have hpositive : 0 < utf8Len part := Nat.pos_of_ne_zero (mt String.utf8Len_eq_zero.1 hpart)
  omega

theorem Piece.rowStops {openings openings' : List Opening} {more starts : List Token}
    (h : Piece locale formula.toList openings more openings')
    (hopened : List.Forall₂ Opening.OpenedBy openings starts) : RowStops starts more := by
  have hplain : ∀ {token : Token} {starts : List Token}, token.subkind ≠ .stop →
      RowStops starts [token] := fun hne => throughout_cons.2 ⟨fun h => absurd h hne, throughout_nil⟩
  have hcovered : ∀ {token : Token} {starts : List Token} {c : Char},
      Covers formula.toList token.start token.stop [c] → RowStops starts [token] := fun hcovers =>
    throughout_cons.2 ⟨fun _ h => absurd h (lt_of_covers hcovers (by simp)).ne, throughout_nil⟩
  cases h with
  | plain hkind => exact hplain (plain_of_plainKinds hkind).2
  | gap | text | openText | group | call => exact hplain (by simp)
  | close _ hcovers => exact hcovered hcovers
  | closeNothing hcovers => exact hcovered hcovers
  | array => exact throughout_cons.2 ⟨by simp, hplain (by simp)⟩
  | nextRow =>
    cases hopened with
    | cons hrow _ =>
      exact throughout_cons.2 ⟨fun _ _ => ⟨_, rfl, hrow⟩, throughout_cons.2 ⟨by simp, hplain (by simp)⟩⟩
  | closeArray hcovers =>
    cases hopened with
    | cons hrow _ => exact throughout_cons.2 ⟨fun _ _ => ⟨_, rfl, hrow⟩, hcovered hcovers⟩

theorem pieces_rowStops {tokens : List Token} {openings : List Opening}
    (h : Pieces locale formula.toList tokens openings) : RowStops [] tokens := by
  induction h with
  | nil => exact throughout_nil
  | concat hpieces hpiece ih =>
    refine throughout_append.2 ⟨ih, fun before token after heq => ?_⟩
    simp only [List.foldl_append]
    exact hpiece.rowStops hpieces.kept.opened before token after heq

/-! ### States -/

/-- The states of a scan of a formula between its iterations, with what is unread there. -/
inductive Reached (locale : Locale) (formula : String) : State → List Char → Prop
  | start : Reached locale formula (.initial (leadSize formula)) (body formula.toList)
  | next {s c rest} : Reached locale formula s (c :: rest) →
      Reached locale formula (step locale c rest s).1 (rest.drop (step locale c rest s).2)

theorem Reached.moves {s : State} {unread : List Char} (h : Reached locale formula s unread) :
    Ready s ∧ Moves locale (.initial (leadSize formula)) (body formula.toList) s unread := by
  induction h with
  | start => exact ⟨.inl rfl, .refl⟩
  | next _ ih =>
    obtain ⟨hready, hmoves⟩ := ih
    exact ⟨ready_step hready, hmoves.trans (step_moves hready)⟩

/-- A scan is at a character in every state. -/
theorem Reached.tracks {s : State} {unread : List Char} (h : Reached locale formula s unread) :
    Tracks locale formula.toList s unread := by
  induction h with
  | start => exact tracks_initial locale formula
  | next h ih => exact ih.step h.moves.1

/-- How many square brackets are open. -/
def Mode.depth : Mode → Nat
  | .bracket depth => depth
  | _ => 0

theorem depth_of_absorb {mode next : Mode} {pending : String} {c : Char} {rest : List Char}
    (h : absorb locale mode pending c rest = some next) : next.depth ≤ mode.depth + 1 := by
  have hordinary : ∀ {first}, absorbOrdinary first c rest = some next → next.depth ≤ 1 := by
    intro first h
    unfold absorbOrdinary at h
    split_ifs at h <;> cases h <;> simp [Mode.depth]
  cases mode with
  | text | errorLiteral => cases h
  | path =>
    cases h
    split <;> simp [Mode.depth]
  | bracket depth =>
    cases h
    split_ifs <;> simp [Mode.depth]
    omega
  | number =>
    simp only [absorb] at h
    split at h
    · cases h
      simp [Mode.depth]
    · exact hordinary h
  | ordinary => exact hordinary h

/-- Every open square bracket is a character of the word. -/
theorem depth_of_absorbs {mode next : Mode} {before word unread : List Char}
    (h : absorbs locale before mode word unread = some next) : next.depth ≤ mode.depth + word.length := by
  induction word generalizing before mode with
  | nil =>
    cases h
    simp
  | cons c word ih =>
    obtain ⟨middle, hfirst, hrest⟩ := Option.bind_eq_some_iff.1 h
    have hmiddle := depth_of_absorb hfirst
    have hnext := ih hrest
    rw [List.length_cons]
    omega

theorem length_le_utf8Len (text : List Char) : text.length ≤ utf8Len text := by
  induction text with
  | nil => simp
  | cons c text ih =>
    have := c.utf8Size_pos
    rw [List.length_cons, String.utf8Len_cons]
    omega

/-- As many square brackets are open as have been read, at most. -/
theorem Reached.depth_le {s : State} {unread : List Char} {depth : Nat} (h : Reached locale formula s unread)
    (hmode : s.mode = .bracket depth) : depth ≤ s.offset := by
  have hshaped : Shaped locale s unread :=
    h.moves.2.preserves (Shaped locale) Move.shaped (shaped_initial locale _ _)
  obtain ⟨before, -, hoffset, -⟩ := h.tracks.place
  have hpending := hshaped.pending
  simp only [PendingShape, hmode] at hpending
  have hdepth : depth ≤ 0 + s.pending.toList.length := depth_of_absorbs hpending
  have hlength := length_le_utf8Len s.pending.toList
  rw [part_of_word (by simp [hmode])] at hoffset
  omega

end

end Scan

/-! ## Main statement -/

namespace Formula

open Token (openStarts Tiles Fills Filled)
open String.Pos.Raw (IsValid)

/-- How tokens lie in the text of a formula. -/
structure Tiling (formula : String) (tokens : List Token) : Prop where
  within : ∀ token ∈ tokens, Scan.leadSize formula ≤ token.start ∧ token.start ≤ token.stop ∧
    token.stop ≤ formula.utf8ByteSize
  ordered : tokens.Pairwise fun token next => token.stop ≤ next.start
  /-- They start and stop between two characters. -/
  boundaries : ∀ token ∈ tokens, IsValid formula ⟨token.start⟩ ∧ IsValid formula ⟨token.stop⟩
  /-- A call has a name in front of its parenthesis. -/
  names : ∀ token ∈ tokens, token.opensCall →
    (Text.slice formula token.start token.stop).toList.getLast? = some '(' →
      token.start < token.stop - 1 ∧ IsValid formula ⟨token.stop - 1⟩
  /-- Without text are only the starts of rows and the stops that close them. -/
  blank : ∀ before token after, tokens = before ++ token :: after → token.start = token.stop →
    token.opensRow ∨ token.closesCall ∧ ∃ opener ∈ (openStarts before).head?, opener.opensRow
  /-- What no token covers is skipped. -/
  uncovered : ∀ before c after, formula.toList = before ++ c :: after →
    Scan.leadSize formula ≤ utf8Len before →
    (∀ token ∈ tokens, ¬ (token.start ≤ utf8Len before ∧ utf8Len before < token.stop)) →
      c = ' ' ∨ c = '\n' ∨ c = '+'

variable {formula : String}

theorem isValid_of_append {front back : List Char} (h : formula.toList = front ++ back) :
    IsValid formula ⟨utf8Len front⟩ := by
  refine String.Pos.Raw.isValid_iff_exists_append.2 ⟨String.ofList front, String.ofList back, ?_, ?_⟩
  · rw [← String.ofList_append, ← h, String.ofList_toList]
  · rw [String.rawEndPos_ofList]

theorem le_size_of_append {front back : List Char} (h : formula.toList = front ++ back) :
    utf8Len front ≤ formula.utf8ByteSize := by
  rw [← String.utf8Len_toList, h, String.utf8Len_append]
  exact Nat.le_add_right _ _

/-- What covers a part of a formula starts and stops between two characters. -/
theorem boundaries_of_covers {start stop : Nat} {part : List Char}
    (h : Covers formula.toList start stop part) : start ≤ stop ∧ stop ≤ formula.utf8ByteSize ∧
      IsValid formula ⟨start⟩ ∧ IsValid formula ⟨stop⟩ := by
  obtain ⟨before, after, htext, rfl, rfl⟩ := h
  have hfront : formula.toList = before ++ (part ++ after) := by rw [htext, List.append_assoc]
  rw [← String.utf8Len_append]
  refine ⟨?_, le_size_of_append htext, isValid_of_append hfront, isValid_of_append htext⟩
  rw [String.utf8Len_append]
  exact Nat.le_add_right _ _

/-- A call whose part of the formula ends in a parenthesis has a name in front of it. -/
theorem covers_name {token : Token} {part : List Char} (hcovers : Covers formula.toList token.start token.stop part)
    (hfills : Fills token part) (hopens : token.opensCall) (hlast : part.getLast? = some '(') :
    ∃ name, name ≠ [] ∧ Covers formula.toList token.start (token.stop - 1) name ∧
      Covers formula.toList (token.stop - 1) token.stop ['('] := by
  obtain ⟨name, rfl⟩ := List.getLast?_eq_some_iff.1 hlast
  have hname : name ≠ [] := by
    rintro rfl
    exact hfills.call hopens rfl
  obtain ⟨hfront, hback⟩ := Scan.covers_append hcovers
  have hstop : token.stop - 1 = token.start + utf8Len name := by
    obtain ⟨before, -, -, hplace, hstop⟩ := hback
    rw [hstop, hplace]
    rfl
  rw [hstop]
  exact ⟨name, hname, hfront, hback⟩

/-- A stop without text closes a row. -/
theorem rowStop_of_leaves {raws tokens : List Token} (h : Token.Leaves raws tokens)
    (hstops : Scan.RowStops [] raws) : Scan.RowStops [] tokens := by
  rintro before token after rfl hstop hplaces
  obtain ⟨before', raw, after', rfl, hbefore, -, hremains⟩ := h.split
  obtain ⟨opener, hopener, hrow⟩ := hstops before' raw after' rfl (hremains.stopped.1 hstop)
    (by rw [← hremains.places.1, ← hremains.places.2, hplaces])
  have hstarts := hbefore.starts_openStarts
  change opener ∈ (openStarts before').head? at hopener
  change ∃ opener ∈ (openStarts before).head?, opener.opensRow
  generalize openStarts before' = starts, openStarts before = starts' at hstarts hopener
  cases hstarts with
  | nil => cases hopener
  | cons hremains _ =>
    cases hopener
    exact ⟨_, rfl, hremains.1.row hrow⟩

/-- The tokens of a formula tile what a scan reads of it. -/
theorem tiles_tokens (locale : Locale) (formula : String) : ∃ lead,
    utf8Len lead = Scan.leadSize formula ∧ Tiles Fills lead (tokens locale formula) formula.toList := by
  obtain ⟨lead, hlead, hraws⟩ := Scan.tiles_ofFormula locale formula
  exact ⟨lead, hlead, hraws.normal⟩

theorem tiling_tokens (locale : Locale) (formula : String) : Tiling formula (tokens locale formula) := by
  have hpieces := Scan.pieces_ofFormula locale formula
  have hleaves := (Token.thinned_tokens locale formula).leaves hpieces.kept.bracketed
  have hstops := rowStop_of_leaves hleaves (Scan.pieces_rowStops hpieces)
  obtain ⟨lead, hlead, htiles⟩ := tiles_tokens locale formula
  refine ⟨fun token ht => ?_, htiles.ordered, fun token ht => ?_, fun token ht hopens hlast => ?_,
    fun before token after heq hplaces => ?_, fun before c after heq hfront huncovered => ?_⟩
  · obtain ⟨hfront, part, -, hcovers⟩ := htiles.covers ht
    obtain ⟨hle, hsize, -⟩ := boundaries_of_covers hcovers
    exact ⟨hlead ▸ hfront, hle, hsize⟩
  · obtain ⟨-, part, -, hcovers⟩ := htiles.covers ht
    exact (boundaries_of_covers hcovers).2.2
  · obtain ⟨-, part, hfills, hcovers⟩ := htiles.covers ht
    rw [Scan.slice_of_covers hcovers, String.toList_ofList] at hlast
    obtain ⟨name, hname, hfront, -⟩ := covers_name hcovers hfills hopens hlast
    exact ⟨Scan.lt_of_covers hfront hname, (boundaries_of_covers hfront).2.2.2⟩
  · obtain ⟨-, part, hfills, hcovers⟩ := htiles.covers (by simp [heq] : token ∈ tokens locale formula)
    have hnil : part = [] := by
      by_contra hne
      exact (Scan.lt_of_covers hcovers hne).ne hplaces
    obtain ⟨hkind, ⟨hsubkind, hvalue⟩ | hsubkind⟩ := hfills.blank hnil
    · left
      simp [Token.opensRow, Token.opensCall, Token.is, hkind, hsubkind, hvalue, hplaces]
    · exact .inr ⟨Token.is_iff.2 ⟨hkind, hsubkind⟩, hstops before token after heq hsubkind hplaces⟩
  · rcases htiles.skipped_or_covered heq (hlead ▸ hfront) with hskipped | ⟨token, ht, hplace⟩
    · simpa [Token.skipped] using hskipped
    · exact absurd hplace (huncovered token ht)

/-- The tokens of a formula tile its text. In every state of its scan the next character starts at the
offset, and at most as many square brackets are open as the formula has bytes. -/
theorem tokens_tile (locale : Locale) (formula : String) : Tiling formula (tokens locale formula) ∧
    ∀ s unread, Scan.Reached locale formula s unread → IsValid formula ⟨s.offset⟩ ∧
      ∀ depth, s.mode = .bracket depth → depth ≤ formula.utf8ByteSize := by
  refine ⟨tiling_tokens locale formula, fun s unread h => ?_⟩
  obtain ⟨before, htext, hoffset, -⟩ := h.tracks.place
  rw [← String.utf8Len_append] at hoffset
  refine ⟨hoffset ▸ isValid_of_append htext, fun depth hmode => ?_⟩
  exact (h.depth_le hmode).trans (hoffset ▸ le_size_of_append htext)

end Formula

end SheetFormula
