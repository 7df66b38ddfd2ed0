import Mathlib.Tactic.SplitIfs
import SheetFormula.Formula
import SheetFormula.Proofs.Pieces
import SheetFormula.Token.Render

/-!
# Tokens are written back as they were read

Main statement: `render_tokens`, the text of the tokens of a formula is made of the parts of the
formula that they cover.

1. `respelled` is the part that a token covers, with the four changes that the passes over the
   tokens make.
2. `Thinned` is what these passes do to a list of tokens, as far as its text is concerned: tokens
   are dropped, or kept with their spans.
3. A piece of tokens writes what it covers whatever follows it, unless that is a row
   (`writesBack_piece`).
-/

namespace SheetFormula.Token

open Scan (Covers Opening Piece Pieces Nested)

/-! ## What a token is written as -/

/-- A text without a leading `@`. -/
def withoutAt (text : String) : String :=
  match text.toList with
  | '@' :: rest => String.ofList rest
  | _ => text

/-- The part of the formula that a token covers, as it is written back: an intersection is one
space, the name of a call has lost an `@`, a logical literal has its canonical spelling, and a text
that the formula ends in is closed. -/
def respelled (locale : Locale) (formula : String) (token : Token) : String :=
  let slice := Text.slice formula token.start token.stop
  if token.is .infixOp .intersect then " "
  else if token.opensCall then withoutAt slice
  else if token.isLogical then
    match locale.readLogical? slice with
    | some value => locale.logicalLiteral value
    | none => slice
  else if token.isText && token.stop == formula.utf8ByteSize &&
      slice.toList.count '"' % 2 == 1 then slice ++ "\""
  else slice

/-! ## What the passes do -/

/-- What the passes over the tokens make of them. -/
inductive Thinned (locale : Locale) : List Token → List Token → Prop
  | nil : Thinned locale [] []
  | drop {raw raws tokens} : raw.kind = .whitespace ∨ raw.kind = .infixOp →
      Thinned locale raws tokens → Thinned locale (raw :: raws) tokens
  | gap {raw raws tokens} : raw.kind = .whitespace → Thinned locale raws tokens →
      Thinned locale (raw :: raws) ({ raw with kind := .infixOp, subkind := .intersect } :: tokens)
  | keep {raw raws tokens} (previous : Option Token) : raw.kind ≠ .whitespace →
      Thinned locale raws tokens →
      Thinned locale (raw :: raws) (resolveOne locale previous raw :: tokens)

section

variable {locale : Locale}

theorem Thinned.append {raws raws' tokens : List Token} (h : Thinned locale (raws ++ raws') tokens) :
    ∃ front back, tokens = front ++ back ∧ Thinned locale raws front ∧
      Thinned locale raws' back := by
  induction raws generalizing tokens with
  | nil => exact ⟨[], tokens, rfl, .nil, h⟩
  | cons raw raws ih =>
    cases h with
    | drop hkind h =>
      obtain ⟨front, back, rfl, hfront, hback⟩ := ih h
      exact ⟨front, back, rfl, .drop hkind hfront, hback⟩
    | gap hkind h =>
      obtain ⟨front, back, rfl, hfront, hback⟩ := ih h
      exact ⟨_ :: front, back, rfl, .gap hkind hfront, hback⟩
    | keep previous hkind h =>
      obtain ⟨front, back, rfl, hfront, hback⟩ := ih h
      exact ⟨_ :: front, back, rfl, .keep previous hkind hfront, hback⟩

theorem kind_resolveOperand (token : Token) : (resolveOperand locale token).kind = token.kind := by
  unfold resolveOperand
  split
  · rfl
  · split <;> rfl

theorem kind_stripAt (token : Token) : (stripAt token).kind = token.kind := by
  unfold stripAt
  split <;> rfl

/-- Only an operator changes its kind. -/
theorem kind_resolveOne {previous : Option Token} {token : Token} (h : token.kind ≠ .infixOp) :
    (resolveOne locale previous token).kind = token.kind := by
  unfold resolveOne
  split
  · contradiction
  · split
    · exact kind_resolveOperand token
    · rfl
  · exact kind_stripAt token
  · rfl

theorem kind_resolveOne_infixOp {previous : Option Token} {token : Token}
    (h : token.kind = .infixOp) : (resolveOne locale previous token).kind = .infixOp ∨
      (resolveOne locale previous token).kind = .prefixOp ∨
      (resolveOne locale previous token).kind = .noop := by
  unfold resolveOne resolveSign
  rw [h]
  dsimp only
  split_ifs <;> simp [h]

/-- What is kept stands in front of what the passes make of the other raw tokens. -/
theorem normal_cons {previous resolved : Option Token} {raw token : Token} {raws : List Token}
    (hkind : raw.kind ≠ .whitespace) (htoken : resolveOne locale resolved raw = token)
    (hnoop : token.kind ≠ .noop) :
    withoutNoops (resolveFrom locale resolved (settleFrom previous (raw :: raws))) =
      token :: withoutNoops (resolveFrom locale (some token) (settleFrom (some raw) raws)) := by
  rw [settleFrom, if_pos hkind, resolveFrom, htoken, withoutNoops, List.filter_cons,
    if_pos (by simpa using hnoop)]
  rfl

/-- White space between two operands becomes an operator. -/
theorem normal_gap {previous resolved : Option Token} {raw : Token} {raws : List Token}
    (hkind : raw.kind = .whitespace) (hvalue : raw.value = " ") (hprevious : previous.any endsValue)
    (hnext : raws.head?.any startsValue) :
    withoutNoops (resolveFrom locale resolved (settleFrom previous (raw :: raws))) =
      { raw with kind := .infixOp, subkind := .intersect } :: withoutNoops (resolveFrom locale
        (some { raw with kind := .infixOp, subkind := .intersect }) (settleFrom (some raw) raws)) := by
  have hresolved : resolveOne locale resolved { raw with kind := .infixOp, subkind := .intersect } =
      { raw with kind := .infixOp, subkind := .intersect } := by
    simp [resolveOne, hvalue]
  rw [settleFrom, if_neg (by simp [hkind]), hprevious, hnext]
  simp only [Bool.and_self, if_true]
  rw [resolveFrom, hresolved, withoutNoops, List.filter_cons, if_pos (by simp)]
  rfl

/-- Other white space is dropped. -/
theorem normal_space {previous resolved : Option Token} {raw : Token} {raws : List Token}
    (hkind : raw.kind = .whitespace) (hbetween : ¬ (previous.any endsValue ∧ raws.head?.any startsValue)) :
    withoutNoops (resolveFrom locale resolved (settleFrom previous (raw :: raws))) =
      withoutNoops (resolveFrom locale resolved (settleFrom (some raw) raws)) := by
  rw [settleFrom, if_neg (by simp [hkind]), if_neg (by simpa using hbetween)]

/-- A sign that does nothing is dropped. -/
theorem normal_noop {previous resolved : Option Token} {raw : Token} {raws : List Token}
    (hkind : raw.kind ≠ .whitespace) (hnoop : (resolveOne locale resolved raw).kind = .noop) :
    withoutNoops (resolveFrom locale resolved (settleFrom previous (raw :: raws))) =
      withoutNoops (resolveFrom locale (some (resolveOne locale resolved raw))
        (settleFrom (some raw) raws)) := by
  rw [settleFrom, if_pos hkind, resolveFrom, withoutNoops, List.filter_cons, if_neg (by simp [hnoop])]
  rfl

/-- What the passes make of the first raw token: they keep it, make an intersection of it, or drop
it. -/
theorem normal_cases (previous resolved : Option Token) (raw : Token) (raws : List Token)
    (hvalue : raw.kind = .whitespace → raw.value = " ") :
    (raw.kind ≠ .whitespace ∧
      withoutNoops (resolveFrom locale resolved (settleFrom previous (raw :: raws))) =
        resolveOne locale resolved raw :: withoutNoops (resolveFrom locale
          (some (resolveOne locale resolved raw)) (settleFrom (some raw) raws))) ∨
    (raw.kind = .whitespace ∧ previous.any endsValue ∧ raws.head?.any startsValue ∧
      withoutNoops (resolveFrom locale resolved (settleFrom previous (raw :: raws))) =
        { raw with kind := .infixOp, subkind := .intersect } :: withoutNoops (resolveFrom locale
          (some { raw with kind := .infixOp, subkind := .intersect })
          (settleFrom (some raw) raws))) ∨
    ((raw.kind = .whitespace ∨ (resolveOne locale resolved raw).kind = .noop) ∧ ∃ resolved',
      withoutNoops (resolveFrom locale resolved (settleFrom previous (raw :: raws))) =
        withoutNoops (resolveFrom locale resolved' (settleFrom (some raw) raws))) := by
  by_cases hkind : raw.kind = .whitespace
  · by_cases hbetween : previous.any endsValue ∧ raws.head?.any startsValue
    · exact .inr (.inl ⟨hkind, hbetween.1, hbetween.2,
        normal_gap hkind (hvalue hkind) hbetween.1 hbetween.2⟩)
    · exact .inr (.inr ⟨.inl hkind, resolved, normal_space hkind hbetween⟩)
  · by_cases hnoop : (resolveOne locale resolved raw).kind = .noop
    · exact .inr (.inr ⟨.inr hnoop, some (resolveOne locale resolved raw), normal_noop hkind hnoop⟩)
    · exact .inl ⟨hkind, normal_cons hkind rfl hnoop⟩

theorem thinned_from (previous previous' : Option Token) (tokens : List Token)
    (h : ∀ token ∈ tokens, token.kind ≠ .noop ∧ (token.kind = .whitespace → token.value = " ")) :
    Thinned locale tokens
      (withoutNoops (resolveFrom locale previous' (settleFrom previous tokens))) := by
  induction tokens generalizing previous previous' with
  | nil => exact .nil
  | cons token rest ih =>
    have hrest := fun previous previous' => ih previous previous' fun token ht =>
      h token (List.mem_cons_of_mem _ ht)
    obtain ⟨hnoop, hspace⟩ := h token List.mem_cons_self
    rcases normal_cases previous previous' token rest hspace with
      ⟨hkind, heq⟩ | ⟨hkind, -, -, heq⟩ | ⟨hdropped, resolved', heq⟩
    · rw [heq]
      exact .keep previous' hkind (hrest _ _)
    · rw [heq]
      exact .gap hkind (hrest _ _)
    · rw [heq]
      refine .drop (hdropped.imp id fun hdropped => Decidable.byContradiction fun hkind => ?_) (hrest _ _)
      rw [kind_resolveOne hkind] at hdropped
      exact hnoop hdropped

end

/-! ## Pieces are written back -/

theorem renderFrom_plain {locale : Locale} {closers : List String} {token : Token}
    {rest : List Token} (hopens : token.opensBracket = false)
    (hcloses : token.closesBracket = false) :
    renderFrom locale closers (token :: rest) =
      token.spell locale ++ renderFrom locale closers rest := by
  rw [renderFrom, hopens, hcloses, if_neg Bool.false_ne_true, if_neg Bool.false_ne_true]

theorem renderFrom_close {locale : Locale} {closers : List String} {token : Token}
    {rest : List Token} (hopens : token.opensBracket = false) (hcloses : token.closesBracket) :
    renderFrom locale closers (token :: rest) =
      closers.headD ")" ++ renderFrom locale closers.tail rest := by
  rw [renderFrom, hopens, hcloses, if_neg Bool.false_ne_true, if_pos rfl]

theorem renderFrom_open {locale : Locale} {closers : List String} {token : Token}
    {rest : List Token} (hopens : token.opensBracket) :
    renderFrom locale closers (token :: rest) =
      (token.opening rest.head?).1 ++
        renderFrom locale ((token.opening rest.head?).2 :: closers) rest := by
  rw [renderFrom, hopens, if_pos rfl]

/-- What closes a bracket. -/
def closer : Opening → String
  | .bracket _ => ")"
  | .array _ => "\x7d"
  | .arrayRow _ => ""

/-- A list of tokens that starts with a row would be taken for the row of an array. -/
def startsRow (tokens : List Token) : Bool := tokens.head?.any opensRow

/-- The tokens of a piece are written as they were read, between the closers of the brackets that
are open before and after. -/
def WritesBack (locale : Locale) (formula : String) (openings : List Opening) (tokens : List Token)
    (openings' : List Opening) : Prop :=
  ∀ rest, startsRow rest = false → startsRow (tokens ++ rest) = false ∧
    renderFrom locale (openings.map closer) (tokens ++ rest) =
      String.join (tokens.map (respelled locale formula)) ++
        renderFrom locale (openings'.map closer) rest

/-- A number is written back in the spelling of its locale. -/
theorem spellNumber_canonical {locale : Locale} {value : String}
    (h : (locale.readNumber? value).isSome) : spellNumber locale (locale.canonical value) = value := by
  have hpoint : locale.decimalSeparator ≠ '.' → '.' ∉ value.toList := by
    intro hseparator hmem
    rw [Locale.readNumber?, if_pos ⟨hseparator, hmem⟩] at h
    cases h
  rw [spellNumber, Locale.canonical, String.toList_ofList, List.map_map]
  have hid : value.toList.map ((fun c => if c = '.' then locale.decimalSeparator else c) ∘
      fun c => if c = locale.decimalSeparator then '.' else c) = value.toList := by
    refine (List.map_congr_left fun c hc => ?_).trans (List.map_id _)
    by_cases hseparator : c = locale.decimalSeparator
    · simp [hseparator]
    · have hne : c ≠ '.' := by
        rintro rfl
        exact hpoint (Ne.symm hseparator) hc
      simp [hseparator, hne]
  rw [hid, String.ofList_toList]

section

variable {locale : Locale} {formula : String} {openings : List Opening}

theorem writesBack_nil : WritesBack locale formula openings [] openings := by
  intro rest hrest
  refine ⟨hrest, ?_⟩
  rw [List.map_nil, String.join_nil, String.empty_append]
  rfl

theorem writesBack_single {token : Token} (hopens : token.opensBracket = false)
    (hcloses : token.closesBracket = false)
    (hspell : token.spell locale = respelled locale formula token) :
    WritesBack locale formula openings [token] openings := by
  intro rest _
  refine ⟨?_, ?_⟩
  · simp only [startsRow, List.singleton_append, List.head?_cons, Option.any_some, opensRow]
    simp only [opensBracket, Bool.or_eq_false_iff] at hopens
    rw [hopens.1]
    rfl
  · rw [List.singleton_append, renderFrom_plain hopens hcloses, hspell, List.map_singleton,
      String.join_cons, String.join_nil, String.append_empty]

/-- Kinds whose tokens are written as they stand. -/
def verbatimKinds : List (Token.Kind × Token.Subkind) :=
  [(.operand, .range), (.operand, .error), (.unknown, .unspecified), (.argument, .unspecified),
   (.infixOp, .union), (.infixOp, .logical), (.infixOp, .unspecified), (.infixOp, .math),
   (.infixOp, .concat), (.prefixOp, .union), (.prefixOp, .logical), (.prefixOp, .unspecified),
   (.noop, .union), (.noop, .logical), (.noop, .unspecified), (.postfixOp, .unspecified)]

/-- Such a token is written as it stands, and so is what it covers. -/
theorem spell_verbatim {value : String} {kind : Token.Kind} {subkind : Token.Subkind}
    {start stop : Nat} (hkind : (kind, subkind) ∈ verbatimKinds) :
    spell locale ⟨value, kind, subkind, start, stop⟩ = value ∧
      respelled locale formula ⟨value, kind, subkind, start, stop⟩ = Text.slice formula start stop := by
  simp only [verbatimKinds, List.mem_cons, List.not_mem_nil, or_false, Prod.mk.injEq] at hkind
  rcases hkind with ⟨rfl, rfl⟩ | ⟨rfl, rfl⟩ | ⟨rfl, rfl⟩ | ⟨rfl, rfl⟩ | ⟨rfl, rfl⟩ | ⟨rfl, rfl⟩ |
    ⟨rfl, rfl⟩ | ⟨rfl, rfl⟩ | ⟨rfl, rfl⟩ | ⟨rfl, rfl⟩ | ⟨rfl, rfl⟩ | ⟨rfl, rfl⟩ | ⟨rfl, rfl⟩ |
    ⟨rfl, rfl⟩ | ⟨rfl, rfl⟩ | ⟨rfl, rfl⟩ <;> exact ⟨rfl, rfl⟩

theorem plain_of_verbatim {kind : Token.Kind} {subkind : Token.Subkind}
    (hkind : (kind, subkind) ∈ verbatimKinds) : subkind ≠ .start ∧ subkind ≠ .stop := by
  have hplain : ∀ entry ∈ verbatimKinds, entry.2 ≠ .start ∧ entry.2 ≠ .stop := by decide
  exact hplain _ hkind

theorem writesBack_verbatim {value : String} {kind : Token.Kind} {subkind : Token.Subkind}
    {start stop : Nat} (hkind : (kind, subkind) ∈ verbatimKinds)
    (hcovers : Covers formula.toList start stop value.toList) :
    WritesBack locale formula openings [⟨value, kind, subkind, start, stop⟩] openings := by
  have hslice : Text.slice formula start stop = value := by
    rw [Scan.slice_of_covers hcovers, String.ofList_toList]
  obtain ⟨hstart, hstop⟩ := plain_of_verbatim hkind
  obtain ⟨hspell, hrespelled⟩ : spell locale ⟨value, kind, subkind, start, stop⟩ = value ∧
      respelled locale formula ⟨value, kind, subkind, start, stop⟩ = Text.slice formula start stop :=
    spell_verbatim hkind
  refine writesBack_single ?_ ?_ ?_
  · simp [opensBracket, opensCall, opensGroup, is, hstart]
  · simp [closesBracket, closesCall, closesGroup, is, hstop]
  · rw [hspell, hrespelled, hslice]

theorem respelled_logical {value : String} {start stop : Nat} {logical : Bool}
    (h : locale.readLogical? (Text.slice formula start stop) = some logical) :
    respelled locale formula ⟨value, .operand, .logical, start, stop⟩ =
      locale.logicalLiteral logical := by
  unfold respelled
  rw [if_neg (by simp [is]), if_neg (by simp [opensCall, is]), if_pos (by rfl), h]

/-- What becomes of an operand: its number or its logical value is written in the spelling of the
locale. -/
theorem writesBack_operand {value : String} {start stop : Nat}
    (hcovers : Covers formula.toList start stop value.toList) :
    WritesBack locale formula openings
      [resolveOperand locale ⟨value, .operand, .unspecified, start, stop⟩] openings := by
  have hslice : Text.slice formula start stop = value := by
    rw [Scan.slice_of_covers hcovers, String.ofList_toList]
  unfold resolveOperand
  split
  · rename_i hnumber
    refine writesBack_single rfl rfl ?_
    show spellNumber locale (locale.canonical value) = Text.slice formula start stop
    rw [hslice]
    exact spellNumber_canonical hnumber
  · split
    · rename_i logical hlogical
      refine writesBack_single rfl rfl ?_
      show locale.logicalLiteral (Locale.enUS.logicalLiteral logical == "TRUE") = _
      rw [respelled_logical (hslice ▸ hlogical)]
      cases logical <;> rfl
    · exact writesBack_verbatim (show (Token.Kind.operand, Token.Subkind.range) ∈ _ by decide) hcovers

/-- An operator keeps its text. -/
theorem resolveOne_infix {previous : Option Token} {value : String} {subkind : Token.Subkind}
    {start stop : Nat} (h : (Token.Kind.infixOp, subkind) ∈ Scan.plainKinds) :
    ∃ kind' subkind', resolveOne locale previous ⟨value, .infixOp, subkind, start, stop⟩ =
      ⟨value, kind', subkind', start, stop⟩ ∧ (kind', subkind') ∈ verbatimKinds := by
  have hfamily : (Token.Kind.infixOp, operatorFamily value) ∈ verbatimKinds := by
    unfold operatorFamily
    split <;> decide
  have hkinds : (Token.Kind.infixOp, subkind) ∈ verbatimKinds ∧
      (Token.Kind.prefixOp, subkind) ∈ verbatimKinds ∧
      (Token.Kind.noop, subkind) ∈ verbatimKinds := by
    simp only [Scan.plainKinds, List.mem_cons, List.not_mem_nil, or_false, Prod.mk.injEq] at h
    cases subkind <;> simp at h <;> decide
  simp only [resolveOne, resolveSign]
  split
  · split
    · exact ⟨_, _, rfl, by decide⟩
    · exact ⟨_, _, rfl, hkinds.2.1⟩
  split
  · split
    · exact ⟨_, _, rfl, by decide⟩
    · exact ⟨_, _, rfl, hkinds.2.2⟩
  split
  · exact ⟨_, _, rfl, hfamily⟩
  · exact ⟨_, _, rfl, hkinds.1⟩

theorem writesBack_plain {value : String} {kind : Token.Kind} {subkind : Token.Subkind}
    {start stop : Nat} {tokens : List Token} (hkind : (kind, subkind) ∈ Scan.plainKinds)
    (hcovers : Covers formula.toList start stop value.toList)
    (h : Thinned locale [⟨value, kind, subkind, start, stop⟩] tokens) :
    WritesBack locale formula openings tokens openings := by
  cases h with
  | drop _ h => cases h; exact writesBack_nil
  | gap hspace h =>
    cases hspace
    simp [Scan.plainKinds] at hkind
  | keep previous _ h =>
    cases h
    by_cases hoperator : kind = .infixOp
    · subst hoperator
      obtain ⟨kind', subkind', heq, hverbatim⟩ := resolveOne_infix hkind
      rw [heq]
      exact writesBack_verbatim hverbatim hcovers
    · simp only [Scan.plainKinds, List.mem_cons, List.not_mem_nil, or_false, Prod.mk.injEq,
        hoperator, false_and, false_or] at hkind
      rcases hkind with ⟨rfl, rfl⟩ | ⟨rfl, rfl⟩ | ⟨rfl, rfl⟩ | ⟨rfl, rfl⟩ | ⟨rfl, rfl⟩
      · exact writesBack_operand hcovers
      all_goals
        simp only [resolveOne, reduceCtorEq, if_false]
        exact writesBack_verbatim (by decide) hcovers

theorem writesBack_gap {start stop : Nat} {tokens : List Token}
    (h : Thinned locale [⟨" ", .whitespace, .unspecified, start, stop⟩] tokens) :
    WritesBack locale formula openings tokens openings := by
  cases h with
  | drop _ h => cases h; exact writesBack_nil
  | gap _ h => cases h; exact writesBack_single rfl rfl rfl
  | keep _ hkind => exact absurd rfl hkind

/-- A token that is no gap and no operator is kept. -/
theorem Thinned.cons_inv {raw : Token} {raws tokens : List Token}
    (h : Thinned locale (raw :: raws) tokens) (hspace : raw.kind ≠ .whitespace)
    (hoperator : raw.kind ≠ .infixOp) :
    ∃ previous tokens', tokens = resolveOne locale previous raw :: tokens' ∧
      Thinned locale raws tokens' := by
  cases h with
  | drop hkind => exact absurd hkind (not_or.2 ⟨hspace, hoperator⟩)
  | gap hkind => exact absurd hkind hspace
  | keep previous _ h => exact ⟨previous, _, rfl, h⟩

/-! ### Texts -/

theorem count_doubled (text : List Char) :
    (Text.doubled '"' text).count '"' = 2 * text.count '"' := by
  induction text with
  | nil => rfl
  | cons c rest ih =>
    by_cases hc : c = '"'
    · simp only [Text.doubled, hc, if_true, List.count_cons_self, ih]
      omega
    · simp only [Text.doubled, hc, if_false, List.count_cons_of_ne hc, ih]

theorem respelled_text {value : String} {start stop : Nat} :
    respelled locale formula ⟨value, .operand, .text, start, stop⟩ =
      if stop == formula.utf8ByteSize &&
        (Text.slice formula start stop).toList.count '"' % 2 == 1
      then Text.slice formula start stop ++ "\"" else Text.slice formula start stop := rfl

/-- What a text covers is the text in quotes. -/
theorem respelled_quoted {value : String} {start stop : Nat}
    (hcovers : Covers formula.toList start stop ('"' :: Text.doubled '"' value.toList ++ ['"'])) :
    respelled locale formula ⟨value, .operand, .text, start, stop⟩ = Text.quoted value := by
  have hcount : ('"' :: Text.doubled '"' value.toList ++ ['"']).count '"' % 2 = 0 := by
    rw [List.count_append, List.count_cons_self, count_doubled]
    show (2 * _ + 1 + 1) % 2 = 0
    omega
  rw [respelled_text, Scan.slice_of_covers hcovers, String.toList_ofList, hcount]
  simp only [Nat.reduceBEq, Bool.and_false, Bool.false_eq_true, if_false]
  show _ = "\"" ++ String.ofList (Text.doubled '"' value.toList) ++ "\""
  rw [← String.toList_inj]
  simp

/-- What a text covers at the end of the formula is closed. -/
theorem respelled_open {value : String} {start stop : Nat}
    (hcovers : Covers formula.toList start stop ('"' :: Text.doubled '"' value.toList))
    (hend : stop = String.utf8Len formula.toList) :
    respelled locale formula ⟨value, .operand, .text, start, stop⟩ = Text.quoted value := by
  have hcount : ('"' :: Text.doubled '"' value.toList).count '"' % 2 = 1 := by
    rw [List.count_cons_self, count_doubled]
    omega
  have hsize : stop = formula.utf8ByteSize := by
    rw [hend, ← String.utf8ByteSize_ofList, String.ofList_toList]
  rw [respelled_text, Scan.slice_of_covers hcovers, String.toList_ofList, hcount, hsize]
  simp only [beq_self_eq_true, Bool.and_self, if_true]
  show _ = "\"" ++ String.ofList (Text.doubled '"' value.toList) ++ "\""
  rw [← String.toList_inj]
  simp

theorem writesBack_text {value : String} {start stop : Nat}
    (h : respelled locale formula ⟨value, .operand, .text, start, stop⟩ = Text.quoted value) :
    WritesBack locale formula openings [⟨value, .operand, .text, start, stop⟩] openings :=
  writesBack_single rfl rfl h.symm

/-! ### Brackets -/

theorem writesBack_group {start stop : Nat} (hcovers : Covers formula.toList start stop ['(']) :
    WritesBack locale formula openings [⟨"", .subexpr, .start, start, stop⟩]
      (.bracket ⟨"", .subexpr, .start, start, stop⟩ :: openings) := by
  intro rest _
  refine ⟨rfl, ?_⟩
  rw [List.singleton_append, renderFrom_open rfl, List.map_singleton, String.join_cons,
    String.join_nil, String.append_empty]
  show "(" ++ _ = Text.slice formula start stop ++ _
  rw [Scan.slice_of_covers hcovers]
  rfl

theorem withoutAt_of_at {text : String} {rest : List Char} (h : text.toList = '@' :: rest) :
    withoutAt text = String.ofList rest := by
  rw [withoutAt, h]
  rfl

theorem withoutAt_of_not_at {text : String} (h : ∀ rest, text.toList ≠ '@' :: rest) :
    withoutAt text = text := by
  unfold withoutAt
  split
  · rename_i rest heq
    exact absurd heq (h rest)
  · rfl

theorem withoutAt_push (value : String) :
    withoutAt (String.ofList (value.toList ++ ['('])) = withoutAt value ++ "(" := by
  by_cases hat : ∃ rest, value.toList = '@' :: rest
  · obtain ⟨rest, hat⟩ := hat
    have hpush : (String.ofList (value.toList ++ ['('])).toList = '@' :: (rest ++ ['(']) := by
      rw [String.toList_ofList, hat, List.cons_append]
    rw [withoutAt_of_at hat, withoutAt_of_at hpush, ← String.toList_inj]
    simp
  · have hne : ∀ rest, value.toList ≠ '@' :: rest := fun rest h => hat ⟨rest, h⟩
    rw [withoutAt_of_not_at hne, withoutAt_of_not_at]
    · rw [← String.toList_inj]
      simp
    · intro rest h
      rw [String.toList_ofList] at h
      cases hvalue : value.toList with
      | nil =>
        rw [hvalue] at h
        cases h
      | cons c tail =>
        rw [hvalue] at h
        refine hne tail ?_
        rw [hvalue, (List.cons.inj h).1]

theorem stripAt_eq (value : String) (kind : Token.Kind) (subkind : Token.Subkind)
    (start stop : Nat) :
    stripAt ⟨value, kind, subkind, start, stop⟩ = ⟨withoutAt value, kind, subkind, start, stop⟩ := by
  unfold stripAt
  simp only
  split
  · rename_i rest heq
    rw [withoutAt_of_at heq]
  · rename_i hne
    rw [withoutAt_of_not_at hne]

theorem writesBack_call {value : String} {start stop : Nat}
    (hcovers : Covers formula.toList start stop (value.toList ++ ['('])) :
    WritesBack locale formula openings
      [stripAt ⟨value, .function, .start, start, stop⟩]
      (.bracket ⟨value, .function, .start, start, stop⟩ :: openings) := by
  intro rest hrest
  have hspan : start ≠ stop := by
    obtain ⟨before, after, -, rfl, rfl⟩ := hcovers
    rw [String.utf8Len_append, String.utf8Len_cons]
    have := Char.utf8Size_pos '('
    omega
  have hrow : opensRow ⟨withoutAt value, .function, .start, start, stop⟩ = false := by
    simp [opensRow, hspan]
  have hnext : (rest.head?.any opensRow) = false := hrest
  rw [stripAt_eq]
  refine ⟨hrow, ?_⟩
  rw [List.singleton_append, renderFrom_open rfl, List.map_singleton, String.join_cons,
    String.join_nil, String.append_empty, opening, hrow, hnext]
  simp only [Bool.and_false, Bool.false_eq_true, if_false]
  show (withoutAt value ++ "(") ++ _ = withoutAt (Text.slice formula start stop) ++ _
  rw [Scan.slice_of_covers hcovers, withoutAt_push]
  rfl

theorem writesBack_close {opening : Token} {start stop : Nat}
    (hkind : opening.kind = .function ∨ opening.kind = .subexpr)
    (hcovers : Covers formula.toList start stop [')']) :
    WritesBack locale formula (.bracket opening :: openings)
      [⟨"", opening.kind, .stop, start, stop⟩] openings := by
  intro rest _
  have hslice := Scan.slice_of_covers hcovers
  rcases hkind with h | h
  all_goals
    rw [h]
    refine ⟨rfl, ?_⟩
    rw [List.singleton_append, renderFrom_close rfl rfl, List.map_singleton, String.join_cons,
      String.join_nil, String.append_empty]
    show ")" ++ _ = Text.slice formula start stop ++ _
    rw [hslice]
    rfl

theorem writesBack_closeNothing {start stop : Nat}
    (hcovers : Covers formula.toList start stop [')']) :
    WritesBack locale formula [] [⟨"", .subexpr, .stop, start, stop⟩] [] := by
  intro rest _
  refine ⟨rfl, ?_⟩
  rw [List.singleton_append, renderFrom_close rfl rfl, List.map_singleton, String.join_cons,
    String.join_nil, String.append_empty]
  show ")" ++ _ = Text.slice formula start stop ++ _
  rw [Scan.slice_of_covers hcovers]
  rfl

/-! ### Arrays -/

theorem covers_start {source part : List Char} {start stop : Nat}
    (h : Covers source start stop part) : Covers source start start [] := by
  obtain ⟨before, after, htext, hstart, -⟩ := h
  exact ⟨before, part ++ after, by rw [htext, List.append_nil, List.append_assoc], hstart, hstart⟩

theorem covers_stop {source part : List Char} {start stop : Nat}
    (h : Covers source start stop part) : Covers source stop stop [] := by
  obtain ⟨before, after, htext, -, hstop⟩ := h
  rw [← String.utf8Len_append] at hstop
  exact ⟨before ++ part, after, by rw [htext, List.append_nil], hstop, hstop⟩

theorem slice_start {part : List Char} {start stop : Nat}
    (h : Covers formula.toList start stop part) : Text.slice formula start start = "" :=
  Scan.slice_of_covers (covers_start h)

theorem slice_stop {part : List Char} {start stop : Nat}
    (h : Covers formula.toList start stop part) : Text.slice formula stop stop = "" :=
  Scan.slice_of_covers (covers_stop h)

theorem opensRow_row (place : Nat) :
    opensRow ⟨arrayRowName, .function, .start, place, place⟩ = true := by
  simp [opensRow, opensCall, is]

/-- A row opens without text. -/
theorem renderFrom_row (closers : List String) (place : Nat) (rest : List Token) :
    renderFrom locale closers (⟨arrayRowName, .function, .start, place, place⟩ :: rest) =
      renderFrom locale ("" :: closers) rest := by
  rw [renderFrom_open rfl, opening, opensRow_row, if_pos rfl, String.empty_append]

theorem respelled_start (value : String) (start stop : Nat) :
    respelled locale formula ⟨value, .function, .start, start, stop⟩ =
      withoutAt (Text.slice formula start stop) := rfl

theorem respelled_stop (value : String) (start stop : Nat) :
    respelled locale formula ⟨value, .function, .stop, start, stop⟩ =
      Text.slice formula start stop := rfl

theorem withoutAt_arrayName : withoutAt arrayName = arrayName := by decide

theorem withoutAt_arrayRowName : withoutAt arrayRowName = arrayRowName := by decide

theorem withoutAt_empty : withoutAt "" = "" := by decide

theorem withoutAt_semicolon : withoutAt ";" = ";" := by decide

theorem writesBack_array {array row start stop : Nat}
    (hcovers : Covers formula.toList start stop ['\x7b']) :
    WritesBack locale formula openings
      [⟨arrayName, .function, .start, start, stop⟩, ⟨arrayRowName, .function, .start, stop, stop⟩]
      (.arrayRow row :: .array array :: openings) := by
  intro rest _
  have hopening : opening ⟨arrayName, .function, .start, start, stop⟩
      (some ⟨arrayRowName, .function, .start, stop, stop⟩) = ("\x7b", "\x7d") := by
    have hname : opensRow ⟨arrayName, .function, .start, start, stop⟩ = false := by
      simp [opensRow, arrayName, arrayRowName]
    rw [opening, hname, Option.any_some, opensRow_row]
    rfl
  have hbrace : withoutAt (String.ofList ['\x7b']) = "\x7b" := by decide
  refine ⟨by simp [startsRow, opensRow, arrayName, arrayRowName], ?_⟩
  rw [List.cons_append, List.singleton_append, renderFrom_open rfl, List.head?_cons, hopening,
    renderFrom_row, List.map_cons, List.map_singleton, String.join_cons, String.join_cons,
    String.join_nil, String.append_empty, respelled_start, respelled_start,
    Scan.slice_of_covers hcovers, slice_stop hcovers, hbrace, withoutAt_empty, String.append_empty]
  rfl

theorem writesBack_nextRow {row start stop : Nat}
    (hcovers : Covers formula.toList start stop [';']) :
    WritesBack locale formula (.arrayRow row :: openings)
      [⟨"", .function, .stop, start, start⟩, ⟨";", .argument, .unspecified, start, stop⟩,
       ⟨arrayRowName, .function, .start, stop, stop⟩] (.arrayRow row :: openings) := by
  intro rest _
  have hseparator : respelled locale formula ⟨";", .argument, .unspecified, start, stop⟩ = ";" :=
    Scan.slice_of_covers hcovers
  refine ⟨rfl, ?_⟩
  rw [List.cons_append, List.cons_append, List.singleton_append, renderFrom_close rfl rfl,
    renderFrom_plain rfl rfl, renderFrom_row]
  simp only [List.map_cons, List.map_nil, String.join_cons, String.join_nil, respelled_start,
    respelled_stop, slice_start hcovers, slice_stop hcovers, hseparator, withoutAt_empty,
    String.append_empty, String.empty_append]
  rfl

theorem writesBack_closeArray {array row start stop : Nat}
    (hcovers : Covers formula.toList start stop ['\x7d']) :
    WritesBack locale formula (.arrayRow row :: .array array :: openings)
      [⟨"", .function, .stop, start, start⟩, ⟨"", .function, .stop, start, stop⟩] openings := by
  intro rest _
  refine ⟨rfl, ?_⟩
  rw [List.cons_append, List.singleton_append, renderFrom_close rfl rfl, renderFrom_close rfl rfl]
  simp only [List.map_cons, List.map_nil, String.join_cons, String.join_nil, respelled_stop,
    Scan.slice_of_covers hcovers, slice_start hcovers, String.append_empty, String.empty_append]
  rfl

theorem resolveOne_function (previous : Option Token) (value : String) (subkind : Token.Subkind)
    (start stop : Nat) :
    resolveOne locale previous ⟨value, .function, subkind, start, stop⟩ =
      ⟨withoutAt value, .function, subkind, start, stop⟩ := stripAt_eq _ _ _ _ _

/-- Brackets and separators are left as they are, but for an `@` before a name. -/
theorem Thinned.eq_self {raws tokens : List Token} (h : Thinned locale raws tokens)
    (hkinds : ∀ raw ∈ raws, raw.kind = .function ∨ raw.kind = .subexpr ∨ raw.kind = .argument)
    (hvalues : ∀ raw ∈ raws, withoutAt raw.value = raw.value) : tokens = raws := by
  induction raws generalizing tokens with
  | nil => cases h; rfl
  | cons raw raws ih =>
    have hkind := hkinds raw List.mem_cons_self
    have hvalue := hvalues raw List.mem_cons_self
    obtain ⟨previous, tokens', rfl, hrest⟩ := h.cons_inv
      (by rcases hkind with h | h | h <;> simp [h]) (by rcases hkind with h | h | h <;> simp [h])
    obtain rfl : tokens' = raws := ih hrest (fun raw hr => hkinds raw (List.mem_cons_of_mem _ hr))
      (fun raw hr => hvalues raw (List.mem_cons_of_mem _ hr))
    obtain ⟨value, kind, subkind, start, stop⟩ := raw
    rcases hkind with rfl | rfl | rfl
    · rw [resolveOne_function, show withoutAt value = value from hvalue]
    · rfl
    · rfl

/-- A piece is written back. -/
theorem writesBack_piece {raws tokens : List Token} {openings' : List Opening}
    (hpiece : Piece locale formula.toList openings raws openings') (h : Thinned locale raws tokens) :
    WritesBack locale formula openings tokens openings' := by
  cases hpiece with
  | plain hkind hcovers => exact writesBack_plain hkind hcovers h
  | gap _ => exact writesBack_gap h
  | text hcovers =>
    obtain ⟨_, _, rfl, hnil⟩ := h.cons_inv (by simp) (by simp)
    cases hnil
    exact writesBack_text (respelled_quoted hcovers)
  | openText hcovers hend =>
    obtain ⟨_, _, rfl, hnil⟩ := h.cons_inv (by simp) (by simp)
    cases hnil
    exact writesBack_text (respelled_open hcovers hend)
  | group hcovers =>
    obtain rfl := h.eq_self (by simp) (by simp [withoutAt_empty])
    exact writesBack_group hcovers
  | call hcovers =>
    obtain ⟨_, _, rfl, hnil⟩ := h.cons_inv (by simp) (by simp)
    cases hnil
    rw [resolveOne_function, ← stripAt_eq]
    exact writesBack_call hcovers
  | close hkind hcovers =>
    obtain rfl := h.eq_self (by simpa using hkind.imp_right .inl) (by simp [withoutAt_empty])
    exact writesBack_close hkind hcovers
  | closeNothing hcovers =>
    obtain rfl := h.eq_self (by simp) (by simp [withoutAt_empty])
    exact writesBack_closeNothing hcovers
  | array hcovers =>
    obtain rfl := h.eq_self (by simp) (by simp [withoutAt_arrayName, withoutAt_arrayRowName])
    exact writesBack_array hcovers
  | nextRow hcovers =>
    obtain rfl := h.eq_self (by simp)
      (by simp [withoutAt_empty, withoutAt_semicolon, withoutAt_arrayRowName])
    exact writesBack_nextRow hcovers
  | closeArray hcovers =>
    obtain rfl := h.eq_self (by simp) (by simp [withoutAt_empty])
    exact writesBack_closeArray hcovers

theorem writesBack_append {tokens tokens' : List Token} {openings' openings'' : List Opening}
    (h : WritesBack locale formula openings tokens openings')
    (h' : WritesBack locale formula openings' tokens' openings'') :
    WritesBack locale formula openings (tokens ++ tokens') openings'' := by
  intro rest hrest
  obtain ⟨hstart', htext'⟩ := h' rest hrest
  obtain ⟨hstart, htext⟩ := h (tokens' ++ rest) hstart'
  rw [List.append_assoc]
  refine ⟨hstart, ?_⟩
  rw [htext, htext', List.map_append, String.join_append, String.append_assoc]

theorem writesBack_pieces {raws tokens : List Token}
    (hpieces : Pieces locale formula.toList raws openings) (h : Thinned locale raws tokens) :
    WritesBack locale formula [] tokens openings := by
  induction hpieces generalizing tokens with
  | nil => cases h; exact writesBack_nil
  | concat _ hpiece ih =>
    obtain ⟨front, back, rfl, hfront, hback⟩ := h.append
    exact writesBack_append (ih hfront) (writesBack_piece hpiece hback)

end

/-- The kinds of the tokens of a piece. -/
theorem kind_of_pieces {locale : Locale} {source : List Char} {tokens : List Token}
    {openings : List Opening} (h : Pieces locale source tokens openings) :
    ∀ token ∈ tokens, token.kind ≠ .noop ∧ (token.kind = .whitespace → token.value = " ") := by
  induction h with
  | nil => intro token ht; cases ht
  | concat _ hpiece ih =>
    intro token ht
    rcases List.mem_append.1 ht with ht | ht
    · exact ih token ht
    cases hpiece with
    | plain hkind =>
      cases List.mem_singleton.1 ht
      simp only [Scan.plainKinds, List.mem_cons, List.not_mem_nil, or_false, Prod.mk.injEq] at hkind
      rcases hkind with ⟨rfl, rfl⟩ | ⟨rfl, rfl⟩ | ⟨rfl, rfl⟩ | ⟨rfl, rfl⟩ | ⟨rfl, rfl⟩ |
        ⟨rfl, rfl⟩ | ⟨rfl, rfl⟩ | ⟨rfl, rfl⟩ <;> exact ⟨by simp, by simp⟩
    | close hkind =>
      cases List.mem_singleton.1 ht
      rcases hkind with h | h <;> simp [h]
    | gap | text | openText | group | call | closeNothing | array | nextRow | closeArray =>
      simp only [List.mem_cons, List.not_mem_nil, or_false] at ht
      rcases ht with rfl | rfl | rfl <;> simp

/-- The tokens of a formula are made of its raw tokens. -/
theorem thinned_tokens (locale : Locale) (formula : String) :
    Thinned locale (Scan.ofFormula locale formula).tokens.toList (Formula.tokens locale formula) :=
  thinned_from none none _ (kind_of_pieces (Scan.pieces_ofFormula locale formula))

/-- What is left of pieces is written as the parts that it covers. -/
theorem render_of_pieces {locale : Locale} {formula : String} {raws tokens : List Token}
    {openings : List Opening} (hpieces : Pieces locale formula.toList raws openings)
    (h : Thinned locale raws tokens) :
    render locale tokens = String.join (tokens.map (respelled locale formula)) := by
  have hwritten := (writesBack_pieces hpieces h [] rfl).2
  rw [List.append_nil] at hwritten
  rw [render]
  exact hwritten.trans String.append_empty

/-- The text of the tokens of a formula is made of the parts of the formula that they cover. -/
theorem render_tokens (locale : Locale) (formula : String) :
    render locale (Formula.tokens locale formula) =
      String.join ((Formula.tokens locale formula).map (respelled locale formula)) := by
  have hpieces := Scan.pieces_ofFormula locale formula
  exact render_of_pieces hpieces (thinned_from none none _ (kind_of_pieces hpieces))

end SheetFormula.Token
