import SheetFormula.Proofs.Discipline
import SheetFormula.Proofs.Literals
import SheetFormula.Proofs.Recovery

/-!
# The text of tokens is scanned again

Main statement: `rescans_pieces`, that a scan gets over the text that the tokens of a formula are
written as, with raw tokens that recover them.

1. What stands behind a token decides where its text ends. `Heralds` says which characters tokens start
   with, and `Before` what a text behind a token has to keep to.
2. `Apart` is what two tokens need: the second one follows on the first one, and the first one is no
   number that goes on with it.
3. Each piece of a formula is passed in the text, between brackets of the same forms:
   `rescans_piece`.
-/

namespace SheetFormula

/-- Whether the text of an operand goes on with the operator behind it. -/
def Token.joins (locale : Locale) (operand operator : Token) : Bool :=
  operand.kind == .operand && operator.isInfixOp &&
    (operator.spell locale).toList.head?.any (Scan.goesOn locale (operand.spell locale))

namespace Scan

open Token (Recovers Thinned resolveOne resolveOperand respelled withoutAt label
  recovers_of_label recovers_word recovers_operator)

/-! ## What stands behind a token -/

/-- Whether a token may be written behind another one. -/
structure Apart (locale : Locale) (token next : Token) : Prop where
  follows : Token.Follows token next
  parted : token.joins locale next = false

/-- Whether a character can be the first one of a token. -/
structure Heads (locale : Locale) (next : Token) (c : Char) : Prop where
  begins : next.begins → startsText c
  continues : next.continues → closesWord c
  operator : next.isInfixOp → (next.spell locale).toList.head? = some c
  bracket : next.continues → next.isInfixOp = false →
    c ≠ locale.decimalSeparator ∧ c ≠ '+' ∧ c ≠ '-'

/-- Whether a text starts as the text of some tokens does. -/
def Heralds (locale : Locale) (back : List Token) (rest : List Char) : Prop :=
  (back = [] → rest = []) ∧ ∀ next ∈ back.head?, ∃ c ∈ rest.head?, Heads locale next c

/-- What a text behind a token keeps to. -/
structure Before (locale : Locale) (token : Token) (rest : List Char) : Prop where
  closes : token.completes → ∀ c ∈ rest.head?, closesWord c
  word : token.kind = .operand → Closes locale (token.spell locale) rest
  starts : token.isInfixOp || token.isPrefixOp → ∀ c ∈ rest.head?, startsText c

section

variable {locale : Locale} {formula : String} {token : Token} {tokens back : List Token}
  {rest : List Char} {openings openings' openings'' : List Opening}

theorem before_of_heralds (hchain : (token :: back).IsChain (Apart locale))
    (h : Heralds locale back rest) : Before locale token rest := by
  obtain ⟨hnil, hcons⟩ := h
  cases back with
  | nil =>
    rw [hnil rfl]
    exact ⟨by simp, fun _ => by simp [Closes], by simp⟩
  | cons next back =>
    have hapart : Apart locale token next := (List.isChain_cons_cons.1 hchain).1
    obtain ⟨c, hc, hheads⟩ := hcons next rfl
    have hone : ∀ {P : Char → Prop}, P c → ∀ d ∈ rest.head?, P d := by
      intro P h d hd
      rw [Option.mem_unique hd hc]
      exact h
    have hcloses : token.completes → closesWord c :=
      fun hcompletes => hheads.continues (hapart.follows.behind hcompletes)
    refine ⟨fun hcompletes => hone (hcloses hcompletes), fun hoperand => ?_,
      fun hawaits => hone (hheads.begins (hapart.follows.ahead hawaits))⟩
    have hcompletes : token.completes := by simp [Token.completes, hoperand]
    refine hone ⟨hcloses hcompletes, ?_⟩
    by_cases hoperator : next.isInfixOp
    · have hparted := hapart.parted
      rw [Token.joins, hheads.operator hoperator, hoperator, hoperand] at hparted
      simpa using hparted
    · obtain ⟨hseparator, hplus, hminus⟩ :=
        hheads.bracket (hapart.follows.behind hcompletes) (by simpa using hoperator)
      have hone : Closes locale (token.spell locale) [c] := closes_of fun d hd => by
        cases hd
        exact ⟨hcloses hcompletes, hseparator, fun _ => ⟨hplus, hminus⟩⟩
      exact (hone c rfl).2

/-! ## Parts of the text -/

/-- An opening as far as a scan looks at it later. -/
def Opening.form : Opening → Opening
  | .bracket token => .bracket ⟨"", token.kind, .start, 0, 0⟩
  | .array _ => .array 0
  | .arrayRow _ => .arrayRow 0

theorem separates_form {openings openings' : List Opening}
    (h : openings.map Opening.form = openings'.map Opening.form) :
    separates locale openings = separates locale openings' := by
  have hform : ∀ openings,
      separates locale (openings.map Opening.form) = separates locale openings := by
    intro openings
    cases openings with
    | nil => rfl
    | cons opening outer => cases opening <;> rfl
  rw [← hform openings, h, hform]

/-- What tokens of a formula are written as. -/
def written (locale : Locale) (formula : String) (tokens : List Token) : List Char :=
  (String.join (tokens.map (respelled locale formula))).toList

theorem written_append (front back : List Token) :
    written locale formula (front ++ back) =
      written locale formula front ++ written locale formula back := by
  rw [written, List.map_append, String.join_append, String.toList_append]
  rfl

theorem written_single (token : Token) :
    written locale formula [token] = (respelled locale formula token).toList := by
  rw [written, List.map_singleton, String.join_cons, String.join_nil, String.append_empty]

/-- What tokens are written as is scanned as raw tokens that recover them, between brackets of the
same forms. -/
structure Rescans (locale : Locale) (formula : String) (openings : List Opening)
    (tokens : List Token) (openings' : List Opening) : Prop where
  heralds {back : List Token} {rest : List Char} : Heralds locale back rest →
    Heralds locale (tokens ++ back) (written locale formula tokens ++ rest)
  passes {s : State} {back : List Token} {rest : List Char} : Idle s →
    s.openings.map Opening.form = openings.map Opening.form →
    (tokens ++ back).IsChain (Apart locale) → Heralds locale back rest →
    ∃ opened, opened.map Opening.form = openings'.map Opening.form ∧
      PassesInto locale opened s (written locale formula tokens) rest
        (List.Forall₂ (Recovers locale) tokens)

theorem rescans_nil : Rescans locale formula openings [] openings where
  heralds h := h
  passes {s _ rest} hidle hopenings _ _ := by
    have hnil : Passes locale s [] rest (· = []) := passes_nil hidle
    refine ⟨s.openings, hopenings, hnil.imp ?_⟩
    rintro _ rfl
    exact .nil

theorem Rescans.append {tokens' : List Token} (h : Rescans locale formula openings tokens openings')
    (h' : Rescans locale formula openings' tokens' openings'') :
    Rescans locale formula openings (tokens ++ tokens') openings'' where
  heralds hback := by
    rw [written_append, List.append_assoc, List.append_assoc]
    exact h.heralds (h'.heralds hback)
  passes {s back rest} hidle hopenings hchain hback := by
    rw [List.append_assoc] at hchain
    obtain ⟨opened, hopened, hfront⟩ := h.passes hidle hopenings hchain (h'.heralds hback)
    obtain ⟨s', front, hrun, hbeyond, hrecovers⟩ := hfront
    obtain ⟨opened', hopened', hpasses⟩ := h'.passes hbeyond.idle (hbeyond.openings ▸ hopened)
      (List.isChain_append.1 hchain).2.1 hback
    obtain ⟨s'', back', hrun', hbeyond', hrecovers'⟩ := hpasses
    refine ⟨opened', hopened', s'', front ++ back', ?_, hbeyond.trans hbeyond', ?_⟩
    · rw [written_append, List.append_assoc, hrun, hrun']
    · exact List.rel_append hrecovers hrecovers'

/-- One token. -/
theorem rescans_single {text : String} (htext : respelled locale formula token = text)
    (hhead : ∃ c ∈ text.toList.head?, Heads locale token c)
    (hpasses : ∀ s rest, Idle s → s.openings.map Opening.form = openings.map Opening.form →
      Before locale token rest → ∃ opened, opened.map Opening.form = openings'.map Opening.form ∧
        PassesInto locale opened s text.toList rest fun raws =>
          ∃ raw, raws = [raw] ∧ Recovers locale token raw) :
    Rescans locale formula openings [token] openings' where
  heralds {back rest} _ := by
    obtain ⟨c, hc, hheads⟩ := hhead
    refine ⟨by simp, fun next hnext => ?_⟩
    cases hnext
    obtain ⟨tail, htail⟩ := List.head?_eq_some_iff.1 hc
    refine ⟨c, ?_, hheads⟩
    rw [written_single, htext, htail]
    rfl
  passes {s back rest} hidle hopenings hchain hback := by
    obtain ⟨opened, hopened, hinto⟩ := hpasses s rest hidle hopenings (before_of_heralds hchain hback)
    refine ⟨opened, hopened, ?_⟩
    rw [written_single, htext]
    refine hinto.imp ?_
    rintro _ ⟨raw, rfl, hrecovers⟩
    exact .cons hrecovers .nil

/-- One token that opens and closes nothing. -/
theorem rescans_plain {text : String} (htext : respelled locale formula token = text)
    (hhead : ∃ c ∈ text.toList.head?, Heads locale token c)
    (hpasses : ∀ s rest, Idle s → separates locale s.openings = separates locale openings →
      Before locale token rest → Passes locale s text.toList rest fun raws =>
        ∃ raw, raws = [raw] ∧ Recovers locale token raw) :
    Rescans locale formula openings [token] openings :=
  rescans_single htext hhead fun s rest hidle hopenings hbefore =>
    ⟨s.openings, hopenings, hpasses s rest hidle (separates_form hopenings) hbefore⟩

/-! ### First characters -/

theorem heads_of_begins {c : Char} (h : token.begins) (hc : startsText c) : Heads locale token c := by
  have hcontinues : token.continues = false := Token.not_continues_of_begins h
  refine ⟨fun _ => hc, fun h => ?_, fun h => ?_, fun h => ?_⟩
  · rw [hcontinues] at h
    cases h
  · simp [Token.continues, h] at hcontinues
  · rw [hcontinues] at h
    cases h

theorem heads_of_starts {text : String} (h : token.begins) (hstarts : Expr.Starts text) :
    ∃ c ∈ text.toList.head?, Heads locale token c := by
  obtain ⟨c, tail, htext, hc⟩ := hstarts
  exact ⟨c, by rw [htext]; rfl, heads_of_begins h hc⟩

theorem heads_of_operator {c : Char} (h : token.isInfixOp) (hc : closesWord c)
    (hspell : (token.spell locale).toList.head? = some c) : Heads locale token c := by
  have hcontinues : token.continues := by simp [Token.continues, h]
  refine ⟨fun hbegins => ?_, fun _ => hc, fun _ => hspell, fun _ hno => ?_⟩
  · rw [Token.not_continues_of_begins hbegins] at hcontinues
    cases hcontinues
  · rw [h] at hno
    cases hno

theorem heads_of_closer {c : Char} (h : token.continues) (hno : token.isInfixOp = false)
    (hc : c ∈ [')', '\x7d', ';', '%'] ∨ c = locale.argumentSeparator) : Heads locale token c := by
  have hplain : ∀ locale : Locale, ∀ c ∈ [')', '\x7d', ';', '%', locale.argumentSeparator],
      closesWord c ∧ c ≠ locale.decimalSeparator ∧ c ≠ '+' ∧ c ≠ '-' := by
    intro locale
    cases locale <;> exact List.all_iff_forall_prop.1 (by decide)
  obtain ⟨hcloses, hothers⟩ := hplain locale c (by
    rcases hc with hc | hc
    · exact List.mem_append_left [locale.argumentSeparator] hc
    · simp [hc])
  refine ⟨fun hbegins => ?_, fun _ => hcloses, fun h => ?_, fun _ _ => hothers⟩
  · rw [Token.not_continues_of_begins hbegins] at h
    cases h
  · rw [hno] at h
    cases h

/-! ### Operands -/

theorem slice_eq {value : String} {start stop : Nat}
    (hcovers : Covers formula.toList start stop value.toList) :
    Text.slice formula start stop = value := by
  rw [slice_of_covers hcovers, String.ofList_toList]

/-- What becomes of a word is written as a word that becomes the same. -/
theorem resolved_word {value : String} {start stop : Nat}
    (hcovers : Covers formula.toList start stop value.toList) (h : Word locale value)
    (htoken : resolveOperand locale ⟨value, .operand, .unspecified, start, stop⟩ = token) :
    ∃ word, Word locale word ∧ respelled locale formula token = word ∧ token.spell locale = word ∧
      ∀ start' stop', label (resolveOperand locale ⟨word, .operand, .unspecified, start', stop'⟩) =
        token.label := by
  have hslice := slice_eq hcovers
  have hsame : ∀ start' stop',
      label (resolveOperand locale ⟨value, .operand, .unspecified, start', stop'⟩) = token.label := by
    intro start' stop'
    rw [← htoken]
    unfold resolveOperand
    dsimp only
    split_ifs
    · rfl
    · split <;> rfl
  by_cases hnumber : (locale.readNumber? value).isSome
  · rw [resolveOperand, if_pos hnumber] at htoken
    subst htoken
    exact ⟨value, h, hslice, Token.spellNumber_canonical hnumber, hsame⟩
  rw [resolveOperand, if_neg hnumber] at htoken
  cases hlogical : locale.readLogical? value with
  | none =>
    simp only [hlogical] at htoken
    subst htoken
    exact ⟨value, h, hslice, rfl, hsame⟩
  | some logical =>
    simp only [hlogical] at htoken
    subst htoken
    refine ⟨locale.logicalLiteral logical, Locale.word_logicalLiteral,
      Token.respelled_logical (hslice ▸ hlogical), ?_, fun start' stop' => ?_⟩
    · show locale.logicalLiteral (Locale.enUS.logicalLiteral logical == "TRUE") = _
      cases logical <;> rfl
    · have hgist : Token.gist locale
          ⟨locale.logicalLiteral logical, .operand, .unspecified, start', stop'⟩ =
          ⟨Locale.enUS.logicalLiteral logical, .operand, .logical, 0, 0⟩ :=
        Locale.gist_logicalLiteral
      rw [Token.gist_operand rfl rfl] at hgist
      have hlabel := congrArg label hgist
      exact hlabel

theorem rescans_word {value : String} {start stop : Nat}
    (hcovers : Covers formula.toList start stop value.toList) (h : Word locale value)
    (htoken : resolveOperand locale ⟨value, .operand, .unspecified, start, stop⟩ = token) :
    Rescans locale formula openings [token] openings := by
  obtain ⟨word, hword, htext, hspell, hlabel⟩ := resolved_word hcovers h htoken
  have hkind : token.kind = .operand := htoken ▸ Token.kind_resolveOperand _
  refine rescans_plain htext ?_ fun s rest hidle _ hbefore => ?_
  · exact heads_of_starts (by simp [Token.begins, hkind]) (Expr.starts_word hword)
  · have hcloses := hbefore.word hkind
    rw [hspell] at hcloses
    refine (passes_word hidle hword hcloses).imp ?_
    rintro _ ⟨start', stop', rfl⟩
    exact ⟨_, rfl, recovers_word (hlabel start' stop')⟩

theorem rescans_error {value : String} {start stop : Nat}
    (hcovers : Covers formula.toList start stop value.toList) (h : ErrorWord locale value) :
    Rescans locale formula openings [⟨value, .operand, .error, start, stop⟩] openings := by
  refine rescans_plain (slice_eq hcovers) ?_ fun s rest hidle _ _ => ?_
  · exact heads_of_starts rfl (Expr.starts_errorWord h)
  · refine (passes_errorWord hidle h).imp ?_
    rintro _ ⟨start', stop', rfl⟩
    exact ⟨_, rfl, recovers_of_label rfl (by simp) (by simp)⟩

theorem rescans_text {value : String} {start stop : Nat}
    (htext : respelled locale formula ⟨value, .operand, .text, start, stop⟩ = Text.quoted value) :
    Rescans locale formula openings [⟨value, .operand, .text, start, stop⟩] openings := by
  refine rescans_plain htext ⟨'"', ?_, heads_of_begins rfl (by decide)⟩ fun s rest hidle _ hbefore => ?_
  · simp [Text.quoted]
  · refine (passes_text value hidle fun hquote => ?_).imp ?_
    · exact absurd (hbefore.closes rfl '"' hquote) (by decide)
    · rintro _ ⟨start', stop', rfl⟩
      exact ⟨_, rfl, recovers_of_label rfl (by simp) (by simp)⟩

/-! ### Operators -/

/-- The binary operators among the signs. -/
theorem sign_infix {value : String} {subkind : Token.Subkind}
    (h : (value, Token.Kind.infixOp, subkind) ∈ signs) :
    (∃ precedence, Operator.binaryPrecedence? value = some precedence) ∧ value ≠ " " ∧
      subkind = operatorSubkind value ∧ ∃ c ∈ value.toList.head?, closesWord c := by
  have hsigns : ∀ sign ∈ signs, sign.2.1 = .infixOp →
      (Operator.binaryPrecedence? sign.1).isSome ∧ sign.1 ≠ " " ∧
        sign.2.2 = operatorSubkind sign.1 ∧ sign.1.toList.head?.any closesWord := by decide
  obtain ⟨hprecedence, hspace, hsubkind, hhead⟩ := hsigns _ h rfl
  exact ⟨Option.isSome_iff_exists.1 hprecedence, hspace, hsubkind, (Option.any_eq_true _ _).1 hhead⟩

/-- Only the minus sign becomes a prefix operator. -/
theorem value_of_prefix {previous : Option Token} {raw : Token} (hkind : raw.kind = .infixOp)
    (h : (resolveOne locale previous raw).isPrefixOp) : raw.value = "-" := by
  by_contra hminus
  unfold resolveOne Token.resolveSign at h
  rw [hkind] at h
  simp only [if_neg hminus, Token.isPrefixOp, beq_iff_eq] at h
  split_ifs at h
  simp_all

/-- What becomes of a sign that is kept: an operator with its text, and only the minus sign stands in
front of its operand. -/
theorem resolved_sign {value : String} {subkind : Token.Subkind} {start stop : Nat}
    {previous : Option Token} (hsign : (value, Token.Kind.infixOp, subkind) ∈ signs)
    (hcovers : Covers formula.toList start stop value.toList)
    (htoken : resolveOne locale previous ⟨value, .infixOp, subkind, start, stop⟩ = token)
    (hnoop : token.kind ≠ .noop) :
    token.spell locale = value ∧ respelled locale formula token = value ∧
      (token.isInfixOp ∨ token.isPrefixOp ∧ value = "-") := by
  obtain ⟨kind', subkind', heq, hverbatim⟩ : ∃ kind' subkind',
      resolveOne locale previous ⟨value, .infixOp, subkind, start, stop⟩ =
        ⟨value, kind', subkind', start, stop⟩ ∧ (kind', subkind') ∈ Token.verbatimKinds :=
    Token.resolveOne_infix (plain_of_signs hsign)
  have hkinds : token.kind = .infixOp ∨ token.kind = .prefixOp ∨ token.kind = .noop :=
    htoken ▸ Token.kind_resolveOne_infixOp rfl
  have hminus : token.isPrefixOp → value = "-" := fun hunary => by
    rw [← htoken] at hunary
    exact value_of_prefix rfl hunary
  obtain rfl := htoken.symm.trans heq
  obtain ⟨hspell, hrespelled⟩ : Token.spell locale ⟨value, kind', subkind', start, stop⟩ = value ∧
      respelled locale formula _ = Text.slice formula start stop := Token.spell_verbatim hverbatim
  refine ⟨hspell, hrespelled.trans (slice_eq hcovers), ?_⟩
  rcases hkinds with h | h | h
  · exact .inl (by simpa [Token.isInfixOp] using h)
  · have hunary : Token.isPrefixOp ⟨value, kind', subkind', start, stop⟩ := by
      simpa [Token.isPrefixOp] using h
    exact .inr ⟨hunary, hminus hunary⟩
  · exact absurd h hnoop

theorem rescans_operator {value : String} {subkind : Token.Subkind} {start stop : Nat}
    (previous : Option Token) (hsign : (value, Token.Kind.infixOp, subkind) ∈ signs)
    (hcovers : Covers formula.toList start stop value.toList)
    (hfits : Fits locale openings value .infixOp)
    (htoken : resolveOne locale previous ⟨value, .infixOp, subkind, start, stop⟩ = token)
    (hnoop : token.kind ≠ .noop) : Rescans locale formula openings [token] openings := by
  obtain ⟨⟨precedence, hprecedence⟩, hspace, hsubkind, c, hc, hcloses⟩ := sign_infix hsign
  obtain ⟨hspell, htext, hawaits⟩ := resolved_sign hsign hcovers htoken hnoop
  refine rescans_plain htext ⟨c, hc, ?_⟩ fun s rest hidle hplace hbefore => ?_
  · rcases hawaits with hoperator | ⟨hunary, rfl⟩
    · exact heads_of_operator hoperator hcloses (by rw [hspell]; exact hc)
    · cases hc
      exact heads_of_begins (by simp [Token.begins, hunary]) (by decide)
  · have hunion : value = "," → locale.argumentSeparator = ',' → s.separatesHere = false := by
      intro hcomma hseparator
      have hnone := hfits.2 rfl hcomma hseparator
      rw [← hplace] at hnone
      cases locale with
      | enUS => rwa [← separates_enUS]
      | deDE => cases hseparator
    have hstarts := hbefore.starts (by rcases hawaits with h | ⟨h, -⟩ <;> simp [h])
    refine (passes_operator hprecedence hidle hunion hstarts).imp ?_
    rintro _ ⟨raw, rfl, hraw⟩
    have hlabel : raw.label = (Token.Kind.infixOp, subkind) := by
      rw [label, hraw.kind, hraw.subkind, if_neg hspace, hsubkind]
    have hintersect : Token.is ⟨value, .infixOp, subkind, start, stop⟩ .infixOp .intersect = false := by
      have hsigns : ∀ sign ∈ signs, sign.2.2 ≠ .intersect := by decide
      simpa [Token.is] using hsigns _ hsign
    rw [← htoken] at hnoop ⊢
    exact ⟨raw, rfl, recovers_operator rfl hintersect hraw.value hlabel hnoop⟩

theorem rescans_intersection {start stop : Nat} :
    Rescans locale formula openings [⟨" ", .infixOp, .intersect, start, stop⟩] openings := by
  have hprecedence : Operator.binaryPrecedence? " " = some 8 := by decide
  have hspace : " " ≠ "," := by decide
  have hspell : Token.spell locale ⟨" ", .infixOp, .intersect, start, stop⟩ = " " := rfl
  have htext : respelled locale formula ⟨" ", .infixOp, .intersect, start, stop⟩ = " " := rfl
  refine rescans_plain htext ⟨' ', rfl, heads_of_operator rfl (by decide) (by rw [hspell]; rfl)⟩
    fun s rest hidle _ hbefore => ?_
  refine (passes_operator hprecedence hidle (fun h => absurd h hspace) (hbefore.starts rfl)).imp ?_
  rintro _ ⟨raw, rfl, hraw⟩
  exact ⟨raw, rfl, .gap rfl (hraw.kind.trans (if_pos rfl)) hraw.value⟩

theorem rescans_percent {start stop : Nat} (hcovers : Covers formula.toList start stop "%".toList) :
    Rescans locale formula openings [⟨"%", .postfixOp, .unspecified, start, stop⟩] openings := by
  refine rescans_plain (slice_eq hcovers) ⟨'%', rfl, heads_of_closer rfl rfl (by simp)⟩
    fun s rest hidle _ _ => ?_
  have htext : "%".toList = ['%'] := rfl
  rw [htext]
  refine (passes_percent hidle).imp ?_
  rintro _ ⟨start', stop', rfl⟩
  exact ⟨_, rfl, recovers_of_label rfl (by simp) (by simp)⟩

theorem rescans_separator {start stop : Nat}
    (hcovers : Covers formula.toList start stop [locale.argumentSeparator])
    (hplace : separates locale openings) :
    Rescans locale formula openings
      [⟨String.singleton locale.argumentSeparator, .argument, .unspecified, start, stop⟩] openings := by
  rw [← String.toList_singleton] at hcovers
  refine rescans_plain (slice_eq hcovers) ⟨locale.argumentSeparator, ?_,
    heads_of_closer rfl rfl (.inr rfl)⟩ fun s rest hidle hsame _ => ?_
  · rw [String.toList_singleton]
    rfl
  · rw [String.toList_singleton]
    refine (passes_separator hidle (hsame.trans hplace)).imp ?_
    rintro _ ⟨start', stop', rfl⟩
    exact ⟨_, rfl, recovers_of_label rfl (by simp) (by simp)⟩

/-! ### Brackets -/

theorem form_bracket {opened openings : List Opening} {opening : Token}
    (h : opened.map Opening.form = (Opening.bracket opening :: openings).map Opening.form) :
    ∃ opening' outer, opened = .bracket opening' :: outer ∧ opening'.kind = opening.kind ∧
      outer.map Opening.form = openings.map Opening.form := by
  obtain ⟨first, outer, rfl, hfirst, houter⟩ := List.map_eq_cons_iff.1 h
  cases first with
  | bracket opening' =>
    have hkind : opening'.kind = opening.kind := by simpa [Opening.form] using hfirst
    exact ⟨opening', outer, rfl, hkind, houter⟩
  | array => cases hfirst
  | arrayRow => cases hfirst

theorem form_row {opened openings : List Opening} {row : Nat}
    (h : opened.map Opening.form = (Opening.arrayRow row :: openings).map Opening.form) :
    ∃ row' outer, opened = .arrayRow row' :: outer ∧
      outer.map Opening.form = openings.map Opening.form := by
  obtain ⟨first, outer, rfl, hfirst, houter⟩ := List.map_eq_cons_iff.1 h
  cases first with
  | bracket => cases hfirst
  | array => cases hfirst
  | arrayRow row' => exact ⟨row', outer, rfl, houter⟩

theorem form_array {opened openings : List Opening} {array : Nat}
    (h : opened.map Opening.form = (Opening.array array :: openings).map Opening.form) :
    ∃ array' outer, opened = .array array' :: outer ∧
      outer.map Opening.form = openings.map Opening.form := by
  obtain ⟨first, outer, rfl, hfirst, houter⟩ := List.map_eq_cons_iff.1 h
  cases first with
  | bracket => cases hfirst
  | array array' => exact ⟨array', outer, rfl, houter⟩
  | arrayRow => cases hfirst

/-- What opens or closes a bracket is recovered by what opens or closes one. -/
theorem recovers_bracket {raw : Token} {kind : Token.Kind} {subkind : Token.Subkind}
    (h : raw.is kind subkind) (htoken : token.is kind subkind)
    (hkind : kind = .function ∨ kind = .subexpr ∨ kind = .argument) : Recovers locale token raw := by
  obtain ⟨hraw, hrawSubkind⟩ := Token.is_iff.1 h
  obtain ⟨htoken, hsubkind⟩ := Token.is_iff.1 htoken
  refine recovers_of_label ?_ ?_ fun hoperand => ?_
  · rw [label, label, hraw, hrawSubkind, htoken, hsubkind]
  · rcases hkind with rfl | rfl | rfl <;> simp [htoken]
  · rw [htoken] at hoperand
    rcases hkind with rfl | rfl | rfl <;> cases hoperand

theorem rescans_group {start stop : Nat} (hcovers : Covers formula.toList start stop "(".toList) :
    Rescans locale formula openings [⟨"", .subexpr, .start, start, stop⟩]
      (.bracket ⟨"", .subexpr, .start, start, stop⟩ :: openings) := by
  refine rescans_single (slice_eq hcovers) ⟨'(', rfl, heads_of_begins rfl (by decide)⟩
    fun s rest hidle hopenings _ => ?_
  obtain ⟨opening, ⟨hopens, -⟩, hpasses⟩ : ∃ opening : Token,
      (opening.opensGroup ∧ opening.value = "") ∧
      PassesInto locale (.bracket opening :: s.openings) s ['('] rest (· = [opening]) :=
    passes_openGroup hidle
  refine ⟨_, ?_, hpasses.imp ?_⟩
  · rw [List.map_cons, List.map_cons, hopenings, Opening.form, (Token.is_iff.1 hopens).1]
    rfl
  · rintro _ rfl
    exact ⟨opening, rfl, recovers_bracket hopens rfl (by simp)⟩

theorem rescans_call {value : String} {start stop : Nat}
    (hcovers : Covers formula.toList start stop (value.toList ++ ['(']))
    (hname : Word locale (withoutAt value)) :
    Rescans locale formula openings [⟨withoutAt value, .function, .start, start, stop⟩]
      (.bracket ⟨value, .function, .start, start, stop⟩ :: openings) := by
  have htext : respelled locale formula ⟨withoutAt value, .function, .start, start, stop⟩ =
      withoutAt value ++ "(" := by
    rw [Token.respelled_start, slice_of_covers hcovers, Token.withoutAt_push]
  refine rescans_single htext ?_ fun s rest hidle hopenings _ => ?_
  · exact heads_of_starts rfl (Expr.starts_append (Expr.starts_word hname) "(")
  · obtain ⟨opening, ⟨hopens, -⟩, hpasses⟩ : ∃ opening : Token,
        (opening.opensCall ∧ opening.value = withoutAt value) ∧
        PassesInto locale (.bracket opening :: s.openings) s ((withoutAt value).toList ++ ['(']) rest
          (· = [opening]) := passes_openCall hidle hname
    rw [String.toList_append]
    refine ⟨_, ?_, hpasses.imp ?_⟩
    · rw [List.map_cons, List.map_cons, hopenings, Opening.form, (Token.is_iff.1 hopens).1]
      rfl
    · rintro _ rfl
      exact ⟨opening, rfl, recovers_bracket hopens rfl (by simp)⟩

theorem rescans_close {opening : Token} {start stop : Nat}
    (hkind : opening.kind = .function ∨ opening.kind = .subexpr)
    (hcovers : Covers formula.toList start stop ")".toList) :
    Rescans locale formula (.bracket opening :: openings) [⟨"", opening.kind, .stop, start, stop⟩]
      openings := by
  have hcloses : Token.closesBracket ⟨"", opening.kind, .stop, start, stop⟩ := by
    rcases hkind with h | h <;> rw [h] <;> rfl
  have htext : respelled locale formula ⟨"", opening.kind, .stop, start, stop⟩ = ")" := by
    rcases hkind with h | h <;> rw [h] <;> exact slice_eq hcovers
  have hoperator : Token.isInfixOp ⟨"", opening.kind, .stop, start, stop⟩ = false := by
    rcases hkind with h | h <;> rw [h] <;> rfl
  refine rescans_single htext ⟨')', rfl, heads_of_closer (by simp [Token.continues, hcloses]) hoperator
    (by simp)⟩ fun s rest hidle hopenings _ => ?_
  obtain ⟨opening', outer, hopen, hsame, houter⟩ := form_bracket hopenings
  have hpasses : PassesInto locale outer s [')'] rest _ := passes_closeGroup hidle hopen
  refine ⟨outer, houter, hpasses.imp ?_⟩
  rintro _ ⟨close, rfl, hclose, -⟩
  rw [hsame] at hclose
  exact ⟨close, rfl, recovers_bracket hclose (by simp [Token.is])
    (hkind.imp id .inl)⟩

/-! ### Arrays -/

theorem rescans_array {array row start stop : Nat}
    (hcovers : Covers formula.toList start stop "\x7b".toList) :
    Rescans locale formula openings
      [⟨Token.arrayName, .function, .start, start, stop⟩,
       ⟨Token.arrayRowName, .function, .start, stop, stop⟩]
      (.arrayRow row :: .array array :: openings) := by
  have htext : written locale formula [⟨Token.arrayName, .function, .start, start, stop⟩,
      ⟨Token.arrayRowName, .function, .start, stop, stop⟩] = ['\x7b'] := by
    rw [← List.singleton_append, written_append, written_single, written_single, Token.respelled_start,
      Token.respelled_start, slice_eq hcovers, Token.slice_stop hcovers]
    rfl
  refine ⟨fun _ => ⟨by simp, fun next hnext => ?_⟩, fun {s _ rest} hidle hopenings _ _ => ?_⟩
  · cases hnext
    rw [htext]
    exact ⟨'\x7b', rfl, heads_of_begins rfl (by decide)⟩
  · rw [htext]
    have hpasses : PassesInto locale (.arrayRow s.offset :: .array s.offset :: s.openings) s ['\x7b']
        rest _ := passes_openArray hidle
    refine ⟨_, ?_, hpasses.imp ?_⟩
    · rw [List.map_cons, List.map_cons, hopenings]
      rfl
    · rintro _ ⟨array', row', rfl, ⟨harray, -⟩, hrow, -⟩
      exact .cons (recovers_bracket harray rfl (by simp))
        (.cons (recovers_bracket hrow rfl (by simp)) .nil)

theorem rescans_nextRow {row start stop : Nat} (hcovers : Covers formula.toList start stop ";".toList) :
    Rescans locale formula (.arrayRow row :: openings)
      [⟨"", .function, .stop, start, start⟩, ⟨";", .argument, .unspecified, start, stop⟩,
       ⟨Token.arrayRowName, .function, .start, stop, stop⟩] (.arrayRow row :: openings) := by
  have hseparator : respelled locale formula ⟨";", .argument, .unspecified, start, stop⟩ = ";" :=
    slice_eq hcovers
  have htext : written locale formula [⟨"", .function, .stop, start, start⟩,
      ⟨";", .argument, .unspecified, start, stop⟩,
      ⟨Token.arrayRowName, .function, .start, stop, stop⟩] = [';'] := by
    simp only [written, List.map_cons, List.map_nil, String.join_cons, String.join_nil,
      Token.respelled_start, Token.respelled_stop, Token.slice_start hcovers, Token.slice_stop hcovers,
      hseparator]
    rfl
  refine ⟨fun _ => ⟨by simp, fun next hnext => ?_⟩, fun {s _ rest} hidle hopenings _ _ => ?_⟩
  · cases hnext
    rw [htext]
    exact ⟨';', rfl, heads_of_closer rfl rfl (by simp)⟩
  · rw [htext]
    obtain ⟨row', outer, hopen, houter⟩ := form_row hopenings
    have hpasses : PassesInto locale (.arrayRow row' :: outer) s [';'] rest _ :=
      passes_nextRow hidle hopen
    refine ⟨_, ?_, hpasses.imp ?_⟩
    · rw [List.map_cons, List.map_cons, houter]
      rfl
    · rintro _ ⟨close, separator, next, rfl, hclose, hseparates, hnext, -⟩
      exact .cons (recovers_bracket hclose rfl (by simp))
        (.cons (recovers_bracket hseparates rfl (by simp))
          (.cons (recovers_bracket hnext rfl (by simp)) .nil))

theorem rescans_closeArray {array row start stop : Nat}
    (hcovers : Covers formula.toList start stop "\x7d".toList) :
    Rescans locale formula (.arrayRow row :: .array array :: openings)
      [⟨"", .function, .stop, start, start⟩, ⟨"", .function, .stop, start, stop⟩] openings := by
  have htext : written locale formula [⟨"", .function, .stop, start, start⟩,
      ⟨"", .function, .stop, start, stop⟩] = ['\x7d'] := by
    simp only [written, List.map_cons, List.map_nil, String.join_cons, String.join_nil,
      Token.respelled_stop, Token.slice_start hcovers, slice_eq hcovers]
    rfl
  refine ⟨fun _ => ⟨by simp, fun next hnext => ?_⟩, fun {s _ rest} hidle hopenings _ _ => ?_⟩
  · cases hnext
    rw [htext]
    exact ⟨'\x7d', rfl, heads_of_closer rfl rfl (by simp)⟩
  · rw [htext]
    obtain ⟨row', inside, hopen, hinside⟩ := form_row hopenings
    obtain ⟨array', outer, rfl, houter⟩ := form_array hinside
    have hpasses : PassesInto locale outer s ['\x7d'] rest _ := passes_closeArray hidle hopen
    refine ⟨outer, houter, hpasses.imp ?_⟩
    rintro _ ⟨close, close', rfl, hclose, hclose'⟩
    exact .cons (recovers_bracket hclose rfl (by simp))
      (.cons (recovers_bracket hclose' rfl (by simp)) .nil)

/-! ## Pieces -/

/-- What a token has to keep to so that its text is a token again. -/
structure Sayable (token : Token) : Prop where
  known : token.begins || token.continues
  recognised : token.kind ≠ .unknown
  named : token.opensCall → token.value ≠ ""

theorem rescans_of_plain {value : String} {kind : Token.Kind} {subkind : Token.Subkind}
    {start stop : Nat} (hkind : (kind, subkind) ∈ plainKinds)
    (hcovers : Covers formula.toList start stop value.toList) (hfits : Fits locale openings value kind)
    (hshape : Shape locale ⟨value, kind, subkind, start, stop⟩)
    (hthinned : Thinned locale [⟨value, kind, subkind, start, stop⟩] tokens)
    (hsayable : ∀ token ∈ tokens, Sayable token) :
    Rescans locale formula openings tokens openings := by
  cases hthinned with
  | drop _ h => cases h; exact rescans_nil
  | gap hspace h =>
    cases hspace
    simp [plainKinds] at hkind
  | keep previous _ h =>
    cases h
    have htoken := hsayable _ List.mem_cons_self
    by_cases hoperator : kind = .infixOp
    · subst hoperator
      have hsign : (value, Token.Kind.infixOp, subkind) ∈ signs := by
        cases hshape with
        | sign hsign => exact hsign
        | close h => rcases h with h | h <;> cases h
      exact rescans_operator previous hsign hcovers hfits rfl (Token.kind_ne_noop htoken.known)
    · simp only [plainKinds, List.mem_cons, List.not_mem_nil, or_false, Prod.mk.injEq, hoperator,
        false_and, false_or] at hkind
      rcases hkind with ⟨rfl, rfl⟩ | ⟨rfl, rfl⟩ | ⟨rfl, rfl⟩ | ⟨rfl, rfl⟩ | ⟨rfl, rfl⟩
      · rw [Token.resolveOne_word]
        cases hshape with
        | word hword => exact rescans_word hcovers hword rfl
        | sign hsign => simp [signs] at hsign
      · cases hshape with
        | errorValue hword => exact rescans_error hcovers hword
        | sign hsign => simp [signs] at hsign
      · exact absurd rfl htoken.recognised
      · obtain ⟨rfl, hplace⟩ := hfits.1 rfl
        rw [String.toList_singleton] at hcovers
        exact rescans_separator hcovers hplace
      · cases hshape with
        | sign hsign =>
          have hvalue : value = "%" := by simpa [signs] using hsign
          subst hvalue
          exact rescans_percent hcovers

/-- A piece is scanned again. -/
theorem rescans_piece {raws : List Token} (hpiece : Piece locale formula.toList openings raws openings')
    (hthinned : Thinned locale raws tokens) (hshapes : ∀ raw ∈ raws, Shape locale raw)
    (hsayable : ∀ token ∈ tokens, Sayable token)
    (hstop : openings = [] → ∀ raw ∈ raws, raw.subkind ≠ .stop) :
    Rescans locale formula openings tokens openings' := by
  cases hpiece with
  | plain hkind hcovers hfits =>
    exact rescans_of_plain hkind hcovers hfits (hshapes _ List.mem_cons_self) hthinned hsayable
  | gap _ =>
    cases hthinned with
    | drop _ h => cases h; exact rescans_nil
    | gap _ h => cases h; exact rescans_intersection
    | keep _ hkind => exact absurd rfl hkind
  | text hcovers =>
    obtain ⟨_, _, rfl, hnil⟩ := hthinned.cons_inv (by simp) (by simp)
    cases hnil
    exact rescans_text (Token.respelled_quoted hcovers)
  | openText hcovers hend =>
    obtain ⟨_, _, rfl, hnil⟩ := hthinned.cons_inv (by simp) (by simp)
    cases hnil
    exact rescans_text (Token.respelled_open hcovers hend)
  | group hcovers =>
    obtain rfl := hthinned.eq_self (by simp) (by simp [Token.withoutAt_empty])
    exact rescans_group hcovers
  | @call _ value start stop hcovers =>
    obtain ⟨_, _, rfl, hnil⟩ := hthinned.cons_inv (by simp) (by simp)
    cases hnil
    rw [Token.resolveOne_function] at hsayable ⊢
    have hname : withoutAt value ≠ "" := (hsayable _ List.mem_cons_self).named rfl
    have hword : Word locale value := by
      cases hshapes _ List.mem_cons_self with
      | call hword => exact hword
      | sign hsign => simp [signs] at hsign
    exact rescans_call hcovers ((Token.word_withoutAt hword).resolve_left hname)
  | close hkind hcovers =>
    obtain rfl := hthinned.eq_self (by simpa using hkind.imp_right .inl)
      (by simp [Token.withoutAt_empty])
    exact rescans_close hkind hcovers
  | closeNothing => exact absurd rfl (hstop rfl _ List.mem_cons_self)
  | array hcovers =>
    obtain rfl := hthinned.eq_self (by simp)
      (by simp [Token.withoutAt_arrayName, Token.withoutAt_arrayRowName])
    exact rescans_array hcovers
  | nextRow hcovers =>
    obtain rfl := hthinned.eq_self (by simp)
      (by simp [Token.withoutAt_empty, Token.withoutAt_semicolon, Token.withoutAt_arrayRowName])
    exact rescans_nextRow hcovers
  | closeArray hcovers =>
    obtain rfl := hthinned.eq_self (by simp) (by simp [Token.withoutAt_empty])
    exact rescans_closeArray hcovers

/-- The text that the tokens of pieces are written as is scanned again, where every stop closes a
bracket. -/
theorem rescans_pieces {raws : List Token} (hpieces : Pieces locale formula.toList raws openings)
    (hthinned : Thinned locale raws tokens) (hshapes : ∀ raw ∈ raws, Shape locale raw)
    (hsayable : ∀ token ∈ tokens, Sayable token) (haccepted : Token.AllAccepted raws) :
    Rescans locale formula [] tokens openings := by
  induction hpieces generalizing tokens with
  | nil => cases hthinned; exact rescans_nil
  | @concat raws openings more openings' hpieces hpiece ih =>
    obtain ⟨front, back, rfl, hfront, hback⟩ := hthinned.append
    obtain ⟨haccepted, hmore⟩ := allAccepted_append.1 haccepted
    refine (ih hfront (fun raw hr => hshapes raw (List.mem_append_left _ hr))
      (fun token ht => hsayable token (List.mem_append_left _ ht)) haccepted).append
      (rescans_piece hpiece hback (fun raw hr => hshapes raw (List.mem_append_right _ hr))
        (fun token ht => hsayable token (List.mem_append_right _ ht)) ?_)
    rintro rfl
    have hnone : Token.openStarts raws = [] := by
      simpa using hpieces.kept.kinds
    cases hpiece with
    | closeNothing =>
      rw [hnone] at hmore
      exact absurd rfl ((acceptedFrom_single.1 hmore).1 rfl)
    | plain hkind =>
      intro raw hr
      cases List.mem_singleton.1 hr
      exact (plain_of_plainKinds hkind).2
    | gap | text | openText | group | call | array =>
      simp

end

end Scan

end SheetFormula
