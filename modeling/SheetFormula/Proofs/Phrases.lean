import SheetFormula.Proofs.Literals

/-!
# One expression in two locales

Main statement: `Formula.parse_write`, that an expression without unions, written for each of the two
locales, means the same in both.

1. A `Phrase` is an expression as it is written, in the parts that the locales spell differently and
   the parts that they spell alike. `Phrase.write` is its text in a locale.
2. `Lockstep` says that the scans of both locales get over a text with tokens of the same gists,
   wherever the text can stand. Each constructor keeps it.
-/

namespace SheetFormula

open Scan

/-- A binary operator that is not the union of two references. -/
structure Joint where
  symbol : String
  precedence : Nat
  isOperator : Operator.binaryPrecedence? symbol = some precedence
  ne_union : symbol ≠ ","

mutual

/-- An expression as it is written. -/
inductive Phrase where
  | number (numeral : Numeral)
  | text (value : String)
  | logical (value : Bool)
  | reference (first : CellName) (last : Option CellName)
  | errorValue (literal : String) (h : literal ∈ errorLiterals)
  | group (inner : Phrase)
  | minus (operand : Phrase)
  | percent (operand : Phrase)
  | binary (joint : Joint) (left right : Phrase)
  | call (name : Letters) (slots : Slots)

/-- The arguments of a call. Any of them may be left out. -/
inductive Slots where
  | empty
  | last (arg : Phrase)
  | skip (rest : Slots)
  | cons (arg : Phrase) (rest : Slots)

end

mutual

/-- The text of an expression in a locale. -/
def Phrase.write (locale : Locale) : Phrase → String
  | .number numeral => numeral.write locale
  | .text value => Text.quoted value
  | .logical value => locale.logicalLiteral value
  | .reference first last => CellName.range first last
  | .errorValue literal _ => literal
  | .group inner => "(" ++ inner.write locale ++ ")"
  | .minus operand => "-" ++ operand.write locale
  | .percent operand => operand.write locale ++ "%"
  | .binary joint left right => left.write locale ++ joint.symbol ++ right.write locale
  | .call name slots => String.ofList name.chars ++ "(" ++ slots.write locale ++ ")"

/-- The text of arguments in a locale, with separators between them. -/
def Slots.write (locale : Locale) : Slots → String
  | .empty => ""
  | .last arg => arg.write locale
  | .skip rest => String.singleton locale.argumentSeparator ++ rest.write locale
  | .cons arg rest =>
    arg.write locale ++ String.singleton locale.argumentSeparator ++ rest.write locale

end

namespace Scan

/-! ## Lockstep -/

section

variable {locale : Locale} {s : State} {rest : List Char} {token : Token}

/-- Whether a text may stand behind an expression: it ends a word, and no number goes on with it. -/
def Ends (locale : Locale) (rest : List Char) : Prop :=
  ∀ c ∈ rest.head?, closesWord c ∧ c ≠ locale.decimalSeparator

/-- Whether a text that depends on the locale is passed in all locales with tokens of the same
gists. -/
def Lockstep (write : Locale → String) : Prop :=
  ∃ gists, ∀ locale s rest, Idle s → Ends locale rest →
    Passes locale s (write locale).toList rest fun tokens => tokens.map (Token.gist locale) = gists

/-- The same of the arguments of a call, up to the end of the call. -/
def LockstepSlots (write : Locale → String) : Prop :=
  ∃ gists, ∀ locale s rest, Idle s → separates locale s.openings →
    Passes locale s (write locale).toList (')' :: rest) fun tokens =>
      tokens.map (Token.gist locale) = gists

theorem ends_cons {c : Char} (hcloses : closesWord c) (hseparator : c ≠ '.' ∧ c ≠ ',') :
    Ends locale (c :: rest) := by
  intro d hd
  cases hd
  refine ⟨hcloses, ?_⟩
  cases locale
  · exact hseparator.1
  · exact hseparator.2

theorem ends_separator : Ends locale (locale.argumentSeparator :: rest) := by
  intro d hd
  cases hd
  cases locale <;> decide

/-- No operator but the union starts with a decimal separator. -/
theorem ends_operator (joint : Joint) : Ends locale (joint.symbol.toList ++ rest) := by
  have hheads : ∀ entry ∈ Operator.binaryTable, entry.1 ≠ "," → entry.1.toList.head?.any fun c =>
      closesWord c && (c != '.' && c != ',') := by decide
  obtain ⟨c, hc, hall⟩ := (Option.any_eq_true _ _).1
    (hheads _ (Operator.mem_binaryTable joint.isOperator) joint.ne_union)
  obtain ⟨tail, htail⟩ := List.head?_eq_some_iff.1 hc
  simp only [Bool.and_eq_true, bne_iff_ne] at hall
  rw [htail]
  exact ends_cons hall.1 hall.2

/-! ### Gists of signs and brackets -/

theorem gist_of_is {kind : Token.Kind} {subkind : Token.Subkind} (h : token.is kind subkind)
    (hkind : kind ≠ .operand ∧ kind ≠ .argument) :
    token.gist locale = ⟨token.value, kind, subkind, 0, 0⟩ := by
  simp only [Token.is, Bool.and_eq_true, beq_iff_eq] at h
  obtain ⟨rfl, rfl⟩ := h
  rw [Token.gist_of_resolved fun hoperand => absurd hoperand hkind.1, Token.essence,
    if_neg hkind.2]

theorem gist_operator {op : String} (h : SpellsOperator op token) :
    token.gist locale =
      ⟨op, if op = " " then .whitespace else .infixOp, operatorSubkind op, 0, 0⟩ := by
  have hkind : token.kind ≠ .operand ∧ token.kind ≠ .argument := by
    rw [h.kind]
    split <;> decide
  have his : token.is token.kind token.subkind := by simp [Token.is]
  rw [gist_of_is his hkind, h.value, h.kind, h.subkind]

/-! ### Literals -/

theorem lockstep_word {write : Locale → String} {gist : Token}
    (hword : ∀ locale, Word locale (write locale))
    (hcloses : ∀ locale rest, Ends locale rest → Closes locale (write locale) rest)
    (hgist : ∀ locale start stop,
      Token.gist locale ⟨write locale, .operand, .unspecified, start, stop⟩ = gist) :
    Lockstep write := by
  refine ⟨[gist], fun locale s rest hidle hends => ?_⟩
  refine (passes_word hidle (hword locale) (hcloses locale rest hends)).imp ?_
  rintro _ ⟨start, stop, rfl⟩
  rw [List.map_singleton, hgist]

theorem lockstep_numeral (numeral : Numeral) : Lockstep numeral.write := by
  refine lockstep_word (fun _ => numeral.word_write) (fun locale rest hends => ?_)
    fun _ _ _ => numeral.gist_write
  refine closes_of fun c hc => ⟨(hends c hc).1, (hends c hc).2, fun hawaits => ?_⟩
  rw [numeral.not_awaitsExponent] at hawaits
  cases hawaits

/-- A name is a word that is no number in any locale. -/
theorem lockstep_name {write : Locale → String} {gist : Token}
    (hword : ∀ locale, Word locale (write locale))
    (hread : ∀ locale, absorbs locale [] .ordinary (write locale).toList [] = some .ordinary)
    (hgist : ∀ locale start stop,
      Token.gist locale ⟨write locale, .operand, .unspecified, start, stop⟩ = gist) :
    Lockstep write :=
  lockstep_word hword
    (fun locale _ hends => closes_of_ordinary (hread locale) fun c hc => (hends c hc).1) hgist

theorem lockstep_text (value : String) : Lockstep fun _ => Text.quoted value := by
  refine ⟨[⟨value, .operand, .text, 0, 0⟩], fun locale s rest hidle hends => ?_⟩
  refine (passes_text value hidle fun hquote => ?_).imp ?_
  · exact absurd (hends _ hquote).1 (by decide)
  · rintro _ ⟨start, stop, rfl⟩
    rfl

theorem lockstep_errorValue {literal : String} (h : literal ∈ errorLiterals) :
    Lockstep fun _ => literal := by
  refine ⟨[⟨literal, .operand, .error, 0, 0⟩], fun locale s rest hidle _ => ?_⟩
  have hword : ErrorWord locale literal := ⟨"", literal, String.empty_append.symm, .inl rfl, h⟩
  refine (passes_errorWord hidle hword).imp ?_
  rintro _ ⟨start, stop, rfl⟩
  rfl

/-! ### Operators -/

theorem Lockstep.group {write : Locale → String} (h : Lockstep write) :
    Lockstep fun locale => "(" ++ write locale ++ ")" := by
  obtain ⟨gists, h⟩ := h
  refine ⟨⟨"", .subexpr, .start, 0, 0⟩ :: (gists ++ [⟨"", .subexpr, .stop, 0, 0⟩]),
    fun locale s rest hidle _ => ?_⟩
  have htext : ("(" ++ write locale ++ ")").toList = ['('] ++ ((write locale).toList ++ [')']) := by
    simp
  rw [htext]
  refine (passes_group hidle fun opening s' _ hidle' _ =>
    h locale s' (')' :: rest) hidle' (ends_cons (by decide) (by decide))).imp ?_
  rintro _ ⟨opening, inner, close, rfl, hopening, rfl, hclose⟩
  rw [List.map_cons, List.map_append, List.map_singleton, gist_of_is hopening.1 (by decide),
    gist_of_is hclose.1 (by decide), hopening.2, hclose.2]

theorem Lockstep.minus {write : Locale → String} (h : Lockstep write) :
    Lockstep fun locale => "-" ++ write locale := by
  obtain ⟨gists, h⟩ := h
  refine ⟨⟨"-", .infixOp, .unspecified, 0, 0⟩ :: gists, fun locale s rest hidle hends => ?_⟩
  have hsign : Passes locale s ['-'] ((write locale).toList ++ rest)
      fun tokens => ∃ start stop, tokens = [⟨"-", .infixOp, .unspecified, start, stop⟩] :=
    passes_sign hidle (by decide) rfl
  rw [String.toList_append]
  refine (hsign.append fun s' hidle' _ => h locale s' rest hidle' hends).imp ?_
  rintro _ ⟨_, tokens, rfl, ⟨start, stop, rfl⟩, rfl⟩
  rfl

theorem Lockstep.percent {write : Locale → String} (h : Lockstep write) :
    Lockstep fun locale => write locale ++ "%" := by
  obtain ⟨gists, h⟩ := h
  refine ⟨gists ++ [⟨"%", .postfixOp, .unspecified, 0, 0⟩], fun locale s rest hidle _ => ?_⟩
  have hoperand := h locale s ("%".toList ++ rest) hidle (ends_cons (by decide) (by decide))
  rw [String.toList_append]
  refine (hoperand.append fun s' hidle' _ => passes_percent hidle').imp ?_
  rintro _ ⟨tokens, _, rfl, rfl, start, stop, rfl⟩
  rw [List.map_append]
  rfl

theorem Lockstep.binary {left right : Locale → String} (joint : Joint) (hleft : Lockstep left)
    (hright : Lockstep right) (hstarts : ∀ locale, Expr.Starts (right locale)) :
    Lockstep fun locale => left locale ++ joint.symbol ++ right locale := by
  obtain ⟨front, hleft⟩ := hleft
  obtain ⟨back, hright⟩ := hright
  refine ⟨front ++ ⟨joint.symbol, if joint.symbol = " " then .whitespace else .infixOp,
    operatorSubkind joint.symbol, 0, 0⟩ :: back, fun locale s rest hidle hends => ?_⟩
  have hoperand := hleft locale s (joint.symbol.toList ++ (right locale).toList ++ rest) hidle (by
    rw [List.append_assoc]
    exact ends_operator joint)
  have hoperator : ∀ s', Idle s' → Passes locale s' joint.symbol.toList ((right locale).toList ++ rest)
      fun tokens => ∃ token, tokens = [token] ∧ SpellsOperator joint.symbol token := fun s' hidle' =>
    passes_operator joint.isOperator hidle' (fun hunion => absurd hunion joint.ne_union)
      (Expr.head_of_starts (hstarts locale))
  rw [String.toList_append, String.toList_append, List.append_assoc]
  refine (hoperand.append fun s' hidle' _ => (hoperator s' hidle').append
    fun s'' hidle'' _ => hright locale s'' rest hidle'' hends).imp ?_
  rintro _ ⟨tokens, _, rfl, rfl, _, tokens', rfl, ⟨sign, rfl, hsign⟩, rfl⟩
  rw [List.map_append, List.map_append, List.map_singleton, gist_operator hsign]
  rfl

/-! ### Calls -/

theorem LockstepSlots.call {write : Locale → String} (name : Letters) (h : LockstepSlots write) :
    Lockstep fun locale => String.ofList name.chars ++ "(" ++ write locale ++ ")" := by
  obtain ⟨gists, h⟩ := h
  refine ⟨⟨String.ofList name.chars, .function, .start, 0, 0⟩ ::
    (gists ++ [⟨"", .function, .stop, 0, 0⟩]), fun locale s rest hidle _ => ?_⟩
  have htext : (String.ofList name.chars ++ "(" ++ write locale ++ ")").toList =
      (String.ofList name.chars).toList ++ ['('] ++ ((write locale).toList ++ [')']) := by
    simp
  rw [htext]
  refine (passes_call hidle name.word fun opening s' hopening hidle' hopenings =>
    h locale s' rest hidle' (separates_call hopening hopenings)).imp ?_
  rintro _ ⟨opening, inner, close, rfl, hopening, rfl, hclose⟩
  rw [List.map_cons, List.map_append, List.map_singleton, gist_of_is hopening.1 (by decide),
    gist_of_is hclose.1 (by decide), hopening.2, hclose.2]

theorem lockstepSlots_empty : LockstepSlots fun _ => "" :=
  ⟨[], fun locale s rest hidle _ => (passes_nil hidle).imp (by rintro _ rfl; rfl)⟩

theorem Lockstep.slot {write : Locale → String} (h : Lockstep write) : LockstepSlots write := by
  obtain ⟨gists, h⟩ := h
  exact ⟨gists, fun locale s rest hidle _ =>
    h locale s (')' :: rest) hidle (ends_cons (by decide) (by decide))⟩

theorem LockstepSlots.skip {write : Locale → String} (h : LockstepSlots write) :
    LockstepSlots fun locale => String.singleton locale.argumentSeparator ++ write locale := by
  obtain ⟨gists, h⟩ := h
  refine ⟨⟨"", .argument, .unspecified, 0, 0⟩ :: gists,
    fun locale s rest hidle hplace => ?_⟩
  rw [String.toList_append, String.toList_singleton]
  refine ((passes_separator hidle hplace).append fun s' hidle' hopenings =>
    h locale s' rest hidle' (hopenings ▸ hplace)).imp ?_
  rintro _ ⟨_, tokens, rfl, ⟨start, stop, rfl⟩, rfl⟩
  rfl

theorem LockstepSlots.cons {write more : Locale → String} (h : Lockstep write)
    (hmore : LockstepSlots more) :
    LockstepSlots fun locale =>
      write locale ++ String.singleton locale.argumentSeparator ++ more locale := by
  obtain ⟨gists, h⟩ := h
  obtain ⟨gists', hmore⟩ := hmore.skip
  refine ⟨gists ++ gists', fun locale s rest hidle hplace => ?_⟩
  have hsplit : ∀ tail, (String.singleton locale.argumentSeparator ++ more locale).toList ++ tail =
      locale.argumentSeparator :: ((more locale).toList ++ tail) := by simp
  have harg := h locale s
    ((String.singleton locale.argumentSeparator ++ more locale).toList ++ ')' :: rest) hidle (by
      rw [hsplit]
      exact ends_separator)
  show Passes locale s (write locale ++ String.singleton locale.argumentSeparator ++ more locale).toList
    (')' :: rest) _
  rw [String.append_assoc, String.toList_append]
  refine (harg.append fun s' hidle' hopenings =>
    hmore locale s' rest hidle' (hopenings ▸ hplace)).imp ?_
  rintro _ ⟨tokens, tokens', rfl, rfl, rfl⟩
  rw [List.map_append]

end

end Scan

/-! ## Expressions -/

theorem Phrase.starts_write (locale : Locale) : ∀ phrase : Phrase, Expr.Starts (phrase.write locale)
  | .number numeral => by
    rw [write]
    exact Expr.starts_word (numeral.word_write : Word locale _)
  | .text value => by
    rw [write]
    exact Expr.starts_append (Expr.starts_append ⟨'"', [], rfl, by decide⟩ _) _
  | .logical value => by
    rw [write]
    exact Expr.starts_word (Locale.word_logicalLiteral : Word locale _)
  | .reference first last => by
    rw [write]
    exact Expr.starts_word (CellName.word_range : Word locale _)
  | .errorValue literal h => by
    have hmark : ∀ literal ∈ errorLiterals, literal.toList = '#' :: literal.toList.tail := by decide
    rw [write]
    exact ⟨'#', _, hmark literal h, by decide⟩
  | .group inner => by
    rw [write]
    exact Expr.starts_append (Expr.starts_append ⟨'(', [], rfl, by decide⟩ _) _
  | .minus operand => by
    rw [write]
    exact Expr.starts_append ⟨'-', [], rfl, by decide⟩ _
  | .percent operand => by
    rw [write]
    exact Expr.starts_append (operand.starts_write locale) _
  | .binary joint left right => by
    rw [write]
    exact Expr.starts_append (Expr.starts_append (left.starts_write locale) _) _
  | .call name slots => by
    rw [write]
    exact Expr.starts_append (Expr.starts_append (Expr.starts_append
      (Expr.starts_word (name.word : Word locale _)) _) _) _

mutual

/-- An expression is passed in both locales with the same gists. -/
theorem Phrase.lockstep_write : ∀ phrase : Phrase, Lockstep fun locale => phrase.write locale
  | .number numeral => by
    simp only [Phrase.write]
    exact lockstep_numeral numeral
  | .text value => by
    simp only [Phrase.write]
    exact lockstep_text value
  | .logical value => by
    simp only [Phrase.write]
    exact lockstep_name (fun _ => Locale.word_logicalLiteral)
      (fun _ => Locale.absorbs_logicalLiteral) fun _ _ _ => Locale.gist_logicalLiteral
  | .reference first last => by
    simp only [Phrase.write]
    exact lockstep_name (fun _ => CellName.word_range) (fun _ => CellName.absorbs_range)
      fun _ _ _ => CellName.gist_range
  | .errorValue literal h => by
    simp only [Phrase.write]
    exact lockstep_errorValue h
  | .group inner => by
    simp only [Phrase.write]
    exact inner.lockstep_write.group
  | .minus operand => by
    simp only [Phrase.write]
    exact operand.lockstep_write.minus
  | .percent operand => by
    simp only [Phrase.write]
    exact operand.lockstep_write.percent
  | .binary joint left right => by
    simp only [Phrase.write]
    exact left.lockstep_write.binary joint right.lockstep_write fun locale =>
      right.starts_write locale
  | .call name slots => by
    simp only [Phrase.write]
    exact slots.lockstep_write.call name

theorem Slots.lockstep_write : ∀ slots : Slots, LockstepSlots fun locale => slots.write locale
  | .empty => by
    simp only [Slots.write]
    exact lockstepSlots_empty
  | .last arg => by
    simp only [Slots.write]
    exact arg.lockstep_write.slot
  | .skip rest => by
    simp only [Slots.write]
    exact rest.lockstep_write.skip
  | .cons arg rest => by
    simp only [Slots.write]
    exact LockstepSlots.cons arg.lockstep_write rest.lockstep_write

end

namespace Formula

/-- The scans of a formula in two locales make tokens of the same gists, and note no fault. -/
theorem gists_write (phrase : Phrase) : ∃ gists, ∀ locale,
    (ofFormula locale ("=" ++ phrase.write locale)).fault = none ∧
      (ofFormula locale ("=" ++ phrase.write locale)).tokens.toList.map (Token.gist locale) =
        gists := by
  obtain ⟨gists, h⟩ := phrase.lockstep_write
  exact ⟨gists, fun locale => ofFormula_of_passes (h locale _ [] ⟨rfl, rfl⟩ fun c hc => by cases hc)⟩

/-- What raw tokens mean is told by their gists. -/
theorem parse_eq_of_gists {locale : Locale} {limits : Parser.Limits} {formula : String}
    {gists : List Token} (strict : Bool) (hfault : (ofFormula locale formula).fault = none)
    (h : (ofFormula locale formula).tokens.toList.map (Token.gist locale) = gists) :
    parse ⟨locale, limits, strict⟩ formula =
      (Parser.parse limits (Token.normalize .enUS gists)).mapError .grammar := by
  rw [parse_of_faultless strict hfault, ← h, Token.normalize_map_gist, Parser.parse_map_essence]
  rfl

/-- Written in either locale, an expression means the same, or is refused for the same reason. -/
theorem parse_write (limits : Parser.Limits) (strict : Bool) (phrase : Phrase) :
    parse ⟨.enUS, limits, strict⟩ ("=" ++ phrase.write .enUS) =
      parse ⟨.deDE, limits, strict⟩ ("=" ++ phrase.write .deDE) := by
  obtain ⟨gists, h⟩ := gists_write phrase
  rw [parse_eq_of_gists strict (h .enUS).1 (h .enUS).2,
    parse_eq_of_gists strict (h .deDE).1 (h .deDE).2]

/-- The two texts of a call of `F` with two arguments. -/
example :
    let phrase := Phrase.call ⟨['F'], by decide, List.all_eq_true.1 rfl⟩
      (.cons (.logical true) (.last (.logical false)))
    phrase.write .enUS = "F(TRUE,FALSE)" ∧ phrase.write .deDE = "F(WAHR;FALSCH)" := by
  decide

end Formula

end SheetFormula
