import Mathlib
import SheetFormula.Proofs.Failures
import SheetFormula.Proofs.Printable

/-!
# Expressions keep the order of their tokens

Main statement: `Formula.items_of_parse`, the operands and operators of the tree of a formula, read from
left to right, are those of its tokens.

1. `Expr.items` reads a tree: an operator stands between its operands, in front of its operand or
   behind it, and the name of a call in front of its arguments.
2. `Token.items` reads tokens and leaves brackets and separators out. A percent sign directly behind a
   number belongs to the number.
3. What the grammar reads from some tokens has the items that are gone from them: `itemRules`.
-/

namespace SheetFormula

open Number (Binary64)

/-- An operand, an operator or the name of a call. -/
inductive Item where
  | number (value : Binary64)
  | text (value : String)
  | logical (value : Bool)
  | reference (text : String)
  | errorValue (value : String)
  | unknown (raw : String)
  | prefixOp (symbol : String)
  | infixOp (symbol : String)
  | postfixOp (symbol : String)
  | call (name : String)
  /-- A token that no expression has. -/
  | stray (token : Token)
  deriving Repr

namespace Item

/-- The text of a reference. -/
def reference? : Item → Option String
  | reference spelling => some spelling
  | _ => none

/-- A number with a percent sign behind it. -/
def percent : Item → Item
  | number value => number value.percent
  | item => item

theorem reference?_percent (item : Item) : item.percent.reference? = item.reference? := by
  cases item <;> rfl

end Item

/-! ## The items of a tree -/

namespace Expr

mutual

/-- The items of an expression, from left to right. -/
def items : Expr → List Item
  | number value => [.number value]
  | text value => [.text value]
  | logical value => [.logical value]
  | cell ref => [.reference ref.raw]
  | cellRange first last => [.reference (first.raw ++ ":" ++ last.raw)]
  | unary op operand =>
    if op = percentSign then operand.items ++ [.postfixOp op] else .prefixOp op :: operand.items
  | binary op left right => left.items ++ .infixOp op :: right.items
  | call name args => .call name :: itemsOfList args
  | errorValue value => [.errorValue value]
  | emptyArgument => []
  | unknown raw => [.unknown raw]

/-- The items of a list of arguments. -/
def itemsOfList : List Expr → List Item
  | [] => []
  | arg :: rest => arg.items ++ itemsOfList rest

end

theorem items_reference (text : String) : (reference text).items = [.reference text] := by
  rcases reference_cases text with ⟨h, -⟩ | ⟨first, last, h, htext⟩
  · rw [h]
    rfl
  · rw [h, htext]
    rfl

mutual

/-- The references of an expression are those of its items. -/
theorem display_references (e : Expr) :
    e.references.map display = e.items.filterMap Item.reference? := by
  cases e with
  | cell | cellRange => simp [references, items, Item.reference?, display]
  | unary op operand =>
    have ih := display_references operand
    rw [references, items, ih]
    split
    · rw [List.filterMap_append]
      exact (List.append_nil _).symm
    · rfl
  | binary op left right =>
    have hleft := display_references left
    have hright := display_references right
    rw [references, items, List.map_append, hleft, hright, List.filterMap_append]
    rfl
  | call name args =>
    have ih := display_referencesOfList args
    rw [references, items, ih]
    rfl
  | number | text | logical | errorValue | emptyArgument | unknown =>
    simp [references, items, Item.reference?]

theorem display_referencesOfList (args : List Expr) :
    (referencesOfList args).map display = (itemsOfList args).filterMap Item.reference? := by
  cases args with
  | nil => rfl
  | cons arg rest =>
    have harg := display_references arg
    have hrest := display_referencesOfList rest
    rw [referencesOfList, itemsOfList, List.map_append, List.filterMap_append, harg, hrest]

end

end Expr

/-! ## The items of tokens -/

namespace Token

/-- The item that a token stands for; none for brackets and separators of arguments. -/
def item? (token : Token) : Option Item :=
  match token.kind, token.subkind with
  | .operand, .number => some ((Binary64.ofText? token.value).elim (.stray token) .number)
  | .operand, .text => some (.text token.value)
  | .operand, .logical => some (.logical (token.value == "TRUE"))
  | .operand, .range => some (.reference token.value)
  | .operand, .error => some (.errorValue token.value)
  | .unknown, _ => some (.unknown token.value)
  | .prefixOp, _ => some (.prefixOp token.value)
  | .infixOp, _ => some (.infixOp token.value)
  | .postfixOp, _ => some (.postfixOp token.value)
  | .function, .start => some (.call token.value)
  | .function, .stop | .subexpr, .start | .subexpr, .stop | .argument, _ => none
  | _, _ => some (.stray token)

/-- The items of tokens. A postfix operator directly behind a number belongs to the number. -/
def items : List Token → List Item
  | [] => []
  | [token] => token.item?.toList
  | token :: next :: rest =>
    if token.isNumber && next.isPostfixOp then token.item?.toList.map Item.percent ++ items rest
    else token.item?.toList ++ items (next :: rest)

theorem items_cons {token : Token} (h : token.isNumber = false) (rest : List Token) :
    items (token :: rest) = token.item?.toList ++ items rest := by
  cases rest with
  | nil => rw [items, items, List.append_nil]
  | cons next rest => simp [items, h]

/-- The reference of a token. -/
theorem reference?_item? (token : Token) :
    token.item?.toList.filterMap Item.reference? = ([token].filter isRange).map value := by
  obtain ⟨value, kind, subkind, start, stop⟩ := token
  by_cases hnumber : kind = .operand ∧ subkind = .number
  · obtain ⟨rfl, rfl⟩ := hnumber
    unfold item?
    dsimp only
    cases Binary64.ofText? value <;> rfl
  · cases kind <;> cases subkind <;> first | rfl | exact absurd ⟨rfl, rfl⟩ hnumber

/-- The references among the items of tokens. -/
theorem reference?_items (tokens : List Token) :
    (items tokens).filterMap Item.reference? = (tokens.filter isRange).map value := by
  induction tokens using items.induct with
  | case1 => rfl
  | case2 token => exact reference?_item? token
  | case3 token next rest hnumber ih =>
    have hnext : next.isRange = false := by
      simp only [Bool.and_eq_true, isPostfixOp, beq_iff_eq] at hnumber
      simp [isRange, is, hnumber.2]
    have htoken := reference?_item? token
    have hpercent : Item.reference? ∘ Item.percent = Item.reference? :=
      funext Item.reference?_percent
    rw [items, if_pos hnumber, List.filterMap_append, List.filterMap_map, hpercent, htoken, ih,
      ← List.map_append, ← List.filter_append, List.singleton_append, List.filter_cons, List.filter_cons,
      List.filter_cons, hnext]
    rfl
  | case4 token next rest hnumber ih =>
    rw [items, if_neg hnumber, List.filterMap_append, reference?_item?, ih, ← List.map_append,
      ← List.filter_append, List.singleton_append]

end Token

/-! ## What is read -/

namespace Grammar

open Token (items)

/-- The postfix operators of tokens are percent signs. -/
def Percents (tokens : List Token) : Prop :=
  ∀ token ∈ tokens, token.isPostfixOp → token.value = Expr.percentSign

theorem items_operator {token : Token} {item : Item} (h : token.item? = some item)
    (hnumber : token.isNumber = false) (rest : List Token) :
    items (token :: rest) = item :: items rest := by
  rw [Token.items_cons hnumber, h]
  rfl

theorem items_bracket {token : Token} (h : token.item? = none) (hnumber : token.isNumber = false)
    (rest : List Token) : items (token :: rest) = items rest := by
  rw [Token.items_cons hnumber, h]
  rfl

section

variable {token : Token} (rest : List Token)

theorem items_binary (h : token.isInfixOp) :
    items (token :: rest) = .infixOp token.value :: items rest := by
  have hkind : token.kind = .infixOp := by simpa [Token.isInfixOp] using h
  exact items_operator (by simp [Token.item?, hkind]) (by simp [Token.isNumber, Token.is, hkind]) rest

theorem items_minus (h : token.isPrefixOp) :
    items (token :: rest) = .prefixOp token.value :: items rest := by
  have hkind : token.kind = .prefixOp := by simpa [Token.isPrefixOp] using h
  exact items_operator (by simp [Token.item?, hkind]) (by simp [Token.isNumber, Token.is, hkind]) rest

theorem items_percent (h : token.isPostfixOp) :
    items (token :: rest) = .postfixOp token.value :: items rest := by
  have hkind : token.kind = .postfixOp := by simpa [Token.isPostfixOp] using h
  exact items_operator (by simp [Token.item?, hkind]) (by simp [Token.isNumber, Token.is, hkind]) rest

theorem items_is {kind : Token.Kind} {subkind : Token.Subkind} {item : Item} (h : token.is kind subkind)
    (hitem : Token.item? { token with kind := kind, subkind := subkind } = some item)
    (hnumber : subkind ≠ .number) : items (token :: rest) = item :: items rest := by
  obtain ⟨rfl, rfl⟩ := Token.is_iff.1 h
  exact items_operator hitem (by simp [Token.isNumber, Token.is, hnumber]) rest

theorem items_skip {kind : Token.Kind} {subkind : Token.Subkind} (h : token.is kind subkind)
    (hitem : Token.item? { token with kind := kind, subkind := subkind } = none)
    (hnumber : subkind ≠ .number) : items (token :: rest) = items rest := by
  obtain ⟨rfl, rfl⟩ := Token.is_iff.1 h
  exact items_bracket hitem (by simp [Token.isNumber, Token.is, hnumber]) rest

theorem items_separator (h : token.separatesArguments) : items (token :: rest) = items rest := by
  have hkind : token.kind = .argument := by simpa [Token.separatesArguments] using h
  exact items_bracket (by simp [Token.item?, hkind]) (by simp [Token.isNumber, Token.is, hkind]) rest

end

theorem items_postfixes (e : Expr) (tokens : List Token) (h : Percents tokens) :
    Percents (postfixes e tokens).2 ∧
      e.items ++ items tokens = (postfixes e tokens).1.items ++ items (postfixes e tokens).2 := by
  induction tokens generalizing e with
  | nil => exact ⟨h, rfl⟩
  | cons token rest ih =>
    rw [postfixes]
    split
    · rename_i hpercent
      have hvalue : token.value = Expr.percentSign := h token List.mem_cons_self hpercent
      obtain ⟨hrest, hitems⟩ := ih (.unary token.value e) fun t ht => h t (List.mem_cons_of_mem _ ht)
      refine ⟨hrest, ?_⟩
      rw [← hitems, items_percent rest hpercent, Expr.items, if_pos hvalue, List.append_assoc]
      rfl
    · exact ⟨h, rfl⟩

theorem items_number {token : Token} {value : Binary64} (rest : List Token) (hnumber : token.isNumber)
    (hvalue : NumberLiteral.read? token.value = some value) :
    items (token :: rest) = (number value rest).1.items ++ items (number value rest).2 := by
  have hitem : token.item? = some (.number value) := by
    obtain ⟨hkind, hsubkind⟩ := Token.is_iff.1 hnumber
    simp [Token.item?, hkind, hsubkind, ← NumberLiteral.read?_eq, hvalue]
  cases rest with
  | nil =>
    rw [items, hitem]
    rfl
  | cons next rest =>
    rw [items, hitem, hnumber, Bool.true_and, number, ← NumberLiteral.percent_eq]
    split <;> rfl

theorem mem_number {value : Binary64} {rest : List Token} :
    ∀ token ∈ (number value rest).2, token ∈ rest := by
  cases rest with
  | nil => exact fun _ h => h
  | cons next rest =>
    rw [number]
    split
    · exact fun _ h => List.mem_cons_of_mem _ h
    · exact fun _ h => h

/-- What is read has the items of the tokens that it is read from. -/
theorem itemRules : Rules
    (fun _ tokens e rest => Percents tokens →
      Percents rest ∧ items tokens = e.items ++ items rest)
    (fun _ left tokens e rest => Percents tokens →
      Percents rest ∧ left.items ++ items tokens = e.items ++ items rest)
    (fun tokens e rest => Percents tokens →
      Percents rest ∧ items tokens = e.items ++ items rest)
    (fun token tokens e rest => Percents tokens →
      Percents rest ∧ items (token :: tokens) = e.items ++ items rest)
    (fun tokens args rest => Percents tokens →
      Percents rest ∧ items tokens = Expr.itemsOfList args ++ items rest)
    (fun tokens args rest => Percents tokens →
      Percents rest ∧ items tokens = Expr.itemsOfList args ++ items rest)
    (fun tokens arg rest => Percents tokens →
      Percents rest ∧ items tokens = arg.items ++ items rest) where
  climb ho hc h := by
    obtain ⟨hrest, hitems⟩ := ho h
    obtain ⟨hrest', hitems'⟩ := hc hrest
    exact ⟨hrest', hitems.trans hitems'⟩
  chainEnd h := ⟨h, rfl⟩
  chainStop _ h := ⟨h, rfl⟩
  chainStep {_ left token rest _ right rest' e rest''} hbinary _ _ hright hchain h := by
    obtain ⟨hrest, hitems⟩ := hright fun t ht => h t (List.mem_cons_of_mem _ ht)
    obtain ⟨hrest', hitems'⟩ := hchain hrest
    refine ⟨hrest', ?_⟩
    rw [← hitems', items_binary rest hbinary, hitems, Expr.items]
    simp
  minus {token rest only rest'} hsign hvalue honly h := by
    obtain ⟨hrest, hitems⟩ := honly fun t ht => h t (List.mem_cons_of_mem _ ht)
    refine ⟨hrest, ?_⟩
    rw [items_minus rest hsign, hitems, Expr.items, if_neg (by rw [hvalue]; decide)]
    rfl
  operand {token rest e rest'} _ hprimary h := by
    obtain ⟨hrest, hitems⟩ := hprimary fun t ht => h t (List.mem_cons_of_mem _ ht)
    obtain ⟨hrest', hitems'⟩ := items_postfixes e rest' hrest
    exact ⟨hrest', hitems.trans hitems'⟩
  number {token rest value} hnumber hvalue h :=
    ⟨fun t ht => h t (mem_number t ht), items_number rest hnumber hvalue⟩
  text {token rest} htext h := ⟨h, items_is rest htext rfl (by simp)⟩
  logical {token rest} hlogical h := ⟨h, items_is rest hlogical rfl (by simp)⟩
  reference {token rest} hrange h := ⟨h, by
    rw [Expr.items_reference]
    exact items_is rest hrange rfl (by simp)⟩
  group {token rest e close rest'} hopen hclose hc h := by
    obtain ⟨hrest, hitems⟩ := hc h
    refine ⟨fun t ht => hrest t (List.mem_cons_of_mem _ ht), ?_⟩
    rw [items_skip rest hopen rfl (by simp), hitems, items_skip rest' hclose rfl (by simp)]
  call {token rest args rest'} hopen hargs h := by
    obtain ⟨hrest, hitems⟩ := hargs h
    refine ⟨hrest, ?_⟩
    rw [items_is rest hopen rfl (by simp), hitems, Expr.items]
    rfl
  errorValue {token rest} herror h := ⟨h, items_is rest herror rfl (by simp)⟩
  unknown {token rest} hunknown h := ⟨h, by
    have hkind : token.kind = .unknown := by simpa [Token.isUnknown] using hunknown
    exact items_operator (by simp [Token.item?, hkind]) (by simp [Token.isNumber, Token.is, hkind]) rest⟩
  noArguments {token rest} hclose h :=
    ⟨fun t ht => h t (List.mem_cons_of_mem _ ht), items_skip rest hclose rfl (by simp)⟩
  someArguments _ hslots := hslots
  slotsStep {tokens arg token rest args rest'} hseparates hslot hslots h := by
    obtain ⟨hrest, hitems⟩ := hslot h
    obtain ⟨hrest', hitems'⟩ := hslots fun t ht => hrest t (List.mem_cons_of_mem _ ht)
    refine ⟨hrest', ?_⟩
    rw [hitems, items_separator rest hseparates, hitems', Expr.itemsOfList, List.append_assoc]
  slotsEnd {tokens arg token rest} hclose hslot h := by
    obtain ⟨hrest, hitems⟩ := hslot h
    refine ⟨fun t ht => hrest t (List.mem_cons_of_mem _ ht), ?_⟩
    rw [hitems, items_skip rest hclose rfl (by simp), Expr.itemsOfList, Expr.itemsOfList, List.append_nil]
  emptySlot _ h := ⟨h, rfl⟩
  fullSlot _ hc h := hc h

end Grammar

/-- The tree of a formula has the operands and operators of its tokens, in their order, and so it has
their references. -/
theorem Formula.items_of_parse {options : Options} {formula : String} {e : Expr}
    (h : parse options formula = .ok e) :
    e.items = Token.items (tokens options.locale formula) ∧
      e.references.map Expr.display =
        ((tokens options.locale formula).filter Token.isRange).map Token.value := by
  have hgrammar : Grammar.parse (tokens options.locale formula) = some e := by
    rcases parse_eq options formula with ⟨-, fault, -, heq⟩ | heq
    · rw [heq] at h
      cases h
    · rw [heq] at h
      cases hparse : Parser.parse options.limits (tokens options.locale formula) with
      | error cause =>
        rw [hparse] at h
        cases h
      | ok e' =>
        rw [hparse] at h
        cases h
        exact Parser.grammar_of_parse hparse
  have hpercents : Grammar.Percents (tokens options.locale formula) :=
    fun token ht => (readable_tokens options.locale formula token ht).percent
  have hitems : e.items = Token.items (tokens options.locale formula) := by
    unfold Grammar.parse at hgrammar
    split at hgrammar
    · rename_i e' hclimb
      cases hgrammar
      rw [(Grammar.itemRules.of_climb hclimb hpercents).2, Token.items, List.append_nil]
    · cases hgrammar
  exact ⟨hitems, by rw [Expr.display_references, hitems, Token.reference?_items]⟩

/-- In `=SUM(,A1%)` nothing stands for the argument that is left out. -/
theorem Formula.items_of_parse_sum : ∃ e, parse ⟨.enUS, .standard, true⟩ "=SUM(,A1%)" = .ok e ∧
    e.items = Token.items (tokens .enUS "=SUM(,A1%)") ∧
    e.references.map Expr.display = ((tokens .enUS "=SUM(,A1%)").filter Token.isRange).map Token.value := by
  have hscan : Scan.ofFormula .enUS "=SUM(,A1%)" =
      ⟨#[⟨"SUM", .function, .start, 1, 5⟩, ⟨",", .argument, .unspecified, 5, 6⟩,
        ⟨"A1", .operand, .unspecified, 6, 8⟩, ⟨"%", .postfixOp, .unspecified, 8, 9⟩,
        ⟨"", .function, .stop, 9, 10⟩], [], 10, "", 6, .ordinary, none⟩ := by cbv
  have htokens : tokens .enUS "=SUM(,A1%)" =
      [⟨"SUM", .function, .start, 1, 5⟩, ⟨",", .argument, .unspecified, 5, 6⟩,
        ⟨"A1", .operand, .range, 6, 8⟩, ⟨"%", .postfixOp, .unspecified, 8, 9⟩,
        ⟨"", .function, .stop, 9, 10⟩] := by
    rw [tokens, hscan]
    rfl
  have hparse : parse ⟨.enUS, .standard, true⟩ "=SUM(,A1%)" =
      .ok (.call "SUM" [.emptyArgument, .unary "%" (.reference "A1")]) := by
    rw [parse_of_faultless true (by rw [hscan]), htokens]
    cbv
  exact ⟨_, hparse, items_of_parse hparse⟩

end SheetFormula
