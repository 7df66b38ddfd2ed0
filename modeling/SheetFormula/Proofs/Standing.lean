import SheetFormula.Proofs.Grammar
import SheetFormula.Proofs.Rendering
import SheetFormula.Proofs.TokenShapes

/-!
# What the grammar reads from good tokens

Main statement: `Keeps.of_parse`, a property that every rule of the grammar keeps holds of the
expression that good tokens write.

1. A token of unknown kind is an operand of its own. Where no expression may consist of one, it is
   `Leading`: it is followed by a token that starts an operand, which no expression goes on with.
2. `Keeps` lists what a property has to keep, one rule for each way in which an expression arises.
3. What is read `Stands`: the property holds of it, or else the tokens behind it end the reading.
-/

namespace SheetFormula

open Number (Binary64)

namespace Token

/-! ## Tokens of unknown kind -/

/-- Every token of unknown kind is followed by a token that starts an operand. -/
def Leading : List Token → Prop
  | [] => True
  | token :: rest =>
    (token.kind = .unknown → ∃ next ∈ rest.head?, next.startsOperand) ∧ Leading rest

theorem leading_of_isChain {tokens : List Token} (h : tokens.IsChain Leads)
    (hlast : ∀ token ∈ tokens.getLast?, token.kind ≠ .unknown) : Leading tokens := by
  induction tokens with
  | nil => exact trivial
  | cons token rest ih =>
    cases rest with
    | nil => exact ⟨fun hkind => absurd hkind (hlast token rfl), trivial⟩
    | cons next rest =>
      obtain ⟨hleads, hchain⟩ := List.isChain_cons_cons.1 h
      refine ⟨fun hkind => ⟨next, rfl, hleads hkind⟩, ih hchain fun token ht => hlast token ?_⟩
      rwa [List.getLast?_cons_cons]

theorem startsOperand_resolveOne {locale : Locale} {previous : Option Token} {token : Token}
    (h : token.startsOperand) : (resolveOne locale previous token).startsOperand := by
  simp only [startsOperand, opensCall, is, Bool.or_eq_true, Bool.and_eq_true, beq_iff_eq] at h ⊢
  rcases h with h | ⟨h, hsubkind⟩
  · exact .inl ((kind_resolveOne (by simp [h])).trans h)
  · right
    obtain ⟨value, kind, subkind, start, stop⟩ := token
    have hkind : kind = .function := h
    subst hkind
    rw [resolveOne_function]
    exact ⟨rfl, hsubkind⟩

theorem kind_of_unknown {locale : Locale} {previous : Option Token} {token : Token}
    (h : (resolveOne locale previous token).kind = .unknown) : token.kind = .unknown := by
  by_cases hkind : token.kind = .infixOp
  · have hkinds : (resolveOne locale previous token).kind = .infixOp ∨
        (resolveOne locale previous token).kind = .prefixOp ∨
        (resolveOne locale previous token).kind = .noop := kind_resolveOne_infixOp hkind
    simp [h] at hkinds
  · rwa [kind_resolveOne hkind] at h

/-- A token that starts an operand is kept where it is the first one. -/
theorem Thinned.head {locale : Locale} {raws tokens : List Token} (h : Thinned locale raws tokens)
    (hraws : ∃ next ∈ raws.head?, next.startsOperand) : ∃ next ∈ tokens.head?, next.startsOperand := by
  obtain ⟨next, hnext, hstarts⟩ := hraws
  cases h with
  | nil => cases hnext
  | drop hkind =>
    cases hnext
    rcases hkind with h | h <;> simp [startsOperand, opensCall, is, h] at hstarts
  | gap hkind =>
    cases hnext
    simp [startsOperand, opensCall, is, hkind] at hstarts
  | keep =>
    cases hnext
    exact ⟨_, rfl, startsOperand_resolveOne hstarts⟩

theorem Thinned.leading {locale : Locale} {raws tokens : List Token} (h : Thinned locale raws tokens)
    (hleading : Leading raws) : Leading tokens := by
  induction h with
  | nil => exact trivial
  | drop _ _ ih => exact ih hleading.2
  | gap _ _ ih => exact ⟨by simp, ih hleading.2⟩
  | keep _ _ hrest ih =>
    exact ⟨fun hunknown => hrest.head (hleading.1 (kind_of_unknown hunknown)), ih hleading.2⟩

/-- Behind a token of unknown kind of a formula an operand starts. -/
theorem leading_tokens {locale : Locale} {formula : String}
    (h : (Scan.ofFormula locale formula).fault = none) : Leading (Formula.tokens locale formula) := by
  obtain ⟨-, hleads, hlast⟩ := Scan.shapes_ofFormula h
  exact (thinned_tokens locale formula).leading (leading_of_isChain hleads hlast)

end Token

namespace Grammar

/-! ## What every rule keeps -/

/-- A property of expressions that is kept by every way to read an expression from good tokens. -/
structure Keeps (Good : Token → Prop) (Holds : Expr → Prop) : Prop where
  number {token value} : Good token → token.isNumber →
    Binary64.ofText? token.value = some value → Holds (.number value) ∧ Holds (.number value.percent)
  text {value} : Holds (.text value)
  logical {value} : Holds (.logical value)
  reference {token} : Good token → token.isRange → Holds (.reference token.value)
  errorValue {token} : Good token → token.isError → Holds (.errorValue token.value)
  minus {operand} : Holds operand → Holds (.unary "-" operand)
  percent {token operand} : Good token → token.isPostfixOp → Holds operand →
    Holds (.unary token.value operand)
  binary {op left right precedence} : Operator.binaryPrecedence? op = some precedence →
    Holds left → Holds right → Holds (.binary op left right)
  /-- A call of one argument that is left out has no argument. -/
  call {token args} : Good token → token.opensCall → args ≠ [.emptyArgument] →
    (∀ arg ∈ args, arg ≠ .emptyArgument → Holds arg) → Holds (.call token.value args)
  present {e} : Holds e → e ≠ .emptyArgument

section

variable (Good : Token → Prop) (Holds : Expr → Prop)

/-- Good tokens, of which those of unknown kind are leading if no expression may consist of one. -/
structure Sound (tokens : List Token) : Prop where
  good : ∀ token ∈ tokens, Good token
  unknown : (∀ raw, Holds (.unknown raw)) ∨ Token.Leading tokens

/-- The property holds of an expression, unless a token behind it starts another operand. -/
def Stands (e : Expr) (rest : List Token) : Prop :=
  Holds e ∨ ∃ next ∈ rest.head?, next.startsOperand

/-- What a slot holds. -/
def SlotStands (tokens : List Token) (arg : Expr) (rest : List Token) : Prop :=
  Stands Holds arg rest ∨ arg = .emptyArgument ∧ rest = tokens

/-- What the arguments of a call are. -/
def ArgumentsStand (args : List Expr) : Prop := ∀ arg ∈ args, arg ≠ .emptyArgument → Holds arg

end

section

variable {Good : Token → Prop} {Holds : Expr → Prop} {e : Expr} {token : Token}
  {tokens rest : List Token}

theorem Sound.tail (h : Sound Good Holds (token :: rest)) : Sound Good Holds rest :=
  ⟨fun token ht => h.good token (List.mem_cons_of_mem _ ht), h.unknown.imp_right And.right⟩

theorem Sound.head (h : Sound Good Holds (token :: rest)) : Good token :=
  h.good token List.mem_cons_self

theorem Stands.holds (h : Stands Holds e (token :: rest)) (htoken : token.startsOperand = false) :
    Holds e := by
  rcases h with h | ⟨next, hnext, hstarts⟩
  · exact h
  · cases hnext
    rw [htoken] at hstarts
    cases hstarts

/-- What is read next stands where it is built from what is read before. -/
theorem Stands.imp {e' : Expr} (h : Stands Holds e rest) (himp : Holds e → Holds e') :
    Stands Holds e' rest := Or.imp_left himp h

theorem startsOperand_of_kind (hoperand : token.kind ≠ .operand) (hfunction : token.kind ≠ .function) :
    token.startsOperand = false := by
  simp [Token.startsOperand, Token.opensCall, Token.is, hoperand, hfunction]

theorem startsOperand_of_isPostfixOp (h : token.isPostfixOp) : token.startsOperand = false := by
  simp only [Token.isPostfixOp, beq_iff_eq] at h
  exact startsOperand_of_kind (by simp [h]) (by simp [h])

theorem startsOperand_of_isInfixOp (h : token.isInfixOp) : token.startsOperand = false := by
  simp only [Token.isInfixOp, beq_iff_eq] at h
  exact startsOperand_of_kind (by simp [h]) (by simp [h])

theorem startsOperand_of_closesGroup (h : token.closesGroup) : token.startsOperand = false := by
  simp only [Token.closesGroup, Token.is, Bool.and_eq_true, beq_iff_eq] at h
  exact startsOperand_of_kind (by simp [h.1]) (by simp [h.1])

theorem startsOperand_of_separates (h : token.separatesArguments) : token.startsOperand = false := by
  simp only [Token.separatesArguments, beq_iff_eq] at h
  exact startsOperand_of_kind (by simp [h]) (by simp [h])

theorem startsOperand_of_closesCall (h : token.closesCall) : token.startsOperand = false := by
  simp only [Token.closesCall, Token.is, Bool.and_eq_true, beq_iff_eq] at h
  simp [Token.startsOperand, Token.opensCall, Token.is, h.1, h.2]

theorem Keeps.postfixes (hkeeps : Keeps Good Holds) (hsound : Sound Good Holds tokens)
    (h : Stands Holds e tokens) : Sound Good Holds (postfixes e tokens).2 ∧
      Stands Holds (postfixes e tokens).1 (postfixes e tokens).2 := by
  induction tokens generalizing e with
  | nil => exact ⟨hsound, h⟩
  | cons token rest ih =>
    rw [Grammar.postfixes]
    split
    · rename_i hpercent
      have he : Holds e := h.holds (startsOperand_of_isPostfixOp hpercent)
      exact ih hsound.tail (.inl (hkeeps.percent hsound.head hpercent he))
    · exact ⟨hsound, h⟩

theorem stands_number {value : Binary64} (hsound : Sound Good Holds tokens)
    (h : Holds (.number value) ∧ Holds (.number (NumberLiteral.hundredthOf value))) :
    Sound Good Holds (number value tokens).2 ∧
      Stands Holds (number value tokens).1 (number value tokens).2 := by
  cases tokens with
  | nil => exact ⟨hsound, .inl h.1⟩
  | cons token rest =>
    rw [number]
    split
    · exact ⟨hsound.tail, .inl h.2⟩
    · exact ⟨hsound, .inl h.1⟩

theorem argumentsStand_cons {arg : Expr} {args : List Expr}
    (hslot : SlotStands Holds tokens arg (token :: rest)) (htoken : token.startsOperand = false)
    (h : ArgumentsStand Holds args) : ArgumentsStand Holds (arg :: args) := by
  intro arg' harg hne
  rcases List.mem_cons.1 harg with rfl | harg
  · rcases hslot with hstands | ⟨hempty, -⟩
    · exact hstands.holds htoken
    · exact absurd hempty hne
  · exact h arg' harg hne

/-- The judgements by which a property that is kept holds of what is read. -/
theorem Keeps.rules (hkeeps : Keeps Good Holds) : Rules
    (fun _ tokens e rest => Sound Good Holds tokens → Sound Good Holds rest ∧ Stands Holds e rest)
    (fun _ left tokens e rest => Sound Good Holds tokens → Stands Holds left tokens →
      Sound Good Holds rest ∧ Stands Holds e rest)
    (fun tokens e rest => Sound Good Holds tokens → Sound Good Holds rest ∧ Stands Holds e rest)
    (fun token tokens e rest => Sound Good Holds (token :: tokens) →
      Sound Good Holds rest ∧ Stands Holds e rest)
    (fun tokens args rest => Sound Good Holds tokens →
      Sound Good Holds rest ∧ ArgumentsStand Holds args ∧ args ≠ [.emptyArgument])
    (fun tokens args rest => Sound Good Holds tokens →
      Sound Good Holds rest ∧ ArgumentsStand Holds args ∧ args ≠ [] ∧
        (args = [.emptyArgument] → ∃ token ∈ tokens.head?, token.closesCall))
    (fun tokens arg rest => Sound Good Holds tokens →
      Sound Good Holds rest ∧ SlotStands Holds tokens arg rest) where
  climb ho hc hsound := by
    obtain ⟨hrest, hleft⟩ := ho hsound
    exact hc hrest hleft
  chainEnd hsound hleft := ⟨hsound, hleft⟩
  chainStop _ hsound hleft := ⟨hsound, hleft⟩
  chainStep hoperator hp _ hr hc hsound hleft := by
    obtain ⟨hrest, hright⟩ := hr hsound.tail
    have hleft := hleft.holds (startsOperand_of_isInfixOp hoperator)
    rw [precedence?_eq] at hp
    exact hc hrest (hright.imp (hkeeps.binary hp hleft))
  minus _ hvalue hc hsound := by
    obtain ⟨hrest, honly⟩ := hc hsound.tail
    rw [hvalue]
    exact ⟨hrest, honly.imp hkeeps.minus⟩
  operand _ hp hsound := by
    obtain ⟨hrest, he⟩ := hp hsound
    exact hkeeps.postfixes hrest he
  number hnumber hvalue hsound := by
    rw [NumberLiteral.read?_eq] at hvalue
    have hboth := hkeeps.number hsound.head hnumber hvalue
    rw [NumberLiteral.percent_eq] at hboth
    exact stands_number hsound.tail hboth
  text _ hsound := ⟨hsound.tail, .inl hkeeps.text⟩
  logical _ hsound := ⟨hsound.tail, .inl hkeeps.logical⟩
  reference hrange hsound := ⟨hsound.tail, .inl (hkeeps.reference hsound.head hrange)⟩
  group _ hclose hc hsound := by
    obtain ⟨hrest, he⟩ := hc hsound.tail
    exact ⟨hrest.tail, .inl (he.holds (startsOperand_of_closesGroup hclose))⟩
  call hcall ha hsound := by
    obtain ⟨hrest, hargs, hne⟩ := ha hsound.tail
    exact ⟨hrest, .inl (hkeeps.call hsound.head hcall hne hargs)⟩
  errorValue herror hsound := ⟨hsound.tail, .inl (hkeeps.errorValue hsound.head herror)⟩
  unknown {token rest} hunknown hsound := by
    refine ⟨hsound.tail, ?_⟩
    rcases hsound.unknown with hholds | hleading
    · exact .inl (hholds token.value)
    · exact .inr (hleading.1 (by simpa [Token.isUnknown] using hunknown))
  noArguments _ hsound := ⟨hsound.tail, by simp [ArgumentsStand], by simp⟩
  someArguments hclose hs hsound := by
    obtain ⟨hrest, hargs, -, hempty⟩ := hs hsound
    refine ⟨hrest, hargs, fun heq => ?_⟩
    obtain ⟨token, htoken, hcloses⟩ := hempty heq
    cases htoken
    rw [hclose] at hcloses
    cases hcloses
  slotsStep hseparates ha hs hsound := by
    obtain ⟨hrest, harg⟩ := ha hsound
    obtain ⟨hrest', hargs, hne, -⟩ := hs hrest.tail
    exact ⟨hrest', argumentsStand_cons harg (startsOperand_of_separates hseparates) hargs, by simp,
      fun heq => absurd (List.cons.inj heq).2 hne⟩
  slotsEnd hclose ha hsound := by
    obtain ⟨hrest, harg⟩ := ha hsound
    refine ⟨hrest.tail, argumentsStand_cons harg (startsOperand_of_closesCall hclose)
      (by simp [ArgumentsStand]), by simp, fun hempty => ?_⟩
    cases hempty
    rcases harg with hstands | ⟨-, heq⟩
    · exact absurd rfl (hkeeps.present (hstands.holds (startsOperand_of_closesCall hclose)))
    · rw [← heq]
      exact ⟨_, rfl, hclose⟩
  emptySlot _ hsound := ⟨hsound, .inr ⟨rfl, rfl⟩⟩
  fullSlot _ hc hsound := by
    obtain ⟨hrest, he⟩ := hc hsound
    exact ⟨hrest, .inl he⟩

/-- A property that is kept holds of the expression that sound tokens write. -/
theorem Keeps.of_parse (hkeeps : Keeps Good Holds) (hsound : Sound Good Holds tokens)
    (h : parse tokens = some e) : Holds e := by
  unfold parse at h
  split at h
  · rename_i e' hclimb
    cases h
    rcases (hkeeps.rules.of_climb hclimb hsound).2 with hholds | ⟨next, hnext, -⟩
    · exact hholds
    · cases hnext
  · cases h

end

end Grammar

end SheetFormula
