import Mathlib
import SheetFormula.Proofs.Printable

/-!
# Well-formed expressions

Main statement: `Formula.wellFormed_of_parse`, what the nodes of an expression that was read are. It
holds of every formula, in both locales, under all limits, and of a text with faults too.

1. `Expr.nodes` lists an expression with everything in it, and `Expr.Proper` says what one node is.
2. The grammar reads well-formed expressions from readable tokens: `wellFormed_keeps`.
-/

namespace SheetFormula

namespace Expr

/-! ## Nodes -/

mutual

/-- An expression and all expressions in it, from left to right. -/
def nodes : Expr → List Expr
  | unary op operand => unary op operand :: operand.nodes
  | binary op left right => binary op left right :: (left.nodes ++ right.nodes)
  | call name args => call name args :: nodesOfList args
  | e => [e]

/-- The expressions in a list of arguments. -/
def nodesOfList : List Expr → List Expr
  | [] => []
  | arg :: rest => arg.nodes ++ nodesOfList rest

end

/-- What a node has to be. A token that no rule understands is one only if faults are let pass. -/
def Proper (strict : Bool) : Expr → Prop
  | number value => ∃ code, value = .finite false code
  | cell ref => ref = .ofText ref.raw ∧ ':' ∉ ref.raw.toList
  | cellRange first last => first = .ofText first.raw ∧ last = .ofText last.raw
  | unary op operand => (op = "-" ∨ op = "%") ∧ operand ≠ .emptyArgument
  | binary op left right =>
    op ∈ Operator.binaryTable.map Prod.fst ∧ left ≠ .emptyArgument ∧ right ≠ .emptyArgument
  | call _ args => .emptyArgument ∈ args → 2 ≤ args.length
  | unknown _ => strict = false
  | text _ | logical _ | errorValue _ | emptyArgument => True

/-- An expression whose nodes are what they have to be. It is not itself an argument that is left
out, so that such a node is an argument of a call, which is what `Proper` says of its parent. -/
structure WellFormed (strict : Bool) (e : Expr) : Prop where
  present : e ≠ .emptyArgument
  proper : ∀ node ∈ e.nodes, node.Proper strict

section

variable {strict : Bool}

theorem mem_nodesOfList {args : List Expr} {node : Expr} (h : node ∈ nodesOfList args) :
    ∃ arg ∈ args, node ∈ arg.nodes := by
  induction args with
  | nil => simp [nodesOfList] at h
  | cons arg rest ih =>
    rw [nodesOfList, List.mem_append] at h
    rcases h with h | h
    · exact ⟨arg, List.mem_cons_self, h⟩
    · obtain ⟨arg', harg, hnode⟩ := ih h
      exact ⟨arg', List.mem_cons_of_mem _ harg, hnode⟩

/-- A node without others in it is well formed if it is what it has to be. -/
theorem wellFormed_leaf {e : Expr} (hpresent : e ≠ .emptyArgument) (hnodes : e.nodes = [e])
    (h : e.Proper strict) : e.WellFormed strict := by
  refine ⟨hpresent, fun node hnode => ?_⟩
  rw [hnodes, List.mem_singleton] at hnode
  exact hnode ▸ h

theorem wellFormed_number {value : Number.Binary64} (h : ∃ code, value = .finite false code) :
    (number value).WellFormed strict :=
  wellFormed_leaf (by simp) rfl h

theorem wellFormed_reference (text : String) : (reference text).WellFormed strict := by
  rcases reference_cases text with ⟨h, hcolon⟩ | ⟨first, last, h, -⟩ <;> rw [h]
  · exact wellFormed_leaf (by simp) rfl ⟨rfl, hcolon⟩
  · exact wellFormed_leaf (by simp) rfl ⟨rfl, rfl⟩

theorem wellFormed_unary {op : String} {operand : Expr} (hop : op = "-" ∨ op = "%")
    (h : operand.WellFormed strict) : (unary op operand).WellFormed strict := by
  refine ⟨by simp, fun node hnode => ?_⟩
  rcases List.mem_cons.1 hnode with rfl | hnode
  · exact ⟨hop, h.present⟩
  · exact h.proper node hnode

theorem wellFormed_binary {op : String} {left right : Expr} {precedence : Nat}
    (hop : Operator.binaryPrecedence? op = some precedence) (hleft : left.WellFormed strict)
    (hright : right.WellFormed strict) : (binary op left right).WellFormed strict := by
  refine ⟨by simp, fun node hnode => ?_⟩
  rcases List.mem_cons.1 hnode with rfl | hnode
  · exact ⟨List.mem_map_of_mem (Operator.mem_binaryTable hop), hleft.present, hright.present⟩
  · exact (List.mem_append.1 hnode).elim (hleft.proper node) (hright.proper node)

/-- An argument that is left out is not the only one. -/
theorem wellFormed_call {name : String} {args : List Expr} (hargs : args ≠ [.emptyArgument])
    (h : ∀ arg ∈ args, arg ≠ .emptyArgument → arg.WellFormed strict) :
    (call name args).WellFormed strict := by
  refine ⟨by simp, fun node hnode => ?_⟩
  rcases List.mem_cons.1 hnode with rfl | hnode
  · intro hempty
    match args with
    | [arg] => exact absurd (congrArg (· :: []) (List.mem_singleton.1 hempty).symm) hargs
    | _ :: _ :: _ => simp
  · obtain ⟨arg, harg, hnode⟩ := mem_nodesOfList hnode
    by_cases hempty : arg = .emptyArgument
    · subst hempty
      obtain rfl : node = .emptyArgument := List.mem_singleton.1 hnode
      exact trivial
    · exact (h arg harg hempty).proper node hnode

end

end Expr

/-! ## Reading -/

/-- What is read from readable tokens is well formed. -/
theorem Grammar.wellFormed_keeps (strict : Bool) : Keeps Token.Readable (Expr.WellFormed strict) where
  number {token value} hreadable hnumber hvalue := by
    obtain ⟨code, hcode⟩ := hreadable.number hnumber
    obtain rfl : value = .finite false code := Option.some.inj (hvalue.symm.trans hcode)
    exact ⟨Expr.wellFormed_number ⟨code, rfl⟩,
      Expr.wellFormed_number (Number.percent_finite code)⟩
  text := Expr.wellFormed_leaf (by simp) rfl trivial
  logical := Expr.wellFormed_leaf (by simp) rfl trivial
  reference _ _ := Expr.wellFormed_reference _
  errorValue _ _ := Expr.wellFormed_leaf (by simp) rfl trivial
  minus := Expr.wellFormed_unary (.inl rfl)
  percent hreadable hpercent := Expr.wellFormed_unary (.inr (hreadable.percent hpercent))
  binary := Expr.wellFormed_binary
  call _ _ := Expr.wellFormed_call
  present h := h.present

/-- The expression of a formula is well formed. Where faults are not let pass, it has no token that
no rule understands: such a token stands before another operand, where no expression goes on. -/
theorem Formula.wellFormed_of_parse {options : Options} {formula : String} {e : Expr}
    (h : parse options formula = .ok e) : e.WellFormed options.strict := by
  obtain ⟨hfault, hgrammar⟩ := checked_of_parse h
  refine (Grammar.wellFormed_keeps options.strict).of_parse
    ⟨readable_tokens options.locale formula, ?_⟩ hgrammar
  cases hstrict : options.strict with
  | false => exact .inl fun raw => Expr.wellFormed_leaf (by simp) rfl rfl
  | true => exact .inr (Token.leading_tokens (hfault hstrict))

/-- The argument that `=IF(A1:B2,,-C3)` leaves out is one of three. -/
theorem Formula.wellFormed_of_parse_if : ∃ e,
    parse ⟨.enUS, .standard, true⟩ "=IF(A1:B2,,-C3)" = .ok e ∧ e.WellFormed true := by
  have hscan : Scan.ofFormula .enUS "=IF(A1:B2,,-C3)" =
      ⟨#[⟨"IF", .function, .start, 1, 4⟩, ⟨"A1:B2", .operand, .unspecified, 4, 9⟩,
        ⟨",", .argument, .unspecified, 9, 10⟩, ⟨",", .argument, .unspecified, 10, 11⟩,
        ⟨"-", .infixOp, .unspecified, 11, 12⟩, ⟨"C3", .operand, .unspecified, 12, 14⟩,
        ⟨"", .function, .stop, 14, 15⟩], [], 15, "", 12, .ordinary, none⟩ := by cbv
  have htokens : tokens .enUS "=IF(A1:B2,,-C3)" =
      [⟨"IF", .function, .start, 1, 4⟩, ⟨"A1:B2", .operand, .range, 4, 9⟩,
        ⟨",", .argument, .unspecified, 9, 10⟩, ⟨",", .argument, .unspecified, 10, 11⟩,
        ⟨"-", .prefixOp, .unspecified, 11, 12⟩, ⟨"C3", .operand, .range, 12, 14⟩,
        ⟨"", .function, .stop, 14, 15⟩] := by
    rw [tokens, hscan]
    rfl
  have hparse : parse ⟨.enUS, .standard, true⟩ "=IF(A1:B2,,-C3)" =
      .ok (.call "IF" [.cellRange (.ofText "A1") (.ofText "B2"), .emptyArgument,
        .unary "-" (.cell (.ofText "C3"))]) := by
    rw [parse_of_faultless true (by rw [hscan]), htokens]
    cbv
  exact ⟨_, hparse, wellFormed_of_parse hparse⟩

end SheetFormula
