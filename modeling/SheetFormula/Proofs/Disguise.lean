import SheetFormula.Proofs.Settling

/-!
# Reading texts in disguise

Main statement: `Spells.marks`, a round trip for the text of every expression.

1. The text of a percentage is not always read back as one, and a call loses an `@` of its name when
   it is read. Both are undone by a detour: `disguise` replaces the tokens `%` by a mark that is joined
   by an intersection, and writes an `@` in front of every name.
2. `marked` does the same to an expression, so that the disguised tokens are read as the marked
   expression, without a condition on it.
3. An expression can be told from its marked form: `unmarked_marked`.
-/

namespace SheetFormula

open Token Grammar

namespace Expr

mutual

/-- The expression with its percentages written as intersections with a mark. -/
def marked : Expr → Expr
  | unary op operand =>
    if op = percentSign then binary " " operand.marked (errorValue percentSign)
    else unary op operand.marked
  | binary op left right => binary op left.marked right.marked
  | call name args => call name (markedList args)
  | e => e

/-- The expressions with their percentages written so. -/
def markedList : List Expr → List Expr
  | [] => []
  | arg :: rest => arg.marked :: markedList rest

end

/-- Whether an expression is the mark of a percentage. -/
def isMark : Expr → Bool
  | errorValue value => value == percentSign
  | _ => false

mutual

/-- The expression that is marked so. -/
def unmarked : Expr → Expr
  | unary op operand => unary op operand.unmarked
  | binary op left right =>
    if right.isMark then unary percentSign left.unmarked
    else binary op left.unmarked right.unmarked
  | call name args => call name (unmarkedList args)
  | e => e

/-- The expressions that are marked so. -/
def unmarkedList : List Expr → List Expr
  | [] => []
  | arg :: rest => arg.unmarked :: unmarkedList rest

end

theorem markedList_eq (args : List Expr) : markedList args = args.map marked := by
  induction args with
  | nil => rw [markedList, List.map_nil]
  | cons arg args ih => rw [markedList, ih, List.map_cons]

theorem unmarkedList_eq (args : List Expr) : unmarkedList args = args.map unmarked := by
  induction args with
  | nil => rw [unmarkedList, List.map_nil]
  | cons arg args ih => rw [unmarkedList, ih, List.map_cons]

variable {e : Expr}

theorem marked_leaf (h : e.Leaf) : e.marked = e := by
  have hleaf := h.isLeaf
  cases e with
  | unary | binary | call => cases hleaf
  | _ => rw [marked] <;> simp

theorem unmarked_leaf (h : e.Leaf) : e.unmarked = e := by
  have hleaf := h.isLeaf
  cases e with
  | unary | binary | call => cases hleaf
  | _ => rw [unmarked] <;> simp

theorem marked_percent (operand : Expr) :
    (unary percentSign operand).marked = binary " " operand.marked (errorValue percentSign) := by
  rw [marked, if_pos rfl]

/-- No error literal is the mark. -/
theorem isMark_leaf (h : e.Leaf) : e.isMark = false := by
  rcases h with _ | _ | _ | ⟨_, _, _⟩ | herror
  case reference value _ _ _ =>
    rcases reference_cases value with ⟨h, -⟩ | ⟨first, last, h, -⟩ <;> rw [h] <;> rfl
  case errorValue =>
    obtain ⟨sheet, literal, rfl, -, hliteral⟩ := herror
    have hsharp : ∀ literal ∈ Scan.errorLiterals, '#' ∈ literal.toList := by decide
    simp only [isMark, beq_eq_false_iff_ne]
    intro heq
    have hmem : '#' ∈ (sheet ++ literal).toList := by simp [hsharp literal hliteral]
    rw [heq] at hmem
    exact absurd hmem (by decide)
  all_goals rfl

theorem isMark_marked (h : e.Printable) : e.marked.isMark = false := by
  cases h with
  | leaf h => rw [marked_leaf h, isMark_leaf h]
  | minus => rfl
  | percent =>
    rw [marked_percent]
    rfl
  | binary =>
    rw [marked]
    rfl
  | call =>
    rw [marked]
    rfl

theorem unmarked_marked (h : e.Printable) : e.marked.unmarked = e := by
  induction h with
  | leaf h => rw [marked_leaf h, unmarked_leaf h]
  | minus _ ih => rw [marked, if_neg (by decide), unmarked, ih]
  | percent _ ih =>
    rw [marked_percent, unmarked, if_pos (by decide), ih]
  | binary _ _ hright ihleft ihright =>
    rw [marked, unmarked, isMark_marked hright, if_neg Bool.false_ne_true, ihleft, ihright]
  | @call name args _ _ _ ih =>
    rw [marked, unmarked, markedList_eq, unmarkedList_eq, List.map_map]
    congr 1
    refine (List.map_congr_left fun arg harg => ?_).trans (List.map_id args)
    by_cases hempty : arg = .emptyArgument
    · rw [hempty]
      rfl
    · exact ih arg harg hempty

/-- Marking makes no expression bind more loosely. -/
theorem precedence_marked (e : Expr) : e.precedence ≤ e.marked.precedence := by
  cases e with
  | unary op operand =>
    rw [marked]
    split_ifs with hop
    · rw [hop]
      exact (by decide : 6 ≤ 8)
    · exact Nat.le_refl _
  | binary | call =>
    rw [marked]
    exact Nat.le_refl _
  | _ => exact Nat.le_refl _

theorem level_le_marked (needed : Bool) (e : Expr) : level needed e ≤ level needed e.marked := by
  cases needed with
  | true => exact Nat.le_refl _
  | false => exact precedence_marked e

/-- A percentage binds as tightly as an intersection once it is marked. -/
theorem level_percent (operand : Expr) :
    8 ≤ level (operand.guardedFrom percentSign) operand.marked := by
  unfold level
  split_ifs with hneeded
  · decide
  rw [guardedFrom, if_pos rfl] at hneeded
  cases operand with
  | number => exact absurd rfl hneeded
  | unary op _ =>
    have hop : op = percentSign := by simpa [guardedFromPercent] using hneeded
    rw [hop, marked_percent]
    exact Nat.le_refl 8
  | binary op left right =>
    obtain ⟨precedence, hop, hsix, hentry⟩ := precedence_of_unguarded (Bool.eq_false_iff.2 hneeded)
    have height : ∀ entry ∈ Operator.binaryTable, 6 ≤ entry.2 → 8 ≤ entry.2 := by decide
    rw [marked, precedence_binary hop]
    exact height _ hentry hsix
  | _ => exact (by decide : 8 ≤ 9)

/-- Only an argument that is left out is marked as one. -/
theorem marked_ne_emptyArgument (h : e ≠ .emptyArgument) : e.marked ≠ .emptyArgument := by
  cases e with
  | unary op operand =>
    rw [marked]
    split_ifs <;> simp
  | emptyArgument => exact absurd rfl h
  | _ => simp [marked]

theorem markedList_ne {args : List Expr} (h : args ≠ [.emptyArgument]) :
    markedList args ≠ [.emptyArgument] := by
  intro heq
  rw [markedList_eq, List.map_eq_singleton_iff] at heq
  obtain ⟨arg, rfl, hmarked⟩ := heq
  exact marked_ne_emptyArgument (fun hempty => h (by rw [hempty])) hmarked

end Expr

namespace Token

open SheetFormula.Expr

/-! ## Disguised tokens -/

/-- A raw token in disguise. -/
def disguiseOne (token : Token) : List Token :=
  if token.isPostfixOp then
    [⟨" ", .whitespace, .unspecified, 0, 0⟩, ⟨percentSign, .operand, .error, 0, 0⟩]
  else if token.opensCall then [{ token with value := "@" ++ token.value }]
  else [token]

/-- Raw tokens in disguise. -/
def disguise (tokens : List Token) : List Token := tokens.flatMap disguiseOne

variable {token : Token} {raws tokens tokens' : List Token}

theorem disguise_append : disguise (tokens ++ tokens') = disguise tokens ++ disguise tokens' :=
  List.flatMap_append

theorem disguise_cons : disguise (token :: tokens) = disguiseOne token ++ disguise tokens := rfl

theorem disguiseOne_of_not (hpercent : token.kind ≠ .postfixOp) (hopens : token.opensCall = false) :
    disguiseOne token = [token] := by
  rw [disguiseOne, if_neg (by simpa [isPostfixOp] using hpercent), hopens,
    if_neg Bool.false_ne_true]

theorem disguiseOne_of_kind (hpercent : token.kind ≠ .postfixOp) (hfunction : token.kind ≠ .function) :
    disguiseOne token = [token] :=
  disguiseOne_of_not hpercent (by simp [opensCall, Token.is, hfunction])

theorem disguiseOne_of_stop (hstop : token.subkind = .stop) (hpercent : token.kind ≠ .postfixOp) :
    disguiseOne token = [token] :=
  disguiseOne_of_not hpercent (by simp [opensCall, Token.is, hstop])

theorem disguiseOne_operator {op : String} (h : Scan.SpellsOperator op token) :
    disguiseOne token = [token] := by
  have hkind := h.kind
  split_ifs at hkind <;> exact disguiseOne_of_kind (by simp [hkind]) (by simp [hkind])

theorem disguiseOne_call (h : token.opensCall) :
    disguiseOne token = [{ token with value := "@" ++ token.value }] := by
  have hkind : token.kind = .function := (is_iff.1 h).1
  rw [disguiseOne, if_neg (by simp [isPostfixOp, hkind]), if_pos h]

theorem disguise_joined {parts : List (List Token)} (h : Joined parts tokens) :
    Joined (parts.map disguise) (disguise tokens) := by
  induction parts generalizing tokens with
  | nil =>
    cases h
    rfl
  | cons part parts ih =>
    cases parts with
    | nil =>
      cases h
      rfl
    | cons next parts =>
      obtain ⟨separator, rest, hseparator, rfl, hjoined⟩ := h
      have hkind : separator.kind = .argument := by simpa [separatesArguments] using hseparator
      refine ⟨separator, disguise rest, hseparator, ?_, ih hjoined⟩
      rw [disguise_append, disguise_cons, disguiseOne_of_kind (by simp [hkind]) (by simp [hkind])]
      rfl

theorem disguise_concat (h : token.closesBracket) :
    disguise (tokens ++ [token]) = disguise tokens ++ [token] := by
  have hstop : (token.kind = .function ∨ token.kind = .subexpr) ∧ token.subkind = .stop := by
    simp only [closesBracket, closesCall, closesGroup, Token.is, Bool.or_eq_true, Bool.and_eq_true,
      beq_iff_eq] at h
    rcases h with ⟨hkind, hstop⟩ | ⟨hkind, hstop⟩
    · exact ⟨.inl hkind, hstop⟩
    · exact ⟨.inr hkind, hstop⟩
  have hpercent : token.kind ≠ .postfixOp := by
    rcases hstop.1 with h | h <;> simp [h]
  rw [disguise_append, disguise_cons, disguiseOne_of_stop hstop.2 hpercent]
  rfl

/-- A call loses the `@` of its disguise. -/
theorem marks_call {name : String} {opener close : Token} {inner : List Token}
    {slots : List (Expr × List Token)} (hopener : opener.opensCall ∧ opener.value = name)
    (hclose : close.closesCall) (hne : slots.map Prod.fst ≠ [.emptyArgument])
    (h : ∀ slot ∈ slots, Settles (disguise slot.2) (FillsSlot slot.1.marked))
    (hjoined : Joined (slots.map Prod.snd) inner) :
    Writes 9 (disguise (opener :: (inner ++ [close])))
      (Holds (.call name (markedList (slots.map Prod.fst)))) := by
  have hargs : markedList (slots.map Prod.fst) =
      (slots.map fun slot => (slot.1.marked, disguise slot.2)).map Prod.fst := by
    rw [markedList_eq, List.map_map, List.map_map]
    rfl
  have hparts : Joined ((slots.map fun slot => (slot.1.marked, disguise slot.2)).map Prod.snd)
      (disguise inner) := by
    have hdisguised := disguise_joined hjoined
    rw [List.map_map] at hdisguised ⊢
    exact hdisguised
  have hname : withoutAt ("@" ++ opener.value) = name := by
    have htext : ("@" ++ opener.value).toList = '@' :: opener.value.toList := by simp
    rw [withoutAt_of_at htext, String.ofList_toList, hopener.2]
  have hslots : ∀ slot ∈ slots.map fun slot => (slot.1.marked, disguise slot.2),
      Settles slot.2 (FillsSlot slot.1) := by
    intro slot' hslot'
    obtain ⟨slot, hslot, rfl⟩ := List.mem_map.1 hslot'
    exact h slot hslot
  have hopens : Token.opensCall { opener with value := "@" ++ opener.value } := hopener.1
  rw [disguise_cons, disguiseOne_call hopener.1, disguise_concat (by simp [closesBracket, hclose]),
    hargs]
  exact writes_call hopens hname hclose (hargs ▸ markedList_ne hne) hslots hparts

/-- The disguised tokens of the text of an expression are read as the marked expression. -/
theorem Spells.marks {needed : Bool} {e : Expr} (h : Spells needed e raws) :
    Writes (level needed e.marked) (disguise raws) (Climbs (level needed e.marked) e.marked) := by
  induction h with
  | @leaf e start stop hleaf =>
    have hlevel : level false e = 9 := precedence_leaf hleaf
    rw [marked_leaf hleaf, hlevel]
    exact (writes_leaf hleaf).imp fun tokens hread => hread.1
  | @minus operand sign tokens hsign _ ih =>
    have hlevel := (level_minus operand).trans (level_le_marked _ operand)
    rw [marked, if_neg (by decide), disguise_cons, disguiseOne_operator hsign]
    exact writes_minus ih hsign fun sign' tokens hminus hvalue hread =>
      climbs_minus hread hlevel hminus hvalue
  | @percent operand sign tokens hsign _ ih =>
    have hdisguise : disguise (tokens ++ [sign]) = disguise tokens ++
        ⟨" ", .whitespace, .unspecified, 0, 0⟩ :: [⟨percentSign, .operand, .error, 0, 0⟩] := by
      have hpercent : sign.isPostfixOp := by simp [isPostfixOp, hsign.1]
      rw [disguise_append, disguise_cons, disguiseOne, if_pos hpercent]
      rfl
    have hmark : Writes 9 [⟨percentSign, .operand, .error, 0, 0⟩] fun tokens =>
        Climbs 9 (.errorValue percentSign) tokens ∧ (isWhole (.errorValue percentSign) → Holds _ _) :=
      writes_single rfl (fun _ => rfl) fun rest => by rw [primary]; rfl
    have hop : Operator.binaryPrecedence? " " = some 8 := rfl
    have hlevel : level false (.binary " " operand.marked (.errorValue percentSign)) = 8 := rfl
    rw [marked_percent, hlevel, hdisguise]
    refine writes_binary hop ⟨rfl, rfl, rfl⟩ ih hmark (level_percent operand) (by decide)
      fun sign' tokens tokens' hbinary hvalue hread hread' => ?_
    rw [← hvalue]
    exact climbs_binary hbinary (by rw [hvalue, hop]) hread hread'.1 (level_percent operand) (by decide)
  | @binary op precedence left right sign front back hop hsign _ _ ihleft ihright =>
    have hleft := (level_left hop left).trans (level_le_marked _ left)
    have hright := (level_right hop right).trans_le (level_le_marked _ right)
    have hlevel : level false (.binary op left.marked right.marked) = precedence :=
      (precedence_binary hop : (Expr.binary op left.marked right.marked).precedence = precedence)
    rw [marked, hlevel, disguise_append, disguise_cons, disguiseOne_operator hsign]
    refine writes_binary hop hsign ihleft ihright hleft hright
      fun sign' tokens tokens' hbinary hvalue hread hread' => ?_
    rw [← hvalue]
    exact climbs_binary hbinary (by rw [hvalue, hop]) hread hread' hleft hright
  | @call name opener close inner slots hopener hclose hne hempty _ hjoined ih =>
    have hslots : ∀ slot ∈ slots, Settles (disguise slot.2) (FillsSlot slot.1.marked) := by
      intro slot hslot
      by_cases harg : slot.1 = .emptyArgument
      · rw [hempty slot hslot harg, harg]
        exact settles_nil.imp fun tokens htokens => .inl ⟨rfl, htokens⟩
      · exact (ih slot hslot harg).settled.imp fun tokens hread => .inr ⟨_, hread⟩
    have hlevel : level false (.call name (markedList (slots.map Prod.fst))) = 9 := rfl
    rw [marked, hlevel]
    exact (marks_call hopener hclose hne hslots hjoined).imp fun tokens hholds =>
      climbs_of_holds hholds
  | @group e opener close tokens hopens hcloses _ ih =>
    have hkind : (opener.kind = .subexpr ∧ opener.subkind = .start) ∧
        close.kind = .subexpr ∧ close.subkind = .stop := ⟨is_iff.1 hopens, is_iff.1 hcloses⟩
    have hdisguise : disguise (opener :: (tokens ++ [close])) =
        opener :: (disguise tokens ++ [close]) := by
      rw [disguise_cons, disguiseOne_of_kind (by simp [hkind]) (by simp [hkind]),
        disguise_concat (by simp [closesBracket, hcloses])]
      rfl
    rw [hdisguise]
    exact (writes_group hopens hcloses ih.settled).imp fun tokens hholds => climbs_of_holds hholds

end Token

end SheetFormula
