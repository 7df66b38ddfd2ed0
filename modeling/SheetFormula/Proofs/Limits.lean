import SheetFormula.Proofs.Steps

/-!
# What the limits of a run decide

Main statement: `parse_within`. A run refuses a list of tokens that a run without limits accepts exactly
where brackets nest too deep in the tokens or the tree is too high, and else it finds the same tree.

1. `Token.nesting` is read off the tokens. A run opens a bracket only within its limit, so that what is
   still to read `Fits` behind every step exactly if it fitted in front of it: `Step.fits`.
2. Every tree on the stack is a leaf or within the limit of heights, and it has the height that stands
   beside it: `Step.sound`.
3. That a limit was in the way of a run that stops is `Tandem.refuses`.
-/

namespace SheetFormula

namespace Token

/-- How many brackets are open behind the innermost start of a list of tokens, with `depth` of them
open in front of it. -/
def nestingFrom (depth : Nat) : List Token → Nat
  | [] => 0
  | token :: rest =>
    if token.opensBracket then max (depth + 1) (nestingFrom (depth + 1) rest)
    else if token.closesBracket then nestingFrom (depth - 1) rest
    else nestingFrom depth rest

/-- How deep calls and parentheses nest. -/
def nesting (tokens : List Token) : Nat := nestingFrom 0 tokens

theorem not_opensBracket_of_closesBracket {token : Token} (h : token.closesBracket) :
    token.opensBracket = false := by
  simp only [closesBracket, closesCall, closesGroup, Bool.or_eq_true, is_iff] at h
  rcases h with ⟨-, h⟩ | ⟨-, h⟩ <;> simp [opensBracket, opensCall, opensGroup, is, h]

end Token

namespace Parser

section

variable {limits wide : Limits} {s s' : State}

/-! ## Depth -/

/-- Whether the brackets that are still to read nest within the limit. -/
def State.Fits (limits : Limits) (s : State) : Prop :=
  Token.nestingFrom s.depth s.cursor.unread ≤ limits.depth

theorem Step.fits (h : Step limits s s') : s.Fits limits ↔ s'.Fits limits := by
  unfold State.Fits
  cases h with
  | wait | leaf | node => exact Iff.rfl
  | pass hadvance hopens hcloses =>
    obtain ⟨hunread, -, -, -, hdepth⟩ := advance_eq_ok hadvance
    rw [hunread, Token.nestingFrom, hopens, hcloses, hdepth]
    exact Iff.rfl
  | enter hadvance hopens hlimit =>
    obtain ⟨hunread, -, -, -, hdepth⟩ := advance_eq_ok hadvance
    rw [hunread, Token.nestingFrom, if_pos hopens, hdepth, Nat.max_le]
    exact and_iff_right hlimit
  | leave hadvance hcloses =>
    obtain ⟨hunread, -, -, -, hdepth⟩ := advance_eq_ok hadvance
    rw [hunread, Token.nestingFrom, Token.not_opensBracket_of_closesBracket hcloses, if_pos hcloses, hdepth]
    exact Iff.rfl

theorem Run.fits (h : Run limits s s') : s.Fits limits ↔ s'.Fits limits := by
  induction h with
  | refl => exact Iff.rfl
  | tail _ hstep ih => exact ih.trans hstep.fits

theorem Failing.not_fits (h : Failing limits s (.tooDeep limits.depth)) : ¬ s.Fits limits := by
  cases h with
  | misplaced h => simp [misplacements] at h
  | tooDeep hadvance hopens hlimit =>
    unfold State.Fits
    rw [(advance_eq_ok hadvance).1, Token.nestingFrom, if_pos hopens]
    omega

/-! ## Height -/

/-- Whether the trees on the stack are as high as it says there, and within the limit where they have
parts. -/
def State.Sound (limits : Limits) (s : State) : Prop :=
  ∀ tree ∈ s.subtrees, tree.height = tree.expr.height ∧
    (tree.expr.isLeaf ∨ tree.height ≤ limits.height)

theorem Node.height_eq {parts : List Subtree} {tree : Subtree} (h : Node parts tree)
    (hparts : ∀ part ∈ parts, part.height = part.expr.height) : tree.height = tree.expr.height := by
  cases h with
  | unary op only => rw [hparts only List.mem_cons_self, Expr.height]
  | binary op left right =>
    rw [hparts left (by simp), hparts right (by simp), Expr.height]
  | call name args =>
    have hof : ((args.map (·.expr)).map Subtree.of) = args := by
      rw [List.map_map]
      refine (List.map_congr_left fun part hpart => ?_).trans (List.map_id args)
      simp only [Function.comp_apply, Subtree.of, ← hparts part (List.mem_reverse.2 hpart)]
      rfl
    rw [Expr.height, ← height_args, hof]

theorem Step.sound (h : Step limits s s') (hs : s.Sound limits) : s'.Sound limits := by
  cases h with
  | wait => exact hs
  | leaf hleaf =>
    exact List.forall_mem_cons.2 ⟨⟨(Expr.height_of_isLeaf hleaf).symm, .inl hleaf⟩, hs⟩
  | node hsubtrees hnode hlimit =>
    refine List.forall_mem_cons.2 ⟨⟨hnode.height_eq fun part hpart => ?_, .inr hlimit⟩, fun tree htree => ?_⟩
    · exact (hs part (hsubtrees ▸ List.mem_append_left _ hpart)).1
    · exact hs tree (hsubtrees ▸ List.mem_append_right _ htree)
  | pass hadvance _ _ | enter hadvance _ _ | leave hadvance _ =>
    unfold State.Sound
    rw [(advance_eq_ok hadvance).2.2.1]
    exact hs

theorem Run.sound (h : Run limits s s') (hs : s.Sound limits) : s'.Sound limits := by
  induction h with
  | refl => exact hs
  | tail _ hstep ih => exact hstep.sound ih

/-! ## Whole runs -/

/-- The run over all tokens, before it looks whether it has come to their end. -/
def wholeRun (limits : Limits) (tokens : List Token) : Outcome :=
  expression limits (3 * tokens.length + 3) (.initial tokens)

/-- Whether a run has read all tokens into this expression. -/
def Finished (s : State) (e : Expr) : Prop :=
  s.cursor.unread = [] ∧ ∃ root, s.subtrees = [root] ∧ root.expr = e

theorem parse_eq_run {tokens : List Token} (h : tokens ≠ []) :
    parse limits tokens = (wholeRun limits tokens >>= fun s =>
      if !s.cursor.atEnd then .error .invalid
      else s.pop >>= fun r => if !r.2.subtrees.isEmpty then .error .leftoverOperands else .ok r.1.expr) := by
  rw [parse, if_neg (by simpa using h)]
  rfl

theorem parse_eq_ok {tokens : List Token} {e : Expr} (h : tokens ≠ []) :
    parse limits tokens = .ok e ↔ ∃ s, wholeRun limits tokens = .ok s ∧ Finished s e := by
  rw [parse_eq_run h]
  cases wholeRun limits tokens with
  | error cause => simp [bind, Except.bind]
  | ok s =>
    obtain ⟨⟨position, unread, final⟩, subtrees, waiting, depth⟩ := s
    rw [ok_bind]
    rcases unread with _ | ⟨token, rest⟩
    · rcases subtrees with _ | ⟨root, _ | ⟨second, below⟩⟩
      · simp [Token.Cursor.atEnd, State.pop, Finished, bind, Except.bind]
      · simp [Token.Cursor.atEnd, State.pop, Finished, bind, Except.bind]
      · simp [Token.Cursor.atEnd, State.pop, Finished, bind, Except.bind]
    · simp [Token.Cursor.atEnd, Finished]

/-- Whether limits have room for the brackets and the tree of a list of tokens. -/
def Limits.Admit (limits : Limits) (tokens : List Token) (e : Expr) : Prop :=
  Token.nesting tokens ≤ limits.depth ∧ (e.height ≤ limits.height ∨ e.isLeaf)

/-- A run that arrives is within its limits. -/
theorem admit_of_run {tokens : List Token} {e : Expr} (h : Run limits (.initial tokens) s)
    (hs : Finished s e) : limits.Admit tokens e := by
  obtain ⟨hunread, root, hsubtrees, rfl⟩ := hs
  have hfits : s.Fits limits := by
    rw [State.Fits, hunread]
    exact Nat.zero_le _
  have hsound : s.Sound limits := h.sound fun tree htree => by cases htree
  obtain ⟨hheight, hlimit⟩ := hsound root (by rw [hsubtrees]; exact List.mem_cons_self)
  exact ⟨h.fits.2 hfits, hlimit.symm.imp_left fun hle => hheight ▸ hle⟩

/-- Wider limits change a run only if the narrower ones refuse what it finds. -/
theorem parse_of_wider {tokens : List Token} {e : Expr} (hdepth : limits.depth ≤ wide.depth)
    (hheight : limits.height ≤ wide.height) (h : parse wide tokens = .ok e) :
    limits.Admit tokens e ∧ parse limits tokens = .ok e ∨
      ¬ limits.Admit tokens e ∧ (parse limits tokens = .error (.tooDeep limits.depth) ∨
        parse limits tokens = .error (.tooHigh limits.height)) := by
  have hne : tokens ≠ [] := by
    rintro rfl
    cases h
  obtain ⟨s, hrun, hs⟩ := (parse_eq_ok hne).1 h
  have htandem := (tandem hdepth hheight (3 * tokens.length + 3)).expression (.initial tokens)
  cases hlow : wholeRun limits tokens with
  | ok s' =>
    obtain rfl : s = s' := Except.ok.inj (hrun.symm.trans (htandem.agrees s' hlow))
    exact .inl ⟨admit_of_run (htandem.lowRuns s hlow) hs, (parse_eq_ok hne).2 ⟨s, hlow, hs⟩⟩
  | error cause =>
    have hstops : parse limits tokens = .error cause := by rw [parse_eq_run hne, hlow]; rfl
    right
    rcases htandem.refuses cause s hlow hrun with rfl | ⟨rfl, tree, htree, hleaf, hhigh⟩
    · obtain ⟨s', hrun', hfailing⟩ := htandem.fails _ hlow
      exact ⟨fun hroom => hfailing.not_fits (hrun'.fits.1 hroom.1), .inl hstops⟩
    · obtain ⟨-, root, hsubtrees, rfl⟩ := hs
      obtain rfl : tree = root := List.mem_singleton.1 (hsubtrees ▸ htree)
      have hsound : s.Sound wide := (htandem.highRuns s hrun).sound fun tree htree => by cases htree
      have hheight' : tree.height = tree.expr.height := (hsound tree htree).1
      refine ⟨fun hroom => ?_, .inr hstops⟩
      rcases hroom.2 with hle | hleaf'
      · omega
      · rw [hleaf] at hleaf'
        cases hleaf'

end

/-- The limits decide whether a list of tokens is read, and nothing else: where a run without limits finds
a tree, a run with limits finds the same tree if they have room for it, and stops with the message of
one of them if not. -/
theorem parse_within {limits wide : Limits} {tokens : List Token} (hdepth : tokens.length ≤ wide.depth)
    (hheight : tokens.length ≤ wide.height) :
    (∀ e, parse wide tokens = .ok e →
      (limits.Admit tokens e → parse limits tokens = .ok e) ∧
      (¬ limits.Admit tokens e → ∃ cause, parse limits tokens = .error cause ∧
        (cause.message = "Formula nesting exceeds " ++ toString limits.depth ++ " levels" ∨
          cause.message = "Expression exceeds " ++ toString limits.height ++ " levels"))) ∧
    (∀ cause, parse wide tokens = .error cause → ∃ cause', parse limits tokens = .error cause') := by
  have hwider : ∀ e, parse wide tokens = .ok e →
      parse ⟨max limits.depth wide.depth, max limits.height wide.height⟩ tokens = .ok e := by
    intro e h
    have hread := grammar_of_parse h
    have hlow := Grammar.height_parse hread
    exact parse_of_grammar hread (by dsimp only; omega) (by dsimp only; omega)
  refine ⟨fun e h => ?_, fun cause h => ?_⟩
  · rcases parse_of_wider (Nat.le_max_left limits.depth wide.depth)
      (Nat.le_max_left limits.height wide.height) (hwider e h) with
      ⟨hroom, hok⟩ | ⟨hroom, hstops⟩
    · exact ⟨fun _ => hok, fun hnot => absurd hroom hnot⟩
    · refine ⟨fun h => absurd h hroom, fun _ => ?_⟩
      rcases hstops with hstops | hstops
      · exact ⟨_, hstops, .inl rfl⟩
      · exact ⟨_, hstops, .inr rfl⟩
  · cases hlimited : parse limits tokens with
    | error cause' => exact ⟨cause', rfl⟩
    | ok e =>
      have hread := grammar_of_parse hlimited
      have hlow := Grammar.height_parse hread
      rw [parse_of_grammar hread (by omega) (by omega)] at h
      cases h

/-- `(A1)` needs room for one bracket and none for its height. -/
theorem parse_within_group :
    (parse ⟨1, 0⟩ [⟨"", .subexpr, .start, 0, 1⟩, ⟨"A1", .operand, .range, 1, 3⟩,
        ⟨"", .subexpr, .stop, 3, 4⟩] = .ok (.cell (.ofText "A1"))) ∧
      ∃ cause, parse ⟨0, 0⟩ [⟨"", .subexpr, .start, 0, 1⟩, ⟨"A1", .operand, .range, 1, 3⟩,
        ⟨"", .subexpr, .stop, 3, 4⟩] = .error cause ∧
        (cause.message = "Formula nesting exceeds " ++ toString 0 ++ " levels" ∨
          cause.message = "Expression exceeds " ++ toString 0 ++ " levels") := by
  have hwide : parse .standard [⟨"", .subexpr, .start, 0, 1⟩, ⟨"A1", .operand, .range, 1, 3⟩,
      ⟨"", .subexpr, .stop, 3, 4⟩] = .ok (.cell (.ofText "A1")) := rfl
  refine ⟨((parse_within (by decide) (by decide)).1 _ hwide).1 ⟨by decide, .inr rfl⟩,
    ((@parse_within ⟨0, 0⟩ .standard _ (by decide) (by decide)).1 _ hwide).2 fun h => ?_⟩
  exact absurd h.1 (by decide)

end Parser

end SheetFormula
