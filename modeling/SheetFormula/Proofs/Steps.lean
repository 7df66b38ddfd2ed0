import Mathlib.Data.List.TakeWhile
import Mathlib.Logic.Relation
import SheetFormula.Proofs.Readable
import SheetFormula.Proofs.StackParser

/-!
# The steps of the stack parser

Whatever a run does is made of a few kinds of steps, and it stops only for a few causes. Main
statement: `tandem`, about two runs of which the second one has the wider limits.

1. `Step` is one change of a state: tokens are passed one at a time, a leaf comes onto the stack of
   subtrees, or the topmost subtrees become the parts of a new one. The operators that wait come and go
   freely. A `Run` is any number of steps.
2. `Failing` is what a state is like in which a run stops.
3. `Tandem` compares two runs from the same state: where the first one arrives, the second one arrives
   as well; where the first one stops and the second one arrives, a limit was in the way. A tree that was
   too high for the first run is part of a tree of the second one.
-/

namespace SheetFormula

namespace Expr

/-- Whether an expression has no parts. -/
def isLeaf : Expr → Bool
  | unary .. | binary .. | call .. => false
  | _ => true

theorem isLeaf_reference (text : String) : (reference text).isLeaf := by
  unfold reference
  dsimp only
  split <;> rfl

theorem height_of_isLeaf {e : Expr} (h : e.isLeaf) : e.height = 1 := by
  cases e <;> first | rfl | cases h

end Expr

namespace Parser

theorem bind_eq_ok {ε α β : Type} {x : Except ε α} {f : α → Except ε β} {b : β}
    (h : (x >>= f) = .ok b) : ∃ a, x = .ok a ∧ f a = .ok b := by
  cases x with
  | ok a => exact ⟨a, rfl, h⟩
  | error cause => cases h

/-! ## Steps -/

/-- How a new subtree comes from the topmost subtrees, the topmost one first. -/
inductive Node : List Subtree → Subtree → Prop where
  | unary (op : String) (only : Subtree) : Node [only] ⟨.unary op only.expr, only.height + 1⟩
  | binary (op : String) (left right : Subtree) :
      Node [right, left] ⟨.binary op left.expr right.expr, 1 + max left.height right.height⟩
  | call (name : String) (args : List Subtree) :
      Node args.reverse ⟨.call name (args.map (·.expr)), 1 + (args.map (·.height)).foldl max 0⟩

/-- One step of a run. -/
inductive Step (limits : Limits) : State → State → Prop where
  | wait (s : State) (waiting : List Waiting) : Step limits s { s with waiting := waiting }
  | leaf (s : State) {e : Expr} : e.isLeaf → Step limits s (s.addLeaf e)
  | node {s : State} {parts below : List Subtree} {tree : Subtree} :
      s.subtrees = parts ++ below → Node parts tree → tree.height ≤ limits.height →
      Step limits s { s with subtrees := tree :: below }
  | pass {s s' : State} : s.advance = .ok s' → s.peek.opensBracket = false →
      s.peek.closesBracket = false → Step limits s s'
  | enter {s s' : State} : s.advance = .ok s' → s.peek.opensBracket → s.depth < limits.depth →
      Step limits s { s' with depth := s'.depth + 1 }
  | leave {s s' : State} : s.advance = .ok s' → s.peek.closesBracket →
      Step limits s { s' with depth := s'.depth - 1 }

/-- Any number of steps. -/
abbrev Run (limits : Limits) : State → State → Prop := Relation.ReflTransGen (Step limits)

/-- The causes of which a user hears that the syntax is invalid. -/
def misplacements : List SyntaxError :=
  [.invalid, .stalled, .pastEnd, .missingSentinel, .missingOperand, .leftoverOperands]

/-- How a run stops in a state. -/
inductive Failing (limits : Limits) (s : State) : SyntaxError → Prop where
  | misplaced {cause : SyntaxError} : cause ∈ misplacements → Failing limits s cause
  | operator {symbol : String} : ¬ s.peek.Readable → Failing limits s (.unsupportedOperator symbol)
  | number {text : String} : ¬ s.peek.Readable → Failing limits s (.invalidNumber text)
  | tooDeep {s' : State} : s.advance = .ok s' → s.peek.opensBracket → limits.depth ≤ s.depth →
      Failing limits s (.tooDeep limits.depth)
  | tooHigh : Failing limits s (.tooHigh limits.height)

theorem advance_eq_ok {s s' : State} (h : s.advance = .ok s') :
    s.cursor.unread = s.peek :: s'.cursor.unread ∧ s'.cursor.final = s.cursor.final ∧
      s'.subtrees = s.subtrees ∧ s'.waiting = s.waiting ∧ s'.depth = s.depth := by
  obtain ⟨⟨position, unread, final⟩, subtrees, waiting, depth⟩ := s
  cases unread with
  | nil => cases h
  | cons token rest =>
    cases h
    exact ⟨rfl, rfl, rfl, rfl, rfl⟩

theorem advance_eq_error {s : State} {cause : SyntaxError} (h : s.advance = .error cause) :
    cause = .pastEnd := by
  obtain ⟨⟨position, unread, final⟩, subtrees, waiting, depth⟩ := s
  cases unread with
  | nil =>
    cases h
    rfl
  | cons token rest => cases h

/-! ## High trees -/

theorem Node.isLeaf {parts : List Subtree} {tree : Subtree} (h : Node parts tree) :
    tree.expr.isLeaf = false := by
  cases h <;> rfl

theorem le_foldl_max {heights : List Nat} {n init : Nat} (h : n ≤ init ∨ n ∈ heights) :
    n ≤ heights.foldl max init := by
  induction heights generalizing init with
  | nil => simpa using h
  | cons height rest ih =>
    refine ih ?_
    rcases h with h | h
    · exact .inl (Nat.le_trans h (Nat.le_max_left _ _))
    · rcases List.mem_cons.1 h with rfl | h
      · exact .inl (Nat.le_max_right _ _)
      · exact .inr h

/-- A part is lower than the whole. -/
theorem Node.height_lt {parts : List Subtree} {tree : Subtree} (h : Node parts tree) :
    ∀ part ∈ parts, part.height < tree.height := by
  cases h with
  | unary op only => simp
  | binary op left right =>
    simp only [List.mem_cons, List.not_mem_nil, or_false, forall_eq_or_imp, forall_eq]
    omega
  | call name args =>
    intro part hpart
    have hle : part.height ≤ (args.map (·.height)).foldl max 0 :=
      le_foldl_max (.inr (List.mem_map_of_mem (List.mem_reverse.1 hpart)))
    dsimp only
    omega

/-- Whether a tree on the stack has parts and is higher than this. -/
def State.Exceeds (limit : Nat) (s : State) : Prop :=
  ∃ tree ∈ s.subtrees, tree.expr.isLeaf = false ∧ limit < tree.height

theorem Step.exceeds {limits : Limits} {limit : Nat} {s s' : State} (h : Step limits s s')
    (hs : s.Exceeds limit) : s'.Exceeds limit := by
  obtain ⟨tree, htree, hleaf, hhigh⟩ := hs
  cases h with
  | wait => exact ⟨tree, htree, hleaf, hhigh⟩
  | leaf => exact ⟨tree, List.mem_cons_of_mem _ htree, hleaf, hhigh⟩
  | @node parts below whole hsubtrees hnode _ =>
    rcases List.mem_append.1 (hsubtrees ▸ htree) with hpart | hbelow
    · exact ⟨whole, List.mem_cons_self, hnode.isLeaf, Nat.lt_trans hhigh (hnode.height_lt _ hpart)⟩
    · exact ⟨tree, List.mem_cons_of_mem _ hbelow, hleaf, hhigh⟩
  | pass hadvance _ _ => exact ⟨tree, (advance_eq_ok hadvance).2.2.1 ▸ htree, hleaf, hhigh⟩
  | enter hadvance _ _ => exact ⟨tree, (advance_eq_ok hadvance).2.2.1 ▸ htree, hleaf, hhigh⟩
  | leave hadvance _ => exact ⟨tree, (advance_eq_ok hadvance).2.2.1 ▸ htree, hleaf, hhigh⟩

/-- A high tree stays a part of some tree. -/
theorem Run.exceeds {limits : Limits} {limit : Nat} {s s' : State} (h : Run limits s s')
    (hs : s.Exceeds limit) : s'.Exceeds limit := by
  induction h with
  | refl => exact hs
  | tail _ hstep ih => exact hstep.exceeds ih

/-! ## Two runs -/

/-- Two outcomes of steps from `s`, the second one within wider limits. A result says with `place`
where it stands. -/
structure Tandem {β : Type} (limits wide : Limits) (s : State) (place : β → State)
    (low high : Except SyntaxError β) : Prop where
  agrees : ∀ b, low = .ok b → high = .ok b
  lowRuns : ∀ b, low = .ok b → Run limits s (place b)
  highRuns : ∀ b, high = .ok b → Run wide s (place b)
  fails : ∀ cause, low = .error cause → ∃ s', Run limits s s' ∧ Failing limits s' cause
  refuses : ∀ cause b, low = .error cause → high = .ok b →
    cause = .tooDeep limits.depth ∨ cause = .tooHigh limits.height ∧ (place b).Exceeds limits.height

section

variable {β γ : Type} {limits wide : Limits} {s : State} {place : β → State} {place' : γ → State}
  {low high : Except SyntaxError β}

/-- A result of both runs. -/
theorem Tandem.ok {b : β} (hlow : Run limits s (place b)) (hhigh : Run wide s (place b)) :
    Tandem limits wide s place (.ok b) (.ok b) where
  agrees _ h := h
  lowRuns _ h := by cases h; exact hlow
  highRuns _ h := by cases h; exact hhigh
  fails _ h := by cases h
  refuses _ _ h := by cases h

/-- The first run stops; where the second one arrives, a limit was in the way. -/
theorem Tandem.refused {cause : SyntaxError} (h : Failing limits s cause)
    (hruns : ∀ b, high = .ok b → Run wide s (place b))
    (hlimit : ∀ b, high = .ok b → cause = .tooDeep limits.depth ∨
      cause = .tooHigh limits.height ∧ (place b).Exceeds limits.height) :
    Tandem limits wide s place (.error cause) high where
  agrees _ hlow := by cases hlow
  lowRuns _ hlow := by cases hlow
  highRuns := hruns
  fails _ hlow := by cases hlow; exact ⟨s, .refl, h⟩
  refuses _ b hlow hhigh := by cases hlow; exact hlimit b hhigh

/-- Both runs stop alike. -/
theorem Tandem.error {cause : SyntaxError} (h : Failing limits s cause) :
    Tandem limits wide s place (.error cause) (.error cause) :=
  .refused h (fun _ hb => by cases hb) fun _ hb => by cases hb

/-- Two steps of both runs. -/
theorem Tandem.bind {f g : β → Except SyntaxError γ} (h : Tandem limits wide s place low high)
    (hf : ∀ b, high = .ok b → Tandem limits wide (place b) place' (f b) (g b)) :
    Tandem limits wide s place' (low >>= f) (high >>= g) := by
  cases low with
  | ok b =>
    have hhigh : high = .ok b := h.agrees b rfl
    subst hhigh
    have hnext := hf b rfl
    refine ⟨hnext.agrees, fun c hc => (h.lowRuns b rfl).trans (hnext.lowRuns c hc),
      fun c hc => (h.highRuns b rfl).trans (hnext.highRuns c hc), fun cause hc => ?_, hnext.refuses⟩
    obtain ⟨s', hrun, hfailing⟩ := hnext.fails cause hc
    exact ⟨s', (h.lowRuns b rfl).trans hrun, hfailing⟩
  | error cause =>
    have harrives : ∀ c, (high >>= g) = .ok c → ∃ b, high = .ok b ∧ g b = .ok c := by
      intro c hc
      cases high with
      | ok b => exact ⟨b, rfl, hc⟩
      | error _ => cases hc
    refine ⟨fun c hc => (by cases hc), fun c hc => (by cases hc), fun c hc => ?_,
      fun cause' hc => h.fails cause' (by cases hc; rfl), fun cause' c hlow hc => ?_⟩
    · obtain ⟨b, hb, hc⟩ := harrives c hc
      exact (h.highRuns b hb).trans ((hf b hb).highRuns c hc)
    · cases hlow
      obtain ⟨b, hb, hc⟩ := harrives c hc
      exact (h.refuses _ b rfl hb).imp_right fun ⟨hcause, hexceeds⟩ =>
        ⟨hcause, ((hf b hb).highRuns c hc).exceeds hexceeds⟩

end

/-! ## Brackets and operators -/

theorem brackets_of_kind {token : Token} (hcall : token.kind ≠ .function)
    (hgroup : token.kind ≠ .subexpr) :
    token.opensBracket = false ∧ token.closesBracket = false := by
  simp [Token.opensBracket, Token.closesBracket, Token.opensCall, Token.opensGroup, Token.closesCall,
    Token.closesGroup, Token.is, hcall, hgroup]

section

variable {limits wide : Limits} {s : State}

/-- Both runs pass a token that is no bracket. -/
theorem tandem_advance (hcall : s.peek.kind ≠ .function) (hgroup : s.peek.kind ≠ .subexpr) :
    Tandem limits wide s id s.advance s.advance := by
  obtain ⟨hopens, hcloses⟩ := brackets_of_kind hcall hgroup
  cases hadvance : s.advance with
  | ok s' => exact .ok (.single (.pass hadvance hopens hcloses)) (.single (.pass hadvance hopens hcloses))
  | error cause => exact .error (.misplaced (by rw [advance_eq_error hadvance]; decide))

/-- Both runs pass a token behind which a bracket is closed. -/
theorem tandem_leave (h : s.peek.closesBracket) (waiting : List Waiting) :
    Tandem limits wide s id (State.advance { s with waiting := waiting, depth := s.depth - 1 })
      (State.advance { s with waiting := waiting, depth := s.depth - 1 }) := by
  obtain ⟨⟨position, unread, final⟩, subtrees, waiting', depth⟩ := s
  cases unread with
  | nil => exact .error (.misplaced (by decide))
  | cons token rest =>
    have hrun : ∀ l : Limits, Run l ⟨⟨position, token :: rest, final⟩, subtrees, waiting', depth⟩
        ⟨⟨position + 1, rest, final⟩, subtrees, waiting, depth - 1⟩ :=
      fun l => .tail (.single (.leave rfl h)) (.wait _ waiting)
    exact .ok (hrun limits) (hrun wide)

theorem cursor_wait {s' : State} {op : Operator} (h : s.wait limits op = .ok s') :
    s'.cursor = s.cursor := by
  obtain ⟨reduced, hreduced, h⟩ := bind_eq_ok h
  obtain ⟨r, -, hr⟩ := bind_eq_ok hreduced
  cases hr
  cases h
  rfl

theorem unread_applyPostfix {token : Token} {s' : State} (h : applyPostfix limits s token = .ok s') :
    s.cursor.unread = s.peek :: s'.cursor.unread := by
  obtain ⟨passed, hpassed, h⟩ := bind_eq_ok h
  obtain ⟨⟨only, popped⟩, hpopped, h⟩ := bind_eq_ok h
  obtain ⟨subtrees, -, h⟩ := bind_eq_ok h
  cases h
  have hcursor : popped.cursor = passed.cursor := by
    unfold State.pop at hpopped
    split at hpopped
    · cases hpopped
    · cases hpopped
      rfl
  rw [(advance_eq_ok hpassed).1]
  simp only [hcursor]

variable (hheight : limits.height ≤ wide.height)

include hheight

theorem tandem_stack {parts below : List Subtree} {tree : Subtree} (hnode : Node parts tree)
    (hsubtrees : s.subtrees = parts ++ below) :
    Tandem limits wide s (fun subtrees => { s with subtrees := subtrees })
      (stack limits tree.expr tree.height below) (stack wide tree.expr tree.height below) := by
  have hstep : ∀ l : Limits, tree.height ≤ l.height → Run l s { s with subtrees := tree :: below } :=
    fun l hl => .single (.node hsubtrees hnode hl)
  by_cases hlow : limits.height < tree.height
  · have hrefused : stack limits tree.expr tree.height below = .error (.tooHigh limits.height) := if_pos hlow
    rw [hrefused]
    by_cases hhigh : wide.height < tree.height
    · have hrefused' : stack wide tree.expr tree.height below = .error (.tooHigh wide.height) := if_pos hhigh
      rw [hrefused']
      exact .refused .tooHigh (fun _ h => by cases h) fun _ h => by cases h
    · rw [stack, if_neg hhigh]
      refine .refused .tooHigh (fun _ h => ?_) fun _ h => ?_
      · cases h
        exact hstep wide (by omega)
      · cases h
        exact .inr ⟨rfl, tree, List.mem_cons_self, hnode.isLeaf, hlow⟩
  · have hwide : ¬ wide.height < tree.height := by omega
    rw [stack, stack, if_neg hlow, if_neg hwide]
    exact .ok (hstep limits (by omega)) (hstep wide (by omega))

theorem tandem_applyOperator (op : Operator) (s : State) :
    Tandem limits wide s (fun subtrees => { s with subtrees := subtrees })
      (applyOperator limits op s.subtrees) (applyOperator wide op s.subtrees) := by
  unfold applyOperator
  split
  · rename_i right left below _ hsubtrees
    exact tandem_stack hheight (.binary op.symbol left right) hsubtrees
  · rename_i only below _ hsubtrees
    exact tandem_stack hheight (.unary op.symbol only) hsubtrees
  · exact .error (.misplaced (by decide))

theorem tandem_applyWhile (test : Waiting → Bool) (waiting : List Waiting) (s : State) :
    Tandem limits wide s (fun r => { s with waiting := r.1, subtrees := r.2 })
      (applyWhile limits test waiting s.subtrees) (applyWhile wide test waiting s.subtrees) := by
  induction waiting generalizing s with
  | nil => exact .ok (.single (.wait s [])) (.single (.wait s []))
  | cons top below ih =>
    unfold applyWhile
    split
    · cases top with
      | sentinel => exact .error (.misplaced (by decide))
      | operator op =>
        exact (tandem_applyOperator hheight op s).bind fun subtrees _ =>
          ih { s with subtrees := subtrees }
    · exact .ok (.single (.wait s (top :: below))) (.single (.wait s (top :: below)))

theorem tandem_reduceWhile (test : Waiting → Bool) :
    Tandem limits wide s id (s.reduceWhile limits test) (s.reduceWhile wide test) :=
  (tandem_applyWhile hheight test s.waiting s).bind fun _ _ => .ok .refl .refl

theorem tandem_wait (op : Operator) :
    Tandem limits wide s id (s.wait limits op) (s.wait wide op) :=
  (tandem_reduceWhile hheight _).bind fun s' _ =>
    .ok (.single (.wait s' _)) (.single (.wait s' _))

/-! ## Operands -/

theorem tandem_applyPostfix (token : Token) (h : s.peek.isPostfixOp) :
    Tandem limits wide s id (applyPostfix limits s token) (applyPostfix wide s token) := by
  have hkind : s.peek.kind = .postfixOp := by simpa [Token.isPostfixOp] using h
  refine (tandem_advance (by simp [hkind]) (by simp [hkind])).bind fun s' _ => ?_
  obtain ⟨cursor, subtrees, waiting, depth⟩ := s'
  cases subtrees with
  | nil => exact .error (.misplaced (by decide))
  | cons only below =>
    exact (tandem_stack (s := ⟨cursor, only :: below, waiting, depth⟩) hheight (.unary token.value only)
      rfl).bind fun _ _ => .ok .refl .refl

theorem tandem_postfixes (tokens rest : List Token) (s : State) (hs : s.cursor.unread = tokens ++ rest)
    (h : ∀ token ∈ tokens, token.isPostfixOp) :
    Tandem limits wide s id (tokens.foldlM (applyPostfix limits) s)
      (tokens.foldlM (applyPostfix wide) s) := by
  induction tokens generalizing s with
  | nil => exact .ok .refl .refl
  | cons token tokens ih =>
    have hpeek : s.peek = token := by
      rw [State.peek, Token.Cursor.peek, hs]
      rfl
    rw [List.foldlM_cons, List.foldlM_cons]
    refine (tandem_applyPostfix hheight token (hpeek ▸ h token List.mem_cons_self)).bind fun s' hs' => ?_
    have hunread := unread_applyPostfix hs'
    rw [hs, hpeek] at hunread
    exact ih s' (List.cons.inj hunread).2.symm fun t ht => h t (List.mem_cons_of_mem _ ht)

theorem tandem_trailing : Tandem limits wide s id (trailing limits s) (trailing wide s) :=
  tandem_postfixes hheight _ _ s List.takeWhile_append_dropWhile.symm
    fun _ h => List.mem_takeWhile_imp h

omit hheight

/-- Both runs pass a token and put a leaf on the stack. -/
theorem tandem_leaf (hcall : s.peek.kind ≠ .function) (hgroup : s.peek.kind ≠ .subexpr) {e : Expr}
    (he : e.isLeaf) :
    Tandem limits wide s id (s.advance >>= fun s => pure (s.addLeaf e))
      (s.advance >>= fun s => pure (s.addLeaf e)) :=
  (tandem_advance hcall hgroup).bind fun s' _ => .ok (.single (.leaf s' he)) (.single (.leaf s' he))

/-- Both runs read a number, which is the token `token` that they pass. -/
theorem tandem_number (h : s.peek.isNumber) :
    Tandem limits wide s id (s.advance >>= number s.peek) (s.advance >>= number s.peek) := by
  have hkind : s.peek.kind = .operand := (Token.is_iff.1 h).1
  cases hvalue : Number.Binary64.ofText? s.peek.value with
  | none =>
    have hunreadable : ¬ s.peek.Readable := fun hr => by
      obtain ⟨value, hread⟩ := hr.number h
      rw [hvalue] at hread
      cases hread
    cases hadvance : s.advance with
    | error cause => exact .error (.misplaced (by rw [advance_eq_error hadvance]; decide))
    | ok s' =>
      have hcode : number s.peek s' = .error (.invalidNumber s.peek.value) := by rw [number, hvalue]
      rw [ok_bind, hcode]
      exact .error (.number hunreadable)
  | some value =>
    refine (tandem_advance (by simp [hkind]) (by simp [hkind])).bind fun s' _ => ?_
    rw [number, hvalue]
    dsimp only
    split
    · rename_i hpercent
      have hkind' : s'.peek.kind = .postfixOp := by simpa [Token.isPostfixOp] using hpercent
      exact tandem_leaf (by simp [hkind']) (by simp [hkind']) rfl
    · exact .ok (.single (.leaf s' rfl)) (.single (.leaf s' rfl))

theorem tandem_terminal (h : s.peek.isTerminal) :
    Tandem limits wide s id (terminal s) (terminal s) := by
  by_cases hnumber : s.peek.isNumber
  · have hcode : terminal s = s.advance >>= number s.peek := by
      simp only [terminal, hnumber, if_true]
    rw [hcode]
    exact tandem_number hnumber
  · obtain ⟨e, he, hcode⟩ : ∃ e : Expr, e.isLeaf ∧
        terminal s = s.advance >>= fun s => pure (s.addLeaf e) := by
      by_cases htext : s.peek.isText
      · exact ⟨.text s.peek.value, rfl, by simp [terminal, hnumber, htext]⟩
      by_cases hlogical : s.peek.isLogical
      · exact ⟨.logical (s.peek.value == "TRUE"), rfl, by simp [terminal, hnumber, htext, hlogical]⟩
      · exact ⟨.reference s.peek.value, Expr.isLeaf_reference _,
          by simp [terminal, hnumber, htext, hlogical]⟩
    have hkind : s.peek.kind = .operand := by
      simp only [Token.isTerminal, Token.isNumber, Token.isText, Token.isLogical, Token.isRange,
        Bool.or_eq_true, Token.is_iff] at h
      tauto
    rw [hcode]
    exact tandem_leaf (by simp [hkind]) (by simp [hkind]) he

/-- Both runs open a bracket. -/
theorem tandem_enter (hdepth : limits.depth ≤ wide.depth) (h : s.peek.opensBracket) :
    Tandem limits wide s id (s.advance >>= fun s => s.enter limits)
      (s.advance >>= fun s => s.enter wide) := by
  cases hadvance : s.advance with
  | error cause => exact .error (.misplaced (by rw [advance_eq_error hadvance]; decide))
  | ok s' =>
    have heq : s'.depth = s.depth := (advance_eq_ok hadvance).2.2.2.2
    have hrun : ∀ l : Limits, s.depth < l.depth →
        Run l s { s' with waiting := .sentinel :: s'.waiting, depth := s'.depth + 1 } :=
      fun l hl => .tail (.single (.enter hadvance h hl)) (.wait _ _)
    have hentered : ∀ l : Limits, s.depth < l.depth → s'.enter l =
        .ok { s' with waiting := .sentinel :: s'.waiting, depth := s'.depth + 1 } :=
      fun l hl => if_neg (by omega)
    have hrefused : ∀ l : Limits, l.depth ≤ s.depth → s'.enter l = .error (.tooDeep l.depth) :=
      fun l hl => if_pos (by omega)
    rw [ok_bind, ok_bind]
    rcases Nat.lt_or_ge s.depth limits.depth with hlow | hlow
    · rw [hentered limits hlow, hentered wide (by omega)]
      exact .ok (hrun limits hlow) (hrun wide (by omega))
    · rw [hrefused limits hlow]
      refine .refused (.tooDeep hadvance h hlow) (fun _ hb => ?_) fun _ _ => .inl rfl
      rcases Nat.lt_or_ge s.depth wide.depth with hhigh | hhigh
      · rw [hentered wide hhigh] at hb
        cases hb
        exact hrun wide hhigh
      · rw [hrefused wide hhigh] at hb
        cases hb

/-- Both runs close a parenthesis. -/
theorem tandem_closeGroup :
    Tandem limits wide s id
      (s.leave >>= fun s => if s.peek.closesGroup then s.advance else .error .invalid)
      (s.leave >>= fun s => if s.peek.closesGroup then s.advance else .error .invalid) := by
  obtain ⟨cursor, subtrees, waiting, depth⟩ := s
  rcases waiting with _ | ⟨_ | op, below⟩
  · exact .error (.misplaced (by decide))
  · by_cases hclose : cursor.peek.closesGroup
    · have hcode : (State.leave ⟨cursor, subtrees, .sentinel :: below, depth⟩ >>= fun s =>
          if s.peek.closesGroup then s.advance else .error .invalid) =
          State.advance ⟨cursor, subtrees, below, depth - 1⟩ := if_pos hclose
      rw [hcode]
      exact tandem_leave (s := ⟨cursor, subtrees, .sentinel :: below, depth⟩)
        (by rw [Token.closesBracket, Bool.or_eq_true]; exact .inr hclose) below
    · have hcode : (State.leave ⟨cursor, subtrees, .sentinel :: below, depth⟩ >>= fun s =>
          if s.peek.closesGroup then s.advance else .error .invalid) = .error .invalid := if_neg hclose
      rw [hcode]
      exact .error (.misplaced (by decide))
  · exact .error (.misplaced (by decide))

include hheight in
/-- Both runs make a call of its arguments and close its bracket. -/
theorem tandem_finishCall (name : String) (arity : Nat) (h : s.peek.closesCall) :
    Tandem limits wide s id (finishCall limits name arity s) (finishCall wide name arity s) := by
  obtain ⟨cursor, subtrees, waiting, depth⟩ := s
  by_cases hlength : (subtrees.take arity).length < arity
  · have hpopped : State.popMany ⟨cursor, subtrees, waiting, depth⟩ arity = .error .missingOperand :=
      if_pos hlength
    rw [finishCall, finishCall, hpopped]
    exact .error (.misplaced (by decide))
  have hpopped : ∀ waiting, State.popMany ⟨cursor, subtrees, waiting, depth⟩ arity =
      .ok ((subtrees.take arity).reverse, ⟨cursor, subtrees.drop arity, waiting, depth⟩) :=
    fun _ => if_neg hlength
  rcases waiting with _ | ⟨_ | op, below⟩
  · rw [finishCall, finishCall, hpopped]
    exact .error (.misplaced (by decide))
  · have hparts : subtrees = (subtrees.take arity).reverse.reverse ++ subtrees.drop arity := by
      rw [List.reverse_reverse, List.take_append_drop]
    have hcode : ∀ l : Limits, finishCall l name arity ⟨cursor, subtrees, .sentinel :: below, depth⟩ =
        (stack l (.call name ((subtrees.take arity).reverse.map (·.expr)))
          (1 + ((subtrees.take arity).reverse.map (·.height)).foldl max 0) (subtrees.drop arity) >>=
          fun subtrees => State.advance ⟨cursor, subtrees, below, depth - 1⟩) := by
      intro l
      rw [finishCall, hpopped]
      exact bind_assoc (m := Except SyntaxError) _ _ _
    rw [hcode, hcode]
    exact (tandem_stack (s := ⟨cursor, subtrees, .sentinel :: below, depth⟩) hheight
      (.call name (subtrees.take arity).reverse) hparts).bind fun subtrees' _ =>
        tandem_leave (s := ⟨cursor, subtrees', .sentinel :: below, depth⟩)
          (by rw [Token.closesBracket, Bool.or_eq_true]; exact .inl h) below
  · rw [finishCall, finishCall, hpopped]
    exact .error (.misplaced (by decide))

end

/-! ## Expressions -/

/-- What the functions of the parser do with this fuel. -/
structure TandemAt (limits wide : Limits) (fuel : Nat) : Prop where
  expression (s : State) : Tandem limits wide s id (expression limits fuel s) (expression wide fuel s)
  chain (s : State) : Tandem limits wide s id (chain limits fuel s) (chain wide fuel s)
  operand (s : State) : Tandem limits wide s id (operand limits fuel s) (operand wide fuel s)
  arguments (separated : Bool) (arity : Nat) (s : State) :
    Tandem limits wide s Prod.snd (arguments limits fuel separated arity s)
      (arguments wide fuel separated arity s)

/-- Arguments end in front of the token that closes their call. -/
theorem closesCall_arguments {limits : Limits} {fuel : Nat} {separated : Bool} {arity : Nat} {s : State}
    {r : Nat × State} (h : arguments limits fuel separated arity s = .ok r) : r.2.peek.closesCall := by
  induction fuel generalizing separated arity s with
  | zero => cases h
  | succ fuel ih =>
    rw [arguments] at h
    split at h
    · rename_i hclose
      split at h <;> cases h <;> exact hclose
    · rw [← ite_bind] at h
      obtain ⟨s', -, h⟩ := bind_eq_ok h
      dsimp only at h
      split at h
      · obtain ⟨s'', -, h⟩ := bind_eq_ok h
        exact ih h
      split at h
      · rename_i hclose
        cases h
        exact hclose
      · cases h

section

variable {limits wide : Limits} {fuel : Nat} (hdepth : limits.depth ≤ wide.depth)
  (hheight : limits.height ≤ wide.height) (h : TandemAt limits wide fuel)

include h

theorem tandem_expression (s : State) :
    Tandem limits wide s id (expression limits (fuel + 1) s) (expression wide (fuel + 1) s) :=
  (h.operand s).bind fun s' _ => h.chain s'

theorem tandem_arguments (separated : Bool) (arity : Nat) (s : State) :
    Tandem limits wide s Prod.snd (arguments limits (fuel + 1) separated arity s)
      (arguments wide (fuel + 1) separated arity s) := by
  rw [arguments, arguments]
  split
  · split
    · exact .ok (.single (.leaf s rfl)) (.single (.leaf s rfl))
    · exact .ok .refl .refl
  · rw [← ite_bind, ← ite_bind]
    refine @Tandem.bind _ _ _ _ _ id _ _ _ _ _ ?_ fun s _ => ?_
    · split
      · exact .ok (.single (.leaf s rfl)) (.single (.leaf s rfl))
      · exact h.expression s
    dsimp only [id]
    split
    · rename_i hseparates
      have hkind : s.peek.kind = .argument := by simpa [Token.separatesArguments] using hseparates
      exact (tandem_advance (by simp [hkind]) (by simp [hkind])).bind fun s _ =>
        h.arguments true (arity + 1) s
    split
    · exact .ok .refl .refl
    · exact .error (.misplaced (by decide))

include hheight

theorem tandem_chain (s : State) :
    Tandem limits wide s id (chain limits (fuel + 1) s) (chain wide (fuel + 1) s) := by
  rw [chain, chain]
  split
  · rename_i hbinary
    have hkind : s.peek.kind = .infixOp := by simpa [Token.isInfixOp] using hbinary
    cases hread : Operator.binaryPrecedence? s.peek.value with
    | none =>
      rw [Operator.binary, hread]
      refine .error (.operator fun hr => ?_)
      obtain ⟨precedence, hp⟩ := hr.operator hbinary
      rw [hread] at hp
      cases hp
    | some precedence =>
      rw [Operator.binary, hread]
      refine (tandem_wait hheight _).bind fun waited hwaited => ?_
      have hpeek : waited.peek = s.peek := by rw [State.peek, cursor_wait hwaited]; rfl
      exact (tandem_advance (by simp [hpeek, hkind]) (by simp [hpeek, hkind])).bind fun s _ =>
        (h.operand s).bind fun s _ => h.chain s
  · exact tandem_reduceWhile hheight _

include hdepth

theorem tandem_primary (s : State) :
    Tandem limits wide s id (primary limits fuel s.peek s) (primary wide fuel s.peek s) := by
  unfold primary
  split
  · rename_i hterminal
    exact tandem_terminal hterminal
  split
  · rename_i hgroup
    have hopens : s.peek.opensBracket := by rw [Token.opensBracket, hgroup, Bool.or_true]
    simp only [← bind_assoc s.advance]
    refine (tandem_enter hdepth hopens).bind fun s _ => (h.expression s).bind fun s _ =>
      tandem_closeGroup
  split
  · rename_i hcall
    have hopens : s.peek.opensBracket := by rw [Token.opensBracket, hcall, Bool.true_or]
    simp only [← bind_assoc s.advance]
    exact (tandem_enter hdepth hopens).bind fun s _ => (h.arguments false 0 s).bind fun r hr =>
      tandem_finishCall hheight _ r.1 (closesCall_arguments hr)
  split
  · rename_i herror
    have hkind : s.peek.kind = .operand := (Token.is_iff.1 herror).1
    exact tandem_leaf (by simp [hkind]) (by simp [hkind]) rfl
  split
  · rename_i hunknown
    have hkind : s.peek.kind = .unknown := by simpa [Token.isUnknown] using hunknown
    exact tandem_leaf (by simp [hkind]) (by simp [hkind]) rfl
  · exact .error (.misplaced (by decide))

theorem tandem_operand (s : State) :
    Tandem limits wide s id (operand limits (fuel + 1) s) (operand wide (fuel + 1) s) := by
  by_cases hsign : s.peek.isPrefixOp
  · have hkind : s.peek.kind = .prefixOp := by simpa [Token.isPrefixOp] using hsign
    rw [operand, operand]
    simp only [hsign, if_true]
    by_cases hminus : s.peek.value = "-"
    · rw [Operator.unary, if_pos hminus]
      refine (tandem_wait hheight _).bind fun waited hwaited => ?_
      have hpeek : waited.peek = s.peek := by rw [State.peek, cursor_wait hwaited]; rfl
      exact (tandem_advance (by simp [hpeek, hkind]) (by simp [hpeek, hkind])).bind fun s _ =>
        h.operand s
    · rw [Operator.unary, if_neg hminus]
      exact .error (.operator fun hr => hminus (hr.minus hsign))
  · have hsign : s.peek.isPrefixOp = false := by simpa using hsign
    rw [operand_eq _ _ hsign, operand_eq _ _ hsign]
    exact (tandem_primary hdepth hheight h s).bind fun _ _ => tandem_trailing hheight

end

/-- What a run makes of tokens is independent of its limits, unless one of them is in the way. -/
theorem tandem {limits wide : Limits} (hdepth : limits.depth ≤ wide.depth)
    (hheight : limits.height ≤ wide.height) (fuel : Nat) : TandemAt limits wide fuel := by
  induction fuel with
  | zero => constructor <;> intros <;> exact .error (.misplaced (by decide))
  | succ fuel ih =>
    exact ⟨tandem_expression ih, tandem_chain hheight ih, tandem_operand hdepth hheight ih,
      tandem_arguments ih⟩

end Parser

end SheetFormula
