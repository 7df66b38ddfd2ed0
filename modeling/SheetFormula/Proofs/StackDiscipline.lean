import SheetFormula.Proofs.Contracts
import SheetFormula.Proofs.Limits

/-!
# The discipline of the stacks

Main statement: `stacks_disciplined`, about all calls of a run, for every list of tokens and all limits.

1. A `Task` is a function of the parser in front of its work, and `Calls` says which tasks a task turns
   to. Fuel plays no part in it.
2. `Task.Good` is what the contracts ask of a state in front of a task, and all trees on its stack have
   the height that stands beside them: `Calls.good` keeps it.
3. Every task turns to smaller ones only, by the tokens that are still to read, so that the calls of a run
   come to an end: `acc_calls`.
4. For the same reason no round of `chain` starts where the last one did, and to look out for it changes
   nothing: `guardedChain_eq`.
-/

namespace SheetFormula.Parser

open SheetFormula.Parser.Frame (stacked operands)

/-! ## Calls -/

/-- A function of the parser with what it is called on. -/
inductive Task where
  | expression (s : State)
  | chain (s : State)
  | operand (s : State)
  | arguments (separated : Bool) (arity : Nat) (s : State)
  /-- The operators that pass a test are applied. -/
  | reduce (test : Waiting → Bool) (s : State)
  /-- The operators behind an operand are applied. -/
  | trailing (s : State)
  /-- A call is made of its arguments. -/
  | finish (arity : Nat) (s : State)

/-- The state in front of a task. -/
def Task.state : Task → State
  | .expression s | .chain s | .operand s | .arguments _ _ s | .reduce _ s | .trailing s | .finish _ s => s

/-- Which tasks a task turns to. A loop turns to the rest of its rounds. -/
inductive Calls (limits : Limits) : Task → Task → Prop where
  | expression_operand (s : State) : Calls limits (.expression s) (.operand s)
  | expression_chain {fuel : Nat} {s s' : State} :
      operand limits fuel s = .ok s' → Calls limits (.expression s) (.chain s')
  | chain_wait {s : State} {op : Operator} :
      s.peek.isInfixOp → Operator.binary s.peek.value = .ok op →
      Calls limits (.chain s) (.reduce (·.precedes op) s)
  | chain_operand {s s' : State} {op : Operator} :
      s.peek.isInfixOp → Operator.binary s.peek.value = .ok op →
      (s.wait limits op >>= State.advance) = .ok s' → Calls limits (.chain s) (.operand s')
  | chain_chain {fuel : Nat} {s s' : State} {op : Operator} :
      s.peek.isInfixOp → Operator.binary s.peek.value = .ok op →
      (s.wait limits op >>= State.advance >>= operand limits fuel) = .ok s' →
      Calls limits (.chain s) (.chain s')
  | chain_reduce {s : State} :
      s.peek.isInfixOp = false → Calls limits (.chain s) (.reduce (· != .sentinel) s)
  | operand_wait {s : State} {op : Operator} :
      s.peek.isPrefixOp → Operator.unary s.peek.value = .ok op →
      Calls limits (.operand s) (.reduce (·.precedes op) s)
  | operand_operand {s s' : State} {op : Operator} :
      s.peek.isPrefixOp → Operator.unary s.peek.value = .ok op →
      (s.wait limits op >>= State.advance) = .ok s' → Calls limits (.operand s) (.operand s')
  | operand_expression {s s' : State} :
      s.peek.opensGroup → (s.advance >>= State.enter limits) = .ok s' →
      Calls limits (.operand s) (.expression s')
  | operand_arguments {s s' : State} :
      s.peek.opensCall → (s.advance >>= State.enter limits) = .ok s' →
      Calls limits (.operand s) (.arguments false 0 s')
  | operand_finish {fuel arity : Nat} {s s' : State} :
      s.peek.opensCall →
      (s.advance >>= State.enter limits >>= arguments limits fuel false 0) = .ok (arity, s') →
      Calls limits (.operand s) (.finish arity s')
  | operand_trailing {fuel : Nat} {s s' : State} :
      s.peek.isPrefixOp = false → primary limits fuel s.peek s = .ok s' →
      Calls limits (.operand s) (.trailing s')
  | arguments_expression {separated : Bool} {arity : Nat} {s : State} :
      s.peek.closesCall = false → s.peek.separatesArguments = false →
      Calls limits (.arguments separated arity s) (.expression s)
  | arguments_arguments {fuel arity : Nat} {separated : Bool} {s s' s'' : State} :
      s.peek.closesCall = false →
      (if s.peek.separatesArguments then pure (s.addLeaf .emptyArgument) else expression limits fuel s) =
        .ok s' →
      s'.peek.separatesArguments → s'.advance = .ok s'' →
      Calls limits (.arguments separated arity s) (.arguments true (arity + 1) s'')
  | reduce_reduce {test : Waiting → Bool} {s : State} {op : Operator} {waiting : List Waiting}
      {subtrees : List Subtree} :
      s.waiting = .operator op :: waiting → test (.operator op) →
      applyOperator limits op s.subtrees = .ok subtrees →
      Calls limits (.reduce test s) (.reduce test { s with waiting := waiting, subtrees := subtrees })
  | trailing_trailing {s s' : State} :
      s.peek.isPostfixOp → applyPostfix limits s s.peek = .ok s' → Calls limits (.trailing s) (.trailing s')

/-- The tasks of a run over these tokens. -/
abbrev Called (limits : Limits) (tokens : List Token) : Task → Prop :=
  Relation.ReflTransGen (Calls limits) (.expression (.initial tokens))

/-! ## What stands in front of a task -/

/-- Whether the trees have the heights that stand beside them. -/
def Honest (subtrees : List Subtree) : Prop := ∀ tree ∈ subtrees, tree.height = tree.expr.height

/-- What stands above the topmost sentinel in front of a task. -/
def Task.Fits : Task → List Frame → List Expr → Prop
  | .expression _, frames, tops => frames = [] ∧ tops = []
  | .chain _, _, tops | .trailing _, _, tops => ∃ e, tops = [e]
  | .operand _, _, tops => tops = []
  | .arguments _ arity _, frames, tops => frames = [] ∧ tops.length = arity
  | .finish arity _, frames, tops => frames = [] ∧ tops.length = arity
  | .reduce test _, _, tops => test .sentinel = false ∧ ((∃ e, tops = [e]) ∨ ∀ top, test top = false)

/-- Whether a state is fit for its task. -/
def Task.Good (task : Task) : Prop :=
  ∃ frames tops below waiting depth, Honest below ∧ Stands frames tops below waiting depth task.state ∧
    task.Fits frames tops

section

variable {limits : Limits} {frames : List Frame} {tops : List Expr} {e : Expr} {below : List Subtree}
  {waiting : List Waiting} {depth : Nat} {s s' : State} {task next : Task}

theorem honest_of (e : Expr) (h : Honest below) : Honest (.of e :: below) :=
  List.forall_mem_cons.2 ⟨rfl, h⟩

theorem honest_operands (h : Honest below) : Honest (operands frames below) := by
  induction frames with
  | nil => exact h
  | cons frame frames ih =>
    cases frame with
    | binary => exact honest_of _ ih
    | minus => exact ih

theorem Stands.honest (hs : Stands frames tops below waiting depth s) (h : Honest below) :
    Honest s.subtrees := by
  rw [hs.subtrees]
  refine List.forall_mem_append.2 ⟨fun tree htree => ?_, honest_operands h⟩
  obtain ⟨e, -, rfl⟩ := List.mem_map.1 htree
  rfl

theorem Task.Good.honest (h : task.Good) : Honest task.state.subtrees := by
  obtain ⟨frames, tops, below, waiting, depth, hhonest, hs, -⟩ := h
  exact hs.honest hhonest

/-- A round of the loop that applies operators closes the topmost frame. -/
theorem Stands.round {op : Operator} {waiting' : List Waiting} {subtrees : List Subtree}
    (hs : Stands frames [e] below waiting depth s) (hwaiting : s.waiting = .operator op :: waiting')
    (happly : applyOperator limits op s.subtrees = .ok subtrees) :
    ∃ frames' e', Stands frames' [e'] below waiting depth
      { s with waiting := waiting', subtrees := subtrees } := by
  rw [hs.waiting] at hwaiting
  rw [hs.subtrees] at happly
  cases frames with
  | nil => cases hwaiting
  | cons frame frames =>
    obtain ⟨hop, rfl⟩ := List.cons.inj hwaiting
    cases hop
    have hstack : Keeps True (· = .of (frame.close e) :: operands frames below)
        (stack limits (frame.close e) (frame.close e).height (operands frames below)) := keeps_stack _
    obtain rfl := hstack.result ((applyOperator_frame limits frame frames e below).symm.trans happly)
    exact ⟨frames, frame.close e, hs.of_cursor rfl rfl rfl hs.depth⟩

/-! ## What a task turns to -/

/-- What becomes less from task to task: the tokens that are still to read, and in the loops that read no
operand what is left to apply. -/
def Task.measure : Task → Nat × Nat
  | .chain s | .operand s => (3 * s.cursor.unread.length + 1, 0)
  | .expression s => (3 * s.cursor.unread.length + 2, 0)
  | .arguments _ _ s => (3 * s.cursor.unread.length + 3, 0)
  | .reduce _ s => (0, s.waiting.length)
  | .trailing s => (0, s.cursor.unread.length)
  | .finish _ _ => (0, 0)

/-- Whether a task is smaller than another one. -/
def Task.Less (next task : Task) : Prop := Prod.Lex (· < ·) (· < ·) next.measure task.measure

theorem good_of (hhonest : Honest below) (hs : Stands frames tops below waiting depth task.state)
    (hfits : task.Fits frames tops) : task.Good :=
  ⟨frames, tops, below, waiting, depth, hhonest, hs, hfits⟩

/-- A task behind a token more is smaller than one that reads an operand. -/
theorem less_of_past (hpast : Past 1 task.state next.state)
    (hreads : 3 * task.state.cursor.unread.length < task.measure.1) : next.Less task := by
  have hle : next.measure.1 ≤ 3 * next.state.cursor.unread.length + 3 := by
    cases next <;> simp [Task.measure, Task.state]
  have hunread := hpast.unread
  exact Prod.lex_def.2 (.inl (by omega))

/-- A task turns to tasks for which the state is fit, and which are smaller. -/
theorem Calls.good (h : Calls limits task next) (hgood : task.Good) : next.Good ∧ next.Less task := by
  obtain ⟨frames, tops, below, waiting, depth, hhonest, hs, hfits⟩ := hgood
  cases h with
  | expression_operand s =>
    obtain ⟨rfl, rfl⟩ := hfits
    exact ⟨good_of hhonest hs rfl, .left _ _ (Nat.lt_succ_self _)⟩
  | expression_chain hread =>
    obtain ⟨rfl, rfl⟩ := hfits
    obtain ⟨⟨frames', e, hs'⟩, hpast⟩ := ((contracts limits _).operand hs).result hread
    exact ⟨good_of hhonest hs' ⟨e, rfl⟩, less_of_past hpast (Nat.lt_add_of_pos_right Nat.two_pos)⟩
  | chain_wait _ _ | chain_reduce _ =>
    obtain ⟨e, rfl⟩ := hfits
    exact ⟨good_of hhonest hs ⟨rfl, .inl ⟨e, rfl⟩⟩, .left _ _ (Nat.succ_pos _)⟩
  | chain_operand hinfixOp hop hnext =>
    obtain ⟨e, rfl⟩ := hfits
    obtain ⟨⟨frames', hs'⟩, hpast⟩ :=
      (hs.keeps_infixOp hinfixOp (binary_arity hop) : Keeps True _ _).result hnext
    exact ⟨good_of hhonest hs' rfl, less_of_past hpast (Nat.lt_succ_self _)⟩
  | chain_chain hinfixOp hop hnext =>
    obtain ⟨e, rfl⟩ := hfits
    obtain ⟨s₁, hwait, hread⟩ := bind_eq_ok hnext
    obtain ⟨⟨frames', hs₁⟩, hpast₁⟩ :=
      (hs.keeps_infixOp hinfixOp (binary_arity hop) : Keeps True _ _).result hwait
    obtain ⟨⟨frames'', e', hs₂⟩, hpast₂⟩ := ((contracts limits _).operand hs₁).result hread
    have hpast := (hpast₁.trans hpast₂).mono (Nat.le_succ 1)
    exact ⟨good_of hhonest hs₂ ⟨e', rfl⟩, less_of_past hpast (Nat.lt_succ_self _)⟩
  | operand_wait _ hop =>
    obtain rfl := hfits
    rw [unary_eq hop]
    refine ⟨good_of hhonest hs ⟨rfl, .inr ?_⟩, .left _ _ (Nat.succ_pos _)⟩
    rintro (_ | _) <;> rfl
  | operand_operand hprefixOp hop hnext =>
    obtain rfl := hfits
    rw [unary_eq hop] at hnext
    obtain ⟨hs', hpast⟩ := (hs.keeps_prefixOp hprefixOp : Keeps True _ _).result hnext
    exact ⟨good_of hhonest hs' rfl, less_of_past hpast (Nat.lt_succ_self _)⟩
  | operand_expression hopens hnext | operand_arguments hopens hnext =>
    obtain rfl := hfits
    have hkind := kind_ne_of_is hopens (by decide)
    obtain ⟨hs', hpast⟩ := (hs.keeps_open hkind : Keeps True _ _).result hnext
    exact ⟨good_of (honest_operands hhonest) hs' ⟨rfl, rfl⟩, less_of_past hpast (Nat.lt_succ_self _)⟩
  | operand_finish hopens hnext =>
    obtain rfl := hfits
    obtain ⟨s₁, hopen, hread⟩ := bind_eq_ok hnext
    have hkind := kind_ne_of_is hopens (by decide)
    obtain ⟨hs₁, -⟩ := (hs.keeps_open hkind : Keeps True _ _).result hopen
    obtain ⟨⟨args, harity, hs₂⟩, -⟩ :=
      ((contracts limits _).arguments false List.length_nil hs₁).result hread
    exact ⟨good_of (honest_operands hhonest) hs₂ ⟨rfl, harity⟩, .left _ _ (Nat.succ_pos _)⟩
  | operand_trailing _ hread =>
    obtain rfl := hfits
    obtain ⟨⟨e, hs'⟩, -⟩ := (keeps_primary (contracts limits _) hs).result hread
    exact ⟨good_of hhonest hs' ⟨e, rfl⟩, .left _ _ (Nat.succ_pos _)⟩
  | arguments_expression _ _ =>
    obtain ⟨rfl, -⟩ := hfits
    have hbelow : Honest (tops.map .of ++ below) := hs.subtrees ▸ hs.honest hhonest
    have hhidden : Stands [] [] (tops.map .of ++ below) waiting depth (Task.state (.expression _)) :=
      ⟨hs.final, hs.subtrees, hs.waiting, hs.depth⟩
    exact ⟨good_of hbelow hhidden ⟨rfl, rfl⟩, .left _ _ (Nat.lt_succ_self _)⟩
  | arguments_arguments _ hslot hseparates hnext =>
    obtain ⟨rfl, harity⟩ := hfits
    obtain ⟨⟨arg, hs₁⟩, hpast₁⟩ := (keeps_slot (contracts limits _) hs).result hslot
    have hkind := kind_ne_of_kind hseparates (by decide)
    obtain ⟨hs₂, hpast₂⟩ := (hs₁.keeps_advance hkind : Keeps True _ _).result hnext
    have hpast := hpast₁.trans hpast₂
    exact ⟨good_of hhonest hs₂ ⟨rfl, congrArg (· + 1) harity⟩,
      less_of_past hpast (Nat.lt_add_of_pos_right (Nat.succ_pos 2))⟩
  | reduce_reduce hwaiting htest happly =>
    obtain ⟨hsentinel, ⟨e, rfl⟩ | hnone⟩ := hfits
    · obtain ⟨frames', e', hs'⟩ := hs.round hwaiting happly
      refine ⟨good_of hhonest hs' ⟨hsentinel, .inl ⟨e', rfl⟩⟩, .right _ ?_⟩
      show _ < List.length (State.waiting _)
      rw [hwaiting]
      exact Nat.lt_succ_self _
    · rw [hnone] at htest
      cases htest
  | trailing_trailing hpostfix hnext =>
    obtain ⟨e, rfl⟩ := hfits
    have hkind := kind_ne_of_kind hpostfix (by decide)
    obtain ⟨rest, hunread⟩ := hs.unread hkind
    obtain ⟨⟨e', hs'⟩, hpast, hrest⟩ := (hs.keeps_applyPostfix hunread : Keeps True _ _).result hnext
    refine ⟨good_of hhonest hs' ⟨e', rfl⟩, .right _ ?_⟩
    exact hpast.unread

/-! ## Runs -/

/-- In front of the first token only the outermost sentinel stands on a stack. -/
theorem stands_initial (tokens : List Token) : Stands [] [] [] [] 0 (.initial tokens) := ⟨rfl, rfl, rfl, rfl⟩

/-- The state in front of every task of a run is fit for it. -/
theorem Called.good {tokens : List Token} (h : Called limits tokens task) : task.Good := by
  induction h with
  | refl => exact good_of (fun tree htree => by cases htree) (stands_initial tokens) ⟨rfl, rfl⟩
  | tail _ hcall ih => exact (hcall.good ih).1

theorem less_wf : WellFounded Task.Less :=
  InvImage.wf Task.measure (Prod.lex Nat.lt_wfRel Nat.lt_wfRel).wf

/-- From a fit state the calls come to an end, whatever becomes of them. -/
theorem acc_calls (h : task.Good) : Acc (fun next task => Calls limits task next) task := by
  induction task using less_wf.induction with
  | h task ih =>
    exact ⟨_, fun next hcall => ih next (hcall.good h).2 (hcall.good h).1⟩

/-! ## Rounds of a chain -/

/-- The rounds of `chain`, none of which may start where the last one did. -/
def guardedChain (limits : Limits) : Nat → Option Nat → State → Outcome
  | 0, _, _ => .error .stalled
  | fuel + 1, last, s =>
    if s.peek.isInfixOp then
      if last = some s.cursor.position then .error .stalled
      else do
        let op ← Operator.binary s.peek.value
        let next ← s.wait limits op
        let next ← next.advance
        guardedChain limits fuel (some s.cursor.position) (← operand limits fuel next)
    else s.reduceAll limits

/-- Two continuations that agree on what a contract allows give the same outcome. -/
theorem Keeps.bind_congr {β γ : Type} {enough : Prop} {Result : β → Prop}
    {outcome : Except SyntaxError β} {f g : β → Except SyntaxError γ} (h : Keeps enough Result outcome)
    (hfg : ∀ b, Result b → f b = g b) : (outcome >>= f) = (outcome >>= g) := by
  cases outcome with
  | ok b => exact hfg b h
  | error cause => rfl

/-- Every round passes an operator and its operand, so that the guard makes no difference. -/
theorem guardedChain_eq (fuel : Nat) (last : Option Nat) (hs : Stands frames [e] below waiting depth s)
    (hlast : ∀ position ∈ last, position < s.cursor.position) :
    guardedChain limits fuel last s = chain limits fuel s := by
  induction fuel generalizing frames e last s with
  | zero => rfl
  | succ fuel ih =>
    rw [guardedChain, chain]
    split_ifs with hinfixOp hstart
    · exact absurd (hlast _ hstart) (lt_irrefl _)
    · refine (keeps_lookup.1 : Keeps True _ _).bind_congr fun op hop => ?_
      rw [← bind_assoc _ State.advance, ← bind_assoc _ State.advance]
      refine (hs.keeps_infixOp hinfixOp (binary_arity hop) : Keeps True _ _).bind_congr ?_
      rintro s₁ ⟨⟨frames', hs₁⟩, hpast₁⟩
      refine ((contracts limits fuel).operand hs₁).bind_congr ?_
      rintro s₂ ⟨⟨frames'', e', hs₂⟩, hpast₂⟩
      refine ih _ hs₂ fun position hposition => ?_
      obtain rfl := Option.some.inj hposition
      have := (hpast₁.trans hpast₂).position
      omega
    · rfl

/-! ## The discipline -/

/-- What a call of `expression` does between two states. -/
structure ReadsOne (s s' : State) : Prop where
  position : s.cursor.position < s'.cursor.position
  subtrees : ∃ e, s'.subtrees = .of e :: s.subtrees
  waiting : s'.waiting = s.waiting
  depth : s'.depth = s.depth

/-- The discipline that a run over these tokens keeps. -/
structure Disciplined (limits : Limits) (tokens : List Token) : Prop where
  /-- Every expression begins behind a sentinel. -/
  sentinel : ∀ s, Called limits tokens (.expression s) → s.waiting.head? = some .sentinel
  readsOne : ∀ fuel s s', Called limits tokens (.expression s) → expression limits fuel s = .ok s' →
    ReadsOne s s'
  heights : ∀ task, Called limits tokens task → Honest task.state.subtrees
  /-- No run goes on for ever. -/
  terminates : Acc (fun next task => Calls limits task next) (.expression (.initial tokens))
  /-- No round of a chain starts where the last one did. -/
  moves : ∀ fuel s, Called limits tokens (.expression s) →
    expression limits (fuel + 1) s = operand limits fuel s >>= guardedChain limits fuel none
  /-- Three calls for each token that is still to read, and two more, are enough. -/
  expression_error : ∀ fuel s cause, Called limits tokens (.expression s) →
    3 * s.cursor.unread.length + 1 < fuel → expression limits fuel s = .error cause → cause ∉ mishaps
  parse_error : ∀ cause, parse limits tokens = .error cause → cause ∉ mishaps

/-- What stands in front of an expression is hidden behind the sentinel. -/
theorem Task.Good.stands (h : (Task.expression s).Good) :
    ∃ below waiting depth, Stands [] [] below waiting depth s := by
  obtain ⟨frames, tops, below, waiting, depth, -, hs, rfl, rfl⟩ := h
  exact ⟨below, waiting, depth, hs⟩

theorem Stands.readsOne {fuel : Nat} (hs : Stands [] [] below waiting depth s)
    (hread : expression limits fuel s = .ok s') : ReadsOne s s' := by
  obtain ⟨⟨e, hs'⟩, hpast⟩ := ((contracts limits fuel).expression hs).result hread
  exact {
    position := hpast.position
    subtrees := ⟨e, hs'.subtrees.trans (congrArg _ hs.subtrees.symm)⟩
    waiting := hs'.waiting.trans hs.waiting.symm
    depth := hs'.depth.trans hs.depth.symm }

/-- A whole run stops for a mistake of the formula only. -/
theorem keeps_parse (limits : Limits) (tokens : List Token) :
    Keeps True (fun _ => True) (parse limits tokens) := by
  by_cases htokens : tokens = []
  · subst htokens
    exact keeps_error (by simp [mishaps])
  have hinitial := stands_initial tokens
  have hrun := (contracts limits (3 * tokens.length + 3)).expression hinitial
  rw [parse_eq_run htokens]
  refine (hrun.mono (fun _ => ?_) fun _ h => h).bind ?_
  · show 3 * tokens.length + 1 < _
    omega
  rintro s ⟨⟨e, hs⟩, -⟩
  split_ifs
  · exact keeps_error (by simp [mishaps])
  · rw [State.pop, hs.subtrees]
    trivial

/-- Every expression of a run begins behind a sentinel; where it succeeds it has passed a token, and it
leaves one tree more with its own height beside it and all else as it was. The calls of a run come to an
end, and it stops for none of the mishaps. -/
theorem stacks_disciplined (limits : Limits) (tokens : List Token) : Disciplined limits tokens where
  sentinel s h := by
    obtain ⟨below, waiting, depth, hs⟩ := h.good.stands
    rw [hs.waiting]
    rfl
  readsOne fuel s s' h hread := by
    obtain ⟨below, waiting, depth, hs⟩ := h.good.stands
    exact hs.readsOne hread
  heights task h := h.good.honest
  terminates := acc_calls (Called.good (Relation.ReflTransGen.refl : Called limits tokens _))
  moves fuel s h := by
    obtain ⟨below, waiting, depth, hs⟩ := h.good.stands
    rw [expression]
    refine ((contracts limits fuel).operand hs).bind_congr ?_
    rintro s' ⟨⟨frames, e, hs'⟩, -⟩
    exact (guardedChain_eq fuel none hs' fun position h => by cases h).symm
  expression_error fuel s cause h hfuel herror := by
    obtain ⟨below, waiting, depth, hs⟩ := h.good.stands
    exact ((contracts limits fuel).expression hs).not_mishap hfuel herror
  parse_error cause herror := (keeps_parse limits tokens).not_mishap trivial herror

end

end SheetFormula.Parser
