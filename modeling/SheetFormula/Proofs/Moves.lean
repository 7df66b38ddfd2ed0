import SheetFormula.Proofs.Words

/-!
# The moves of a scan

What one iteration of a scan can do, said once.

1. A `Move` leads from a state in front of some characters to a state in front of the rest of them.
   An iteration that ends an operand and goes on with a sign makes two moves.
2. `step_moves` is the inversion of an iteration, `run_moves` that of a run.
3. What every move preserves holds when the run is over: `Moves.preserves`.
4. A closer does one thing inside the bracket that it closes, as in `nextRow_of_row`, and another one
   outside of it, as in `nextRow_outside`.
-/

namespace SheetFormula.Scan

/-- A state between two tokens. -/
def Idle (s : State) : Prop := s.mode = .ordinary ∧ s.pending = ""

/-- The separators and operators with the kinds of their tokens. -/
def signs : List (String × Token.Kind × Token.Subkind) :=
  [(",", .argument, .unspecified), (";", .argument, .unspecified), (",", .infixOp, .union),
   (">=", .infixOp, .logical), ("<=", .infixOp, .logical), ("<>", .infixOp, .logical),
   ("+", .infixOp, .unspecified), ("-", .infixOp, .unspecified), ("*", .infixOp, .unspecified),
   ("/", .infixOp, .unspecified), ("^", .infixOp, .unspecified), ("&", .infixOp, .unspecified),
   ("=", .infixOp, .unspecified), (">", .infixOp, .unspecified), ("<", .infixOp, .unspecified),
   ("%", .postfixOp, .unspecified)]

/-- Whether the argument separator of the locale separates arguments inside these brackets. A `;`
directly inside a row ends the row. -/
def separates (locale : Locale) : List Opening → Bool
  | .bracket token :: _ => token.kind == .function
  | .arrayRow _ :: _ => locale.argumentSeparator != ';'
  | _ => false

/-- Whether a sign can stand inside these brackets: a separator where it separates arguments, and a
comma between references where it separates none. -/
def Fits (locale : Locale) (openings : List Opening) (value : String) (kind : Token.Kind) : Prop :=
  (kind = .argument →
    value = String.singleton locale.argumentSeparator ∧ separates locale openings) ∧
  (kind = .infixOp → value = "," → locale.argumentSeparator = ',' →
    separates locale openings = false)

/-- Starts a text. -/
def startText (s : State) : State :=
  let s := s.endStray
  { s with pendingStart := s.offset, offset := s.offset + 1, mode := .text }

/-- What a scan does at once. -/
inductive Move (locale : Locale) : State → List Char → State → List Char → Prop
  /-- A character of a word. -/
  | absorb {s c rest next} : absorb locale s.mode s.pending c rest = some next →
      Move locale s (c :: rest) { s.extend c with mode := next } rest
  /-- The end of an operand. -/
  | endOperand {s c rest} : s.mode = .ordinary ∨ s.mode = .number → s.pending ≠ "" → endsWord c →
      Move locale s (c :: rest) (State.endOperand { s with mode := .ordinary }) (c :: rest)
  | sign {s value kind subkind rest} : Idle s → (value, kind, subkind) ∈ signs →
      Fits locale s.openings value kind →
      Move locale s (value.toList ++ rest) (s.mark value kind subkind value.toList.length) rest
  | gap {s gaps rest} : Idle s → gaps ≠ [] → (∀ c ∈ gaps, isGap c) →
      Move locale s (gaps ++ rest) (s.mark " " .whitespace .unspecified gaps.length) rest
  /-- A closer that closes nothing here. -/
  | refuse {s c fault rest} : Idle s → c = ';' ∨ c = '\x7d' ∨ c = ')' →
      Move locale s (c :: rest)
        ((s.note fault).mark (String.singleton c) .unknown .unspecified 1) rest
  | openText {s rest} : s.mode = .ordinary ∨ s.mode = .number →
      Move locale s ('"' :: rest) (startText { s with mode := .ordinary }) rest
  | textChar {s c rest} : s.mode = .text → c ≠ '"' → Move locale s (c :: rest) (s.take c) rest
  | textQuote {s rest} : s.mode = .text →
      Move locale s ('"' :: '"' :: rest)
        { s with pending := s.pending.push '"', offset := s.offset + 2 } rest
  | closeText {s rest} : s.mode = .text →
      Move locale s ('"' :: rest) (State.emitPending
        { s with offset := s.offset + 1, mode := .ordinary } .operand .text) rest
  | openError {s rest} : s.mode = .ordinary ∨ s.mode = .number →
      Move locale s ('#' :: rest) (openErrorLiteral '#' { s with mode := .ordinary }) rest
  | errorChar {s c read rest} : s.mode = .errorLiteral read → read.push c ∉ errorLiterals →
      Move locale s (c :: rest) { s.take c with mode := .errorLiteral (read.push c) } rest
  | closeError {s c read rest} : s.mode = .errorLiteral read → read.push c ∈ errorLiterals →
      Move locale s (c :: rest)
        (State.endPending { s.take c with mode := .ordinary } .operand .error) rest
  | openArray {s rest} : s.mode = .ordinary ∨ s.mode = .number →
      Move locale s ('\x7b' :: rest) (openArray { s with mode := .ordinary }) rest
  | nextRow {s array outer rest} : Idle s → s.openings = .arrayRow array :: outer →
      Move locale s (';' :: rest) (nextRow s) rest
  | closeArray {s array outer rest} : Idle s → s.openings = .arrayRow array :: outer →
      Move locale s ('\x7d' :: rest) (closeArray s) rest
  /-- The start of a call or of a parenthesis. -/
  | openGroup {s rest} : s.mode = .ordinary ∨ s.mode = .number →
      Move locale s ('(' :: rest) (openGroup { s with mode := .ordinary }) rest
  | closeGroup {s opening outer rest} : Idle s → s.openings = .bracket opening :: outer →
      Move locale s (')' :: rest) (closeGroup s) rest
  /-- A closer with nothing open. -/
  | closeNothing {s fault rest} : Idle s →
      (∀ opening outer, s.openings ≠ .bracket opening :: outer) → s.inRow = false →
      Move locale s (')' :: rest) ((s.note fault).mark "" .subexpr .stop 1) rest

/-- Several moves. -/
inductive Moves (locale : Locale) : State → List Char → State → List Char → Prop
  | refl {s unread} : Moves locale s unread s unread
  | head {s unread s' unread' s'' unread''} : Move locale s unread s' unread' →
      Moves locale s' unread' s'' unread'' → Moves locale s unread s'' unread''

namespace Moves

variable {locale : Locale} {s s' s'' : State} {unread unread' unread'' : List Char}

theorem single (h : Move locale s unread s' unread') : Moves locale s unread s' unread' :=
  .head h .refl

theorem trans (h : Moves locale s unread s' unread') (h' : Moves locale s' unread' s'' unread'') :
    Moves locale s unread s'' unread'' := by
  induction h with
  | refl => exact h'
  | head hmove _ ih => exact .head hmove (ih h')

/-- What every move preserves holds behind several moves. -/
theorem preserves (Holds : State → List Char → Prop)
    (hstep : ∀ {s unread s' unread'}, Move locale s unread s' unread' → Holds s unread →
      Holds s' unread')
    (h : Moves locale s unread s' unread') (hs : Holds s unread) : Holds s' unread' := by
  induction h with
  | refl => exact hs
  | head hmove _ ih => exact ih (hstep hmove hs)

end Moves

/-! ## One iteration -/

section

variable {locale : Locale} {c : Char} {rest : List Char} {s : State}

theorem Idle.endPending {kind : Token.Kind} {subkind : Token.Subkind} (h : Idle s) :
    s.endPending kind subkind = s := by
  rw [State.endPending, h.2]
  rfl

theorem Idle.endOperand (h : Idle s) : s.endOperand = s := h.endPending

theorem Idle.endStray (h : Idle s) : s.endStray = s := h.endPending

theorem idle_endPending {kind : Token.Kind} {subkind : Token.Subkind} (h : s.mode = .ordinary) :
    Idle (s.endPending kind subkind) := by
  unfold State.endPending
  split
  · rename_i hp
    exact ⟨h, String.isEmpty_iff.1 hp⟩
  · exact ⟨h, rfl⟩

theorem idle_endOperand (h : s.mode = .ordinary) : Idle s.endOperand := idle_endPending h

theorem idle_endStray (h : s.mode = .ordinary) : Idle s.endStray := idle_endPending h

theorem openings_endPending (s : State) (kind : Token.Kind) (subkind : Token.Subkind) :
    (s.endPending kind subkind).openings = s.openings := by
  unfold State.endPending
  split <;> rfl

theorem fault_endPending (s : State) (kind : Token.Kind) (subkind : Token.Subkind) :
    (s.endPending kind subkind).fault = s.fault := by
  unfold State.endPending
  split <;> rfl

theorem endPending_of_ne {kind : Token.Kind} {subkind : Token.Subkind} (h : s.pending ≠ "") :
    s.endPending kind subkind = s.emitPending kind subkind := by
  rw [State.endPending, if_neg]
  simpa [String.isEmpty_iff] using h

theorem with_ordinary (h : s.mode = .ordinary) : { s with mode := .ordinary } = s := by
  rw [← h]

theorem toList_mark (s : State) (value : String) (kind : Token.Kind) (subkind : Token.Subkind)
    (width : Nat) : (s.mark value kind subkind width).tokens.toList =
      s.tokens.toList ++ [⟨value, kind, subkind, s.offset, s.offset + width⟩] :=
  Array.toList_push

theorem toList_openRow (s : State) (array : Nat) : (s.openRow array).tokens.toList =
    s.tokens.toList ++ [⟨Token.arrayRowName, .function, .start, s.offset, s.offset⟩] :=
  Array.toList_push

/-! ### Closers -/

theorem nextRow_of_row {array : Nat} {outer : List Opening} (h : Idle s)
    (hopen : s.openings = .arrayRow array :: outer) :
    nextRow s = State.openRow (State.mark (State.mark { s with openings := outer } "" .function .stop 0)
      ";" .argument .unspecified 1) array := by
  rw [nextRow, h.endOperand]
  simp only [hopen]

/-- A row separator outside an array is refused. -/
theorem nextRow_outside (h : Idle s) (hopen : ∀ array outer, s.openings ≠ .arrayRow array :: outer) :
    nextRow s = (s.note (.rowOutsideArray s.offset)).mark ";" .unknown .unspecified 1 := by
  rw [nextRow, h.endOperand]
  split
  · rename_i heq
    exact absurd heq (hopen _ _)
  · rfl

theorem closeArray_of_row {array : Nat} {outer : List Opening} (h : Idle s)
    (hopen : s.openings = .arrayRow array :: outer) :
    closeArray s = State.mark (State.mark { s with openings := outer.drop 1 } "" .function .stop 0)
      "" .function .stop 1 := by
  rw [closeArray, h.endOperand]
  simp only [hopen]

/-- A closing brace outside an array is refused. -/
theorem closeArray_outside (h : Idle s) (hopen : ∀ array outer, s.openings ≠ .arrayRow array :: outer) :
    closeArray s = (s.note (.noArrayToClose s.offset)).mark "\x7d" .unknown .unspecified 1 := by
  rw [closeArray, h.endOperand]
  split
  · rename_i heq
    exact absurd heq (hopen _ _)
  · rfl

theorem closeGroup_of_bracket {opening : Token} {outer : List Opening} (h : Idle s)
    (hopen : s.openings = .bracket opening :: outer) :
    closeGroup s = State.mark { s with openings := outer } "" opening.kind .stop 1 := by
  rw [closeGroup, h.endOperand]
  simp only [hopen]

/-- A closing parenthesis that closes nothing is noted. -/
theorem closeGroup_outside (h : Idle s) (hopen : ∀ opening outer, s.openings ≠ .bracket opening :: outer) :
    closeGroup s = if s.inRow then (s.note (.noOpener s.offset)).mark ")" .unknown .unspecified 1
      else (s.note (.noOpener s.offset)).mark "" .subexpr .stop 1 := by
  rw [closeGroup, h.endOperand]
  split
  · rename_i heq
    exact absurd heq (hopen _ _)
  · rfl

/-! ### Single characters -/

/-- The operand in front of an ending character is ended. -/
theorem endOperand_moves (hready : Ready s) (hmode : s.mode = .ordinary ∨ s.mode = .number)
    (hc : endsWord c) :
    Moves locale s (c :: rest) (State.endOperand { s with mode := .ordinary }) (c :: rest) := by
  by_cases hp : s.pending = ""
  · have hord : s.mode = .ordinary := by
      rcases hmode with h | h
      · exact h
      · simp [Ready, h, hp] at hready
    rw [with_ordinary hord, Idle.endOperand ⟨hord, hp⟩]
    exact .refl
  · exact .single (.endOperand hmode hp hc)

/-- Where the argument separator counts. -/
theorem isSeparator_eq : (c = locale.argumentSeparator && s.separatesHere && !(c = ';' && s.inRow)) =
    (c = locale.argumentSeparator && separates locale s.openings) := by
  by_cases hc : c = locale.argumentSeparator
  · subst hc
    unfold separates State.separatesHere State.inRow
    cases s.openings with
    | nil => simp
    | cons opening outer => cases opening <;> cases locale <;> simp [Locale.argumentSeparator]
  · simp [hc]

theorem fits_of_ne {openings : List Opening} {value : String} {kind : Token.Kind}
    (hkind : kind ≠ .argument) (hvalue : kind = .infixOp → value ≠ ",") :
    Fits locale openings value kind :=
  ⟨fun h => absurd h hkind, fun h h' => absurd h' (hvalue h)⟩

theorem sign_moves {kind : Token.Kind} {subkind : Token.Subkind} (h : Idle s)
    (hsign : (String.singleton c, kind, subkind) ∈ signs)
    (hfits : Fits locale s.openings (String.singleton c) kind) :
    Moves locale s (c :: rest) (s.mark (String.singleton c) kind subkind 1) rest := by
  have hmove : Move locale s ((String.singleton c).toList ++ rest)
      (s.mark (String.singleton c) kind subkind (String.singleton c).toList.length) rest :=
    .sign h hsign hfits
  rw [String.toList_singleton] at hmove
  exact .single hmove

theorem comparison_moves (h : Idle s) (hc : isComparison c rest.head?) :
    Moves locale s (c :: rest) (s.mark (String.ofList (c :: rest.take 1)) .infixOp .logical 2)
      (rest.drop 1) := by
  cases rest with
  | nil => simp [isComparison] at hc
  | cons d rest =>
    have hsign : (String.ofList [c, d], Token.Kind.infixOp, Token.Subkind.logical) ∈ signs := by
      simp only [isComparison, List.head?_cons, Option.some_beq_some, Bool.or_eq_true,
        Bool.and_eq_true, beq_iff_eq] at hc
      rcases hc with ⟨rfl, rfl⟩ | ⟨rfl, rfl | rfl⟩ <;> decide
    have hcomma : String.ofList [c, d] ≠ "," := fun h => by
      simpa using congrArg (List.length ∘ String.toList) h
    have hmove : Move locale s ((String.ofList [c, d]).toList ++ rest)
        (s.mark (String.ofList [c, d]) .infixOp .logical (String.ofList [c, d]).toList.length)
        rest :=
      .sign h hsign (fits_of_ne (by simp) fun _ => hcomma)
    rw [String.toList_ofList] at hmove
    exact .single hmove

/-- `>` and `<` are comparisons of their own unless the next character makes another one of them. -/
theorem order_moves (h : Idle s) (hc : c = '>' ∨ c = '<') :
    let next : Next :=
      if isComparison c rest.head? then
        (s.mark (String.ofList (c :: rest.take 1)) .infixOp .logical 2, 1)
      else (s.mark (String.singleton c) .infixOp .unspecified 1, 0)
    Moves locale s (c :: rest) next.1 (rest.drop next.2) := by
  intro next
  by_cases hcompare : isComparison c rest.head?
  · rw [show next = _ from if_pos hcompare]
    exact comparison_moves h hcompare
  · rw [show next = _ from if_neg hcompare]
    rcases hc with rfl | rfl <;>
      exact sign_moves h (by decide) (fits_of_ne (by decide) (by decide))

theorem gap_moves (h : Idle s) (hc : isGap c) :
    Moves locale s (c :: rest)
      (s.mark " " .whitespace .unspecified (1 + (rest.takeWhile isGap).length))
      (rest.drop (rest.takeWhile isGap).length) := by
  have hmove : Move locale s
      ((c :: rest.takeWhile isGap) ++ rest.drop (rest.takeWhile isGap).length)
      (s.mark " " .whitespace .unspecified (c :: rest.takeWhile isGap).length)
      (rest.drop (rest.takeWhile isGap).length) := by
    refine .gap h (List.cons_ne_nil _ _) fun d hd => ?_
    rcases List.mem_cons.1 hd with rfl | hd
    · exact hc
    · exact List.all_eq_true.1 List.all_takeWhile d hd
  rw [List.cons_append, List.prefix_iff_eq_append.1 (List.takeWhile_prefix _), List.length_cons,
    Nat.add_comm] at hmove
  exact .single hmove

theorem nextRow_moves (h : Idle s) : Moves locale s (';' :: rest) (nextRow s) rest := by
  by_cases hopen : ∃ array outer, s.openings = .arrayRow array :: outer
  · obtain ⟨array, outer, hopen⟩ := hopen
    exact .single (.nextRow h hopen)
  · rw [nextRow_outside h fun array outer heq => hopen ⟨array, outer, heq⟩]
    exact .single (.refuse h (.inl rfl))

theorem closeArray_moves (h : Idle s) : Moves locale s ('\x7d' :: rest) (closeArray s) rest := by
  by_cases hopen : ∃ array outer, s.openings = .arrayRow array :: outer
  · obtain ⟨array, outer, hopen⟩ := hopen
    exact .single (.closeArray h hopen)
  · rw [closeArray_outside h fun array outer heq => hopen ⟨array, outer, heq⟩]
    exact .single (.refuse h (.inr (.inl rfl)))

theorem closeGroup_moves (h : Idle s) : Moves locale s (')' :: rest) (closeGroup s) rest := by
  by_cases hopen : ∃ opening outer, s.openings = .bracket opening :: outer
  · obtain ⟨opening, outer, hopen⟩ := hopen
    exact .single (.closeGroup h hopen)
  · rw [closeGroup_outside h fun opening outer heq => hopen ⟨opening, outer, heq⟩]
    split
    · exact .single (.refuse h (.inr (.inr rfl)))
    · rename_i hrow
      refine .single (.closeNothing h (fun opening outer heq => hopen ⟨opening, outer, heq⟩) ?_)
      simpa using hrow

theorem nextRow_endOperand (h : s.mode = .ordinary) : nextRow s.endOperand = nextRow s := by
  unfold nextRow
  rw [(idle_endOperand h).endOperand]

theorem closeArray_endOperand (h : s.mode = .ordinary) :
    closeArray s.endOperand = closeArray s := by
  unfold closeArray
  rw [(idle_endOperand h).endOperand]

theorem closeGroup_endOperand (h : s.mode = .ordinary) :
    closeGroup s.endOperand = closeGroup s := by
  unfold closeGroup
  rw [(idle_endOperand h).endOperand]

/-- An iteration at a character that ends what is read and is no separator here. -/
theorem symbol_moves (hready : Ready s) (hmode : s.mode = .ordinary ∨ s.mode = .number)
    (hc : endsWord c) (hcomma : c ≠ ',') :
    Moves locale s (c :: rest) (symbol c rest { s with mode := .ordinary }).1
      (rest.drop (symbol c rest { s with mode := .ordinary }).2) := by
  have hidle : Idle (State.endOperand { s with mode := .ordinary }) := idle_endOperand rfl
  have hend : Moves locale s (c :: rest) (State.endOperand { s with mode := .ordinary })
      (c :: rest) := endOperand_moves hready hmode hc
  have hsign {kind subkind} (h : (String.singleton c, kind, subkind) ∈ signs)
      (hkind : kind ≠ .argument) (hvalue : kind = .infixOp → String.singleton c ≠ ",") :=
    hend.trans (sign_moves hidle h (fits_of_ne hkind hvalue))
  have hgap := fun h => hend.trans (gap_moves hidle h)
  simp only [endsWord, List.mem_cons, List.not_mem_nil, or_false, decide_eq_true_eq] at hc
  rcases hc with rfl | rfl | rfl | rfl | rfl | rfl | rfl | rfl | rfl | rfl | rfl | rfl | rfl | rfl |
    rfl | rfl | rfl | rfl | rfl | rfl
  · exact absurd rfl hcomma
  · show Moves locale s (';' :: rest) (nextRow { s with mode := .ordinary }) rest
    rw [← nextRow_endOperand rfl]
    exact hend.trans (nextRow_moves hidle)
  · exact .single (.openText hmode)
  · exact .single (.openError hmode)
  · exact .single (.openArray hmode)
  · show Moves locale s ('\x7d' :: rest) (closeArray { s with mode := .ordinary }) rest
    rw [← closeArray_endOperand rfl]
    exact hend.trans (closeArray_moves hidle)
  · exact hgap rfl
  · exact hgap rfl
  · exact hsign (by decide) (by decide) (by decide)
  · exact hsign (by decide) (by decide) (by decide)
  · exact hsign (by decide) (by decide) (by decide)
  · exact hsign (by decide) (by decide) (by decide)
  · exact hsign (by decide) (by decide) (by decide)
  · exact hsign (by decide) (by decide) (by decide)
  · exact hsign (by decide) (by decide) (by decide)
  · exact hend.trans (order_moves hidle (.inl rfl))
  · exact hend.trans (order_moves hidle (.inr rfl))
  · exact hsign (by decide) (by decide) (by decide)
  · exact .single (.openGroup hmode)
  · show Moves locale s (')' :: rest) (closeGroup { s with mode := .ordinary }) rest
    rw [← closeGroup_endOperand rfl]
    exact hend.trans (closeGroup_moves hidle)

theorem ordinary_moves (hready : Ready s) (hmode : s.mode = .ordinary ∨ s.mode = .number)
    (hc : endsWord c) :
    Moves locale s (c :: rest) (ordinary locale c rest { s with mode := .ordinary }).1
      (rest.drop (ordinary locale c rest { s with mode := .ordinary }).2) := by
  have hidle : Idle (State.endOperand { s with mode := .ordinary }) := idle_endOperand rfl
  have hend : Moves locale s (c :: rest) (State.endOperand { s with mode := .ordinary })
      (c :: rest) := endOperand_moves hready hmode hc
  unfold ordinary
  rw [isSeparator_eq]
  split
  · rename_i h
    simp only [Bool.and_eq_true, decide_eq_true_eq] at h
    obtain ⟨rfl, hplace⟩ := h
    refine hend.trans (sign_moves hidle ?_ ⟨fun _ => ⟨rfl, ?_⟩, by simp⟩)
    · cases locale <;> decide
    · exact (congrArg _ (openings_endPending _ _ _)).trans hplace
  split
  · rename_i hseparator h
    subst h
    refine hend.trans (sign_moves hidle (by decide) ⟨by simp, fun _ _ hcomma => ?_⟩)
    rw [hcomma] at hseparator
    exact (congrArg _ (openings_endPending _ _ _)).trans (by simpa using hseparator)
  rename_i hcomma
  rw [not_isDigit_of_endsWord hc, Bool.false_and, Bool.false_and, if_neg Bool.false_ne_true]
  exact symbol_moves hready hmode hc hcomma

theorem absorb_isSome (hmode : s.mode = .ordinary ∨ s.mode = .number) (hc : endsWord c = false) :
    ∃ next, absorb locale s.mode s.pending c rest = some next := by
  have hordinary {first} : ∃ next, absorbOrdinary first c rest = some next := by
    rw [absorbOrdinary, hc, if_neg Bool.false_ne_true]
    repeat' split
    all_goals exact ⟨_, rfl⟩
  rcases hmode with h | h
  · rw [h]
    exact hordinary
  · rw [h]
    simp only [absorb]
    split
    · exact ⟨_, rfl⟩
    · exact hordinary

/-- A character of a word, outside a pair of single quotes. -/
theorem absorb_moves {next : Mode} (hready : Ready s)
    (h : absorb locale s.mode s.pending c rest = some next)
    (hquote : s.mode = .path → c = '\'' → rest.head? ≠ some '\'') :
    Moves locale s (c :: rest) (step locale c rest s).1 (rest.drop (step locale c rest s).2) := by
  rw [step_absorb hready h hquote]
  exact .single (.absorb h)

/-- A pair of single quotes ends a sheet path and starts it again. -/
theorem path_moves (hready : Ready s) (hmode : s.mode = .path) :
    Moves locale s (c :: rest) (step locale c rest s).1 (rest.drop (step locale c rest s).2) := by
  have habsorb : absorb locale s.mode s.pending c rest =
      some (if c = '\'' then .ordinary else .path) := by rw [hmode]; rfl
  by_cases hpair : c = '\'' ∧ rest.head? = some '\''
  · obtain ⟨rfl, hhead⟩ := hpair
    obtain ⟨rest, rfl⟩ : ∃ tail, rest = '\'' :: tail := by
      cases rest with
      | nil => cases hhead
      | cons d tail => exact ⟨tail, by rw [Option.some.inj hhead]⟩
    have hp : s.pending ≠ "" := by simpa [Ready, hmode] using hready
    have hfirst : Move locale s ('\'' :: '\'' :: rest) { s.take '\'' with mode := .ordinary }
        ('\'' :: rest) := by
      rw [← extend_of_ready hp]
      exact .absorb habsorb
    have hsecond : Move locale { s.take '\'' with mode := .ordinary } ('\'' :: rest)
        ((s.take '\'').take '\'') rest := by
      have hmove : Move locale { s.take '\'' with mode := .ordinary } ('\'' :: rest)
          { State.extend { s.take '\'' with mode := .ordinary } '\'' with mode := .path } rest :=
        .absorb rfl
      rw [extend_of_ready (by simp [State.take]), ← hmode] at hmove
      exact hmove
    have hcode : step locale '\'' ('\'' :: rest) s = ((s.take '\'').take '\'', 1) := by
      rw [step, hmode]
      rfl
    rw [hcode]
    exact .head hfirst (.single hsecond)
  · exact absorb_moves hready habsorb fun _ hc hhead => hpair ⟨hc, hhead⟩

theorem text_moves (hmode : s.mode = .text) :
    Moves locale s (c :: rest) (step locale c rest s).1 (rest.drop (step locale c rest s).2) := by
  rw [step, hmode]
  show Moves locale s (c :: rest) (text c rest s).1 (rest.drop (text c rest s).2)
  rw [text]
  by_cases hc : c = '"'
  · subst hc
    rw [if_neg (by simp)]
    by_cases hhead : rest.head? = some '"'
    · obtain ⟨rest, rfl⟩ : ∃ tail, rest = '"' :: tail := by
        cases rest with
        | nil => cases hhead
        | cons d tail => exact ⟨tail, by rw [Option.some.inj hhead]⟩
      exact .single (.textQuote hmode)
    · rw [if_neg hhead]
      exact .single (.closeText hmode)
  · rw [if_pos hc]
    exact .single (.textChar hmode hc)

theorem errorLiteral_moves {read : String} (hmode : s.mode = .errorLiteral read) :
    Moves locale s (c :: rest) (step locale c rest s).1 (rest.drop (step locale c rest s).2) := by
  rw [step, hmode]
  show Moves locale s (c :: rest) (errorLiteral read c s).1 (rest.drop (errorLiteral read c s).2)
  by_cases hread : read.push c ∈ errorLiterals
  · rw [errorLiteral, if_pos hread]
    exact .single (.closeError hmode hread)
  · rw [errorLiteral, if_neg hread]
    exact .single (.errorChar hmode hread)

/-- Outside the modes of their own, a character either goes on with a word or ends it. -/
theorem outside_moves (hready : Ready s) (hmode : s.mode = .ordinary ∨ s.mode = .number) :
    Moves locale s (c :: rest) (step locale c rest s).1 (rest.drop (step locale c rest s).2) := by
  by_cases habsorb : ∃ next, absorb locale s.mode s.pending c rest = some next
  · obtain ⟨next, habsorb⟩ := habsorb
    refine absorb_moves hready habsorb fun h => ?_
    rcases hmode with h' | h' <;> rw [h'] at h <;> cases h
  · have hc : endsWord c := by
      cases hc : endsWord c with
      | true => rfl
      | false => exact absurd (absorb_isSome hmode hc) habsorb
    have hstep : step locale c rest s = ordinary locale c rest { s with mode := .ordinary } := by
      rcases hmode with h | h
      · rw [step, with_ordinary h, h]
      · have hcontinues : ¬ continuesNumber locale c s.pending := by
          intro hcontinues
          refine habsorb ⟨.number, ?_⟩
          rw [h]
          exact if_pos hcontinues
        rw [step, h]
        exact if_neg hcontinues
    rw [hstep]
    exact ordinary_moves hready hmode hc

/-- What one iteration can do. -/
theorem step_moves (hready : Ready s) :
    Moves locale s (c :: rest) (step locale c rest s).1 (rest.drop (step locale c rest s).2) := by
  cases hmode : s.mode with
  | text => exact text_moves hmode
  | path => exact path_moves hready hmode
  | bracket depth =>
    refine absorb_moves hready (by rw [hmode]; rfl) fun h => ?_
    rw [hmode] at h
    cases h
  | errorLiteral read => exact errorLiteral_moves hmode
  | number => exact outside_moves hready (.inr hmode)
  | ordinary => exact outside_moves hready (.inl hmode)

end

/-! ## Runs -/

theorem Move.ready {locale : Locale} {s s' : State} {unread unread' : List Char}
    (h : Move locale s unread s' unread') : Ready s' := by
  cases h with
  | absorb h => exact .inr (.inr (by simp))
  | endOperand => exact .inl (idle_endOperand rfl).1
  | sign h => exact .inl h.1
  | gap h => exact .inl h.1
  | refuse h => exact .inl h.1
  | openText => exact .inr (.inl rfl)
  | textChar h => exact .inr (.inl h)
  | textQuote h => exact .inr (.inl h)
  | closeText => exact .inl rfl
  | openError => exact .inr (.inr (by simp [openErrorLiteral]))
  | errorChar => exact .inr (.inr (by simp [State.take]))
  | closeError =>
    refine .inl ?_
    unfold State.endPending
    split <;> rfl
  | openArray =>
    refine .inl ?_
    unfold Scan.openArray State.endStray State.endPending
    split <;> rfl
  | nextRow h hopen =>
    rw [nextRow_of_row h hopen]
    exact .inl h.1
  | closeArray h hopen =>
    rw [closeArray_of_row h hopen]
    exact .inl h.1
  | openGroup => exact .inl rfl
  | closeGroup h hopen =>
    rw [closeGroup_of_bracket h hopen]
    exact .inl h.1
  | closeNothing h => exact .inl h.1

theorem ready_step {locale : Locale} {s : State} {c : Char} {rest : List Char} (h : Ready s) :
    Ready (step locale c rest s).1 :=
  (step_moves h).preserves (fun s _ => Ready s) (fun hmove _ => hmove.ready) h

/-- What a run can do. -/
theorem run_moves {locale : Locale} (text : List Char) {s : State} (hs : Ready s) :
    Moves locale s text (run locale text s) [] := by
  induction hn : text.length using Nat.strongRecOn generalizing text s with
  | _ n ih =>
    cases text with
    | nil =>
      rw [run]
      exact .refl
    | cons c rest =>
      have hstep : Moves locale s (c :: rest) (step locale c rest s).1
          (rest.drop (step locale c rest s).2) := step_moves hs
      rw [run]
      refine hstep.trans (ih _ ?_ _ (ready_step hs) rfl)
      rw [← hn, List.length_drop, List.length_cons]
      omega

/-! ## Open brackets -/

/-- What a move does to the open brackets. -/
inductive Restack : List Opening → List Opening → Prop
  | keep {openings} : Restack openings openings
  | openBracket {token openings} : token.kind = .function ∨ token.kind = .subexpr →
      Restack openings (.bracket token :: openings)
  /-- An array is opened with its first row. -/
  | openArray {array openings} : Restack openings (.arrayRow array :: .array array :: openings)
  | closeBracket {token outer} : Restack (.bracket token :: outer) outer
  /-- A row is closed with what is directly below it. -/
  | closeArray {array outer} : Restack (.arrayRow array :: outer) (outer.drop 1)

theorem Restack.of_eq {openings openings' : List Opening} (h : openings' = openings) :
    Restack openings openings' := h ▸ .keep

theorem Move.restack {locale : Locale} {s s' : State} {unread unread' : List Char}
    (h : Move locale s unread s' unread') : Restack s.openings s'.openings := by
  cases h with
  | absorb => exact .of_eq (openings_extend _ _)
  | endOperand | openText | closeError => exact .of_eq (openings_endPending _ _ _)
  | openError =>
    rw [Scan.openErrorLiteral]
    simp only [openings_extend]
    split
    · exact .keep
    · exact .of_eq (openings_endPending _ _ _)
  | openArray =>
    show Restack _ (.arrayRow _ :: .array _ :: (State.endStray _).openings)
    rw [State.endStray, openings_endPending]
    exact .openArray
  | nextRow hidle hopen =>
    rw [nextRow_of_row hidle hopen, hopen]
    exact .keep
  | closeArray hidle hopen =>
    rw [closeArray_of_row hidle hopen, hopen]
    exact .closeArray
  | openGroup =>
    refine .openBracket ?_
    split
    · exact .inr rfl
    · exact .inl rfl
  | closeGroup hidle hopen =>
    rw [closeGroup_of_bracket hidle hopen, hopen]
    exact .closeBracket
  | _ => exact .keep

/-! ## The end of a scan -/

theorem tokens_noteUnclosed (s : State) : (noteUnclosed s).tokens = s.tokens := by
  unfold noteUnclosed
  split <;> rfl

theorem tokens_finish (s : State) : (finish s).tokens = (finishToken s).tokens :=
  tokens_noteUnclosed _

/-- The tokens at the end of a text are those behind its last word. -/
theorem tokens_finish_of_mode {s : State} (hmode : s.mode = .ordinary ∨ s.mode = .number) :
    (finish s).tokens = s.endOperand.tokens := by
  rw [tokens_finish]
  rcases hmode with h | h <;> rw [finishToken, h]

theorem openings_noteUnclosed (s : State) : (noteUnclosed s).openings = s.openings := by
  unfold noteUnclosed
  split <;> rfl

theorem openings_finish (s : State) : (finish s).openings = s.openings := by
  rw [finish, openings_noteUnclosed]
  show (finishToken s).openings = s.openings
  unfold finishToken
  split
  · rfl
  all_goals exact openings_endPending _ _ _

end SheetFormula.Scan
