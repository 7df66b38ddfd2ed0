import SheetFormula.Proofs.Spelling

/-!
# Scanning printed expressions

Main statement: `scans_printable`, that a scan makes of the text of a distinct expression the tokens
that spell it.

1. `Scans` says it of one expression, in front of every text that `Follows` it and inside every
   bracket, unless a comma between references is exposed.
2. `Scans.minus`, `Scans.percent`, `Scans.binary`, `ScansSlots.call` and `scans_array` put together
   what is said of the parts.
-/

namespace SheetFormula.Scan

open SheetFormula.Expr SheetFormula.Token

section

variable {e : Expr} {s : State} {rest : List Char}

/-- Whether a text may stand behind the text of an expression. -/
def Follows (e : Expr) (rest : List Char) : Prop :=
  ∀ c ∈ rest.head?, closesWord c ∧ (e.awaitsExponent → c ≠ '+' ∧ c ≠ '-')

/-- The text of an expression is passed wherever it can stand. -/
def Scans (e : Expr) : Prop :=
  ∀ s rest, Idle s → Follows e rest → (e.exposesUnion → s.separatesHere = false) →
    Passes .enUS s e.display.toList rest (Spells false e)

theorem follows_cons {c : Char} (hcloses : closesWord c) (hsign : c ≠ '+' ∧ c ≠ '-') :
    Follows e (c :: rest) := by
  intro d hd
  cases hd
  exact ⟨hcloses, fun _ => hsign⟩

/-! ## Leaves -/

theorem passes_leafWord {word : String} (hword : Word .enUS word) (hleaf : e.Leaf)
    (htext : leafText e = (word, .unspecified))
    (hawaits : Locale.enUS.awaitsExponent word → e.awaitsExponent) (hidle : Idle s)
    (hfollows : Follows e rest) : Passes .enUS s word.toList rest (Spells false e) := by
  refine (passes_word hidle hword (closes_enUS fun c hc => ?_)).imp ?_
  · obtain ⟨hcloses, hsign⟩ := hfollows c hc
    exact ⟨hcloses, fun h => hsign (hawaits h)⟩
  · rintro _ ⟨start, stop, rfl⟩
    have hspells : Spells false e [⟨(leafText e).1, .operand, (leafText e).2, start, stop⟩] :=
      .leaf hleaf
    rwa [htext] at hspells

theorem scans_leaf (h : e.Leaf) : Scans e := by
  intro s rest hidle hfollows _
  have hleaf := h
  cases h with
  | @number code =>
    have hplain := plain_write code
    rw [display]
    exact passes_leafWord hplain.word hleaf rfl (by simp [hplain.not_awaitsExponent]) hidle hfollows
  | text =>
    rw [display]
    refine (passes_text _ hidle ?_).imp ?_
    · intro hquote
      exact absurd (hfollows _ hquote).1 (by decide)
    · rintro _ ⟨start, stop, rfl⟩
      exact .leaf hleaf
  | @logical value =>
    rw [display]
    cases value with
    | true =>
      exact passes_leafWord ⟨by decide, .ordinary, rfl, .inl rfl⟩ hleaf rfl (by decide) hidle hfollows
    | false =>
      exact passes_leafWord ⟨by decide, .ordinary, rfl, .inl rfl⟩ hleaf rfl (by decide) hidle hfollows
  | @reference value hword _ _ =>
    rw [display_reference]
    exact passes_leafWord hword hleaf (leafText_reference value)
      (by rw [awaitsExponent_reference]; exact id) hidle hfollows
  | errorValue herror =>
    rw [display]
    refine (passes_errorWord hidle herror).imp ?_
    rintro _ ⟨start, stop, rfl⟩
    exact .leaf hleaf

/-! ## Operators -/

theorem Scans.group (h : Scans e) (hidle : Idle s) :
    Passes .enUS s (wrapped true e.display).toList rest (Spells true e) := by
  have hinner : ∀ (opening : Token) (s' : State), opening.opensGroup → Idle s' →
      s'.openings = .bracket opening :: s.openings →
      Passes .enUS s' e.display.toList (')' :: rest) (Spells false e) := by
    intro opening s' hopening hidle' hopenings
    refine h s' _ hidle' (follows_cons (by decide) (by decide)) fun _ => ?_
    rw [← separates_enUS, separates_group hopening hopenings]
  have htext : (wrapped true e.display).toList = ['('] ++ (e.display.toList ++ [')']) := by
    simp [wrapped]
  rw [htext]
  refine (passes_group hidle hinner).imp ?_
  rintro _ ⟨opening, inner, close, rfl, hopening, hspells, hclose⟩
  exact .group hopening.1 hclose.1 hspells

theorem Scans.wrapped (h : Scans e) (needed : Bool) (hidle : Idle s)
    (hfollows : needed = false → Follows e rest)
    (hunion : needed = false → e.exposesUnion → s.separatesHere = false) :
    Passes .enUS s (wrapped needed e.display).toList rest (Spells needed e) := by
  cases needed with
  | true => exact h.group hidle
  | false => exact h s rest hidle (hfollows rfl) (hunion rfl)

theorem Scans.minus {operand : Expr} (h : Scans operand) : Scans (.unary "-" operand) := by
  intro s rest hidle hfollows hunion
  have hsign : Passes .enUS s ['-']
      ((Expr.wrapped (operand.guardedFrom "-") operand.display).toList ++ rest)
      fun tokens => ∃ start stop, tokens = [⟨"-", .infixOp, .unspecified, start, stop⟩] :=
    passes_sign hidle (by decide) rfl
  have hoperand : ∀ s', Idle s' → s'.openings = s.openings →
      Passes .enUS s' (Expr.wrapped (operand.guardedFrom "-") operand.display).toList rest
        (Spells (operand.guardedFrom "-") operand) := by
    intro s' hidle' hopenings
    refine h.wrapped _ hidle' (fun hneeded c hc => ?_) fun hneeded hexposes => ?_
    · obtain ⟨hcloses, hawaits⟩ := hfollows c hc
      exact ⟨hcloses, fun ha => hawaits (by simp [awaitsExponent, hneeded, ha, percentSign])⟩
    · rw [separatesHere_congr hopenings]
      exact hunion (by simp [exposesUnion, hneeded, hexposes])
  have htext : (Expr.unary "-" operand).display.toList =
      ['-'] ++ (Expr.wrapped (operand.guardedFrom "-") operand.display).toList := by
    rw [display_minus, String.toList_append]
    rfl
  rw [htext]
  refine (hsign.append hoperand).imp ?_
  rintro _ ⟨_, back, rfl, ⟨start, stop, rfl⟩, hspells⟩
  exact .minus ⟨rfl, rfl, rfl⟩ hspells

theorem Scans.percent {operand : Expr} (h : Scans operand) : Scans (.unary percentSign operand) := by
  intro s rest hidle hfollows hunion
  have hoperand : Passes .enUS s (Expr.wrapped (operand.guardedFrom percentSign) operand.display).toList
      (percentSign.toList ++ rest) (Spells (operand.guardedFrom percentSign) operand) :=
    h.wrapped _ hidle (fun _ => follows_cons (by decide) (by decide)) fun hneeded hexposes =>
      hunion (by simp [exposesUnion, hneeded, hexposes])
  rw [display_percent, String.toList_append]
  refine (hoperand.append fun s' hidle' _ => passes_percent hidle').imp ?_
  rintro _ ⟨front, _, rfl, hspells, start, stop, rfl⟩
  exact .percent ⟨rfl, rfl⟩ hspells

theorem head_operator {op : String} {precedence : Nat}
    (hop : Operator.binaryPrecedence? op = some precedence) :
    ∃ c tail, op.toList = c :: tail ∧ closesWord c ∧ (c = '+' ∨ c = '-' → op = "+" ∨ op = "-") := by
  have hheads : ∀ entry ∈ Operator.binaryTable, entry.1.toList.head?.any fun c =>
      closesWord c && (c == '+' || c == '-' → entry.1 == "+" || entry.1 == "-") := by decide
  obtain ⟨c, hc, hall⟩ := (Option.any_eq_true _ _).1 (hheads _ (Operator.mem_binaryTable hop))
  obtain ⟨tail, htail⟩ := List.head?_eq_some_iff.1 hc
  simp only [Bool.and_eq_true, decide_eq_true_eq, Bool.or_eq_true, beq_iff_eq] at hall
  exact ⟨c, tail, htail, hall⟩

theorem Scans.binary {op : String} {precedence : Nat} {left right : Expr}
    (hop : Operator.binaryPrecedence? op = some precedence) (hleft : Scans left)
    (hright : Scans right) (hstarts : Starts right.display)
    (hdistinct : (Expr.binary op left right).distinct) : Scans (.binary op left right) := by
  intro s rest hidle hfollows hunion
  obtain ⟨c, tail, hhead, hcloses, hsign⟩ := head_operator hop
  have hoperand : Passes .enUS s (Expr.wrapped (left.guardedOnLeft op) left.display).toList
      (op.toList ++ (Expr.wrapped (right.guardedOnRight op) right.display).toList ++ rest)
      (Spells (left.guardedOnLeft op) left) := by
    refine hleft.wrapped _ hidle (fun hneeded d hd => ?_) fun hneeded hexposes => ?_
    · rw [hhead] at hd
      cases hd
      refine ⟨hcloses, fun hawaits => not_or.1 fun hc => ?_⟩
      have hop := hsign hc
      simp only [distinct, hneeded, hawaits, Bool.not_eq_true', Bool.and_eq_false_iff,
        Bool.or_eq_false_iff, beq_eq_false_iff_ne] at hdistinct
      simp_all
    · exact hunion (by simp [exposesUnion, hneeded, hexposes])
  have hoperator : ∀ s', Idle s' → s'.openings = s.openings → Passes .enUS s' op.toList
      ((Expr.wrapped (right.guardedOnRight op) right.display).toList ++ rest)
      fun tokens => ∃ token, tokens = [token] ∧ SpellsOperator op token := by
    intro s' hidle' hopenings
    refine passes_operator hop hidle' (fun hcomma _ => ?_) (head_of_starts (starts_wrapped hstarts _))
    rw [separatesHere_congr hopenings]
    exact hunion (by simp [exposesUnion, hcomma])
  have hother : ∀ s', Idle s' → s'.openings = s.openings →
      Passes .enUS s' (Expr.wrapped (right.guardedOnRight op) right.display).toList rest
        (Spells (right.guardedOnRight op) right) := by
    intro s' hidle' hopenings
    refine hright.wrapped _ hidle' (fun hneeded c hc => ?_) fun hneeded hexposes => ?_
    · obtain ⟨hcloses, hawaits⟩ := hfollows c hc
      exact ⟨hcloses, fun ha => hawaits (by simp [awaitsExponent, hneeded, ha])⟩
    · rw [separatesHere_congr hopenings]
      exact hunion (by simp [exposesUnion, hneeded, hexposes])
  rw [display_binary, String.toList_append, String.toList_append, List.append_assoc]
  refine (hoperand.append fun s' hidle' hopenings => (hoperator s' hidle' hopenings).append
    fun s'' hidle'' hopenings' => hother s'' hidle'' (hopenings'.trans hopenings)).imp ?_
  rintro _ ⟨front, _, rfl, hfront, _, back, rfl, ⟨sign, rfl, hsign⟩, hback⟩
  exact .binary hop hsign hfront hback

/-! ## Calls -/

/-- The tokens of arguments with separators between them. -/
def SpellsSlots (args : List Expr) (tokens : List Token) : Prop :=
  ∃ slots : List (Expr × List Token), slots.map Prod.fst = args ∧
    (∀ slot ∈ slots, slot.1 = .emptyArgument → slot.2 = []) ∧
    (∀ slot ∈ slots, slot.1 ≠ .emptyArgument → Spells false slot.1 slot.2) ∧
    Joined (slots.map Prod.snd) tokens

theorem Spells.of_slots {name : String} {args : List Expr} {opener close : Token}
    {inner : List Token} (hopener : opener.opensCall ∧ opener.value = name)
    (hclose : close.closesCall) (hargs : args ≠ [.emptyArgument]) (h : SpellsSlots args inner) :
    Spells false (.call name args) (opener :: (inner ++ [close])) := by
  obtain ⟨slots, rfl, hempty, hspells, hjoined⟩ := h
  exact .call slots hopener hclose hargs hempty hspells hjoined

theorem spellsSlots_single {arg : Expr} {part : List Token}
    (hempty : arg = .emptyArgument → part = [])
    (hspells : arg ≠ .emptyArgument → Spells false arg part) : SpellsSlots [arg] part :=
  ⟨[(arg, part)], rfl, by simpa using hempty, by simpa using hspells, rfl⟩

theorem spellsSlots_cons {arg next : Expr} {args : List Expr} {part tokens : List Token}
    {separator : Token} (hseparator : separator.separatesArguments)
    (hempty : arg = .emptyArgument → part = [])
    (hspells : arg ≠ .emptyArgument → Spells false arg part)
    (h : SpellsSlots (next :: args) tokens) :
    SpellsSlots (arg :: next :: args) (part ++ separator :: tokens) := by
  obtain ⟨slots, hargs, hempties, hspelled, hjoined⟩ := h
  cases slots with
  | nil => cases hargs
  | cons slot slots =>
    refine ⟨(arg, part) :: slot :: slots, by rw [← hargs]; rfl, ?_, ?_, separator, tokens,
      hseparator, rfl, hjoined⟩
    · intro slot' hslot
      rcases List.mem_cons.1 hslot with rfl | hslot
      · exact hempty
      · exact hempties slot' hslot
    · intro slot' hslot
      rcases List.mem_cons.1 hslot with rfl | hslot
      · exact hspells
      · exact hspelled slot' hslot

/-- The texts of arguments are passed inside a call or a row. -/
def ScansSlots (args : List Expr) : Prop :=
  ∀ s rest, Idle s → s.separatesHere → (∀ c ∈ rest.head?, c ∈ [')', ';', '\x7d']) →
    Passes .enUS s (displayList args).toList rest (SpellsSlots args)

theorem passes_slot {arg : Expr} (hidle : Idle s)
    (h : arg ≠ .emptyArgument → Scans arg ∧ arg.exposesUnion = false)
    (hrest : ∀ c ∈ rest.head?, c ∈ [',', ')', ';', '\x7d']) :
    Passes .enUS s arg.display.toList rest fun tokens => (arg = .emptyArgument → tokens = []) ∧
      (arg ≠ .emptyArgument → Spells false arg tokens) := by
  have hcloses : ∀ c ∈ [',', ')', ';', '\x7d'], closesWord c ∧ c ≠ '+' ∧ c ≠ '-' :=
    List.all_iff_forall_prop.1 (by decide)
  by_cases harg : arg = .emptyArgument
  · subst harg
    rw [display]
    exact (passes_nil hidle).imp fun tokens ht => ⟨fun _ => ht, fun hne => absurd rfl hne⟩
  · obtain ⟨hscans, hunion⟩ := h harg
    have hfollows : Follows arg rest := fun c hc =>
      ⟨(hcloses c (hrest c hc)).1, fun _ => (hcloses c (hrest c hc)).2⟩
    exact PassesInto.imp (hscans s rest hidle hfollows (by simp [hunion]))
      fun tokens ht => ⟨fun heq => absurd heq harg, fun _ => ht⟩

theorem scansSlots {args : List Expr}
    (h : ∀ arg ∈ args, arg ≠ .emptyArgument → Scans arg ∧ arg.exposesUnion = false) :
    ScansSlots args := by
  have hmore : ∀ c ∈ [')', ';', '\x7d'], c ∈ [',', ')', ';', '\x7d'] :=
    List.all_iff_forall_prop.1 (by decide)
  induction args with
  | nil =>
    intro s rest hidle _ _
    rw [displayList]
    exact (passes_nil hidle).imp fun tokens ht => ⟨[], rfl, by simp, by simp, ht⟩
  | cons arg args ih =>
    intro s rest hidle hplace hrest
    have harg := h arg List.mem_cons_self
    cases args with
    | nil =>
      rw [displayList]
      refine (passes_slot hidle harg fun c hc => hmore c (hrest c hc)).imp fun tokens ht => ?_
      exact spellsSlots_single ht.1 ht.2
    | cons next args =>
      have hslot : Passes .enUS s arg.display.toList ([','] ++ (displayList (next :: args)).toList ++ rest)
          _ := passes_slot hidle harg fun c hc => by cases hc; decide
      have hothers : ∀ s', Idle s' → s'.openings = s.openings →
          Passes .enUS s' ([','] ++ (displayList (next :: args)).toList) rest _ :=
        fun s' hidle' hopenings =>
          Passes.append (passes_separator hidle' (by rwa [hopenings, separates_enUS]))
            fun s'' hidle'' hopenings' =>
              ih (fun arg harg => h arg (List.mem_cons_of_mem _ harg)) s'' rest hidle''
                ((separatesHere_congr (hopenings'.trans hopenings)).trans hplace) hrest
      have htext : (displayList (arg :: next :: args)).toList =
          arg.display.toList ++ ([','] ++ (displayList (next :: args)).toList) := by
        rw [displayList, String.toList_append, String.toList_append, List.append_assoc]
        · rfl
        · simp
      rw [htext]
      refine (hslot.append hothers).imp ?_
      rintro _ ⟨part, _, rfl, ⟨hempty, hspells⟩, _, tokens, rfl, ⟨start, stop, rfl⟩, hargs⟩
      exact spellsSlots_cons rfl hempty hspells hargs

theorem ScansSlots.call {name : String} {args : List Expr} (h : ScansSlots args)
    (hname : Word .enUS name) (hargs : args ≠ [.emptyArgument])
    (harray : isArray name args = false) : Scans (.call name args) := by
  intro s rest hidle _ _
  have hinner : ∀ (opening : Token) (s' : State), opening.opensCall → Idle s' →
      s'.openings = .bracket opening :: s.openings →
      Passes .enUS s' (displayList args).toList (')' :: rest) (SpellsSlots args) := by
    intro opening s' hopening hidle' hopenings
    refine h s' _ hidle' ?_ fun c hc => by cases hc; decide
    rw [← separates_enUS, separates_call hopening hopenings]
  have htext : (Expr.call name args).display.toList =
      name.toList ++ ['('] ++ ((displayList args).toList ++ [')']) := by
    rw [display, harray, if_neg Bool.false_ne_true]
    simp
  rw [htext]
  refine (passes_call hidle hname hinner).imp ?_
  rintro _ ⟨opening, inner, close, rfl, hopening, hspells, hclose⟩
  exact Spells.of_slots hopening hclose.1 hargs hspells

/-! ## Arrays -/

/-- A row whose arguments are passed. -/
def ScansRow (row : Expr) : Prop :=
  ∃ args, row = .call arrayRowName args ∧ args ≠ [.emptyArgument] ∧ ScansSlots args

/-- The tokens of rows and the end of their array, behind the start of the first row. -/
def SpellsRows (rows : List Expr) (tokens : List Token) : Prop :=
  ∀ opener : Token, opener.opensCall ∧ opener.value = arrayRowName → ∃ inner close,
    opener :: tokens = inner ++ [close] ∧ close.closesCall ∧ SpellsSlots rows inner

theorem ScansRow.passes {row : Expr} (h : ScansRow row) {place : Nat} {outer : List Opening}
    (hidle : Idle s) (hopenings : s.openings = .arrayRow place :: outer)
    (hrest : ∀ c ∈ rest.head?, c ∈ [')', ';', '\x7d']) :
    PassesInto .enUS (.arrayRow place :: outer) s row.displayRow.toList rest fun tokens =>
      ∀ opener close : Token, opener.opensCall ∧ opener.value = arrayRowName → close.closesCall →
        Spells false row (opener :: (tokens ++ [close])) := by
  obtain ⟨args, rfl, hargs, hscans⟩ := h
  have hplace : s.separatesHere := by simp [State.separatesHere, hopenings]
  rw [displayRow, ← hopenings]
  exact PassesInto.imp (hscans s rest hidle hplace hrest)
    fun tokens hspells opener close hopener hclose => Spells.of_slots hopener hclose hargs hspells

theorem passes_rows {rows : List Expr} (hne : rows ≠ []) (hrows : ∀ row ∈ rows, ScansRow row)
    {place place' : Nat} {outer : List Opening} (hidle : Idle s)
    (hopenings : s.openings = .arrayRow place :: .array place' :: outer) :
    PassesInto .enUS outer s ((displayRows rows).toList ++ ['\x7d']) rest (SpellsRows rows) := by
  have hcall : ∀ {row}, ScansRow row → row ≠ .emptyArgument := by
    rintro row ⟨args, rfl, -⟩
    simp
  induction rows generalizing s with
  | nil => exact absurd rfl hne
  | cons row rows ih =>
    have hrow := hrows row List.mem_cons_self
    cases rows with
    | nil =>
      have hinner : PassesInto .enUS (.arrayRow place :: .array place' :: outer) s
          row.displayRow.toList (['\x7d'] ++ rest) _ :=
        hrow.passes hidle hopenings fun c hc => by cases hc; decide
      rw [displayRows]
      refine (hinner.append fun s' hidle' hopenings' => passes_closeArray hidle' hopenings').imp ?_
      rintro _ ⟨tokens, _, rfl, hspells, close, close', rfl, hclose, hclose'⟩ opener hopener
      exact ⟨opener :: (tokens ++ [close]), close', by simp, hclose', spellsSlots_single
        (fun heq => absurd heq (hcall hrow)) fun _ => hspells opener close hopener hclose⟩
    | cons next rows =>
      have hinner : PassesInto .enUS (.arrayRow place :: .array place' :: outer) s
          row.displayRow.toList
          ([';'] ++ ((displayRows (next :: rows)).toList ++ ['\x7d']) ++ rest) _ :=
        hrow.passes hidle hopenings fun c hc => by cases hc; decide
      have hothers : ∀ s', Idle s' → s'.openings = .arrayRow place :: .array place' :: outer →
          PassesInto .enUS outer s' ([';'] ++ ((displayRows (next :: rows)).toList ++ ['\x7d'])) rest _ :=
        fun s' hidle' hopenings' => (passes_nextRow hidle' hopenings').append
          fun s'' hidle'' hopenings'' => ih (by simp)
            (fun row hrow => hrows row (List.mem_cons_of_mem _ hrow)) hidle'' hopenings''
      have htext : (displayRows (row :: next :: rows)).toList ++ ['\x7d'] =
          row.displayRow.toList ++ ([';'] ++ ((displayRows (next :: rows)).toList ++ ['\x7d'])) := by
        rw [displayRows, String.toList_append, String.toList_append, List.append_assoc,
          List.append_assoc]
        · rfl
        · simp
      rw [htext]
      refine (hinner.append hothers).imp ?_
      rintro _ ⟨tokens, _, rfl, hspells, _, tokens', rfl,
        ⟨close, separator, row', rfl, hclose, hseparator, hrow'⟩, hothers⟩ opener hopener
      obtain ⟨inner, close', hinner, hclose', hslots⟩ := hothers row' hrow'
      refine ⟨opener :: (tokens ++ [close]) ++ separator :: inner, close', ?_, hclose',
        spellsSlots_cons (by simp [separatesArguments, (is_iff.1 hseparator).1])
          (fun heq => absurd heq (hcall hrow))
          (fun _ => hspells opener close hopener hclose) hslots⟩
      calc opener :: (tokens ++ ([close, separator, row'] ++ tokens'))
          = opener :: (tokens ++ [close]) ++ separator :: (row' :: tokens') := by simp
        _ = opener :: (tokens ++ [close]) ++ separator :: inner ++ [close'] := by
            rw [hinner]
            simp

theorem scans_array {rows : List Expr} (harray : isArray arrayName rows)
    (hrows : ∀ row ∈ rows, ScansRow row) : Scans (.call arrayName rows) := by
  intro s rest hidle _ _
  have hne : rows ≠ [] := by
    rintro rfl
    cases harray
  have hsingle : rows ≠ [.emptyArgument] := by
    rintro rfl
    cases harray
  have htext : (Expr.call arrayName rows).display.toList =
      ['\x7b'] ++ ((displayRows rows).toList ++ ['\x7d']) := by
    rw [display, harray, if_pos rfl]
    simp
  rw [htext]
  refine ((passes_openArray hidle).append fun s' hidle' hopenings =>
    passes_rows hne hrows hidle' hopenings).imp ?_
  rintro _ ⟨_, tokens, rfl, ⟨array, row, rfl, harray, hrow⟩, hspells⟩
  obtain ⟨inner, close, hinner, hclose, hslots⟩ := hspells row hrow
  show Spells false (.call arrayName rows) (array :: (row :: tokens))
  rw [hinner]
  exact Spells.of_slots harray hclose hsingle hslots

/-! ## Expressions -/

/-- The text of an expression is passed, and so are the arguments in it. -/
theorem scans_printable (h : e.Printable) (hdistinct : e.everywhere distinct) :
    Scans e ∧ ∀ name args, e = .call name args → args ≠ [.emptyArgument] ∧ ScansSlots args := by
  induction h with
  | leaf h =>
    refine ⟨scans_leaf h, ?_⟩
    rintro name args rfl
    exact absurd rfl h.ne_call
  | minus _ ih =>
    rw [everywhere, Bool.and_eq_true] at hdistinct
    exact ⟨(ih hdistinct.2).1.minus, by simp⟩
  | percent _ ih =>
    rw [everywhere, Bool.and_eq_true] at hdistinct
    exact ⟨(ih hdistinct.2).1.percent, by simp⟩
  | binary hop _ hright ihleft ihright =>
    rw [everywhere, Bool.and_eq_true, Bool.and_eq_true] at hdistinct
    obtain ⟨⟨hown, hl⟩, hr⟩ := hdistinct
    exact ⟨Scans.binary hop (ihleft hl).1 (ihright hr).1 (starts_display hright) hown, by simp⟩
  | @call name args hname hargs hprintable ih =>
    rw [everywhere, Bool.and_eq_true] at hdistinct
    obtain ⟨hown, hin⟩ := hdistinct
    simp only [distinct, Bool.and_eq_true, bne_iff_ne, List.all_eq_true] at hown
    have hscans : ∀ arg ∈ args, arg ≠ .emptyArgument → Scans arg ∧
        ∀ name args, arg = .call name args → args ≠ [.emptyArgument] ∧ ScansSlots args :=
      fun arg harg hne => ih arg harg hne (everywhereIn_iff.1 hin arg harg)
    have hslots : ScansSlots args := scansSlots fun arg harg hne =>
      ⟨(hscans arg harg hne).1, by simpa using hown.2 arg harg⟩
    refine ⟨?_, fun name' args' heq => ?_⟩
    · cases harray : isArray name args with
      | false => exact hslots.call (hname.resolve_left hown.1) hargs harray
      | true =>
        have hparts := harray
        simp only [isArray, Bool.and_eq_true, beq_iff_eq, List.all_eq_true] at hparts
        obtain ⟨⟨rfl, -⟩, hrows⟩ := hparts
        refine scans_array harray fun row hrow => ?_
        have hisRow := hrows row hrow
        unfold isArrayRow at hisRow
        split at hisRow
        · rename_i rowName rowArgs
          rw [beq_iff_eq] at hisRow
          subst hisRow
          obtain ⟨hne, hscans⟩ := (hscans _ hrow (by simp)).2 _ _ rfl
          exact ⟨rowArgs, rfl, hne, hscans⟩
        · cases hisRow
    · cases heq
      exact ⟨hargs, hslots⟩

/-- The raw tokens of a printed expression. -/
theorem spells_ofFormula (h : e.Printable) (hdistinct : e.everywhere distinct) :
    (ofFormula .enUS ("=" ++ e.display)).fault = none ∧
      Spells false e (ofFormula .enUS ("=" ++ e.display)).tokens.toList := by
  exact ofFormula_of_passes ((scans_printable h hdistinct).1 _ [] ⟨rfl, rfl⟩ (by rintro c ⟨⟩)
    fun _ => rfl)

end

end SheetFormula.Scan
