import SheetFormula.Proofs.Discipline
import SheetFormula.Proofs.Essence
import SheetFormula.Proofs.Passing

/-!
# A formula inside another one

Main statement: `passes_body`, that the scan of a formula without a fault is repeated wherever the text
of the formula stands between parentheses.

1. `Framed` compares a scan with one that stands behind other tokens and inside other brackets: from
   some place on it has read the same.
2. What a step looks ahead at never reaches beyond a closing parenthesis or the end of the text, so
   that both scans make the same step: `Framed.step`. A step that looks at the brackets outside notes
   a fault.
3. Behind different tokens, the same text is read alike: `through_alike`.
-/

namespace SheetFormula.Scan

open Token (essence)

/-- An opening without its place. -/
def Opening.bare : Opening → Opening
  | .bracket token => .bracket token.essence
  | .array _ => .array 0
  | .arrayRow _ => .arrayRow 0

/-- Whether `s'` stands to `base` as `s` stands to a scan behind the tokens `front`. -/
structure Framed (front : List Token) (base s s' : State) : Prop where
  mode : s'.mode = s.mode
  pending : s'.pending = s.pending
  tokens : ∃ more more', s.tokens.toList = front ++ more ∧
    s'.tokens.toList = base.tokens.toList ++ more' ∧ more'.map essence = more.map essence
  openings : ∃ inner, s'.openings = inner ++ base.openings ∧
    inner.map Opening.bare = s.openings.map Opening.bare
  fault : s'.fault = base.fault

namespace Framed

variable {front : List Token} {base s s' : State} {outer : List Opening}

theorem initial {offset : Nat} (hidle : Idle base) : Framed [] base (.initial offset) base :=
  ⟨hidle.1, hidle.2, ⟨[], [], rfl, by simp, rfl⟩, ⟨[], rfl, rfl⟩, rfl⟩

/-- Two states between tokens with the same brackets open. -/
theorem idle (hs : Idle s) (hs' : Idle s') (hopenings : s'.openings = s.openings) :
    Framed s.tokens.toList { s' with openings := [] } s s' where
  mode := hs'.1.trans hs.1.symm
  pending := hs'.2.trans hs.2.symm
  tokens := ⟨[], [], by simp, by simp, rfl⟩
  openings := ⟨s'.openings, by simp, by rw [hopenings]⟩
  fault := rfl

/-! ## Parts of a step -/

theorem withMode (h : Framed front base s s') (mode : Mode) :
    Framed front base { s with mode := mode } { s' with mode := mode } :=
  ⟨rfl, h.pending, h.tokens, h.openings, h.fault⟩

theorem take (h : Framed front base s s') (c : Char) : Framed front base (s.take c) (s'.take c) :=
  ⟨h.mode, congrArg (String.push · c) h.pending, h.tokens, h.openings, h.fault⟩

theorem extend (h : Framed front base s s') (c : Char) : Framed front base (s.extend c) (s'.extend c) where
  mode := by simp only [mode_extend, h.mode]
  pending := by simp only [pending_extend, h.pending]
  tokens := by simpa only [tokens_extend] using h.tokens
  openings := by simpa only [openings_extend] using h.openings
  fault := by simp only [fault_extend, h.fault]

/-- Both scans add a token of the same essence. -/
theorem push (h : Framed front base s s') (token token' : Token) (htoken : token'.essence = token.essence) :
    Framed front base { s with tokens := s.tokens.push token }
      { s' with tokens := s'.tokens.push token' } := by
  obtain ⟨more, more', htokens, htokens', hmore⟩ := h.tokens
  refine ⟨h.mode, h.pending, ⟨more ++ [token], more' ++ [token'], ?_, ?_, ?_⟩, h.openings, h.fault⟩
  · rw [Array.toList_push, htokens, List.append_assoc]
  · rw [Array.toList_push, htokens', List.append_assoc]
  · rw [List.map_append, List.map_append, hmore, List.map_singleton, List.map_singleton, htoken]

theorem mark (h : Framed front base s s') (value : String) (kind : Token.Kind) (subkind : Token.Subkind)
    (width : Nat) :
    Framed front base (s.mark value kind subkind width) (s'.mark value kind subkind width) := by
  have hessence : essence ⟨value, kind, subkind, s'.offset, s'.offset + width⟩ =
      essence ⟨value, kind, subkind, s.offset, s.offset + width⟩ := rfl
  exact ⟨h.mode, h.pending, (h.push _ _ hessence).tokens, h.openings, h.fault⟩

theorem emitPending (h : Framed front base s s') (kind : Token.Kind) (subkind : Token.Subkind) :
    Framed front base (s.emitPending kind subkind) (s'.emitPending kind subkind) := by
  have hessence : essence ⟨s'.pending, kind, subkind, s'.pendingStart, s'.offset⟩ =
      essence ⟨s.pending, kind, subkind, s.pendingStart, s.offset⟩ := by
    rw [h.pending]
    rfl
  exact ⟨h.mode, rfl, (h.push _ _ hessence).tokens, h.openings, h.fault⟩

theorem endPending (h : Framed front base s s') (kind : Token.Kind) (subkind : Token.Subkind) :
    Framed front base (s.endPending kind subkind) (s'.endPending kind subkind) := by
  unfold State.endPending
  rw [h.pending]
  split
  · exact h
  · exact h.emitPending kind subkind

theorem endOperand (h : Framed front base s s') : Framed front base s.endOperand s'.endOperand :=
  h.endPending .operand .unspecified

theorem endStray (h : Framed front base s s') : Framed front base s.endStray s'.endStray :=
  h.endPending .unknown .unspecified

theorem opened (h : Framed front base s s') (opening opening' : Opening)
    (hopening : opening'.bare = opening.bare) :
    Framed front base { s with openings := opening :: s.openings }
      { s' with openings := opening' :: s'.openings } := by
  obtain ⟨inner, hopenings, hinner⟩ := h.openings
  refine ⟨h.mode, h.pending, h.tokens, ⟨opening' :: inner, ?_, ?_⟩, h.fault⟩
  · rw [hopenings]
    rfl
  · rw [List.map_cons, List.map_cons, hopening, hinner]

/-- What is innermost in a scan is innermost in the other one. -/
theorem closed (h : Framed front base s s') {opening : Opening} (hopen : s.openings = opening :: outer) :
    ∃ opening' outer', s'.openings = opening' :: outer' ∧ opening'.bare = opening.bare ∧
      Framed front base { s with openings := outer } { s' with openings := outer' } := by
  obtain ⟨inner, hopenings, hinner⟩ := h.openings
  rw [hopen] at hinner
  cases inner with
  | nil => cases hinner
  | cons opening' inner =>
    obtain ⟨hopening, hrest⟩ := List.cons.inj hinner
    exact ⟨opening', inner ++ base.openings, hopenings, hopening,
      h.mode, h.pending, h.tokens, ⟨inner, rfl, hrest⟩, h.fault⟩

theorem closedRow (h : Framed front base s s') {place : Nat} (hopen : s.openings = .arrayRow place :: outer) :
    ∃ place' outer', s'.openings = .arrayRow place' :: outer' ∧
      Framed front base { s with openings := outer } { s' with openings := outer' } := by
  obtain ⟨opening', outer', hopen', hbare, hframed⟩ := h.closed hopen
  cases opening' with
  | arrayRow place' => exact ⟨place', outer', hopen', hframed⟩
  | _ => cases hbare

theorem closedBracket (h : Framed front base s s') {token : Token}
    (hopen : s.openings = .bracket token :: outer) :
    ∃ token' outer', s'.openings = .bracket token' :: outer' ∧ token'.kind = token.kind ∧
      Framed front base { s with openings := outer } { s' with openings := outer' } := by
  obtain ⟨opening', outer', hopen', hbare, hframed⟩ := h.closed hopen
  cases opening' with
  | bracket token' =>
    have hkind : token'.essence.kind = token.essence.kind :=
      congrArg Token.kind (Opening.bracket.inj hbare : token'.essence = token.essence)
    exact ⟨token', outer', hopen', hkind, hframed⟩
  | _ => cases hbare

/-! ## Where the scans stand -/

/-- Separators and rows count alike in both scans, unless they count outside the frame. -/
theorem place (h : Framed front base s s') (hbase : base.separatesHere = false) :
    s'.separatesHere = s.separatesHere ∧ s'.inRow = s.inRow := by
  cases hopen : s.openings with
  | nil =>
    obtain ⟨inner, hopenings, hinner⟩ := h.openings
    rw [hopen, List.map_nil, List.map_eq_nil_iff] at hinner
    rw [hinner, List.nil_append] at hopenings
    have hrow : base.inRow = false := by
      unfold State.separatesHere at hbase
      unfold State.inRow
      split at hbase <;> simp_all
    have hnone : s.separatesHere = false ∧ s.inRow = false := by
      simp [State.separatesHere, State.inRow, hopen]
    have hsame : s'.inRow = base.inRow := by rw [State.inRow, State.inRow, hopenings]
    rw [separatesHere_congr hopenings, hbase, hsame, hrow, hnone.1, hnone.2]
    exact ⟨rfl, rfl⟩
  | cons opening outer =>
    cases opening with
    | bracket token =>
      obtain ⟨token', outer', hopen', hkind, -⟩ := h.closedBracket hopen
      simp [State.separatesHere, State.inRow, hopen, hopen', hkind]
    | arrayRow place =>
      obtain ⟨place', outer', hopen', -⟩ := h.closedRow hopen
      simp [State.separatesHere, State.inRow, hopen, hopen']
    | array place =>
      obtain ⟨opening', outer', hopen', hbare, -⟩ := h.closed hopen
      cases opening' with
      | array => simp [State.separatesHere, State.inRow, hopen, hopen']
      | _ => cases hbare

/-! ## Brackets -/

theorem openArray (h : Framed front base s s') : Framed front base (openArray s) (openArray s') :=
  (((h.endStray.opened (.array s.offset) (.array s'.offset) rfl).mark Token.arrayName .function
    .start 1).opened (.arrayRow s.offset) (.arrayRow s'.offset) rfl).mark Token.arrayRowName
      .function .start 0

theorem nextRow (h : Framed front base s s') (hfault : (nextRow s).fault = none) :
    Framed front base (nextRow s) (nextRow s') := by
  have hended := h.endOperand
  generalize hs : s.endOperand = ended at hended
  generalize hs' : s'.endOperand = ended' at hended
  unfold Scan.nextRow at hfault ⊢
  rw [hs] at hfault ⊢
  rw [hs']
  cases hopen : ended.openings with
  | nil =>
    simp only [hopen] at hfault
    exact absurd hfault (note_ne_none _ _)
  | cons opening outer =>
    cases opening with
    | arrayRow place =>
      obtain ⟨place', outer', hopen', hclosed⟩ := hended.closedRow hopen
      simp only [hopen, hopen']
      exact (((hclosed.mark "" .function .stop 0).mark ";" .argument .unspecified 1).opened
        (.arrayRow place) (.arrayRow place') rfl).mark Token.arrayRowName .function .start 0
    | _ =>
      simp only [hopen] at hfault
      exact absurd hfault (note_ne_none _ _)

theorem closeArray (h : Framed front base s s') (hnested : Nested s.openings)
    (hfault : (closeArray s).fault = none) : Framed front base (closeArray s) (closeArray s') := by
  have hended := h.endOperand
  have hnested' : Nested s.endOperand.openings := by
    unfold State.endOperand
    rwa [openings_endPending]
  generalize hs : s.endOperand = ended at hended hnested'
  generalize hs' : s'.endOperand = ended' at hended
  unfold Scan.closeArray at hfault ⊢
  rw [hs] at hfault ⊢
  rw [hs']
  cases hopen : ended.openings with
  | nil =>
    simp only [hopen] at hfault
    exact absurd hfault (note_ne_none _ _)
  | cons opening outer =>
    cases opening with
    | arrayRow place =>
      rw [hopen] at hnested'
      obtain ⟨place', outer', hopen', hclosed⟩ := hended.closedRow hopen
      cases hnested' with
      | row =>
        obtain ⟨array', outer'', harray', -, hclosed'⟩ := hclosed.closed rfl
        have houter : outer' = array' :: outer'' := harray'
        simp only [hopen, hopen', houter, List.drop_succ_cons, List.drop_zero]
        exact (hclosed'.mark "" .function .stop 0).mark "" .function .stop 1
    | _ =>
      simp only [hopen] at hfault
      exact absurd hfault (note_ne_none _ _)

theorem openGroup (h : Framed front base s s') : Framed front base (openGroup s) (openGroup s') := by
  unfold Scan.openGroup
  rw [h.pending]
  by_cases hname : s.pending.isEmpty
  · simp only [if_pos hname]
    have hadded := (h.push ⟨"", .subexpr, .start, s.offset, s.offset + 1⟩
      ⟨"", .subexpr, .start, s'.offset, s'.offset + 1⟩ rfl).opened
        (.bracket ⟨"", .subexpr, .start, s.offset, s.offset + 1⟩)
        (.bracket ⟨"", .subexpr, .start, s'.offset, s'.offset + 1⟩) rfl
    exact ⟨h.mode, rfl, hadded.tokens, hadded.openings, h.fault⟩
  · simp only [if_neg hname]
    have hadded := (h.push ⟨s.pending, .function, .start, s.pendingStart, s.offset + 1⟩
      ⟨s.pending, .function, .start, s'.pendingStart, s'.offset + 1⟩ rfl).opened
        (.bracket ⟨s.pending, .function, .start, s.pendingStart, s.offset + 1⟩)
        (.bracket ⟨s.pending, .function, .start, s'.pendingStart, s'.offset + 1⟩) rfl
    exact ⟨h.mode, rfl, hadded.tokens, hadded.openings, h.fault⟩

theorem closeGroup (h : Framed front base s s') (hfault : (closeGroup s).fault = none) :
    Framed front base (closeGroup s) (closeGroup s') := by
  have hended := h.endOperand
  generalize hs : s.endOperand = ended at hended
  generalize hs' : s'.endOperand = ended' at hended
  unfold Scan.closeGroup at hfault ⊢
  rw [hs] at hfault ⊢
  rw [hs']
  have hnoted : ∀ {fault : LexError}, (if ended.inRow then
      (ended.note fault).mark ")" .unknown .unspecified 1
      else (ended.note fault).mark "" .subexpr .stop 1).fault ≠ none := by
    intro fault
    split
    · exact note_ne_none _ _
    · exact note_ne_none _ _
  cases hopen : ended.openings with
  | nil =>
    simp only [hopen] at hfault
    exact absurd hfault hnoted
  | cons opening outer =>
    cases opening with
    | bracket token =>
      obtain ⟨token', outer', hopen', hkind, hclosed⟩ := hended.closedBracket hopen
      simp only [hopen, hopen', hkind]
      exact hclosed.mark "" token.kind .stop 1
    | _ =>
      simp only [hopen] at hfault
      exact absurd hfault hnoted

theorem openErrorLiteral (h : Framed front base s s') (c : Char) :
    Framed front base (openErrorLiteral c s) (openErrorLiteral c s') := by
  unfold Scan.openErrorLiteral
  rw [h.pending]
  split
  · exact (h.extend c).withMode _
  · exact (h.endStray.extend c).withMode _

end Framed

/-! ## Steps -/

/-- Whether the outcomes of a step in both scans correspond. The step takes no more than there is. -/
structure FramedNext (front : List Token) (base : State) (rest : List Char) (next next' : Next) :
    Prop where
  within : next.2 ≤ rest.length
  taken : next'.2 = next.2
  framed : next.1.fault = none → Framed front base next.1 next'.1

section

variable {front : List Token} {base s s' : State} {locale : Locale} {c : Char} {rest tail : List Char}

theorem framedNext_of (h : Framed front base s s') : FramedNext front base rest (s, 0) (s', 0) :=
  ⟨Nat.zero_le _, rfl, fun _ => h⟩

theorem framedNext_one (h : Framed front base s s') (hrest : rest.head?.isSome) :
    FramedNext front base rest (s, 1) (s', 1) := by
  refine ⟨?_, rfl, fun _ => h⟩
  cases rest with
  | nil => cases hrest
  | cons => simp

theorem ite_framedNext {p : Prop} [Decidable p] {x y x' y' : Next}
    (hx : p → FramedNext front base rest x x') (hy : ¬ p → FramedNext front base rest y y') :
    FramedNext front base rest (if p then x else y) (if p then x' else y') := by
  split
  · exact hx ‹_›
  · exact hy ‹_›

/-! ### Looking ahead -/

theorem head_append (htail : ∀ d ∈ tail.head?, d = ')') {d : Char} (hd : d ≠ ')') :
    (rest ++ tail).head? = some d ↔ rest.head? = some d := by
  cases rest with
  | nil =>
    refine ⟨fun h => absurd (htail d h) hd, fun h => ?_⟩
    cases h
  | cons => rfl

theorem isComparison_append (htail : ∀ d ∈ tail.head?, d = ')') :
    isComparison c (rest ++ tail).head? = isComparison c rest.head? := by
  cases rest with
  | nil =>
    cases tail with
    | nil => rfl
    | cons d tail => simp [isComparison, htail d rfl]
  | cons => rfl

theorem takeWhile_append (htail : ∀ d ∈ tail.head?, d = ')') :
    (rest ++ tail).takeWhile isGap = rest.takeWhile isGap := by
  induction rest with
  | nil =>
    cases tail with
    | nil => rfl
    | cons d tail => simp [htail d rfl, isGap]
  | cons c rest ih => rw [List.cons_append, List.takeWhile_cons, List.takeWhile_cons, ih]

theorem stops_of_head (htail : ∀ d ∈ tail.head?, d = ')') : Stops tail := by
  intro d hd
  rw [htail d hd]
  decide

/-! ### The rules -/

theorem Framed.symbol (h : Framed front base s s') (hnested : Nested s.openings)
    (htail : ∀ d ∈ tail.head?, d = ')') :
    FramedNext front base rest (symbol c rest s) (symbol c (rest ++ tail) s') := by
  unfold Scan.symbol
  rw [isComparison_append htail, takeWhile_append htail]
  refine ite_framedNext (fun _ => ?_) fun _ => ite_framedNext (fun _ => ?_) fun _ =>
    ite_framedNext (fun _ => ?_) fun _ => ite_framedNext (fun _ => ?_) fun _ =>
    ite_framedNext (fun _ => ?_) fun _ => ite_framedNext (fun _ => ?_) fun _ =>
    ite_framedNext (fun _ => ?_) fun _ => ite_framedNext (fun _ => ?_) fun _ =>
    ite_framedNext (fun hcomparison => ?_) fun _ => ite_framedNext (fun _ => ?_) fun _ =>
    ite_framedNext (fun _ => ?_) fun _ => ite_framedNext (fun _ => ?_) fun _ =>
    ite_framedNext (fun _ => ?_) fun _ => ?_
  · have hended := h.endStray
    exact framedNext_of ⟨rfl, hended.pending, hended.tokens, hended.openings, hended.fault⟩
  · exact framedNext_of ((h.extend c).withMode _)
  · exact framedNext_of ((h.extend c).withMode _)
  · exact framedNext_of (h.openErrorLiteral c)
  · exact framedNext_of h.openArray
  · exact ⟨Nat.zero_le _, rfl, h.nextRow⟩
  · exact ⟨Nat.zero_le _, rfl, h.closeArray hnested⟩
  · exact ⟨(List.takeWhile_sublist _).length_le, rfl, fun _ => h.endOperand.mark _ _ _ _⟩
  · obtain ⟨d, more, rfl⟩ : ∃ d more, rest = d :: more := by
      cases rest with
      | nil => simp [isComparison] at hcomparison
      | cons d more => exact ⟨d, more, rfl⟩
    exact framedNext_one (h.endOperand.mark _ _ _ _) rfl
  · exact framedNext_of (h.endOperand.mark _ _ _ _)
  · exact framedNext_of (h.endOperand.mark _ _ _ _)
  · exact framedNext_of h.openGroup
  · exact ⟨Nat.zero_le _, rfl, h.closeGroup⟩
  · exact framedNext_of (h.extend c)

theorem Framed.ordinary (h : Framed front base s s') (hbase : base.separatesHere = false)
    (hnested : Nested s.openings) (htail : ∀ d ∈ tail.head?, d = ')') :
    FramedNext front base rest (ordinary locale c rest s) (ordinary locale c (rest ++ tail) s') := by
  obtain ⟨hseparates, hrow⟩ := h.place hbase
  have hahead : startsRowReference (c :: (rest ++ tail)) = startsRowReference (c :: rest) := by
    rw [← List.cons_append]
    exact startsRowReference_append (stops_of_head htail)
  unfold Scan.ordinary
  rw [hseparates, hrow, h.pending, hahead]
  refine ite_framedNext (fun _ => ?_) fun _ => ite_framedNext (fun _ => ?_) fun _ =>
    ite_framedNext (fun _ => ?_) fun _ => h.symbol hnested htail
  · exact framedNext_of (h.endOperand.mark _ _ _ _)
  · exact framedNext_of (h.endOperand.mark _ _ _ _)
  · exact framedNext_of ((h.extend c).withMode _)

/-- Both scans make the same step. -/
theorem Framed.step (h : Framed front base s s') (hbase : base.separatesHere = false)
    (hnested : Nested s.openings) (htail : ∀ d ∈ tail.head?, d = ')') :
    FramedNext front base rest (step locale c rest s) (step locale c (rest ++ tail) s') := by
  unfold Scan.step
  rw [h.mode]
  cases s.mode with
  | text =>
    show FramedNext front base rest (text c rest s) (text c (rest ++ tail) s')
    unfold text
    simp only [head_append htail (show '"' ≠ ')' by decide)]
    refine ite_framedNext (fun _ => framedNext_of (h.take c)) fun _ =>
      ite_framedNext (fun hquote => framedNext_one ?_ (by rw [hquote]; rfl)) fun _ => framedNext_of ?_
    · exact ⟨h.mode, congrArg (String.push · '"') h.pending, h.tokens, h.openings, h.fault⟩
    · have hended : Framed front base { s with offset := s.offset + 1, mode := .ordinary }
          { s' with offset := s'.offset + 1, mode := .ordinary } :=
        ⟨rfl, h.pending, h.tokens, h.openings, h.fault⟩
      exact hended.emitPending .operand .text
  | path =>
    show FramedNext front base rest (path c rest s) (path c (rest ++ tail) s')
    unfold path
    simp only [head_append htail (show '\'' ≠ ')' by decide)]
    exact ite_framedNext (fun _ => framedNext_of (h.take c)) fun _ =>
      ite_framedNext (fun hquote => framedNext_one ((h.take c).take c) (by rw [hquote]; rfl))
        fun _ => framedNext_of ((h.withMode .ordinary).take c)
  | bracket depth => exact framedNext_of ((h.withMode _).take c)
  | errorLiteral read =>
    exact ite_framedNext
      (fun _ => framedNext_of (((h.take c).withMode .ordinary).endPending .operand .error))
      fun _ => framedNext_of ((h.take c).withMode _)
  | number =>
    have hsame : continuesNumber locale c s'.pending = continuesNumber locale c s.pending := by
      rw [h.pending]
    simp only [hsame]
    exact ite_framedNext (fun _ => framedNext_of (h.take c)) fun _ =>
      (h.withMode .ordinary).ordinary hbase hnested htail
  | ordinary => exact h.ordinary hbase hnested htail

/-! ## Runs -/

/-- A fault stays noted. -/
theorem Move.fault {unread unread' : List Char} (h : Move locale s unread s' unread')
    (hfault : s'.fault = none) : s.fault = none := by
  have hended : ∀ {t : State} (kind : Token.Kind) (subkind : Token.Subkind),
      (t.endPending kind subkind).fault = none → t.fault = none :=
    fun kind subkind h => (fault_endPending _ kind subkind).symm.trans h
  cases h with
  | absorb => simpa using hfault
  | endOperand => exact hended (t := { s with mode := .ordinary }) .operand .unspecified hfault
  | @closeError c =>
    exact hended (t := { s.take c with mode := .ordinary }) .operand .error hfault
  | openText | openArray =>
    exact hended (t := { s with mode := .ordinary }) .unknown .unspecified hfault
  | openError =>
    rw [Scan.openErrorLiteral] at hfault
    simp only [fault_extend] at hfault
    split at hfault
    · exact hfault
    · exact hended (t := { s with mode := .ordinary }) .unknown .unspecified hfault
  | refuse | closeNothing => exact absurd hfault (note_ne_none _ _)
  | nextRow hidle hopen =>
    rw [nextRow_of_row hidle hopen] at hfault
    exact hfault
  | closeArray hidle hopen =>
    rw [closeArray_of_row hidle hopen] at hfault
    exact hfault
  | closeGroup hidle hopen =>
    rw [closeGroup_of_bracket hidle hopen] at hfault
    exact hfault
  | _ => exact hfault

/-- A row stays inside its array. -/
theorem Move.nested {unread unread' : List Char} (h : Move locale s unread s' unread')
    (hs : Nested s.openings) : Nested s'.openings := by
  have hrestack := h.restack
  generalize s.openings = openings, s'.openings = openings' at hrestack hs ⊢
  cases hrestack with
  | keep => exact hs
  | openBracket hkind => exact .bracket hkind hs
  | openArray => exact .row hs
  | closeBracket | closeArray =>
    cases hs
    assumption

/-- A scan is repeated in front of a closing parenthesis or of nothing, inside other brackets and
behind other tokens. -/
theorem Framed.run {text : List Char} (h : Framed front base s s')
    (hbase : base.separatesHere = false) (hready : Ready s) (hnested : Nested s.openings)
    (htail : ∀ d ∈ tail.head?, d = ')') (hfault : (Scan.run locale text s).fault = none) :
    ∃ s'', Scan.run locale (text ++ tail) s' = Scan.run locale tail s'' ∧
      Framed front base (Scan.run locale text s) s'' := by
  induction hn : text.length using Nat.strongRecOn generalizing text s s' with
  | _ n ih =>
    cases text with
    | nil =>
      rw [Scan.run] at hfault ⊢
      exact ⟨s', rfl, h⟩
    | cons c rest =>
      have hmoves : Moves locale s (c :: rest) (Scan.step locale c rest s).1
          (rest.drop (Scan.step locale c rest s).2) := step_moves hready
      obtain ⟨hready', hnested'⟩ := hmoves.preserves (fun s _ => Ready s ∧ Nested s.openings)
        (fun hmove h => ⟨hmove.ready, hmove.nested h.2⟩) ⟨hready, hnested⟩
      rw [Scan.run] at hfault
      have hstep : (Scan.step locale c rest s).1.fault = none := by
        by_contra hnoted
        exact (run_moves _ hready').preserves (fun s _ => s.fault ≠ none)
          (fun hmove h hfault => h (hmove.fault hfault)) hnoted hfault
      have hsame : FramedNext front base rest (Scan.step locale c rest s) (Scan.step locale c (rest ++ tail) s') :=
        h.step hbase hnested htail
      have hdrop : (rest ++ tail).drop (Scan.step locale c (rest ++ tail) s').2 =
          rest.drop (Scan.step locale c rest s).2 ++ tail := by
        rw [hsame.taken, List.drop_append_of_le_length hsame.within]
      have hshort : (rest.drop (Scan.step locale c rest s).2).length < n := by
        rw [← hn, List.length_drop, List.length_cons]
        omega
      obtain ⟨s'', hrun, hframed⟩ := ih _ hshort (hsame.framed hstep) hready' hnested' hfault rfl
      refine ⟨s'', ?_, ?_⟩
      · rw [List.cons_append, Scan.run]
        dsimp only
        rw [hdrop]
        exact hrun
      · rw [Scan.run]
        exact hframed

/-- Behind different tokens, a text is read alike to its end. -/
theorem through_alike {text : List Char} (hs : Idle s) (hs' : Idle s')
    (hopenings : s'.openings = s.openings) (hnested : Nested s.openings) (hnone : s'.fault = none)
    (hfault : (through locale text s).fault = none) :
    (through locale text s').fault = none ∧ ∃ more more',
      (through locale text s).tokens.toList = s.tokens.toList ++ more ∧
      (through locale text s').tokens.toList = s'.tokens.toList ++ more' ∧
      more'.map essence = more.map essence := by
  have hframed := Framed.idle hs hs' hopenings
  have htail : ∀ d ∈ ([] : List Char).head?, d = ')' := fun _ hd => by cases hd
  unfold through at hfault ⊢
  obtain ⟨hmode, hran, hclosed⟩ := (fault_finish_iff _).1 hfault
  obtain ⟨ended, hrun, hended⟩ := hframed.run rfl (.inl hs.1) hnested htail hran
  rw [List.append_nil, run] at hrun
  rw [hrun]
  have hmode' : ended.mode = .ordinary ∨ ended.mode = .number := by rwa [hended.mode]
  obtain ⟨inner, houter, hinner⟩ := hended.openings
  have hnil : inner = [] := by
    rw [hclosed] at hinner
    exact List.map_eq_nil_iff.1 hinner
  rw [fault_finish_iff, tokens_finish_of_mode hmode, tokens_finish_of_mode hmode']
  exact ⟨⟨hmode', hended.fault.trans hnone, by rw [houter, hnil]; rfl⟩, hended.endOperand.tokens⟩

/-! ## Formulas -/

/-- What a formula without a fault stands for is passed inside a group, with the same tokens. -/
theorem passes_body {formula : String} {rest : List Char}
    (hfault : (ofFormula locale formula).fault = none) (hidle : Idle s)
    (hplace : s.separatesHere = false) :
    Passes locale s (body formula.toList) (')' :: rest) fun tokens =>
      tokens.map essence = (ofFormula locale formula).tokens.toList.map essence := by
  have hready : Ready (.initial (leadSize formula)) := .inl rfl
  have hframed : Framed [] s (.initial (leadSize formula)) s := .initial hidle
  have hhead : ∀ d ∈ (')' :: rest).head?, d = ')' := fun d hd => (Option.some.inj hd).symm
  rw [ofFormula] at hfault ⊢
  obtain ⟨hmode, hnone, hopenings⟩ := (fault_finish_iff _).1 hfault
  rw [tokens_finish_of_mode hmode]
  obtain ⟨s', hrun, hframed'⟩ := hframed.run hplace hready .nil hhead hnone
  generalize run locale (body formula.toList) (.initial (leadSize formula)) = ended at *
  have hclosed : Framed [] s (State.endOperand { ended with mode := .ordinary })
      (State.endOperand { s' with mode := .ordinary }) := (hframed'.withMode .ordinary).endOperand
  obtain ⟨more, more', hmore, hmore', hessence⟩ := hclosed.tokens
  obtain ⟨inner, houter, hinner⟩ := hclosed.openings
  have hsame : (State.endOperand { ended with mode := .ordinary }).tokens = ended.endOperand.tokens := by
    unfold State.endOperand State.endPending
    split <;> rfl
  have hnil : inner = [] := by
    unfold State.endOperand at hinner
    rw [openings_endPending, hopenings] at hinner
    exact List.map_eq_nil_iff.1 hinner
  refine ⟨State.endOperand { s' with mode := .ordinary }, more', ?_,
    ⟨idle_endOperand rfl, ?_, hclosed.fault, hmore'⟩, ?_⟩
  · rw [through, hrun]
    refine through_endOperand (by rw [hframed'.mode]; exact hmode) fun c hc => ?_
    cases hc
    exact ⟨.inl (by decide), fun _ => by cases locale <;> rfl⟩
  · rw [houter, hnil, List.nil_append]
  · rw [List.nil_append] at hmore
    rw [← hsame, hmore]
    exact hessence

end

end SheetFormula.Scan
