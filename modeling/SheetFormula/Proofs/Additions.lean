import SheetFormula.Proofs.Moves

/-!
# What a scan adds

The tokens that the moves of a scan add, and where they stop.

1. Marks are the tokens that open, close or separate. `early` are those up to a place.
2. No move adds a mark up to the place it starts from, except that the end of a row has its stop
   there: `Move.behind`.
3. So a scan adds at most that stop up to the place where it is: `Moves.early`.
-/

namespace SheetFormula

namespace Token

/-- Whether a token opens, closes or separates. -/
def isMark (token : Token) : Bool :=
  token.opensBracket || token.closesBracket || token.separatesArguments

/-- The marks that stop at a place or in front of it. -/
def early (place : Nat) (tokens : List Token) : List Token :=
  tokens.filter fun token => token.isMark && token.stop ≤ place

/-- The stop of a row in front of this place. -/
def rowStop (place : Nat) : Token := ⟨"", .function, .stop, place, place⟩

section

variable {place : Nat} {tokens more : List Token} {token : Token}

theorem early_append : early place (tokens ++ more) = early place tokens ++ early place more :=
  List.filter_append tokens more

/-- A token behind others that is no mark or stops behind the place. -/
theorem early_concat (h : token.isMark → place < token.stop) :
    early place (tokens ++ [token]) = early place tokens := by
  simpa [early] using h

theorem early_rowStop (place : Nat) : early place [rowStop place] = [rowStop place] := by
  simp [early, rowStop, isMark, closesBracket, closesCall, Token.is]

end

end Token

namespace Scan

open Token (early rowStop)

/-! ## Behind a place -/

/-- Whether a state is at a place or behind it with more tokens, but with no mark more up to the place. -/
structure Behind (place : Nat) (tokens : List Token) (s : State) : Prop where
  offset : place ≤ s.offset
  grows : tokens <+: s.tokens.toList
  early : ∀ cut ≤ place, early cut s.tokens.toList = early cut tokens

section

variable {locale : Locale} {s s' : State} {unread unread' : List Char} {place cut : Nat}
  {tokens : List Token} {kind : Token.Kind} {subkind : Token.Subkind}

theorem offset_endPending : (s.endPending kind subkind).offset = s.offset := by
  unfold State.endPending
  split <;> rfl

namespace Behind

theorem start (hoffset : s.offset ≤ s'.offset) (htokens : s'.tokens = s.tokens) :
    Behind s.offset s.tokens.toList s' where
  offset := hoffset
  grows := htokens ▸ List.prefix_rfl
  early _ _ := by rw [htokens]

theorem ahead (h : Behind place tokens s) (hoffset : s.offset ≤ s'.offset)
    (htokens : s'.tokens = s.tokens) : Behind place tokens s' where
  offset := h.offset.trans hoffset
  grows := htokens ▸ h.grows
  early cut hcut := htokens ▸ h.early cut hcut

/-- A token more that is no mark or stops behind the place. -/
theorem emit (token : Token) (h : Behind place tokens s) (hstop : token.isMark → place < token.stop)
    (hoffset : place ≤ s'.offset) (htokens : s'.tokens = s.tokens.push token) :
    Behind place tokens s' where
  offset := hoffset
  grows := by
    rw [htokens, Array.toList_push]
    exact h.grows.trans (List.prefix_append _ _)
  early cut hcut := by
    rw [htokens, Array.toList_push, Token.early_concat fun hmark => hcut.trans_lt (hstop hmark)]
    exact h.early cut hcut

theorem mark {value : String} {width : Nat} (h : Behind place tokens s) (hwidth : 0 < width) :
    Behind place tokens (s.mark value kind subkind width) := by
  have hplace : place < s.offset + width := Nat.lt_of_le_of_lt h.offset (Nat.lt_add_of_pos_right hwidth)
  exact h.emit ⟨value, kind, subkind, s.offset, s.offset + width⟩ (fun _ => hplace) hplace.le rfl

/-- The start of a row covers no text, but its brace or its separator does. -/
theorem openRow {array : Nat} (h : Behind place tokens s) (hlt : place < s.offset) :
    Behind place tokens (s.openRow array) :=
  h.emit ⟨Token.arrayRowName, .function, .start, s.offset, s.offset⟩ (fun _ => hlt) hlt.le rfl

theorem endPending (h : Behind place tokens s) (hkind : kind = .operand ∨ kind = .unknown) :
    Behind place tokens (s.endPending kind subkind) := by
  unfold State.endPending
  split
  · exact h
  · refine h.emit ⟨s.pending, kind, subkind, s.pendingStart, s.offset⟩ (fun hmark => ?_) h.offset rfl
    rcases hkind with rfl | rfl <;> cases hmark

end Behind

theorem signs_pos {sign : String × Token.Kind × Token.Subkind} (h : sign ∈ signs) :
    0 < sign.1.toList.length := by
  revert sign
  decide

/-- What one move adds. The end of a row is added at the place where the move starts. -/
theorem Move.behind (h : Move locale s unread s' unread') :
    Behind s.offset s.tokens.toList s' ∧ (s.offset < s'.offset ∨ s'.openings = s.openings) ∨
      ∃ row outer, s.openings = .arrayRow row :: outer ∧ s.offset < s'.offset ∧
        Behind s.offset (s.tokens.toList ++ [rowStop s.offset]) s' := by
  have hrefl : Behind s.offset s.tokens.toList { s with mode := .ordinary } := .start le_rfl rfl
  have hrow : ∀ openings, Behind s.offset (s.tokens.toList ++ [rowStop s.offset])
      ({ s with openings := openings }.mark "" .function .stop 0) :=
    fun _ => ⟨le_rfl, Array.toList_push ▸ List.prefix_rfl, fun _ _ => congrArg _ Array.toList_push⟩
  cases h with
  | absorb => exact .inl ⟨.start (by simp) (tokens_extend s _), .inr (openings_extend s _)⟩
  | endOperand => exact .inl ⟨hrefl.endPending (.inl rfl), .inr (openings_endPending _ _ _)⟩
  | sign _ hsign => exact .inl ⟨Behind.mark (.start le_rfl rfl) (signs_pos hsign), .inr rfl⟩
  | gap _ hne =>
    exact .inl ⟨Behind.mark (.start le_rfl rfl) (List.length_pos_iff.2 hne), .inr rfl⟩
  | refuse | closeNothing =>
    exact .inl ⟨Behind.mark (s := s.note _) (.start le_rfl rfl) Nat.one_pos, .inr rfl⟩
  | openText =>
    exact .inl ⟨(hrefl.endPending (.inr rfl)).ahead (Nat.le_succ _) rfl, .inr (openings_endPending _ _ _)⟩
  | textChar | textQuote | errorChar => exact .inl ⟨.start (Nat.le_add_right _ _) rfl, .inr rfl⟩
  | closeText =>
    refine .inl ⟨hrefl.emit ⟨s.pending, .operand, .text, s.pendingStart, s.offset + 1⟩ ?_ (Nat.le_succ _)
      rfl, .inr rfl⟩
    exact fun _ => Nat.lt_succ_self _
  | openError =>
    unfold openErrorLiteral
    split
    · exact .inl ⟨.start (by simp) (tokens_extend _ _), .inr (openings_extend _ _)⟩
    · refine .inl ⟨(hrefl.endPending (.inr rfl)).ahead ?_ (tokens_extend _ _), .inr ?_⟩
      · simp [State.endStray]
      · simp [State.endStray, openings_endPending]
  | closeError =>
    refine .inl ⟨Behind.endPending (.start ?_ rfl) (.inl rfl), .inr (openings_endPending _ _ _)⟩
    exact Nat.le_add_right _ _
  | openArray =>
    have hstray : Behind s.offset s.tokens.toList (State.endStray { s with mode := .ordinary }) :=
      hrefl.endPending (.inr rfl)
    have hbrace := Nat.lt_succ_of_le hstray.offset
    refine .inl ⟨Behind.openRow (Behind.mark (hstray.ahead le_rfl rfl) Nat.one_pos) hbrace, .inl hbrace⟩
  | nextRow hidle hopen =>
    rw [nextRow_of_row hidle hopen]
    refine .inr ⟨_, _, hopen, Nat.lt_succ_self _, Behind.openRow ((hrow _).mark Nat.one_pos) ?_⟩
    exact Nat.lt_succ_self _
  | closeArray hidle hopen =>
    rw [closeArray_of_row hidle hopen]
    exact .inr ⟨_, _, hopen, Nat.lt_succ_self _, (hrow _).mark Nat.one_pos⟩
  | openGroup =>
    refine .inl ⟨hrefl.emit _ (fun _ => ?_) (Nat.le_succ _) rfl, .inl (Nat.lt_succ_self _)⟩
    show s.offset < Token.stop (if s.pending.isEmpty then _ else _)
    split <;> exact Nat.lt_succ_self _
  | closeGroup hidle hopen =>
    rw [closeGroup_of_bracket hidle hopen]
    exact .inl ⟨Behind.mark (.start le_rfl rfl) Nat.one_pos, .inl (Nat.lt_succ_self _)⟩

theorem Move.grows (h : Move locale s unread s' unread') : s.tokens.toList <+: s'.tokens.toList := by
  rcases h.behind with ⟨hbehind, -⟩ | ⟨-, -, -, -, hbehind⟩
  · exact hbehind.grows
  · exact (List.prefix_append _ _).trans hbehind.grows

/-- What is added up to the place where moves start: the end of the row that is open there, or
nothing. -/
theorem Moves.early (h : Moves locale s unread s' unread') (hcut : cut ≤ s.offset) :
    ∃ extra, early cut s'.tokens.toList = early cut s.tokens.toList ++ extra ∧
      (extra = [] ∨ extra = [rowStop cut] ∧ s.offset = cut ∧
        ∃ row outer, s.openings = .arrayRow row :: outer) := by
  induction h with
  | refl => exact ⟨[], (List.append_nil _).symm, .inl rfl⟩
  | @head s unread s' unread' s'' unread'' hmove _ ih =>
    rcases hmove.behind with ⟨hbehind, hnext⟩ | ⟨row, outer, hopen, hlt, hbehind⟩
    · obtain ⟨extra, hearly, hextra⟩ := ih (hcut.trans hbehind.offset)
      rw [hbehind.early cut hcut] at hearly
      refine ⟨extra, hearly, hextra.imp_right ?_⟩
      rintro ⟨rfl, hplace, hrow⟩
      have hsame : s.offset = cut := by have := hbehind.offset; omega
      exact ⟨rfl, hsame, (hnext.resolve_left (by omega)) ▸ hrow⟩
    · obtain ⟨extra, hearly, hextra⟩ := ih (hcut.trans hlt.le)
      obtain rfl : extra = [] := hextra.resolve_right fun h => by omega
      rw [List.append_nil, hbehind.early cut hcut] at hearly
      by_cases hplace : s.offset = cut
      · refine ⟨[rowStop cut], hearly.trans ?_, .inr ⟨rfl, hplace, row, outer, hopen⟩⟩
        rw [hplace, Token.early_append, Token.early_rowStop]
      · refine ⟨[], hearly.trans ?_, .inl rfl⟩
        rw [List.append_nil]
        exact Token.early_concat fun _ => by show cut < s.offset; omega

/-- The end of a scan adds no mark, nor does the end of an operand or of a name. -/
theorem early_endPending (hkind : kind = .operand ∨ kind = .unknown) :
    early cut (s.endPending kind subkind).tokens.toList = early cut s.tokens.toList := by
  unfold State.endPending
  split
  · rfl
  · refine (congrArg _ Array.toList_push).trans (Token.early_concat fun hmark => ?_)
    rcases hkind with rfl | rfl <;> cases hmark

theorem early_finish (s : State) : early cut (finish s).tokens.toList = early cut s.tokens.toList := by
  rw [tokens_finish]
  unfold finishToken
  cases s.mode with
  | text => exact (congrArg _ Array.toList_push).trans (Token.early_concat fun hmark => by cases hmark)
  | path | bracket => exact early_endPending (s := s.note _) (.inl rfl)
  | errorLiteral => exact early_endPending (s := s.note _) (.inr rfl)
  | number | ordinary => exact early_endPending (.inl rfl)

end

end Scan

end SheetFormula
