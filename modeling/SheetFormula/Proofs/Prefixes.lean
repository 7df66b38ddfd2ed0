import SheetFormula.Proofs.Additions
import SheetFormula.Proofs.Pieces
import SheetFormula.Proofs.Spelling

/-!
# The scan of a text that goes on

Main statement: `early_through`, that a scan has the same brackets and separators up to the end of a
text when the text goes on, but for a row that ends there.

1. A scan looks ahead behind a quote, an order sign, white space and a digit. Everywhere else it makes the
   same step when the text goes on: `step_parted`.
2. Where the two scans part, the text is at its end, and they agree in what is open: `Parted`.
3. The longer scan is then at the end of the text or behind it, and adds no more marks in front.
-/

namespace SheetFormula.Scan

open String (utf8Len)
open Token (early rowStop)

/-! ## Two scans -/

/-- Whether two states have the same marks and the same open brackets. -/
structure Agrees (s s' : State) : Prop where
  early : ∀ cut, early cut s.tokens.toList = early cut s'.tokens.toList
  openings : s.openings = s'.openings

/-- Whether the scan of a text, which ends at this place, agrees with a state at the place or behind
it that the scan reaches when the text goes on. -/
def Parted (locale : Locale) (place : Nat) (s : State) (text more : List Char) : Prop :=
  ∃ s' unread, run locale (text ++ more) s = run locale unread s' ∧ Ready s' ∧ place ≤ s'.offset ∧
    Agrees (run locale text s) s'

section

variable {locale : Locale} {place : Nat} {s s' : State} {c : Char} {rest more digits : List Char}

theorem parted_nil (hready : Ready s) (hplace : place ≤ s.offset) : Parted locale place s [] more :=
  ⟨s, more, rfl, hready, hplace, by rw [run]; exact ⟨fun _ => rfl, rfl⟩⟩

/-- The scans part where one of them takes the end of the text and the other one more. -/
theorem parted_of_end (hready : Ready s) (hend : rest.length ≤ (step locale c rest s).2)
    (hplace : place ≤ (step locale c (rest ++ more) s).1.offset)
    (hagrees : Agrees (step locale c rest s).1 (step locale c (rest ++ more) s).1) :
    Parted locale place s (c :: rest) more := by
  refine ⟨_, (rest ++ more).drop (step locale c (rest ++ more) s).2, ?_, ready_step hready, hplace, ?_⟩
  · rw [List.cons_append, run]
  · rw [run]
    show Agrees (run locale (rest.drop (step locale c rest s).2) (step locale c rest s).1) _
    rwa [List.drop_of_length_le hend, run]

/-! ### Where both make the same step -/

theorem ite_within {p : Prop} [Decidable p] {x y : Next} (hx : p → x.2 ≤ rest.length)
    (hy : ¬ p → y.2 ≤ rest.length) : (if p then x else y).2 ≤ rest.length := by
  split
  · exact hx ‹_›
  · exact hy ‹_›

theorem one_le_of_head? {d : Char} (h : rest.head? = some d) : 1 ≤ rest.length := by
  obtain ⟨tail, rfl⟩ := List.head?_eq_some_iff.1 h
  exact Nat.succ_le_succ (Nat.zero_le _)

theorem symbol_within : (symbol c rest s).2 ≤ rest.length := by
  unfold symbol
  repeat' refine ite_within (fun htaken => ?_) fun _ => ?_
  any_goals exact Nat.zero_le _
  · exact (List.takeWhile_sublist _).length_le
  · cases rest with
    | nil => simp [isComparison] at htaken
    | cons => exact Nat.le_add_left _ _

theorem ordinary_within : (ordinary locale c rest s).2 ≤ rest.length :=
  ite_within (fun _ => Nat.zero_le _) fun _ => ite_within (fun _ => Nat.zero_le _) fun _ =>
    ite_within (fun _ => Nat.zero_le _) fun _ => symbol_within

/-- A step takes no more than there is. -/
theorem step_within : (step locale c rest s).2 ≤ rest.length := by
  unfold step
  cases s.mode with
  | text | path =>
    exact ite_within (fun _ => Nat.zero_le _) fun _ =>
      ite_within (fun hquote => one_le_of_head? hquote) fun _ => Nat.zero_le _
  | bracket => exact Nat.zero_le _
  | errorLiteral => exact ite_within (fun _ => Nat.zero_le _) fun _ => Nat.zero_le _
  | number => exact ite_within (fun _ => Nat.zero_le _) fun _ => ordinary_within
  | ordinary => exact ordinary_within

theorem symbol_congr {rest' : List Char}
    (hgaps : isGap c → (rest.takeWhile isGap).length = (rest'.takeWhile isGap).length)
    (hnext : isComparison c rest.head? ∨ isComparison c rest'.head? → rest.head? = rest'.head?) :
    symbol c rest s = symbol c rest' s := by
  have hcompare : isComparison c rest.head? = isComparison c rest'.head? := by
    by_cases h : isComparison c rest.head? ∨ isComparison c rest'.head?
    · rw [hnext h]
    · obtain ⟨h, h'⟩ := not_or.1 h
      rw [Bool.eq_false_of_not_eq_true h, Bool.eq_false_of_not_eq_true h']
  have htake : isComparison c rest.head? → rest.take 1 = rest'.take 1 := fun h => by
    rw [List.take_one, List.take_one, hnext (.inl h)]
  unfold symbol
  by_cases hgap : isGap c
  · simp only [hgap, hgaps hgap, if_true]
  by_cases h : isComparison c rest.head?
  · simp only [hgap, h, hcompare ▸ h, htake h, Bool.false_eq_true, if_true, if_false]
  · simp only [hgap, h, hcompare ▸ h, Bool.false_eq_true, if_false]

theorem ordinary_congr {rest' : List Char}
    (hrow : c.isDigit → s.pending = "" →
      startsRowReference (c :: rest) = startsRowReference (c :: rest'))
    (hsymbol : symbol c rest s = symbol c rest' s) :
    ordinary locale c rest s = ordinary locale c rest' s := by
  unfold ordinary
  refine ite_congr rfl (fun _ => rfl) fun _ => ite_congr rfl (fun _ => rfl) fun _ =>
    ite_congr ?_ (fun _ => rfl) fun _ => hsymbol
  by_cases hdigit : c.isDigit
  · by_cases hp : s.pending = ""
    · rw [hrow hdigit hp]
    · simp [hp]
  · simp [hdigit]

/-! ### Where they part -/

/-- A quote is taken with a second one behind it, which keeps what is open. -/
theorem quote_parted {quote : Char} {inside twice ended : State} (hready : Ready s)
    (hcode : ∀ rest, step locale c rest s = if c ≠ quote then (inside, 0)
      else if rest.head? = some quote then (twice, 1) else (ended, 0))
    (htwice : c = quote → s.offset + c.utf8Size ≤ twice.offset) (hagrees : Agrees ended twice)
    (hplace : s.offset + utf8Len (c :: rest) = place) :
    step locale c (rest ++ more) s = step locale c rest s ∨ Parted locale place s (c :: rest) more := by
  by_cases hpair : c = quote ∧ rest = [] ∧ more.head? = some quote
  · obtain ⟨rfl, rfl, hmore⟩ := hpair
    have hshort : step locale c [] s = (ended, 0) := by
      rw [hcode, if_neg (not_not.2 rfl)]
      rfl
    have hlong : step locale c ([] ++ more) s = (twice, 1) := by
      rw [hcode, if_neg (not_not.2 rfl), List.nil_append, if_pos hmore]
    refine .inr (parted_of_end hready (Nat.zero_le _) ?_ ?_)
    · rw [hlong, ← hplace]
      simpa using htwice rfl
    · rw [hlong, hshort]
      exact hagrees
  · left
    rw [hcode, hcode]
    refine ite_congr rfl (fun _ => rfl) fun hc => ite_congr ?_ (fun _ => rfl) fun _ => rfl
    cases rest with
    | nil => simp_all
    | cons => rfl

theorem text_parted (hready : Ready s) (hmode : s.mode = .text)
    (hplace : s.offset + utf8Len (c :: rest) = place) :
    step locale c (rest ++ more) s = step locale c rest s ∨ Parted locale place s (c :: rest) more := by
  have hcode : ∀ rest, step locale c rest s = text c rest s := fun rest => by rw [step, hmode]
  refine quote_parted hready hcode ?_ ⟨fun cut => ?_, rfl⟩ hplace
  · rintro rfl
    exact Nat.le_succ (s.offset + 1)
  · exact (congrArg _ Array.toList_push).trans (Token.early_concat fun hmark => by cases hmark)

theorem path_parted (hready : Ready s) (hmode : s.mode = .path)
    (hplace : s.offset + utf8Len (c :: rest) = place) :
    step locale c (rest ++ more) s = step locale c rest s ∨ Parted locale place s (c :: rest) more := by
  have hcode : ∀ rest, step locale c rest s = path c rest s := fun rest => by rw [step, hmode]
  exact quote_parted hready hcode (fun _ => Nat.le_add_right _ _) ⟨fun _ => rfl, rfl⟩ hplace

theorem early_mark_of_plain {cut : Nat} (value : String) (kind : Token.Kind) (subkind : Token.Subkind)
    (width : Nat) (h : kind = .whitespace ∨ kind = .infixOp) :
    early cut (s.mark value kind subkind width).tokens.toList = early cut s.tokens.toList := by
  refine (congrArg _ Array.toList_push).trans (Token.early_concat fun hmark => ?_)
  rcases h with rfl | rfl <;> cases hmark

/-- White space is taken as far as it goes. -/
theorem gap_parted (hready : Ready s) (hmode : s.mode = .ordinary ∨ s.mode = .number) (hc : isGap c)
    (hrest : ∀ d ∈ rest, isGap d) (hplace : s.offset + utf8Len (c :: rest) = place) :
    Parted locale place s (c :: rest) more := by
  have hcode : ∀ rest, step locale c rest s =
      ((State.endOperand { s with mode := .ordinary }).mark " " .whitespace .unspecified
        (1 + (rest.takeWhile isGap).length), (rest.takeWhile isGap).length) := by
    intro rest
    have hgap : c = ' ' ∨ c = '\n' := by simpa [isGap] using hc
    rcases hgap with rfl | rfl <;> exact step_symbol hmode (by decide)
  have hsize : utf8Len (c :: rest) = (c :: rest).length := by
    refine utf8Len_gaps fun d hd => ?_
    rcases List.mem_cons.1 hd with rfl | hd
    · exact hc
    · exact hrest d hd
  refine parted_of_end hready ?_ ?_ ?_
  · rw [hcode, List.takeWhile_eq_self_iff.2 hrest]
  · rw [hcode, List.takeWhile_append_of_pos hrest, List.length_append, ← hplace, hsize]
    show _ ≤ (State.endOperand { s with mode := .ordinary }).offset + _
    rw [State.endOperand, offset_endPending, List.length_cons]
    show _ ≤ s.offset + _
    omega
  · rw [hcode, hcode]
    exact ⟨fun cut => (early_mark_of_plain _ _ _ _ (.inl rfl)).trans
      (early_mark_of_plain _ _ _ _ (.inl rfl)).symm, rfl⟩

/-- An order sign is taken with a second one behind it. -/
theorem order_parted (hready : Ready s) (hmode : s.mode = .ordinary ∨ s.mode = .number)
    (hmore : isComparison c more.head?) (hplace : s.offset + utf8Len [c] = place) :
    Parted locale place s [c] more := by
  have hc : c = '>' ∨ c = '<' := by
    simp only [isComparison, Bool.or_eq_true, Bool.and_eq_true, beq_iff_eq] at hmore
    exact hmore.imp And.left And.left
  have hcode : ∀ rest, step locale c rest s = symbol c rest { s with mode := .ordinary } := fun rest =>
    step_symbol hmode (by rcases hc with rfl | rfl <;> decide)
  have hshort : symbol c [] { s with mode := .ordinary } =
      ((State.endOperand { s with mode := .ordinary }).mark (String.singleton c) .infixOp .unspecified 1,
        0) := by rcases hc with rfl | rfl <;> rfl
  have hlong : symbol c more { s with mode := .ordinary } =
      ((State.endOperand { s with mode := .ordinary }).mark (String.ofList (c :: more.take 1)) .infixOp
        .logical 2, 1) := by
    rcases hc with rfl | rfl <;> exact if_pos hmore
  refine parted_of_end hready (Nat.zero_le _) ?_ ?_
  · rw [List.nil_append, hcode, hlong, ← hplace]
    show _ ≤ (State.endOperand { s with mode := .ordinary }).offset + 2
    rw [State.endOperand, offset_endPending]
    have hsize : utf8Len [c] = 1 := by rcases hc with rfl | rfl <;> rfl
    rw [hsize]
    exact Nat.le_succ _
  · rw [List.nil_append, hcode, hcode, hshort, hlong]
    exact ⟨fun cut => (early_mark_of_plain _ _ _ _ (.inr rfl)).trans
      (early_mark_of_plain _ _ _ _ (.inr rfl)).symm, rfl⟩

/-- The digits of a row reference are a name and not a number. -/
theorem run_digits (hmode : s.mode = .ordinary) (hdigits : ∀ d ∈ digits, d.isDigit)
    (hahead : s.pending = "" → startsRowReference (digits ++ rest)) :
    run locale (digits ++ rest) s = run locale rest (s.swallow digits .ordinary) := by
  induction digits generalizing s with
  | nil =>
    show _ = run locale rest { s with mode := .ordinary }
    rw [with_ordinary hmode]
    rfl
  | cons c digits ih =>
    have hc : c.isDigit := hdigits c List.mem_cons_self
    have hrow : (c.isDigit && s.pending.isEmpty && !startsRowReference (c :: (digits ++ rest))) = false := by
      by_cases hp : s.pending = ""
      · rw [← List.cons_append, hahead hp, Bool.not_true, Bool.and_false]
      · simp [hp]
    have hne : c ≠ '\'' ∧ c ≠ '[' := by
      constructor <;> rintro rfl <;> exact absurd hc (by decide)
    have habsorb : absorb locale s.mode s.pending c (digits ++ rest) = some .ordinary := by
      rw [hmode]
      simp only [absorb, absorbOrdinary, endsWord_of_isDigit hc, hrow, hne, Bool.false_eq_true, if_false]
    have hstep : step locale c (digits ++ rest) s = ({ s.extend c with mode := .ordinary }, 0) :=
      step_absorb (.inl hmode) habsorb fun h => by rw [hmode] at h; cases h
    rw [List.cons_append, run, hstep, ← swallow_cons s c digits .ordinary .ordinary]
    exact ih rfl (fun d hd => hdigits d (List.mem_cons_of_mem _ hd)) fun h => by simp at h

theorem startsRowReference_of_digits (hdigits : ∀ d ∈ digits, d.isDigit) :
    startsRowReference digits = false := by
  rw [startsRowReference, List.dropWhile_eq_nil_iff.2 hdigits]
  rfl

/-- Digits are a number at the end of a text, and may be a row reference when it goes on. -/
theorem digits_parted (hidle : Idle s) (hdigits : ∀ d ∈ c :: digits, d.isDigit)
    (hrow : startsRowReference (c :: digits ++ more)) (hplace : s.offset + utf8Len (c :: digits) = place) :
    Parted locale place s (c :: digits) more := by
  have hc : c.isDigit := hdigits c List.mem_cons_self
  have hend : startsRowReference (c :: digits) = false := startsRowReference_of_digits hdigits
  have hfirst : absorb locale .ordinary (String.ofList []) c (digits ++ []) = some .number := by
    simp [absorb, absorbOrdinary, endsWord_of_isDigit hc, hc, hend]
  have hnumber : absorbs locale [] s.mode (c :: digits) [] = some .number := by
    rw [hidle.1, absorbs, hfirst, Option.bind_some]
    exact NumberParts.absorbs_digits fun d hd => hdigits d (List.mem_cons_of_mem _ hd)
  have hshort : run locale (c :: digits) s = s.swallow (c :: digits) .number := by
    have hrun : run locale (c :: digits ++ []) s = run locale [] (s.swallow (c :: digits) .number) :=
      run_word (.inl hidle.1) hidle.2 hnumber stops_nil
    rwa [List.append_nil, run] at hrun
  refine ⟨s.swallow (c :: digits) .ordinary, more, run_digits hidle.1 hdigits fun _ => hrow, .inl rfl, ?_,
    ?_⟩
  · rw [offset_swallow, hplace]
  · rw [hshort]
    exact ⟨fun _ => by rw [tokens_swallow, tokens_swallow], by rw [openings_swallow, openings_swallow]⟩

/-- A run of digits that ends in a text is followed by the same. -/
theorem startsRowReference_front (h : ¬ ∀ d ∈ digits, d.isDigit) :
    startsRowReference (digits ++ more) = startsRowReference digits := by
  have hne : digits.dropWhile Char.isDigit ≠ [] := mt List.dropWhile_eq_nil_iff.1 h
  rw [startsRowReference, List.dropWhile_append, if_neg (by simpa using hne),
    List.head?_append_of_ne_nil _ hne, startsRowReference]

/-- White space that ends in a text ends there when it goes on. -/
theorem takeWhile_front (h : ¬ ∀ d ∈ rest, isGap d) :
    (rest ++ more).takeWhile isGap = rest.takeWhile isGap := by
  rw [List.takeWhile_append, if_neg]
  intro hlength
  have hall := (List.takeWhile_sublist isGap).eq_of_length hlength
  exact h fun d hd => List.all_eq_true.1 List.all_takeWhile d (hall.symm ▸ hd)

/-- Outside the modes of their own, a scan looks ahead behind white space, order signs and digits. -/
theorem outside_parted (hready : Ready s) (hmode : s.mode = .ordinary ∨ s.mode = .number)
    (hplace : s.offset + utf8Len (c :: rest) = place) :
    step locale c (rest ++ more) s = step locale c rest s ∨ Parted locale place s (c :: rest) more := by
  by_cases hgap : isGap c ∧ ∀ d ∈ rest, isGap d
  · exact .inr (gap_parted hready hmode hgap.1 hgap.2 hplace)
  by_cases horder : rest = [] ∧ isComparison c more.head?
  · obtain ⟨rfl, hmore⟩ := horder
    exact .inr (order_parted hready hmode hmore hplace)
  by_cases hdigits : Idle s ∧ (∀ d ∈ c :: rest, d.isDigit) ∧ startsRowReference (c :: rest ++ more)
  · exact .inr (digits_parted hdigits.1 hdigits.2.1 hdigits.2.2 hplace)
  left
  have hordinary : ordinary locale c (rest ++ more) { s with mode := .ordinary } =
      ordinary locale c rest { s with mode := .ordinary } := by
    refine ordinary_congr (fun hdigit hp => ?_) (symbol_congr (fun hc => ?_) fun hcompare => ?_)
    · by_cases hall : ∀ d ∈ c :: rest, d.isDigit
      · have hidle : Idle s := ⟨hmode.resolve_right fun h => by simp_all [Ready], hp⟩
        rw [startsRowReference_of_digits hall, Bool.eq_false_iff]
        exact fun hrow => hdigits ⟨hidle, hall, hrow⟩
      · exact startsRowReference_front hall
    · rw [takeWhile_front fun hall => hgap ⟨hc, hall⟩]
    · cases rest with
      | nil => exact absurd ⟨rfl, hcompare.resolve_right (by simp [isComparison])⟩ horder
      | cons => rfl
  rcases hmode with hmode | hmode
  · rw [step, step, hmode]
    rw [with_ordinary hmode] at hordinary
    exact hordinary
  · rw [step, step, hmode]
    exact ite_congr rfl (fun _ => rfl) fun _ => hordinary

/-- The scans part at the end of a text at the latest. -/
theorem step_parted (hready : Ready s) (hplace : s.offset + utf8Len (c :: rest) = place) :
    step locale c (rest ++ more) s = step locale c rest s ∨ Parted locale place s (c :: rest) more := by
  cases hmode : s.mode with
  | text => exact text_parted hready hmode hplace
  | path => exact path_parted hready hmode hplace
  | bracket => exact .inl (by rw [step, step, hmode])
  | errorLiteral => exact .inl (by rw [step, step, hmode])
  | number => exact outside_parted hready (.inr hmode) hplace
  | ordinary => exact outside_parted hready (.inl hmode) hplace

end

/-! ## Runs -/

section

variable {locale : Locale} {source text unread : List Char} {s : State}

/-- A text that goes on is scanned alike up to its end or up to a place behind it. The scans make the same
steps until one of them takes the last character of the text. -/
theorem parted (more : List Char) (hready : Ready s) (h : Tracks locale source s text) :
    Parted locale (utf8Len source) s text more := by
  induction hn : text.length using Nat.strongRecOn generalizing text s with
  | _ n ih =>
    cases text with
    | nil => exact parted_nil hready h.size.ge
    | cons c rest =>
      rcases step_parted hready h.size with hsame | hparted
      · have hlength : (rest.drop (step locale c rest s).2).length < n := by
          rw [← hn, List.length_drop, List.length_cons]
          omega
        obtain ⟨s', unread, hrun, hparted⟩ := ih _ hlength (ready_step hready) (h.step hready) rfl
        refine ⟨s', unread, ?_, ?_⟩
        · rw [List.cons_append, run, hsame]
          show run locale ((rest ++ more).drop (step locale c rest s).2) (step locale c rest s).1 = _
          rw [List.drop_append_of_le_length step_within, hrun]
        · rw [run]
          exact hparted
      · exact hparted

/-- When a text goes on, the same brackets and separators are read up to its end, and there the end of
the row that is open, or nothing. -/
theorem early_through (more : List Char) (hready : Ready s) (h : Tracks locale source s text) :
    ∃ extra, early (utf8Len source) (through locale (text ++ more) s).tokens.toList =
        early (utf8Len source) (through locale text s).tokens.toList ++ extra ∧
      (extra = [] ∨ extra = [rowStop (utf8Len source)] ∧
        ∃ row outer, (through locale text s).openings = .arrayRow row :: outer) := by
  obtain ⟨s', unread, hrun, hready', hplace, hagrees⟩ := parted more hready h
  have hmoves : Moves locale s' unread (run locale unread s') [] := run_moves unread hready'
  obtain ⟨extra, hearly, hextra⟩ := hmoves.early hplace
  refine ⟨extra, ?_, hextra.imp_right fun ⟨hstop, _, hrow⟩ => ⟨hstop, ?_⟩⟩
  · rw [through, through, hrun, early_finish, early_finish, hearly, hagrees.early]
  · rwa [through, openings_finish, hagrees.openings]

end

end SheetFormula.Scan
