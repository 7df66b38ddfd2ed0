import Mathlib.Data.String.Basic
import Mathlib.Tactic.SplitIfs
import SheetFormula.Token.Scan

/-!
# Words

A word is the text of an operand or of a name, as a scan takes it from one token to the next.

1. `endsWord` holds of the characters that end a word. They do not between single quotes and in
   square brackets.
2. `absorb` is the mode in which a character of a word leaves the scan, and `absorbs` the mode in
   which a whole word leaves it. `step_absorb` and `run_word` compare them with the scan.
3. What a scan looks ahead at ends with the word: `absorbs_of_stops`.
-/

namespace SheetFormula.Scan

/-- The characters that end a word. -/
def endsWord (c : Char) : Bool :=
  c ∈ [',', ';', '"', '#', '\x7b', '\x7d', ' ', '\n', '+', '-', '*', '/', '^', '&', '=', '>', '<',
    '%', '(', ')']

/-- The mode behind a character of a word outside quotes, brackets and numbers. -/
def absorbOrdinary (first : Bool) (c : Char) (rest : List Char) : Option Mode :=
  if endsWord c then none
  else if c.isDigit && first && !startsRowReference (c :: rest) then some .number
  else if c = '\'' then some .path
  else if c = '[' then some (.bracket 1)
  else some .ordinary

/-- The mode behind a character of a word, of which `pending` is read. -/
def absorb (locale : Locale) (mode : Mode) (pending : String) (c : Char) (rest : List Char) :
    Option Mode :=
  match mode with
  | .text | .errorLiteral _ => none
  | .path => some (if c = '\'' then .ordinary else .path)
  | .bracket depth =>
    some (if c = '[' then .bracket (depth + 1)
      else if c = ']' then if depth ≤ 1 then .ordinary else .bracket (depth - 1)
      else .bracket depth)
  | .number =>
    if continuesNumber locale c pending then some .number
    else absorbOrdinary pending.isEmpty c rest
  | .ordinary => absorbOrdinary pending.isEmpty c rest

/-- The mode behind several characters of a word, with `before` in front of them. -/
def absorbs (locale : Locale) (before : List Char) (mode : Mode) :
    List Char → List Char → Option Mode
  | [], _ => some mode
  | c :: word, unread =>
    (absorb locale mode (String.ofList before) c (word ++ unread)).bind fun next =>
      absorbs locale (before ++ [c]) next word unread

/-- Modes in which a text or an error literal is being read. -/
def InLiteral (mode : Mode) : Prop := mode = .text ∨ ∃ read, mode = .errorLiteral read

/-- Whether a text starts with nothing that a word takes. -/
def Stops (unread : List Char) : Prop := ∀ c ∈ unread.head?, endsWord c

/-- In most modes something of a token is read. -/
def Ready (s : State) : Prop := s.mode = .ordinary ∨ s.mode = .text ∨ s.pending ≠ ""

theorem stops_nil : Stops [] := fun _ h => by cases h

theorem stops_cons {c : Char} {rest : List Char} (h : endsWord c) : Stops (c :: rest) := by
  intro d hd
  cases hd
  exact h

/-- A word is read in modes of its own. -/
theorem not_inLiteral_of_absorb {locale : Locale} {mode next : Mode} {pending : String} {c : Char}
    {rest : List Char} (h : absorb locale mode pending c rest = some next) :
    ¬ InLiteral mode ∧ ¬ InLiteral next := by
  unfold InLiteral
  cases mode with
  | text | errorLiteral => cases h
  | path =>
    cases h
    refine ⟨by simp, ?_⟩
    split <;> simp
  | bracket depth =>
    cases h
    refine ⟨by simp, ?_⟩
    repeat' split
    all_goals simp
  | number | ordinary =>
    refine ⟨by simp, ?_⟩
    simp only [absorb, absorbOrdinary] at h
    repeat' split at h
    all_goals cases h <;> simp

/-! ## Taking a character -/

section

variable (s : State) (c : Char)

@[simp] theorem tokens_extend : (s.extend c).tokens = s.tokens := by
  unfold State.extend
  split <;> rfl

@[simp] theorem openings_extend : (s.extend c).openings = s.openings := by
  unfold State.extend
  split <;> rfl

@[simp] theorem offset_extend : (s.extend c).offset = s.offset + c.utf8Size := by
  unfold State.extend
  split <;> rfl

@[simp] theorem pending_extend : (s.extend c).pending = s.pending.push c := by
  unfold State.extend
  split <;> rfl

@[simp] theorem pendingStart_extend :
    (s.extend c).pendingStart = if s.pending.isEmpty then s.offset else s.pendingStart := by
  unfold State.extend
  split <;> rfl

@[simp] theorem mode_extend : (s.extend c).mode = s.mode := by
  unfold State.extend
  split <;> rfl

@[simp] theorem fault_extend : (s.extend c).fault = s.fault := by
  unfold State.extend
  split <;> rfl

end

/-! ## Taking a word -/

/-- Takes the characters of a word and goes on in this mode. -/
def State.swallow (s : State) (word : List Char) (mode : Mode) : State :=
  { word.foldl State.extend s with mode := mode }

section

variable (s : State) (c : Char) (word : List Char) (mode : Mode)

theorem extend_withMode : State.extend { s with mode := mode } c = { s.extend c with mode := mode } := by
  unfold State.extend State.take
  split <;> rfl

theorem swallow_cons (next : Mode) :
    State.swallow { s.extend c with mode := next } word mode = s.swallow (c :: word) mode := by
  have hmode : ∀ (word : List Char) (s : State), word.foldl State.extend { s with mode := next } =
      { word.foldl State.extend s with mode := next } := by
    intro word
    induction word with
    | nil => exact fun _ => rfl
    | cons d word ih =>
      intro s
      rw [List.foldl_cons, extend_withMode, ih, List.foldl_cons]
  rw [State.swallow, hmode]
  rfl

theorem mode_swallow : (s.swallow word mode).mode = mode := rfl

theorem tokens_swallow : (s.swallow word mode).tokens = s.tokens := by
  show (word.foldl State.extend s).tokens = s.tokens
  induction word generalizing s with
  | nil => rfl
  | cons c word ih => rw [List.foldl_cons, ih, tokens_extend]

theorem openings_swallow : (s.swallow word mode).openings = s.openings := by
  show (word.foldl State.extend s).openings = s.openings
  induction word generalizing s with
  | nil => rfl
  | cons c word ih => rw [List.foldl_cons, ih, openings_extend]

theorem fault_swallow : (s.swallow word mode).fault = s.fault := by
  show (word.foldl State.extend s).fault = s.fault
  induction word generalizing s with
  | nil => rfl
  | cons c word ih => rw [List.foldl_cons, ih, fault_extend]

theorem pending_swallow : (s.swallow word mode).pending = s.pending ++ String.ofList word := by
  show (word.foldl State.extend s).pending = s.pending ++ String.ofList word
  induction word generalizing s with
  | nil => exact String.append_empty.symm
  | cons c word ih =>
    rw [List.foldl_cons, ih, pending_extend, ← String.toList_inj]
    simp

theorem offset_swallow : (s.swallow word mode).offset = s.offset + String.utf8Len word := by
  show (word.foldl State.extend s).offset = s.offset + String.utf8Len word
  induction word generalizing s with
  | nil => rfl
  | cons c word ih =>
    rw [List.foldl_cons, ih, offset_extend, String.utf8Len_cons]
    omega

end

/-- A word starts where nothing is read yet. -/
theorem pendingStart_swallow {s : State} {word : List Char} {mode : Mode} (hpending : s.pending = "")
    (hword : word ≠ []) : (s.swallow word mode).pendingStart = s.offset := by
  have hkept : ∀ (word : List Char) (s : State), s.pending ≠ "" →
      (word.foldl State.extend s).pendingStart = s.pendingStart := by
    intro word
    induction word with
    | nil => exact fun _ _ => rfl
    | cons c word ih =>
      intro s hs
      rw [List.foldl_cons, ih _ (by simp), pendingStart_extend, if_neg]
      simpa [String.isEmpty_iff] using hs
  obtain ⟨c, word, rfl⟩ := List.exists_cons_of_ne_nil hword
  show (word.foldl State.extend (s.extend c)).pendingStart = s.offset
  rw [hkept _ _ (by simp), pendingStart_extend, if_pos]
  exact String.isEmpty_iff.2 hpending

/-! ## Words in parts -/

section

variable {locale : Locale} {before word part unread : List Char} {mode : Mode}

theorem absorbs_append :
    absorbs locale before mode (word ++ part) unread =
      (absorbs locale before mode word (part ++ unread)).bind fun next =>
        absorbs locale (before ++ word) next part unread := by
  induction word generalizing before mode with
  | nil => rw [List.nil_append, List.append_nil, absorbs, Option.bind_some]
  | cons c word ih =>
    rw [List.cons_append, absorbs, absorbs, Option.bind_assoc, List.append_assoc]
    refine Option.bind_congr fun next _ => ?_
    rw [ih, List.append_assoc]
    rfl

theorem absorbs_concat {c : Char} :
    absorbs locale before mode (word ++ [c]) unread =
      (absorbs locale before mode word (c :: unread)).bind fun next =>
        absorb locale next (String.ofList (before ++ word)) c unread := by
  rw [absorbs_append]
  refine Option.bind_congr fun next _ => ?_
  exact Option.bind_fun_some _

end

/-- Characters that end no word and open neither quotes nor brackets are read as a word, unless a digit
comes first. -/
theorem absorbs_plain {locale : Locale} {before word unread : List Char}
    (hfirst : before = [] → ∀ c ∈ word.head?, c.isDigit = false)
    (hword : ∀ c ∈ word, endsWord c = false ∧ c ≠ '\'' ∧ c ≠ '[') :
    absorbs locale before .ordinary word unread = some .ordinary := by
  induction word generalizing before with
  | nil => rfl
  | cons c word ih =>
    obtain ⟨hends, hquote, hbracket⟩ := hword c List.mem_cons_self
    have hdigit : (c.isDigit && (String.ofList before).isEmpty) = false := by
      cases before with
      | nil => simp [hfirst rfl c rfl]
      | cons => simp
    have hnext : absorb locale .ordinary (String.ofList before) c (word ++ unread) =
        some .ordinary := by
      simp [absorb, absorbOrdinary, hends, hdigit, hquote, hbracket]
    rw [absorbs, hnext, Option.bind_some]
    exact ih (by simp) fun c hc => hword c (List.mem_cons_of_mem _ hc)

/-! ## Looking ahead -/

theorem not_isDigit_of_endsWord {c : Char} (h : endsWord c) : c.isDigit = false := by
  simp only [endsWord, List.mem_cons, List.not_mem_nil, or_false, decide_eq_true_eq] at h
  rcases h with rfl | rfl | rfl | rfl | rfl | rfl | rfl | rfl | rfl | rfl | rfl | rfl | rfl | rfl |
    rfl | rfl | rfl | rfl | rfl | rfl <;> rfl

theorem endsWord_of_isDigit {c : Char} (h : c.isDigit) : endsWord c = false := by
  by_contra hends
  rw [not_isDigit_of_endsWord (Bool.not_eq_false _ ▸ hends)] at h
  cases h

theorem startsRowReference_of_stops {unread : List Char} (h : Stops unread) :
    startsRowReference unread = false := by
  cases unread with
  | nil => rfl
  | cons c rest =>
    have hc : endsWord c := h c rfl
    rw [startsRowReference, List.dropWhile_cons, not_isDigit_of_endsWord hc]
    simp only [Bool.false_eq_true, if_false, List.head?_cons]
    refine beq_eq_false_iff_ne.2 fun heq => ?_
    rw [Option.some.inj heq] at hc
    exact absurd hc (by decide)

/-- What a word is followed by makes no row reference of it. -/
theorem startsRowReference_append {word unread : List Char} (h : Stops unread) :
    startsRowReference (word ++ unread) = startsRowReference word := by
  induction word with
  | nil => exact startsRowReference_of_stops h
  | cons c word ih =>
    by_cases hc : c.isDigit
    · simpa [startsRowReference, List.dropWhile_cons, hc] using ih
    · simp [startsRowReference, hc]

theorem absorbs_of_stops {locale : Locale} {before word unread : List Char} {mode : Mode}
    (h : Stops unread) :
    absorbs locale before mode word unread = absorbs locale before mode word [] := by
  induction word generalizing before mode with
  | nil => rfl
  | cons c word ih =>
    have hahead : startsRowReference (c :: (word ++ unread)) =
        startsRowReference (c :: (word ++ [])) := by
      rw [List.append_nil, ← List.cons_append]
      exact startsRowReference_append h
    have hstep : absorb locale mode (String.ofList before) c (word ++ unread) =
        absorb locale mode (String.ofList before) c (word ++ []) := by
      cases mode <;> simp only [absorb, absorbOrdinary, hahead]
    rw [absorbs, absorbs, hstep]
    exact Option.bind_congr fun next _ => ih

/-! ## A character in front

A word stays a word without a first character that leaves the scan in the ordinary mode. Only what
looked like a name there may turn out to be a number. -/

/-- The modes in which a text is read behind an ordinary character and without it. -/
def Alike (before : List Char) (mode mode' : Mode) : Prop :=
  mode = mode' ∧ mode ≠ .number ∨ mode = .ordinary ∧ mode' = .number ∧ before ≠ []

theorem absorbOrdinary_of_continuesNumber {locale : Locale} {c : Char} {pending : String}
    {rest : List Char} {next : Mode} (hc : continuesNumber locale c pending)
    (h : absorbOrdinary false c rest = some next) : next = .ordinary := by
  have hquote : continuesNumber locale '\'' pending = false := by cases locale <;> rfl
  have hbracket : continuesNumber locale '[' pending = false := by cases locale <;> rfl
  unfold absorbOrdinary at h
  split_ifs at h with hends hdigit hq hb
  · simp at hdigit
  · rw [hq, hquote] at hc
    cases hc
  · rw [hb, hbracket] at hc
    cases hc
  · exact (Option.some.inj h).symm

theorem absorb_alike {locale : Locale} {before : List Char} {front c : Char} {rest : List Char}
    {mode mode' next : Mode} (halike : Alike before mode mode')
    (h : absorb locale mode (String.ofList (front :: before)) c rest = some next) :
    ∃ next', absorb locale mode' (String.ofList before) c rest = some next' ∧
      Alike (before ++ [c]) next next' := by
  have hfront : (String.ofList (front :: before)).isEmpty = false := by simp
  have hmore : before ++ [c] ≠ [] := by simp
  have hsame : ∀ {next : Mode}, absorbOrdinary false c rest = some next → next ≠ .number := by
    intro next h
    unfold absorbOrdinary at h
    split_ifs at h <;> cases h <;> simp_all
  rcases halike with ⟨rfl, hmode⟩ | ⟨rfl, rfl, hbefore⟩
  · cases mode with
    | text | errorLiteral => cases h
    | number => exact absurd rfl hmode
    | path =>
      refine ⟨next, h, .inl ⟨rfl, ?_⟩⟩
      cases h
      split <;> simp
    | bracket depth =>
      refine ⟨next, h, .inl ⟨rfl, ?_⟩⟩
      cases h
      split_ifs <;> simp
    | ordinary =>
      simp only [absorb, hfront] at h ⊢
      by_cases hnumber : c.isDigit && (String.ofList before).isEmpty && !startsRowReference (c :: rest)
      · have hends : endsWord c = false := by
          cases hc : endsWord c with
          | false => rfl
          | true =>
            rw [not_isDigit_of_endsWord hc] at hnumber
            simp at hnumber
        refine ⟨.number, ?_, .inr ⟨?_, rfl, hmore⟩⟩
        · simp only [absorbOrdinary, hends, hnumber, if_true, Bool.false_eq_true, if_false]
        · have hdigit : c.isDigit := by
            simp only [Bool.and_eq_true] at hnumber
            exact hnumber.1.1
          exact absorbOrdinary_of_continuesNumber
            (show continuesNumber locale c "" by simp [continuesNumber, hdigit]) h
      · refine ⟨next, ?_, .inl ⟨rfl, hsame h⟩⟩
        rw [← h]
        unfold absorbOrdinary
        simp [hnumber]
  · have hsome : (String.ofList before).isEmpty = false := by simpa using hbefore
    simp only [absorb, hfront, hsome] at h ⊢
    split
    · rename_i hc
      exact ⟨.number, rfl, .inr ⟨absorbOrdinary_of_continuesNumber hc h, rfl, hmore⟩⟩
    · exact ⟨next, h, .inl ⟨rfl, hsame h⟩⟩

theorem absorbs_alike {locale : Locale} {before word unread : List Char} {front : Char}
    {mode mode' last : Mode} (halike : Alike before mode mode')
    (h : absorbs locale (front :: before) mode word unread = some last) :
    ∃ last', absorbs locale before mode' word unread = some last' ∧
      Alike (before ++ word) last last' := by
  induction word generalizing before mode mode' with
  | nil =>
    cases h
    exact ⟨mode', rfl, by rwa [List.append_nil]⟩
  | cons c word ih =>
    obtain ⟨next, hnext, hlast⟩ := Option.bind_eq_some_iff.1 h
    obtain ⟨next', hnext', halike'⟩ := absorb_alike halike hnext
    obtain ⟨last', hlast', halike''⟩ := ih halike' hlast
    refine ⟨last', ?_, ?_⟩
    · rw [absorbs, hnext']
      exact hlast'
    · rwa [List.append_assoc, List.singleton_append] at halike''

/-! ## Words and the scan -/

section

variable {locale : Locale} {c : Char} {rest : List Char} {s : State} {next : Mode}

theorem symbol_of_not_endsWord (h : endsWord c = false) :
    symbol c rest s =
      if c = '\'' then ({ s.extend c with mode := .path }, 0)
      else if c = '[' then ({ s.extend c with mode := .bracket 1 }, 0)
      else (s.extend c, 0) := by
  have hne : ∀ d : Char, endsWord d = true → c ≠ d := by
    rintro d hd rfl
    rw [hd] at h
    cases h
  have hgap : isGap c = false := by
    simp [isGap, hne ' ' (by decide), hne '\n' (by decide)]
  have hcomparison : isComparison c rest.head? = false := by
    simp [isComparison, hne '<' (by decide), hne '>' (by decide)]
  have hsign : c ∉ ['+', '-', '*', '/', '^', '&', '=', '>', '<'] := by
    simp [hne '+' (by decide), hne '-' (by decide), hne '*' (by decide), hne '/' (by decide),
      hne '^' (by decide), hne '&' (by decide), hne '=' (by decide), hne '>' (by decide),
      hne '<' (by decide)]
  rw [symbol, if_neg (hne '"' (by decide))]
  refine ite_congr rfl (fun _ => rfl) fun _ => ite_congr rfl (fun _ => rfl) fun _ => ?_
  rw [if_neg (hne '#' (by decide)), if_neg (hne '\x7b' (by decide)), if_neg (hne ';' (by decide)),
    if_neg (hne '\x7d' (by decide)), hgap, if_neg Bool.false_ne_true, hcomparison,
    if_neg Bool.false_ne_true, if_neg hsign, if_neg (hne '%' (by decide)),
    if_neg (hne '(' (by decide)), if_neg (hne ')' (by decide))]

theorem endsWord_argumentSeparator (locale : Locale) : endsWord locale.argumentSeparator := by
  cases locale <;> decide

theorem ordinary_of_absorb (hmode : s.mode = .ordinary)
    (h : absorbOrdinary s.pending.isEmpty c rest = some next) :
    ordinary locale c rest s = ({ s.extend c with mode := next }, 0) := by
  unfold absorbOrdinary at h
  split at h
  · cases h
  rename_i hc
  have hends : endsWord c = false := by simpa using hc
  have hseparator : c ≠ locale.argumentSeparator := by
    rintro rfl
    rw [endsWord_argumentSeparator] at hends
    cases hends
  have hcomma : c ≠ ',' := by
    rintro rfl
    exact absurd hends (by decide)
  rw [ordinary]
  simp only [hseparator, hcomma, decide_false, Bool.false_and, Bool.false_eq_true, if_false]
  split at h
  · rename_i hd
    cases h
    rw [if_pos hd]
  rename_i hd
  rw [if_neg hd, symbol_of_not_endsWord hends]
  split at h
  · rename_i hq
    cases h
    rw [if_pos hq]
  rename_i hq
  rw [if_neg hq]
  split at h
  · rename_i hb
    cases h
    rw [if_pos hb]
  · rename_i hb
    cases h
    rw [if_neg hb, ← hmode]
    congr 1
    unfold State.extend State.take
    split <;> rfl

theorem extend_of_ready (h : s.pending ≠ "") : s.extend c = s.take c := by
  rw [State.extend, if_neg]
  simpa [String.isEmpty_iff] using h

/-- One iteration at a character of a word. Two single quotes in a sheet path are taken at once,
which is left out here. -/
theorem step_absorb (hready : Ready s) (h : absorb locale s.mode s.pending c rest = some next)
    (hquote : s.mode = .path → c = '\'' → rest.head? ≠ some '\'') :
    step locale c rest s = ({ s.extend c with mode := next }, 0) := by
  rw [step]
  unfold absorb at h
  cases hmode : s.mode with
  | text => rw [hmode] at h; cases h
  | errorLiteral read => rw [hmode] at h; cases h
  | ordinary =>
    rw [hmode] at h
    exact ordinary_of_absorb hmode h
  | path =>
    rw [hmode] at h
    have hp : s.pending ≠ "" := by simpa [Ready, hmode] using hready
    cases h
    rw [extend_of_ready hp]
    by_cases hc : c = '\''
    · simp only [path, hc, if_neg (hquote hmode hc)]
      rfl
    · simp only [path, hc, ne_eq, not_false_eq_true, if_true, if_false]
      rw [← hmode]
      rfl
  | bracket depth =>
    rw [hmode] at h
    have hp : s.pending ≠ "" := by simpa [Ready, hmode] using hready
    cases h
    rw [extend_of_ready hp]
    rfl
  | number =>
    rw [hmode] at h
    have hp : s.pending ≠ "" := by simpa [Ready, hmode] using hready
    simp only at h ⊢
    split at h
    · rename_i hc
      cases h
      rw [if_pos hc, extend_of_ready hp, ← hmode]
      rfl
    · rename_i hc
      rw [if_neg hc]
      have hrun : ordinary locale c rest { s with mode := .ordinary } =
          ({ State.extend { s with mode := .ordinary } c with mode := next }, 0) :=
        ordinary_of_absorb rfl h
      rw [hrun]
      unfold State.extend State.take
      split <;> rfl

end

end SheetFormula.Scan
