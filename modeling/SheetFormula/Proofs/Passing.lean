import Mathlib.Data.Bool.AllAny
import SheetFormula.Operator
import SheetFormula.Proofs.TokenShapes
import SheetFormula.Text.Quoted

/-!
# Passing over parts of a text

How a scan gets over a word, a literal or a bracket, from one state between two tokens to the next.

1. `through` is a scan to the end of its text. `PassesInto` says that it gets over a part of the text
   with certain tokens, with certain brackets open behind it and with no other fault.
2. A word is ended by what follows it: `through_endOperand`. So a part passes in front of certain
   texts only, and a number may go on with the next character: `goesOn`.
-/

namespace SheetFormula.Scan

/-- A scan to the end of its text. -/
def through (locale : Locale) (text : List Char) (s : State) : State := finish (run locale text s)

/-- The characters that end an operand without starting another one. -/
def closesWord (c : Char) : Bool :=
  c ∈ [',', ';', '\x7d', ' ', '+', '-', '*', '/', '^', '&', '=', '>', '<', '%', ')']

/-- Whether a word is a number, or the beginning of one, that goes on with this character. -/
def goesOn (locale : Locale) (word : String) (c : Char) : Bool :=
  absorbs locale [] .ordinary word.toList [] == some .number && continuesNumber locale c word

/-- Whether a text may stand behind a word. -/
def Closes (locale : Locale) (word : String) (rest : List Char) : Prop :=
  ∀ c ∈ rest.head?, closesWord c ∧ goesOn locale word c = false

theorem endsWord_of_closesWord {c : Char} (h : closesWord c) : endsWord c := by
  have hsub : ∀ d ∈ [',', ';', '\x7d', ' ', '+', '-', '*', '/', '^', '&', '=', '>', '<', '%', ')'],
      endsWord d := List.all_iff_forall_prop.1 (by decide)
  exact hsub c (of_decide_eq_true h)

theorem Closes.stops {locale : Locale} {word : String} {rest : List Char}
    (h : Closes locale word rest) : Stops rest :=
  fun c hc => endsWord_of_closesWord (h c hc).1

/-- A number goes on with its decimal separator, and with a sign behind its exponent mark. -/
theorem closes_of {locale : Locale} {word : String} {rest : List Char}
    (h : ∀ c ∈ rest.head?, closesWord c ∧ c ≠ locale.decimalSeparator ∧
      (locale.awaitsExponent word → c ≠ '+' ∧ c ≠ '-')) : Closes locale word rest := by
  intro c hc
  obtain ⟨hcloses, hseparator, hsign⟩ := h c hc
  refine ⟨hcloses, ?_⟩
  have hdigit := not_isDigit_of_endsWord (endsWord_of_closesWord hcloses)
  have hne : ∀ d : Char, closesWord d = false → c ≠ d := by
    rintro d hd rfl
    rw [hd] at hcloses
    cases hcloses
  rw [goesOn, Bool.and_eq_false_iff]
  refine .inr ?_
  unfold continuesNumber
  rw [hdigit, if_neg Bool.false_ne_true, if_neg hseparator, if_neg]
  · split_ifs with hplus
    · cases hawaits : locale.awaitsExponent word with
      | false => rfl
      | true =>
        rcases hplus with hplus | hminus
        · exact absurd hplus (hsign hawaits).1
        · exact absurd hminus (hsign hawaits).2
    · rfl
  · rintro (h | h)
    · exact hne 'E' (by decide) h
    · exact hne 'e' (by decide) h

/-- With a point in its numbers, a number goes on with a sign behind its exponent mark only. -/
theorem closes_enUS {word : String} {rest : List Char} (h : ∀ c ∈ rest.head?,
    closesWord c ∧ (Locale.enUS.awaitsExponent word → c ≠ '+' ∧ c ≠ '-')) :
    Closes .enUS word rest := by
  refine closes_of fun c hc => ?_
  obtain ⟨hcloses, hsign⟩ := h c hc
  refine ⟨hcloses, ?_, hsign⟩
  rintro rfl
  exact absurd hcloses (by decide)

/-- A word that is no number goes on with nothing. -/
theorem closes_of_ordinary {locale : Locale} {word : String} {rest : List Char}
    (hword : absorbs locale [] .ordinary word.toList [] = some .ordinary)
    (h : ∀ c ∈ rest.head?, closesWord c) : Closes locale word rest := by
  intro c hc
  refine ⟨h c hc, ?_⟩
  rw [goesOn, hword]
  rfl

/-! ## The end of a word -/

section

variable {locale : Locale} {s : State} {c : Char} {rest : List Char}

theorem separatesHere_endOperand (s : State) : s.endOperand.separatesHere = s.separatesHere := by
  unfold State.separatesHere State.endOperand
  rw [openings_endPending]

theorem inRow_endOperand (s : State) : s.endOperand.inRow = s.inRow := by
  unfold State.inRow State.endOperand
  rw [openings_endPending]

/-- What ends an operand does so before anything else. -/
theorem ordinary_endOperand (hmode : s.mode = .ordinary) (hc : closesWord c ∨ c = '\n') :
    ordinary locale c rest s.endOperand = ordinary locale c rest s := by
  have hidle := idle_endOperand hmode
  have hdigit : c.isDigit = false := by
    rcases hc with hc | rfl
    · exact not_isDigit_of_endsWord (endsWord_of_closesWord hc)
    · rfl
  unfold ordinary
  rw [separatesHere_endOperand, inRow_endOperand, hidle.endOperand, hdigit]
  simp only [Bool.false_and, Bool.false_eq_true, if_false]
  refine ite_congr rfl (fun _ => rfl) fun _ => ite_congr rfl (fun _ => rfl) fun hcomma => ?_
  simp only [closesWord, List.mem_cons, List.not_mem_nil, or_false, decide_eq_true_eq] at hc
  rcases hc with (rfl | rfl | rfl | rfl | rfl | rfl | rfl | rfl | rfl | rfl | rfl | rfl | rfl | rfl |
    rfl) | rfl
  · exact absurd rfl hcomma
  · show (nextRow s.endOperand, 0) = (nextRow s, 0)
    rw [nextRow_endOperand hmode]
  · show (closeArray s.endOperand, 0) = (closeArray s, 0)
    rw [closeArray_endOperand hmode]
  rotate_right 2
  · show (closeGroup s.endOperand, 0) = (closeGroup s, 0)
    rw [closeGroup_endOperand hmode]
  all_goals simp [symbol, hidle.endOperand, isGap, isComparison]

theorem through_cons (c : Char) (rest : List Char) (s : State) :
    through locale (c :: rest) s =
      through locale (rest.drop (step locale c rest s).2) (step locale c rest s).1 := by
  rw [through, run]
  rfl

/-- Outside the modes of their own, what does not go on with a number is an ordinary character. -/
theorem step_outside (hmode : s.mode = .ordinary ∨ s.mode = .number)
    (hnumber : s.mode = .number → continuesNumber locale c s.pending = false) :
    step locale c rest s = ordinary locale c rest { s with mode := .ordinary } := by
  rcases hmode with h | h
  · rw [step, with_ordinary h, h]
  · rw [step, h]
    simp only [hnumber h, Bool.false_eq_true, if_false]

theorem step_of_idle (hidle : Idle s) (c : Char) :
    step locale c rest s = ordinary locale c rest s := by
  rw [step, hidle.1]

/-- Neither a number nor a separator can go on with most symbols. -/
theorem ordinary_eq_symbol (hc : c ≠ ',' ∧ c ≠ ';' ∧ c.isDigit = false) :
    ordinary locale c rest s = symbol c rest s := by
  obtain ⟨hcomma, hsemicolon, hdigit⟩ := hc
  unfold ordinary
  rw [hdigit]
  cases locale <;> simp [Locale.argumentSeparator, hcomma, hsemicolon]

theorem step_symbol (hmode : s.mode = .ordinary ∨ s.mode = .number)
    (hc : c ∈ ['"', '#', '\x7b', '(', ' ', '\n', '<', '>']) :
    step locale c rest s = symbol c rest { s with mode := .ordinary } := by
  have hplain : ∀ c ∈ ['"', '#', '\x7b', '(', ' ', '\n', '<', '>'],
      (c ≠ ',' ∧ c ≠ ';' ∧ c.isDigit = false) ∧ ∀ locale pending,
      continuesNumber locale c pending = false := by
    intro c hc
    simp only [List.mem_cons, List.not_mem_nil, or_false] at hc
    rcases hc with rfl | rfl | rfl | rfl | rfl | rfl | rfl | rfl <;> exact ⟨by decide, fun locale _ => by cases locale <;> rfl⟩
  rw [step_outside hmode fun _ => (hplain c hc).2 _ _, ordinary_eq_symbol (hplain c hc).1]

/-- At the end of a word the scan goes on as it does behind the token of the word. -/
theorem through_endOperand (hmode : s.mode = .ordinary ∨ s.mode = .number)
    (hrest : ∀ c ∈ rest.head?,
      (closesWord c ∨ c = '\n') ∧ (s.mode = .number → continuesNumber locale c s.pending = false)) :
    through locale rest s = through locale rest (State.endOperand { s with mode := .ordinary }) := by
  have hidle : Idle (State.endOperand { s with mode := .ordinary }) := idle_endOperand rfl
  cases rest with
  | nil =>
    have hended : ∀ s' : State, s'.mode = .ordinary ∨ s'.mode = .number →
        through locale [] s' = noteUnclosed { s'.endOperand with mode := .ordinary } := by
      rintro s' (h | h) <;> rw [through, run, finish, finishToken, h]
    rw [hended s hmode, hended _ (.inl hidle.1), hidle.endOperand]
    congr 1
    unfold State.endOperand State.endPending
    split <;> rfl
  | cons c rest =>
    obtain ⟨hc, hnumber⟩ := hrest c rfl
    have hstep : step locale c rest s = ordinary locale c rest { s with mode := .ordinary } :=
      step_outside hmode hnumber
    have hstep' : step locale c rest (State.endOperand { s with mode := .ordinary }) =
        ordinary locale c rest (State.endOperand { s with mode := .ordinary }) :=
      step_of_idle hidle c
    have hsame : ordinary locale c rest (State.endOperand { s with mode := .ordinary }) =
        ordinary locale c rest { s with mode := .ordinary } := ordinary_endOperand rfl hc
    rw [through_cons, through_cons, hstep, hstep', hsame]

end

/-! ## Words -/

/-- A scan takes a word as it stands. Two single quotes in a sheet path are taken at once. -/
theorem run_word {locale : Locale} {before word rest : List Char} {last : Mode} {s : State}
    (hready : Ready s) (hbefore : s.pending = String.ofList before)
    (h : absorbs locale before s.mode word rest = some last) (hstops : Stops rest) :
    run locale (word ++ rest) s = run locale rest (s.swallow word last) := by
  induction hn : word.length using Nat.strongRecOn generalizing before word s with
  | _ n ih =>
    cases word with
    | nil =>
      cases h
      rfl
    | cons c word =>
      obtain ⟨next, hnext, hmore⟩ := Option.bind_eq_some_iff.1 h
      rw [← hbefore] at hnext
      have hone : String.ofList (before ++ [c]) = s.pending.push c := by
        rw [hbefore, ← String.toList_inj]
        simp
      by_cases hpair : s.mode = .path ∧ c = '\'' ∧ (word ++ rest).head? = some '\''
      · obtain ⟨hmode, rfl, hhead⟩ := hpair
        cases word with
        | nil => exact absurd (hstops '\'' hhead) (by decide)
        | cons d word =>
          cases hhead
          rw [hmode] at hnext
          cases hnext
          obtain ⟨next, hnext, hmore⟩ := Option.bind_eq_some_iff.1 hmore
          have hpath : next = .path := by
            rw [hone] at hnext
            simp [absorb, absorbOrdinary, endsWord] at hnext
            exact hnext.symm
          subst hpath
          have hstep : step locale '\'' ('\'' :: word ++ rest) s =
              ((s.take '\'').take '\'', 1) := by
            rw [step, hmode]
            rfl
          have htwo : ((s.take '\'').take '\'').pending =
              String.ofList (before ++ ['\''] ++ ['\'']) := by
            rw [← String.toList_inj]
            simp [State.take, hbefore]
          have hready' : Ready ((s.take '\'').take '\'') := .inr (.inr (by simp [State.take]))
          have hp : s.pending ≠ "" := by simpa [Ready, hmode] using hready
          have hboth : ((s.take '\'').take '\'').swallow word last =
              s.swallow ('\'' :: '\'' :: word) last := by
            rw [← extend_of_ready (c := '\'') (s := s.take '\'') (by simp [State.take]),
              ← extend_of_ready hp]
            rfl
          rw [List.cons_append, run, hstep, ← hboth]
          exact ih word.length (by simp only [← hn, List.length_cons]; omega) hready' htwo
            (by rw [show ((s.take '\'').take '\'').mode = .path from hmode]; exact hmore) rfl
      · have hstep : step locale c (word ++ rest) s = ({ s.extend c with mode := next }, 0) :=
          step_absorb hready hnext fun hmode hc hhead => hpair ⟨hmode, hc, hhead⟩
        have hready' : Ready { s.extend c with mode := next } := .inr (.inr (by simp))
        rw [List.cons_append, run, hstep, ← swallow_cons s c word last next]
        exact ih word.length (by rw [← hn]; exact Nat.lt_succ_self _) hready'
          ((pending_extend s c).trans hone.symm) hmore rfl

/-! ## Passing -/

/-- A state between two tokens that differs from another one by what is open and by some tokens
more. -/
structure Beyond (openings : List Opening) (s s' : State) (tokens : List Token) : Prop where
  idle : Idle s'
  openings : s'.openings = openings
  fault : s'.fault = s.fault
  tokens : s'.tokens.toList = s.tokens.toList ++ tokens

/-- Whether a scan gets over a part of its text in front of `rest`, with what is open behind it and
with which tokens. -/
def PassesInto (locale : Locale) (openings : List Opening) (s : State) (part rest : List Char)
    (Spelled : List Token → Prop) : Prop :=
  ∃ s' tokens, through locale (part ++ rest) s = through locale rest s' ∧ Beyond openings s s' tokens ∧
    Spelled tokens

/-- Whether a scan gets over a part of its text that leaves the same brackets open. -/
def Passes (locale : Locale) (s : State) (part rest : List Char) (Spelled : List Token → Prop) : Prop :=
  PassesInto locale s.openings s part rest Spelled

section

variable {locale : Locale} {s s' s'' : State} {openings openings' outer : List Opening}
  {part part' rest : List Char} {tokens tokens' : List Token} {Spelled Spelled' : List Token → Prop}

theorem Beyond.trans (h : Beyond openings s s' tokens) (h' : Beyond openings' s' s'' tokens') :
    Beyond openings' s s'' (tokens ++ tokens') where
  idle := h'.idle
  openings := h'.openings
  fault := h'.fault.trans h.fault
  tokens := by rw [h'.tokens, h.tokens, List.append_assoc]

theorem PassesInto.imp (h : PassesInto locale openings s part rest Spelled)
    (himp : ∀ tokens, Spelled tokens → Spelled' tokens) :
    PassesInto locale openings s part rest Spelled' := by
  obtain ⟨s', tokens, hrun, hbeyond, hspelled⟩ := h
  exact ⟨s', tokens, hrun, hbeyond, himp tokens hspelled⟩

/-- One part is passed behind the other. -/
theorem PassesInto.append (h : PassesInto locale openings s part (part' ++ rest) Spelled)
    (h' : ∀ s', Idle s' → s'.openings = openings → PassesInto locale openings' s' part' rest Spelled') :
    PassesInto locale openings' s (part ++ part') rest fun tokens => ∃ front back, tokens = front ++ back ∧
      Spelled front ∧ Spelled' back := by
  obtain ⟨s', front, hrun, hbeyond, hfront⟩ := h
  obtain ⟨s'', back, hrun', hbeyond', hback⟩ := h' s' hbeyond.idle hbeyond.openings
  refine ⟨s'', front ++ back, ?_, hbeyond.trans hbeyond', front, back, rfl, hfront, hback⟩
  rw [List.append_assoc, hrun, hrun']

theorem Passes.append (h : Passes locale s part (part' ++ rest) Spelled)
    (h' : ∀ s', Idle s' → s'.openings = s.openings → Passes locale s' part' rest Spelled') :
    Passes locale s (part ++ part') rest fun tokens => ∃ front back, tokens = front ++ back ∧
      Spelled front ∧ Spelled' back :=
  PassesInto.append h fun s' hidle hopenings => hopenings ▸ h' s' hidle hopenings

theorem separatesHere_congr (h : s.openings = s'.openings) : s.separatesHere = s'.separatesHere := by
  unfold State.separatesHere
  rw [h]

theorem separates_enUS : separates .enUS s.openings = s.separatesHere := by
  unfold separates State.separatesHere
  cases s.openings with
  | nil => rfl
  | cons opening outer => cases opening <;> rfl

/-- Nothing is passed without tokens. -/
theorem passes_nil (h : Idle s) : Passes locale s [] rest (· = []) :=
  ⟨s, [], rfl, ⟨h, rfl, rfl, (List.append_nil _).symm⟩, rfl⟩

/-- A token is added behind what is passed. -/
theorem beyond_mark (h : Idle s) (openings : List Opening) (value : String) (kind : Token.Kind)
    (subkind : Token.Subkind) (width : Nat) :
    Beyond openings s ({ s with openings := openings }.mark value kind subkind width)
      [⟨value, kind, subkind, s.offset, s.offset + width⟩] :=
  ⟨h, rfl, rfl, Array.toList_push⟩

theorem Beyond.mark (h : Beyond openings s s' tokens) (openings' : List Opening) (value : String)
    (kind : Token.Kind) (subkind : Token.Subkind) (width : Nat) :
    Beyond openings' s ({ s' with openings := openings' }.mark value kind subkind width)
      (tokens ++ [⟨value, kind, subkind, s'.offset, s'.offset + width⟩]) :=
  h.trans (beyond_mark h.idle openings' value kind subkind width)

/-! ### Words and literals -/

/-- A word is read into the pending text. -/
theorem through_word {word : String} (hidle : Idle s) (h : Word locale word) (hstops : Stops rest) :
    ∃ s' : State, through locale (word.toList ++ rest) s = through locale rest s' ∧
      s'.tokens = s.tokens ∧ s'.openings = s.openings ∧ s'.fault = s.fault ∧ s'.pending = word ∧
      absorbs locale [] .ordinary word.toList [] = some s'.mode ∧
      (s'.mode = .ordinary ∨ s'.mode = .number) := by
  obtain ⟨-, last, habsorbs, hlast⟩ := h
  have hrun : run locale (word.toList ++ rest) s = run locale rest (s.swallow word.toList last) := by
    refine run_word (.inl hidle.1) hidle.2 ?_ hstops
    rw [hidle.1, absorbs_of_stops hstops]
    exact habsorbs
  refine ⟨s.swallow word.toList last, congrArg finish hrun, tokens_swallow .., openings_swallow ..,
    fault_swallow .., ?_, habsorbs, hlast⟩
  rw [pending_swallow, hidle.2, String.empty_append, String.ofList_toList]

theorem passes_word {word : String} (hidle : Idle s) (h : Word locale word)
    (hrest : Closes locale word rest) :
    Passes locale s word.toList rest fun tokens => ∃ start stop,
      tokens = [⟨word, .operand, .unspecified, start, stop⟩] := by
  obtain ⟨s', hrun, htokens, hopenings, hfault, hpending, habsorbs, hmode⟩ :=
    through_word hidle h hrest.stops
  have hcode : State.endOperand { s' with mode := .ordinary } =
      State.emitPending { s' with mode := .ordinary } .operand .unspecified :=
    endPending_of_ne (by rw [hpending]; exact h.1)
  have hended : State.tokens (State.endOperand { s' with mode := .ordinary }) =
      s.tokens.push ⟨word, .operand, .unspecified, s'.pendingStart, s'.offset⟩ := by
    rw [hcode, ← htokens, ← hpending]
    rfl
  refine ⟨State.endOperand { s' with mode := .ordinary }, _, ?_, ⟨idle_endOperand rfl, ?_, ?_, ?_⟩,
    s'.pendingStart, s'.offset, rfl⟩
  · rw [hrun, through_endOperand hmode fun c hc => ⟨.inl (hrest c hc).1, fun hnumber => ?_⟩]
    have hgoes := (hrest c hc).2
    rw [goesOn, habsorbs, hnumber] at hgoes
    simpa [hpending] using hgoes
  · rw [hcode]
    exact hopenings
  · rw [hcode]
    exact hfault
  · rw [hended, Array.toList_push]

/-- Inside a text. -/
theorem through_text (value : List Char) (hmode : s.mode = .text) (hrest : rest.head? ≠ some '"') :
    ∃ s' : State, through locale (Text.doubled '"' value ++ '"' :: rest) s = through locale rest s' ∧ Idle s' ∧
      s'.openings = s.openings ∧ s'.fault = s.fault ∧ ∃ start stop, s'.tokens.toList =
        s.tokens.toList ++ [⟨s.pending ++ String.ofList value, .operand, .text, start, stop⟩] := by
  induction value generalizing s with
  | nil =>
    refine ⟨State.emitPending { s with offset := s.offset + 1, mode := .ordinary } .operand .text,
      ?_, ⟨rfl, rfl⟩, rfl, rfl, s.pendingStart, s.offset + 1, ?_⟩
    · rw [Text.doubled, List.nil_append, through_cons, step, hmode]
      simp only [text, hrest]
      rfl
    · rw [show String.ofList [] = "" from rfl, String.append_empty]
      exact Array.toList_push
  | cons c value ih =>
    have hvalue : s.pending.push c ++ String.ofList value = s.pending ++ String.ofList (c :: value) := by
      rw [← String.toList_inj]
      simp
    by_cases hc : c = '"'
    · subst hc
      have hnext : State.mode { s with pending := s.pending.push '"', offset := s.offset + 2 } =
        .text := hmode
      obtain ⟨s', hrun, hidle, hopenings, hfault, htokens⟩ := ih hnext
      rw [hvalue] at htokens
      refine ⟨s', ?_, hidle, hopenings, hfault, htokens⟩
      rw [Text.doubled, if_pos rfl, List.cons_append, List.cons_append, through_cons, step, hmode]
      exact hrun
    · have hnext : (s.take c).mode = .text := hmode
      obtain ⟨s', hrun, hidle, hopenings, hfault, htokens⟩ := ih hnext
      rw [show (s.take c).pending = s.pending.push c from rfl, hvalue] at htokens
      refine ⟨s', ?_, hidle, hopenings, hfault, htokens⟩
      rw [Text.doubled, if_neg hc, List.cons_append, through_cons, step, hmode]
      simp only [text, if_pos hc]
      exact hrun

theorem passes_text (value : String) (hidle : Idle s) (hrest : rest.head? ≠ some '"') :
    Passes locale s (Text.quoted value).toList rest fun tokens => ∃ start stop,
      tokens = [⟨value, .operand, .text, start, stop⟩] := by
  have hquoted : (Text.quoted value).toList ++ rest =
      '"' :: (Text.doubled '"' value.toList ++ '"' :: rest) := by simp [Text.quoted]
  have hstep : step locale '"' (Text.doubled '"' value.toList ++ '"' :: rest) s =
      (startText s, 0) := by
    rw [step_symbol (.inl hidle.1) (by decide), with_ordinary hidle.1]
    rfl
  have hstart : startText s =
      { s with pendingStart := s.offset, offset := s.offset + 1, mode := .text } := by
    rw [startText, hidle.endStray]
  have hmode : (startText s).mode = .text := rfl
  obtain ⟨s', hrun, hidle', hopenings, hfault, start, stop, htokens⟩ :=
    through_text value.toList hmode hrest
  rw [hstart] at hopenings hfault htokens
  refine ⟨s', _, ?_, ⟨hidle', hopenings, hfault, htokens⟩, start, stop, ?_⟩
  · rw [hquoted, through_cons, hstep]
    exact hrun
  · show [(⟨s.pending ++ _, _, _, _, _⟩ : Token)] = _
    rw [hidle.2, String.empty_append, String.ofList_toList]

/-- No error literal starts with another one. -/
theorem eq_of_errorLiteral_prefix : ∀ literal ∈ errorLiterals, ∀ literal' ∈ errorLiterals,
    literal'.toList <+: literal.toList → literal' = literal := by decide

/-- Inside an error literal. -/
theorem through_errorLiteral {read literal : String} {tail : List Char} (htail : tail ≠ [])
    (h : literal ∈ errorLiterals) (hread : literal.toList = read.toList ++ tail)
    (hmode : s.mode = .errorLiteral read) :
    ∃ s' : State, through locale (tail ++ rest) s = through locale rest s' ∧ Idle s' ∧
      s'.openings = s.openings ∧ s'.fault = s.fault ∧ ∃ start stop, s'.tokens.toList =
        s.tokens.toList ++ [⟨s.pending ++ String.ofList tail, .operand, .error, start, stop⟩] := by
  induction tail generalizing read s with
  | nil => exact absurd rfl htail
  | cons c tail ih =>
    have hmore : literal.toList = (read.push c).toList ++ tail := by
      rw [hread, String.toList_push, List.append_assoc, List.singleton_append]
    have hvalue : s.pending ++ String.ofList (c :: tail) = s.pending.push c ++ String.ofList tail := by
      rw [← String.toList_inj]
      simp
    rw [hvalue, List.cons_append]
    by_cases hcomplete : read.push c ∈ errorLiterals
    · have hnil : tail = [] := by
        have hsame := eq_of_errorLiteral_prefix _ h _ hcomplete ⟨tail, hmore.symm⟩
        rw [hsame] at hmore
        simpa using hmore
      have hstep : step locale c (tail ++ rest) s =
          (State.emitPending { s.take c with mode := .ordinary } .operand .error, 0) := by
        rw [step, hmode]
        simp only [errorLiteral, if_pos hcomplete]
        rw [endPending_of_ne (by simp [State.take])]
      refine ⟨State.emitPending { s.take c with mode := .ordinary } .operand .error, ?_, ⟨rfl, rfl⟩,
        rfl, rfl, s.pendingStart, s.offset + c.utf8Size, ?_⟩
      · rw [through_cons, hstep, hnil]
        rfl
      · rw [hnil, show String.ofList [] = "" from rfl, String.append_empty]
        exact Array.toList_push
    · have hsome : tail ≠ [] := by
        rintro rfl
        rw [List.append_nil, String.toList_inj] at hmore
        exact hcomplete (hmore ▸ h)
      have hstep : step locale c (tail ++ rest) s =
          ({ s.take c with mode := .errorLiteral (read.push c) }, 0) := by
        rw [step, hmode]
        simp only [errorLiteral, if_neg hcomplete]
      have hnext : State.mode { s.take c with mode := .errorLiteral (read.push c) } =
          .errorLiteral (read.push c) := rfl
      obtain ⟨s', hrun, hfacts⟩ := ih hsome hmore hnext
      refine ⟨s', ?_, hfacts⟩
      rw [through_cons, hstep]
      exact hrun

theorem openErrorLiteral_eq (hmode : s.mode = .ordinary)
    (hsheet : s.pending = "" ∨ s.pending.toList.getLast? = some '!') :
    openErrorLiteral '#' s = { s.extend '#' with mode := .errorLiteral "#" } := by
  unfold openErrorLiteral
  rcases hsheet with hnone | hsheet
  · rw [if_neg (by simp [hnone]), Idle.endStray ⟨hmode, hnone⟩]
    rfl
  · rw [if_pos hsheet]
    rfl

theorem passes_errorWord {value : String} (hidle : Idle s) (h : ErrorWord locale value) :
    Passes locale s value.toList rest fun tokens => ∃ start stop,
      tokens = [⟨value, .operand, .error, start, stop⟩] := by
  obtain ⟨sheet, literal, rfl, hsheet, hliteral⟩ := h
  have hmark : ∀ literal ∈ errorLiterals, literal.toList = '#' :: literal.toList.tail ∧
      literal.toList.tail ≠ [] := by decide
  obtain ⟨hhead, htail⟩ := hmark literal hliteral
  obtain ⟨s', hrun, htokens, hopenings, hfault, hpending, hmode⟩ : ∃ s' : State,
      through locale (sheet.toList ++ '#' :: (literal.toList.tail ++ rest)) s =
        through locale ('#' :: (literal.toList.tail ++ rest)) s' ∧ s'.tokens = s.tokens ∧
      s'.openings = s.openings ∧ s'.fault = s.fault ∧ s'.pending = sheet ∧
      (s'.mode = .ordinary ∨ s'.mode = .number) := by
    rcases hsheet with rfl | ⟨hword, -⟩
    · exact ⟨s, rfl, rfl, rfl, rfl, hidle.2, .inl hidle.1⟩
    · have hstops : Stops ('#' :: (literal.toList.tail ++ rest)) := stops_cons (by decide)
      obtain ⟨s', hrun, htokens, hopenings, hfault, hpending, -, hmode⟩ :=
        through_word hidle hword hstops
      exact ⟨s', hrun, htokens, hopenings, hfault, hpending, hmode⟩
  have hstep : step locale '#' (literal.toList.tail ++ rest) s' =
      ({ State.extend { s' with mode := .ordinary } '#' with mode := .errorLiteral "#" }, 0) := by
    have hopen : openErrorLiteral '#' { s' with mode := .ordinary } =
        { State.extend { s' with mode := .ordinary } '#' with mode := .errorLiteral "#" } := by
      refine openErrorLiteral_eq rfl ?_
      rcases hsheet with rfl | ⟨-, hlast⟩
      · exact .inl hpending
      · exact .inr (hpending ▸ hlast)
    rw [← hopen, step_symbol hmode (by decide)]
    rfl
  have hread : literal.toList = "#".toList ++ literal.toList.tail := hhead
  have hmode' : State.mode { State.extend { s' with mode := .ordinary } '#' with
      mode := .errorLiteral "#" } = .errorLiteral "#" := rfl
  obtain ⟨s'', hrun', hidle', hopenings', hfault', start, stop, htokens'⟩ :=
    through_errorLiteral htail hliteral hread hmode'
  refine ⟨s'', _, ?_, ⟨hidle', ?_, ?_, ?_⟩, start, stop, rfl⟩
  · have htext : (sheet ++ literal).toList ++ rest =
        sheet.toList ++ '#' :: (literal.toList.tail ++ rest) := by
      rw [String.toList_append, hhead, List.append_assoc]
      rfl
    rw [htext, hrun, through_cons, hstep]
    exact hrun'
  · exact hopenings'.trans ((openings_extend _ _).trans hopenings)
  · exact hfault'.trans ((fault_extend _ _).trans hfault)
  · have hvalue : (State.extend { s' with mode := .ordinary } '#').pending ++
        String.ofList literal.toList.tail = sheet ++ literal := by
      rw [pending_extend, ← String.toList_inj, String.toList_append, String.toList_append, hhead]
      simp [hpending]
    have hsame : (State.extend { s' with mode := .ordinary } '#').tokens.toList = s.tokens.toList :=
      congrArg Array.toList ((tokens_extend _ _).trans htokens)
    rw [htokens', ← hvalue, ← hsame]

/-! ### Signs -/

/-- The characters that the text of an expression starts with. -/
def startsText (c : Char) : Bool := !endsWord c || c ∈ ['"', '-', '(', '\x7b', '#']

/-- What a scan knows of a binary operator besides its symbol. -/
def operatorSubkind (op : String) : Token.Subkind :=
  if op = "," then .union else if op ∈ ["<>", "<=", ">="] then .logical else .unspecified

/-- Whether a token is a binary operator as it is scanned. -/
structure SpellsOperator (op : String) (token : Token) : Prop where
  value : token.value = op
  kind : token.kind = if op = " " then .whitespace else .infixOp
  subkind : token.subkind = operatorSubkind op

theorem passes_mark {c : Char} {tail : List Char} {value : String} {kind : Token.Kind}
    {subkind : Token.Subkind} (width : Nat) (hidle : Idle s)
    (hstep : step locale c (tail ++ rest) s = (s.mark value kind subkind width, tail.length)) :
    Passes locale s (c :: tail) rest fun tokens => ∃ start stop,
      tokens = [⟨value, kind, subkind, start, stop⟩] := by
  refine ⟨_, _, ?_, beyond_mark hidle _ value kind subkind width, _, _, rfl⟩
  rw [List.cons_append, through_cons, hstep, List.drop_left]

theorem step_percent (hidle : Idle s) :
    step locale '%' rest s = (s.mark "%" .postfixOp .unspecified 1, 0) := by
  rw [step_of_idle hidle, ordinary_eq_symbol (by decide)]
  simp [symbol, hidle.endOperand, isGap, isComparison]

theorem passes_percent (hidle : Idle s) :
    Passes locale s ['%'] rest fun tokens => ∃ start stop,
      tokens = [⟨"%", .postfixOp, .unspecified, start, stop⟩] :=
  passes_mark 1 hidle (step_percent hidle)

/-- An operator of one character. -/
theorem step_sign {c : Char} (hidle : Idle s)
    (hc : c ∈ ['+', '-', '*', '/', '^', '&', '=', '>', '<'])
    (hcomparison : isComparison c rest.head? = false) :
    step locale c rest s = (s.mark (String.singleton c) .infixOp .unspecified 1, 0) := by
  have hsign : ∀ d ∈ ['+', '-', '*', '/', '^', '&', '=', '>', '<'], (d ≠ ',' ∧ d ≠ ';' ∧
      d.isDigit = false) ∧ d ≠ '"' ∧ d ≠ '\'' ∧ d ≠ '[' ∧ d ≠ '#' ∧ d ≠ '\x7b' ∧ d ≠ ';' ∧
      d ≠ '\x7d' ∧ isGap d = false := List.all_iff_forall_prop.1 (by decide)
  obtain ⟨hsymbol, hothers⟩ := hsign c hc
  rw [step_of_idle hidle, ordinary_eq_symbol hsymbol]
  simp [symbol, hidle.endOperand, hothers, hc, hcomparison]

theorem passes_sign {c : Char} (hidle : Idle s)
    (hc : c ∈ ['+', '-', '*', '/', '^', '&', '=', '>', '<'])
    (hcomparison : isComparison c rest.head? = false) :
    Passes locale s [c] rest fun tokens => ∃ start stop,
      tokens = [⟨String.singleton c, .infixOp, .unspecified, start, stop⟩] :=
  passes_mark 1 hidle (step_sign hidle hc hcomparison)

/-- A comparison of two characters. -/
theorem step_comparison {c d : Char} (hidle : Idle s) (h : isComparison c (some d)) :
    step locale c (d :: rest) s = (s.mark (String.ofList [c, d]) .infixOp .logical 2, 1) := by
  have hc : c = '>' ∨ c = '<' := by
    simp only [isComparison, Bool.or_eq_true, Bool.and_eq_true, beq_iff_eq] at h
    exact h.imp And.left And.left
  rw [step_of_idle hidle]
  rcases hc with rfl | rfl <;> rw [ordinary_eq_symbol (by decide)] <;>
    simp [symbol, hidle.endOperand, isGap, h]

theorem passes_comparison {c d : Char} (hidle : Idle s) (h : isComparison c (some d)) :
    Passes locale s [c, d] rest fun tokens => ∃ start stop,
      tokens = [⟨String.ofList [c, d], .infixOp, .logical, start, stop⟩] :=
  passes_mark 2 hidle (step_comparison hidle h)

/-- White space is taken at once. -/
theorem step_gap {c : Char} {gaps : List Char} (hidle : Idle s) (hc : isGap c)
    (hgaps : ∀ d ∈ gaps, isGap d) (hrest : ∀ d ∈ rest.head?, isGap d = false) :
    step locale c (gaps ++ rest) s =
      (s.mark " " .whitespace .unspecified (1 + gaps.length), gaps.length) := by
  have hnone : rest.takeWhile isGap = [] := by
    cases rest with
    | nil => rfl
    | cons d rest => simp [hrest d rfl]
  have htaken : (gaps ++ rest).takeWhile isGap = gaps := by
    rw [List.takeWhile_append_of_pos hgaps, hnone, List.append_nil]
  have hgap : c = ' ' ∨ c = '\n' := by simpa [isGap] using hc
  rw [step_of_idle hidle]
  rcases hgap with rfl | rfl <;> rw [ordinary_eq_symbol (by decide)] <;>
    simp [symbol, hidle.endOperand, isGap, htaken]

/-- A space that is not followed by another one. -/
theorem passes_space (hidle : Idle s) (hrest : ∀ c ∈ rest.head?, isGap c = false) :
    Passes locale s [' '] rest fun tokens => ∃ start stop,
      tokens = [⟨" ", .whitespace, .unspecified, start, stop⟩] :=
  have hstep : step locale ' ' ([] ++ rest) s = (s.mark " " .whitespace .unspecified 1, 0) :=
    step_gap hidle rfl (by simp) hrest
  passes_mark 1 hidle hstep

/-- A comma that joins two references. -/
theorem step_union (hidle : Idle s)
    (hplace : locale.argumentSeparator = ',' → s.separatesHere = false) :
    step locale ',' rest s = (s.mark "," .infixOp .union 1, 0) := by
  rw [step_of_idle hidle]
  cases locale with
  | enUS => simp [ordinary, hidle.endOperand, Locale.argumentSeparator, hplace rfl]
  | deDE => simp [ordinary, hidle.endOperand, Locale.argumentSeparator]

theorem passes_union (hidle : Idle s)
    (hplace : locale.argumentSeparator = ',' → s.separatesHere = false) :
    Passes locale s [','] rest fun tokens => ∃ start stop,
      tokens = [⟨",", .infixOp, .union, start, stop⟩] :=
  passes_mark 1 hidle (step_union hidle hplace)

/-- The symbols of the operators. -/
theorem operator_symbols {op : String} {precedence : Nat}
    (h : Operator.binaryPrecedence? op = some precedence) :
    op = " " ∨ op = "," ∨ op ∈ ["<>", "<=", ">="] ∨
      op ∈ ['+', '-', '*', '/', '^', '&', '=', '>', '<'].map String.singleton := by
  have hsymbols : ∀ entry ∈ Operator.binaryTable, entry.1 = " " ∨ entry.1 = "," ∨
      entry.1 ∈ ["<>", "<=", ">="] ∨
      entry.1 ∈ ['+', '-', '*', '/', '^', '&', '=', '>', '<'].map String.singleton := by
    decide
  exact hsymbols _ (Operator.mem_binaryTable h)

theorem passes_operator {op : String} {precedence : Nat}
    (hop : Operator.binaryPrecedence? op = some precedence) (hidle : Idle s)
    (hunion : op = "," → locale.argumentSeparator = ',' → s.separatesHere = false)
    (hrest : ∀ c ∈ rest.head?, startsText c) :
    Passes locale s op.toList rest fun tokens => ∃ token, tokens = [token] ∧ SpellsOperator op token := by
  have hnot : ∀ d ∈ [' ', '\n', '=', '>'], rest.head? ≠ some d := by
    intro d hd h
    have hstarts : ∀ d ∈ [' ', '\n', '=', '>'], startsText d = false :=
      List.all_iff_forall_prop.1 (by decide)
    exact absurd (hrest d h) (by simp [hstarts d hd])
  rcases operator_symbols hop with rfl | rfl | hcomparison | hsign
  · refine PassesInto.imp (passes_space hidle fun c hc => ?_) ?_
    · simp only [isGap, Bool.or_eq_false_iff, beq_eq_false_iff_ne]
      constructor <;> rintro rfl <;> exact hnot _ (by decide) hc
    · rintro _ ⟨start, stop, rfl⟩
      exact ⟨_, rfl, ⟨rfl, rfl, rfl⟩⟩
  · refine (passes_union hidle (hunion rfl)).imp ?_
    rintro _ ⟨start, stop, rfl⟩
    exact ⟨_, rfl, ⟨rfl, rfl, rfl⟩⟩
  · have htwo : ∀ op ∈ ["<>", "<=", ">="], ∃ c d, op = String.ofList [c, d] ∧
        isComparison c (some d) ∧ op ≠ " " ∧ operatorSubkind op = .logical := by
      simp only [List.mem_cons, List.not_mem_nil, or_false, forall_eq_or_imp, forall_eq]
      exact ⟨⟨'<', '>', by decide⟩, ⟨'<', '=', by decide⟩, ⟨'>', '=', by decide⟩⟩
    obtain ⟨c, d, rfl, hcd, hne, hsubkind⟩ := htwo op hcomparison
    rw [String.toList_ofList]
    refine (passes_comparison hidle hcd).imp ?_
    rintro _ ⟨start, stop, rfl⟩
    exact ⟨_, rfl, ⟨rfl, by rw [if_neg hne], hsubkind.symm⟩⟩
  · obtain ⟨c, hc, rfl⟩ := List.mem_map.1 hsign
    have hsigns : ∀ c ∈ ['+', '-', '*', '/', '^', '&', '=', '>', '<'], String.singleton c ≠ " " ∧
        operatorSubkind (String.singleton c) = .unspecified := List.all_iff_forall_prop.1 (by decide)
    obtain ⟨hne, hsubkind⟩ := hsigns c hc
    rw [String.toList_singleton]
    refine (passes_sign hidle hc ?_).imp ?_
    · simp [isComparison, hnot]
    · rintro _ ⟨start, stop, rfl⟩
      exact ⟨_, rfl, ⟨rfl, by rw [if_neg hne], hsubkind.symm⟩⟩

/-! ### Brackets -/

/-- Behind what is read of a name, an opening parenthesis opens a call of it. -/
theorem beyond_openGroup (hmode : s.mode = .ordinary) :
    ∃ opening : Token, opening.value = s.pending ∧
      opening.is (if s.pending = "" then .subexpr else .function) .start ∧
      Beyond (.bracket opening :: s.openings) s (openGroup s) [opening] := by
  unfold openGroup
  by_cases hnone : s.pending = ""
  · simp only [if_pos hnone, String.isEmpty_iff]
    exact ⟨_, hnone.symm, rfl, ⟨hmode, rfl⟩, rfl, rfl, Array.toList_push⟩
  · simp only [if_neg hnone, String.isEmpty_iff]
    exact ⟨_, rfl, rfl, ⟨hmode, rfl⟩, rfl, rfl, Array.toList_push⟩

theorem step_openGroup (hmode : s.mode = .ordinary ∨ s.mode = .number) :
    step locale '(' rest s = (openGroup { s with mode := .ordinary }, 0) := by
  rw [step_symbol hmode (by decide)]
  rfl

theorem passes_openGroup (hidle : Idle s) :
    ∃ opening : Token, (opening.opensGroup ∧ opening.value = "") ∧
      PassesInto locale (.bracket opening :: s.openings) s ['('] rest (· = [opening]) := by
  obtain ⟨opening, hvalue, hkind, hbeyond⟩ := beyond_openGroup hidle.1
  rw [if_pos hidle.2] at hkind
  refine ⟨opening, ⟨hkind, hvalue.trans hidle.2⟩, _, _, ?_, hbeyond, rfl⟩
  rw [List.singleton_append, through_cons, step_openGroup (.inl hidle.1), with_ordinary hidle.1]
  rfl

theorem passes_openCall {name : String} (hidle : Idle s) (hname : Word locale name) :
    ∃ opening : Token, (opening.opensCall ∧ opening.value = name) ∧
      PassesInto locale (.bracket opening :: s.openings) s (name.toList ++ ['(']) rest
        (· = [opening]) := by
  have hstops : Stops ('(' :: rest) := stops_cons (by decide)
  obtain ⟨s', hrun, htokens, hopenings, hfault, hpending, -, hmode⟩ :=
    through_word hidle hname hstops
  have hordinary : State.mode { s' with mode := .ordinary } = .ordinary := rfl
  obtain ⟨opening, hvalue, hkind, hbeyond⟩ := beyond_openGroup hordinary
  replace hvalue : opening.value = name := hvalue.trans hpending
  have hne : s'.pending ≠ "" := by
    rw [hpending]
    exact hname.1
  rw [if_neg hne] at hkind
  refine ⟨opening, ⟨hkind, hvalue⟩, _, _, ?_, ⟨hbeyond.idle, ?_, ?_, ?_⟩, rfl⟩
  · rw [List.append_assoc, List.singleton_append, hrun, through_cons, step_openGroup hmode]
    rfl
  · rw [hbeyond.openings, ← hopenings]
  · exact hbeyond.fault.trans hfault
  · rw [hbeyond.tokens, ← htokens]

theorem step_closeGroup {opening : Token} (hidle : Idle s)
    (h : s.openings = .bracket opening :: outer) :
    step locale ')' rest s = ({ s with openings := outer }.mark "" opening.kind .stop 1, 0) := by
  rw [step_of_idle hidle, ordinary_eq_symbol (by decide)]
  show (closeGroup s, 0) = _
  rw [closeGroup_of_bracket hidle h]

theorem passes_closeGroup {opening : Token} (hidle : Idle s)
    (h : s.openings = .bracket opening :: outer) :
    PassesInto locale outer s [')'] rest fun tokens => ∃ close : Token, tokens = [close] ∧
      close.is opening.kind .stop ∧ close.value = "" := by
  refine ⟨_, _, ?_, beyond_mark hidle outer "" opening.kind .stop 1, _, rfl, by simp [Token.is], rfl⟩
  rw [List.singleton_append, through_cons, step_closeGroup hidle h]
  rfl

/-- What stands between parentheses is passed with them. -/
theorem passes_bracket {opening : Token} {opens : List Char}
    (hopens : PassesInto locale (.bracket opening :: s.openings) s opens (part ++ [')'] ++ rest)
      (· = [opening]))
    (hinner : ∀ s', Idle s' → s'.openings = .bracket opening :: s.openings →
      Passes locale s' part (')' :: rest) Spelled) :
    Passes locale s (opens ++ (part ++ [')'])) rest fun tokens => ∃ inner close,
      tokens = opening :: (inner ++ [close]) ∧ Spelled inner ∧ close.is opening.kind .stop ∧
        close.value = "" := by
  have hclosed : ∀ s', Idle s' → s'.openings = .bracket opening :: s.openings →
      PassesInto locale s.openings s' (part ++ [')']) rest fun tokens => ∃ inner back,
        tokens = inner ++ back ∧ Spelled inner ∧
          ∃ close : Token, back = [close] ∧ close.is opening.kind .stop ∧ close.value = "" := by
    intro s' hidle hopenings
    have hpasses : PassesInto locale (.bracket opening :: s.openings) s' part ([')'] ++ rest) Spelled := by
      rw [← hopenings]
      exact hinner s' hidle hopenings
    exact hpasses.append fun s'' hidle' hopenings' => passes_closeGroup hidle' hopenings'
  refine (hopens.append hclosed).imp ?_
  rintro _ ⟨_, _, rfl, rfl, inner, _, rfl, hspelled, close, rfl, hclose⟩
  exact ⟨inner, close, rfl, hspelled, hclose⟩

/-- What stands in parentheses without a name is passed with them. -/
theorem passes_group (hidle : Idle s)
    (hinner : ∀ (opening : Token) (s' : State), opening.opensGroup → Idle s' →
      s'.openings = .bracket opening :: s.openings → Passes locale s' part (')' :: rest) Spelled) :
    Passes locale s (['('] ++ (part ++ [')'])) rest fun tokens => ∃ (opening : Token) (inner : List Token)
      (close : Token), tokens = opening :: (inner ++ [close]) ∧
        (opening.opensGroup ∧ opening.value = "") ∧ Spelled inner ∧
        (close.closesGroup ∧ close.value = "") := by
  obtain ⟨opening, hopening, hopens⟩ : ∃ opening : Token,
      (opening.opensGroup ∧ opening.value = "") ∧
      PassesInto locale (.bracket opening :: s.openings) s ['('] (part ++ [')'] ++ rest)
        (· = [opening]) := passes_openGroup hidle
  have hkind : opening.kind = .subexpr := (Token.is_iff.1 hopening.1).1
  refine (passes_bracket hopens fun s' => hinner opening s' hopening.1).imp ?_
  rintro _ ⟨inner, close, rfl, hspelled, hclose, hvalue⟩
  rw [hkind] at hclose
  exact ⟨opening, inner, close, rfl, hopening, hspelled, hclose, hvalue⟩

/-- What stands in the parentheses of a call is passed with them and with its name. -/
theorem passes_call {name : String} (hidle : Idle s) (hname : Word locale name)
    (hinner : ∀ (opening : Token) (s' : State), opening.opensCall → Idle s' →
      s'.openings = .bracket opening :: s.openings → Passes locale s' part (')' :: rest) Spelled) :
    Passes locale s (name.toList ++ ['('] ++ (part ++ [')'])) rest fun tokens => ∃ (opening : Token)
      (inner : List Token) (close : Token), tokens = opening :: (inner ++ [close]) ∧
        (opening.opensCall ∧ opening.value = name) ∧ Spelled inner ∧
        (close.closesCall ∧ close.value = "") := by
  obtain ⟨opening, hopening, hopens⟩ : ∃ opening : Token,
      (opening.opensCall ∧ opening.value = name) ∧
      PassesInto locale (.bracket opening :: s.openings) s (name.toList ++ ['('])
        (part ++ [')'] ++ rest) (· = [opening]) := passes_openCall hidle hname
  have hkind : opening.kind = .function := (Token.is_iff.1 hopening.1).1
  refine (passes_bracket hopens fun s' => hinner opening s' hopening.1).imp ?_
  rintro _ ⟨inner, close, rfl, hspelled, hclose, hvalue⟩
  rw [hkind] at hclose
  exact ⟨opening, inner, close, rfl, hopening, hspelled, hclose, hvalue⟩

theorem step_openArray (hidle : Idle s) :
    step locale '\x7b' rest s = (State.openRow (State.mark
      { s with openings := .array s.offset :: s.openings } Token.arrayName .function .start 1)
      s.offset, 0) := by
  rw [step_of_idle hidle, ordinary_eq_symbol (by decide)]
  show (openArray s, 0) = _
  unfold openArray
  simp only [hidle.endStray]

theorem passes_openArray (hidle : Idle s) :
    PassesInto locale (.arrayRow s.offset :: .array s.offset :: s.openings) s ['\x7b'] rest
      fun tokens => ∃ array row : Token, tokens = [array, row] ∧
        (array.opensCall ∧ array.value = Token.arrayName) ∧
        row.opensCall ∧ row.value = Token.arrayRowName := by
  have hbeyond := (beyond_mark hidle (.array s.offset :: s.openings) Token.arrayName .function
    .start 1).mark (.arrayRow s.offset :: .array s.offset :: s.openings) Token.arrayRowName
      .function .start 0
  refine ⟨_, _, ?_, hbeyond, _, _, rfl, ⟨rfl, rfl⟩, rfl, rfl⟩
  rw [List.singleton_append, through_cons, step_openArray hidle]
  rfl

theorem step_nextRow {place : Nat} (hidle : Idle s) (h : s.openings = .arrayRow place :: outer) :
    step locale ';' rest s = (State.openRow (State.mark (State.mark { s with openings := outer }
      "" .function .stop 0) ";" .argument .unspecified 1) place, 0) := by
  have hsymbol : step locale ';' rest s = (nextRow s, 0) := by
    rw [step_of_idle hidle, ordinary, isSeparator_eq, h]
    cases locale <;> rfl
  rw [hsymbol, nextRow_of_row hidle h]

theorem passes_nextRow {place : Nat} (hidle : Idle s) (h : s.openings = .arrayRow place :: outer) :
    PassesInto locale (.arrayRow place :: outer) s [';'] rest fun tokens => ∃ close separator row : Token,
      tokens = [close, separator, row] ∧ close.closesCall ∧ separator.is .argument .unspecified ∧
        row.opensCall ∧ row.value = Token.arrayRowName := by
  have hbeyond := ((beyond_mark hidle outer "" .function .stop 0).mark outer ";" .argument
    .unspecified 1).mark (.arrayRow place :: outer) Token.arrayRowName .function .start 0
  refine ⟨_, _, ?_, hbeyond, _, _, _, rfl, rfl, rfl, rfl, rfl⟩
  rw [List.singleton_append, through_cons, step_nextRow hidle h]
  rfl

theorem step_closeArray {place place' : Nat} (hidle : Idle s)
    (h : s.openings = .arrayRow place :: .array place' :: outer) :
    step locale '\x7d' rest s = (State.mark (State.mark { s with openings := outer }
      "" .function .stop 0) "" .function .stop 1, 0) := by
  rw [step_of_idle hidle, ordinary_eq_symbol (by decide)]
  show (closeArray s, 0) = _
  rw [closeArray_of_row hidle h]
  rfl

theorem passes_closeArray {place place' : Nat} (hidle : Idle s)
    (h : s.openings = .arrayRow place :: .array place' :: outer) :
    PassesInto locale outer s ['\x7d'] rest fun tokens => ∃ close close' : Token,
      tokens = [close, close'] ∧ close.closesCall ∧ close'.closesCall := by
  have hbeyond := (beyond_mark hidle outer "" .function .stop 0).mark outer "" .function .stop 1
  refine ⟨_, _, ?_, hbeyond, _, _, rfl, rfl, rfl⟩
  rw [List.singleton_append, through_cons, step_closeArray hidle h]
  rfl

/-- Arguments are separated inside a call, and not inside a group. -/
theorem separates_call {opening : Token} (h : opening.opensCall)
    (hopenings : s.openings = .bracket opening :: outer) : separates locale s.openings := by
  simp only [Token.opensCall, Token.is, Bool.and_eq_true, beq_iff_eq] at h
  rw [hopenings]
  simp [separates, h.1]

theorem separates_group {opening : Token} (h : opening.opensGroup)
    (hopenings : s.openings = .bracket opening :: outer) : separates locale s.openings = false := by
  simp only [Token.opensGroup, Token.is, Bool.and_eq_true, beq_iff_eq] at h
  rw [hopenings]
  simp [separates, h.1]

/-- A separator between two arguments. -/
theorem step_separator (hidle : Idle s) (hplace : separates locale s.openings) :
    step locale locale.argumentSeparator rest s =
      (s.mark (String.singleton locale.argumentSeparator) .argument .unspecified 1, 0) := by
  rw [step_of_idle hidle, ordinary, isSeparator_eq, hplace, hidle.endOperand]
  simp

theorem passes_separator (hidle : Idle s) (hplace : separates locale s.openings) :
    Passes locale s [locale.argumentSeparator] rest fun tokens => ∃ start stop, tokens =
      [⟨String.singleton locale.argumentSeparator, .argument, .unspecified, start, stop⟩] :=
  passes_mark 1 hidle (step_separator hidle hplace)

/-! ### The end of a text -/

/-- Nothing is noted at the end of a text whose brackets are closed. -/
theorem through_nil (hidle : Idle s) (h : s.openings = []) : through locale [] s = s := by
  have hended : { s.endOperand with mode := .ordinary } = s := by
    rw [hidle.endOperand, with_ordinary hidle.1]
  rw [through, run, finish, finishToken, hidle.1]
  show noteUnclosed { s.endOperand with mode := .ordinary } = s
  rw [hended, noteUnclosed, h]

/-- A formula of which the scan gets over all that it reads has no fault. -/
theorem ofFormula_of_passes_body {formula : String}
    (h : Passes locale (.initial (leadSize formula)) (body formula.toList) [] Spelled) :
    (ofFormula locale formula).fault = none ∧ Spelled (ofFormula locale formula).tokens.toList := by
  obtain ⟨s', raws, hrun, hbeyond, hspelled⟩ := h
  have hnil : through locale [] s' = s' := through_nil hbeyond.idle hbeyond.openings
  have hend : ofFormula locale formula = s' := by
    rw [← hnil, ← hrun, List.append_nil]
    rfl
  rw [hend, hbeyond.fault, hbeyond.tokens]
  exact ⟨rfl, hspelled⟩

/-- A formula whose text is passed has no fault. -/
theorem ofFormula_of_passes {text : String}
    (h : Passes locale (.initial (leadSize ("=" ++ text))) text.toList [] Spelled) :
    (ofFormula locale ("=" ++ text)).fault = none ∧
      Spelled (ofFormula locale ("=" ++ text)).tokens.toList := by
  have hbody : body ("=" ++ text).toList = text.toList := by
    rw [String.toList_append]
    rfl
  rw [← hbody] at h
  exact ofFormula_of_passes_body h

end

end SheetFormula.Scan
