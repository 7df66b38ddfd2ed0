import Mathlib.Data.List.Chain
import SheetFormula.Proofs.Moves

/-!
# The shapes of raw tokens

What the tokens of a scan without a fault look like.

1. A `Word` is a text that a scan takes as one operand or one name, and an `ErrorWord` an error
   literal with the name of a sheet in front of it or not.
2. `Shape` says which tokens a scan makes. `Shaped` is the invariant: it also says what is pending.
3. A token of unknown kind stands directly in front of a token that starts an operand, unless a
   fault is noted: `Leads`.
-/

namespace SheetFormula

/-- Whether a token is an operand or opens a call. -/
def Token.startsOperand (token : Token) : Bool := token.kind == .operand || token.opensCall

/-- Behind a token of unknown kind an operand starts. -/
def Token.Leads (token next : Token) : Prop := token.kind = .unknown → next.startsOperand

namespace Scan

open Token (Leads)

/-! ## Shapes -/

/-- A text that a scan takes as one word. -/
def Word (locale : Locale) (text : String) : Prop :=
  text ≠ "" ∧ ∃ mode, absorbs locale [] .ordinary text.toList [] = some mode ∧
    (mode = .ordinary ∨ mode = .number)

/-- What may stand in front of an error literal. -/
def Sheet (locale : Locale) (text : String) : Prop :=
  text = "" ∨ Word locale text ∧ text.toList.getLast? = some '!'

/-- An error literal, with the name of a sheet in front of it or not. -/
def ErrorWord (locale : Locale) (text : String) : Prop :=
  ∃ sheet literal, text = sheet ++ literal ∧ Sheet locale sheet ∧ literal ∈ errorLiterals

/-- The tokens that a scan makes. -/
inductive Shape (locale : Locale) : Token → Prop
  | word {value start stop} : Word locale value →
      Shape locale ⟨value, .operand, .unspecified, start, stop⟩
  | text {value start stop} : Shape locale ⟨value, .operand, .text, start, stop⟩
  | errorValue {value start stop} : ErrorWord locale value →
      Shape locale ⟨value, .operand, .error, start, stop⟩
  | sign {value kind subkind start stop} : (value, kind, subkind) ∈ signs →
      Shape locale ⟨value, kind, subkind, start, stop⟩
  | gap {start stop} : Shape locale ⟨" ", .whitespace, .unspecified, start, stop⟩
  | call {value start stop} : Word locale value →
      Shape locale ⟨value, .function, .start, start, stop⟩
  | group {start stop} : Shape locale ⟨"", .subexpr, .start, start, stop⟩
  | close {kind start stop} : kind = .function ∨ kind = .subexpr →
      Shape locale ⟨"", kind, .stop, start, stop⟩
  | unknown {value start stop} : Shape locale ⟨value, .unknown, .unspecified, start, stop⟩

theorem word_arrayName (locale : Locale) : Word locale Token.arrayName :=
  ⟨by decide, .ordinary, rfl, .inl rfl⟩

theorem word_arrayRowName (locale : Locale) : Word locale Token.arrayRowName :=
  ⟨by decide, .ordinary, rfl, .inl rfl⟩

/-! ## The invariant -/

/-- What a scan has read of the token that it is reading. -/
def PendingShape (locale : Locale) (s : State) (unread : List Char) : Prop :=
  match s.mode with
  | .text => True
  | .errorLiteral read => ∃ sheet, s.pending = sheet ++ read ∧ Sheet locale sheet
  | mode => absorbs locale [] .ordinary s.pending.toList unread = some mode

/-- The tokens of a scan have their shapes, and its pending text is a part of one. -/
structure Shaped (locale : Locale) (s : State) (unread : List Char) : Prop where
  tokens : ∀ token ∈ s.tokens.toList, Shape locale token
  brackets : ∀ token, .bracket token ∈ s.openings → token.kind = .function ∨ token.kind = .subexpr
  pending : PendingShape locale s unread
  leads : s.fault = none → s.tokens.toList.IsChain Leads
  last : s.fault = none → ∀ token ∈ s.tokens.toList.getLast?, token.kind = .unknown →
    InLiteral s.mode

namespace Shaped

variable {locale : Locale} {s s' : State} {unread unread' : List Char}

/-- More is pending. -/
theorem extend (h : Shaped locale s unread) (htokens : s'.tokens = s.tokens)
    (hopenings : s'.openings = s.openings) (hfault : s'.fault = s.fault)
    (hpending : PendingShape locale s' unread') (hmode : InLiteral s.mode → InLiteral s'.mode) :
    Shaped locale s' unread' where
  tokens := by rw [htokens]; exact h.tokens
  brackets := by rw [hopenings]; exact h.brackets
  pending := hpending
  leads := by rw [htokens, hfault]; exact h.leads
  last := by
    rw [htokens, hfault]
    exact fun hnone token ht hkind => hmode (h.last hnone token ht hkind)

/-- Tokens of known kinds are added. The first of them starts an operand where a token of unknown
kind may stand in front of it. -/
theorem add (more : List Token) (h : Shaped locale s unread)
    (htokens : s'.tokens.toList = s.tokens.toList ++ more)
    (hshape : ∀ token ∈ more, Shape locale token ∧ token.kind ≠ .unknown)
    (hopenings : ∀ token, .bracket token ∈ s'.openings →
      .bracket token ∈ s.openings ∨ token.kind = .function ∨ token.kind = .subexpr)
    (hfault : s'.fault = none → s.fault = none) (hpending : PendingShape locale s' unread')
    (hfirst : InLiteral s.mode → ∃ first rest, more = first :: rest ∧ first.startsOperand)
    (hsome : more ≠ []) : Shaped locale s' unread' where
  tokens := by
    rw [htokens]
    intro token ht
    rcases List.mem_append.1 ht with ht | ht
    · exact h.tokens token ht
    · exact (hshape token ht).1
  brackets token ht := by
    rcases hopenings token ht with ht | hkind
    · exact h.brackets token ht
    · exact hkind
  pending := hpending
  leads hnone := by
    rw [htokens]
    refine (h.leads (hfault hnone)).append ?_ fun token ht next hnext hkind => ?_
    · refine List.isChain_iff_getElem.2 fun i hi hkind => ?_
      exact absurd hkind (hshape _ (List.getElem_mem _)).2
    · obtain ⟨first, rest, rfl, hstarts⟩ := hfirst (h.last (hfault hnone) token ht hkind)
      cases hnext
      exact hstarts
  last hnone token ht hkind := by
    rw [htokens, List.getLast?_append_of_ne_nil _ hsome] at ht
    exact absurd hkind (hshape token (List.mem_of_getLast? ht)).2

end Shaped

/-! ## Pending words -/

section

variable {locale : Locale} {s : State} {c : Char} {unread rest : List Char}

theorem pendingShape_of_absorbs
    (h : absorbs locale [] .ordinary s.pending.toList unread = some s.mode)
    (hmode : ¬ InLiteral s.mode) : PendingShape locale s unread := by
  unfold PendingShape
  unfold InLiteral at hmode
  cases hs : s.mode with
  | text => exact trivial
  | errorLiteral read => exact absurd (.inr ⟨read, hs⟩) hmode
  | path | bracket | number | ordinary =>
    rw [hs] at h
    exact h

theorem pendingShape_of_idle (h : Idle s) : PendingShape locale s unread := by
  refine pendingShape_of_absorbs ?_ ?_
  · rw [h.1, h.2]
    rfl
  · rw [h.1]
    simp [InLiteral]

/-- What is pending in front of the end of a word is a word. -/
theorem word_pending (h : PendingShape locale s unread)
    (hmode : s.mode = .ordinary ∨ s.mode = .number) (hp : s.pending ≠ "") (hstops : Stops unread) :
    Word locale s.pending := by
  have habsorbs : absorbs locale [] .ordinary s.pending.toList unread = some s.mode := by
    unfold PendingShape at h
    rcases hmode with hs | hs <;> rw [hs] at h ⊢ <;> exact h
  rw [absorbs_of_stops hstops] at habsorbs
  exact ⟨hp, s.mode, habsorbs, hmode⟩

theorem not_inLiteral (hmode : s.mode = .ordinary ∨ s.mode = .number) : ¬ InLiteral s.mode := by
  rcases hmode with h | h <;> simp [InLiteral, h]

end

namespace Shaped

variable {locale : Locale} {s : State} {c : Char} {unread unread' rest : List Char}

theorem absorb {next : Mode} (h : Shaped locale s (c :: rest))
    (habsorb : Scan.absorb locale s.mode s.pending c rest = some next) :
    Shaped locale { s.extend c with mode := next } rest := by
  obtain ⟨hmode, hnext⟩ := not_inLiteral_of_absorb habsorb
  have habsorbs : absorbs locale [] .ordinary s.pending.toList (c :: rest) = some s.mode := by
    have hpending := h.pending
    unfold PendingShape at hpending
    unfold InLiteral at hmode
    split at hpending
    · rename_i hs
      exact absurd (.inl hs) hmode
    · rename_i read hs
      exact absurd (.inr ⟨read, hs⟩) hmode
    · exact hpending
  refine h.extend (tokens_extend s c) (openings_extend s c) (fault_extend s c)
    (pendingShape_of_absorbs ?_ hnext) fun hs => absurd hs hmode
  simp only [pending_extend, String.toList_push]
  rw [absorbs_concat, habsorbs, Option.bind_some, List.nil_append, String.ofList_toList]
  exact habsorb

theorem endOperand (h : Shaped locale s unread)
    (hmode : s.mode = .ordinary ∨ s.mode = .number) (hp : s.pending ≠ "") (hstops : Stops unread) :
    Shaped locale (State.endOperand { s with mode := .ordinary }) unread' := by
  have hcode : State.endOperand { s with mode := .ordinary } =
      State.emitPending { s with mode := .ordinary } .operand .unspecified := endPending_of_ne hp
  rw [hcode]
  refine h.add [⟨s.pending, .operand, .unspecified, s.pendingStart, s.offset⟩] Array.toList_push ?_
    (fun _ => .inl) id (pendingShape_of_idle ⟨rfl, rfl⟩) (fun hs => absurd hs (not_inLiteral hmode))
    (List.cons_ne_nil _ _)
  intro token ht
  cases List.mem_singleton.1 ht
  exact ⟨.word (word_pending h.pending hmode hp hstops), by simp⟩

/-- Behind a stray name, a literal is being read. -/
theorem endStray (h : Shaped locale s unread) (hmode : s.mode = .ordinary ∨ s.mode = .number) :
    Shaped locale { State.endStray { s with mode := .ordinary } with mode := .text } unread' := by
  unfold State.endStray State.endPending
  split
  · exact h.extend rfl rfl rfl trivial fun hs => absurd hs (not_inLiteral hmode)
  have htokens : (State.emitPending { s with mode := .ordinary } .unknown .unspecified).tokens.toList =
      s.tokens.toList ++ [⟨s.pending, .unknown, .unspecified, s.pendingStart, s.offset⟩] :=
    Array.toList_push
  refine ⟨?_, h.brackets, trivial, fun hnone => ?_, fun _ _ _ _ => .inl rfl⟩
  · show ∀ token ∈ (State.emitPending _ _ _).tokens.toList, _
    rw [htokens]
    intro token ht
    rcases List.mem_append.1 ht with ht | ht
    · exact h.tokens token ht
    · cases List.mem_singleton.1 ht
      exact .unknown
  · show (State.emitPending _ _ _).tokens.toList.IsChain Leads
    rw [htokens]
    refine (h.leads hnone).append (.singleton _) fun token ht next _ hkind => ?_
    exact absurd (h.last hnone token ht hkind) (not_inLiteral hmode)

end Shaped

/-! ## Moves -/

section

variable {locale : Locale} {s s' : State} {unread unread' rest : List Char}

theorem kind_of_signs {sign : String × Token.Kind × Token.Subkind} (h : sign ∈ signs) :
    sign.2.1 ≠ .unknown := by
  revert sign
  decide

namespace Shaped

/-- A token is added between two tokens. -/
theorem addOne {value : String} {kind : Token.Kind} {subkind : Token.Subkind} (width : Nat)
    (h : Shaped locale s unread) (hidle : Idle s)
    (hshape : ∀ start stop, Shape locale ⟨value, kind, subkind, start, stop⟩)
    (hkind : kind ≠ .unknown) : Shaped locale (s.mark value kind subkind width) unread' := by
  refine h.add [⟨value, kind, subkind, s.offset, s.offset + width⟩] Array.toList_push ?_
    (fun _ => .inl) id (pendingShape_of_idle hidle)
    (fun hs => absurd hs (not_inLiteral (.inl hidle.1))) (List.cons_ne_nil _ _)
  intro token ht
  cases List.mem_singleton.1 ht
  exact ⟨hshape _ _, hkind⟩

/-- A bracket is opened or closed. -/
theorem withOpenings (openings : List Opening) (h : Shaped locale s unread)
    (hopenings : ∀ token, .bracket token ∈ openings →
      .bracket token ∈ s.openings ∨ token.kind = .function ∨ token.kind = .subexpr) :
    Shaped locale { s with openings := openings } unread :=
  ⟨h.tokens, fun token ht => (hopenings token ht).elim (h.brackets token) id, h.pending, h.leads,
    h.last⟩

/-- Once a fault is noted, the tokens of unknown kind may stand anywhere. -/
theorem refuse {value : String} {kind : Token.Kind} {subkind : Token.Subkind} {width : Nat}
    (h : Shaped locale s unread) (hidle : Idle s) (fault : LexError)
    (hshape : ∀ start stop, Shape locale ⟨value, kind, subkind, start, stop⟩) :
    Shaped locale ((s.note fault).mark value kind subkind width) unread' := by
  have hnoted : (s.note fault).fault ≠ none := by
    unfold State.note
    cases s.fault <;> simp
  refine ⟨?_, h.brackets, pendingShape_of_idle hidle, fun hnone => absurd hnone hnoted,
    fun hnone => absurd hnone hnoted⟩
  intro token ht
  rcases List.mem_append.1 (Array.toList_push ▸ ht) with ht | ht
  · exact h.tokens token ht
  · cases List.mem_singleton.1 ht
    exact hshape _ _

theorem openError (h : Shaped locale s ('#' :: rest))
    (hmode : s.mode = .ordinary ∨ s.mode = .number) :
    Shaped locale (openErrorLiteral '#' { s with mode := .ordinary }) rest := by
  have hin : InLiteral (.errorLiteral (String.singleton '#')) := .inr ⟨_, rfl⟩
  unfold openErrorLiteral
  split
  · rename_i hsheet
    have hp : s.pending ≠ "" := by
      intro heq
      simp [heq] at hsheet
    refine h.extend (tokens_extend _ _) (openings_extend _ _) (fault_extend _ _)
      ⟨s.pending, ?_, .inr ⟨?_, hsheet⟩⟩ fun _ => hin
    · exact (pending_extend _ _).trans String.append_singleton.symm
    · exact word_pending h.pending hmode hp (stops_cons (by decide))
  · have hstray : Shaped locale _ rest := h.endStray hmode
    refine hstray.extend (tokens_extend _ _) (openings_extend _ _) (fault_extend _ _)
      ⟨"", ?_, .inl rfl⟩ fun _ => hin
    refine (pending_extend _ _).trans ?_
    rw [(idle_endStray rfl).2]
    rfl

theorem closeError {c : Char} {read : String} (h : Shaped locale s (c :: rest))
    (hmode : s.mode = .errorLiteral read) (hread : read.push c ∈ errorLiterals) :
    Shaped locale (State.endPending { s.take c with mode := .ordinary } .operand .error) rest := by
  have hcode : State.endPending { s.take c with mode := .ordinary } .operand .error =
      State.emitPending { s.take c with mode := .ordinary } .operand .error :=
    endPending_of_ne (by simp [State.take])
  obtain ⟨sheet, hpending, hsheet⟩ : ∃ sheet, s.pending = sheet ++ read ∧ Sheet locale sheet := by
    have := h.pending
    rwa [PendingShape, hmode] at this
  rw [hcode]
  refine h.add [⟨s.pending.push c, .operand, .error, s.pendingStart, s.offset + c.utf8Size⟩]
    Array.toList_push ?_ (fun _ => .inl) id (pendingShape_of_idle ⟨rfl, rfl⟩)
    (fun _ => ⟨_, _, rfl, rfl⟩) (List.cons_ne_nil _ _)
  intro token ht
  cases List.mem_singleton.1 ht
  refine ⟨.errorValue ⟨sheet, read.push c, ?_, hsheet, hread⟩, by simp⟩
  rw [hpending, ← String.append_singleton, ← String.append_singleton, String.append_assoc]

theorem openArray (h : Shaped locale s unread) (hmode : s.mode = .ordinary ∨ s.mode = .number) :
    Shaped locale (Scan.openArray { s with mode := .ordinary }) unread' := by
  have hidle : Idle (State.endStray { s with mode := .ordinary }) := idle_endStray rfl
  have hstray : Shaped locale _ unread := h.endStray hmode
  obtain ⟨place, hplace⟩ : ∃ place, (State.endStray { s with mode := .ordinary }).offset = place :=
    ⟨_, rfl⟩
  unfold Scan.openArray
  refine hstray.add [⟨Token.arrayName, .function, .start, place, place + 1⟩,
    ⟨Token.arrayRowName, .function, .start, place + 1, place + 1⟩] ?_ ?_ ?_ id
    (pendingShape_of_idle ⟨hidle.1, hidle.2⟩) (fun _ => ⟨_, _, rfl, rfl⟩) (List.cons_ne_nil _ _)
  · rw [toList_openRow, toList_mark, List.append_assoc, ← hplace]
    rfl
  · intro token ht
    simp only [List.mem_cons, List.not_mem_nil, or_false] at ht
    rcases ht with rfl | rfl
    · exact ⟨.call (word_arrayName locale), by simp⟩
    · exact ⟨.call (word_arrayRowName locale), by simp⟩
  · intro token ht
    left
    rcases List.mem_cons.1 ht with heq | ht
    · cases heq
    rcases List.mem_cons.1 ht with heq | ht
    · cases heq
    · exact ht

theorem openGroup (h : Shaped locale s ('(' :: rest))
    (hmode : s.mode = .ordinary ∨ s.mode = .number) :
    Shaped locale (Scan.openGroup { s with mode := .ordinary }) unread' := by
  unfold Scan.openGroup
  refine h.add _ Array.toList_push ?_ ?_ id (pendingShape_of_idle ⟨rfl, rfl⟩)
    (fun hs => absurd hs (not_inLiteral hmode)) (List.cons_ne_nil _ _)
  · intro token ht
    rw [List.mem_singleton.1 ht]
    split
    · exact ⟨.group, by simp⟩
    · rename_i hp
      have hp : s.pending ≠ "" := by simpa [String.isEmpty_iff] using hp
      have hword : Word locale s.pending :=
        word_pending h.pending hmode hp (stops_cons (show endsWord '(' by decide))
      exact ⟨.call hword, by simp⟩
  · intro token ht
    rcases List.mem_cons.1 ht with heq | ht
    · cases heq
      right
      split
      · exact .inr rfl
      · exact .inl rfl
    · exact .inl ht

end Shaped

/-- Every move keeps the shapes. -/
theorem Move.shaped (h : Move locale s unread s' unread') (hs : Shaped locale s unread) :
    Shaped locale s' unread' := by
  cases h with
  | absorb h => exact hs.absorb h
  | endOperand hmode hp hc => exact hs.endOperand hmode hp (stops_cons hc)
  | sign hidle hsign => exact hs.addOne _ hidle (fun _ _ => .sign hsign) (kind_of_signs hsign)
  | gap hidle => exact hs.addOne _ hidle (fun _ _ => .gap) (by simp)
  | refuse hidle hc => exact hs.refuse hidle _ fun _ _ => .unknown
  | openText hmode =>
    have hstray : Shaped locale _ unread' := hs.endStray hmode
    exact hstray.extend rfl rfl rfl trivial id
  | textChar hmode =>
    exact hs.extend rfl rfl rfl (by rw [PendingShape]; simp [State.take, hmode]) id
  | textQuote hmode => exact hs.extend rfl rfl rfl (by rw [PendingShape]; simp [hmode]) id
  | closeText hmode =>
    refine hs.add [⟨s.pending, .operand, .text, s.pendingStart, s.offset + 1⟩] Array.toList_push ?_
      (fun _ => .inl) id (pendingShape_of_idle ⟨rfl, rfl⟩) (fun _ => ⟨_, _, rfl, rfl⟩)
      (List.cons_ne_nil _ _)
    intro token ht
    cases List.mem_singleton.1 ht
    exact ⟨.text, by simp⟩
  | openError hmode => exact hs.openError hmode
  | errorChar hmode hread =>
    refine hs.extend rfl rfl rfl ?_ fun _ => .inr ⟨_, rfl⟩
    have hpending := hs.pending
    rw [PendingShape, hmode] at hpending
    obtain ⟨sheet, hpending, hsheet⟩ := hpending
    refine ⟨sheet, ?_, hsheet⟩
    show s.pending.push _ = _
    rw [hpending, ← String.append_singleton, ← String.append_singleton, String.append_assoc]
  | closeError hmode hread => exact hs.closeError hmode hread
  | openArray hmode => exact hs.openArray hmode
  | nextRow hidle hopen =>
    rw [nextRow_of_row hidle hopen]
    rename_i array outer
    have hclosed : Shaped locale _ unread' := (hs.withOpenings outer fun token ht => .inl
      (hopen ▸ List.mem_cons_of_mem _ ht)).addOne 0 ⟨hidle.1, hidle.2⟩
        (fun _ _ => .close (.inl rfl)) (by simp)
    have hseparated : Shaped locale _ unread' := hclosed.addOne 1 ⟨hidle.1, hidle.2⟩
      (fun _ _ => .sign (show (";", Token.Kind.argument, Token.Subkind.unspecified) ∈ signs by decide))
      (by simp)
    exact (hseparated.withOpenings _ fun token ht => .inl (by simpa using ht)).addOne 0
      ⟨hidle.1, hidle.2⟩ (fun _ _ => .call (word_arrayRowName locale)) (by simp)
  | closeArray hidle hopen =>
    rw [closeArray_of_row hidle hopen]
    rename_i array outer
    have hclosed : Shaped locale _ unread' := (hs.withOpenings (outer.drop 1) fun token ht => .inl
      (hopen ▸ List.mem_cons_of_mem _ (List.mem_of_mem_drop ht))).addOne 0 ⟨hidle.1, hidle.2⟩
        (fun _ _ => .close (.inl rfl)) (by simp)
    exact hclosed.addOne 1 ⟨hidle.1, hidle.2⟩ (fun _ _ => .close (.inl rfl)) (by simp)
  | openGroup hmode => exact hs.openGroup hmode
  | closeGroup hidle hopen =>
    rename_i opening outer
    have hkind : opening.kind = .function ∨ opening.kind = .subexpr :=
      hs.brackets opening (hopen ▸ List.mem_cons_self)
    rw [closeGroup_of_bracket hidle hopen]
    refine (hs.withOpenings outer fun token ht => .inl (hopen ▸ List.mem_cons_of_mem _ ht)).addOne
      1 ⟨hidle.1, hidle.2⟩ (fun _ _ => .close hkind) ?_
    rcases hkind with h | h <;> simp [h]
  | closeNothing hidle => exact hs.refuse hidle _ fun _ _ => .close (.inr rfl)

end

/-! ## Whole formulas -/

theorem fault_noteUnclosed {s : State} (h : (noteUnclosed s).fault = none) : s.fault = none := by
  unfold noteUnclosed State.note at h
  split at h
  · exact h
  all_goals cases hs : s.fault <;> simp [hs] at h

theorem note_ne_none (s : State) (fault : LexError) : (s.note fault).fault ≠ none := by
  unfold State.note
  cases s.fault <;> simp

/-- A scan without a fault ends between two tokens or in a word. -/
theorem mode_of_finishToken {s : State} (h : (finishToken s).fault = none) :
    (s.mode = .ordinary ∨ s.mode = .number) ∧ finishToken s = s.endOperand ∧ s.fault = none := by
  have hnoted : ∀ (fault : LexError) {kind : Token.Kind} {subkind : Token.Subkind},
      ((s.note fault).endPending kind subkind).fault ≠ none := by
    intro fault kind subkind
    unfold State.endPending
    split
    · exact note_ne_none s fault
    · exact note_ne_none s fault
  unfold finishToken at h ⊢
  cases hmode : s.mode with
  | text =>
    rw [hmode] at h
    exact absurd h (note_ne_none s _)
  | path | bracket | errorLiteral =>
    rw [hmode] at h
    exact absurd h (hnoted _)
  | number | ordinary =>
    rw [hmode] at h
    refine ⟨by simp, rfl, ?_⟩
    dsimp only at h
    unfold State.endOperand State.endPending at h
    split at h <;> exact h

theorem shaped_initial (locale : Locale) (offset : Nat) (text : List Char) :
    Shaped locale (.initial offset) text :=
  ⟨by simp [State.initial], by simp [State.initial], rfl, fun _ => by simp [State.initial],
    fun _ => by simp [State.initial]⟩

theorem shaped_run (locale : Locale) (formula : String) :
    Shaped locale (run locale (body formula.toList) (.initial (leadSize formula))) [] :=
  (run_moves (body formula.toList) (.inl rfl)).preserves (Shaped locale) Move.shaped
    (shaped_initial locale _ _)

/-- The tokens of a formula without a fault. -/
theorem shapes_ofFormula {locale : Locale} {formula : String}
    (h : (ofFormula locale formula).fault = none) :
    (∀ token ∈ (ofFormula locale formula).tokens.toList, Shape locale token) ∧
      (ofFormula locale formula).tokens.toList.IsChain Leads ∧
      ∀ token ∈ (ofFormula locale formula).tokens.toList.getLast?, token.kind ≠ .unknown := by
  have hrun := shaped_run locale formula
  generalize hs : run locale (body formula.toList) (.initial (leadSize formula)) = s at hrun
  have htokens : (ofFormula locale formula).tokens = (finishToken s).tokens := by
    rw [ofFormula, tokens_finish, hs]
  have hfault : (finishToken s).fault = none := by
    rw [ofFormula, finish, hs] at h
    have hnone : State.fault { finishToken s with mode := .ordinary } = none := fault_noteUnclosed h
    exact hnone
  obtain ⟨hmode, hcode, hnone⟩ := mode_of_finishToken hfault
  have hended : Shaped locale (State.endOperand { s with mode := .ordinary }) [] := by
    by_cases hp : s.pending = ""
    · rw [show State.endOperand { s with mode := .ordinary } = { s with mode := .ordinary } from
        Idle.endOperand ⟨rfl, hp⟩]
      exact hrun.extend rfl rfl rfl (pendingShape_of_idle ⟨rfl, hp⟩)
        fun hs => absurd hs (not_inLiteral hmode)
    · exact hrun.endOperand hmode hp stops_nil
  have hsame : (State.endOperand { s with mode := .ordinary }).tokens = (finishToken s).tokens ∧
      (State.endOperand { s with mode := .ordinary }).fault = none := by
    rw [hcode]
    unfold State.endOperand State.endPending
    split
    · exact ⟨rfl, hnone⟩
    · exact ⟨rfl, hnone⟩
  rw [htokens, ← hsame.1]
  refine ⟨hended.tokens, hended.leads hsame.2, fun token ht hkind => ?_⟩
  exact absurd (hended.last hsame.2 token ht hkind) (not_inLiteral (.inl (idle_endOperand rfl).1))

end Scan

end SheetFormula
