import SheetFormula.Proofs.Tiling

/-!
# How the parts of a scan agree

Main statement: `Formula.states_coherent`, how the parts of a scan fit each other and the formula
between any two iterations, and how an iteration moves on.

1. `Text.undoubled` reads a text with doubled quotes back.
2. A row is `Paired` with its own array: it stands directly on the array that has the same offset,
   and no array stands without a row on it.
3. `State.hashAt` is the place of an error literal in the pending text. An iteration that reads an
   error literal opens it behind what is pending or goes on with it: `step_errorLiteral`.
4. `Coherent` says what holds of a state, `Advances` what holds of an iteration. Both follow from what
   a scan tracks.
-/

namespace SheetFormula

open String (utf8Len)

namespace Text

/-! ## Quotes -/

/-- The text with every two neighbouring quotes read as one, from left to right. -/
def undoubled (quote : Char) : List Char → List Char
  | [] => []
  | [c] => [c]
  | c :: d :: rest =>
    if c = quote ∧ d = quote then quote :: undoubled quote rest else c :: undoubled quote (d :: rest)

theorem undoubled_cons_of_ne {quote c : Char} (h : c ≠ quote) (rest : List Char) :
    undoubled quote (c :: rest) = c :: undoubled quote rest := by
  cases rest with
  | nil => rfl
  | cons d rest => rw [undoubled, if_neg fun heq => h heq.1]

/-- Doubled quotes are read back. -/
theorem undoubled_doubled (quote : Char) (text : List Char) :
    undoubled quote (doubled quote text) = text := by
  induction text with
  | nil => rfl
  | cons c rest ih =>
    by_cases h : c = quote
    · rw [doubled, if_pos h, undoubled, if_pos ⟨rfl, rfl⟩, ih, h]
    · rw [doubled, if_neg h, undoubled_cons_of_ne h, ih]

end Text

namespace Scan

/-! ## Rows and arrays -/

/-- Every row is open directly on the array at the same offset, and every array has a row on it. -/
inductive Paired : List Opening → Prop
  | nil : Paired []
  | bracket {token openings} : Paired openings → Paired (.bracket token :: openings)
  | row {array openings} : Paired openings → Paired (.arrayRow array :: .array array :: openings)

namespace Paired

variable {openings inner outer : List Opening} {array : Nat}

/-- Directly below a row is its array. -/
theorem below_row (h : Paired openings) (heq : openings = inner ++ .arrayRow array :: outer) :
    outer.head? = some (.array array) := by
  induction h generalizing inner with
  | nil => simp at heq
  | bracket _ ih =>
    cases inner with
    | nil => cases heq
    | cons first inner => exact ih (List.cons.inj heq).2
  | row _ ih =>
    cases inner with
    | nil =>
      cases heq
      rfl
    | cons first inner =>
      cases inner with
      | nil => cases heq
      | cons second inner => exact ih (List.cons.inj (List.cons.inj heq).2).2

/-- Directly on top of an array is a row of it. -/
theorem above_array (h : Paired openings) (heq : openings = inner ++ .array array :: outer) :
    inner.getLast? = some (.arrayRow array) := by
  induction h generalizing inner with
  | nil => simp at heq
  | bracket _ ih =>
    cases inner with
    | nil => cases heq
    | cons first inner =>
      rw [List.getLast?_cons, ih (List.cons.inj heq).2]
      rfl
  | row _ ih =>
    cases inner with
    | nil => cases heq
    | cons first inner =>
      cases inner with
      | nil =>
        cases heq
        rfl
      | cons second inner =>
        rw [List.getLast?_cons, List.getLast?_cons, ih (List.cons.inj (List.cons.inj heq).2).2]
        rfl

end Paired

section

variable {locale : Locale} {s s' : State} {unread unread' : List Char}

/-- Every move keeps rows on their arrays. -/
theorem Move.paired (h : Move locale s unread s' unread') (hs : Paired s.openings) :
    Paired s'.openings := by
  have hrestack := h.restack
  generalize s.openings = openings, s'.openings = openings' at hrestack hs ⊢
  cases hrestack with
  | keep => exact hs
  | openBracket => exact .bracket hs
  | openArray => exact .row hs
  | closeBracket | closeArray =>
    cases hs
    assumption

end

/-! ## Error literals -/

/-- Where the error literal that is being read starts in the pending text. -/
def State.hashAt (s : State) : Option Nat :=
  match s.mode with
  | .errorLiteral read => some (s.pending.utf8ByteSize - read.utf8ByteSize)
  | _ => none

section

variable {locale : Locale} {s s' : State} {c : Char} {rest unread unread' : List Char} {read : String}
  {place : Nat}

theorem hashAt_eq_some_iff : s.hashAt = some place ↔
    ∃ read, s.mode = .errorLiteral read ∧ place = s.pending.utf8ByteSize - read.utf8ByteSize := by
  unfold State.hashAt
  cases s.mode <;> simp [eq_comm]

theorem mode_endPending (s : State) (kind : Token.Kind) (subkind : Token.Subkind) :
    (s.endPending kind subkind).mode = s.mode := by
  unfold State.endPending
  split <;> rfl

theorem mode_nextRow (s : State) : (nextRow s).mode = s.mode := by
  unfold nextRow
  dsimp only
  split <;> exact mode_endPending _ _ _

theorem mode_closeArray (s : State) : (closeArray s).mode = s.mode := by
  unfold closeArray
  dsimp only
  split <;> exact mode_endPending _ _ _

theorem mode_closeGroup (s : State) : (closeGroup s).mode = s.mode := by
  unfold closeGroup
  dsimp only
  split
  · exact mode_endPending _ _ _
  · split <;> exact mode_endPending _ _ _

theorem ite_mode {mode : Mode} {p : Prop} [Decidable p] {yes no : Next}
    (hyes : p → yes.1.mode ≠ mode) (hno : no.1.mode ≠ mode) : (if p then yes else no).1.mode ≠ mode := by
  split
  · exact hyes ‹_›
  · exact hno

theorem mode_symbol_ne (hmode : s.mode = .ordinary) (hc : c ≠ '#') :
    (symbol c rest s).1.mode ≠ .errorLiteral read := by
  have hs : s.mode ≠ .errorLiteral read := by simp [hmode]
  have hended : s.endOperand.mode ≠ .errorLiteral read := (mode_endPending _ _ _).trans_ne hs
  unfold symbol
  -- One case for each rule, in the order of the rules. The fourth is the one of `#`.
  refine ite_mode (fun _ => by simp) <| ite_mode (fun _ => by simp) <| ite_mode (fun _ => by simp) <|
    ite_mode (fun h => absurd h hc) <| ite_mode (fun _ => ?_) <| ite_mode (fun _ => ?_) <|
    ite_mode (fun _ => ?_) <| ite_mode (fun _ => hended) <| ite_mode (fun _ => hended) <|
    ite_mode (fun _ => hended) <| ite_mode (fun _ => hended) <| ite_mode (fun _ => ?_) <|
    ite_mode (fun _ => ?_) ?_
  · exact (mode_endPending _ _ _).trans_ne hs
  · exact (mode_nextRow s).trans_ne hs
  · exact (mode_closeArray s).trans_ne hs
  · exact hs
  · exact (mode_closeGroup s).trans_ne hs
  · exact (mode_extend s c).trans_ne hs

theorem ordinary_hash (s : State) : ordinary locale '#' rest s = (openErrorLiteral '#' s, 0) := by
  cases locale <;> rfl

/-- Of the ordinary characters, only `#` opens an error literal. -/
theorem ordinary_errorLiteral (hmode : s.mode = .ordinary)
    (h : (ordinary locale c rest s).1.mode = .errorLiteral read) :
    c = '#' ∧ (ordinary locale c rest s).1 = openErrorLiteral '#' s := by
  by_cases hc : c = '#'
  · subst hc
    rw [ordinary_hash]
    exact ⟨rfl, rfl⟩
  · have hs : s.mode ≠ .errorLiteral read := by simp [hmode]
    have hended : s.endOperand.mode ≠ .errorLiteral read := (mode_endPending _ _ _).trans_ne hs
    refine absurd h ?_
    unfold ordinary
    exact ite_mode (fun _ => hended) <| ite_mode (fun _ => hended) <| ite_mode (fun _ => by simp) <|
      mode_symbol_ne hmode hc

/-- An iteration that ends in an error literal goes on with one or opens it. -/
theorem step_errorLiteral (h : (step locale c rest s).1.mode = .errorLiteral read) :
    (∃ before, s.mode = .errorLiteral before ∧ read = before.push c ∧
      (step locale c rest s).1 = { s.take c with mode := .errorLiteral read }) ∨
    ((s.mode = .ordinary ∨ s.mode = .number) ∧ c = '#' ∧
      (step locale c rest s).1 = openErrorLiteral '#' { s with mode := .ordinary }) := by
  unfold step at h ⊢
  cases hmode : s.mode with
  | text =>
    refine absurd h ?_
    rw [hmode]
    exact ite_mode (fun _ => by simp [State.take, hmode]) <|
      ite_mode (fun _ => by simp [hmode]) (by simp [State.emitPending, State.emit])
  | path =>
    refine absurd h ?_
    rw [hmode]
    exact ite_mode (fun _ => by simp [State.take, hmode]) <|
      ite_mode (fun _ => by simp [State.take, hmode]) (by simp [State.take])
  | bracket depth =>
    simp only [hmode, bracket, State.take] at h
    split_ifs at h
  | errorLiteral before =>
    simp only [hmode, errorLiteral] at h ⊢
    split at h
    · rw [mode_endPending] at h
      cases h
    · rename_i hnot
      cases h
      rw [if_neg hnot]
      exact .inl ⟨before, rfl, rfl, rfl⟩
  | number =>
    simp only [hmode] at h ⊢
    split at h
    · rw [State.take, hmode] at h
      cases h
    · rename_i hnot
      rw [if_neg hnot]
      exact .inr ⟨by simp, ordinary_errorLiteral rfl h⟩
  | ordinary =>
    simp only [hmode] at h ⊢
    rw [with_ordinary hmode]
    exact .inr ⟨by simp, ordinary_errorLiteral hmode h⟩

/-- An error literal is opened behind what is pending where that ends in `!`, and on its own otherwise. -/
theorem hashAt_openErrorLiteral (s : State) : (openErrorLiteral '#' { s with mode := .ordinary }).hashAt =
    some (if s.pending.toList.getLast? = some '!' then s.pending.utf8ByteSize else 0) := by
  have hextend : ∀ t : State, State.hashAt { t.extend '#' with mode := .errorLiteral (String.singleton '#') } =
      some t.pending.utf8ByteSize := by
    intro t
    simp only [State.hashAt, pending_extend, String.utf8ByteSize_push, String.utf8ByteSize_singleton,
      Nat.add_sub_cancel]
  rw [openErrorLiteral]
  dsimp only
  split
  · exact hextend _
  · refine (hextend _).trans ?_
    rw [(idle_endStray (s := { s with mode := .ordinary }) rfl).2]
    rfl

theorem pending_openErrorLiteral (s : State) :
    ∃ front, (openErrorLiteral '#' s).pending = front ++ String.singleton '#' := by
  rw [openErrorLiteral]
  dsimp only
  rw [pending_extend, String.push_eq_append]
  exact ⟨_, rfl⟩

end

section

variable {locale : Locale} {formula : String} {s : State} {unread : List Char} {read : String}

/-- What is read of an error literal ends the pending text and starts with `#`. -/
theorem Reached.errorLiteral (h : Reached locale formula s unread) (hmode : s.mode = .errorLiteral read) :
    ∃ front, s.pending = front ++ read ∧ read.toList.head? = some '#' := by
  induction h generalizing read with
  | start => cases hmode
  | @next s c rest _ ih =>
    rcases step_errorLiteral hmode with ⟨before, hbefore, rfl, hstep⟩ | ⟨-, -, hstep⟩
    · obtain ⟨front, hpending, hhead⟩ := ih hbefore
      refine ⟨front, ?_, ?_⟩
      · rw [hstep]
        show s.pending.push c = front ++ before.push c
        rw [hpending, String.push_eq_append, String.push_eq_append, String.append_assoc]
      · rw [String.toList_push, List.head?_append, hhead]
        rfl
    · rw [hstep] at hmode ⊢
      cases hmode
      obtain ⟨front, hpending⟩ := pending_openErrorLiteral { s with mode := .ordinary }
      exact ⟨front, hpending, rfl⟩

/-- A run goes on from each of its states. -/
theorem Reached.run_eq (h : Reached locale formula s unread) :
    run locale (body formula.toList) (.initial (leadSize formula)) = run locale unread s := by
  induction h with
  | start => rfl
  | next _ ih => rw [ih, run]

theorem Reached.paired (h : Reached locale formula s unread) : Paired s.openings :=
  h.moves.2.preserves (fun s _ => Paired s.openings) Move.paired .nil

end

/-! ## States and iterations -/

/-- How the parts of a state agree with each other and with the formula, in front of what is unread. -/
structure Coherent (formula : String) (s : State) (unread : List Char) : Prop where
  /-- The offset is between two characters, and what is unread starts there. -/
  boundary : String.Pos.Raw.IsValid formula ⟨s.offset⟩
  within : s.offset ≤ formula.utf8ByteSize
  ahead : Text.slice formula s.offset formula.utf8ByteSize = String.ofList unread
  /-- Outside a text, what is pending stands in front of the offset. -/
  word : s.mode ≠ .text → s.pending ≠ "" →
    Text.slice formula s.pendingStart s.offset = s.pending
  /-- Inside a text, what is pending stands there with its quotes doubled, behind the opening quote. -/
  text : s.mode = .text → Text.slice formula s.pendingStart (s.pendingStart + 1) = "\"" ∧
    Text.slice formula (s.pendingStart + 1) s.offset =
      String.ofList (Text.doubled '"' s.pending.toList) ∧
    String.ofList (Text.undoubled '"' (Text.slice formula (s.pendingStart + 1) s.offset).toList) =
      s.pending
  /-- An error literal is read from its `#` to the end of what is pending. -/
  errorLiteral : ∀ read, s.mode = .errorLiteral read → ∃ place, s.hashAt = some place ∧
    Text.slice s.pending place (place + 1) = "#" ∧
    Text.slice s.pending place s.pending.utf8ByteSize = read
  /-- Directly below a row is its array. -/
  row : ∀ inner array outer, s.openings = inner ++ .arrayRow array :: outer →
    outer.head? = some (.array array)
  /-- Directly on top of an array is a row of it. -/
  array : ∀ inner array outer, s.openings = inner ++ .array array :: outer →
    inner.getLast? = some (.arrayRow array)

/-- How an iteration moves on. -/
structure Advances (s next : State) : Prop where
  offset : s.offset < next.offset
  /-- An error literal is opened behind what is pending, or on its own. -/
  opened : ∀ place, s.hashAt = none → next.hashAt = some place →
    place = if s.pending.toList.getLast? = some '!' then s.pending.utf8ByteSize else 0
  /-- Its place stays while it is read. -/
  kept : ∀ place place', s.hashAt = some place → next.hashAt = some place' → place' = place

section

variable {locale : Locale} {formula : String} {s : State} {c : Char} {unread rest : List Char}

/-- What is unread is the rest of the formula. -/
theorem Reached.covers_unread (h : Reached locale formula s unread) :
    Covers formula.toList s.offset formula.utf8ByteSize unread := by
  have htaken : Tracks locale formula.toList s (unread ++ []) := by
    rw [List.append_nil]
    exact h.tracks
  rw [← String.utf8Len_toList, ← h.tracks.size]
  exact htaken.covers_taken

theorem Reached.coherent (h : Reached locale formula s unread) : Coherent formula s unread := by
  obtain ⟨hwithin, -, hboundary, -⟩ := Formula.boundaries_of_covers h.covers_unread
  refine ⟨hboundary, hwithin, slice_of_covers h.covers_unread, fun hmode hpending => ?_,
    fun hmode => ?_, fun read hmode => ?_, fun _ _ _ => h.paired.below_row,
    fun _ _ _ => h.paired.above_array⟩
  · have hcovers := h.tracks.covers_part (mt (part_eq_nil hmode).1 (by simpa using hpending))
    rw [part_of_word hmode] at hcovers
    rw [slice_of_covers hcovers, String.ofList_toList]
  · have hcovers := h.tracks.covers_part (by simp [part_of_text hmode])
    rw [part_of_text hmode] at hcovers
    obtain ⟨hquote, hbody⟩ :=
      covers_append (show Covers _ _ _ (['"'] ++ Text.doubled '"' s.pending.toList) from hcovers)
    have hslice : Text.slice formula (s.pendingStart + 1) s.offset =
        String.ofList (Text.doubled '"' s.pending.toList) := slice_of_covers hbody
    refine ⟨slice_of_covers hquote, hslice, ?_⟩
    rw [hslice, String.toList_ofList, Text.undoubled_doubled, String.ofList_toList]
  · obtain ⟨front, hpending, hhead⟩ := h.errorLiteral hmode
    obtain ⟨more, hread⟩ := List.head?_eq_some_iff.1 hhead
    have hsize : s.pending.utf8ByteSize = front.utf8ByteSize + read.utf8ByteSize := by
      rw [hpending, String.utf8ByteSize_append]
    have hcovers : Covers s.pending.toList front.utf8ByteSize s.pending.utf8ByteSize read.toList := by
      refine ⟨front.toList, [], ?_, (String.utf8Len_toList _).symm, ?_⟩
      · rw [hpending, String.toList_append, List.append_nil]
      · rw [hsize, String.utf8Len_toList, String.utf8Len_toList]
    refine ⟨front.utf8ByteSize, hashAt_eq_some_iff.2 ⟨read, hmode, ?_⟩, ?_, ?_⟩
    · rw [hsize, Nat.add_sub_cancel]
    · rw [hread] at hcovers
      exact slice_of_covers (covers_append (show Covers _ _ _ (['#'] ++ more) from hcovers)).1
    · rw [slice_of_covers hcovers, String.ofList_toList]

theorem Reached.advances (h : Reached locale formula s (c :: rest)) :
    Advances s (step locale c rest s).1 := by
  refine ⟨?_, fun place hnone hplace => ?_, fun place place' hplace hplace' => ?_⟩
  · have hsize := h.tracks.size
    have hnext := h.next.tracks.size
    have hrest : utf8Len (rest.drop (step locale c rest s).2) ≤ utf8Len rest :=
      String.utf8Len_le_of_suffix (List.drop_suffix _ _)
    have hc := c.utf8Size_pos
    rw [String.utf8Len_cons] at hsize
    omega
  · obtain ⟨read, hmode, -⟩ := hashAt_eq_some_iff.1 hplace
    rcases step_errorLiteral hmode with ⟨before, hbefore, -⟩ | ⟨-, -, hstep⟩
    · rw [State.hashAt, hbefore] at hnone
      cases hnone
    · rw [hstep, hashAt_openErrorLiteral] at hplace
      exact (Option.some.inj hplace).symm
  · obtain ⟨read, hmode, rfl⟩ := hashAt_eq_some_iff.1 hplace'
    obtain ⟨read', hmode', rfl⟩ := hashAt_eq_some_iff.1 hplace
    rcases step_errorLiteral hmode with ⟨before, hbefore, rfl, hstep⟩ | ⟨hmode, -⟩
    · obtain rfl : before = read' := by simpa [hbefore] using hmode'
      rw [hstep]
      show (s.pending.push c).utf8ByteSize - (before.push c).utf8ByteSize = _
      rw [String.utf8ByteSize_push, String.utf8ByteSize_push, Nat.add_sub_add_right]
    · rcases hmode with hmode | hmode <;> rw [hmode] at hmode' <;> cases hmode'

end

end Scan

/-! ## Main statement -/

namespace Formula

open Scan (State Reached Coherent Advances)

/-- Between any two iterations of a scan its parts agree with each other and with the formula, the run
goes on from there, and the next iteration moves on. -/
theorem states_coherent {locale : Locale} {formula : String} {s : State} {unread : List Char}
    (h : Reached locale formula s unread) : Coherent formula s unread ∧
      Scan.run locale (Scan.body formula.toList) (.initial (Scan.leadSize formula)) =
        Scan.run locale unread s ∧
      ∀ c rest, unread = c :: rest → Advances s (Scan.step locale c rest s).1 := by
  refine ⟨h.coherent, h.run_eq, ?_⟩
  rintro c rest rfl
  exact h.advances

/-- Inside a row, the error literal that is read behind the name of a sheet starts at its fourth byte. -/
theorem states_coherent_sheet : ∃ s, Reached .enUS "=\x7bé!#N" s ['N'] ∧
    s.openings = [.arrayRow 1, .array 1] ∧ s.hashAt = some 3 ∧ Coherent "=\x7bé!#N" s ['N'] ∧
    Scan.run .enUS (Scan.body "=\x7bé!#N".toList) (.initial (Scan.leadSize "=\x7bé!#N")) =
      Scan.run .enUS ['N'] s ∧
    Advances s (Scan.step .enUS 'N' [] s).1 := by
  have hstart : Reached .enUS "=\x7bé!#N" (.initial 1) ['\x7b', 'é', '!', '#', 'N'] := .start
  have hreached : Reached .enUS "=\x7bé!#N"
      ⟨#[⟨"ARRAY", .function, .start, 1, 2⟩, ⟨"ARRAYROW", .function, .start, 2, 2⟩],
        [.arrayRow 1, .array 1], 6, "é!#", 2, .errorLiteral "#", none⟩ ['N'] :=
    hstart.next.next.next.next
  obtain ⟨hcoherent, hrun, hadvances⟩ := states_coherent hreached
  exact ⟨_, hreached, rfl, rfl, hcoherent, hrun, hadvances _ _ rfl⟩

end Formula

end SheetFormula
