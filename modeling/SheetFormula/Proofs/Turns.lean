import SheetFormula.Proofs.Additions
import SheetFormula.Proofs.Framing

/-!
# The turns of a scan

Main statement: `exists_turn`, that a scan without a fault and without tokens of unknown kind gets
over its text in turns.

1. A `Turn` reads a part of the text between two states that stand between two tokens. What it leads
   to depends on the part and on the first character behind it only: it stays the same in front of
   every text that starts with a character of which `Ahead` holds.
2. The tokens of a turn lie in its part, from one end of it to the other or at one of its ends.
-/

namespace SheetFormula.Scan

open String (utf8Len)
open Token (Throughout throughout_cons throughout_nil)

/-! ## What stays -/

section

variable {locale : Locale} {s s' : State} {text unread unread' : List Char}

theorem grows_mark (s : State) (value : String) (kind : Token.Kind) (subkind : Token.Subkind)
    (width : Nat) : s.tokens.toList <+: (s.mark value kind subkind width).tokens.toList :=
  ⟨_, (toList_mark s value kind subkind width).symm⟩

theorem grows_endPending (s : State) (kind : Token.Kind) (subkind : Token.Subkind) :
    s.tokens.toList <+: (s.endPending kind subkind).tokens.toList := by
  unfold State.endPending
  split
  · exact List.prefix_rfl
  · exact ⟨_, Array.toList_push.symm⟩

/-- A scan keeps its tokens. -/
theorem grows_through (hready : Ready s) :
    s.tokens.toList <+: (through locale text s).tokens.toList := by
  have hrun : s.tokens.toList <+: (run locale text s).tokens.toList :=
    (run_moves text hready).preserves (fun s' _ => s.tokens.toList <+: s'.tokens.toList)
      (fun hmove h => h.trans hmove.grows) List.prefix_rfl
  refine hrun.trans ?_
  rw [through, tokens_finish]
  generalize run locale text s = ended
  unfold finishToken
  cases ended.mode with
  | text => exact ⟨_, Array.toList_push.symm⟩
  | path | bracket | errorLiteral => exact grows_endPending (ended.note _) _ _
  | number | ordinary => exact grows_endPending ended _ _

/-- A scan keeps a fault. -/
theorem fault_of_through (hready : Ready s) (h : (through locale text s).fault = none) :
    s.fault = none := by
  obtain ⟨-, hrun, -⟩ := (fault_finish_iff _).1 h
  by_contra hnoted
  exact (run_moves text hready).preserves (fun s _ => s.fault ≠ none)
    (fun hmove h hfault => h (hmove.fault hfault)) hnoted hrun

end

/-! ## Turns -/

/-- Whether a token among others of one turn lies at the ends of a span. Where it starts an operand or
is a binary operator, it is the first one, or a row at the end. -/
structure Sited (first last : Nat) (before : List Token) (raw : Token) (after : List Token) : Prop where
  start : raw.start = first ∨ raw.start = last
  stop : raw.stop = first ∨ raw.stop = last
  leads : raw.startsValue || raw.isInfixOp →
    before = [] ∧ raw.start = first ∨ after = [] ∧ raw.start = last ∧ raw.opensBracket

/-- What is read from one state between two tokens to the next one. -/
structure Turn (locale : Locale) (s : State) (part : List Char) (Ahead : Option Char → Prop)
    (added : List Token) (s' : State) : Prop where
  idle : Idle s'
  nested : Nested s.openings → Nested s'.openings
  offset : s'.offset = s.offset + utf8Len part
  tokens : s'.tokens.toList = s.tokens.toList ++ added
  reads : ∀ rest, Ahead rest.head? → through locale (part ++ rest) s = through locale rest s'
  sited : Throughout (Sited s.offset s'.offset) added
  /-- White space is taken as a whole, and stands as well behind everything else. -/
  spaced : (∃ raw, added = [raw] ∧ raw.kind = .whitespace ∧ (∀ c ∈ part, isGap c) ∧
      ∀ c, Ahead (some c) → isGap c = false) ∨
    (∀ raw ∈ added, raw.kind ≠ .whitespace) ∧ ∀ c, isGap c → Ahead (some c)
  /-- A sign stands behind everything but an operand. -/
  signed : (∀ raw ∈ added.getLast?, raw.kind ≠ .operand) → Ahead (some '+')

/-- Whether a scan starts with a turn. -/
def Turns (locale : Locale) (s : State) (text : List Char) : Prop :=
  ∃ part back Ahead added s', text = part ++ back ∧ part ≠ [] ∧ added ≠ [] ∧ Ahead back.head? ∧
    Turn locale s part Ahead added s'

section

variable {locale : Locale} {s s' : State} {c : Char} {rest part tail text : List Char}
  {Ahead : Option Char → Prop} {raw : Token} {first last : Nat}

theorem sited_single (hstart : raw.start = first) (hstop : raw.stop = last) :
    Throughout (Sited first last) [raw] :=
  throughout_cons.2 ⟨⟨.inl hstart, .inr hstop, fun _ => .inl ⟨rfl, hstart⟩⟩, throughout_nil⟩

theorem turns_of_turn {back : List Char} {added : List Token} (h : Turn locale s part Ahead added s')
    (htext : text = part ++ back) (hpart : part ≠ []) (hadded : added ≠ []) (hback : Ahead back.head?) :
    Turns locale s text := ⟨part, back, Ahead, added, s', htext, hpart, hadded, hback, h⟩

/-- One token that is no white space. -/
theorem turn_single (hidle : Idle s') (hnested : Nested s.openings → Nested s'.openings)
    (hoffset : s'.offset = s.offset + utf8Len part)
    (htokens : s'.tokens.toList = s.tokens.toList ++ [raw]) (hstart : raw.start = s.offset)
    (hstop : raw.stop = s'.offset) (hkind : raw.kind ≠ .whitespace)
    (hreads : ∀ rest, Ahead rest.head? → through locale (part ++ rest) s = through locale rest s')
    (hspaced : ∀ c, isGap c → Ahead (some c)) (hsigned : raw.kind ≠ .operand → Ahead (some '+')) :
    Turn locale s part Ahead [raw] s' where
  idle := hidle
  nested := hnested
  offset := hoffset
  tokens := htokens
  reads := hreads
  sited := sited_single hstart hstop
  spaced := .inr ⟨by simpa using hkind, hspaced⟩
  signed h := hsigned (h raw rfl)

theorem reads_of_step (hstep : ∀ rest : List Char, Ahead rest.head? →
    step locale c (tail ++ rest) s = (s', tail.length)) (rest : List Char) (h : Ahead rest.head?) :
    through locale (c :: tail ++ rest) s = through locale rest s' := by
  rw [List.cons_append, through_cons, hstep rest h, List.drop_left]

/-- A token that covers the part, in a state between two tokens. -/
theorem turn_mark {value : String} {kind : Token.Kind} {subkind : Token.Subkind} {width : Nat}
    {openings : List Opening} (hidle : Idle s) (hnested : Nested s.openings → Nested openings)
    (hwidth : width = utf8Len (c :: tail)) (hkind : kind ≠ .whitespace)
    (hstep : ∀ rest : List Char, Ahead rest.head? → step locale c (tail ++ rest) s =
      ({ s with openings := openings }.mark value kind subkind width, tail.length))
    (hspaced : ∀ c, isGap c → Ahead (some c)) (hsigned : kind ≠ .operand → Ahead (some '+')) :
    Turn locale s (c :: tail) Ahead [⟨value, kind, subkind, s.offset, s.offset + width⟩]
      ({ s with openings := openings }.mark value kind subkind width) :=
  turn_single hidle hnested (congrArg (s.offset + ·) hwidth) Array.toList_push rfl rfl hkind
    (reads_of_step hstep) hspaced hsigned

theorem turn_gap (hidle : Idle s) (hc : isGap c) (hgaps : ∀ d ∈ tail, isGap d) :
    Turn locale s (c :: tail) (fun head => ∀ d ∈ head, isGap d = false)
      [⟨" ", .whitespace, .unspecified, s.offset, s.offset + (1 + tail.length)⟩]
      (s.mark " " .whitespace .unspecified (1 + tail.length)) where
  idle := hidle
  nested := id
  offset := by
    rw [utf8Len_gaps (List.forall_mem_cons.2 ⟨hc, hgaps⟩), List.length_cons, Nat.add_comm _ 1]
    rfl
  tokens := Array.toList_push
  reads rest hrest := by
    rw [List.cons_append, through_cons, step_gap hidle hc hgaps hrest, List.drop_left]
  sited := sited_single rfl rfl
  spaced := .inl ⟨_, rfl, rfl, List.forall_mem_cons.2 ⟨hc, hgaps⟩, fun d h => h d rfl⟩
  signed _ d hd := by cases hd; rfl

/-! ### Symbols -/

theorem isGap_iff : isGap c ↔ c = ' ' ∨ c = '\n' := by simp [isGap]

/-- A symbol that is a token by itself, whatever follows. -/
theorem turn_symbol {value : String} {kind : Token.Kind} {subkind : Token.Subkind}
    {openings : List Opening} (hidle : Idle s) (hnested : Nested s.openings → Nested openings)
    (hc : utf8Len [c] = 1) (hkind : kind ≠ .whitespace)
    (hstep : ∀ rest, step locale c rest s =
      ({ s with openings := openings }.mark value kind subkind 1, 0)) :
    Turn locale s [c] (fun _ => True) [⟨value, kind, subkind, s.offset, s.offset + 1⟩]
      ({ s with openings := openings }.mark value kind subkind 1) :=
  turn_mark hidle hnested hc.symm hkind (fun rest _ => hstep rest) (fun _ _ => trivial)
    fun _ => trivial

theorem turn_sign (hidle : Idle s) (hc : c ∈ ['+', '-', '*', '/', '^', '&', '=', '>', '<']) :
    Turn locale s [c] (fun head => isComparison c head = false)
      [⟨String.singleton c, .infixOp, .unspecified, s.offset, s.offset + 1⟩]
      (s.mark (String.singleton c) .infixOp .unspecified 1) := by
  have hsize : ∀ d ∈ ['+', '-', '*', '/', '^', '&', '=', '>', '<'], utf8Len [d] = 1 := by
    simp only [List.forall_mem_cons]
    exact ⟨rfl, rfl, rfl, rfl, rfl, rfl, rfl, rfl, rfl, by simp⟩
  refine turn_mark hidle id (hsize c hc).symm (by simp) (fun rest h => step_sign hidle hc h) ?_
    fun _ => by simp [isComparison]
  intro d hd
  rcases isGap_iff.1 hd with rfl | rfl <;> simp [isComparison]

theorem turn_comparison {d : Char} (hidle : Idle s) (h : isComparison c (some d)) :
    Turn locale s [c, d] (fun _ => True)
      [⟨String.ofList [c, d], .infixOp, .logical, s.offset, s.offset + 2⟩]
      (s.mark (String.ofList [c, d]) .infixOp .logical 2) := by
  have hsize : 2 = utf8Len [c, d] := by
    simp only [isComparison, Bool.or_eq_true, Bool.and_eq_true, beq_iff_eq, Option.some.injEq] at h
    rcases h with ⟨rfl, rfl⟩ | ⟨rfl, rfl | rfl⟩ <;> rfl
  exact turn_mark hidle id hsize (by simp) (fun rest _ => step_comparison hidle h)
    (fun _ _ => trivial) fun _ => trivial

/-! ### Brackets -/

/-- A word of which these characters are read, or none. -/
structure Reading (locale : Locale) (s : State) (word : List Char) (t : State) : Prop where
  mode : t.mode = .ordinary ∨ t.mode = .number
  tokens : t.tokens = s.tokens
  openings : t.openings = s.openings
  offset : t.offset = s.offset + utf8Len word
  start : t.pending ≠ "" → t.pendingStart = s.offset
  fresh : t.pending = "" → word = []
  reads : ∀ rest, Stops rest → through locale (word ++ rest) s = through locale rest t

theorem reading_nil (hidle : Idle s) : Reading locale s [] s :=
  ⟨.inl hidle.1, rfl, rfl, rfl, fun h => absurd hidle.2 h, fun _ => rfl, fun _ _ => rfl⟩

/-- A word, or nothing, in front of an opening parenthesis. -/
theorem Reading.turn_open {t : State} (h : Reading locale s part t) :
    ∃ raw, Turn locale s (part ++ ['(']) (fun _ => True) [raw]
      (openGroup { t with mode := .ordinary }) := by
  have hreads : ∀ rest, through locale (part ++ ['('] ++ rest) s =
      through locale rest (openGroup { t with mode := .ordinary }) := by
    intro rest
    rw [List.append_assoc, List.singleton_append, h.reads _ (stops_cons (by decide)), through_cons,
      step_openGroup h.mode]
    rfl
  have hend : (openGroup { t with mode := .ordinary }).offset =
      s.offset + utf8Len (part ++ ['(']) := by
    rw [String.utf8Len_append, ← Nat.add_assoc, ← h.offset]
    rfl
  have hpush : ∀ raw, (openGroup { t with mode := .ordinary }).tokens = t.tokens.push raw →
      (openGroup { t with mode := .ordinary }).tokens.toList = s.tokens.toList ++ [raw] := by
    intro raw hraw
    rw [hraw, h.tokens, Array.toList_push]
  have hnested : Nested s.openings → Nested (openGroup { t with mode := .ordinary }).openings := by
    intro hnested
    refine .bracket ?_ (h.openings ▸ hnested)
    split
    · exact .inr rfl
    · exact .inl rfl
  by_cases hp : t.pending = ""
  · refine ⟨⟨"", .subexpr, .start, t.offset, t.offset + 1⟩, turn_single ⟨rfl, rfl⟩ hnested hend
      (hpush _ ?_) ?_ rfl (by simp) (fun rest _ => hreads rest) (fun _ _ => trivial) fun _ => trivial⟩
    · show t.tokens.push (if t.pending.isEmpty then _ else _) = _
      rw [if_pos (String.isEmpty_iff.2 hp)]
    · rw [h.offset, h.fresh hp]
      rfl
  · refine ⟨⟨t.pending, .function, .start, t.pendingStart, t.offset + 1⟩, turn_single ⟨rfl, rfl⟩
      hnested hend (hpush _ ?_) (h.start hp) rfl (by simp) (fun rest _ => hreads rest)
      (fun _ _ => trivial) fun _ => trivial⟩
    show t.tokens.push (if t.pending.isEmpty then _ else _) = _
    rw [if_neg (by simpa [String.isEmpty_iff] using hp)]

theorem turn_openArray (hidle : Idle s) :
    Turn locale s ['\x7b'] (fun _ => True)
      [⟨Token.arrayName, .function, .start, s.offset, s.offset + 1⟩,
        ⟨Token.arrayRowName, .function, .start, s.offset + 1, s.offset + 1⟩]
      (State.openRow (State.mark { s with openings := .array s.offset :: s.openings }
        Token.arrayName .function .start 1) s.offset) where
  idle := hidle
  nested h := .row h
  offset := rfl
  tokens := by
    rw [toList_openRow, toList_mark, List.append_assoc]
    rfl
  reads rest _ := by
    rw [List.singleton_append, through_cons, step_openArray hidle]
    rfl
  sited := throughout_cons.2 ⟨⟨.inl rfl, .inr rfl, fun _ => .inl ⟨rfl, rfl⟩⟩, throughout_cons.2
    ⟨⟨.inr rfl, .inr rfl, fun _ => .inr ⟨rfl, rfl, rfl⟩⟩, throughout_nil⟩⟩
  spaced := .inr ⟨by simp, fun _ _ => trivial⟩
  signed _ := trivial

theorem turn_nextRow {row : Nat} {outer : List Opening} (hidle : Idle s)
    (h : s.openings = .arrayRow row :: outer) :
    Turn locale s [';'] (fun _ => True)
      [⟨"", .function, .stop, s.offset, s.offset⟩,
        ⟨";", .argument, .unspecified, s.offset, s.offset + 1⟩,
        ⟨Token.arrayRowName, .function, .start, s.offset + 1, s.offset + 1⟩]
      (State.openRow (State.mark (State.mark { s with openings := outer } "" .function .stop 0)
        ";" .argument .unspecified 1) row) where
  idle := hidle
  nested hnested := by
    rw [h] at hnested
    exact hnested
  offset := rfl
  tokens := by
    rw [toList_openRow, toList_mark, toList_mark, List.append_assoc, List.append_assoc]
    rfl
  reads rest _ := by
    rw [List.singleton_append, through_cons, step_nextRow hidle h]
    rfl
  sited := throughout_cons.2 ⟨⟨.inl rfl, .inl rfl, nofun⟩, throughout_cons.2
    ⟨⟨.inl rfl, .inr rfl, nofun⟩, throughout_cons.2
      ⟨⟨.inr rfl, .inr rfl, fun _ => .inr ⟨rfl, rfl, rfl⟩⟩, throughout_nil⟩⟩⟩
  spaced := .inr ⟨by simp, fun _ _ => trivial⟩
  signed _ := trivial

theorem turn_closeArray {row array : Nat} {outer : List Opening} (hidle : Idle s)
    (h : s.openings = .arrayRow row :: .array array :: outer) :
    Turn locale s ['\x7d'] (fun _ => True)
      [⟨"", .function, .stop, s.offset, s.offset⟩, ⟨"", .function, .stop, s.offset, s.offset + 1⟩]
      (State.mark (State.mark { s with openings := outer } "" .function .stop 0)
        "" .function .stop 1) where
  idle := hidle
  nested hnested := by
    rw [h] at hnested
    cases hnested
    assumption
  offset := rfl
  tokens := by
    rw [toList_mark, toList_mark, List.append_assoc]
    rfl
  reads rest _ := by
    rw [List.singleton_append, through_cons, step_closeArray hidle h]
    rfl
  sited := throughout_cons.2 ⟨⟨.inl rfl, .inl rfl, nofun⟩, throughout_cons.2
    ⟨⟨.inl rfl, .inr rfl, nofun⟩, throughout_nil⟩⟩
  spaced := .inr ⟨by simp, fun _ _ => trivial⟩
  signed _ := trivial

end

/-! ## Operands -/

/-- What completes an operand of which a part is read. -/
structure Completes (locale : Locale) (s : State) (part : List Char) (Ahead : Option Char → Prop)
    (s' : State) : Prop where
  idle : Idle s'
  openings : s'.openings = s.openings
  offset : s'.offset = s.offset + utf8Len part
  tokens : ∃ value subkind,
    s'.tokens = s.tokens.push ⟨value, .operand, subkind, s.pendingStart, s'.offset⟩
  reads : ∀ rest, Ahead rest.head? → through locale (part ++ rest) s = through locale rest s'

section

variable {locale : Locale} {s s' t : State} {c : Char} {front part text word : List Char}
  {Ahead : Option Char → Prop}

/-- More of the operand is read. -/
theorem Completes.behind (h : Completes locale t part Ahead s')
    (hreads : ∀ rest, through locale (front ++ rest) s = through locale rest t)
    (htokens : t.tokens = s.tokens) (hopenings : t.openings = s.openings)
    (hoffset : t.offset = s.offset + utf8Len front) (hstart : t.pendingStart = s.pendingStart) :
    Completes locale s (front ++ part) Ahead s' where
  idle := h.idle
  openings := h.openings.trans hopenings
  offset := by rw [h.offset, hoffset, String.utf8Len_append, Nat.add_assoc]
  tokens := by
    rw [← htokens, ← hstart]
    exact h.tokens
  reads rest hrest := by rw [List.append_assoc, hreads, h.reads rest hrest]

/-- The operand is read from its first character on. -/
theorem Completes.turn (h : Completes locale t part Ahead s')
    (hreads : ∀ rest, Ahead rest.head? →
      through locale (front ++ (part ++ rest)) s = through locale (part ++ rest) t)
    (htokens : t.tokens = s.tokens) (hopenings : t.openings = s.openings)
    (hoffset : t.offset = s.offset + utf8Len front) (hstart : t.pendingStart = s.offset)
    (hspaced : ∀ c, isGap c → Ahead (some c)) :
    ∃ raw, Turn locale s (front ++ part) Ahead [raw] s' := by
  obtain ⟨value, subkind, hpush⟩ := h.tokens
  refine ⟨⟨value, .operand, subkind, t.pendingStart, s'.offset⟩,
    turn_single h.idle ?_ ?_ ?_ hstart rfl (by simp) ?_ hspaced (absurd rfl)⟩
  · rw [h.openings, hopenings]
    exact id
  · rw [h.offset, hoffset, String.utf8Len_append, Nat.add_assoc]
  · rw [hpush, htokens, Array.toList_push]
  · intro rest hrest
    rw [List.append_assoc, hreads rest hrest, h.reads rest hrest]

/-- A text without a fault has an end. -/
theorem exists_text (hmode : s.mode = .text) (hfault : (through locale text s).fault = none) :
    ∃ part back s', text = part ++ back ∧ back.head? ≠ some '"' ∧
      Completes locale s part (· ≠ some '"') s' := by
  induction hn : text.length using Nat.strongRecOn generalizing text s with
  | _ n ih =>
    cases text with
    | nil =>
      obtain ⟨hended, -⟩ := (fault_finish_iff _).1 hfault
      rw [run, hmode] at hended
      simp at hended
    | cons c rest =>
      have hstep : ∀ rest, step locale c rest s = Scan.text c rest s := by
        intro rest
        rw [step, hmode]
      rw [through_cons, hstep] at hfault
      by_cases hc : c = '"'
      · subst hc
        by_cases hpair : rest.head? = some '"'
        · obtain ⟨rest, rfl⟩ := List.head?_eq_some_iff.1 hpair
          have hnext : State.mode { s with pending := s.pending.push '"', offset := s.offset + 2 } =
            .text := hmode
          obtain ⟨part, back, s', rfl, hback, hcompletes⟩ :=
            ih rest.length (by rw [← hn, List.length_cons, List.length_cons]; omega) hnext hfault rfl
          refine ⟨['"', '"'] ++ part, back, s', rfl, hback, hcompletes.behind (fun rest => ?_) rfl rfl
            rfl rfl⟩
          show through locale ('"' :: '"' :: rest) s = _
          rw [through_cons, hstep]
          rfl
        · refine ⟨['"'], rest, State.emitPending { s with offset := s.offset + 1, mode := .ordinary }
            .operand .text, rfl, hpair, ⟨rfl, rfl⟩, rfl, rfl, ⟨_, _, rfl⟩, fun rest hrest => ?_⟩
          rw [List.singleton_append, through_cons, hstep, Scan.text, if_neg (by simp), if_neg hrest]
          rfl
      · rw [Scan.text, if_pos hc] at hfault
        have hnext : (s.take c).mode = .text := hmode
        obtain ⟨part, back, s', rfl, hback, hcompletes⟩ :=
          ih rest.length (by simp [← hn]) hnext hfault rfl
        refine ⟨[c] ++ part, back, s', rfl, hback, hcompletes.behind (fun rest => ?_) rfl rfl
          (by simp [State.take]) rfl⟩
        rw [List.singleton_append, through_cons, hstep, Scan.text, if_pos hc]
        rfl

/-- An error literal without a fault has an end. -/
theorem exists_errorLiteral {read : String} (hmode : s.mode = .errorLiteral read)
    (hfault : (through locale text s).fault = none) :
    ∃ part back s', text = part ++ back ∧ Completes locale s part (fun _ => True) s' := by
  induction text generalizing s read with
  | nil =>
    obtain ⟨hended, -⟩ := (fault_finish_iff _).1 hfault
    rw [run, hmode] at hended
    simp at hended
  | cons c rest ih =>
    have hstep : ∀ rest, step locale c rest s = errorLiteral read c s := by
      intro rest
      rw [step, hmode]
    by_cases hcomplete : read.push c ∈ errorLiterals
    · have hended : errorLiteral read c s =
          (State.emitPending { s.take c with mode := .ordinary } .operand .error, 0) := by
        simp only [errorLiteral, if_pos hcomplete]
        rw [endPending_of_ne (by simp [State.take])]
      refine ⟨[c], rest, State.emitPending { s.take c with mode := .ordinary } .operand .error, rfl,
        ⟨rfl, rfl⟩, rfl, by simp [State.emitPending, State.emit, State.take], ⟨_, _, rfl⟩,
        fun rest _ => ?_⟩
      rw [List.singleton_append, through_cons, hstep, hended]
      rfl
    · have hmore : errorLiteral read c s =
          ({ s.take c with mode := .errorLiteral (read.push c) }, 0) := by
        simp only [errorLiteral, if_neg hcomplete]
      rw [through_cons, hstep, hmore] at hfault
      obtain ⟨part, back, s', rfl, hcompletes⟩ := ih rfl hfault
      refine ⟨[c] ++ part, back, s', rfl, hcompletes.behind (fun rest => ?_) rfl rfl
        (by simp [State.take]) rfl⟩
      rw [List.singleton_append, through_cons, hstep, hmore]
      rfl

/-- A text, from its first quote on. -/
theorem turns_text {rest : List Char} (hidle : Idle s)
    (hfault : (through locale ('"' :: rest) s).fault = none) : Turns locale s ('"' :: rest) := by
  have hstep : ∀ rest, through locale ('"' :: rest) s = through locale rest (startText s) := by
    intro rest
    rw [through_cons, step_symbol (.inl hidle.1) (by decide), with_ordinary hidle.1]
    rfl
  rw [hstep] at hfault
  obtain ⟨part, back, s', rfl, hback, hcompletes⟩ := exists_text rfl hfault
  have hstart : startText s = { s with pendingStart := s.offset, offset := s.offset + 1, mode := .text } := by
    rw [startText, hidle.endStray]
  obtain ⟨raw, hturn⟩ : ∃ raw, Turn locale s (['"'] ++ part) (· ≠ some '"') [raw] s' :=
    hcompletes.turn (fun rest _ => hstep (part ++ rest)) (by rw [hstart]) (by rw [hstart])
      (by rw [hstart]; rfl) (by rw [hstart]) (by rintro c hc ⟨⟩; cases hc)
  exact turns_of_turn hturn rfl (by simp) (by simp) hback

/-! ### Words -/

/-- Every text starts with a longest word. -/
theorem exists_absorbs (locale : Locale) (text before : List Char) {mode : Mode}
    (hmode : ¬ InLiteral mode) : ∃ word back last, text = word ++ back ∧
      absorbs locale before mode word back = some last ∧ ¬ InLiteral last ∧
      ∀ c rest, back = c :: rest → absorb locale last (String.ofList (before ++ word)) c rest = none := by
  induction text generalizing before mode with
  | nil => exact ⟨[], [], mode, rfl, rfl, hmode, by simp⟩
  | cons c rest ih =>
    cases hnext : absorb locale mode (String.ofList before) c rest with
    | none =>
      refine ⟨[], c :: rest, mode, rfl, rfl, hmode, fun d rest' h => ?_⟩
      cases h
      rwa [List.append_nil]
    | some next =>
      obtain ⟨word, back, last, rfl, habsorbs, hlast, hends⟩ :=
        ih (before ++ [c]) (not_inLiteral_of_absorb hnext).2
      refine ⟨c :: word, back, last, rfl, ?_, hlast, ?_⟩
      · rw [absorbs, hnext, Option.bind_some, habsorbs]
      · rwa [List.append_assoc] at hends

/-- A word without a fault has an end, and is read alike in front of everything that ends it. -/
theorem exists_word {rest : List Char} (hidle : Idle s) (hc : endsWord c = false)
    (hfault : (through locale (c :: rest) s).fault = none) :
    ∃ word back last, c :: rest = word ++ back ∧ word ≠ [] ∧
      (∀ d ∈ back.head?, endsWord d ∧
        (last = .number → continuesNumber locale d (String.ofList word) = false)) ∧
      Reading locale s word (s.swallow word last) := by
  obtain ⟨word, back, last, htext, habsorbs, hlast, hends⟩ :=
    exists_absorbs locale (c :: rest) [] (not_inLiteral (.inl hidle.1))
  rw [List.nil_append] at hends
  have hword : word ≠ [] := by
    rintro rfl
    obtain ⟨next, hnext⟩ : ∃ next, absorb locale s.mode s.pending c rest = some next :=
      absorb_isSome (.inl hidle.1) hc
    have hnone := hends c rest htext.symm
    cases habsorbs
    rw [hidle.2, show "" = String.ofList [] from rfl, hnone] at hnext
    cases hnext
  -- Square brackets and sheet paths take every character, and a fault is noted at their end.
  have hopen : back ≠ [] → last = .ordinary ∨ last = .number := by
    intro hback
    obtain ⟨d, rest', rfl⟩ := List.exists_cons_of_ne_nil hback
    have hnone := hends d rest' rfl
    cases last with
    | ordinary => exact .inl rfl
    | number => exact .inr rfl
    | text => exact absurd (.inl rfl) hlast
    | errorLiteral read => exact absurd (.inr ⟨read, rfl⟩) hlast
    | path | bracket => cases hnone
  have hhead : ∀ d ∈ back.head?, endsWord d ∧
      (last = .number → continuesNumber locale d (String.ofList word) = false) := by
    intro d hd
    obtain ⟨rest', rfl⟩ := List.head?_eq_some_iff.1 hd
    have hnone := hends d rest' rfl
    refine ⟨?_, ?_⟩
    · by_contra hendsWord
      obtain ⟨next, hnext⟩ : ∃ next, absorb locale (s.swallow word last).mode
          (s.swallow word last).pending d rest' = some next :=
        absorb_isSome (hopen (by simp)) (by simpa using hendsWord)
      rw [pending_swallow, hidle.2, String.empty_append, mode_swallow, hnone] at hnext
      cases hnext
    · rintro rfl
      cases hcontinues : continuesNumber locale d (String.ofList word) with
      | false => rfl
      | true => simp [absorb, hcontinues] at hnone
  have hstops : Stops back := fun d hd => (hhead d hd).1
  have hreads : ∀ rest, Stops rest →
      through locale (word ++ rest) s = through locale rest (s.swallow word last) := by
    intro rest hrest
    refine congrArg finish (run_word (.inl hidle.1) hidle.2 ?_ hrest)
    rw [absorbs_of_stops hrest, ← absorbs_of_stops hstops]
    exact habsorbs
  have hpending : (s.swallow word last).pending = String.ofList word := by
    rw [pending_swallow, hidle.2, String.empty_append]
  refine ⟨word, back, last, htext, hword, hhead, ?_, tokens_swallow .., openings_swallow ..,
    offset_swallow .., fun _ => pendingStart_swallow hidle.2 hword, fun h => ?_, hreads⟩
  · rw [mode_swallow]
    by_cases hback : back = []
    · rw [htext, hreads back hstops, hback, through, run] at hfault
      exact ((fault_finish_iff _).1 hfault).1
    · exact hopen hback
  · rw [hpending] at h
    exact absurd h (by simpa using hword)

theorem closes_or_opens (h : endsWord c) :
    (closesWord c ∨ c = '\n') ∨ c = '"' ∨ c = '\x7b' ∨ c = '(' ∨ c = '#' := by
  simp only [endsWord, decide_eq_true_eq, List.mem_cons, List.not_mem_nil, or_false] at h
  rcases h with rfl | rfl | rfl | rfl | rfl | rfl | rfl | rfl | rfl | rfl | rfl | rfl | rfl | rfl | rfl |
    rfl | rfl | rfl | rfl | rfl <;> simp [closesWord]

/-- What may stand behind a word. -/
def behindWord (locale : Locale) (last : Mode) (word : List Char) (head : Option Char) : Prop :=
  ∀ d ∈ head, (closesWord d ∨ d = '\n') ∧
    (last = .number → continuesNumber locale d (String.ofList word) = false)

/-- A word that is no more than a word is an operand. -/
theorem completes_word {last : Mode} (hidle : Idle s) (hword : word ≠ [])
    (hreading : Reading locale s word (s.swallow word last)) :
    Completes locale (s.swallow word last) [] (behindWord locale last word)
      (State.endOperand { s.swallow word last with mode := .ordinary }) := by
  have hpending : (s.swallow word last).pending = String.ofList word := by
    rw [pending_swallow, hidle.2, String.empty_append]
  have hended : State.endOperand { s.swallow word last with mode := .ordinary } =
      State.emitPending { s.swallow word last with mode := .ordinary } .operand .unspecified :=
    endPending_of_ne (by simpa [hpending] using hword)
  refine ⟨idle_endOperand rfl, by rw [hended]; rfl, by rw [hended]; rfl,
    by rw [hended]; exact ⟨_, _, rfl⟩, fun rest hrest => ?_⟩
  rw [List.nil_append]
  refine through_endOperand hreading.mode fun d hd => ?_
  rw [hpending]
  exact hrest d hd

/-- A word in front of a text, of an array or of an error literal is of unknown kind, unless it is the
name of a sheet. -/
theorem exists_unknown {rest : List Char} (hmode : s.mode = .ordinary ∨ s.mode = .number)
    (hp : s.pending ≠ "")
    (hc : c = '"' ∨ c = '\x7b' ∨ c = '#' ∧ s.pending.toList.getLast? ≠ some '!') :
    ∃ raw ∈ (through locale (c :: rest) s).tokens.toList, raw.kind = .unknown := by
  have hstray : State.endStray { s with mode := .ordinary } =
      State.emitPending { s with mode := .ordinary } .unknown .unspecified := endPending_of_ne hp
  have hmem : ∀ {text : List Char} {s' : State}, Ready s' →
      (State.endStray { s with mode := .ordinary }).tokens.toList <+: s'.tokens.toList →
      ∃ raw ∈ (through locale text s').tokens.toList, raw.kind = .unknown := by
    intro text s' hready hgrows
    rw [hstray] at hgrows
    refine ⟨⟨s.pending, .unknown, .unspecified, s.pendingStart, s.offset⟩,
      (hgrows.trans (grows_through hready)).subset ?_, rfl⟩
    exact Array.mem_toList_iff.2 Array.mem_push_self
  rw [through_cons]
  rcases hc with rfl | rfl | ⟨rfl, hsheet⟩
  · rw [step_symbol hmode (by decide)]
    exact hmem (.inr (.inl rfl)) List.prefix_rfl
  · rw [step_symbol hmode (by decide)]
    exact hmem (.inl (idle_endStray rfl).1) ((grows_mark _ _ _ _ _).trans (grows_mark _ _ _ _ _))
  · rw [step_symbol hmode (by decide)]
    show ∃ raw ∈ (through locale rest (openErrorLiteral '#' { s with mode := .ordinary })).tokens.toList, _
    refine hmem (.inr (.inr (by simp [openErrorLiteral]))) ?_
    rw [openErrorLiteral, if_neg hsheet]
    simp

/-- An error literal, with the name of a sheet in front of it or not. -/
theorem Reading.turns_errorLiteral {rest : List Char} (h : Reading locale s front t)
    (hsheet : t.pending = "" ∨ t.pending.toList.getLast? = some '!')
    (hfault : (through locale ('#' :: rest) t).fault = none) :
    Turns locale s (front ++ '#' :: rest) := by
  have hstep : ∀ rest, through locale ('#' :: rest) t =
      through locale rest (openErrorLiteral '#' { t with mode := .ordinary }) := by
    intro rest
    rw [through_cons, step_symbol h.mode (by decide)]
    rfl
  have hreads : ∀ rest, through locale (front ++ ['#'] ++ rest) s =
      through locale rest (openErrorLiteral '#' { t with mode := .ordinary }) := by
    intro rest
    rw [List.append_assoc, List.singleton_append, h.reads _ (stops_cons (by decide)), hstep]
  have hopen : openErrorLiteral '#' { t with mode := .ordinary } =
      { State.extend { t with mode := .ordinary } '#' with mode := .errorLiteral "#" } :=
    openErrorLiteral_eq rfl hsheet
  have hread : (openErrorLiteral '#' { t with mode := .ordinary }).mode = .errorLiteral "#" := by
    rw [hopen]
  have hplace : (openErrorLiteral '#' { t with mode := .ordinary }).offset =
      s.offset + utf8Len (front ++ ['#']) := by
    rw [hopen, String.utf8Len_append, ← Nat.add_assoc, ← h.offset]
    exact offset_extend ..
  have hfirst : (openErrorLiteral '#' { t with mode := .ordinary }).pendingStart = s.offset := by
    rw [hopen]
    refine (pendingStart_extend ..).trans ?_
    by_cases hp : t.pending = ""
    · rw [if_pos (String.isEmpty_iff.2 hp), h.offset, h.fresh hp]
      rfl
    · rw [if_neg (by simpa [String.isEmpty_iff] using hp)]
      exact h.start hp
  rw [hstep] at hfault
  obtain ⟨part, back, s', rfl, hcompletes⟩ := exists_errorLiteral hread hfault
  obtain ⟨raw, hturn⟩ : ∃ raw, Turn locale s (front ++ ['#'] ++ part) (fun _ => True) [raw] s' :=
    hcompletes.turn (fun rest _ => hreads (part ++ rest))
      (by rw [hopen]; exact (tokens_extend ..).trans h.tokens)
      (by rw [hopen]; exact (openings_extend ..).trans h.openings) hplace hfirst fun _ _ => trivial
  have htext : front ++ '#' :: (part ++ back) = front ++ ['#'] ++ part ++ back := by simp
  exact turns_of_turn hturn htext (by simp) (by simp) trivial

/-- What follows a word makes an operand, a call or an error literal of it. -/
theorem turns_word {rest : List Char} (hidle : Idle s) (hc : endsWord c = false)
    (hfault : (through locale (c :: rest) s).fault = none)
    (hknown : ∀ raw ∈ (through locale (c :: rest) s).tokens.toList, raw.kind ≠ .unknown) :
    Turns locale s (c :: rest) := by
  obtain ⟨word, back, last, htext, hword, hhead, hreading⟩ := exists_word hidle hc hfault
  have hpending : (s.swallow word last).pending ≠ "" := fun h => hword (hreading.fresh h)
  have hstops : Stops back := fun d hd => (hhead d hd).1
  rw [htext] at hfault hknown ⊢
  rw [hreading.reads back hstops] at hfault hknown
  have hstray : ∀ d rest', back = d :: rest' → ¬ (d = '"' ∨ d = '\x7b' ∨ d = '#' ∧
      (s.swallow word last).pending.toList.getLast? ≠ some '!') := by
    rintro d rest' rfl hd
    obtain ⟨raw, hraw, hkind⟩ := exists_unknown hreading.mode hpending hd
    exact hknown raw hraw hkind
  -- An operand ends in front of its end or of a character that closes it.
  have hoperand : behindWord locale last word back.head? → Turns locale s (word ++ back) := by
    intro hbehind
    have hended : ∀ rest : List Char, behindWord locale last word rest.head? → Stops rest := by
      intro rest hrest d hd
      rcases (hrest d hd).1 with hcloses | rfl
      · exact endsWord_of_closesWord hcloses
      · rfl
    have hgaps : ∀ c, isGap c → behindWord locale last word (some c) := by
      rintro c hc _ ⟨⟩
      rcases isGap_iff.1 hc with rfl | rfl
      · exact ⟨.inl rfl, fun _ => by cases locale <;> rfl⟩
      · exact ⟨.inr rfl, fun _ => by cases locale <;> rfl⟩
    obtain ⟨raw, hturn⟩ := (completes_word hidle hword hreading).turn
      (fun rest hrest => hreading.reads rest (hended rest hrest)) hreading.tokens hreading.openings
      hreading.offset (hreading.start hpending) hgaps
    rw [List.append_nil] at hturn
    exact turns_of_turn hturn rfl hword (by simp) hbehind
  cases back with
  | nil => exact hoperand (fun _ h => by cases h)
  | cons d rest' =>
    obtain ⟨hends, hnumber⟩ := hhead d rfl
    rcases closes_or_opens hends with hcloses | rfl | rfl | rfl | rfl
    · refine hoperand ?_
      rintro _ ⟨⟩
      exact ⟨hcloses, hnumber⟩
    · exact absurd (.inl rfl) (hstray _ _ rfl)
    · exact absurd (.inr (.inl rfl)) (hstray _ _ rfl)
    · obtain ⟨raw, hturn⟩ := hreading.turn_open
      exact turns_of_turn hturn (List.append_assoc word ['('] rest').symm (by simp) (by simp) trivial
    · have hsheet : (s.swallow word last).pending.toList.getLast? = some '!' := by
        by_contra hsheet
        exact hstray _ _ rfl (.inr (.inr ⟨rfl, hsheet⟩))
      exact hreading.turns_errorLiteral (.inr hsheet) hfault

/-! ## Every turn -/

variable {rest : List Char}

/-- A turn with one symbol. -/
theorem turns_of_symbol {value : String} {kind : Token.Kind} {subkind : Token.Subkind}
    {openings : List Opening} (hidle : Idle s) (hnested : Nested s.openings → Nested openings)
    (hc : utf8Len [c] = 1) (hkind : kind ≠ .whitespace)
    (hstep : ∀ rest, step locale c rest s =
      ({ s with openings := openings }.mark value kind subkind 1, 0)) : Turns locale s (c :: rest) :=
  turns_of_turn (turn_symbol hidle hnested hc hkind hstep) rfl (by simp) (by simp) trivial

/-- What notes a fault is read in no scan without one. -/
theorem not_noted {value : String} {kind : Token.Kind} {subkind : Token.Subkind} {fault : LexError}
    (hidle : Idle s) (hstep : ∀ rest, step locale c rest s = ((s.note fault).mark value kind subkind 1, 0)) :
    (through locale (c :: rest) s).fault ≠ none := by
  intro hfault
  rw [through_cons, hstep] at hfault
  have hnone : ((s.note fault).mark value kind subkind 1).fault = none :=
    fault_of_through (.inl hidle.1) hfault
  exact note_ne_none _ _ hnone

theorem turns_separator (hidle : Idle s) (hplace : separates locale s.openings) :
    Turns locale s (locale.argumentSeparator :: rest) :=
  turns_of_symbol hidle id (by cases locale <;> rfl) (by simp) fun _ => step_separator hidle hplace

theorem turns_comma (hidle : Idle s) : Turns locale s (',' :: rest) := by
  by_cases hplace : locale.argumentSeparator = ',' ∧ separates locale s.openings
  · rw [← hplace.1]
    exact turns_separator hidle hplace.2
  · have hunion : locale.argumentSeparator = ',' → s.separatesHere = false := by
      intro hseparator
      cases locale with
      | enUS => rw [← separates_enUS]; simpa [Locale.argumentSeparator] using hplace
      | deDE => exact absurd hseparator (by decide)
    exact turns_of_symbol hidle id rfl (by simp) fun _ => step_union hidle hunion

theorem step_semicolon (hidle : Idle s)
    (hplace : ¬ (locale.argumentSeparator = ';' ∧ separates locale s.openings)) :
    step locale ';' rest s = (nextRow s, 0) := by
  have hnot : ¬ (';' = locale.argumentSeparator && separates locale s.openings) := by
    intro h
    simp only [Bool.and_eq_true, decide_eq_true_eq] at h
    exact hplace ⟨h.1.symm, h.2⟩
  rw [step_of_idle hidle, ordinary, isSeparator_eq, if_neg hnot]
  rfl

theorem turns_semicolon (hidle : Idle s) (hfault : (through locale (';' :: rest) s).fault = none) :
    Turns locale s (';' :: rest) := by
  by_cases hplace : locale.argumentSeparator = ';' ∧ separates locale s.openings
  · rw [← hplace.1]
    exact turns_separator hidle hplace.2
  · by_cases hopen : ∃ row outer, s.openings = .arrayRow row :: outer
    · obtain ⟨row, outer, hopen⟩ := hopen
      exact turns_of_turn (turn_nextRow hidle hopen) rfl (by simp) (by simp) trivial
    · have hstep : ∀ rest, step locale ';' rest s =
          ((s.note (.rowOutsideArray s.offset)).mark ";" .unknown .unspecified 1, 0) := by
        intro rest
        rw [step_semicolon hidle hplace, nextRow_outside hidle fun row outer h => hopen ⟨row, outer, h⟩]
      exact absurd hfault (not_noted hidle hstep)

theorem turns_closeArray (hidle : Idle s) (hnested : Nested s.openings)
    (hfault : (through locale ('\x7d' :: rest) s).fault = none) : Turns locale s ('\x7d' :: rest) := by
  by_cases hopen : ∃ row outer, s.openings = .arrayRow row :: outer
  · obtain ⟨row, outer, hopen⟩ := hopen
    rw [hopen] at hnested
    cases hnested
    exact turns_of_turn (turn_closeArray hidle hopen) rfl (by simp) (by simp) trivial
  · have hstep : ∀ rest, step locale '\x7d' rest s =
        ((s.note (.noArrayToClose s.offset)).mark "\x7d" .unknown .unspecified 1, 0) := by
      intro rest
      rw [← closeArray_outside hidle fun row outer h => hopen ⟨row, outer, h⟩, step_of_idle hidle,
        ordinary_eq_symbol (by decide)]
      rfl
    exact absurd hfault (not_noted hidle hstep)

theorem turns_closeGroup (hidle : Idle s) (hnested : Nested s.openings)
    (hfault : (through locale (')' :: rest) s).fault = none) : Turns locale s (')' :: rest) := by
  by_cases hopen : ∃ opening outer, s.openings = .bracket opening :: outer
  · obtain ⟨opening, outer, hopen⟩ := hopen
    have hbracket := hnested
    rw [hopen] at hbracket
    cases hbracket with
    | bracket hkind houter =>
      have hne : opening.kind ≠ .whitespace := by rcases hkind with h | h <;> simp [h]
      exact turns_of_symbol hidle (fun _ => houter) rfl hne fun _ => step_closeGroup hidle hopen
  · obtain ⟨value, kind, subkind, hnoted⟩ : ∃ value kind subkind,
        closeGroup s = (s.note (.noOpener s.offset)).mark value kind subkind 1 := by
      rw [closeGroup_outside hidle fun opening outer h => hopen ⟨opening, outer, h⟩]
      split <;> exact ⟨_, _, _, rfl⟩
    have hstep : ∀ rest, step locale ')' rest s =
        ((s.note (.noOpener s.offset)).mark value kind subkind 1, 0) := by
      intro rest
      rw [← hnoted, step_of_idle hidle, ordinary_eq_symbol (by decide)]
      rfl
    exact absurd hfault (not_noted hidle hstep)

theorem turns_sign (hidle : Idle s) (hc : c ∈ ['+', '-', '*', '/', '^', '&', '=', '>', '<']) :
    Turns locale s (c :: rest) := by
  by_cases hcomparison : isComparison c rest.head?
  · cases rest with
    | nil => simp [isComparison] at hcomparison
    | cons d rest =>
      exact turns_of_turn (turn_comparison hidle hcomparison) rfl (by simp) (by simp) trivial
  · exact turns_of_turn (turn_sign hidle hc) rfl (by simp) (by simp) (by simpa using hcomparison)

theorem turns_gap (hidle : Idle s) (hc : isGap c) : Turns locale s (c :: rest) := by
  have hgaps : ∀ d ∈ rest.takeWhile isGap, isGap d :=
    fun d hd => List.all_eq_true.1 List.all_takeWhile d hd
  have htext : c :: rest = c :: rest.takeWhile isGap ++ rest.dropWhile isGap := by
    rw [List.cons_append, List.takeWhile_append_dropWhile]
  refine turns_of_turn (turn_gap hidle hc hgaps) htext (by simp) (by simp) fun d hd => ?_
  have hnot := List.head?_dropWhile_not isGap rest
  rw [Option.mem_def.1 hd] at hnot
  exact hnot

/-- A text is made of turns where it is read without a fault and without tokens of unknown kind. -/
theorem exists_turn (hidle : Idle s) (hnested : Nested s.openings)
    (hfault : (through locale (c :: rest) s).fault = none)
    (hknown : ∀ raw ∈ (through locale (c :: rest) s).tokens.toList, raw.kind ≠ .unknown) :
    Turns locale s (c :: rest) := by
  by_cases hends : endsWord c
  · have hreading : Reading locale s [] s := reading_nil hidle
    simp only [endsWord, List.mem_cons, List.not_mem_nil, or_false, decide_eq_true_eq] at hends
    rcases hends with rfl | rfl | rfl | rfl | rfl | rfl | rfl | rfl | rfl | rfl | rfl | rfl | rfl |
      rfl | rfl | rfl | rfl | rfl | rfl | rfl
    · exact turns_comma hidle
    · exact turns_semicolon hidle hfault
    · exact turns_text hidle hfault
    · exact hreading.turns_errorLiteral (.inl hidle.2) hfault
    · exact turns_of_turn (turn_openArray hidle) rfl (by simp) (by simp) trivial
    · exact turns_closeArray hidle hnested hfault
    · exact turns_gap hidle rfl
    · exact turns_gap hidle rfl
    · exact turns_sign hidle (by decide)
    · exact turns_sign hidle (by decide)
    · exact turns_sign hidle (by decide)
    · exact turns_sign hidle (by decide)
    · exact turns_sign hidle (by decide)
    · exact turns_sign hidle (by decide)
    · exact turns_sign hidle (by decide)
    · exact turns_sign hidle (by decide)
    · exact turns_sign hidle (by decide)
    · exact turns_of_symbol hidle id rfl (by simp) fun rest => step_percent hidle
    · obtain ⟨raw, hturn⟩ := hreading.turn_open
      exact turns_of_turn hturn rfl (by simp) (by simp) trivial
    · exact turns_closeGroup hidle hnested hfault
  · exact turns_word hidle (by simpa using hends) hfault hknown

end

end SheetFormula.Scan
