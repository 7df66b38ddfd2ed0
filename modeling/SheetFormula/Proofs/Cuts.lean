import SheetFormula.Proofs.Turns

/-!
# Where a text may be parted

Main statement: `exists_cuts`, that every token of a scan without a fault starts and stops where the
text may be parted by white space.

1. A `Cut` is a place between two turns: the part in front of it is read alike in front of most other
   texts.
2. A `Seam` is a cut with white space behind it, or with none, and a place in this white space. More
   white space there goes to the same token.
3. In front of a token that starts an operand, a sign may be put as well: `Lead`.
-/

namespace SheetFormula.Scan

open String (utf8Len)

/-- A place between two turns, with the state in which a scan gets there. -/
structure Cut (locale : Locale) (s : State) (front back : List Char) (j : State) : Prop where
  initial : front = [] → j = s
  idle : Idle j
  nested : Nested j.openings
  offset : j.offset = s.offset + utf8Len front
  reads : ∀ other : List Char, other.head? = back.head? →
    through locale (front ++ other) s = through locale other j
  spaced : (∀ raw ∈ j.tokens.toList.getLast?, raw.kind ≠ .whitespace) → ∀ c other, isGap c →
    through locale (front ++ c :: other) s = through locale (c :: other) j
  signed : (∀ raw ∈ j.tokens.toList.getLast?, raw.kind ≠ .operand) → ∀ other,
    through locale (front ++ '+' :: other) s = through locale ('+' :: other) j
  /-- White space ends in front of what is none. -/
  blank : (∃ raw ∈ j.tokens.toList.getLast?, raw.kind = .whitespace) →
    ∀ c ∈ back.head?, isGap c = false

/-- A cut in front of white space or of none, and a place in it. -/
def Seam (locale : Locale) (s : State) (text : List Char) (place : Nat) : Prop :=
  ∃ front gap gap' back j, text = front ++ (gap ++ gap' ++ back) ∧
    Cut locale s front (gap ++ gap' ++ back) j ∧
    (∀ raw ∈ j.tokens.toList.getLast?, raw.kind ≠ .whitespace) ∧ (∀ c ∈ gap ++ gap', isGap c) ∧
    (∀ c ∈ back.head?, isGap c = false) ∧ place = j.offset + gap.length

/-- A cut directly in front of a token, or directly behind a row, which has no text. -/
def Lead (locale : Locale) (s : State) (text : List Char) (before : List Token) (raw : Token) : Prop :=
  ∃ front back j, text = front ++ back ∧ Cut locale s front back j ∧ j.offset = raw.start ∧
    (j.tokens.toList = before ∨ j.tokens.toList = before ++ [raw] ∧ raw.opensBracket)

section

variable {locale : Locale} {s j j' : State} {front back part : List Char} {Ahead : Option Char → Prop}
  {added : List Token}

theorem cut_initial (offset : Nat) (text : List Char) :
    Cut locale (.initial offset) [] text (.initial offset) where
  initial _ := rfl
  idle := ⟨rfl, rfl⟩
  nested := .nil
  offset := rfl
  reads _ _ := rfl
  spaced _ _ _ _ := rfl
  signed _ _ := rfl
  blank := by
    rintro ⟨raw, hraw, -⟩
    cases hraw

theorem getLast?_turn (h : Turn locale j part Ahead added j') (hadded : added ≠ []) :
    j'.tokens.toList.getLast? = added.getLast? := by
  rw [h.tokens, List.getLast?_append, List.getLast?_eq_some_getLast hadded]
  rfl

/-- Behind a turn there is a cut again. -/
theorem Cut.turn (h : Cut locale s front (part ++ back) j) (hturn : Turn locale j part Ahead added j')
    (hpart : part ≠ []) (hadded : added ≠ []) (hback : Ahead back.head?) :
    Cut locale s (front ++ part) back j' := by
  have hreads : ∀ other : List Char, Ahead other.head? →
      through locale (front ++ part ++ other) s = through locale other j' := by
    intro other hother
    have hhead : (part ++ other).head? = (part ++ back).head? := by
      rw [List.head?_append_of_ne_nil _ hpart, List.head?_append_of_ne_nil _ hpart]
    rw [List.append_assoc, h.reads _ hhead, hturn.reads other hother]
  have hlast := getLast?_turn hturn hadded
  refine ⟨fun hnil => absurd (List.append_eq_nil_iff.1 hnil).2 hpart, hturn.idle, hturn.nested h.nested,
    ?_, fun other hother => ?_, fun hspaced c other hc => ?_, fun hsigned other => ?_,
    fun hblank => ?_⟩
  · rw [hturn.offset, h.offset, String.utf8Len_append, Nat.add_assoc]
  · exact hreads other (hother ▸ hback)
  · rcases hturn.spaced with ⟨raw, rfl, hkind, -⟩ | ⟨-, hgaps⟩
    · exact absurd hkind (hspaced raw (hlast ▸ rfl))
    · exact hreads _ (hgaps c hc)
  · exact hreads _ (hturn.signed (hlast ▸ hsigned))
  · obtain ⟨raw, hraw, hkind⟩ := hblank
    rcases hturn.spaced with ⟨-, -, -, -, hends⟩ | ⟨hsolid, -⟩
    · intro c hc
      refine hends c ?_
      rwa [Option.mem_def.1 hc] at hback
    · exact absurd hkind (hsolid raw (List.mem_of_getLast? (hlast ▸ hraw)))

/-- A cut behind what is no white space is a seam. -/
theorem Cut.seam (h : Cut locale s front back j)
    (hlast : ∀ raw ∈ j.tokens.toList.getLast?, raw.kind ≠ .whitespace) :
    Seam locale s (front ++ back) j.offset := by
  have hback : back = [] ++ back.takeWhile isGap ++ back.dropWhile isGap := by
    rw [List.nil_append, List.takeWhile_append_dropWhile]
  refine ⟨front, [], back.takeWhile isGap, back.dropWhile isGap, j, by rw [← hback], hback ▸ h, hlast,
    fun c hc => List.all_eq_true.1 List.all_takeWhile c hc, fun c hc => ?_, rfl⟩
  have hnot := List.head?_dropWhile_not isGap back
  rw [Option.mem_def.1 hc] at hnot
  exact hnot

/-- There is a seam behind every turn, in front of the white space that the turn reads if it reads
any. -/
theorem Cut.seam_turn (h : Cut locale s front (part ++ back) j)
    (hturn : Turn locale j part Ahead added j') (hpart : part ≠ []) (hadded : added ≠ [])
    (hback : Ahead back.head?) : Seam locale s (front ++ (part ++ back)) j'.offset := by
  have hlast := getLast?_turn hturn hadded
  rcases hturn.spaced with ⟨raw, rfl, hkind, hgaps, hends⟩ | ⟨hsolid, -⟩
  · refine ⟨front, part, [], back, j, by rw [List.append_nil], by rwa [List.append_nil], ?_, ?_, ?_, ?_⟩
    · intro raw hraw hblank
      obtain ⟨c, rest, rfl⟩ := List.exists_cons_of_ne_nil hpart
      have hnot := h.blank ⟨raw, hraw, hblank⟩ c rfl
      rw [hgaps c List.mem_cons_self] at hnot
      cases hnot
    · rwa [List.append_nil]
    · intro c hc
      refine hends c ?_
      rwa [Option.mem_def.1 hc] at hback
    · rw [hturn.offset, utf8Len_gaps hgaps]
  · rw [← List.append_assoc]
    exact (h.turn hturn hpart hadded hback).seam fun raw hraw =>
      hsolid raw (List.mem_of_getLast? (hlast ▸ hraw))

/-- What stands in two lists one behind the other stands in one of them. -/
theorem append_eq_cons {α : Type} {xs ys before after : List α} {x : α}
    (h : xs ++ ys = before ++ x :: after) :
    (∃ before', before = xs ++ before' ∧ ys = before' ++ x :: after) ∨
      ∃ after', xs = before ++ x :: after' := by
  rcases List.append_eq_append_iff.1 h with h | ⟨between, rfl, hrest⟩
  · exact .inl h
  · cases between with
    | nil => exact .inl ⟨[], by simp, hrest.symm⟩
    | cons y between =>
      obtain ⟨rfl, -⟩ := List.cons.inj hrest
      exact .inr ⟨between, rfl⟩

/-- Every token lies between two seams, and one that starts an operand or is a binary operator has a
cut in front of it. -/
theorem exists_cuts (h : Cut locale s front back j) (hseam : Seam locale s (front ++ back) j.offset)
    (hfault : (through locale back j).fault = none)
    (hknown : ∀ raw ∈ (through locale back j).tokens.toList, raw.kind ≠ .unknown)
    {before after : List Token} {raw : Token}
    (htokens : (through locale back j).tokens.toList = j.tokens.toList ++ (before ++ raw :: after)) :
    Seam locale s (front ++ back) raw.start ∧ Seam locale s (front ++ back) raw.stop ∧
      (raw.startsValue || raw.isInfixOp →
        Lead locale s (front ++ back) (j.tokens.toList ++ before) raw) := by
  induction hn : back.length using Nat.strongRecOn generalizing front back j before with
  | _ n ih =>
    cases back with
    | nil =>
      rw [through, run, tokens_finish_of_mode (.inl h.idle.1), h.idle.endOperand] at htokens
      simp at htokens
    | cons c rest =>
      obtain ⟨part, back, Ahead, added, j', htext, hpart, hadded, hback, hturn⟩ :=
        exists_turn h.idle h.nested hfault hknown
      rw [htext] at h hseam hfault hknown htokens ⊢
      rw [hturn.reads back hback] at hfault hknown htokens
      have hcut := h.turn hturn hpart hadded hback
      have hseam' := h.seam_turn hturn hpart hadded hback
      obtain ⟨more, hmore⟩ : j'.tokens.toList <+: (through locale back j').tokens.toList :=
        grows_through (.inl hturn.idle.1)
      rw [← hmore, hturn.tokens, List.append_assoc, List.append_cancel_left_eq] at htokens
      rcases append_eq_cons htokens with ⟨before', rfl, hrest⟩ | ⟨after', rfl⟩
      · have hshort : back.length < n := by
          rw [← hn, htext, List.length_append]
          have := List.length_pos_iff.2 hpart
          omega
        have htokens' : (through locale back j').tokens.toList =
            j'.tokens.toList ++ (before' ++ raw :: after) := by rw [← hmore, hrest]
        have hfound := ih back.length hshort hcut (by rwa [List.append_assoc]) hfault hknown
          htokens' rfl
        rwa [List.append_assoc, hturn.tokens, List.append_assoc] at hfound
      · have hsited := hturn.sited before raw after' rfl
        refine ⟨?_, ?_, fun hleads => ?_⟩
        · rcases hsited.start with heq | heq <;> rwa [heq]
        · rcases hsited.stop with heq | heq <;> rwa [heq]
        · rcases hsited.leads hleads with ⟨rfl, hstart⟩ | ⟨rfl, hstart, hopens⟩
          · exact ⟨front, part ++ back, j, rfl, h, hstart.symm, .inl (List.append_nil _).symm⟩
          · refine ⟨front ++ part, back, j', by rw [List.append_assoc], hcut, hstart.symm,
              .inr ⟨?_, hopens⟩⟩
            rw [hturn.tokens, List.append_assoc]

/-! ## White space and signs -/

/-- White space is read as one token, whatever it is. -/
theorem through_gaps {gaps : List Char} (hidle : Idle j) (hgaps : ∀ c ∈ gaps, isGap c)
    (hback : ∀ c ∈ back.head?, isGap c = false) :
    through locale (gaps ++ back) j = through locale back
      (if gaps = [] then j else j.mark " " .whitespace .unspecified gaps.length) := by
  cases gaps with
  | nil => rfl
  | cons c gaps =>
    obtain ⟨hc, hmore⟩ := List.forall_mem_cons.1 hgaps
    rw [if_neg (by simp), List.cons_append, through_cons, step_gap hidle hc hmore hback, List.drop_left,
      List.length_cons, Nat.add_comm]

/-- What is no white space is read as none. -/
theorem head_through {more : List Token} (hidle : Idle j) (hnested : Nested j.openings)
    (hback : ∀ c ∈ back.head?, isGap c = false) (hfault : (through locale back j).fault = none)
    (hknown : ∀ raw ∈ (through locale back j).tokens.toList, raw.kind ≠ .unknown)
    (htokens : (through locale back j).tokens.toList = j.tokens.toList ++ more) :
    ∀ raw ∈ more.head?, raw.kind ≠ .whitespace := by
  cases back with
  | nil =>
    rw [through, run, tokens_finish_of_mode (.inl hidle.1), hidle.endOperand] at htokens
    rw [List.append_right_eq_self.1 htokens.symm]
    simp
  | cons c rest =>
    obtain ⟨part, back, Ahead, added, j', htext, hpart, hadded, hahead, hturn⟩ :=
      exists_turn hidle hnested hfault hknown
    obtain ⟨d, part, rfl⟩ := List.exists_cons_of_ne_nil hpart
    obtain ⟨first, added, rfl⟩ := List.exists_cons_of_ne_nil hadded
    obtain ⟨rfl, -⟩ := List.cons.inj htext
    rw [htext, hturn.reads back hahead] at htokens
    obtain ⟨rest', hrest⟩ : j'.tokens.toList <+: (through locale back j').tokens.toList :=
      grows_through (.inl hturn.idle.1)
    rw [← hrest, hturn.tokens, List.append_assoc, List.append_cancel_left_eq] at htokens
    rw [← htokens]
    rintro _ ⟨⟩
    rcases hturn.spaced with ⟨-, -, -, hgaps, -⟩ | ⟨hsolid, -⟩
    · have hgap := hgaps c List.mem_cons_self
      rw [hback c rfl] at hgap
      cases hgap
    · exact hsolid first List.mem_cons_self

/-- The sign `+` is read as a token by itself. -/
theorem through_plus (hidle : Idle j) : through locale ('+' :: back) j =
    through locale back (j.mark "+" .infixOp .unspecified 1) := by
  rw [through_cons, step_sign hidle (by decide) (by simp [isComparison])]
  rfl

end

end SheetFormula.Scan
