import SheetFormula.Proofs.Passing
import SheetFormula.Proofs.Rendering

/-!
# Formulas of one word

A formula that consists of one word has one token, and it is read whatever its limits are: a leaf needs
no room.

1. `Scan.ofFormula_word` is the scan, without a fault, and `Formula.tokens_word` what the passes make of
   its token.
2. A number or a reference that is the only token is the whole expression: `Parser.parse_number`,
   `Parser.parse_reference`.
-/

namespace SheetFormula

namespace Scan

/-- Behind one `=` a scan reads all of the text. -/
theorem ofFormula_equals (locale : Locale) (text : String) :
    ofFormula locale ("=" ++ text) = through locale text.toList (.initial 1) := by
  have htext : ("=" ++ text).toList = '=' :: text.toList := by rw [String.toList_append]; rfl
  have hbody : body ("=" ++ text).toList = text.toList := by rw [htext]; rfl
  have hlead : leadSize ("=" ++ text) = 1 := by
    rw [leadSize, hbody, htext, List.length_cons, Nat.add_sub_cancel_left]
  rw [ofFormula, hbody, hlead, through]

/-- The scan of a formula that is one word. -/
theorem ofFormula_word {locale : Locale} {word : String} (h : Word locale word) :
    ofFormula locale ("=" ++ word) =
      ⟨#[⟨word, .operand, .unspecified, 1, 1 + word.utf8ByteSize⟩], [], 1 + word.utf8ByteSize, "", 1,
        .ordinary, none⟩ := by
  obtain ⟨hne, last, habsorbs, hlast⟩ := h
  have hletters : word.toList ≠ [] := by simpa using hne
  have hrun : run locale (word.toList ++ []) (.initial 1) =
      run locale [] (State.swallow (.initial 1) word.toList last) :=
    run_word (.inl rfl) rfl habsorbs stops_nil
  rw [List.append_nil, run] at hrun
  rw [ofFormula_equals, through, hrun]
  generalize hswallowed : State.swallow (.initial 1) word.toList last = s
  have hmode : s.mode = last := by rw [← hswallowed]; rfl
  have htokens : s.tokens = #[] := by rw [← hswallowed, tokens_swallow]; rfl
  have hopenings : s.openings = [] := by rw [← hswallowed, openings_swallow]; rfl
  have hfault : s.fault = none := by rw [← hswallowed, fault_swallow]; rfl
  have hpending : s.pending = word := by
    rw [← hswallowed, pending_swallow, State.initial, String.empty_append, String.ofList_toList]
  have hstart : s.pendingStart = 1 := by rw [← hswallowed, pendingStart_swallow rfl hletters]; rfl
  have hoffset : s.offset = 1 + word.utf8ByteSize := by
    rw [← hswallowed, offset_swallow, String.utf8Len_toList]
    rfl
  have hended : finishToken s = s.emitPending .operand .unspecified := by
    have hkept : s.endOperand = s.emitPending .operand .unspecified :=
      endPending_of_ne (by rwa [hpending])
    rcases hlast with rfl | rfl <;> rw [finishToken, hmode, hkept]
  rw [finish, hended]
  obtain ⟨tokens, openings, offset, pending, start, mode, fault⟩ := s
  dsimp only at *
  subst hmode htokens hopenings hfault hpending hstart hoffset
  rfl

end Scan

namespace Token

variable {locale : Locale} {token : Token} {more : List Token}

/-- The first token stays the first one, if it is no white space and no sign without a meaning. -/
theorem normalize_cons (hkind : token.kind ≠ .whitespace)
    (hkept : (resolveOne locale none token).kind ≠ .noop) :
    ∃ more', normalize locale (token :: more) = resolveOne locale none token :: more' := by
  rw [normalize, settleGaps, settleFrom, if_pos hkind, resolve, resolveFrom, withoutNoops,
    List.filter_cons_of_pos (by simpa using hkept)]
  exact ⟨_, rfl⟩

/-- The passes over an operand that stands alone. -/
theorem normalize_operand (hkind : token.kind = .operand) (hsubkind : token.subkind = .unspecified) :
    normalize locale [token] = [resolveOperand locale token] := by
  have hkept : (resolveOperand locale token).kind = .operand := by rw [kind_resolveOperand, hkind]
  simp [normalize, settleGaps, settleFrom, resolve, resolveFrom, resolveOne, withoutNoops, hkind,
    hsubkind, hkept]

end Token

namespace Formula

variable {locale : Locale} {word : String}

/-- The token of a formula that is one word. -/
theorem tokens_word (h : Scan.Word locale word) : tokens locale ("=" ++ word) =
    [Token.resolveOperand locale ⟨word, .operand, .unspecified, 1, 1 + word.utf8ByteSize⟩] := by
  rw [tokens, Scan.ofFormula_word h]
  exact Token.normalize_operand rfl rfl

/-- A formula that is one word is read from its token. -/
theorem parse_word (h : Scan.Word locale word) (limits : Parser.Limits) (strict : Bool) :
    parse ⟨locale, limits, strict⟩ ("=" ++ word) = (Parser.parse limits
      [Token.resolveOperand locale ⟨word, .operand, .unspecified, 1, 1 + word.utf8ByteSize⟩]).mapError
        .grammar := by
  have hfault : (Scan.ofFormula locale ("=" ++ word)).fault = none := by rw [Scan.ofFormula_word h]
  rw [parse_of_faultless strict hfault, tokens_word h]

end Formula

namespace Parser

variable (limits : Limits) {value : String} (start stop : Nat)

theorem parse_reference :
    parse limits [⟨value, .operand, .range, start, stop⟩] = .ok (.reference value) := rfl

theorem parse_number {number : Number.Binary64} (h : Number.Binary64.ofText? value = some number) :
    parse limits [⟨value, .operand, .number, start, stop⟩] = .ok (.number number) := by
  have hread : operand limits 5 (.initial [⟨value, .operand, .number, start, stop⟩]) =
      .ok ⟨⟨1, [], ⟨"", .unspecified, .unspecified, stop, stop⟩⟩, [⟨.number number, 1⟩], [.sentinel], 0⟩ := by
    show (SheetFormula.Parser.number ⟨value, .operand, .number, start, stop⟩
      ⟨⟨1, [], ⟨"", .unspecified, .unspecified, stop, stop⟩⟩, [], [.sentinel], 0⟩ >>= trailing limits) = _
    rw [SheetFormula.Parser.number, h]
    rfl
  show (expression limits 6 _ >>= _) = _
  rw [expression, hread]
  rfl

end Parser

end SheetFormula
