import SheetFormula.Proofs.Brackets
import SheetFormula.Proofs.TokenShapes

/-!
# Brackets in a formula

Main statement: `Formula.tokens_disciplined`, what a formula's tokens keep to whatever its text is,
and which formulas a strict reader accepts.

1. `Kept` is the invariant of the pieces of a formula: the open starts are those of the brackets that
   a scan holds open, and inside each open brace it is inside one of its rows.
2. A fault is noted exactly where a token is added that a strict reader does not accept:
   `Move.noted`.
-/

namespace SheetFormula

open Token (Throughout throughout_nil throughout_cons throughout_append startsBehind openStarts
  directlyInside depthBehind rowsOnly Orderly Disciplined Accepted AllAccepted Bracketed strayClosers)

namespace Scan

/-! ## Pieces -/

/-- The kind of the start of an open bracket. -/
def Opening.kind : Opening → Token.Kind
  | .bracket token => token.kind
  | .array _ | .arrayRow _ => .function

/-- The start that a bracket was opened by. -/
def Opening.OpenedBy : Opening → Token → Prop
  | .bracket token, start => start = token
  | .array _, start => start.opensCall ∧ start.value = Token.arrayName
  | .arrayRow _, start => start.opensRow

theorem Opening.OpenedBy.kind {opening : Opening} {start : Token} (h : opening.OpenedBy start) :
    start.kind = opening.kind := by
  cases opening with
  | bracket token => exact congrArg Token.kind h
  | array => exact (Token.is_iff.1 h.1).1
  | arrayRow =>
    simp only [OpenedBy, Token.opensRow, Bool.and_eq_true] at h
    exact (Token.is_iff.1 h.1.1).1

/-- Tokens keep the discipline behind the starts that are open in front of them. -/
def DisciplinedFrom (formula : String) (starts tokens : List Token) : Prop :=
  Throughout (fun before token after =>
    Orderly formula (before.foldl startsBehind starts) token after) tokens

/-- Whether a row is open, with as many starts open inside its brace. -/
def RowAt (openings : List Opening) (depth : Nat) : Prop :=
  ∃ inner row array outer, openings = inner ++ .arrayRow row :: .array array :: outer ∧
    depth = inner.length + 1

/-- Where a brace is open, a scan is inside one of its rows. -/
def InsideRows (formula : String) (tokens : List Token) (openings : List Opening) : Prop :=
  Throughout (fun _ token after => token.subkind = .start →
    Text.slice formula token.start token.stop = "\x7b" → ∀ depth, depthBehind 0 after = some depth →
    RowAt openings depth) tokens

/-- What the pieces of a formula keep to. -/
structure Kept (formula : String) (tokens : List Token) (openings : List Opening) : Prop where
  disciplined : Disciplined formula tokens
  opened : List.Forall₂ Opening.OpenedBy openings (openStarts tokens)
  bracketed : ∀ token ∈ tokens, Bracketed token
  rows : InsideRows formula tokens openings

section

variable {locale : Locale} {formula : String} {openings openings' : List Opening}
  {tokens more starts : List Token} {token : Token}

theorem disciplinedFrom_cons : DisciplinedFrom formula starts (token :: tokens) ↔
    Orderly formula starts token tokens ∧
      DisciplinedFrom formula (startsBehind starts token) tokens := throughout_cons

theorem disciplinedFrom_single (h : Orderly formula starts token []) :
    DisciplinedFrom formula starts [token] := disciplinedFrom_cons.2 ⟨h, throughout_nil⟩

theorem plain_of_plainKinds {kind : Token.Kind} {subkind : Token.Subkind}
    (h : (kind, subkind) ∈ plainKinds) : subkind ≠ .start ∧ subkind ≠ .stop := by
  simp only [plainKinds, List.mem_cons, List.not_mem_nil, or_false, Prod.mk.injEq] at h
  rcases h with ⟨-, rfl⟩ | ⟨-, rfl⟩ | ⟨-, rfl⟩ | ⟨-, rfl⟩ | ⟨-, rfl⟩ | ⟨-, rfl⟩ | ⟨-, rfl⟩ |
    ⟨-, rfl⟩ <;> simp

theorem orderly_plain {after : List Token} (h : token.subkind ≠ .start ∧ token.subkind ≠ .stop)
    (hargument : token.kind = .argument → ∃ opener ∈ starts.head?, opener.kind = .function) :
    Orderly formula starts token after :=
  ⟨fun heq => absurd heq h.2, hargument, fun heq => absurd heq h.1⟩

/-- A start that is not written as a brace. -/
theorem orderly_start {after : List Token} (hstart : token.subkind = .start)
    (hkind : token.kind ≠ .argument)
    (hslice : Text.slice formula token.start token.stop ≠ "\x7b") :
    Orderly formula starts token after :=
  ⟨fun heq => absurd (hstart.symm.trans heq) (by simp), fun heq => absurd heq hkind,
    fun _ heq => absurd heq hslice⟩

/-- A stop of the kind of the innermost start. -/
theorem orderly_stop {opener : Token} {outer after : List Token} (hstop : token.subkind = .stop)
    (hkind : token.kind ≠ .argument) (hopener : opener.kind = token.kind) :
    Orderly formula (opener :: outer) token after :=
  ⟨fun _ => .inl ⟨opener, rfl, hopener⟩, fun heq => absurd heq hkind,
    fun heq => absurd (hstop.symm.trans heq) (by simp)⟩

/-- The innermost start is a call where separators belong to one. -/
theorem function_of_separates (h : separates locale openings)
    (hstarts : starts.map Token.kind = openings.map Opening.kind) :
    ∃ opener ∈ starts.head?, opener.kind = .function := by
  have hhead := congrArg List.head? hstarts
  rw [List.head?_map, List.head?_map] at hhead
  refine Option.map_eq_some_iff.1 (hhead.trans ?_)
  unfold separates at h
  split at h
  · exact congrArg some (beq_iff_eq.1 h)
  · rfl
  · cases h

theorem Piece.disciplined (h : Piece locale formula.toList openings more openings')
    (hnested : Nested openings) (hstarts : starts.map Token.kind = openings.map Opening.kind) :
    DisciplinedFrom formula starts more := by
  have hbrace : ∀ value : String, String.ofList (value.toList ++ ['(']) ≠ "\x7b" := by
    intro value heq
    have hlast := congrArg (List.getLast? ∘ String.toList) heq
    simp at hlast
  cases h with
  | plain hkind _ hfits =>
    refine disciplinedFrom_single (orderly_plain (plain_of_plainKinds hkind) fun hargument => ?_)
    exact function_of_separates (hfits.1 hargument).2 hstarts
  | gap | text | openText => exact disciplinedFrom_single (orderly_plain (by simp) (by simp))
  | group hcovers =>
    refine disciplinedFrom_single (orderly_start rfl (by simp) ?_)
    rw [slice_of_covers hcovers]
    exact hbrace ""
  | call hcovers =>
    refine disciplinedFrom_single (orderly_start rfl (by simp) ?_)
    rw [slice_of_covers hcovers]
    exact hbrace _
  | close hkind _ =>
    obtain ⟨opener, outer, rfl, hopener, -⟩ := List.map_eq_cons_iff.1 hstarts
    refine disciplinedFrom_single (orderly_stop rfl ?_ hopener)
    rcases hkind with h | h <;> simp [h]
  | closeNothing =>
    rw [List.map_nil, List.map_eq_nil_iff] at hstarts
    subst hstarts
    exact disciplinedFrom_single ⟨fun _ => .inr ⟨rfl, rfl⟩, by simp, by simp⟩
  | array hcovers =>
    refine disciplinedFrom_cons.2 ⟨⟨by simp, by simp, fun _ _ => ⟨?_, ?_⟩⟩,
      disciplinedFrom_single (orderly_start rfl (by simp) ?_)⟩
    · exact Token.opensRow_row _
    · exact Token.opensRow_row _
    · rw [Token.slice_stop hcovers]
      decide
  | nextRow hcovers =>
    cases hnested
    obtain ⟨row, _, rfl, hrow, hstarts⟩ := List.map_eq_cons_iff.1 hstarts
    obtain ⟨array, outer, rfl, harray, -⟩ := List.map_eq_cons_iff.1 hstarts
    refine disciplinedFrom_cons.2 ⟨orderly_stop rfl (by simp) hrow, disciplinedFrom_cons.2
      ⟨orderly_plain (by simp) fun _ => ⟨array, rfl, harray⟩, disciplinedFrom_single
        (orderly_start rfl (by simp) ?_)⟩⟩
    rw [Token.slice_stop hcovers]
    decide
  | closeArray =>
    obtain ⟨row, _, rfl, hrow, hstarts⟩ := List.map_eq_cons_iff.1 hstarts
    obtain ⟨array, outer, rfl, harray, -⟩ := List.map_eq_cons_iff.1 hstarts
    exact disciplinedFrom_cons.2 ⟨orderly_stop rfl (by simp) hrow, disciplinedFrom_single
      (orderly_stop rfl (by simp) harray)⟩

/-- The open starts behind a piece are those of the brackets that it leaves open. -/
theorem Piece.opened (h : Piece locale formula.toList openings more openings')
    (hopened : List.Forall₂ Opening.OpenedBy openings starts) :
    List.Forall₂ Opening.OpenedBy openings' (more.foldl startsBehind starts) := by
  cases h with
  | plain hkind =>
    rwa [List.foldl_cons, Token.startsBehind_of_plain (plain_of_plainKinds hkind)]
  | gap | text | openText => exact hopened
  | group | call => exact .cons rfl hopened
  | array => exact .cons (Token.opensRow_row _) (.cons ⟨rfl, rfl⟩ hopened)
  | close =>
    cases hopened with
    | cons _ houter => exact houter
  | closeNothing =>
    cases hopened
    exact .nil
  | nextRow =>
    cases hopened with
    | cons _ houter => exact .cons (Token.opensRow_row _) houter
  | closeArray =>
    rcases hopened with _ | ⟨_, _ | ⟨_, houter⟩⟩
    exact houter

theorem Kept.kinds (h : Kept formula tokens openings) :
    (openStarts tokens).map Token.kind = openings.map Opening.kind := by
  obtain ⟨-, hopened, -, -⟩ := h
  generalize openStarts tokens = starts at hopened
  induction hopened with
  | nil => rfl
  | cons hstart _ ih => rw [List.map_cons, List.map_cons, hstart.kind, ih]

theorem Piece.bracketed (h : Piece locale formula.toList openings more openings') :
    ∀ token ∈ more, Bracketed token := by
  intro token ht
  cases h with
  | plain hkind =>
    cases List.mem_singleton.1 ht
    have hplain := plain_of_plainKinds hkind
    rintro (h | h)
    · exact absurd h hplain.1
    · exact absurd h hplain.2
  | close hkind =>
    cases List.mem_singleton.1 ht
    exact fun _ => hkind
  | gap | text | openText | group | call | closeNothing | array | nextRow | closeArray =>
    simp only [List.mem_cons, List.not_mem_nil, or_false] at ht
    rcases ht with rfl | rfl | rfl <;> simp [Bracketed]

/-! ### Rows -/

theorem rowAt_cons {opening : Opening} {depth : Nat} (h : RowAt openings depth) :
    RowAt (opening :: openings) (depth + 1) := by
  obtain ⟨inner, row, array, outer, rfl, rfl⟩ := h
  exact ⟨opening :: inner, row, array, outer, rfl, rfl⟩

/-- Inside a row, or at its start. -/
theorem rowAt_of_cons {opening : Opening} {depth : Nat} (h : RowAt (opening :: openings) depth) :
    (∃ row array outer, opening = .arrayRow row ∧ openings = .array array :: outer ∧ depth = 1) ∨
      ∃ depth', depth = depth' + 1 ∧ 0 < depth' ∧ RowAt openings depth' := by
  obtain ⟨inner, row, array, outer, heq, rfl⟩ := h
  cases inner with
  | nil =>
    obtain ⟨rfl, rfl⟩ := List.cons_eq_cons.1 heq
    exact .inl ⟨row, array, outer, rfl, rfl, rfl⟩
  | cons first inner =>
    obtain ⟨rfl, rfl⟩ := List.cons_eq_cons.1 heq
    exact .inr ⟨inner.length + 1, rfl, Nat.succ_pos _, inner, row, array, outer, rfl, rfl⟩

/-- What a piece adds directly inside an open brace is a separator with the next row, if anything. -/
theorem Piece.inside {depth : Nat} (h : Piece locale formula.toList openings more openings')
    (hrow : RowAt openings depth) :
    (directlyInside depth more = [] ∨ ∃ separator next,
      directlyInside depth more = [separator, next] ∧
        (separator.separatesArguments ∧ separator.value = ";") ∧ next.opensRow) ∧
    ∀ depth', depthBehind depth more = some depth' → RowAt openings' depth' := by
  have hpositive : depth ≠ 0 := by
    obtain ⟨inner, -, -, -, -, rfl⟩ := hrow
    exact Nat.succ_ne_zero _
  have hplain : ∀ {token : Token}, token.subkind ≠ .start ∧ token.subkind ≠ .stop →
      directlyInside depth [token] = [] ∧ depthBehind depth [token] = some depth := by
    intro token htoken
    rw [Token.directlyInside_cons_of_plain htoken, Token.depthBehind_cons_of_plain htoken,
      if_neg hpositive]
    exact ⟨rfl, rfl⟩
  have hsame : ∀ {token : Token}, token.subkind ≠ .start ∧ token.subkind ≠ .stop →
      (directlyInside depth [token] = [] ∨ ∃ separator next,
        directlyInside depth [token] = [separator, next] ∧
          (separator.separatesArguments ∧ separator.value = ";") ∧ next.opensRow) ∧
      ∀ depth', depthBehind depth [token] = some depth' → RowAt openings depth' := by
    intro token htoken
    refine ⟨.inl (hplain htoken).1, fun depth' hdepth => ?_⟩
    rw [(hplain htoken).2] at hdepth
    cases hdepth
    exact hrow
  cases h with
  | plain hkind => exact hsame (plain_of_plainKinds hkind)
  | gap | text | openText => exact hsame (by simp)
  | group | call =>
    refine ⟨.inl (by simp [directlyInside, hpositive]), fun depth' hdepth => ?_⟩
    cases hdepth
    exact rowAt_cons hrow
  | closeNothing =>
    obtain ⟨inner, row, array, outer, heq, -⟩ := hrow
    simp at heq
  | array =>
    refine ⟨.inl (by simp [directlyInside, hpositive]), fun depth' hdepth => ?_⟩
    cases hdepth
    exact rowAt_cons (rowAt_cons hrow)
  | close =>
    obtain ⟨_, _, _, heq, -⟩ | ⟨depth, rfl, -, hrow⟩ := rowAt_of_cons hrow
    · cases heq
    · refine ⟨.inl rfl, fun depth' hdepth => ?_⟩
      cases hdepth
      exact hrow
  | nextRow =>
    obtain ⟨row, array, outer, -, rfl, rfl⟩ | ⟨depth, rfl, hdepth, hrow'⟩ := rowAt_of_cons hrow
    · refine ⟨.inr ⟨_, _, rfl, ⟨rfl, rfl⟩, Token.opensRow_row _⟩, fun depth' hdepth => ?_⟩
      cases hdepth
      exact ⟨[], _, _, _, rfl, rfl⟩
    · refine ⟨.inl (by simp [directlyInside, hdepth.ne']), fun depth' hdepth => ?_⟩
      cases hdepth
      exact hrow
  | closeArray =>
    obtain ⟨row, array, outer, -, heq, rfl⟩ | ⟨depth, rfl, hdepth, hrow⟩ := rowAt_of_cons hrow
    · refine ⟨.inl rfl, fun depth' hdepth => ?_⟩
      cases hdepth
    · obtain ⟨_, _, _, heq, -⟩ | ⟨depth, rfl, -, hrow⟩ := rowAt_of_cons hrow
      · cases heq
      · refine ⟨.inl rfl, fun depth' hdepth => ?_⟩
        cases hdepth
        exact hrow

/-- The row that follows a brace is open behind it. -/
theorem Piece.insideRows (h : Piece locale formula.toList openings more openings') :
    InsideRows formula more openings' := by
  have hnot : ∀ {start stop : Nat} {part : List Char}, Covers formula.toList start stop part →
      part ≠ ['\x7b'] → Text.slice formula start stop ≠ "\x7b" := by
    intro start stop part hcovers hpart heq
    rw [slice_of_covers hcovers] at heq
    exact hpart (by simpa using congrArg String.toList heq)
  have hbrace : ∀ value : String, value.toList ++ ['('] ≠ ['\x7b'] := by
    intro value heq
    have hlast := congrArg List.getLast? heq
    simp at hlast
  cases h with
  | plain hkind =>
    exact throughout_cons.2 ⟨fun h => absurd h (plain_of_plainKinds hkind).1, throughout_nil⟩
  | gap | text | openText | close | closeNothing =>
    exact throughout_cons.2 ⟨by simp, throughout_nil⟩
  | group hcovers =>
    exact throughout_cons.2 ⟨fun _ h => absurd h (hnot hcovers (by decide)), throughout_nil⟩
  | call hcovers =>
    exact throughout_cons.2 ⟨fun _ h => absurd h (hnot hcovers (hbrace _)), throughout_nil⟩
  | array hcovers =>
    refine throughout_cons.2 ⟨fun _ _ depth hdepth => ?_, throughout_cons.2
      ⟨fun _ h => absurd h (hnot (Token.covers_stop hcovers) (by decide)), throughout_nil⟩⟩
    cases hdepth
    exact ⟨[], _, _, _, rfl, rfl⟩
  | nextRow hcovers =>
    exact throughout_cons.2 ⟨by simp, throughout_cons.2 ⟨by simp, throughout_cons.2
      ⟨fun _ h => absurd h (hnot (Token.covers_stop hcovers) (by decide)), throughout_nil⟩⟩⟩
  | closeArray =>
    exact throughout_cons.2 ⟨by simp, throughout_cons.2 ⟨by simp, throughout_nil⟩⟩

theorem Kept.concat (h : Kept formula tokens openings) (hnested : Nested openings)
    (hpiece : Piece locale formula.toList openings more openings') :
    Kept formula (tokens ++ more) openings' where
  disciplined := by
    refine throughout_append.2 ⟨?_, ?_⟩
    · intro before token after heq
      have horderly := h.disciplined before token after heq
      refine ⟨horderly.stop, horderly.argument, fun hstart hslice => ?_⟩
      obtain ⟨hhead, hrows⟩ := horderly.brace hstart hslice
      refine ⟨?_, ?_⟩
      · obtain ⟨row, hrow, hopens⟩ := (Option.any_eq_true _ _).1 hhead
        obtain ⟨rest, rfl⟩ : ∃ rest, after = row :: rest := List.head?_eq_some_iff.1 hrow
        exact hopens
      · rw [Token.directlyInside_append]
        cases hdepth : depthBehind 0 after with
        | none => rwa [Option.elim_none, List.append_nil]
        | some depth =>
          rw [Option.elim_some]
          have hat := h.rows before token after heq hstart hslice depth hdepth
          obtain hnil | ⟨separator, next, htwo, hseparator, hnext⟩ := (hpiece.inside hat).1
          · rwa [hnil, List.append_nil]
          · rw [htwo]
            exact Token.rowsOnly_append hrows hseparator hnext
    · have hmore := hpiece.disciplined hnested h.kinds
      intro before token after heq
      rw [Token.openStarts_append]
      exact hmore before token after heq
  opened := by
    rw [Token.openStarts_append]
    exact hpiece.opened h.opened
  bracketed token ht := (List.mem_append.1 ht).elim (h.bracketed token) (hpiece.bracketed token)
  rows := by
    refine throughout_append.2 ⟨fun before token after heq hstart hslice depth hdepth => ?_, ?_⟩
    · rw [Token.depthBehind_append] at hdepth
      obtain ⟨depth', hdepth', hmore⟩ := Option.bind_eq_some_iff.1 hdepth
      have hat := h.rows before token after heq hstart hslice depth' hdepth'
      exact (hpiece.inside hat).2 depth hmore
    · exact hpiece.insideRows

/-- The pieces of a formula keep to the discipline. -/
theorem Pieces.kept (h : Pieces locale formula.toList tokens openings) :
    Kept formula tokens openings := by
  induction h with
  | nil => exact ⟨throughout_nil, .nil, by simp, throughout_nil⟩
  | concat hpieces hpiece ih => exact ih.concat hpieces.nested hpiece

end

/-! ## Faults -/

/-- Whether a fault is noted exactly if a token is not accepted. -/
def Noted (s : State) : Prop := s.fault = none ↔ AllAccepted s.tokens.toList

section

variable {locale : Locale} {formula : String} {s s' : State} {unread unread' : List Char}
  {tokens more starts : List Token} {token : Token}

/-- Whether tokens are accepted where these starts are open. -/
def AcceptedFrom (starts tokens : List Token) : Prop :=
  Throughout (fun before token _ => Accepted (before.foldl startsBehind starts) token) tokens

theorem acceptedFrom_cons : AcceptedFrom starts (token :: tokens) ↔
    Accepted starts token ∧ AcceptedFrom (startsBehind starts token) tokens := throughout_cons

theorem acceptedFrom_single : AcceptedFrom starts [token] ↔ Accepted starts token :=
  acceptedFrom_cons.trans (and_iff_left throughout_nil)

theorem allAccepted_append : AllAccepted (tokens ++ more) ↔
    AllAccepted tokens ∧ AcceptedFrom (openStarts tokens) more := by
  refine throughout_append.trans (and_congr_right fun _ => ?_)
  simp only [Token.openStarts_append]
  rfl

theorem accepted_of_plain (hstop : token.subkind ≠ .stop) (hkind : token.kind ≠ .unknown) :
    Accepted starts token := ⟨fun h => absurd h hstop, fun h => absurd h hkind⟩

theorem accepted_of_known (hstarts : starts ≠ []) (hkind : token.kind ≠ .unknown) :
    Accepted starts token := ⟨fun _ => hstarts, fun h => absurd h hkind⟩

theorem Noted.add (h : Noted s) (more : List Token)
    (htokens : s'.tokens.toList = s.tokens.toList ++ more) (hfault : s'.fault = s.fault)
    (hmore : AcceptedFrom (openStarts s.tokens.toList) more) : Noted s' := by
  unfold Noted
  rw [htokens, hfault, allAccepted_append, and_iff_left hmore]
  exact h

theorem Noted.addOne (h : Noted s) (htokens : s'.tokens.toList = s.tokens.toList ++ [token])
    (hfault : s'.fault = s.fault) (htoken : Accepted (openStarts s.tokens.toList) token) :
    Noted s' := h.add [token] htokens hfault (acceptedFrom_single.2 htoken)

theorem noted_of_fault (htokens : s'.tokens.toList = s.tokens.toList ++ [token])
    (hfault : s'.fault ≠ none) (htoken : ¬ Accepted (openStarts s.tokens.toList) token) :
    Noted s' := by
  unfold Noted
  rw [htokens, allAccepted_append, acceptedFrom_single]
  exact ⟨fun h => absurd h hfault, fun h => absurd h.2 htoken⟩

theorem Noted.endPending (h : Noted s) {kind : Token.Kind} {subkind : Token.Subkind}
    (hsubkind : subkind ≠ .stop) (hkind : kind = .unknown → s.pending ∉ strayClosers) :
    Noted (s.endPending kind subkind) := by
  unfold State.endPending
  split
  · exact h
  · exact h.addOne Array.toList_push rfl ⟨fun heq => absurd heq hsubkind, hkind⟩

/-- What is read of a word is no closer. -/
theorem pending_not_stray (h : PendingShape locale s unread)
    (hmode : s.mode = .ordinary ∨ s.mode = .number) : s.pending ∉ strayClosers := by
  have habsorbs : absorbs locale [] .ordinary s.pending.toList unread = some s.mode := by
    unfold PendingShape at h
    rcases hmode with hs | hs <;> rw [hs] at h ⊢ <;> exact h
  intro hmem
  obtain ⟨c, hpending, hc⟩ : ∃ c, s.pending.toList = [c] ∧ endsWord c := by
    simp only [strayClosers, List.mem_cons, List.not_mem_nil, or_false] at hmem
    rcases hmem with h | h | h <;> rw [h] <;> exact ⟨_, rfl, rfl⟩
  rw [hpending] at habsorbs
  simp [absorbs, absorb, absorbOrdinary, hc] at habsorbs

theorem Noted.endStray (h : Noted s) (hshaped : Shaped locale s unread)
    (hmode : s.mode = .ordinary ∨ s.mode = .number) :
    Noted (State.endStray { s with mode := .ordinary }) := by
  have hstray : s.pending ∉ strayClosers := pending_not_stray hshaped.pending hmode
  exact Noted.endPending (s := { s with mode := .ordinary }) h (by simp) fun _ => hstray

/-- A fault is noted where a token is added that is not accepted. -/
theorem Move.noted (h : Move locale s unread s' unread')
    (htracks : Tracks locale formula.toList s unread) (hshaped : Shaped locale s unread)
    (hs : Noted s) : Noted s' := by
  have hkinds := htracks.pieces.kept.kinds
  have hnested := htracks.pieces.nested
  cases h with
  | absorb =>
    unfold Noted
    simp only [tokens_extend, fault_extend]
    exact hs
  | endOperand => exact Noted.endPending (s := { s with mode := .ordinary }) hs (by simp) (by simp)
  | sign _ hsign =>
    exact hs.addOne Array.toList_push rfl (accepted_of_plain
      (plain_of_plainKinds (plain_of_signs hsign)).2 (kind_of_signs hsign))
  | gap | closeText =>
    exact hs.addOne Array.toList_push rfl (accepted_of_plain (by simp) (by simp))
  | @refuse c _ _ _ hc =>
    have hstray : String.singleton c ∈ strayClosers := by
      rcases hc with rfl | rfl | rfl <;> decide
    exact noted_of_fault Array.toList_push (note_ne_none _ _) fun h => h.2 rfl hstray
  | openText hmode => exact hs.endStray hshaped hmode
  | textChar | textQuote | errorChar => exact hs
  | openError hmode =>
    unfold Noted openErrorLiteral
    simp only [tokens_extend, fault_extend]
    split
    · exact hs
    · exact hs.endStray hshaped hmode
  | closeError =>
    exact Noted.endPending (s := { s.take _ with mode := .ordinary }) hs (by simp) (by simp)
  | openArray hmode =>
    have hstray := hs.endStray hshaped hmode
    have harray : Noted (State.mark { State.endStray { s with mode := .ordinary } with
        openings := .array s.offset :: s.openings } Token.arrayName .function .start 1) :=
      hstray.addOne Array.toList_push rfl (accepted_of_plain (by simp) (by simp))
    exact harray.addOne Array.toList_push rfl (accepted_of_plain (by simp) (by simp))
  | nextRow hidle hopen =>
    rw [hopen] at hkinds
    obtain ⟨row, outer, hstarts, -⟩ := List.map_eq_cons_iff.1 hkinds
    rw [nextRow_of_row hidle hopen]
    refine hs.add [⟨"", .function, .stop, s.offset, s.offset⟩,
      ⟨";", .argument, .unspecified, s.offset, s.offset + 1⟩,
      ⟨Token.arrayRowName, .function, .start, s.offset + 1, s.offset + 1⟩] ?_ rfl
      (acceptedFrom_cons.2 ⟨accepted_of_known (by simp [hstarts]) (by simp),
        acceptedFrom_cons.2 ⟨accepted_of_plain (by simp) (by simp),
          acceptedFrom_single.2 (accepted_of_plain (by simp) (by simp))⟩⟩)
    rw [toList_openRow, toList_mark, toList_mark, List.append_assoc, List.append_assoc]
    rfl
  | closeArray hidle hopen =>
    rw [hopen] at hkinds hnested
    cases hnested
    obtain ⟨row, _, hstarts, -, hkinds⟩ := List.map_eq_cons_iff.1 hkinds
    obtain ⟨array, outer, rfl, -⟩ := List.map_eq_cons_iff.1 hkinds
    rw [closeArray_of_row hidle hopen]
    refine hs.add [⟨"", .function, .stop, s.offset, s.offset⟩,
      ⟨"", .function, .stop, s.offset, s.offset + 1⟩] ?_ rfl
      (acceptedFrom_cons.2 ⟨accepted_of_known (by simp [hstarts]) (by simp),
        acceptedFrom_single.2 (accepted_of_known (by simp [hstarts, startsBehind]) (by simp))⟩)
    rw [toList_mark, toList_mark, List.append_assoc]
    rfl
  | openGroup =>
    refine hs.addOne Array.toList_push rfl ?_
    split
    · exact accepted_of_plain (by simp) (by simp)
    · exact accepted_of_plain (by simp) (by simp)
  | closeGroup hidle hopen =>
    rw [hopen] at hkinds
    obtain ⟨opener, outer, hstarts, -⟩ := List.map_eq_cons_iff.1 hkinds
    have hkind := hshaped.brackets _ (by rw [hopen]; exact List.mem_cons_self)
    rw [closeGroup_of_bracket hidle hopen]
    refine hs.addOne Array.toList_push rfl (accepted_of_known (by simp [hstarts]) ?_)
    rcases hkind with h | h <;> simp [h]
  | closeNothing _ hopen hrow =>
    have hnil : s.openings = [] := hnested.eq_nil hopen hrow
    rw [hnil, List.map_nil, List.map_eq_nil_iff] at hkinds
    exact noted_of_fault Array.toList_push (note_ne_none _ _) fun h => h.1 rfl hkinds

theorem fault_noteUnclosed_iff (s : State) :
    (noteUnclosed s).fault = none ↔ s.fault = none ∧ s.openings = [] := by
  unfold noteUnclosed
  split
  · rename_i hopenings
    simp [hopenings]
  all_goals
    rename_i hopenings
    simp [hopenings, note_ne_none]

/-- A fault is noted at the end of a text where something is unfinished or unclosed. -/
theorem fault_finish_iff (s : State) : (finish s).fault = none ↔
    (s.mode = .ordinary ∨ s.mode = .number) ∧ s.fault = none ∧ s.openings = [] := by
  have hopenings : (finishToken s).openings = s.openings := by
    have h := openings_finish s
    rwa [finish, openings_noteUnclosed] at h
  rw [finish, fault_noteUnclosed_iff]
  show (finishToken s).fault = none ∧ (finishToken s).openings = [] ↔ _
  rw [hopenings, ← and_assoc]
  refine and_congr_left fun _ => ⟨fun h => ?_, fun h => ?_⟩
  · obtain ⟨hmode, -, hfault⟩ := mode_of_finishToken h
    exact ⟨hmode, hfault⟩
  · obtain ⟨hmode, hfault⟩ := h
    have hcode : finishToken s = s.endOperand := by
      rcases hmode with hs | hs <;> rw [finishToken, hs]
    rw [hcode, State.endOperand, State.endPending]
    split <;> exact hfault

end

/-- Whether a token of a mode of its own is being read. -/
def Mode.unfinished : Mode → Bool
  | .text | .path | .bracket _ | .errorLiteral _ => true
  | .number | .ordinary => false

theorem Mode.unfinished_eq_false_iff {mode : Mode} :
    mode.unfinished = false ↔ mode = .ordinary ∨ mode = .number := by
  cases mode <;> simp [unfinished]

/-- The mode in which a scan reaches the end of a formula. -/
def lastMode (locale : Locale) (formula : String) : Mode :=
  (run locale (body formula.toList) (.initial (leadSize formula))).mode

/-- A scan without a fault ends in a mode without an end of its own, leaves nothing open and has
only tokens that a strict reader accepts. -/
theorem fault_ofFormula_iff (locale : Locale) (formula : String) :
    (ofFormula locale formula).fault = none ↔ (lastMode locale formula).unfinished = false ∧
      (ofFormula locale formula).openings = [] ∧
        AllAccepted (ofFormula locale formula).tokens.toList := by
  obtain ⟨-, htracks⟩ := tracks_run locale formula
  have hrun : Noted (run locale (body formula.toList) (.initial (leadSize formula))) :=
    ((run_moves (body formula.toList) (.inl rfl)).preserves (fun s unread =>
      (Ready s ∧ Tracks locale formula.toList s unread) ∧ Shaped locale s unread ∧ Noted s)
      (fun hmove h => ⟨⟨hmove.ready, hmove.tracks h.1.1 h.1.2⟩, hmove.shaped h.2.1,
        hmove.noted h.1.2 h.2.1 h.2.2⟩)
      ⟨⟨.inl rfl, tracks_initial locale formula⟩, shaped_initial locale _ _,
        ⟨fun _ => throughout_nil, fun _ => rfl⟩⟩).2.2
  rw [ofFormula, fault_finish_iff, Mode.unfinished_eq_false_iff, lastMode, openings_finish]
  generalize run locale (body formula.toList) (.initial (leadSize formula)) = s at hrun
  refine and_congr_right fun hmode => ?_
  have hended : Noted s.endOperand := hrun.endPending (by simp) (by simp)
  have hfault : s.endOperand.fault = s.fault := by
    unfold State.endOperand State.endPending
    split <;> rfl
  have hsame : s.endOperand.fault = none ↔ AllAccepted s.endOperand.tokens.toList := hended
  rw [tokens_finish_of_mode hmode, ← hsame, hfault, and_comm]

end Scan

namespace Formula

/-- What a strict reader asks of a formula with these tokens. -/
structure Faultless (locale : Locale) (formula : String) (tokens : List Token) : Prop where
  /-- Every start is closed. -/
  closed : openStarts tokens = []
  /-- Every stop closes a start. -/
  matched : ∀ before token after, tokens = before ++ token :: after → token.subkind = .stop →
    openStarts before ≠ []
  /-- No closer is left over. -/
  known : ∀ token ∈ tokens, token.kind = .unknown → token.value ∉ strayClosers
  /-- The formula does not end inside a text, a path, square brackets or an error literal. -/
  finished : (Scan.lastMode locale formula).unfinished = false

theorem faultless_iff {locale : Locale} {formula : String} {tokens : List Token} :
    Faultless locale formula tokens ↔ (Scan.lastMode locale formula).unfinished = false ∧
      openStarts tokens = [] ∧ AllAccepted tokens := by
  refine ⟨fun h => ⟨h.finished, h.closed, fun before token after heq => ?_⟩, ?_⟩
  · exact ⟨h.matched before token after heq, h.known token (by simp [heq])⟩
  · rintro ⟨hfinished, hclosed, haccepted⟩
    refine ⟨hclosed, fun before token after heq => (haccepted before token after heq).1, ?_, hfinished⟩
    intro token ht
    obtain ⟨before, after, heq⟩ := List.append_of_mem ht
    exact (haccepted before token after heq).2

/-- The tokens of every formula keep to the discipline of brackets. A strict reader accepts a formula
exactly if its starts are closed, its stops close something, no closer is left over, and it does not
end inside a token. -/
theorem tokens_disciplined (locale : Locale) (formula : String) :
    Disciplined formula (tokens locale formula) ∧
      ((∃ tokens, checkedTokens locale formula = .ok tokens) ↔
        Faultless locale formula (tokens locale formula)) := by
  have hpieces := Scan.pieces_ofFormula locale formula
  have hkept := hpieces.kept
  have hleaves : Token.Leaves (Scan.ofFormula locale formula).tokens.toList (tokens locale formula) :=
    (Token.thinned_from none none _ (Token.kind_of_pieces hpieces)).leaves hkept.bracketed
  have hchecked : (∃ tokens, checkedTokens locale formula = .ok tokens) ↔
      (Scan.ofFormula locale formula).fault = none := by
    unfold checkedTokens
    cases hfault : (Scan.ofFormula locale formula).fault <;> simp [hfault]
  have hclosed : (Scan.ofFormula locale formula).openings = [] ↔
      openStarts (Scan.ofFormula locale formula).tokens.toList = [] := by
    rw [← List.map_eq_nil_iff (f := Scan.Opening.kind), ← hkept.kinds, List.map_eq_nil_iff]
  refine ⟨hleaves.disciplined hkept.disciplined, ?_⟩
  rw [hchecked, faultless_iff, Scan.fault_ofFormula_iff, hclosed, ← hleaves.openStarts_eq_nil_iff,
    ← hleaves.allAccepted_iff hkept.bracketed]

end Formula

end SheetFormula
