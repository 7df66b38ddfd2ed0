import SheetFormula.Proofs.Readable
import SheetFormula.Proofs.Steps

/-!
# Why a formula is refused

Main statement: `Formula.parse_fails`, which errors the reader of a formula can meet.

1. The parser knows every token of a formula, so that it stops for a limit or because a token is
   misplaced: `cause_of_parse`.
2. A formula is empty if its tokens are. `Kept` raw tokens leave a token behind, which all of them do
   except white space and signs `+` that stand behind nothing.
3. A scan that has met nothing else is `Blank`, and it is `Marked` from then on: `met_run`.
-/

namespace SheetFormula

/-! ## The parser -/

namespace Parser

open Token (Readable)

section

variable {limits : Limits} {s s' : State}

/-- The parser knows what is still to read. -/
def State.Readable (s : State) : Prop :=
  s.cursor.final.Readable ∧ ∀ token ∈ s.cursor.unread, token.Readable

theorem State.Readable.peek (h : s.Readable) : s.peek.Readable := by
  rw [State.peek, Token.Cursor.peek]
  cases hunread : s.cursor.unread with
  | nil => exact h.1
  | cons token rest => exact h.2 token (by rw [hunread]; exact List.mem_cons_self)

theorem readable_advance (h : s.advance = .ok s') (hs : s.Readable) : s'.Readable := by
  obtain ⟨hunread, hfinal, -⟩ := advance_eq_ok h
  refine ⟨hfinal ▸ hs.1, fun token ht => hs.2 token ?_⟩
  rw [hunread]
  exact List.mem_cons_of_mem _ ht

theorem Step.readable (h : Step limits s s') (hs : s.Readable) : s'.Readable := by
  cases h with
  | wait | leaf | node => exact hs
  | pass hadvance _ _ => exact readable_advance hadvance hs
  | enter hadvance _ _ | leave hadvance _ =>
    obtain ⟨hfinal, hunread⟩ := readable_advance hadvance hs
    exact ⟨hfinal, hunread⟩

theorem Run.readable (h : Run limits s s') (hs : s.Readable) : s'.Readable := by
  induction h with
  | refl => exact hs
  | tail _ hstep ih => exact hstep.readable ih

/-- The causes for which a run stops on tokens that it knows. -/
def expected (limits : Limits) : List SyntaxError :=
  .tooDeep limits.depth :: .tooHigh limits.height :: misplacements

theorem message_of_expected {cause : SyntaxError} (h : cause ∈ expected limits) :
    cause.message = "Invalid Syntax" ∨
      cause.message = "Formula nesting exceeds " ++ toString limits.depth ++ " levels" ∨
      cause.message = "Expression exceeds " ++ toString limits.height ++ " levels" := by
  rcases List.mem_cons.1 h with rfl | h
  · exact .inr (.inl rfl)
  rcases List.mem_cons.1 h with rfl | h
  · exact .inr (.inr rfl)
  · have hmessages : ∀ cause ∈ misplacements, cause.message = "Invalid Syntax" := by decide
    exact .inl (hmessages cause h)

theorem known_of_expected {cause : SyntaxError} (h : cause ∈ expected limits) :
    (∀ symbol, cause ≠ .unsupportedOperator symbol) ∧ ∀ text, cause ≠ .invalidNumber text := by
  constructor <;> rintro _ rfl <;> simp [expected, misplacements] at h

theorem Failing.mem_expected {cause : SyntaxError} (h : Failing limits s cause) (hs : s.Readable) :
    cause ∈ expected limits := by
  cases h with
  | misplaced h => exact List.mem_cons_of_mem _ (List.mem_cons_of_mem _ h)
  | operator h | number h => exact absurd hs.peek h
  | tooDeep => exact List.mem_cons_self
  | tooHigh => exact List.mem_cons_of_mem _ List.mem_cons_self

end

/-- A list of tokens that the parser knows is refused because it is empty, or for an expected cause. -/
theorem cause_of_parse {limits : Limits} {tokens : List Token} {cause : SyntaxError}
    (htokens : ∀ token ∈ tokens, token.Readable) (h : parse limits tokens = .error cause) :
    tokens = [] ∧ cause = .emptyFormula ∨ tokens ≠ [] ∧ cause ∈ expected limits := by
  by_cases hempty : tokens = []
  · subst hempty
    cases h
    exact .inl ⟨rfl, rfl⟩
  refine .inr ⟨hempty, ?_⟩
  have hplain : cause ∈ misplacements → cause ∈ expected limits := fun h =>
    List.mem_cons_of_mem _ (List.mem_cons_of_mem _ h)
  rw [parse, if_neg (by simpa using hempty)] at h
  cases hrun : expression limits (3 * tokens.length + 3) (.initial tokens) with
  | error cause' =>
    rw [hrun] at h
    cases h
    have htandem := (tandem (Nat.le_refl limits.depth) (Nat.le_refl limits.height)
      (3 * tokens.length + 3)).expression (.initial tokens)
    obtain ⟨s, hreached, hfailing⟩ := htandem.fails cause hrun
    refine hfailing.mem_expected (hreached.readable ⟨?_, htokens⟩)
    exact Token.readable_of_kind (by simp [State.initial, Token.Cursor.ofTokens])
      (by simp [State.initial, Token.Cursor.ofTokens]) (by simp [State.initial, Token.Cursor.ofTokens])
      (by simp [State.initial, Token.Cursor.ofTokens, Token.isNumber, Token.is])
  | ok s =>
    rw [hrun, ok_bind] at h
    split at h
    · cases h
      exact hplain (by decide)
    unfold State.pop at h
    split at h
    · cases h
      exact hplain (by decide)
    · rw [ok_bind] at h
      dsimp only at h
      split at h
      · cases h
        exact hplain (by decide)
      · cases h

end Parser

/-! ## Tokens that are left -/

namespace Token

/-- Whether a raw token leaves a token behind in any case. -/
def Kept (raw : Token) : Prop := raw.kind ≠ .whitespace ∧ (raw.kind = .infixOp → raw.value ≠ "+")

section

variable {locale : Locale} {previous resolved : Option Token} {raw : Token} {raws : List Token}

theorem noop_of_not_kept (hkind : raw.kind ≠ .whitespace) (h : ¬ raw.Kept)
    (hresolved : behindValue resolved = false) :
    resolveOne locale resolved raw = { raw with kind := .noop } := by
  obtain ⟨hbinary, hvalue⟩ : raw.kind = .infixOp ∧ raw.value = "+" := by
    by_contra hnot
    exact h ⟨hkind, fun hbinary hvalue => hnot ⟨hbinary, hvalue⟩⟩
  unfold resolveOne
  rw [hbinary]
  simp [hvalue, resolveSign, hresolved]

theorem not_kept_of_noop (hkind : raw.kind ≠ .noop) (h : (resolveOne locale resolved raw).kind = .noop) :
    ¬ raw.Kept := by
  rintro ⟨-, hvalue⟩
  by_cases hbinary : raw.kind = .infixOp
  · unfold resolveOne at h
    rw [hbinary] at h
    simp only [hvalue hbinary, if_false] at h
    unfold resolveSign at h
    split_ifs at h <;> simp [hbinary] at h
  · exact hkind (kind_resolveOne hbinary ▸ h)

/-- Nothing is left of raw tokens that are not kept. -/
theorem normal_eq_nil (hprevious : previous.any endsValue = false) (hresolved : behindValue resolved = false)
    (h : ∀ raw ∈ raws, ¬ raw.Kept) :
    withoutNoops (resolveFrom locale resolved (settleFrom previous raws)) = [] := by
  induction raws generalizing previous resolved with
  | nil => rfl
  | cons raw raws ih =>
    have hrest : ∀ raw ∈ raws, ¬ raw.Kept := fun raw hr => h raw (List.mem_cons_of_mem _ hr)
    have hraw : raw.kind = .whitespace ∨ raw.kind = .infixOp := by
      by_contra hnot
      exact h raw List.mem_cons_self ⟨fun heq => hnot (.inl heq), fun heq => absurd (.inr heq) hnot⟩
    have hends : (some raw).any endsValue = false := by
      rcases hraw with hkind | hkind <;>
        simp [endsValue, closesBracket, closesCall, closesGroup, is, hkind]
    by_cases hkind : raw.kind = .whitespace
    · rw [settleFrom, if_neg (by simp [hkind]), hprevious]
      exact ih hends hresolved hrest
    · rw [settleFrom, if_pos hkind, resolveFrom, noop_of_not_kept hkind (h raw List.mem_cons_self) hresolved,
        withoutNoops, List.filter_cons, if_neg (by simp)]
      exact ih hends (by simp [behindValue, closesBracket, closesCall, closesGroup, is, isPostfixOp]) hrest

/-- A kept raw token leaves a token behind. -/
theorem not_kept_of_normal (hraws : ∀ raw ∈ raws, raw.kind ≠ .noop ∧ (raw.kind = .whitespace → raw.value = " "))
    (h : withoutNoops (resolveFrom locale resolved (settleFrom previous raws)) = []) :
    ∀ raw ∈ raws, ¬ raw.Kept := by
  induction raws generalizing previous resolved with
  | nil => simp
  | cons raw raws ih =>
    obtain ⟨hnoop, hspace⟩ := hraws raw List.mem_cons_self
    have hrest := fun (previous resolved : Option Token) => @ih previous resolved
      fun raw hr => hraws raw (List.mem_cons_of_mem _ hr)
    rcases @normal_cases locale previous resolved raw raws hspace with
      ⟨-, heq⟩ | ⟨-, -, -, heq⟩ | ⟨hdropped, resolved', heq⟩
    · rw [heq] at h
      cases h
    · rw [heq] at h
      cases h
    · rw [heq] at h
      refine List.forall_mem_cons.2 ⟨?_, hrest _ _ h⟩
      rcases hdropped with hkind | hdropped
      · exact fun hkept => hkept.1 hkind
      · exact not_kept_of_noop hnoop hdropped

end

end Token

/-! ## Scans of nothing -/

namespace Scan

/-- The characters of which nothing is left. -/
def leavesNothing (c : Char) : Bool := isGap c || c == '+'

/-- A scan that has met blanks only. -/
structure Blank (s : State) : Prop where
  idle : Idle s
  tokens : ∀ raw ∈ s.tokens.toList, ¬ raw.Kept
  openings : s.openings = []
  fault : s.fault = none

/-- A scan that has met something else, which is pending or among its tokens. -/
def Marked (s : State) : Prop :=
  s.mode = .text ∨ s.pending ≠ "" ∨ ∃ raw ∈ s.tokens.toList, raw.Kept

section

variable {locale : Locale} {s s' : State} {unread unread' : List Char}

theorem marked_of_push {tokens : Array Token} {raw : Token} (htokens : s.tokens = tokens.push raw)
    (hkind : raw.kind ≠ .whitespace) (hvalue : raw.kind = .infixOp → raw.value ≠ "+") : Marked s :=
  .inr (.inr ⟨raw, by rw [htokens, Array.toList_push]; simp, hkind, hvalue⟩)

theorem marked_endPending {kind : Token.Kind} {subkind : Token.Subkind} (hp : s.pending ≠ "")
    (hkind : kind ≠ .whitespace) (hbinary : kind ≠ .infixOp) : Marked (s.endPending kind subkind) := by
  rw [endPending_of_ne hp]
  exact marked_of_push rfl hkind fun h => absurd h hbinary

/-- The signs that are not blank. -/
theorem kept_of_signs {sign : String × Token.Kind × Token.Subkind} (h : sign ∈ signs) :
    sign.1.toList.all leavesNothing ∧ sign.2.1 = .infixOp ∧ sign.1 = "+" ∨
      sign.1.toList.all leavesNothing = false ∧ sign.2.1 ≠ .whitespace ∧ (sign.2.1 = .infixOp → sign.1 ≠ "+") := by
  have hsigns : ∀ sign ∈ signs, sign.1.toList.all leavesNothing ∧ sign.2.1 = .infixOp ∧ sign.1 = "+" ∨
      sign.1.toList.all leavesNothing = false ∧ sign.2.1 ≠ .whitespace ∧
        (sign.2.1 = .infixOp → sign.1 ≠ "+") := by decide
  exact hsigns sign h

/-- A move either takes blanks only, and leaves nothing but their token, or it leaves its mark. -/
theorem Move.marks (h : Move locale s unread s' unread')
    (hbrackets : ∀ token, .bracket token ∈ s.openings → token.kind = .function ∨ token.kind = .subexpr) :
    Marked s' ∧ (Idle s → unread.all leavesNothing = false) ∨
      Idle s ∧ ∃ value kind subkind taken, unread = taken ++ unread' ∧ taken.all leavesNothing ∧
        s' = s.mark value kind subkind taken.length ∧
        (kind = .whitespace ∨ kind = .infixOp ∧ value = "+") := by
  cases h with
  | @absorb c rest next habsorb =>
    refine .inl ⟨.inr (.inl (by simp)), fun hidle => ?_⟩
    rw [hidle.1, hidle.2] at habsorb
    have hends : endsWord c = false := by
      simp only [Scan.absorb, absorbOrdinary] at habsorb
      split_ifs at habsorb with hends <;> simpa using hends
    have hblank : leavesNothing c = false := by
      refine Bool.eq_false_iff.2 fun hblank => ?_
      have hc : c = ' ' ∨ c = '\n' ∨ c = '+' := by simpa [leavesNothing, isGap, or_assoc] using hblank
      rcases hc with rfl | rfl | rfl <;> exact absurd hends (by decide)
    rw [List.all_cons, hblank, Bool.false_and]
  | endOperand hmode hp hc =>
    exact .inl ⟨marked_endPending hp (by simp) (by simp), fun hidle => absurd hidle.2 hp⟩
  | @sign value kind subkind rest hidle hsign hfits =>
    rcases kept_of_signs hsign with ⟨hblank, hkind, hvalue⟩ | ⟨hblank, hkind, hvalue⟩
    · exact .inr ⟨hidle, value, kind, subkind, value.toList, rfl, hblank, rfl, .inr ⟨hkind, hvalue⟩⟩
    · refine .inl ⟨marked_of_push rfl hkind hvalue, fun _ => ?_⟩
      rw [List.all_append, hblank, Bool.false_and]
  | @gap gaps rest hidle hne hgap =>
    refine .inr ⟨hidle, " ", .whitespace, .unspecified, gaps, rfl, ?_, rfl, .inl rfl⟩
    refine List.all_eq_true.2 fun c hc => ?_
    rw [leavesNothing, hgap c hc, Bool.true_or]
  | refuse hidle hc =>
    refine .inl ⟨marked_of_push rfl (by simp) (by simp), fun _ => ?_⟩
    rcases hc with rfl | rfl | rfl <;> rfl
  | openText hmode => exact .inl ⟨.inl rfl, fun _ => rfl⟩
  | textChar hmode | textQuote hmode =>
    exact .inl ⟨.inl hmode, fun hidle => by rw [hidle.1] at hmode; cases hmode⟩
  | closeText hmode => exact .inl ⟨marked_of_push rfl (by simp) (by simp), fun _ => rfl⟩
  | openError hmode => exact .inl ⟨.inr (.inl (by simp [openErrorLiteral])), fun _ => rfl⟩
  | errorChar hmode hread =>
    exact .inl ⟨.inr (.inl (by simp [State.take])), fun hidle => by rw [hidle.1] at hmode; cases hmode⟩
  | closeError hmode hread =>
    exact .inl ⟨marked_endPending (by simp [State.take]) (by simp) (by simp),
      fun hidle => by rw [hidle.1] at hmode; cases hmode⟩
  | openArray hmode => exact .inl ⟨marked_of_push rfl (by simp) (by simp), fun _ => rfl⟩
  | nextRow hidle hopen =>
    refine .inl ⟨?_, fun _ => rfl⟩
    rw [nextRow_of_row hidle hopen]
    exact marked_of_push rfl (by simp) (by simp)
  | closeArray hidle hopen =>
    refine .inl ⟨?_, fun _ => rfl⟩
    rw [closeArray_of_row hidle hopen]
    exact marked_of_push rfl (by simp) (by simp)
  | openGroup hmode =>
    refine .inl ⟨marked_of_push rfl ?_ ?_, fun _ => rfl⟩
    · split <;> simp
    · split <;> simp
  | @closeGroup opening _ _ hidle hopen =>
    refine .inl ⟨?_, fun _ => rfl⟩
    rw [closeGroup_of_bracket hidle hopen]
    have hkind := hbrackets opening (hopen ▸ List.mem_cons_self)
    exact marked_of_push rfl (by rcases hkind with h | h <;> simp [h])
      (by rcases hkind with h | h <;> simp [h])
  | closeNothing hidle => exact .inl ⟨marked_of_push rfl (by simp) (by simp), fun _ => rfl⟩

/-- What a scan has met so far is blank, or it has left its mark. -/
def Met (text : List Char) (s : State) (unread : List Char) : Prop :=
  Blank s ∧ (∃ taken, text = taken ++ unread ∧ taken.all leavesNothing) ∨ Marked s ∧ text.all leavesNothing = false

theorem Move.met {text : List Char} (h : Move locale s unread s' unread')
    (hs : Shaped locale s unread) (hmet : Met text s unread) : Met text s' unread' := by
  rcases h.marks hs.brackets with ⟨hmarked, hunread⟩ | ⟨hidle, value, kind, subkind, taken, htaken, hall, rfl, hkind⟩
  · refine .inr ⟨hmarked, ?_⟩
    rcases hmet with ⟨hblank, front, rfl, -⟩ | ⟨-, htext⟩
    · rw [List.all_append, hunread hblank.idle, Bool.and_false]
    · exact htext
  rcases hmet with ⟨hblank, front, hfront, hfronts⟩ | ⟨hmarked, htext⟩
  · refine .inl ⟨⟨hblank.idle, ?_, hblank.openings, hblank.fault⟩, front ++ taken, ?_, ?_⟩
    · rw [Scan.toList_mark]
      refine List.forall_mem_append.2 ⟨hblank.tokens, List.forall_mem_singleton.2 fun hkept => ?_⟩
      rcases hkind with rfl | ⟨rfl, rfl⟩
      · exact hkept.1 rfl
      · exact hkept.2 rfl rfl
    · rw [hfront, htaken, List.append_assoc]
    · rw [List.all_append, hfronts, hall, Bool.and_self]
  · refine .inr ⟨?_, htext⟩
    rcases hmarked with hmode | hp | ⟨raw, hraw, hkept⟩
    · rw [hidle.1] at hmode
      cases hmode
    · exact absurd hidle.2 hp
    · exact .inr (.inr ⟨raw, by rw [Scan.toList_mark]; exact List.mem_append_left _ hraw, hkept⟩)

theorem met_run (locale : Locale) (text : List Char) (offset : Nat) :
    Met text (run locale text (.initial offset)) [] :=
  ((run_moves text (.inl rfl)).preserves
    (fun s unread => Shaped locale s unread ∧ Met text s unread)
    (fun hmove h => ⟨hmove.shaped h.1, hmove.met h.1 h.2⟩)
    ⟨shaped_initial locale offset text, .inl ⟨⟨⟨rfl, rfl⟩, by simp [State.initial], rfl, rfl⟩, [], rfl, rfl⟩⟩).2

/-- At the end of the text, a mark is a token. -/
theorem kept_finishToken (h : Marked s) : ∃ raw ∈ (finishToken s).tokens.toList, raw.Kept := by
  have hemitted : ∀ (s : State) {kind : Token.Kind} {subkind : Token.Subkind}, 
      kind = .operand ∨ kind = .unknown → ∃ raw ∈ (s.emitPending kind subkind).tokens.toList, raw.Kept := by
    intro s kind subkind hkind
    refine ⟨⟨s.pending, kind, subkind, s.pendingStart, s.offset⟩, ?_, ?_⟩
    · show _ ∈ (s.tokens.push _).toList
      simp
    · rcases hkind with rfl | rfl <;> exact ⟨by simp, by simp⟩
  have hended : ∀ (s : State) {kind : Token.Kind} {subkind : Token.Subkind}, Marked s → s.mode ≠ .text →
      kind = .operand ∨ kind = .unknown → ∃ raw ∈ (s.endPending kind subkind).tokens.toList, raw.Kept := by
    intro s kind subkind hs hmode hkind
    unfold State.endPending
    split
    · rename_i hp
      rcases hs with hs | hs | hs
      · exact absurd hs hmode
      · exact absurd (String.isEmpty_iff.1 hp) hs
      · exact hs
    · exact hemitted s hkind
  unfold finishToken
  cases hmode : s.mode with
  | text => exact hemitted _ (.inl rfl)
  | path | bracket => exact hended (s.note _) h (by simp [State.note, hmode]) (.inl rfl)
  | errorLiteral => exact hended (s.note _) h (by simp [State.note, hmode]) (.inr rfl)
  | number | ordinary => exact hended s h (by simp [hmode]) (.inl rfl)

end

end Scan

/-! ## Formulas -/

namespace Formula

section

variable {locale : Locale} {formula : String}

/-- A scan of blanks leaves nothing behind. -/
theorem scan_of_blank (h : (Scan.body formula.toList).all Scan.leavesNothing) :
    (∀ raw ∈ (Scan.ofFormula locale formula).tokens.toList, ¬ raw.Kept) ∧
      (Scan.ofFormula locale formula).fault = none := by
  rcases Scan.met_run locale (Scan.body formula.toList) (Scan.leadSize formula) with
    ⟨hblank, -⟩ | ⟨-, hall⟩
  · have hfinish : Scan.ofFormula locale formula =
        { Scan.run locale (Scan.body formula.toList) (.initial (Scan.leadSize formula)) with
          mode := .ordinary } := by
      rw [Scan.ofFormula, Scan.finish, Scan.finishToken, hblank.idle.1]
      dsimp only
      rw [hblank.idle.endOperand, Scan.noteUnclosed, hblank.openings]
    rw [hfinish]
    exact ⟨hblank.tokens, hblank.fault⟩
  · rw [h] at hall
    cases hall

/-- The formulas without tokens are the blank ones. -/
theorem tokens_eq_nil_iff : tokens locale formula = [] ↔ (Scan.body formula.toList).all Scan.leavesNothing := by
  refine ⟨fun h => ?_, fun h => Token.normal_eq_nil rfl rfl (scan_of_blank h).1⟩
  rcases Scan.met_run locale (Scan.body formula.toList) (Scan.leadSize formula) with
    ⟨-, taken, htaken, hall⟩ | ⟨hmarked, -⟩
  · rw [htaken, List.append_nil]
    exact hall
  · obtain ⟨raw, hraw, hkept⟩ := Scan.kept_finishToken hmarked
    rw [← Scan.tokens_finish] at hraw
    have hkinds := Token.kind_of_pieces (Scan.pieces_ofFormula locale formula)
    exact absurd hkept (Token.not_kept_of_normal hkinds h raw hraw)

end

/-- A formula is refused for its first fault if faults are looked for, and else its tokens are read. -/
theorem parse_eq (options : Options) (formula : String) :
    (options.strict ∧ ∃ fault, checkedTokens options.locale formula = .error fault ∧
      parse options formula = .error (.lex fault)) ∨
    parse options formula =
      (Parser.parse options.limits (tokens options.locale formula)).mapError .grammar := by
  obtain ⟨locale, limits, strict⟩ := options
  cases hfault : (Scan.ofFormula locale formula).fault with
  | none => exact .inr (parse_of_faultless strict hfault)
  | some fault =>
    cases strict with
    | false => exact .inr rfl
    | true =>
      have hchecked : checkedTokens locale formula = .error fault := by
        unfold checkedTokens
        simp only [hfault]
      refine .inl ⟨rfl, fault, hchecked, ?_⟩
      rw [parse, Options.tokens, if_pos rfl, hchecked]
      rfl

theorem leavesNothing_iff {c : Char} : Scan.leavesNothing c ↔ c = ' ' ∨ c = '\n' ∨ c = '+' := by
  simp [Scan.leavesNothing, Scan.isGap, or_assoc]

/-- Which errors the reader of a formula meets: the fault of a scan that looks for faults, or else one of
four, of which the first one says exactly that the formula is blank. -/
theorem parse_fails (options : Options) (formula : String) :
    (∀ error, parse options formula = .error error →
      (options.strict ∧ ∃ fault, checkedTokens options.locale formula = .error fault ∧ error = .lex fault) ∨
      ∃ cause, error = .grammar cause ∧
        (cause.message = "Empty formula" ∨ cause.message = "Invalid Syntax" ∨
          cause.message = "Formula nesting exceeds " ++ toString options.limits.depth ++ " levels" ∨
          cause.message = "Expression exceeds " ++ toString options.limits.height ++ " levels") ∧
        (∀ symbol, cause ≠ .unsupportedOperator symbol) ∧ ∀ text, cause ≠ .invalidNumber text) ∧
    (parse options formula = .error (.grammar .emptyFormula) ↔
      ∀ c ∈ Scan.body formula.toList, c = ' ' ∨ c = '\n' ∨ c = '+') := by
  have hreadable := readable_tokens options.locale formula
  have hgrammar : ∀ {cause : SyntaxError},
      (Parser.parse options.limits (tokens options.locale formula)).mapError FormulaError.grammar =
        .error (.grammar cause) →
      Parser.parse options.limits (tokens options.locale formula) = .error cause := by
    intro cause h
    generalize Parser.parse options.limits (tokens options.locale formula) = outcome at h ⊢
    cases outcome <;> cases h
    rfl
  refine ⟨fun error h => ?_, fun h c hc => ?_, fun h => ?_⟩
  · rcases parse_eq options formula with ⟨hstrict, fault, hchecked, heq⟩ | heq
    · rw [heq] at h
      cases h
      exact .inl ⟨hstrict, fault, hchecked, rfl⟩
    · right
      rw [heq] at h
      obtain ⟨cause, rfl⟩ : ∃ cause, error = .grammar cause := by
        generalize Parser.parse options.limits (tokens options.locale formula) = outcome at h
        cases outcome <;> cases h
        exact ⟨_, rfl⟩
      refine ⟨cause, rfl, ?_⟩
      rcases Parser.cause_of_parse hreadable (hgrammar h) with ⟨-, rfl⟩ | ⟨-, hcause⟩
      · exact ⟨.inl rfl, fun _ => by simp, fun _ => by simp⟩
      · exact ⟨.inr (Parser.message_of_expected hcause), Parser.known_of_expected hcause⟩
  · rcases parse_eq options formula with ⟨-, fault, -, heq⟩ | heq
    · rw [heq] at h
      cases h
    · rw [heq] at h
      rcases Parser.cause_of_parse hreadable (hgrammar h) with ⟨hnil, -⟩ | ⟨-, hcause⟩
      · exact leavesNothing_iff.1 (List.all_eq_true.1 (tokens_eq_nil_iff.1 hnil) c hc)
      · exact absurd hcause (by simp [Parser.expected, Parser.misplacements])
  · have hblank : (Scan.body formula.toList).all Scan.leavesNothing :=
      List.all_eq_true.2 fun c hc => leavesNothing_iff.2 (h c hc)
    obtain ⟨locale, limits, strict⟩ := options
    rw [parse_of_faultless strict (scan_of_blank hblank).2, tokens_eq_nil_iff.2 hblank]
    rfl

end Formula

end SheetFormula
