import Mathlib
import SheetFormula.Proofs.Prefixes
import SheetFormula.Proofs.Tiling
import SheetFormula.Segment

/-!
# What encloses the cursor

Main statement: `Formula.call_of_slice`, that the call around the cursor and the argument of it depend
on the text in front of the cursor only, unless a row of an array ends there.

1. The open brackets in front of the cursor are those behind the marks up to it: `frames_passed`.
2. The marks of the text in front of the cursor are those of the formula, but for the end of the row:
   `early_front`.
3. The frames have the names of the open starts: `names_foldl`. So where a row ends, its array encloses
   the cursor in the formula, and the row encloses it in the text in front.
-/

namespace SheetFormula

open String (utf8Len)

namespace Token

/-! ## Marks -/

/-- What the passes leave of a mark. -/
def stripped (raw : Token) : Token := if raw.kind = .function then stripAt raw else raw

section

variable {locale : Locale} {previous : Option Token} {raw : Token} {place : Nat} {raws tokens : List Token}

theorem kind_of_isMark (h : raw.isMark) :
    raw.kind = .function ∨ raw.kind = .subexpr ∨ raw.kind = .argument := by
  simp only [isMark, opensBracket, closesBracket, opensCall, opensGroup, closesCall, closesGroup,
    separatesArguments, Token.is, Bool.or_eq_true, Bool.and_eq_true, beq_iff_eq] at h
  tauto

theorem resolveOne_of_kind (h : raw.kind = .function ∨ raw.kind = .subexpr ∨ raw.kind = .argument) :
    resolveOne locale previous raw = raw.stripped := by
  unfold resolveOne stripped
  rcases h with hkind | hkind | hkind <;> simp [hkind]

theorem isMark_of_kind (h : ¬ (raw.kind = .function ∨ raw.kind = .subexpr ∨ raw.kind = .argument)) :
    raw.isMark = false := Bool.eq_false_of_not_eq_true (mt kind_of_isMark h)

theorem isMark_of_bracket (hkind : raw.kind = .function ∨ raw.kind = .subexpr)
    (hsubkind : raw.subkind = .start ∨ raw.subkind = .stop) : raw.isMark := by
  rcases hkind with hkind | hkind <;> rcases hsubkind with hsubkind | hsubkind <;>
    simp [isMark, opensBracket, closesBracket, opensCall, opensGroup, closesCall, closesGroup, Token.is,
      hkind, hsubkind]

/-- Only the value of a mark is changed. -/
theorem exists_stripped (raw : Token) : ∃ value, raw.stripped = { raw with value := value } := by
  unfold stripped stripAt
  repeat' split
  all_goals exact ⟨_, rfl⟩

theorem is_stripped (raw : Token) (kind : Kind) (subkind : Subkind) :
    raw.stripped.is kind subkind = raw.is kind subkind := by
  obtain ⟨value, heq⟩ := raw.exists_stripped
  rw [heq]
  rfl

theorem kind_stripped (raw : Token) : raw.stripped.kind = raw.kind := by
  obtain ⟨value, heq⟩ := raw.exists_stripped
  rw [heq]

theorem isMark_stripped (raw : Token) : raw.stripped.isMark = raw.isMark := by
  obtain ⟨value, heq⟩ := raw.exists_stripped
  rw [heq]
  rfl

theorem isMark_resolveOne (locale : Locale) (previous : Option Token) (raw : Token) :
    (resolveOne locale previous raw).isMark = raw.isMark := by
  by_cases hkind : raw.kind = .function ∨ raw.kind = .subexpr ∨ raw.kind = .argument
  · rw [resolveOne_of_kind hkind, isMark_stripped]
  · rw [isMark_of_kind hkind]
    by_cases hsign : raw.kind = .infixOp
    · have hkinds : (resolveOne locale previous raw).kind = .infixOp ∨
          (resolveOne locale previous raw).kind = .prefixOp ∨
          (resolveOne locale previous raw).kind = .noop := kind_resolveOne_infixOp hsign
      exact isMark_of_kind (by rcases hkinds with h | h | h <;> simp [h])
    · exact isMark_of_kind (by rwa [kind_resolveOne hsign])

theorem early_cons : early place (raw :: raws) =
    if raw.isMark && raw.stop ≤ place then raw :: early place raws else early place raws :=
  List.filter_cons

/-- The passes keep marks and their places. -/
theorem Thinned.early (h : Thinned locale raws tokens) :
    early place tokens = (early place raws).map stripped := by
  induction h with
  | nil => rfl
  | @drop raw _ _ hkind _ ih =>
    have hmark : raw.isMark = false := isMark_of_kind (by rcases hkind with h | h <;> simp [h])
    rw [early_cons, hmark]
    exact ih
  | @gap raw _ _ hkind _ ih =>
    have hmark : raw.isMark = false := isMark_of_kind (by simp [hkind])
    have hmark' : isMark { raw with kind := .infixOp, subkind := .intersect } = false := rfl
    rw [early_cons, early_cons, hmark, hmark']
    exact ih
  | @keep raw _ _ previous _ _ ih =>
    rw [early_cons, early_cons, isMark_resolveOne, (places_resolveOne locale previous raw).2]
    split
    · rename_i hearly
      rw [Bool.and_eq_true] at hearly
      rw [List.map_cons, resolveOne_of_kind (kind_of_isMark hearly.1), ih]
    · exact ih

end

end Token

/-! ## Frames -/

namespace Surroundings

open Token (early Bracketed startsBehind openStarts)

section

variable {frames : List Frame} {token : Token} {tokens : List Token} {place : Nat}

theorem behind_of_plain (h : token.isMark = false) : behind frames token = frames := by
  simp only [Token.isMark, Token.opensBracket, Bool.or_eq_false_iff] at h
  simp [behind, h]

/-- Only marks open, close and separate. -/
theorem foldl_behind_early : (early place tokens).foldl behind frames =
    (tokens.filter fun token => token.stop ≤ place).foldl behind frames := by
  rw [early, List.foldl_filter, List.foldl_filter]
  congr 1
  funext frames token
  by_cases hmark : token.isMark
  · simp [hmark]
  · simp [hmark, behind_of_plain (Bool.eq_false_of_not_eq_true hmark)]

/-- The tokens that are passed are those that stop at the cursor or in front of it. -/
theorem takeWhile_stop (hordered : tokens.Pairwise fun token next => token.stop ≤ next.start)
    (hplaces : ∀ token ∈ tokens, token.start ≤ token.stop) :
    tokens.takeWhile (fun token => token.stop ≤ place) = tokens.filter fun token => token.stop ≤ place := by
  induction hordered with
  | nil => rfl
  | @cons token tokens hnext _ ih =>
    rw [List.takeWhile_cons, List.filter_cons, ih fun next hmem => hplaces next (List.mem_cons_of_mem _ hmem)]
    split
    · rfl
    · rename_i hstop
      refine (List.filter_eq_nil_iff.2 fun next hmem => ?_).symm
      have hle := (hnext next hmem).trans (hplaces next (List.mem_cons_of_mem _ hmem))
      simp only [decide_eq_true_eq] at hstop ⊢
      omega

/-- The open brackets behind the marks among raw tokens. -/
def framesBehind (raws : List Token) : List Frame := (raws.map Token.stripped).foldl behind []

/-- The end of a row closes the innermost bracket. -/
theorem framesBehind_rowStop (raws : List Token) (place : Nat) :
    framesBehind (raws ++ [Token.rowStop place]) = (framesBehind raws).tail := by
  rw [framesBehind, List.map_append, List.foldl_append]
  rfl

/-- The open brackets in front of the cursor are those behind the marks up to it. -/
theorem frames_passed (locale : Locale) (formula : String) (offset : Nat) :
    ((Formula.tokens locale formula).takeWhile fun token => token.stop ≤ offset).foldl behind [] =
      framesBehind (early offset (Scan.ofFormula locale formula).tokens.toList) := by
  have htiling := Formula.tiling_tokens locale formula
  rw [takeWhile_stop htiling.ordered fun token ht => (htiling.within token ht).2.1, ← foldl_behind_early,
    (Token.thinned_tokens locale formula).early]
  rfl

/-! ### Names -/

/-- The name that a start gives to its bracket. -/
def nameOf (start : Token) : Option String :=
  if start.kind = .function then some start.stripped.value else none

theorem nameOf_of_opensCall {start : Token} {name : String} (h : start.opensCall)
    (hname : Token.withoutAt start.value = name) : nameOf start = some name := by
  obtain ⟨value, kind, subkind, first, last⟩ := start
  obtain ⟨hkind, -⟩ := Token.is_iff.1 h
  cases hkind
  rw [← hname, nameOf, if_pos rfl, Token.stripped, if_pos rfl, Token.stripAt_eq]

theorem names_behind {starts : List Token} {raw : Token} (hraw : Bracketed raw)
    (hnames : frames.map Prod.fst = starts.map nameOf) :
    (behind frames raw.stripped).map Prod.fst = (startsBehind starts raw).map nameOf := by
  unfold behind Token.opensCall Token.opensGroup Token.closesBracket Token.closesCall Token.closesGroup
    Token.separatesArguments
  simp only [raw.is_stripped, raw.kind_stripped]
  by_cases hstart : raw.subkind = .start
  · rw [startsBehind, hstart]
    rcases hraw (.inl hstart) with h | h <;> simp [Token.is, nameOf, h, hstart, hnames]
  by_cases hstop : raw.subkind = .stop
  · rw [startsBehind, hstop]
    rcases hraw (.inr hstop) with h | h <;> simp [Token.is, h, hstop, hnames, List.map_tail]
  · rw [Token.startsBehind_of_plain ⟨hstart, hstop⟩]
    simp only [Token.is, beq_false_of_ne hstart, beq_false_of_ne hstop, Bool.and_false, Bool.or_false,
      Bool.false_eq_true, if_false]
    split
    · cases frames <;> exact hnames
    · exact hnames

/-- The open brackets behind raw tokens have the names of the open starts. -/
theorem names_foldl {raws starts : List Token} (hraws : ∀ raw ∈ raws, Bracketed raw)
    (hnames : frames.map Prod.fst = starts.map nameOf) :
    ((raws.map Token.stripped).foldl behind frames).map Prod.fst =
      (raws.foldl startsBehind starts).map nameOf := by
  induction raws generalizing frames starts with
  | nil => exact hnames
  | cons raw raws ih =>
    exact ih (fun raw hraw => hraws raw (List.mem_cons_of_mem _ hraw))
      (names_behind (hraws raw List.mem_cons_self) hnames)

/-- Only marks are starts and stops. -/
theorem foldl_startsBehind_early {raws starts : List Token}
    (hraws : ∀ raw ∈ raws, Bracketed raw ∧ raw.stop ≤ place) :
    (early place raws).foldl startsBehind starts = raws.foldl startsBehind starts := by
  induction raws generalizing starts with
  | nil => rfl
  | cons raw raws ih =>
    obtain ⟨hbracketed, hplace⟩ := hraws raw List.mem_cons_self
    have hrest : ∀ raw ∈ raws, Bracketed raw ∧ raw.stop ≤ place := fun raw hraw =>
      hraws raw (List.mem_cons_of_mem _ hraw)
    rw [Token.early_cons]
    by_cases hmark : raw.isMark
    · rw [if_pos (by simp [hmark, hplace])]
      exact ih hrest
    · have hplain : raw.subkind ≠ .start ∧ raw.subkind ≠ .stop :=
        not_or.1 fun hsubkind => hmark (Token.isMark_of_bracket (hbracketed hsubkind) hsubkind)
      rw [if_neg (by simp [hmark]), List.foldl_cons, Token.startsBehind_of_plain hplain]
      exact ih hrest

end

end Surroundings

/-! ## The text in front of the cursor -/

namespace Scan

open Token (early rowStop)

section

variable {locale : Locale} {back : List Char}

/-- Either nothing is read of the front of a text, or it has the same lead as the text. -/
theorem body_front (front back : List Char) :
    body front = [] ∧ utf8Len front + (body (front ++ back)).length ≤ (front ++ back).length ∨
      ∃ lead, utf8Len lead = lead.length ∧ front = lead ++ body front ∧
        body (front ++ back) = body front ++ back := by
  obtain ⟨spaces, hspaces, htext⟩ := body_cases (front ++ back)
  by_cases hle : utf8Len front ≤ utf8Len spaces
  · left
    obtain ⟨after, htext, hafter⟩ : ∃ after, front ++ back = spaces ++ after ∧
        (body (front ++ back)).length ≤ after.length := by
      rcases htext with htext | ⟨htext, -⟩
      · exact ⟨_, htext, Nat.le_succ _⟩
      · exact ⟨_, htext, le_rfl⟩
    obtain ⟨part, rfl, -⟩ := Text.exists_append_of_utf8Len_le htext hle
    have hfront : ∀ c ∈ front, c = ' ' := fun c hc => hspaces c (List.mem_append_left _ hc)
    have hbody : body (front ++ []) = [] := body_append_spaces hfront
    rw [List.append_nil] at hbody
    refine ⟨hbody, ?_⟩
    rw [utf8Len_spaces hfront, congrArg List.length htext, List.length_append, List.length_append]
    omega
  · right
    rcases htext with htext | ⟨htext, hhead⟩
    · obtain ⟨part, rfl, hpart⟩ := Text.exists_append_of_utf8Len_le htext.symm (Nat.le_of_not_le hle)
      cases part with
      | nil => simp at hle
      | cons c part =>
        obtain ⟨rfl, hbody⟩ := List.cons_eq_cons.1 hpart
        have hfront : body (spaces ++ '=' :: part) = part := body_append_spaces hspaces
        refine ⟨spaces ++ ['='], ?_, ?_, ?_⟩
        · rw [String.utf8Len_append, utf8Len_spaces hspaces, List.length_append]
          rfl
        · rw [hfront, List.append_assoc]
          rfl
        · rw [hfront, hbody]
          rfl
    · obtain ⟨part, rfl, hpart⟩ := Text.exists_append_of_utf8Len_le htext.symm (Nat.le_of_not_le hle)
      have hfront : body (spaces ++ part) = part := by
        rw [body_append_spaces hspaces]
        refine body_of_head fun c hc => hhead c ?_
        rw [hpart, List.head?_append, Option.mem_def.1 hc]
        rfl
      exact ⟨spaces, utf8Len_spaces hspaces, by rw [hfront], by rw [hfront, hpart]⟩

/-- A scan has no marks up to the place where it starts: no array is open there, so no row ends. -/
theorem early_ahead {formula : String} {place : Nat} (h : place ≤ leadSize formula) :
    early place (ofFormula locale formula).tokens.toList = [] := by
  have hmoves : Moves locale (.initial (leadSize formula)) (body formula.toList)
      (run locale (body formula.toList) (.initial (leadSize formula))) [] := run_moves _ (.inl rfl)
  obtain ⟨extra, hearly, hextra⟩ := hmoves.early h
  rw [ofFormula, early_finish, hearly]
  rcases hextra with rfl | ⟨-, -, row, outer, hopen⟩
  · rfl
  · cases hopen

/-- The marks up to the end of a text are those of the text and of every text that goes on from it,
but for the end of the row that is open there. -/
theorem early_front (locale : Locale) {formula left : String}
    (hformula : formula.toList = left.toList ++ back) :
    ∃ extra, early left.utf8ByteSize (ofFormula locale formula).tokens.toList =
        early left.utf8ByteSize (ofFormula locale left).tokens.toList ++ extra ∧
      (extra = [] ∨ extra = [rowStop left.utf8ByteSize] ∧
        ∃ row outer, (ofFormula locale left).openings = .arrayRow row :: outer) := by
  rw [← String.utf8Len_toList]
  rcases body_front left.toList back with ⟨hbody, hsize⟩ | ⟨lead, hlead, hleft, hbody⟩
  · -- The scan of the formula starts at the end of the text or behind it.
    have hnone : ofFormula locale left = .initial (leadSize left) := by
      rw [ofFormula, hbody]
      exact through_nil ⟨rfl, rfl⟩ rfl
    have hahead : utf8Len left.toList ≤ leadSize formula := by
      rw [leadSize, hformula]
      omega
    refine ⟨[], ?_, .inl rfl⟩
    rw [early_ahead hahead, hnone]
    rfl
  · have hleads : leadSize formula = leadSize left := by
      have hlength := congrArg List.length hleft
      rw [List.length_append] at hlength
      rw [leadSize, leadSize, hformula, hbody, List.length_append, List.length_append]
      omega
    have hlong : ofFormula locale formula =
        through locale (body left.toList ++ back) (.initial (leadSize left)) := by
      rw [ofFormula, hformula, hbody, hleads]
      rfl
    rw [hlong]
    exact early_through back (.inl rfl) (tracks_initial locale left)

/-- A stop is in front of the character that it comes from. -/
theorem lt_of_stop {tokens : List Token} {openings : List Opening} {source : List Char}
    (h : Pieces locale source tokens openings) : ∀ token ∈ tokens, token.subkind = .stop →
    token.start < utf8Len source := by
  have hcovered : ∀ {start stop : Nat} {c : Char}, Covers source start stop [c] → start < utf8Len source := by
    rintro _ _ c ⟨before, after, rfl, rfl, -⟩
    have := c.utf8Size_pos
    rw [String.utf8Len_append, String.utf8Len_append, String.utf8Len_cons]
    omega
  induction h with
  | nil => simp
  | concat _ hpiece ih =>
    intro token ht hstop
    rcases List.mem_append.1 ht with ht | ht
    · exact ih token ht hstop
    cases hpiece with
    | plain hkind =>
      cases List.mem_singleton.1 ht
      exact absurd hstop (plain_of_plainKinds hkind).2
    | close _ hcovers | closeNothing hcovers =>
      cases List.mem_singleton.1 ht
      exact hcovered hcovers
    | gap | text | openText | group | call | array | nextRow hcovers | closeArray hcovers =>
      simp only [List.mem_cons, List.not_mem_nil, or_false] at ht
      rcases ht with rfl | rfl | rfl <;> first | exact hcovered ‹_› | simp at hstop

end

end Scan

/-! ## Main statement -/

namespace Formula

open Surroundings (framesBehind framesBehind_rowStop innermostCall nameOf nameOf_of_opensCall)
open Token (early rowStop openStarts)
open String.Pos.Raw (IsValid)

/-- Whether a row of an array ends at this byte. -/
def RowEndsAt (locale : Locale) (formula : String) (offset : Nat) : Prop :=
  ∃ token ∈ tokens locale formula, token.closesCall ∧ token.start = offset ∧ token.stop = offset

section

variable {locale : Locale} {formula left : String} {offset : Nat}

theorem surroundings_eq (locale : Locale) (formula : String) (offset : Nat) :
    let call := innermostCall (framesBehind (early offset (Scan.ofFormula locale formula).tokens.toList))
    (surroundings locale formula offset).call = call.map (·.1) ∧
      (surroundings locale formula offset).argument = (call.map (·.2)).getD 0 := by
  simp only [surroundings, Surroundings.frames_passed, and_self]

/-- A row ends at the cursor where its stop is among the marks up to it. -/
theorem rowEndsAt_iff : RowEndsAt locale formula offset ↔
    ∃ raw ∈ early offset (Scan.ofFormula locale formula).tokens.toList,
      raw.closesCall ∧ raw.start = offset ∧ raw.stop = offset := by
  have htokens : early offset (tokens locale formula) =
      (early offset (Scan.ofFormula locale formula).tokens.toList).map Token.stripped :=
    (Token.thinned_tokens locale formula).early
  have hsame : ∀ raw : Token, (raw.stripped.closesCall ∧ raw.stripped.start = offset ∧
      raw.stripped.stop = offset ↔ raw.closesCall ∧ raw.start = offset ∧ raw.stop = offset) := by
    intro raw
    obtain ⟨value, heq⟩ := raw.exists_stripped
    rw [heq]
    rfl
  constructor
  · rintro ⟨token, ht, hends⟩
    have hearly : token ∈ early offset (tokens locale formula) :=
      List.mem_filter.2 ⟨ht, by simp [Token.isMark, Token.closesBracket, hends]⟩
    rw [htokens] at hearly
    obtain ⟨raw, hraw, rfl⟩ := List.mem_map.1 hearly
    exact ⟨raw, hraw, (hsame raw).1 hends⟩
  · rintro ⟨raw, hraw, hends⟩
    have hearly : raw.stripped ∈ early offset (tokens locale formula) :=
      htokens ▸ List.mem_map_of_mem hraw
    exact ⟨raw.stripped, (List.mem_filter.1 hearly).1, (hsame raw).2 hends⟩

/-- No row ends at the end of a text: the character that its stop comes from stands behind it. -/
theorem not_rowEndsAt_size : ¬ RowEndsAt locale formula formula.utf8ByteSize := by
  intro h
  obtain ⟨raw, hraw, hcloses, hstart, -⟩ := rowEndsAt_iff.1 h
  have hlt := Scan.lt_of_stop (Scan.pieces_ofFormula locale formula) raw (List.mem_filter.1 hraw).1
    (Token.is_iff.1 hcloses).2
  rw [String.utf8Len_toList] at hlt
  omega

/-- Where a row is open at the end of a text, its start is the innermost open one, and the start of its
array is the next. -/
theorem openStarts_of_row {row : Nat} {outer : List Scan.Opening}
    (hopen : (Scan.ofFormula locale formula).openings = .arrayRow row :: outer) :
    ∃ start start' starts, openStarts (Scan.ofFormula locale formula).tokens.toList = start :: start' :: starts ∧
      nameOf start = some Token.arrayRowName ∧ nameOf start' = some Token.arrayName := by
  have hpieces := Scan.pieces_ofFormula locale formula
  have hnested := hpieces.nested
  have hopened := hpieces.kept.opened
  rw [hopen] at hnested hopened
  cases hnested
  generalize openStarts (Scan.ofFormula locale formula).tokens.toList = starts at hopened
  rcases hopened with _ | ⟨hrow, _ | ⟨harray, _⟩⟩
  simp only [Scan.Opening.OpenedBy, Token.opensRow, Bool.and_eq_true, beq_iff_eq] at hrow harray
  exact ⟨_, _, _, rfl,
    nameOf_of_opensCall hrow.1.1 ((congrArg Token.withoutAt hrow.1.2).trans Token.withoutAt_arrayRowName),
    nameOf_of_opensCall harray.1 ((congrArg Token.withoutAt harray.2).trans Token.withoutAt_arrayName)⟩

/-- The frames at the end of a text have the names of the starts that are open there. -/
theorem names_framesBehind (locale : Locale) (formula : String) :
    (framesBehind (early formula.utf8ByteSize (Scan.ofFormula locale formula).tokens.toList)).map Prod.fst =
      (openStarts (Scan.ofFormula locale formula).tokens.toList).map nameOf := by
  have hbracketed := (Scan.pieces_ofFormula locale formula).kept.bracketed
  obtain ⟨lead, -, htiles⟩ := Scan.tiles_ofFormula locale formula
  have hraws : ∀ raw ∈ (Scan.ofFormula locale formula).tokens.toList,
      Token.Bracketed raw ∧ raw.stop ≤ formula.utf8ByteSize := by
    intro raw hraw
    obtain ⟨-, part, -, hcovers⟩ := htiles.covers hraw
    exact ⟨hbracketed raw hraw, (boundaries_of_covers hcovers).2.1⟩
  rw [openStarts, ← Surroundings.foldl_startsBehind_early hraws]
  exact Surroundings.names_foldl (fun raw hraw => hbracketed raw (List.mem_filter.1 hraw).1) rfl

/-- Where a row is open at the end of a text, it is the innermost call there, and its array is the next. -/
theorem frames_of_row {row : Nat} {outer : List Scan.Opening}
    (hopen : (Scan.ofFormula locale formula).openings = .arrayRow row :: outer) :
    ∃ argument argument' rest,
      framesBehind (early formula.utf8ByteSize (Scan.ofFormula locale formula).tokens.toList) =
        (some Token.arrayRowName, argument) :: (some Token.arrayName, argument') :: rest := by
  obtain ⟨start, start', starts, hstarts, hrow, harray⟩ := openStarts_of_row hopen
  have hnames := names_framesBehind locale formula
  rw [hstarts, List.map_cons, List.map_cons, hrow, harray] at hnames
  obtain ⟨⟨_, argument⟩, _, hframes, rfl, hnames⟩ := List.map_eq_cons_iff.1 hnames
  obtain ⟨⟨_, argument'⟩, rest, rfl, rfl, -⟩ := List.map_eq_cons_iff.1 hnames
  exact ⟨argument, argument', rest, hframes⟩

end

/-- The call around the cursor and the argument of it are those that the text in front of the cursor
has at its end. Where a row ends there, the array stands in place of the row. -/
theorem call_of_slice (locale : Locale) {formula : String} {offset : Nat}
    (hoffset : IsValid formula ⟨offset⟩) :
    let here := surroundings locale formula offset
    let left := surroundings locale (Text.slice formula 0 offset) offset
    (RowEndsAt locale formula offset →
      here.call = some Token.arrayName ∧ left.call = some Token.arrayRowName) ∧
    (¬ RowEndsAt locale formula offset → here.call = left.call ∧ here.argument = left.argument) := by
  obtain ⟨left, more, hformula, hplace⟩ := String.Pos.Raw.isValid_iff_exists_append.1 hoffset
  obtain rfl : offset = left.utf8ByteSize := congrArg String.Pos.Raw.byteIdx hplace
  have htext : formula.toList = left.toList ++ more.toList := by rw [hformula, String.toList_append]
  have hslice : Text.slice formula 0 left.utf8ByteSize = left := by
    have hcovers : Scan.Covers formula.toList 0 left.utf8ByteSize left.toList :=
      ⟨[], more.toList, htext, rfl, by simp⟩
    rw [Scan.slice_of_covers hcovers, String.ofList_toList]
  rw [hslice]
  intro here there
  obtain ⟨hhere, hhere'⟩ := surroundings_eq locale formula left.utf8ByteSize
  obtain ⟨hthere, hthere'⟩ := surroundings_eq locale left left.utf8ByteSize
  obtain ⟨extra, hearly, hextra⟩ := Scan.early_front locale htext
  rcases hextra with rfl | ⟨rfl, row, outer, hopen⟩
  · rw [List.append_nil] at hearly
    rw [hearly] at hhere hhere'
    refine ⟨fun hends => ?_, fun _ => ⟨hhere.trans hthere.symm, hhere'.trans hthere'.symm⟩⟩
    rw [rowEndsAt_iff, hearly, ← rowEndsAt_iff] at hends
    exact absurd hends not_rowEndsAt_size
  · have hends : RowEndsAt locale formula left.utf8ByteSize :=
      rowEndsAt_iff.2 ⟨rowStop left.utf8ByteSize, by simp [hearly], rfl, rfl, rfl⟩
    obtain ⟨argument, argument', rest, hframes⟩ := frames_of_row hopen
    refine ⟨fun _ => ⟨hhere.trans ?_, hthere.trans ?_⟩, fun hnot => absurd hends hnot⟩
    · rw [hearly, framesBehind_rowStop, hframes]
      rfl
    · rw [hframes]
      rfl

theorem scan_columns : Scan.ofFormula .enUS "={1,2}" =
    ⟨#[⟨"ARRAY", .function, .start, 1, 2⟩, ⟨"ARRAYROW", .function, .start, 2, 2⟩,
      ⟨"1", .operand, .unspecified, 2, 3⟩, ⟨",", .argument, .unspecified, 3, 4⟩,
      ⟨"2", .operand, .unspecified, 4, 5⟩, ⟨"", .function, .stop, 5, 5⟩,
      ⟨"", .function, .stop, 5, 6⟩], [], 6, "", 4, .ordinary, none⟩ := by cbv

/-- In `={1,2}` no row ends behind the comma. -/
theorem call_of_slice_comma : IsValid "={1,2}" ⟨4⟩ ∧ ¬ RowEndsAt .enUS "={1,2}" 4 ∧
    (surroundings .enUS "={1,2}" 4).call = (surroundings .enUS (Text.slice "={1,2}" 0 4) 4).call ∧
    (surroundings .enUS "={1,2}" 4).argument = (surroundings .enUS (Text.slice "={1,2}" 0 4) 4).argument := by
  have hvalid : IsValid "={1,2}" ⟨4⟩ := by decide
  have hends : ¬ RowEndsAt .enUS "={1,2}" 4 := by
    rw [rowEndsAt_iff, scan_columns]
    decide
  exact ⟨hvalid, hends, (call_of_slice .enUS hvalid).2 hends⟩

/-- Behind `={1,2` the cursor is in the second column of a row. A brace behind the cursor moves it out of
the row. -/
theorem call_at_row_end : IsValid "={1,2}" ⟨5⟩ ∧
    ((surroundings .enUS "={1,2}" 5).call = some "ARRAY" ∧
      (surroundings .enUS "={1,2}" 5).argument = 0) ∧
    (surroundings .enUS (Text.slice "={1,2}" 0 5) 5).call = some "ARRAYROW" ∧
      (surroundings .enUS (Text.slice "={1,2}" 0 5) 5).argument = 1 := by
  have hslice : Text.slice "={1,2}" 0 5 = "=\x7b1,2" := by decide
  have hscan : Scan.ofFormula .enUS "=\x7b1,2" =
      ⟨#[⟨"ARRAY", .function, .start, 1, 2⟩, ⟨"ARRAYROW", .function, .start, 2, 2⟩,
        ⟨"1", .operand, .unspecified, 2, 3⟩, ⟨",", .argument, .unspecified, 3, 4⟩,
        ⟨"2", .operand, .unspecified, 4, 5⟩], [.arrayRow 1, .array 1], 5, "", 4, .ordinary,
        some (.unclosed "\x7b" 1)⟩ := by cbv
  obtain ⟨hcall, hargument⟩ := surroundings_eq .enUS "={1,2}" 5
  obtain ⟨hcall', hargument'⟩ := surroundings_eq .enUS "=\x7b1,2" 5
  rw [scan_columns] at hcall hargument
  rw [hscan] at hcall' hargument'
  rw [hslice, hcall, hargument, hcall', hargument']
  exact ⟨by decide, ⟨by decide, by decide⟩, by decide, by decide⟩

end Formula

end SheetFormula
