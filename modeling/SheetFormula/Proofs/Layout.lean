import SheetFormula.Proofs.Cuts
import SheetFormula.Proofs.Redundant

/-!
# Layout does not matter

Main statement: `Formula.parse_insertAt`, that white space at the ends of a token and a sign `+` in front
of an operand leave a formula its expression.

1. Two scans are `Agreeing` if the passes make the same of their tokens. A scan agrees with one that is
   `Respaced`, which reads more white space at a place where there may be some, and with one that reads a
   sign which the passes drop: `agreeing_plus`.
2. `exists_respaced` finds such a scan for a formula with white space put in. A formula without a leading
   sign is read from its first line break on, if it starts with white space then.
-/

namespace SheetFormula

/-! ## Agreeing scans -/

namespace Scan

open String (utf8Len)
open Token (Bracketed Unsigned essence gist map_gist_of_essence normalize normalize_map_gist)

/-- What is known of the raw tokens of a formula that is read strictly. -/
structure Proper (locale : Locale) (raws : List Token) : Prop where
  unsigned : ∀ raw ∈ raws, Unsigned raw
  bracketed : ∀ raw ∈ raws, Bracketed raw
  known : ∀ raw ∈ raws, raw.kind ≠ .unknown
  chain : (normalize locale raws).IsChain Token.Follows

theorem unsigned_of_shape {locale : Locale} {raw : Token} (h : Shape locale raw) : Unsigned raw := by
  refine ⟨unsettled_of_shape h, ?_⟩
  cases h with
  | sign hsign =>
    have hsigns : ∀ sign ∈ signs, sign.2.1 ≠ .prefixOp := by decide
    exact hsigns _ hsign
  | close h => rcases h with rfl | rfl <;> simp
  | _ => simp

/-- Whether a scan has no fault, and the passes make the same of its tokens as of those of another one. -/
def Agreeing (locale : Locale) (ended ended' : State) : Prop :=
  ended'.fault = none ∧ (normalize locale ended'.tokens.toList).map essence =
    (normalize locale ended.tokens.toList).map essence

section

variable {locale : Locale} {s s' j j' ended : State} {formula formula' : String}
  {gap space space' front back lead text : List Char}

theorem Proper.values {raws : List Token} (h : Proper locale raws) :
    ∀ raw ∈ raws, raw.kind = .whitespace → raw.value = " " :=
  fun raw hraw => (h.unsigned raw hraw).1.2.1

/-- A text is read alike behind tokens that are different, where the passes make the same of all. -/
theorem agreeing_through {text : List Char} (hidle : Idle s) (hidle' : Idle s')
    (hopenings : s'.openings = s.openings) (hnested : Nested s.openings) (hnone : s'.fault = none)
    (hfault : (through locale text s).fault = none) (front : List Token)
    (hfront : s'.tokens.toList.map essence = front.map essence)
    (hnormal : ∀ more, (through locale text s).tokens.toList = s.tokens.toList ++ more →
      normalize locale (front ++ more) = normalize locale (s.tokens.toList ++ more)) :
    Agreeing locale (through locale text s) (through locale text s') := by
  obtain ⟨hnone', more, more', htext, htext', hessence⟩ :=
    through_alike hidle hidle' hopenings hnested hnone hfault
  have hsame : (through locale text s').tokens.toList.map essence = (front ++ more).map essence := by
    rw [htext', List.map_append, List.map_append, hfront, hessence]
  refine ⟨hnone', ?_⟩
  rw [← normalize_map_gist, map_gist_of_essence hsame, normalize_map_gist, hnormal more htext, htext]

/-- Whether a scan repeats the one that reads the white space `space` in the state `j`, with other white
space there. -/
structure Respaced (locale : Locale) (j : State) (space back : List Char) (ended j' : State)
    (space' : List Char) : Prop where
  scan : ended = through locale (space' ++ back) j'
  idle : Idle j'
  openings : j'.openings = j.openings
  tokens : j'.tokens = j.tokens
  fault : j'.fault = none
  gaps : ∀ c ∈ space', isGap c
  kept : space ≠ [] → space' ≠ []

/-- White space beside other white space, or where no two operands touch, makes no difference. -/
theorem Respaced.agreeing (h : Respaced locale j space back ended j' space')
    (hfault : (through locale (space ++ back) j).fault = none)
    (hproper : Proper locale (through locale (space ++ back) j).tokens.toList) (hidle : Idle j)
    (hnested : Nested j.openings) (hlast : ∀ raw ∈ j.tokens.toList.getLast?, raw.kind ≠ .whitespace)
    (hspace : ∀ c ∈ space, isGap c) (hback : ∀ c ∈ back.head?, isGap c = false) :
    Agreeing locale (through locale (space ++ back) j) ended := by
  obtain ⟨rfl, hidle', hopenings, htokens, hnone, hspace', hkept⟩ := h
  rw [through_gaps hidle hspace hback] at hfault hproper ⊢
  rw [through_gaps hidle' hspace' hback]
  have hgap : (j'.mark " " .whitespace .unspecified space'.length).tokens.toList.map essence =
      (j.mark " " .whitespace .unspecified space.length).tokens.toList.map essence := by
    simp [State.mark, State.emit, htokens, essence]
  by_cases hnil : space = []
  · rw [if_pos hnil] at hfault hproper ⊢
    by_cases hnil' : space' = []
    · rw [if_pos hnil']
      exact agreeing_through hidle hidle' hopenings hnested hnone hfault _ (by rw [htokens]) fun _ _ => rfl
    · rw [if_neg hnil']
      refine agreeing_through hidle hidle' hopenings hnested hnone hfault _ hgap fun more hmore => ?_
      have hhead : ∀ raw ∈ more.head?, raw.kind ≠ .whitespace :=
        head_through hidle hnested hback hfault hproper.known hmore
      have hchain := hproper.chain
      have hvalues := hproper.values
      rw [hmore] at hchain hvalues
      rw [toList_mark, List.append_assoc, List.singleton_append]
      exact Token.normalize_gap rfl hlast hhead
        (Token.not_between (fun raw hraw => hvalues raw (List.mem_append_left _ hraw)) hchain)
  · rw [if_neg hnil] at hfault ⊢
    rw [if_neg (hkept hnil)]
    exact agreeing_through hidle hidle' hopenings hnested hnone hfault _ hgap fun _ _ => rfl

/-- A sign that the passes drop makes no difference. -/
theorem agreeing_plus (hfault : (through locale back j).fault = none) (hidle : Idle j)
    (hnested : Nested j.openings)
    (hdropped : ∀ more, (through locale back j).tokens.toList = j.tokens.toList ++ more →
      normalize locale (j.tokens.toList ++ ⟨"+", .infixOp, .unspecified, 0, 0⟩ :: more) =
        normalize locale (j.tokens.toList ++ more)) :
    Agreeing locale (through locale back j) (through locale ('+' :: back) j) := by
  have hnone : j.fault = none := fault_of_through (.inl hidle.1) hfault
  rw [through_plus hidle]
  refine agreeing_through hidle hidle rfl hnested hnone hfault
    (j.tokens.toList ++ [⟨"+", .infixOp, .unspecified, 0, 0⟩]) ?_ fun more hmore => ?_
  · simp [State.mark, State.emit, essence]
  · rw [List.append_assoc, List.singleton_append, hdropped more hmore]

/-! ## The start of a formula -/

/-- White space in front of a text is read from its first line break on. -/
theorem body_gaps (hgap : ∀ c ∈ gap, isGap c) (hback : '\n' ∉ gap → body back = back) :
    body (gap ++ back) = gap.dropWhile (· == ' ') ++ back := by
  induction gap with
  | nil => exact hback (by simp)
  | cons c gap ih =>
    obtain ⟨hc, hmore⟩ := List.forall_mem_cons.1 hgap
    have hcases : c = ' ' ∨ c = '\n' := by simpa [isGap] using hc
    rcases hcases with rfl | rfl
    · exact ih hmore fun hmem => hback (by simpa using hmem)
    · exact body_of_head (by simp)

/-- The part of a formula in front of the text that is read: a sign, which leaves every text behind it as
it is, or spaces only. -/
structure Onset (formula : String) (lead : List Char) : Prop where
  text : formula.toList = lead ++ body formula.toList
  size : utf8Len lead = leadSize formula
  length : leadSize formula = lead.length
  cases : (∀ rest, body (lead ++ rest) = rest) ∨ (∀ rest, body (lead ++ rest) = body rest) ∧
    ∀ c ∈ (body formula.toList).head?, c ≠ ' ' ∧ c ≠ '='

theorem exists_onset (formula : String) : ∃ lead, Onset formula lead := by
  obtain ⟨lead, htext, hsize, hcases⟩ := lead_cases formula.toList
  have hlength : leadSize formula = lead.length := by
    have hlength := congrArg List.length htext
    rw [List.length_append] at hlength
    rw [leadSize]
    omega
  exact ⟨lead, htext, hsize.trans hlength.symm, hlength, hcases⟩

/-- Behind the same part, another text is read from its first character on as well, where it starts
alike. -/
theorem Onset.scan (h : Onset formula lead) (hnew : formula'.toList = lead ++ text)
    (hhead : (∀ rest, body (lead ++ rest) = rest) ∨
      ∀ c ∈ text.head?, c ∈ (body formula.toList).head? ∨ c ≠ ' ' ∧ c ≠ '=') :
    ofFormula locale formula' = through locale text (.initial (leadSize formula)) := by
  have hbody : body (lead ++ text) = text := by
    by_cases hall : ∀ rest, body (lead ++ rest) = rest
    · exact hall text
    · obtain ⟨hskip, hstart⟩ := h.cases.resolve_left hall
      rw [hskip, body_of_head fun c hc => (hhead.resolve_left hall c hc).elim (hstart c) id]
  rw [ofFormula, leadSize, hnew, hbody, List.length_append, Nat.add_sub_cancel, ← h.length]
  rfl

/-- White space at a cut is read there. -/
theorem Cut.respaced (hcut : Cut locale s front (space ++ back) j)
    (hlast : ∀ raw ∈ j.tokens.toList.getLast?, raw.kind ≠ .whitespace) (hnone : j.fault = none)
    (hgap : ∀ c ∈ gap, isGap c) (hmem : ∀ c ∈ space, c ∈ gap)
    (hscan : ended = through locale (front ++ (gap ++ back)) s) :
    Respaced locale j space back ended j gap where
  scan := by
    rw [hscan]
    cases gap with
    | nil =>
      obtain rfl : space = [] := List.eq_nil_iff_forall_not_mem.2 fun c hc => List.not_mem_nil (hmem c hc)
      exact hcut.reads _ rfl
    | cons c gap => exact hcut.spaced hlast c (gap ++ back) (hgap c List.mem_cons_self)
  idle := hcut.idle
  openings := rfl
  tokens := rfl
  fault := hnone
  gaps := hgap
  kept hne := by
    rintro rfl
    obtain ⟨c, hc⟩ := List.exists_mem_of_ne_nil _ hne
    exact List.not_mem_nil (hmem c hc)

/-- A formula with white space at its start is read from its first line break on. -/
theorem respaced_ahead {offset : Nat} (hskip : ∀ rest, body (lead ++ rest) = body rest)
    (hhead : ∀ c ∈ (space ++ back).head?, c ≠ ' ' ∧ c ≠ '=') (hspace : ∀ c ∈ space, isGap c)
    (hgap : ∀ c ∈ gap, isGap c) (hmem : ∀ c ∈ space, c ∈ gap)
    (h : formula.toList = lead ++ (gap ++ back)) :
    Respaced locale (.initial offset) space back (ofFormula locale formula) (.initial (leadSize formula))
      (gap.dropWhile (· == ' ')) := by
  have hbreak : space ≠ [] → '\n' ∈ gap := by
    intro hne
    obtain ⟨c, space, rfl⟩ := List.exists_cons_of_ne_nil hne
    have hc : c = ' ' ∨ c = '\n' := by simpa [isGap] using hspace c List.mem_cons_self
    exact hc.resolve_left (hhead c rfl).1 ▸ hmem c List.mem_cons_self
  have hbody : body (lead ++ (gap ++ back)) = gap.dropWhile (· == ' ') ++ back := by
    rw [hskip]
    refine body_gaps hgap fun hnone => body_of_head ?_
    obtain rfl : space = [] := by
      by_contra hne
      exact hnone (hbreak hne)
    exact hhead
  refine ⟨?_, ⟨rfl, rfl⟩, rfl, rfl, rfl, fun c hc => hgap c ((List.dropWhile_sublist _).subset hc),
    fun hne => ?_⟩
  · rw [ofFormula, h, hbody]
    rfl
  · rw [ne_eq, List.dropWhile_eq_nil_iff]
    exact fun hall => absurd (hall _ (hbreak hne)) (by decide)

/-- Where white space is put in at a cut, the scan of the formula is repeated with it. -/
theorem exists_respaced (honset : Onset formula lead) (htext : body formula.toList = front ++ (space ++ back))
    (hcut : Cut locale (.initial (leadSize formula)) front (space ++ back) j)
    (hlast : ∀ raw ∈ j.tokens.toList.getLast?, raw.kind ≠ .whitespace) (hnone : j.fault = none)
    (hspace : ∀ c ∈ space, isGap c) (hgap : ∀ c ∈ gap, isGap c) (hmem : ∀ c ∈ space, c ∈ gap)
    (hnew : formula'.toList = lead ++ (front ++ (gap ++ back))) :
    ∃ j' space', Respaced locale j space back (ofFormula locale formula') j' space' := by
  by_cases hall : ∀ rest, body (lead ++ rest) = rest
  · exact ⟨j, gap, hcut.respaced hlast hnone hgap hmem (honset.scan hnew (.inl hall))⟩
  by_cases hfront : front = []
  · obtain ⟨hskip, hhead⟩ := honset.cases.resolve_left hall
    subst hfront
    obtain rfl : j = .initial (leadSize formula) := hcut.initial rfl
    rw [htext, List.nil_append] at hhead
    exact ⟨_, _, respaced_ahead hskip hhead hspace hgap hmem hnew⟩
  · refine ⟨j, gap, hcut.respaced hlast hnone hgap hmem (honset.scan hnew (.inr fun c hc => .inl ?_))⟩
    rw [htext]
    rwa [List.head?_append_of_ne_nil _ hfront] at hc ⊢

/-- What a formula is scanned as behind a cut. -/
theorem Cut.ofFormula (h : Cut locale (.initial (leadSize formula)) front back j)
    (htext : body formula.toList = front ++ back) : Scan.ofFormula locale formula = through locale back j := by
  show through locale (body formula.toList) (.initial (leadSize formula)) = _
  rw [htext, h.reads _ rfl]

end

end Scan

/-! ## Formulas -/

namespace Formula

open Scan
open String (utf8Len)

/-- A formula with a text put in at one of its bytes. -/
def insertAt (formula : String) (place : Nat) (text : String) : String :=
  Text.slice formula 0 place ++ text ++ Text.slice formula place formula.utf8ByteSize

section

variable {locale : Locale} {formula : String} {front back : List Char} {place : Nat}

theorem toList_insertAt (h : formula.toList = front ++ back) (hplace : place = utf8Len front)
    (text : String) : (insertAt formula place text).toList = front ++ (text.toList ++ back) := by
  have hsize : formula.utf8ByteSize = utf8Len front + utf8Len back := by
    rw [← String.utf8Len_append, ← h, String.utf8Len_toList]
  have hfront : Covers formula.toList 0 place front :=
    ⟨[], back, h, rfl, by rw [hplace, String.utf8Len_nil, Nat.zero_add]⟩
  have hback : Covers formula.toList place formula.utf8ByteSize back :=
    ⟨front, [], by rw [List.append_nil, h], hplace, hsize⟩
  rw [insertAt, String.toList_append, String.toList_append, slice_of_covers hfront,
    slice_of_covers hback, String.toList_ofList, String.toList_ofList, List.append_assoc]

/-- At a seam of a formula more white space makes no difference. -/
theorem agreeing_insertAt_gaps (hfault : (ofFormula locale formula).fault = none)
    (hproper : Proper locale (ofFormula locale formula).tokens.toList)
    (hseam : Seam locale (.initial (leadSize formula)) (Scan.body formula.toList) place) {gaps : String}
    (hgaps : ∀ c ∈ gaps.toList, isGap c) :
    Agreeing locale (ofFormula locale formula) (ofFormula locale (insertAt formula place gaps)) := by
  obtain ⟨front, gap, gap', back, j, htext, hcut, hlast, hgap, hback, rfl⟩ := hseam
  obtain ⟨lead, honset⟩ := exists_onset formula
  have hparts : formula.toList = lead ++ front ++ gap ++ (gap' ++ back) := by
    rw [honset.text, htext]
    simp only [List.append_assoc]
  have hplace : j.offset + gap.length = utf8Len (lead ++ front ++ gap) := by
    rw [hcut.offset, String.utf8Len_append, String.utf8Len_append, honset.size,
      utf8Len_gaps fun c hc => hgap c (List.mem_append_left _ hc)]
    rfl
  have hnew : (insertAt formula (j.offset + gap.length) gaps).toList =
      lead ++ (front ++ (gap ++ gaps.toList ++ gap' ++ back)) := by
    rw [toList_insertAt hparts hplace]
    simp only [List.append_assoc]
  have hgap' : ∀ c ∈ gap ++ gaps.toList ++ gap', isGap c := by
    simp only [List.forall_mem_append] at hgap ⊢
    exact ⟨⟨hgap.1, hgaps⟩, hgap.2⟩
  have hmem : ∀ c ∈ gap ++ gap', c ∈ gap ++ gaps.toList ++ gap' := by
    simp only [List.mem_append]
    tauto
  rw [hcut.ofFormula htext] at hfault hproper ⊢
  have hnone : j.fault = none := fault_of_through (.inl hcut.idle.1) hfault
  obtain ⟨j', space', hrespaced⟩ := exists_respaced honset htext hcut hlast hnone hgap hgap' hmem hnew
  exact hrespaced.agreeing hfault hproper hcut.idle hcut.nested hlast hgap hback

/-- What is known of a formula that is read strictly. -/
theorem proper_of_parse {limits : Parser.Limits} {e : Expr}
    (h : parse ⟨locale, limits, true⟩ formula = .ok e) :
    (ofFormula locale formula).fault = none ∧ Proper locale (ofFormula locale formula).tokens.toList := by
  obtain ⟨hfault, -⟩ := tokens_of_parse h
  obtain ⟨hshapes, -⟩ := shapes_ofFormula hfault
  obtain ⟨hstretch, hrecognised⟩ := stretch_of_parse h
  have hbracketed := (pieces_ofFormula locale formula).kept.bracketed
  have hleaves := (Token.thinned_tokens locale formula).leaves hbracketed
  refine ⟨hfault, fun raw hraw => unsigned_of_shape (hshapes raw hraw), hbracketed,
    fun raw hraw hunknown => ?_, hstretch.chain⟩
  obtain ⟨before, after, heq⟩ := List.append_of_mem hraw
  rw [heq] at hleaves
  obtain ⟨before', token, after', htokens, -, hremains⟩ := hleaves.split_raw (by simp [hunknown])
  have hmem : token ∈ tokens locale formula := by simp [htokens]
  exact hrecognised token hmem (hremains.unknown.2 hunknown)

/-- Agreeing formulas have the same expression. -/
theorem parse_of_agreeing {limits : Parser.Limits} {e : Expr} {formula' : String}
    (h : parse ⟨locale, limits, true⟩ formula = .ok e)
    (hagreeing : Agreeing locale (ofFormula locale formula) (ofFormula locale formula')) :
    parse ⟨locale, limits, true⟩ formula' = .ok e := by
  obtain ⟨hfault, hessence⟩ := hagreeing
  have hsame : (tokens locale formula').map Token.essence = (tokens locale formula).map Token.essence :=
    hessence
  rw [parse_of_faultless true (proper_of_parse h).1] at h
  rw [parse_of_faultless true hfault, ← Parser.parse_map_essence, hsame, Parser.parse_map_essence, h]

/-- Where a raw token stands in its formula. -/
theorem cuts_ofFormula (hfault : (ofFormula locale formula).fault = none)
    (hproper : Proper locale (ofFormula locale formula).tokens.toList) {before after : List Token}
    {raw : Token} (h : (ofFormula locale formula).tokens.toList = before ++ raw :: after) :
    Seam locale (.initial (leadSize formula)) (Scan.body formula.toList) raw.start ∧
      Seam locale (.initial (leadSize formula)) (Scan.body formula.toList) raw.stop ∧
      (raw.startsValue || raw.isInfixOp →
        Lead locale (.initial (leadSize formula)) (Scan.body formula.toList) before raw) := by
  have hcut : Cut locale (.initial (leadSize formula)) [] (Scan.body formula.toList)
      (.initial (leadSize formula)) := cut_initial _ _
  exact exists_cuts hcut (hcut.seam (by simp [State.initial])) hfault hproper.known h

/-- Behind a cut that no operand ends at, a sign is read by itself. -/
theorem ofFormula_insertAt_plus {j : State} (hcut : Cut locale (.initial (leadSize formula)) front back j)
    (htext : Scan.body formula.toList = front ++ back)
    (hends : ∀ raw ∈ j.tokens.toList.getLast?, raw.kind ≠ .operand) :
    ofFormula locale (insertAt formula j.offset "+") = through locale ('+' :: back) j := by
  obtain ⟨lead, honset⟩ := exists_onset formula
  have hparts : formula.toList = lead ++ front ++ back := by rw [honset.text, htext, List.append_assoc]
  have hplace : j.offset = utf8Len (lead ++ front) := by
    rw [hcut.offset, String.utf8Len_append, honset.size]
    rfl
  have hnew : (insertAt formula j.offset "+").toList = lead ++ (front ++ '+' :: back) := by
    rw [toList_insertAt hparts hplace, List.append_assoc]
    rfl
  have hhead : ∀ c ∈ (front ++ '+' :: back).head?, c ∈ (Scan.body formula.toList).head? ∨
      c ≠ ' ' ∧ c ≠ '=' := by
    intro c hc
    cases front with
    | nil =>
      cases hc
      exact .inr (by decide)
    | cons =>
      rw [htext]
      exact .inl hc
  rw [honset.scan hnew (.inr hhead), hcut.signed hends]

/-- A sign in front of a token of a formula makes no difference, where no operand ends there. -/
theorem agreeing_insertAt_plus (hfault : (ofFormula locale formula).fault = none)
    (hproper : Proper locale (ofFormula locale formula).tokens.toList) {before after : List Token}
    {token : Token} (h : tokens locale formula = before ++ token :: after) (htoken : token.takesSign)
    (hlast : ∀ last ∈ before.getLast?, last.awaitsSign) :
    Agreeing locale (ofFormula locale formula) (ofFormula locale (insertAt formula token.start "+")) := by
  let plus : Token := ⟨"+", .infixOp, .unspecified, 0, 0⟩
  have hplus : plus.kind = .infixOp := rfl
  obtain ⟨front, raw, behind, ⟨hraws, ⟨resolved, rfl⟩, -, hend⟩, hdropped⟩ :=
    Token.normalize_plus hplus rfl hproper.unsigned h htoken hlast
  have hmem : raw ∈ (ofFormula locale formula).tokens.toList := by simp [hraws]
  have hplace : (Token.resolveOne locale resolved raw).start = raw.start :=
    (Token.remains_resolveOne resolved (hproper.bracketed raw hmem)).places.1
  rw [hplace]
  obtain ⟨text, back, j, htext, hcut, hoffset, htokens⟩ := (cuts_ofFormula hfault hproper hraws).2.2
    (Token.raw_of_takesSign (hproper.unsigned raw hmem) htoken)
  have hvalues : ∀ raw ∈ front, raw.kind = .whitespace → raw.value = " " := fun raw hraw =>
    hproper.values raw (hraws ▸ List.mem_append_left _ hraw)
  have hends : ∀ raw ∈ j.tokens.toList.getLast?, raw.kind ≠ .operand := by
    rcases htokens with htokens | ⟨htokens, hopens⟩
    · rwa [htokens]
    · rw [htokens, List.getLast?_concat]
      rintro _ ⟨⟩
      rcases Token.kind_of_bracket (.inl hopens) with h | h <;> simp [h]
  rw [← hoffset, ofFormula_insertAt_plus hcut htext hends, hcut.ofFormula htext]
  rw [hcut.ofFormula htext] at hfault hraws hdropped
  rw [hraws] at hdropped
  refine agreeing_plus hfault hcut.idle hcut.nested fun more hmore => ?_
  rw [hraws] at hmore
  rcases htokens with htokens | ⟨htokens, hopens⟩
  · rw [htokens, List.append_cancel_left_eq] at hmore
    rw [htokens, ← hmore]
    exact hdropped
  · rw [htokens, List.append_assoc, List.append_cancel_left_eq] at hmore
    obtain rfl : behind = more := (List.cons.inj hmore).2
    rw [htokens, List.append_assoc, List.append_assoc]
    exact Token.normalize_plus_behind rfl rfl hvalues hopens

/-- More white space at an end of a token and a sign `+` in front of an operand leave a formula its
expression. -/
theorem parse_insertAt {limits : Parser.Limits} {e : Expr}
    (h : parse ⟨locale, limits, true⟩ formula = .ok e) :
    (∀ token ∈ tokens locale formula, ∀ place gaps, place = token.start ∨ place = token.stop →
      (∀ c ∈ gaps.toList, c = ' ' ∨ c = '\n') →
        parse ⟨locale, limits, true⟩ (insertAt formula place gaps) = .ok e) ∧
    ∀ before token after, tokens locale formula = before ++ token :: after → token.takesSign →
      (∀ previous ∈ before.getLast?, previous.awaitsSign) →
        parse ⟨locale, limits, true⟩ (insertAt formula token.start "+") = .ok e := by
  obtain ⟨hfault, hproper⟩ := proper_of_parse h
  refine ⟨fun token htoken place gaps hplace hgaps => ?_, fun before token after htokens htakes hlast => ?_⟩
  · have hleaves := (Token.thinned_tokens locale formula).leaves hproper.bracketed
    obtain ⟨before, after, htokens⟩ := List.append_of_mem htoken
    rw [htokens] at hleaves
    obtain ⟨front, raw, back, hraws, -, -, hremains⟩ := hleaves.split
    obtain ⟨hstart, hstop, -⟩ := cuts_ofFormula hfault hproper hraws
    have hseam : Seam locale (.initial (leadSize formula)) (Scan.body formula.toList) place := by
      rcases hplace with rfl | rfl
      · rwa [hremains.places.1]
      · rwa [hremains.places.2]
    exact parse_of_agreeing h (agreeing_insertAt_gaps hfault hproper hseam
      fun c hc => by simpa [isGap] using hgaps c hc)
  · exact parse_of_agreeing h (agreeing_insertAt_plus hfault hproper htokens htakes hlast)

/-- A line break behind `A1` does not part the difference, and the `+` behind the `-` does nothing. -/
theorem parse_insertAt_difference :
    parse ⟨.enUS, .standard, true⟩ "=A1-B1" = .ok (.binary "-" (.reference "A1") (.reference "B1")) ∧
    parse ⟨.enUS, .standard, true⟩ "=A1 \n-B1" = .ok (.binary "-" (.reference "A1") (.reference "B1")) ∧
    parse ⟨.enUS, .standard, true⟩ "=A1-+B1" = .ok (.binary "-" (.reference "A1") (.reference "B1")) := by
  have hscan : ofFormula .enUS "=A1-B1" =
      ⟨#[⟨"A1", .operand, .unspecified, 1, 3⟩, ⟨"-", .infixOp, .unspecified, 3, 4⟩,
        ⟨"B1", .operand, .unspecified, 4, 6⟩], [], 6, "", 4, .ordinary, none⟩ := by cbv
  have htokens : tokens .enUS "=A1-B1" = [⟨"A1", .operand, .range, 1, 3⟩, ⟨"-", .infixOp, .math, 3, 4⟩,
      ⟨"B1", .operand, .range, 4, 6⟩] := by
    rw [tokens, hscan]
    decide
  have hparse : parse ⟨.enUS, .standard, true⟩ "=A1-B1" =
      .ok (.binary "-" (.reference "A1") (.reference "B1")) := by
    rw [parse_of_scan true hscan rfl]
    rfl
  have hgaps : insertAt "=A1-B1" 3 " \n" = "=A1 \n-B1" := by decide
  have hplus : insertAt "=A1-B1" 4 "+" = "=A1-+B1" := by decide
  obtain ⟨hspaced, hsigned⟩ := parse_insertAt hparse
  rw [htokens] at hspaced hsigned
  refine ⟨hparse, ?_, ?_⟩
  · rw [← hgaps]
    exact hspaced ⟨"A1", .operand, .range, 1, 3⟩ (by simp) 3 " \n" (.inr rfl) (by simp)
  · rw [← hplus]
    exact hsigned [⟨"A1", .operand, .range, 1, 3⟩, ⟨"-", .infixOp, .math, 3, 4⟩]
      ⟨"B1", .operand, .range, 4, 6⟩ [] rfl (by decide) (by simp [Token.awaitsSign, Token.isInfixOp])

end

end Formula

end SheetFormula
