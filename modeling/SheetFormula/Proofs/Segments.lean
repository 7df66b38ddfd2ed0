import SheetFormula.Proofs.Tiling
import SheetFormula.Segment

/-!
# The segments of a formula

Main statement: `Formula.segments_cover`, which parts of a formula its segments are, and what the
cursor finds among them.

1. `Spans` says that segments stand directly one behind the other. The segments of a token span it:
   `spans_ofToken`.
2. `Segmentation` is what segments have to be to a formula and its tokens. At most one of them holds
   an offset, which is why the first one that is found is the right one.
3. A byte that no segment holds is `Unclaimed`: a space in front of the formula, or what stands
   between its tokens.
-/

namespace SheetFormula

open String (utf8Len)
open Scan (Covers)

namespace Segment

/-! ## Segments in a row -/

/-- Segments stand directly one behind the other, from one byte to another. -/
def Spans : Nat → List Segment → Nat → Prop
  | start, [], stop => start = stop
  | start, segment :: rest, stop => segment.start = start ∧ Spans segment.stop rest stop

/-- A segment is a part of a formula, with the text of it. -/
structure IsPart (formula : String) (segment : Segment) : Prop where
  nonempty : segment.text ≠ "" ∧ segment.start < segment.stop
  within : segment.stop ≤ formula.utf8ByteSize
  text : segment.text = Text.slice formula segment.start segment.stop

/-- A segment stands in front of another one, and so does its token. -/
structure Precedes (segment next : Segment) : Prop where
  places : segment.stop ≤ next.start
  tokens : ∀ index ∈ segment.token, ∃ index' ∈ next.token, index ≤ index'

section

variable {formula : String} {segments : List Segment} {segment : Segment} {start stop offset : Nat}

theorem Spans.le (h : Spans start segments stop) (hparts : ∀ segment ∈ segments, segment.IsPart formula) :
    start ≤ stop := by
  induction segments generalizing start with
  | nil => exact Nat.le_of_eq h
  | cons first rest ih =>
    obtain ⟨rfl, hrest⟩ := h
    have hfirst := (hparts first List.mem_cons_self).nonempty.2
    have := ih hrest fun segment hs => hparts segment (List.mem_cons_of_mem _ hs)
    omega

theorem Spans.within (h : Spans start segments stop) (hparts : ∀ segment ∈ segments, segment.IsPart formula)
    (hs : segment ∈ segments) : start ≤ segment.start ∧ segment.stop ≤ stop := by
  induction segments generalizing start with
  | nil => cases hs
  | cons first rest ih =>
    obtain ⟨rfl, hrest⟩ := h
    have hfirst := (hparts first List.mem_cons_self).nonempty.2
    have hparts' := fun segment hs => hparts segment (List.mem_cons_of_mem _ hs)
    rcases List.mem_cons.1 hs with rfl | hs
    · exact ⟨le_rfl, hrest.le hparts'⟩
    · obtain ⟨hstart, hstop⟩ := ih hrest hparts' hs
      exact ⟨by omega, hstop⟩

/-- Some segment of a row holds an offset that the row holds. -/
theorem Spans.exists_holds (h : Spans start segments stop) (hstart : start < offset) (hstop : offset ≤ stop) :
    ∃ segment ∈ segments, segment.holds offset := by
  induction segments generalizing start with
  | nil =>
    obtain rfl : start = stop := h
    omega
  | cons first rest ih =>
    obtain ⟨rfl, hrest⟩ := h
    by_cases hfirst : offset ≤ first.stop
    · exact ⟨first, List.mem_cons_self, by simp [holds, hstart, hfirst]⟩
    · obtain ⟨segment, hs, hholds⟩ := ih hrest (by omega)
      exact ⟨segment, List.mem_cons_of_mem _ hs, hholds⟩

theorem Spans.pairwise {index : Nat} (h : Spans start segments stop)
    (hparts : ∀ segment ∈ segments, segment.IsPart formula ∧ segment.token = some index) :
    segments.Pairwise Precedes := by
  induction segments generalizing start with
  | nil => exact .nil
  | cons first rest ih =>
    obtain ⟨rfl, hrest⟩ := h
    have hparts' := fun segment hs => hparts segment (List.mem_cons_of_mem _ hs)
    refine List.pairwise_cons.2 ⟨fun segment hs => ⟨?_, ?_⟩, ih hrest hparts'⟩
    · exact (hrest.within (fun segment hs => (hparts' segment hs).1) hs).1
    · rw [(hparts first List.mem_cons_self).2, (hparts' segment hs).2]
      exact fun index hi => ⟨index, hi, le_rfl⟩

/-! ## The segments of a token -/

theorem isPart_of_covers {text : String} {kind : Kind} {token : Option Nat} {part : List Char}
    (hcovers : Covers formula.toList start stop part) (hpart : part ≠ [])
    (htext : text = Text.slice formula start stop) : IsPart formula ⟨text, kind, start, stop, token⟩ :=
  ⟨⟨by rw [htext, Scan.slice_of_covers hcovers]; simpa using hpart, Scan.lt_of_covers hcovers hpart⟩,
    (Formula.boundaries_of_covers hcovers).2.1, htext⟩

/-- The segments of a token are parts of the formula and span it. -/
theorem spans_ofToken {token : Token} {part : List Char} (index : Nat)
    (hcovers : Covers formula.toList token.start token.stop part) (hfills : token.Fills part) :
    (∀ segment ∈ ofToken formula token index, segment.IsPart formula ∧ segment.token = some index) ∧
      Spans token.start (ofToken formula token index) token.stop := by
  unfold ofToken
  split
  · rename_i hplaces
    exact ⟨by simp, hplaces⟩
  rename_i hplaces
  have hpart : part ≠ [] := by
    rintro rfl
    obtain ⟨before, after, -, hstart, hstop⟩ := hcovers
    exact hplaces (hstart.trans hstop.symm)
  dsimp only
  split
  · rename_i hname
    rw [Scan.slice_of_covers hcovers, String.toList_ofList, Bool.and_eq_true, beq_iff_eq] at hname
    obtain ⟨name, hne, hfront, hparen⟩ := Formula.covers_name hcovers hfills hname.1 hname.2
    refine ⟨?_, rfl, rfl, rfl⟩
    rintro segment (_ | ⟨_, _ | ⟨_, ⟨⟩⟩⟩)
    · exact ⟨isPart_of_covers hfront hne rfl, rfl⟩
    · exact ⟨isPart_of_covers hparen (by simp) (Scan.slice_of_covers hparen).symm, rfl⟩
  · refine ⟨fun segment hs => ?_, rfl, rfl⟩
    rw [List.mem_singleton.1 hs]
    exact ⟨isPart_of_covers hcovers hpart rfl, rfl⟩

/-! ## The segment of the sign -/

/-- A formula starts with spaces, and behind them with a sign or not. The sign has a segment. -/
theorem ofLead_cases (formula : String) : ∃ spaces, (∀ c ∈ spaces, c = ' ') ∧
    (formula.toList = spaces ++ '=' :: Scan.body formula.toList ∧
        Scan.leadSize formula = utf8Len spaces + 1 ∧
        ofLead formula = [⟨"=", .equals, utf8Len spaces, utf8Len spaces + 1, none⟩] ∨
      formula.toList = spaces ++ Scan.body formula.toList ∧ Scan.leadSize formula = utf8Len spaces ∧
        ofLead formula = []) := by
  obtain ⟨spaces, hspaces, htext⟩ := Scan.body_cases formula.toList
  have hwidth := Scan.utf8Len_spaces hspaces
  have hsize : Scan.leadSize formula = formula.toList.length - (Scan.body formula.toList).length := rfl
  refine ⟨spaces, hspaces, htext.imp (fun htext => ?_) fun htext => ?_⟩
  · have hlength := congrArg List.length htext
    rw [List.length_append, List.length_cons] at hlength
    have hlead : Scan.leadSize formula = spaces.length + 1 := by omega
    have htake : formula.toList.take (spaces.length + 1) = spaces ++ ['='] := by
      rw [htext, List.take_append, List.take_of_length_le (by omega)]
      simp
    refine ⟨htext, by rw [hlead, hwidth], ?_⟩
    simp [ofLead, hlead, htake, hwidth]
  · obtain ⟨htext, -⟩ := htext
    have hlength := congrArg List.length htext
    rw [List.length_append] at hlength
    have hlead : Scan.leadSize formula = spaces.length := by omega
    have htake : formula.toList.take spaces.length = spaces := by
      rw [htext]
      simp
    refine ⟨htext, by rw [hlead, hwidth], ?_⟩
    have hlast : spaces.getLast? ≠ some '=' := fun hlast =>
      absurd (hspaces _ (List.mem_of_getLast? hlast)) (by decide)
    simp [ofLead, hlead, htake, hlast]

theorem covers_of_mem_ofLead {segment : Segment} (h : segment ∈ ofLead formula) :
    Covers formula.toList segment.start segment.stop ['='] ∧ segment.IsPart formula ∧
      segment.stop = Scan.leadSize formula ∧ segment.token = none ∧ segment.text = "=" := by
  obtain ⟨spaces, -, ⟨htext, hlead, hsegments⟩ | ⟨-, -, hsegments⟩⟩ := ofLead_cases formula
  · rw [hsegments, List.mem_singleton] at h
    subst h
    have hcovers : Covers formula.toList (utf8Len spaces) (utf8Len spaces + 1) ['='] :=
      ⟨spaces, Scan.body formula.toList, htext.trans (by simp), rfl, rfl⟩
    exact ⟨hcovers, isPart_of_covers hcovers (by simp) (Scan.slice_of_covers hcovers).symm, hlead.symm, rfl, rfl⟩
  · rw [hsegments] at h
    cases h

end

end Segment

/-! ## All segments -/

namespace Formula

open Segment (Spans IsPart Precedes)

/-- What segments are to a formula and its tokens. -/
structure Segmentation (formula : String) (tokens : List Token) (segments : List Segment) : Prop where
  parts : ∀ segment ∈ segments, segment.IsPart formula
  ordered : segments.Pairwise Precedes
  /-- The segments of a token span it. -/
  own : ∀ index token, tokens[index]? = some token →
    Spans token.start (segments.filter fun segment => segment.token == some index) token.stop
  /-- Every other segment is the sign in front of the formula. -/
  other : ∀ segment ∈ segments, match segment.token with
    | some index => index < tokens.length
    | none => segment.text = "=" ∧ segment.stop = Scan.leadSize formula

section

variable {locale : Locale} {formula : String} {tokens : List Token} {segment : Segment}

theorem segments_eq : segments locale formula = Segment.ofLead formula ++
    (Formula.tokens locale formula).zipIdx.flatMap fun entry =>
      Segment.ofToken formula entry.1 entry.2 := rfl

/-- A segment is the sign in front of the formula, or one of a token. -/
theorem mem_segments : segment ∈ segments locale formula ↔ segment ∈ Segment.ofLead formula ∨
    ∃ index token, (Formula.tokens locale formula)[index]? = some token ∧
      segment ∈ Segment.ofToken formula token index := by
  rw [segments_eq, List.mem_append, List.mem_flatMap]
  refine or_congr_right ⟨?_, ?_⟩
  · rintro ⟨⟨token, index⟩, hmem, hs⟩
    exact ⟨index, token, List.mk_mem_zipIdx_iff_getElem?.1 hmem, hs⟩
  · rintro ⟨index, token, htoken, hs⟩
    exact ⟨(token, index), List.mk_mem_zipIdx_iff_getElem?.2 htoken, hs⟩

/-- Every token covers a part of the formula behind the sign. -/
theorem covers_token {index : Nat} {token : Token} (h : (Formula.tokens locale formula)[index]? = some token) :
    Scan.leadSize formula ≤ token.start ∧
      ∃ part, token.Fills part ∧ Covers formula.toList token.start token.stop part := by
  obtain ⟨lead, hlead, htiles⟩ := tiles_tokens locale formula
  rw [← hlead]
  exact htiles.covers (List.mem_of_getElem? h)

/-- The segments of a token are parts of the formula and span it. -/
theorem spans_token {index : Nat} {token : Token} (h : (Formula.tokens locale formula)[index]? = some token) :
    (∀ segment ∈ Segment.ofToken formula token index, segment.IsPart formula ∧ segment.token = some index) ∧
      Spans token.start (Segment.ofToken formula token index) token.stop := by
  obtain ⟨-, part, hfills, hcovers⟩ := covers_token h
  exact Segment.spans_ofToken index hcovers hfills

theorem within_token {index : Nat} {token : Token} (h : (Formula.tokens locale formula)[index]? = some token)
    (hs : segment ∈ Segment.ofToken formula token index) :
    token.start ≤ segment.start ∧ segment.stop ≤ token.stop :=
  (spans_token h).2.within (fun segment hs => ((spans_token h).1 segment hs).1) hs

theorem pairwise_zipIdx {R : Token → Token → Prop} (h : tokens.Pairwise R) :
    tokens.zipIdx.Pairwise fun entry next => R entry.1 next.1 ∧ entry.2 < next.2 := by
  refine .and (List.pairwise_map.1 ?_) (List.pairwise_map.1 ?_)
  · rwa [List.zipIdx_map_fst]
  · rw [List.zipIdx_map_snd]
    exact List.pairwise_lt_range' 1

theorem pairwise_segments (locale : Locale) (formula : String) :
    (segments locale formula).Pairwise Precedes := by
  have htoken : ∀ entry ∈ (Formula.tokens locale formula).zipIdx,
      (Formula.tokens locale formula)[entry.2]? = some entry.1 :=
    fun entry hentry => List.mem_zipIdx_iff_getElem?.1 hentry
  refine List.pairwise_append.2 ⟨?_, List.pairwise_flatMap.2 ⟨fun entry hentry => ?_, ?_⟩, ?_⟩
  · obtain ⟨spaces, -, ⟨-, -, hlead⟩ | ⟨-, -, hlead⟩⟩ := Segment.ofLead_cases formula <;> simp [hlead]
  · obtain ⟨hparts, hspans⟩ := spans_token (htoken entry hentry)
    exact hspans.pairwise hparts
  · refine (pairwise_zipIdx (tiling_tokens locale formula).ordered).imp_of_mem
      fun {entry next} hentry hnext hbehind segment hs segment' hs' => ?_
    have hstop := (within_token (htoken entry hentry) hs).2
    have hstart := (within_token (htoken next hnext) hs').1
    refine ⟨by omega, ?_⟩
    rw [((spans_token (htoken entry hentry)).1 segment hs).2,
      ((spans_token (htoken next hnext)).1 segment' hs').2]
    rintro index ⟨⟩
    exact ⟨next.2, rfl, hbehind.2.le⟩
  · intro segment hs segment' hs'
    obtain ⟨entry, hentry, hs'⟩ := List.mem_flatMap.1 hs'
    obtain ⟨-, -, hstop, hnone, -⟩ := Segment.covers_of_mem_ofLead hs
    have hlead := (covers_token (htoken entry hentry)).1
    have hstart := (within_token (htoken entry hentry) hs').1
    refine ⟨by omega, ?_⟩
    rw [hnone]
    rintro index ⟨⟩

/-- The segments of a token are those that name its place. -/
theorem filter_segments {index : Nat} {token : Token}
    (h : (Formula.tokens locale formula)[index]? = some token) :
    (segments locale formula).filter (fun segment => segment.token == some index) =
      Segment.ofToken formula token index := by
  have hmem := List.mk_mem_zipIdx_iff_getElem?.2 h
  obtain ⟨before, after, heq⟩ := List.append_of_mem hmem
  have hordered := pairwise_zipIdx (tiling_tokens locale formula).ordered
  have htoken : ∀ entry ∈ (Formula.tokens locale formula).zipIdx, ∀ segment ∈
      Segment.ofToken formula entry.1 entry.2, segment.token = some entry.2 :=
    fun entry hentry segment hs =>
      ((spans_token (List.mem_zipIdx_iff_getElem?.1 hentry)).1 segment hs).2
  have hothers : ∀ entries : List (Token × Nat),
      (∀ entry ∈ entries, entry ∈ (Formula.tokens locale formula).zipIdx ∧ entry.2 ≠ index) →
      (entries.flatMap fun entry => Segment.ofToken formula entry.1 entry.2).filter
        (fun segment => segment.token == some index) = [] := by
    intro entries hentries
    refine List.filter_eq_nil_iff.2 fun segment hs => ?_
    obtain ⟨entry, hentry, hs⟩ := List.mem_flatMap.1 hs
    obtain ⟨hentry, hne⟩ := hentries entry hentry
    simpa [htoken entry hentry segment hs] using hne
  rw [heq, List.pairwise_append, List.pairwise_cons] at hordered
  rw [segments_eq, heq, List.flatMap_append, List.flatMap_cons, List.filter_append, List.filter_append,
    List.filter_append, hothers before, hothers after, List.append_nil, List.nil_append]
  · rw [List.filter_eq_nil_iff.2, List.nil_append, List.filter_eq_self]
    · exact fun segment hs => by simpa using htoken (token, index) hmem segment hs
    · intro segment hs
      simp [(Segment.covers_of_mem_ofLead hs).2.2.2.1]
  · intro entry hentry
    exact ⟨by simp [heq, hentry], (hordered.2.1.1 entry hentry).2.ne'⟩
  · intro entry hentry
    exact ⟨by simp [heq, hentry], (hordered.2.2 entry hentry (token, index) (by simp)).2.ne⟩

theorem segmentation_segments (locale : Locale) (formula : String) :
    Segmentation formula (Formula.tokens locale formula) (segments locale formula) where
  parts segment hs := by
    rcases mem_segments.1 hs with hs | ⟨index, token, htoken, hs⟩
    · exact (Segment.covers_of_mem_ofLead hs).2.1
    · exact ((spans_token htoken).1 segment hs).1
  ordered := pairwise_segments locale formula
  own index token htoken := by
    rw [filter_segments htoken]
    exact (spans_token htoken).2
  other segment hs := by
    rcases mem_segments.1 hs with hs | ⟨index, token, htoken, hs⟩
    · obtain ⟨-, -, hstop, hnone, htext⟩ := Segment.covers_of_mem_ofLead hs
      rw [hnone]
      exact ⟨htext, hstop⟩
    · rw [((spans_token htoken).1 segment hs).2]
      exact (List.getElem?_eq_some_iff.1 htoken).1

end

/-! ## The cursor -/

/-- A byte of a formula that belongs to no segment: a space in front of the text that a scan reads, or
a skipped character that no token covers. -/
def Unclaimed (formula : String) (tokens : List Token) (place : Nat) : Prop :=
  ∃ before c after, formula.toList = before ++ c :: after ∧ utf8Len before = place ∧
    (place < Scan.leadSize formula ∧ c = ' ' ∨
      (c = ' ' ∨ c = '\n' ∨ c = '+') ∧ ∀ token ∈ tokens, ¬ (token.start ≤ place ∧ place < token.stop))

/-- What the cursor finds among segments. -/
structure Lookup (formula : String) (tokens : List Token) (segments : List Segment) : Prop where
  /-- At most one segment holds an offset. -/
  unique : ∀ (offset i j : Nat) (segment segment' : Segment), segments[i]? = some segment →
    segments[j]? = some segment' → segment.start < offset ∧ offset ≤ segment.stop →
      segment'.start < offset ∧ offset ≤ segment'.stop → i = j
  /-- The segment that is found is the one that holds the offset. -/
  found : ∀ offset, 0 < offset → ∀ i, Segment.indexAt segments offset = some i ↔
    ∃ segment, segments[i]? = some segment ∧ segment.start < offset ∧ offset ≤ segment.stop
  /-- None is found exactly behind an unclaimed byte, -/
  unclaimed : ∀ offset, 0 < offset → offset ≤ formula.utf8ByteSize →
    (Segment.indexAt segments offset = none ↔ Unclaimed formula tokens (offset - 1))
  /-- past the end, -/
  past : ∀ offset, formula.utf8ByteSize < offset → Segment.indexAt segments offset = none
  /-- and at the very start if there is none. -/
  first : Segment.indexAt segments 0 = if segments = [] then none else some 0

section

variable {locale : Locale} {formula : String} {segment : Segment} {segments : List Segment}
  {before after : List Char} {c : Char} {place offset : Nat}

theorem holds_iff : segment.holds offset ↔ segment.start < offset ∧ offset ≤ segment.stop := by
  simp [Segment.holds]

/-- Among segments in order at most one holds an offset. -/
theorem unique_of_pairwise (h : segments.Pairwise Precedes) {i j : Nat} {segment segment' : Segment}
    (hi : segments[i]? = some segment) (hj : segments[j]? = some segment') (hs : segment.holds offset)
    (hs' : segment'.holds offset) : i = j := by
  obtain ⟨hlt, rfl⟩ := List.getElem?_eq_some_iff.1 hi
  obtain ⟨hlt', rfl⟩ := List.getElem?_eq_some_iff.1 hj
  rw [holds_iff] at hs hs'
  by_contra hne
  rcases Nat.lt_or_gt_of_ne hne with hij | hij
  · have := (List.pairwise_iff_getElem.1 h i j hlt hlt' hij).places
    omega
  · have := (List.pairwise_iff_getElem.1 h j i hlt' hlt hij).places
    omega

/-- The first segment that holds an offset is the only one. -/
theorem indexAt_eq_some_iff (h : segments.Pairwise Precedes) (hoffset : 0 < offset) {i : Nat} :
    Segment.indexAt segments offset = some i ↔
      ∃ segment, segments[i]? = some segment ∧ segment.holds offset := by
  rw [Segment.indexAt, if_neg (by omega), List.findIdx?_eq_some_iff_getElem]
  constructor
  · rintro ⟨hlt, hholds, -⟩
    exact ⟨segments[i], List.getElem?_eq_getElem hlt, hholds⟩
  · rintro ⟨segment, hi, hholds⟩
    obtain ⟨hlt, rfl⟩ := List.getElem?_eq_some_iff.1 hi
    refine ⟨hlt, hholds, fun j hji hj => ?_⟩
    have hsame := unique_of_pairwise h hi (List.getElem?_eq_getElem (hji.trans hlt)) hholds hj
    omega

theorem indexAt_eq_none_iff (hoffset : 0 < offset) :
    Segment.indexAt segments offset = none ↔ ∀ segment ∈ segments, ¬ segment.holds offset := by
  rw [Segment.indexAt, if_neg (by omega), List.findIdx?_eq_none_iff]
  simp

/-- A byte of a formula is a byte of one of its characters. -/
theorem exists_char {text : List Char} (h : place < utf8Len text) : ∃ before c after,
    text = before ++ c :: after ∧ utf8Len before ≤ place ∧ place < utf8Len before + c.utf8Size := by
  induction text generalizing place with
  | nil => simp at h
  | cons c text ih =>
    by_cases hplace : place < c.utf8Size
    · exact ⟨[], c, text, rfl, by simp, by simpa using hplace⟩
    · rw [String.utf8Len_cons] at h
      have hrest : place - c.utf8Size < utf8Len text := by omega
      obtain ⟨before, d, after, rfl, hle, hlt⟩ := ih hrest
      exact ⟨c :: before, d, after, rfl, by rw [String.utf8Len_cons]; omega,
        by rw [String.utf8Len_cons]; omega⟩

/-- A part of a formula covers a character to its last byte. -/
theorem size_le_of_covers {start stop : Nat} {part : List Char} (h : Covers formula.toList start stop part)
    (htext : formula.toList = before ++ c :: after) (hlt : utf8Len before < stop) :
    utf8Len before + c.utf8Size ≤ stop := by
  obtain ⟨front, back, hcovers, -, rfl⟩ := h
  rw [← String.utf8Len_append] at hlt ⊢
  obtain ⟨gap, hfront, hgap⟩ := Text.exists_append_of_utf8Len_le (htext.symm.trans hcovers) hlt.le
  cases gap with
  | nil => simp [hfront] at hlt
  | cons d gap =>
    obtain ⟨rfl, -⟩ := List.cons_eq_cons.1 hgap
    rw [hfront, String.utf8Len_append, String.utf8Len_cons]
    omega

/-- An unclaimed byte is in no segment. -/
theorem not_holds_of_unclaimed (h : Unclaimed formula (Formula.tokens locale formula) place)
    (hs : segment ∈ Formula.segments locale formula) : ¬ segment.holds (place + 1) := by
  rw [holds_iff]
  rintro ⟨hstart, hstop⟩
  obtain ⟨before, c, after, htext, rfl, hc⟩ := h
  rcases mem_segments.1 hs with hs | ⟨index, token, htoken, hs⟩
  · obtain ⟨⟨front, back, hcovers, hfront, hback⟩, -⟩ := Segment.covers_of_mem_ofLead hs
    have hmem : c ∈ ['='] := Text.mem_of_within (hcovers.symm.trans htext) (by omega) (by omega)
    obtain rfl : c = '=' := List.mem_singleton.1 hmem
    rcases hc with ⟨-, hc⟩ | ⟨hc, -⟩
    · cases hc
    · simp at hc
  · have hwithin := within_token htoken hs
    have hlead := (covers_token htoken).1
    rcases hc with ⟨hplace, -⟩ | ⟨-, huncovered⟩
    · omega
    · exact huncovered token (List.mem_of_getElem? htoken) ⟨by omega, by omega⟩

/-- A skipped character takes one byte. -/
theorem place_of_skipped (hc : c = ' ' ∨ c = '\n' ∨ c = '+') (hle : utf8Len before ≤ place)
    (hlt : place < utf8Len before + c.utf8Size) : utf8Len before = place := by
  have hsize : c.utf8Size = 1 := by rcases hc with rfl | rfl | rfl <;> rfl
  omega

/-- A byte in front of the text that a scan reads is unclaimed, unless it is the sign. -/
theorem unclaimed_of_lead (htext : formula.toList = before ++ c :: after) (hle : utf8Len before ≤ place)
    (hlt : place < utf8Len before + c.utf8Size) (hlead : utf8Len before < Scan.leadSize formula)
    (h : ∀ segment ∈ Formula.segments locale formula, ¬ segment.holds (place + 1)) :
    Unclaimed formula (Formula.tokens locale formula) place := by
  obtain ⟨spaces, hspaces, hcases⟩ := Segment.ofLead_cases formula
  by_cases hspace : utf8Len before < utf8Len spaces
  · have hmem : c ∈ spaces := by
      have hparts : ∃ rest, formula.toList = [] ++ spaces ++ rest :=
        hcases.elim (fun h => ⟨_, h.1⟩) fun h => ⟨_, h.1⟩
      obtain ⟨rest, hparts⟩ := hparts
      exact Text.mem_of_within (hparts.symm.trans htext) (by simp) (by simpa using hspace)
    have hplace := place_of_skipped (.inl (hspaces c hmem)) hle hlt
    exact ⟨before, c, after, htext, hplace, .inl ⟨hplace ▸ hlead, hspaces c hmem⟩⟩
  · obtain ⟨hparts, hsize, hsegments⟩ | ⟨-, hsize, -⟩ := hcases
    · have hsign : c ∈ ['='] := by
        have hparts' : formula.toList = spaces ++ ['='] ++ Scan.body formula.toList := by
          rw [List.append_assoc]
          exact hparts
        refine Text.mem_of_within (hparts'.symm.trans htext) (by omega) ?_
        rw [String.utf8Len_cons, String.utf8Len_nil]
        have : '='.utf8Size = 1 := rfl
        omega
      obtain rfl : c = '=' := List.mem_singleton.1 hsign
      have hsize' : '='.utf8Size = 1 := rfl
      refine absurd ?_ (h ⟨"=", .equals, utf8Len spaces, utf8Len spaces + 1, none⟩
        (mem_segments.2 (.inl (by simp [hsegments]))))
      rw [holds_iff]
      dsimp only
      omega
    · omega

/-- A byte that is in no segment is unclaimed. -/
theorem unclaimed_of_not_holds (hplace : place < formula.utf8ByteSize)
    (h : ∀ segment ∈ Formula.segments locale formula, ¬ segment.holds (place + 1)) :
    Unclaimed formula (Formula.tokens locale formula) place := by
  rw [← String.utf8Len_toList] at hplace
  obtain ⟨before, c, after, htext, hle, hlt⟩ := exists_char hplace
  by_cases hlead : utf8Len before < Scan.leadSize formula
  · exact unclaimed_of_lead htext hle hlt hlead h
  have huncovered : ∀ token ∈ Formula.tokens locale formula,
      ¬ (token.start ≤ place ∧ place < token.stop) := by
    rintro token ht ⟨hstart, hstop⟩
    obtain ⟨index, htoken⟩ := List.mem_iff_getElem?.1 ht
    obtain ⟨segment, hs, hholds⟩ :=
      (spans_token htoken).2.exists_holds (Nat.lt_succ_of_le hstart) (Nat.succ_le_of_lt hstop)
    exact h segment (mem_segments.2 (.inr ⟨index, token, htoken, hs⟩)) hholds
  obtain ⟨lead, hsize, htiles⟩ := tiles_tokens locale formula
  rcases htiles.skipped_or_covered htext (by omega) with hskipped | ⟨token, ht, hstart, hstop⟩
  · have hc : c = ' ' ∨ c = '\n' ∨ c = '+' := by simpa [Token.skipped] using hskipped
    exact ⟨before, c, after, htext, place_of_skipped hc hle hlt, .inr ⟨hc, huncovered⟩⟩
  · obtain ⟨-, part, -, hcovers⟩ := htiles.covers ht
    have := size_le_of_covers hcovers htext hstop
    exact absurd ⟨by omega, by omega⟩ (huncovered token ht)

theorem lookup_segments (locale : Locale) (formula : String) :
    Lookup formula (Formula.tokens locale formula) (Formula.segments locale formula) where
  unique offset i j segment segment' hi hj hs hs' :=
    unique_of_pairwise (pairwise_segments locale formula) hi hj (holds_iff.2 hs) (holds_iff.2 hs')
  found offset hoffset i := by
    simp only [indexAt_eq_some_iff (pairwise_segments locale formula) hoffset, holds_iff]
  unclaimed offset hoffset hsize := by
    obtain ⟨place, rfl⟩ : ∃ place, offset = place + 1 := ⟨offset - 1, by omega⟩
    rw [indexAt_eq_none_iff hoffset]
    exact ⟨unclaimed_of_not_holds hsize, fun h segment hs => not_holds_of_unclaimed h hs⟩
  past offset hoffset := by
    rw [indexAt_eq_none_iff (by omega)]
    intro segment hs hholds
    have := ((segmentation_segments locale formula).parts segment hs).within
    have := (holds_iff.1 hholds).2
    omega
  first := by
    rw [Segment.indexAt, if_pos rfl]
    simp only [List.isEmpty_iff]

end

/-- The segments of a formula cover it, and the cursor finds the one that it follows or is inside. -/
theorem segments_cover (locale : Locale) (formula : String) :
    Segmentation formula (Formula.tokens locale formula) (segments locale formula) ∧
      Lookup formula (Formula.tokens locale formula) (segments locale formula) :=
  ⟨segmentation_segments locale formula, lookup_segments locale formula⟩

end Formula

end SheetFormula
