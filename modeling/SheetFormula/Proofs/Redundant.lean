import SheetFormula.Proofs.Composition
import SheetFormula.Proofs.Neighbours

/-!
# Tokens that the passes drop

The passes make the same of raw tokens with one token more.

1. White space is dropped, unless an operand ends in front of it and another one starts behind it:
   `normalize_gap`. In tokens that are read as an expression no two operands touch:
   `not_adjacent`.
2. A sign `+` is dropped in front of a token that starts an operand, where none ends in front of that
   token: `normalize_plus`, and `normalize_plus_behind` directly behind a bracket.
-/

namespace SheetFormula.Token

section

variable {locale : Locale} {previous previous' resolved : Option Token} {token raw gap plus : Token}
  {raws raws' front back before after : List Token}

/-! ## White space -/

/-- What stands in front of tokens matters to white space only. -/
theorem settleFrom_of_solid (h : ∀ raw ∈ raws.head?, raw.kind ≠ .whitespace) :
    settleFrom previous raws = settleFrom previous' raws := by
  cases raws with
  | nil => rfl
  | cons raw rest =>
    have hkind : raw.kind ≠ .whitespace := h raw rfl
    rw [settleFrom, settleFrom, if_pos hkind, if_pos hkind]

theorem settleFrom_gap (hgap : gap.kind = .whitespace)
    (hfront : ∀ raw ∈ front.getLast?, raw.kind ≠ .whitespace)
    (hback : ∀ raw ∈ back.head?, raw.kind ≠ .whitespace)
    (hbetween : ¬ ((front.getLast?.or previous).any endsValue ∧ back.head?.any startsValue)) :
    settleFrom previous (front ++ gap :: back) = settleFrom previous (front ++ back) := by
  induction front generalizing previous with
  | nil =>
    rw [List.nil_append, List.nil_append, settleFrom, if_neg (by simp [hgap]),
      if_neg (by simpa using hbetween)]
    exact settleFrom_of_solid hback
  | cons raw rest ih =>
    have hrest : settleFrom (some raw) (rest ++ gap :: back) = settleFrom (some raw) (rest ++ back) := by
      cases rest with
      | nil => exact ih (by simp) (by simpa using hbetween)
      | cons => exact ih hfront hbetween
    rw [List.cons_append, List.cons_append, settleFrom, settleFrom, hrest]
    cases rest with
    | nil => rw [if_pos (hfront raw rfl), if_pos (hfront raw rfl)]
    | cons => rfl

/-- White space between two operands is an operator; all other white space is dropped. -/
theorem normalize_gap (hgap : gap.kind = .whitespace)
    (hfront : ∀ raw ∈ front.getLast?, raw.kind ≠ .whitespace)
    (hback : ∀ raw ∈ back.head?, raw.kind ≠ .whitespace)
    (hbetween : ¬ (front.getLast?.any endsValue ∧ back.head?.any startsValue)) :
    normalize locale (front ++ gap :: back) = normalize locale (front ++ back) := by
  have hsettled : settleGaps (front ++ gap :: back) = settleGaps (front ++ back) :=
    settleFrom_gap hgap hfront hback (by rwa [Option.or_none])
  rw [normalize, hsettled, normalize]

/-- Where tokens stand side by side as in an expression, no two operands touch. -/
theorem not_adjacent {next : Token} (hvalues : ∀ raw ∈ front, raw.kind = .whitespace → raw.value = " ")
    (hends : raw.endsValue) (hstarts : next.startsValue)
    (h : (withoutNoops (resolveFrom locale resolved
      (settleFrom previous (front ++ raw :: next :: back)))).IsChain Follows) : False := by
  induction front generalizing previous resolved with
  | nil =>
    have hraw : raw.kind ≠ .whitespace ∧ raw.kind ≠ .infixOp ∧ raw.kind ≠ .noop := by
      refine ⟨?_, ?_, ?_⟩ <;> rintro hkind <;>
        simp [endsValue, closesBracket, closesCall, closesGroup, is, hkind] at hends
    have hnoop : (resolveOne locale resolved raw).kind ≠ .noop := by
      rw [kind_resolveOne hraw.2.1]
      exact hraw.2.2
    rw [List.nil_append, normal_cons hraw.1 rfl hnoop] at h
    have hhead : (withoutNoops (resolveFrom locale (some (resolveOne locale resolved raw))
        (settleFrom (some raw) (next :: back)))).head?.any startsValue := head_normal hstarts
    obtain ⟨first, hfirst, hvalue⟩ := (Option.any_eq_true _ _).1 hhead
    have hcompletes : (resolveOne locale resolved raw).completes := by
      have hvalue' : (resolveOne locale resolved raw).endsValue :=
        (endsValue_resolveOne hraw.2.1).trans hends
      simp only [endsValue, Bool.or_eq_true] at hvalue'
      rcases hvalue' with h | h <;> simp [completes, h]
    have hbegins : first.begins := by
      simp only [startsValue, Bool.or_eq_true] at hvalue
      rcases hvalue with h | h <;> simp [begins, h]
    have hcontinues := ((List.isChain_cons.1 h).1 first hfirst).behind hcompletes
    rw [not_continues_of_begins hbegins] at hcontinues
    cases hcontinues
  | cons first front ih =>
    have hrest : ∀ raw ∈ front, raw.kind = .whitespace → raw.value = " " :=
      fun raw hr => hvalues raw (List.mem_cons_of_mem _ hr)
    rw [List.cons_append] at h
    rcases normal_cases previous resolved first (front ++ raw :: next :: back)
      (hvalues first List.mem_cons_self) with ⟨-, heq⟩ | ⟨-, -, -, heq⟩ | ⟨-, resolved', heq⟩
    · rw [heq] at h
      exact ih hrest (List.isChain_cons.1 h).2
    · rw [heq] at h
      exact ih hrest (List.isChain_cons.1 h).2
    · rw [heq] at h
      exact ih hrest h

/-- What `not_adjacent` says of the two ends of a place between raw tokens. -/
theorem not_between (hvalues : ∀ raw ∈ front, raw.kind = .whitespace → raw.value = " ")
    (h : (normalize locale (front ++ back)).IsChain Follows) :
    ¬ (front.getLast?.any endsValue ∧ back.head?.any startsValue) := by
  rintro ⟨hfront, hback⟩
  obtain ⟨last, hlast, hends⟩ := (Option.any_eq_true _ _).1 hfront
  obtain ⟨next, hnext, hstarts⟩ := (Option.any_eq_true _ _).1 hback
  obtain ⟨front, rfl⟩ := List.getLast?_eq_some_iff.1 hlast
  obtain ⟨back, rfl⟩ := List.head?_eq_some_iff.1 hnext
  rw [List.append_assoc, List.singleton_append] at h
  exact not_adjacent (fun raw hraw => hvalues raw (List.mem_append_left _ hraw)) hends hstarts h

/-! ## Signs -/

/-- Whether a sign may stand in front of a token. -/
def takesSign (token : Token) : Bool :=
  token.kind == .operand || token.isPrefixOp || token.opensBracket

/-- Whether a sign may stand behind a token. -/
def awaitsSign (token : Token) : Bool :=
  token.isPrefixOp || (token.isInfixOp && token.subkind != .intersect) ||
    token.separatesArguments || token.opensBracket

theorem not_value_of_awaitsSign (h : token.awaitsSign) :
    behindValue (some token) = false ∧ token.endsValue = false := by
  have hkinds : (token.kind = .prefixOp ∨ token.kind = .infixOp ∨ token.kind = .argument) ∨
      (token.kind = .function ∨ token.kind = .subexpr) ∧ token.subkind = .start := by
    simp only [awaitsSign, isPrefixOp, isInfixOp, separatesArguments, opensBracket, opensCall, opensGroup,
      is, Bool.or_eq_true, Bool.and_eq_true, beq_iff_eq] at h
    tauto
  simp only [behindValue, Option.any_some, endsValue, closesBracket, closesCall, closesGroup, isPostfixOp,
    is]
  rcases hkinds with (h | h | h) | ⟨h | h, hsubkind⟩ <;> simp [*]

/-- The sign `+` does nothing where no operand ends in front of it. -/
theorem normal_plus (hplus : plus.kind = .infixOp) (hvalue : plus.value = "+")
    (hplace : behindValue resolved = false)
    (hprevious : previous.any endsValue = false ∨ ∀ raw ∈ raws.head?, raw.kind ≠ .whitespace) :
    withoutNoops (resolveFrom locale resolved (settleFrom previous (plus :: raws))) =
      withoutNoops (resolveFrom locale resolved (settleFrom previous raws)) := by
  have hone : resolveOne locale resolved plus = { plus with kind := .noop } := by
    simp [resolveOne, resolveSign, hplus, hvalue, hplace]
  have hsettled : settleFrom (some plus) raws = settleFrom previous raws := by
    rcases hprevious with hprevious | hsolid
    · refine settleFrom_congr ?_
      simp [hprevious, endsValue, closesBracket, closesCall, closesGroup, is, hplus]
    · exact settleFrom_of_solid hsolid
  rw [normal_noop (by simp [hplus]) (by rw [hone]), hone, hsettled]
  refine congrArg withoutNoops (resolveFrom_congr ?_)
  rw [hplace]
  simp [behindValue, closesBracket, closesCall, closesGroup, isPostfixOp, is]

/-- What a scan leaves to the passes is no sign yet. -/
def Unsigned (raw : Token) : Prop := Unsettled raw ∧ raw.kind ≠ .prefixOp

theorem not_endsValue_of_kind (h : token.kind = .infixOp ∨ token.kind = .whitespace) :
    token.endsValue = false ∧ token.startsValue = false := by
  rcases h with h | h <;> simp [endsValue, startsValue, closesBracket, closesCall, closesGroup, opensBracket,
    opensCall, opensGroup, is, h]

/-- A token that a sign may stand in front of comes from one that starts an operand, or from a sign. -/
theorem raw_of_takesSign (hraw : Unsigned raw) (h : (resolveOne locale resolved raw).takesSign) :
    raw.startsValue || raw.isInfixOp := by
  by_cases hbinary : raw.kind = .infixOp
  · simp [isInfixOp, hbinary]
  · have hunary : (resolveOne locale resolved raw).isPrefixOp = false := by
      simpa [isPrefixOp, kind_resolveOne hbinary] using hraw.2
    have hstarts : (resolveOne locale resolved raw).startsValue := by
      simp only [takesSign, hunary, Bool.or_false, Bool.or_eq_true] at h
      simpa only [startsValue, Bool.or_eq_true] using h.symm
    have hkept : (resolveOne locale resolved raw).startsValue = raw.startsValue :=
      startsValue_resolveOne hbinary
    rw [← hkept, hstarts, Bool.true_or]

/-- A token that a sign may stand behind comes from no operand and from no end of one. -/
theorem raw_of_awaitsSign (h : (resolveOne locale resolved raw).awaitsSign) :
    raw.kind ≠ .operand ∧ raw.endsValue = false := by
  obtain ⟨-, hends⟩ := not_value_of_awaitsSign h
  by_cases hbinary : raw.kind = .infixOp
  · exact ⟨by simp [hbinary], (not_endsValue_of_kind (.inl hbinary)).1⟩
  · rw [endsValue_resolveOne hbinary] at hends
    refine ⟨?_, hends⟩
    rintro hoperand
    simp [endsValue, hoperand] at hends

/-- The raw token that a token comes from, between those that the tokens in front of it come from and the
others. -/
structure ComesFrom (locale : Locale) (raws before : List Token) (token : Token) (front : List Token)
    (raw : Token) (back : List Token) : Prop where
  raws : raws = front ++ raw :: back
  resolves : ∃ resolved, token = resolveOne locale resolved raw
  first : front = [] → before = []
  last : ∀ last ∈ front.getLast?, last.kind ≠ .operand

theorem ComesFrom.cons {first : Token} (h : ComesFrom locale raws before token front raw back)
    (before' : List Token) (hfirst : before = [] → first.kind ≠ .operand) :
    ComesFrom locale (first :: raws) before' token (first :: front) raw back where
  raws := congrArg (first :: ·) h.raws
  resolves := h.resolves
  first := by simp
  last := by
    cases front with
    | nil => simpa using hfirst (h.first rfl)
    | cons => exact h.last

/-- The first of some tokens is as well the first in front of a part with a sign in it. -/
theorem head_sign (h : front ≠ []) :
    (front ++ plus :: raw :: back).head?.any startsValue = (front ++ raw :: back).head?.any startsValue := by
  rw [List.head?_append_of_ne_nil _ h, List.head?_append_of_ne_nil _ h]

/-- A sign `+` in front of a token is dropped, where no operand ends in front of it. -/
theorem normal_plus_ahead (hplus : plus.kind = .infixOp) (hvalue : plus.value = "+")
    (hraws : ∀ raw ∈ raws, Unsigned raw)
    (h : withoutNoops (resolveFrom locale resolved (settleFrom previous raws)) = before ++ token :: after)
    (htoken : token.takesSign) (hlast : ∀ last ∈ before.getLast?, last.awaitsSign)
    (hplace : before = [] → behindValue resolved = false ∧ previous.any endsValue = false) :
    ∃ front raw back, ComesFrom locale raws before token front raw back ∧
      withoutNoops (resolveFrom locale resolved (settleFrom previous (front ++ plus :: raw :: back))) =
        before ++ token :: after := by
  induction raws generalizing previous resolved before with
  | nil => simp [settleFrom, resolveFrom, withoutNoops] at h
  | cons first rest ih =>
    have hrest : ∀ raw ∈ rest, Unsigned raw := fun raw hr => hraws raw (List.mem_cons_of_mem _ hr)
    obtain ⟨⟨hnoop, hspace, -⟩, -⟩ := hraws first List.mem_cons_self
    have hsign : plus.startsValue = false := (not_endsValue_of_kind (.inl hplus)).2
    by_cases hkind : first.kind = .whitespace
    · by_cases hbetween : previous.any endsValue ∧ rest.head?.any startsValue
      · -- An intersection: neither the token itself nor the last one in front of it.
        rw [normal_gap hkind (hspace hkind) hbetween.1 hbetween.2] at h
        cases before with
        | nil =>
          obtain ⟨rfl, -⟩ := List.cons.inj h
          simp [takesSign, isPrefixOp, opensBracket, opensCall, opensGroup, is] at htoken
        | cons other before =>
          obtain ⟨rfl, hafter⟩ := List.cons.inj h
          have hmore : before ≠ [] := by
            rintro rfl
            have hawaits := hlast _ rfl
            simp [awaitsSign, isPrefixOp, isInfixOp, separatesArguments, opensBracket, opensCall,
              opensGroup, is] at hawaits
          obtain ⟨front, raw, back, hcomes, heq⟩ := ih hrest hafter
            (by rwa [List.getLast?_cons_of_ne_nil hmore] at hlast) (absurd · hmore)
          have hfront : front ≠ [] := fun hnil => hmore (hcomes.first hnil)
          refine ⟨first :: front, raw, back, hcomes.cons _ (absurd · hmore), ?_⟩
          rw [List.cons_append, normal_gap hkind (hspace hkind) hbetween.1, heq]
          · rfl
          · rw [head_sign hfront, ← hcomes.raws]
            exact hbetween.2
      · rw [normal_space hkind hbetween] at h
        obtain ⟨front, raw, back, hcomes, heq⟩ := ih hrest h hlast fun hnil =>
          ⟨(hplace hnil).1, (not_endsValue_of_kind (.inr hkind)).1⟩
        refine ⟨first :: front, raw, back, hcomes.cons _ fun _ => by simp [hkind], ?_⟩
        rw [List.cons_append, normal_space hkind, heq]
        rintro ⟨hends, hstarts⟩
        cases front with
        | nil => simp [hsign] at hstarts
        | cons other front =>
          rw [head_sign (by simp), ← hcomes.raws] at hstarts
          exact hbetween ⟨hends, hstarts⟩
    · by_cases hdropped : (resolveOne locale resolved first).kind = .noop
      · have hbinary : first.kind = .infixOp := by
          by_contra hbinary
          exact hnoop ((kind_resolveOne hbinary).symm.trans hdropped)
        rw [normal_noop hkind hdropped] at h
        obtain ⟨front, raw, back, hcomes, heq⟩ := ih hrest h hlast fun _ =>
          ⟨by simp [behindValue, closesBracket, closesCall, closesGroup, isPostfixOp, is, hdropped],
            (not_endsValue_of_kind (.inl hbinary)).1⟩
        refine ⟨first :: front, raw, back, hcomes.cons _ fun _ => by simp [hbinary], ?_⟩
        rw [List.cons_append, normal_noop hkind hdropped, heq]
      · rw [normal_cons hkind rfl hdropped] at h
        cases before with
        | nil =>
          obtain ⟨rfl, -⟩ := List.cons.inj h
          refine ⟨[], first, rest, ⟨rfl, ⟨resolved, rfl⟩, fun _ => rfl, by simp⟩, ?_⟩
          rw [List.nil_append, normal_plus hplus hvalue (hplace rfl).1 (.inr (by simpa using hkind)),
            normal_cons hkind rfl hdropped, h]
        | cons other before =>
          obtain ⟨rfl, hafter⟩ := List.cons.inj h
          have hawaits : before = [] → (resolveOne locale resolved first).awaitsSign := by
            rintro rfl
            exact hlast _ rfl
          obtain ⟨front, raw, back, hcomes, heq⟩ := ih hrest hafter
            (fun last hl => hlast last (List.mem_getLast?_cons hl)) fun hnil =>
              ⟨(not_value_of_awaitsSign (hawaits hnil)).1, (raw_of_awaitsSign (hawaits hnil)).2⟩
          refine ⟨first :: front, raw, back,
            hcomes.cons _ fun hnil => (raw_of_awaitsSign (hawaits hnil)).1, ?_⟩
          rw [List.cons_append, normal_cons hkind rfl hdropped, heq]
          rfl

/-- Behind the same tokens the passes make the same of tokens of which they make the same everywhere. -/
theorem normal_congr {rest rest' : List Token} (hvalues : ∀ raw ∈ front, raw.kind = .whitespace → raw.value = " ")
    (hhead : rest.head?.any startsValue = rest'.head?.any startsValue)
    (h : ∀ previous resolved, withoutNoops (resolveFrom locale resolved (settleFrom previous rest)) =
      withoutNoops (resolveFrom locale resolved (settleFrom previous rest'))) :
    withoutNoops (resolveFrom locale resolved (settleFrom previous (front ++ rest))) =
      withoutNoops (resolveFrom locale resolved (settleFrom previous (front ++ rest'))) := by
  induction front generalizing previous resolved with
  | nil => exact h previous resolved
  | cons first front ih =>
    have hnext : (front ++ rest).head?.any startsValue = (front ++ rest').head?.any startsValue := by
      cases front with
      | nil => exact hhead
      | cons => rfl
    have hmore : ∀ raw ∈ front, raw.kind = .whitespace → raw.value = " " :=
      fun raw hr => hvalues raw (List.mem_cons_of_mem _ hr)
    have hvalue := hvalues first List.mem_cons_self
    rw [List.cons_append, List.cons_append]
    by_cases hkind : first.kind = .whitespace
    · by_cases hbetween : previous.any endsValue ∧ (front ++ rest).head?.any startsValue
      · rw [normal_gap hkind (hvalue hkind) hbetween.1 hbetween.2,
          normal_gap hkind (hvalue hkind) hbetween.1 (hnext ▸ hbetween.2), ih hmore]
      · rw [normal_space hkind hbetween, normal_space hkind (by rwa [← hnext]), ih hmore]
    · by_cases hdropped : (resolveOne locale resolved first).kind = .noop
      · rw [normal_noop hkind hdropped, normal_noop hkind hdropped, ih hmore]
      · rw [normal_cons hkind rfl hdropped, normal_cons hkind rfl hdropped, ih hmore]

/-- A sign `+` in front of a token is dropped, where no operand ends in front of it. -/
theorem normalize_plus (hplus : plus.kind = .infixOp) (hvalue : plus.value = "+")
    (hraws : ∀ raw ∈ raws, Unsigned raw) (h : normalize locale raws = before ++ token :: after)
    (htoken : token.takesSign) (hlast : ∀ last ∈ before.getLast?, last.awaitsSign) :
    ∃ front raw back, ComesFrom locale raws before token front raw back ∧
      normalize locale (front ++ plus :: raw :: back) = normalize locale raws := by
  obtain ⟨front, raw, back, hcomes, heq⟩ := normal_plus_ahead hplus hvalue hraws h htoken hlast
    fun _ => ⟨rfl, rfl⟩
  exact ⟨front, raw, back, hcomes, heq.trans h.symm⟩

/-- A sign `+` directly behind an opening bracket is dropped. -/
theorem normalize_plus_behind (hplus : plus.kind = .infixOp) (hvalue : plus.value = "+")
    (hvalues : ∀ raw ∈ front, raw.kind = .whitespace → raw.value = " ") (hopens : raw.opensBracket) :
    normalize locale (front ++ raw :: plus :: back) = normalize locale (front ++ raw :: back) := by
  refine normal_congr hvalues rfl fun previous resolved => ?_
  have hkind : raw.kind = .function ∨ raw.kind = .subexpr := kind_of_bracket (.inl hopens)
  have hsolid : raw.kind ≠ .whitespace ∧ raw.kind ≠ .infixOp ∧ raw.kind ≠ .operand ∧ raw.kind ≠ .noop := by
    rcases hkind with h | h <;> simp [h]
  have hkept : (resolveOne locale resolved raw).kind = raw.kind ∧
      (resolveOne locale resolved raw).subkind = raw.subkind :=
    resolveOne_kinds ⟨hsolid.2.1, hsolid.2.2.1⟩
  have hnoop : (resolveOne locale resolved raw).kind ≠ .noop := by
    rw [hkept.1]
    exact hsolid.2.2.2
  have hawaits : (resolveOne locale resolved raw).awaitsSign := by
    have hopens' : (resolveOne locale resolved raw).opensBracket := by
      simpa only [opensBracket, opensCall, opensGroup, is, hkept.1, hkept.2] using hopens
    simp [awaitsSign, hopens']
  have hplace : behindValue (some (resolveOne locale resolved raw)) = false :=
    (not_value_of_awaitsSign hawaits).1
  have hends : (some raw).any endsValue = false := (raw_of_awaitsSign hawaits).2
  rw [normal_cons hsolid.1 rfl hnoop, normal_cons hsolid.1 rfl hnoop,
    normal_plus hplus hvalue hplace (.inl hends)]

end

end SheetFormula.Token
