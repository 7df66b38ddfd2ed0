import SheetFormula.Proofs.Neighbours

/-!
# Raw tokens with the labels of tokens

When the passes make of raw tokens what tokens of a formula are, up to their texts and places.

1. The label of a token is its kind with its subkind. `Recovers` says that a raw token gets the label of
   a token wherever that token can stand.
2. The raw tokens of a list of tokens get the labels of the list, if intersections stand between
   operands only: `labels_normal`.
-/

namespace SheetFormula

namespace Token

/-- What a token is, without its text and its place. -/
def label (token : Token) : Kind × Subkind := (token.kind, token.subkind)

/-- Whether the passes make a token with this label of a raw token, where it follows on what the token
follows on. -/
inductive Recovers (locale : Locale) (token raw : Token) : Prop
  | gap : token.is .infixOp .intersect → raw.kind = .whitespace → raw.value = " " →
      Recovers locale token raw
  | kept : token.is .infixOp .intersect = false → raw.kind ≠ .whitespace →
      raw.endsValue = token.endsValue → raw.startsValue = token.startsValue →
      (∀ previous, (token.isInfixOp → behindValue previous) →
        (token.isPrefixOp → behindValue previous = false) →
        (resolveOne locale previous raw).label = token.label) → Recovers locale token raw

/-- Whether a token may stand behind another one or at the start. -/
structure Enters (last : Option Token) (token : Token) : Prop where
  operator : token.isInfixOp → behindValue last
  sign : token.isPrefixOp → behindValue last = false
  known : token.begins || token.continues

section

variable {locale : Locale} {previous resolved last : Option Token} {token next raw : Token}
  {tokens raws : List Token}

/-- No operand starts or ends in an operator or a gap. -/
theorem not_value_of_kind (h : token.kind = .infixOp ∨ token.kind = .prefixOp ∨ token.kind = .noop ∨
    token.kind = .whitespace) : token.endsValue = false ∧ token.startsValue = false := by
  rcases h with h | h | h | h <;>
    simp only [endsValue, startsValue, closesBracket, closesCall, closesGroup, opensBracket, opensCall,
      opensGroup, is, h] <;> exact ⟨rfl, rfl⟩

theorem behindValue_of_label {token' : Token} (h : token'.label = token.label) :
    behindValue (some token') = behindValue (some token) := by
  obtain ⟨hkind, hsubkind⟩ := Prod.mk.inj h
  simp only [behindValue, Option.any_some, closesBracket, closesCall, closesGroup, isPostfixOp, is,
    hkind, hsubkind]

theorem enters_of_follows (h : Follows token next) (hknown : token.kind ≠ .unknown) :
    Enters (some token) next where
  operator hoperator := by
    have hcompletes := h.operator hoperator
    simp only [completes, isUnknown, Bool.or_eq_true, beq_iff_eq, hknown, or_false] at hcompletes
    simp only [behindValue, Option.any_some, Bool.or_eq_true, beq_iff_eq]
    tauto
  sign hsign := by
    by_contra hbehind
    have hcompletes : token.completes := by
      simp only [behindValue, Option.any_some, Bool.not_eq_false, Bool.or_eq_true,
        beq_iff_eq] at hbehind
      simp only [completes, Bool.or_eq_true, beq_iff_eq]
      tauto
    have hcontinues := h.behind hcompletes
    rw [not_continues_of_begins (by simp [begins, hsign])] at hcontinues
    cases hcontinues
  known := h.known

theorem enters_start (h : token.begins) : Enters none token where
  operator hoperator := by
    have hcontinues : token.continues := by simp [continues, hoperator]
    rw [not_continues_of_begins h] at hcontinues
    cases hcontinues
  sign _ := rfl
  known := by rw [h, Bool.true_or]

theorem startsValue_of_recovers (h : Recovers locale token raw) (hstarts : token.startsValue) :
    raw.startsValue := by
  cases h with
  | gap hintersect =>
    rw [(not_value_of_kind (.inl (is_iff.1 hintersect).1)).2] at hstarts
    cases hstarts
  | kept _ _ _ hsame => rw [hsame, hstarts]

/-! ## What recovers a token -/

/-- What has its label already. -/
theorem recovers_of_label (h : raw.label = token.label)
    (hkind : token.kind ≠ .infixOp ∧ token.kind ≠ .whitespace)
    (hresolved : token.kind = .operand → token.subkind ≠ .unspecified) : Recovers locale token raw := by
  obtain ⟨hrawKind, hrawSubkind⟩ := Prod.mk.inj h
  refine .kept (by simp [is, hkind.1]) (hrawKind ▸ hkind.2) ?_ ?_ fun previous _ _ => ?_
  · simp only [endsValue, closesBracket, closesCall, closesGroup, is, hrawKind, hrawSubkind]
  · simp only [startsValue, opensBracket, opensCall, opensGroup, is, hrawKind, hrawSubkind]
  · by_cases hoperand : raw.kind = .operand
    · have hsubkind : raw.subkind ≠ .unspecified := hrawSubkind ▸ hresolved (hrawKind ▸ hoperand)
      have hsame : resolveOne locale previous raw = raw := by
        unfold resolveOne
        rw [hoperand]
        exact if_neg hsubkind
      rw [hsame, h]
    · obtain ⟨hkind', hsubkind'⟩ : (resolveOne locale previous raw).kind = raw.kind ∧
          (resolveOne locale previous raw).subkind = raw.subkind :=
        resolveOne_kinds ⟨hrawKind ▸ hkind.1, hoperand⟩
      rw [← h, label, label, hkind', hsubkind']

theorem recovers_word {word : String} {start stop : Nat}
    (h : (resolveOperand locale ⟨word, .operand, .unspecified, start, stop⟩).label = token.label) :
    Recovers locale token ⟨word, .operand, .unspecified, start, stop⟩ := by
  have hkind : token.kind = .operand := (congrArg Prod.fst h).symm.trans (kind_resolveOperand _)
  refine .kept (by simp [is, hkind]) (by simp) ?_ ?_ fun previous _ _ => ?_
  · simp [endsValue, hkind]
  · simp [startsValue, hkind]
  · rw [resolveOne_word]
    exact h

/-- An operator is resolved as it was, behind an operand if it was there and not behind one if not. -/
theorem label_resolveOne_operator {previous' : Option Token} {raw' : Token}
    (hkind : raw.kind = .infixOp) (hvalue : raw'.value = raw.value) (hlabel : raw'.label = raw.label)
    (hnoop : (resolveOne locale previous raw).kind ≠ .noop)
    (hoperator : (resolveOne locale previous raw).isInfixOp → behindValue previous')
    (hsign : (resolveOne locale previous raw).isPrefixOp → behindValue previous' = false) :
    (resolveOne locale previous' raw').label = (resolveOne locale previous raw).label := by
  obtain ⟨value, kind, subkind, start, stop⟩ := raw
  obtain ⟨value', kind', subkind', start', stop'⟩ := raw'
  obtain ⟨rfl, rfl⟩ : kind' = kind ∧ subkind' = subkind := Prod.mk.inj hlabel
  have hkind : kind' = .infixOp := hkind
  have hvalue : value' = value := hvalue
  subst hkind hvalue
  simp only [resolveOne, resolveSign, label, isInfixOp, isPrefixOp] at *
  by_cases hminus : value' = "-"
  · cases hbehind : behindValue previous <;> simp_all
  · by_cases hplus : value' = "+"
    · cases hbehind : behindValue previous <;> simp_all
    · simp only [if_neg hminus, if_neg hplus]
      split_ifs <;> rfl

theorem recovers_operator {raw' : Token} (hkind : raw.kind = .infixOp)
    (hintersect : raw.is .infixOp .intersect = false) (hvalue : raw'.value = raw.value)
    (hlabel : raw'.label = raw.label) (hnoop : (resolveOne locale previous raw).kind ≠ .noop) :
    Recovers locale (resolveOne locale previous raw) raw' := by
  have hkind' : raw'.kind = .infixOp := (congrArg Prod.fst hlabel).trans hkind
  have hkinds : (resolveOne locale previous raw).kind = .infixOp ∨
      (resolveOne locale previous raw).kind = .prefixOp ∨
      (resolveOne locale previous raw).kind = .noop := kind_resolveOne_infixOp hkind
  obtain ⟨hends, hstarts⟩ : raw'.endsValue = false ∧ raw'.startsValue = false :=
    not_value_of_kind (.inl hkind')
  obtain ⟨hends', hstarts'⟩ : (resolveOne locale previous raw).endsValue = false ∧
      (resolveOne locale previous raw).startsValue = false :=
    not_value_of_kind (hkinds.imp id (Or.imp id .inl))
  exact .kept (not_intersect_resolveOne hintersect) (by simp [hkind']) (hends.trans hends'.symm)
    (hstarts.trans hstarts'.symm) fun previous' hoperator hsign =>
      label_resolveOne_operator hkind hvalue hlabel hnoop hoperator hsign

/-! ## What recovers a list of tokens -/

/-- The passes make of the raw tokens what the tokens are. -/
theorem labels_normal (h : List.Forall₂ (Recovers locale) tokens raws)
    (hchain : tokens.IsChain Follows) (hknown : ∀ token ∈ tokens, token.kind ≠ .unknown)
    (hspaced : Spaced last tokens) (henters : ∀ token ∈ tokens.head?, Enters last token)
    (hends : previous.any endsValue = last.any endsValue)
    (hbehind : behindValue resolved = behindValue last) :
    (withoutNoops (resolveFrom locale resolved (settleFrom previous raws))).map label =
      tokens.map label := by
  induction h generalizing previous resolved last with
  | nil => rfl
  | @cons token raw tokens raws hrecovers hmore ih =>
    obtain ⟨hfollows, hrest⟩ := List.isChain_cons.1 hchain
    obtain ⟨hbetween, hspacedRest⟩ := hspaced
    have henter := henters token rfl
    have hkept : ∀ {previous' resolved'}, previous'.any endsValue = token.endsValue →
        behindValue resolved' = behindValue (some token) →
        (withoutNoops (resolveFrom locale resolved' (settleFrom previous' raws))).map label =
          tokens.map label :=
      ih hrest (fun token ht => hknown token (List.mem_cons_of_mem _ ht)) hspacedRest
        fun next hnext => enters_of_follows (hfollows next hnext) (hknown token List.mem_cons_self)
    have hnoop : token.kind ≠ .noop := kind_ne_noop henter.known
    cases hrecovers with
    | gap hintersect hspace hvalue =>
      obtain ⟨hprevious, hnext⟩ := hbetween hintersect
      have hnext' : raws.head?.any startsValue := by
        cases hmore with
        | nil => cases hnext
        | cons hrecovers => exact startsValue_of_recovers hrecovers hnext
      have hlabel : label { raw with kind := .infixOp, subkind := .intersect } = token.label := by
        rw [label, label, (is_iff.1 hintersect).1, (is_iff.1 hintersect).2]
      have hendsSame : raw.endsValue = token.endsValue := by
        rw [(not_value_of_kind (.inl (is_iff.1 hintersect).1)).1,
          (not_value_of_kind (.inr (.inr (.inr hspace)))).1]
      rw [normal_gap hspace hvalue (hends.trans hprevious) hnext', List.map_cons, List.map_cons, hlabel]
      exact congrArg _ (hkept hendsSame (behindValue_of_label hlabel))
    | kept _ hspace hendsSame _ hresolves =>
      have hlabel : (resolveOne locale resolved raw).label = token.label := by
        refine hresolves resolved (fun h => ?_) fun h => ?_
        · rw [hbehind]
          exact henter.operator h
        · rw [hbehind]
          exact henter.sign h
      have hkind : (resolveOne locale resolved raw).kind = token.kind := congrArg Prod.fst hlabel
      rw [normal_cons hspace rfl (hkind ▸ hnoop), List.map_cons, List.map_cons, hlabel]
      exact congrArg _ (hkept hendsSame (behindValue_of_label hlabel))

end

end Token

end SheetFormula
