import SheetFormula.Proofs.Rendering

/-!
# The normal form of tokens

Main statement: `normalize_normalize`, the passes over tokens leave a list in normal form, and they do
not change it again unless the name of a call still starts with `@`.

1. A token is `AtRest` behind another one if there is nothing left to resolve about it there.
   Resolving it once is enough: `atRest_resolveOne`.
2. Only what does nothing is dropped at the end, and a binary sign does not stand behind that. So a
   sign stands behind the same token before and after: `atRestFrom_resolveFrom`.
3. All that the passes do to tokens at rest is to take one more `@` off the names of calls:
   `normalize_of_atRestFrom`.
-/

namespace SheetFormula.Token

/-! ## One token -/

/-- Whether the passes have nothing left to resolve about a token behind the token `previous`. -/
structure AtRest (previous : Option Token) (token : Token) : Prop where
  solid : token.kind ≠ .whitespace
  named : token.kind = .operand ∨ token.kind = .infixOp → token.subkind ≠ .unspecified
  /-- A sign that is a binary operator stands behind a value. -/
  binary : token.kind = .infixOp → token.value = "-" ∨ token.value = "+" →
    behindValue previous ∧ token.subkind = .math

/-- A call without one `@` in front of its name; any other token as it is. -/
def unmarked (token : Token) : Token := if token.kind = .function then stripAt token else token

section

variable {locale : Locale} {previous kept : Option Token} {token : Token}

theorem operatorFamily_ne_unspecified (symbol : String) : operatorFamily symbol ≠ .unspecified := by
  unfold operatorFamily
  split <;> simp

theorem subkind_resolveOperand_ne (token : Token) :
    (resolveOperand locale token).subkind ≠ .unspecified := by
  unfold resolveOperand
  split
  · simp
  · split <;> simp

/-- A token is at rest once it is resolved. -/
theorem atRest_resolveOne (h : token.kind ≠ .whitespace) :
    (resolveOne locale previous token).AtRest previous := by
  by_cases hbinary : token.kind = .infixOp
  · unfold resolveOne resolveSign
    rw [hbinary]
    dsimp only
    split_ifs with hminus hbehind hplus hbehind hfamily
    · exact ⟨by simp, by simp, fun _ _ => ⟨hbehind, rfl⟩⟩
    · exact ⟨by simp, by simp, by simp⟩
    · exact ⟨by simp, by simp, fun _ _ => ⟨hbehind, rfl⟩⟩
    · exact ⟨by simp, by simp, by simp⟩
    · exact ⟨by simp, fun _ => operatorFamily_ne_unspecified _, by simp [hminus, hplus]⟩
    · exact ⟨by simp [hbinary], fun _ => hfamily, by simp [hminus, hplus]⟩
  · have hkind : (resolveOne locale previous token).kind = token.kind := kind_resolveOne hbinary
    refine ⟨hkind ▸ h, fun hnamed => ?_, fun hsign => absurd (hkind ▸ hsign) hbinary⟩
    have hoperand : token.kind = .operand := (hkind ▸ hnamed).resolve_right hbinary
    unfold resolveOne
    rw [hoperand]
    dsimp only
    split
    · exact subkind_resolveOperand_ne token
    · assumption

/-- What is at rest behind one token is so behind another one that is as much of a value. -/
theorem AtRest.congr (h : token.AtRest previous) (hvalue : behindValue previous → behindValue kept) :
    token.AtRest kept :=
  ⟨h.solid, h.named, fun hbinary hsign => (h.binary hbinary hsign).imp_left hvalue⟩

/-- Of a token at rest nothing is resolved but the name of a call. -/
theorem resolveOne_of_atRest (h : token.AtRest previous) :
    resolveOne locale previous token = token.unmarked := by
  have hkept : token.kind ≠ .function → token.unmarked = token := fun hkind => if_neg hkind
  unfold resolveOne
  split
  · rename_i hkind
    have hsign : token.value = "-" ∨ token.value = "+" → ∀ alone,
        resolveSign previous token alone = token := by
      intro hvalue alone
      obtain ⟨hbehind, hmath⟩ := h.binary hkind hvalue
      rw [resolveSign, if_pos hbehind, ← hmath]
    rw [hkept (by simp [hkind])]
    split_ifs with hminus hplus hfamily
    · exact hsign (.inl hminus) _
    · exact hsign (.inr hplus) _
    · exact absurd hfamily (h.named (.inr hkind))
    · rfl
  · rename_i hkind
    rw [hkept (by simp [hkind]), if_neg (h.named (.inl hkind))]
  · rename_i hkind
    exact (if_pos hkind).symm
  · rename_i hfunction
    exact (hkept hfunction).symm

theorem kind_unmarked (token : Token) : token.unmarked.kind = token.kind := by
  unfold unmarked
  split
  · exact kind_stripAt token
  · rfl

theorem subkind_unmarked (token : Token) : token.unmarked.subkind = token.subkind := by
  unfold unmarked stripAt
  split
  · split <;> rfl
  · rfl

theorem behindValue_unmarked (token : Token) :
    behindValue (some token.unmarked) = behindValue (some token) := by
  simp [behindValue, closesBracket, closesCall, closesGroup, is, isPostfixOp, kind_unmarked,
    subkind_unmarked]

/-- A second `@` is what is taken off the name of a call that has lost one. -/
theorem unmarked_stripAt_iff (h : token.kind = .function) :
    (stripAt token).unmarked = stripAt token ↔ ¬ ['@', '@'] <+: token.value.toList := by
  have hstripped : ∀ token : Token, stripAt token = token ↔ ¬ ['@'] <+: token.value.toList := by
    intro token
    unfold stripAt
    split
    · rename_i name hname
      have hshort : String.ofList name ≠ token.value := by
        intro heq
        rw [← heq, String.toList_ofList] at hname
        exact absurd (congrArg List.length hname) (by simp)
      refine iff_of_false (fun heq => hshort (congrArg Token.value heq)) ?_
      rw [not_not, hname]
      exact ⟨name, rfl⟩
    · rename_i hname
      refine iff_of_true rfl ?_
      rintro ⟨name, heq⟩
      exact hname name heq.symm
  rw [unmarked, if_pos ((kind_stripAt token).trans h), hstripped]
  unfold stripAt
  split
  · rename_i name hname
    rw [hname, String.toList_ofList, List.cons_prefix_cons]
    simp
  · rename_i hname
    refine iff_of_true ?_ ?_ <;> rintro ⟨name, heq⟩ <;> exact hname _ heq.symm

end

/-! ## Lists of tokens -/

/-- Whether every token is at rest behind the one in front of it, the first one behind `previous`,
and none of them does nothing. -/
def AtRestFrom (previous : Option Token) : List Token → Prop
  | [] => True
  | token :: rest => (token.AtRest previous ∧ token.kind ≠ .noop) ∧ AtRestFrom (some token) rest

section

variable {locale : Locale} {previous kept : Option Token} {token : Token} {tokens : List Token}

/-- No white space is left between tokens. -/
theorem solid_settleFrom : ∀ token ∈ settleFrom previous tokens, token.kind ≠ .whitespace := by
  induction tokens generalizing previous with
  | nil => simp [settleFrom]
  | cons token rest ih =>
    unfold settleFrom
    split_ifs with hkind
    · exact List.forall_mem_cons.2 ⟨hkind, ih⟩
    · exact List.forall_mem_cons.2 ⟨by simp, ih⟩
    · exact ih

theorem settleFrom_of_forall_solid (h : ∀ token ∈ tokens, token.kind ≠ .whitespace) :
    settleFrom previous tokens = tokens := by
  induction tokens generalizing previous with
  | nil => rfl
  | cons token rest ih =>
    obtain ⟨hkind, hrest⟩ := List.forall_mem_cons.1 h
    rw [settleFrom, if_pos hkind, ih hrest]

/-- Resolved tokens are at rest behind those of them that are left. The last one left in front is
`kept`, and it is a value if `previous` is one. -/
theorem atRestFrom_resolveFrom (h : ∀ token ∈ tokens, token.kind ≠ .whitespace)
    (hkept : behindValue previous → behindValue kept) :
    AtRestFrom kept (withoutNoops (resolveFrom locale previous tokens)) := by
  induction tokens generalizing previous kept with
  | nil => trivial
  | cons token rest ih =>
    obtain ⟨hkind, hrest⟩ := List.forall_mem_cons.1 h
    have hrested : (resolveOne locale previous token).AtRest previous := atRest_resolveOne hkind
    rw [resolveFrom]
    generalize resolveOne locale previous token = resolved at hrested ⊢
    rw [withoutNoops, List.filter_cons]
    by_cases hnoop : resolved.kind = .noop
    · rw [if_neg (by simpa using hnoop)]
      -- Nothing stands behind a token that does nothing as behind a value.
      refine ih hrest fun hvalue => ?_
      simp [behindValue, closesBracket, closesCall, closesGroup, is, isPostfixOp, hnoop] at hvalue
    · rw [if_pos (by simpa using hnoop)]
      exact ⟨⟨hrested.congr hkept, hnoop⟩, ih hrest id⟩

theorem atRestFrom_normalize : AtRestFrom none (normalize locale tokens) :=
  atRestFrom_resolveFrom solid_settleFrom id

theorem AtRestFrom.solid (h : AtRestFrom previous tokens) :
    ∀ token ∈ tokens, token.kind ≠ .whitespace ∧ token.kind ≠ .noop ∧
      (token.kind = .operand ∨ token.kind = .infixOp → token.subkind ≠ .unspecified) := by
  induction tokens generalizing previous with
  | nil => simp
  | cons token rest ih =>
    obtain ⟨⟨hrested, hnoop⟩, hrest⟩ := h
    exact List.forall_mem_cons.2 ⟨⟨hrested.solid, hnoop, hrested.named⟩, ih hrest⟩

/-- A token is at rest behind the token directly in front of it. -/
theorem AtRestFrom.atRest {before after : List Token}
    (h : AtRestFrom previous (before ++ token :: after)) :
    token.AtRest (before.getLast?.or previous) := by
  induction before generalizing previous with
  | nil => exact h.1.1
  | cons first before ih =>
    have hlast : ((first :: before).getLast?.or previous) = before.getLast?.or (some first) := by
      rw [List.getLast?_cons]
      cases before.getLast? <;> rfl
    rw [hlast]
    exact ih h.2

theorem resolveFrom_of_atRestFrom (h : AtRestFrom previous tokens)
    (hkept : behindValue previous → behindValue kept) :
    resolveFrom locale kept tokens = tokens.map unmarked := by
  induction tokens generalizing previous kept with
  | nil => rfl
  | cons token rest ih =>
    obtain ⟨⟨hrested, -⟩, hrest⟩ := h
    rw [resolveFrom, resolveOne_of_atRest (hrested.congr hkept), List.map_cons]
    exact congrArg _ (ih hrest (by rw [behindValue_unmarked]; exact id))

/-- The passes take an `@` off the names of calls, where everything else is at rest. -/
theorem normalize_of_atRestFrom (h : AtRestFrom none tokens) :
    normalize locale tokens = tokens.map unmarked := by
  have hsolid := h.solid
  rw [normalize, settleGaps, settleFrom_of_forall_solid fun token ht => (hsolid token ht).1, resolve,
    resolveFrom_of_atRestFrom h id, withoutNoops]
  refine List.filter_eq_self.2 fun token ht => ?_
  obtain ⟨raw, hraw, rfl⟩ := List.mem_map.1 ht
  simpa [kind_unmarked] using (hsolid raw hraw).2.1

/-! ## Calls -/

/-- White space never becomes a call. -/
theorem calls_settleFrom : (settleFrom previous tokens).filter (·.kind == .function) =
    tokens.filter (·.kind == .function) := by
  induction tokens generalizing previous with
  | nil => rfl
  | cons token rest ih =>
    unfold settleFrom
    dsimp only
    split_ifs with hkind hbetween
    · rw [List.filter_cons, List.filter_cons, ih]
    · have hspace : token.kind = .whitespace := not_not.1 hkind
      simp [hspace, ih]
    · have hspace : token.kind = .whitespace := not_not.1 hkind
      simp [hspace, ih]

theorem kind_resolveOne_eq_function :
    (resolveOne locale previous token).kind = .function ↔ token.kind = .function := by
  by_cases hbinary : token.kind = .infixOp
  · have hkinds : (resolveOne locale previous token).kind = .infixOp ∨
        (resolveOne locale previous token).kind = .prefixOp ∨
        (resolveOne locale previous token).kind = .noop := kind_resolveOne_infixOp hbinary
    rcases hkinds with h | h | h <;> simp [h, hbinary]
  · rw [kind_resolveOne hbinary]

theorem calls_resolveFrom : (resolveFrom locale previous tokens).filter (·.kind == .function) =
    (tokens.filter (·.kind == .function)).map stripAt := by
  induction tokens generalizing previous with
  | nil => rfl
  | cons token rest ih =>
    rw [resolveFrom]
    by_cases hkind : token.kind = .function
    · have hresolved : resolveOne locale previous token = stripAt token := by
        unfold resolveOne
        rw [hkind]
      rw [List.filter_cons_of_pos (by simpa using kind_resolveOne_eq_function.2 hkind), ih,
        List.filter_cons_of_pos (by simpa using hkind), hresolved, List.map_cons]
    · rw [List.filter_cons_of_neg (by simpa using mt kind_resolveOne_eq_function.1 hkind), ih,
        List.filter_cons_of_neg (by simpa using hkind)]

/-- The calls among the tokens are kept, each without one `@` in front of its name. -/
theorem calls_normalize : (normalize locale tokens).filter (·.kind == .function) =
    (tokens.filter (·.kind == .function)).map stripAt := by
  have hkept : (normalize locale tokens).filter (·.kind == .function) =
      (resolve locale (settleGaps tokens)).filter (·.kind == .function) := by
    rw [normalize, withoutNoops, List.filter_filter]
    refine List.filter_congr fun token _ => ?_
    cases token.kind <;> rfl
  rw [hkept, resolve, calls_resolveFrom, settleGaps, calls_settleFrom]

end

/-! ## The normal form -/

/-- What the passes leave. -/
structure InNormalForm (tokens : List Token) : Prop where
  solid : ∀ token ∈ tokens, token.kind ≠ .whitespace ∧ token.kind ≠ .noop
  named : ∀ token ∈ tokens, token.kind = .operand ∨ token.kind = .infixOp →
    token.subkind ≠ .unspecified
  /-- A binary sign stands directly behind a value. -/
  binary : ∀ before token after, tokens = before ++ token :: after → token.kind = .infixOp →
    token.value = "-" ∨ token.value = "+" → ∃ previous, before.getLast? = some previous ∧
      (previous.kind = .operand ∨ previous.kind = .postfixOp ∨
        (previous.kind = .function ∨ previous.kind = .subexpr) ∧ previous.subkind = .stop)

theorem AtRestFrom.inNormalForm {tokens : List Token} (h : AtRestFrom none tokens) :
    InNormalForm tokens where
  solid token ht := ⟨(h.solid token ht).1, (h.solid token ht).2.1⟩
  named token ht := (h.solid token ht).2.2
  binary before token after heq hkind hsign := by
    subst heq
    have hbehind : behindValue before.getLast? := by
      simpa using (h.atRest.binary hkind hsign).1
    cases hlast : before.getLast? with
    | none =>
      rw [hlast] at hbehind
      cases hbehind
    | some previous =>
      rw [hlast] at hbehind
      simp only [behindValue, Option.any_some, closesBracket, closesCall, closesGroup, isPostfixOp,
        Bool.or_eq_true, is_iff, beq_iff_eq] at hbehind
      exact ⟨previous, rfl, by tauto⟩

/-- The passes leave tokens in normal form, which they do not change again as long as no call had two
`@` in front of its name. -/
theorem normalize_normalize (locale : Locale) (tokens : List Token) :
    InNormalForm (normalize locale tokens) ∧
      (normalize locale (normalize locale tokens) = normalize locale tokens ↔
        ∀ token ∈ tokens, token.kind = .function → ¬ ['@', '@'] <+: token.value.toList) := by
  have hrested : AtRestFrom none (normalize locale tokens) := atRestFrom_normalize
  refine ⟨hrested.inNormalForm, ?_⟩
  have hcall : ∀ token, token ∈ normalize locale tokens ∧ token.kind = .function ↔
      ∃ raw, (raw ∈ tokens ∧ raw.kind = .function) ∧ stripAt raw = token := by
    intro token
    have hmem : token ∈ (normalize locale tokens).filter (·.kind == .function) ↔
        token ∈ (tokens.filter (·.kind == .function)).map stripAt := by rw [calls_normalize]
    simpa [List.mem_map, List.mem_filter] using hmem
  calc normalize locale (normalize locale tokens) = normalize locale tokens
      ↔ (normalize locale tokens).map unmarked = (normalize locale tokens).map id := by
        rw [normalize_of_atRestFrom hrested, List.map_id]
    _ ↔ ∀ token ∈ normalize locale tokens, token.unmarked = token := List.map_inj_left
    _ ↔ ∀ token ∈ normalize locale tokens, token.kind = .function → token.unmarked = token :=
        forall₂_congr fun token _ => ⟨fun h _ => h, fun h => by
          by_cases hkind : token.kind = .function
          · exact h hkind
          · exact if_neg hkind⟩
    _ ↔ ∀ raw ∈ tokens, raw.kind = .function → ¬ ['@', '@'] <+: raw.value.toList := by
        refine ⟨fun h raw hraw hkind => ?_, fun h token ht hkind => ?_⟩
        · obtain ⟨ht, htkind⟩ := (hcall _).2 ⟨raw, ⟨hraw, hkind⟩, rfl⟩
          exact (unmarked_stripAt_iff hkind).1 (h _ ht htkind)
        · obtain ⟨raw, ⟨hraw, hrawkind⟩, rfl⟩ := (hcall token).1 ⟨ht, hkind⟩
          exact (unmarked_stripAt_iff hrawkind).2 (h raw hraw hrawkind)

end SheetFormula.Token
