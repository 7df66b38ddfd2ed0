import Mathlib.Data.List.Forall2
import SheetFormula.Proofs.Rendering

/-!
# The discipline of brackets

How the starts and stops among tokens belong together, read from left to right.

1. `openStarts` are the starts that are open behind some tokens, the innermost first.
2. `Disciplined` says what each stop, each separator and each brace finds there. `Accepted` says what
   a strict reader asks of a token.
3. The passes over raw tokens keep all of it: `Leaves.disciplined`, `Leaves.allAccepted_iff`.
-/

namespace SheetFormula.Token

/-- The starts that are open behind a token, the innermost first. -/
def startsBehind (starts : List Token) (token : Token) : List Token :=
  match token.subkind with
  | .start => token :: starts
  | .stop => starts.tail
  | _ => starts

/-- The starts that are open behind tokens, the innermost first. -/
def openStarts (tokens : List Token) : List Token := tokens.foldl startsBehind []

/-- The tokens directly inside a start, among those behind it, where `depth` starts are open inside
it. Of a bracket inside it that is its start. -/
def directlyInside : Nat → List Token → List Token
  | _, [] => []
  | depth, token :: rest =>
    let here := if depth = 0 then [token] else []
    match token.subkind with
    | .start => here ++ directlyInside (depth + 1) rest
    | .stop => if depth = 0 then [] else directlyInside (depth - 1) rest
    | _ => here ++ directlyInside depth rest

/-- Whether tokens are the starts of rows with a `;` between any two of them. -/
def rowsOnly : List Token → Bool
  | [] => false
  | [row] => row.opensRow
  | row :: separator :: rest =>
    row.opensRow && (separator.separatesArguments && separator.value == ";") && rowsOnly rest

/-- What a token finds in front of it and behind it, where these starts are open. -/
structure Orderly (formula : String) (starts : List Token) (token : Token) (after : List Token) :
    Prop where
  /-- A stop closes the innermost start if it is of its own kind. With nothing open only the stop of
  a parenthesis can stand. -/
  stop : token.subkind = .stop → (∃ opener ∈ starts.head?, opener.kind = token.kind) ∨
    starts = [] ∧ token.kind = .subexpr
  /-- A separator stands directly inside a call. -/
  argument : token.kind = .argument → ∃ opener ∈ starts.head?, opener.kind = .function
  /-- A brace is followed by the start of a row, and has nothing but rows directly inside it. -/
  brace : token.subkind = .start → Text.slice formula token.start token.stop = "\x7b" →
    after.head?.any opensRow ∧ rowsOnly (directlyInside 0 after)

/-- Whether every token is good between the tokens in front of it and those behind it. -/
def Throughout (Good : List Token → Token → List Token → Prop) (tokens : List Token) : Prop :=
  ∀ before token after, tokens = before ++ token :: after → Good before token after

/-- Whether every token is orderly. -/
def Disciplined (formula : String) (tokens : List Token) : Prop :=
  Throughout (fun before token after => Orderly formula (openStarts before) token after) tokens

/-- The characters that a scan makes tokens of unknown kind from where they close nothing. -/
def strayClosers : List String := [")", "\x7d", ";"]

/-- Whether a strict reader accepts a token where these starts are open. -/
def Accepted (starts : List Token) (token : Token) : Prop :=
  (token.subkind = .stop → starts ≠ []) ∧ (token.kind = .unknown → token.value ∉ strayClosers)

/-- Whether a strict reader accepts every token. -/
def AllAccepted (tokens : List Token) : Prop :=
  Throughout (fun before token _ => Accepted (openStarts before) token) tokens

/-! ## Tokens in parts -/

section

variable {front back tokens starts : List Token} {token : Token}

theorem throughout_nil {Good : List Token → Token → List Token → Prop} : Throughout Good [] := by
  intro before token after h
  simp at h

theorem throughout_cons {Good : List Token → Token → List Token → Prop} :
    Throughout Good (token :: tokens) ↔
      Good [] token tokens ∧ Throughout (fun before => Good (token :: before)) tokens := by
  refine ⟨fun h => ⟨h [] token tokens rfl, fun before next after heq => ?_⟩, ?_⟩
  · exact h (token :: before) next after (by rw [heq]; rfl)
  · rintro ⟨hfirst, hrest⟩ before next after heq
    cases before with
    | nil =>
      obtain ⟨rfl, rfl⟩ := List.cons_eq_cons.1 heq
      exact hfirst
    | cons first before =>
      obtain ⟨rfl, rfl⟩ := List.cons_eq_cons.1 heq
      exact hrest before next after rfl

theorem throughout_append {Good : List Token → Token → List Token → Prop} :
    Throughout Good (front ++ back) ↔
      Throughout (fun before token after => Good before token (after ++ back)) front ∧
        Throughout (fun before => Good (front ++ before)) back := by
  induction front generalizing Good with
  | nil => exact ⟨fun h => ⟨throughout_nil, h⟩, And.right⟩
  | cons first front ih =>
    rw [List.cons_append, throughout_cons, throughout_cons, ih, and_assoc]
    rfl

theorem openStarts_append :
    openStarts (front ++ back) = back.foldl startsBehind (openStarts front) := List.foldl_append

theorem startsBehind_of_plain (h : token.subkind ≠ .start ∧ token.subkind ≠ .stop) :
    startsBehind starts token = starts := by
  unfold startsBehind
  split <;> simp_all

theorem directlyInside_cons_of_plain {depth : Nat}
    (h : token.subkind ≠ .start ∧ token.subkind ≠ .stop) :
    directlyInside depth (token :: tokens) =
      (if depth = 0 then [token] else []) ++ directlyInside depth tokens := by
  rw [directlyInside]
  split <;> simp_all

/-- How many starts are open inside a start, behind tokens that follow it; none once it is closed. -/
def depthBehind : Nat → List Token → Option Nat
  | depth, [] => some depth
  | depth, token :: rest =>
    match token.subkind with
    | .start => depthBehind (depth + 1) rest
    | .stop => if depth = 0 then none else depthBehind (depth - 1) rest
    | _ => depthBehind depth rest

theorem depthBehind_cons_of_plain {depth : Nat}
    (h : token.subkind ≠ .start ∧ token.subkind ≠ .stop) :
    depthBehind depth (token :: tokens) = depthBehind depth tokens := by
  rw [depthBehind]
  split <;> simp_all

theorem depthBehind_append {depth : Nat} : depthBehind depth (front ++ back) =
    (depthBehind depth front).bind fun depth => depthBehind depth back := by
  induction front generalizing depth with
  | nil => rfl
  | cons token front ih =>
    rw [List.cons_append, depthBehind, depthBehind]
    split
    · exact ih
    · split
      · rfl
      · exact ih
    · exact ih

theorem directlyInside_append {depth : Nat} : directlyInside depth (front ++ back) =
    directlyInside depth front ++
      (depthBehind depth front).elim [] fun depth => directlyInside depth back := by
  induction front generalizing depth with
  | nil => rfl
  | cons token front ih =>
    rw [List.cons_append, depthBehind, directlyInside, directlyInside]
    split
    · rw [ih, List.append_assoc]
    · split
      · rfl
      · exact ih
    · rw [ih, List.append_assoc]

theorem rowsOnly_append {separator next : Token} (h : rowsOnly tokens)
    (hseparator : separator.separatesArguments ∧ separator.value = ";") (hnext : next.opensRow) :
    rowsOnly (tokens ++ [separator, next]) := by
  induction tokens using rowsOnly.induct with
  | case1 => cases h
  | case2 => simp_all [rowsOnly]
  | case3 _ _ _ ih =>
    rw [rowsOnly, Bool.and_eq_true] at h
    rw [List.cons_append, List.cons_append, rowsOnly, Bool.and_eq_true]
    exact ⟨h.1, ih h.2⟩

end

/-! ## The passes keep the discipline -/

/-- Only calls and parentheses are started and stopped. -/
def Bracketed (token : Token) : Prop :=
  token.subkind = .start ∨ token.subkind = .stop → token.kind = .function ∨ token.kind = .subexpr

/-- What the passes leave of a raw token, as far as brackets are concerned. -/
structure Remains (raw token : Token) : Prop where
  places : token.start = raw.start ∧ token.stop = raw.stop
  started : token.subkind = .start ↔ raw.subkind = .start
  stopped : token.subkind = .stop ↔ raw.subkind = .stop
  bracket : raw.subkind = .start ∨ raw.subkind = .stop → token.kind = raw.kind
  argument : token.kind = .argument ↔ raw.kind = .argument
  unknown : token.kind = .unknown ↔ raw.kind = .unknown
  value : raw.kind = .argument ∨ raw.kind = .unknown → token.value = raw.value
  row : raw.opensRow → token.opensRow

/-- What the passes leave of raw tokens: what is dropped is no bracket. -/
inductive Leaves : List Token → List Token → Prop
  | nil : Leaves [] []
  | drop {raw raws tokens} : raw.kind = .whitespace ∨ raw.kind = .infixOp →
      raw.subkind ≠ .start ∧ raw.subkind ≠ .stop → Leaves raws tokens → Leaves (raw :: raws) tokens
  | keep {raw raws token tokens} : Remains raw token → Leaves raws tokens →
      Leaves (raw :: raws) (token :: tokens)

section

variable {locale : Locale} {raw token : Token} {raws tokens before after : List Token}

/-- A raw token that can be dropped is no bracket. -/
theorem Bracketed.plain (h : Bracketed raw)
    (hkind : raw.kind ≠ .function ∧ raw.kind ≠ .subexpr) :
    raw.subkind ≠ .start ∧ raw.subkind ≠ .stop := by
  constructor <;> intro hsubkind <;> simp [Bracketed, hsubkind, hkind] at h

theorem remains_gap (hkind : raw.kind = .whitespace) (h : Bracketed raw) :
    Remains raw { raw with kind := .infixOp, subkind := .intersect } := by
  have hplain := h.plain (by simp [hkind])
  constructor <;> simp_all [opensRow, opensCall, Token.is]

theorem remains_infixOp {previous : Option Token} (hkind : raw.kind = .infixOp)
    (h : Bracketed raw) : Remains raw (resolveOne locale previous raw) := by
  have hplain := h.plain (by simp [hkind])
  have hfamily : operatorFamily raw.value ≠ .start ∧ operatorFamily raw.value ≠ .stop := by
    unfold operatorFamily
    split <;> simp
  unfold resolveOne resolveSign
  rw [hkind]
  dsimp only
  split_ifs <;> constructor <;> simp_all [opensRow, opensCall, Token.is]

theorem remains_operand {previous : Option Token} (hkind : raw.kind = .operand)
    (h : Bracketed raw) : Remains raw (resolveOne locale previous raw) := by
  have hplain := h.plain (by simp [hkind])
  unfold resolveOne resolveOperand
  rw [hkind]
  dsimp only
  split
  · split
    · constructor <;> simp_all [opensRow, opensCall, Token.is]
    · split <;> constructor <;> simp_all [opensRow, opensCall, Token.is]
  · constructor <;> simp_all

theorem remains_function {previous : Option Token} (hkind : raw.kind = .function) :
    Remains raw (resolveOne locale previous raw) := by
  obtain ⟨value, kind, subkind, start, stop⟩ := raw
  cases hkind
  rw [resolveOne_function]
  refine ⟨⟨rfl, rfl⟩, .rfl, .rfl, fun _ => rfl, .rfl, .rfl, by simp, ?_⟩
  simp only [opensRow, opensCall, Token.is, Bool.and_eq_true, beq_iff_eq]
  rintro ⟨⟨hcall, rfl⟩, hplace⟩
  exact ⟨⟨hcall, withoutAt_arrayRowName⟩, hplace⟩

theorem remains_resolveOne (previous : Option Token) (h : Bracketed raw) :
    Remains raw (resolveOne locale previous raw) := by
  by_cases hsign : raw.kind = .infixOp
  · exact remains_infixOp hsign h
  by_cases hoperand : raw.kind = .operand
  · exact remains_operand hoperand h
  by_cases hfunction : raw.kind = .function
  · exact remains_function hfunction
  · have hsame : resolveOne locale previous raw = raw := by
      unfold resolveOne
      split <;> simp_all
    rw [hsame]
    constructor <;> simp

theorem Thinned.leaves (h : Thinned locale raws tokens) (hraws : ∀ raw ∈ raws, Bracketed raw) :
    Leaves raws tokens := by
  induction h with
  | nil => exact .nil
  | @drop raw _ _ hkind _ ih =>
    refine .drop hkind ((hraws raw List.mem_cons_self).plain ?_)
      (ih fun raw hraw => hraws raw (List.mem_cons_of_mem _ hraw))
    rcases hkind with h | h <;> simp [h]
  | @gap raw _ _ hkind _ ih =>
    exact .keep (remains_gap hkind (hraws raw List.mem_cons_self))
      (ih fun raw hraw => hraws raw (List.mem_cons_of_mem _ hraw))
  | @keep raw _ _ previous _ _ ih =>
    exact .keep (remains_resolveOne previous (hraws raw List.mem_cons_self))
      (ih fun raw hraw => hraws raw (List.mem_cons_of_mem _ hraw))

namespace Leaves

/-- A token that is left comes from a raw token between the same others. -/
theorem split (h : Leaves raws (before ++ token :: after)) :
    ∃ before' raw after', raws = before' ++ raw :: after' ∧ Leaves before' before ∧
      Leaves after' after ∧ Remains raw token := by
  generalize htokens : before ++ token :: after = tokens at h
  induction h generalizing before with
  | nil => simp at htokens
  | @drop raw raws tokens hkind hplain h ih =>
    obtain ⟨before', raw', after', rfl, hbefore, hrest⟩ := ih htokens
    exact ⟨raw :: before', raw', after', rfl, .drop hkind hplain hbefore, hrest⟩
  | @keep raw raws token' tokens hremains h ih =>
    cases before with
    | nil =>
      obtain ⟨rfl, rfl⟩ := List.cons_eq_cons.1 htokens
      exact ⟨[], raw, raws, rfl, .nil, h, hremains⟩
    | cons first before =>
      obtain ⟨rfl, hmore⟩ := List.cons_eq_cons.1 htokens
      obtain ⟨before', raw', after', rfl, hbefore, hrest⟩ := ih hmore
      exact ⟨raw :: before', raw', after', rfl, .keep hremains hbefore, hrest⟩

/-- A raw token is left between the same others, unless it is dropped. -/
theorem split_raw (h : Leaves (before ++ raw :: after) tokens)
    (hkind : raw.kind ≠ .whitespace ∧ raw.kind ≠ .infixOp) :
    ∃ before' token after', tokens = before' ++ token :: after' ∧ Leaves before before' ∧
      Remains raw token := by
  induction before generalizing tokens with
  | nil =>
    cases h with
    | drop hdropped => rcases hdropped with h | h <;> simp [h] at hkind
    | @keep _ _ token rest hremains h => exact ⟨[], token, rest, rfl, .nil, hremains⟩
  | cons first before ih =>
    cases h with
    | drop hdropped hplain h =>
      obtain ⟨before', token, after', rfl, hbefore, hremains⟩ := ih h
      exact ⟨before', token, after', rfl, .drop hdropped hplain hbefore, hremains⟩
    | @keep _ _ token' rest hfirst h =>
      obtain ⟨before', token, after', rfl, hbefore, hremains⟩ := ih h
      exact ⟨token' :: before', token, after', rfl, .keep hfirst hbefore, hremains⟩

/-- What the passes leave of the open starts. -/
theorem starts_foldl (h : Leaves raws tokens) {starts starts' : List Token}
    (hstarts : List.Forall₂ (fun raw token => Remains raw token ∧ token.kind = raw.kind) starts starts') :
    List.Forall₂ (fun raw token => Remains raw token ∧ token.kind = raw.kind)
      (raws.foldl startsBehind starts) (tokens.foldl startsBehind starts') := by
  induction h generalizing starts starts' with
  | nil => exact hstarts
  | drop _ hplain _ ih =>
    rw [List.foldl_cons, startsBehind_of_plain hplain]
    exact ih hstarts
  | @keep raw _ token _ h _ ih =>
    refine ih ?_
    by_cases hstart : raw.subkind = .start
    · rw [startsBehind, startsBehind, hstart, h.started.2 hstart]
      exact .cons ⟨h, h.bracket (.inl hstart)⟩ hstarts
    by_cases hstop : raw.subkind = .stop
    · rw [startsBehind, startsBehind, hstop, h.stopped.2 hstop]
      cases hstarts with
      | nil => exact .nil
      | cons _ houter => exact houter
    · rwa [startsBehind_of_plain ⟨hstart, hstop⟩,
        startsBehind_of_plain ⟨mt h.started.1 hstart, mt h.stopped.1 hstop⟩]

theorem starts_openStarts (h : Leaves raws tokens) :
    List.Forall₂ (fun raw token => Remains raw token ∧ token.kind = raw.kind) (openStarts raws)
      (openStarts tokens) := h.starts_foldl .nil

/-- The open starts have the same kinds. -/
theorem kinds_openStarts (h : Leaves raws tokens) :
    (openStarts tokens).map Token.kind = (openStarts raws).map Token.kind := by
  have hstarts := h.starts_openStarts
  generalize openStarts raws = starts, openStarts tokens = starts' at hstarts
  induction hstarts with
  | nil => rfl
  | cons hkind _ ih => rw [List.map_cons, List.map_cons, hkind.2, ih]

theorem openStarts_eq_nil_iff (h : Leaves raws tokens) : openStarts tokens = [] ↔ openStarts raws = [] := by
  rw [← List.map_eq_nil_iff (f := Token.kind), h.kinds_openStarts, List.map_eq_nil_iff]

theorem head_openStarts (h : Leaves raws tokens) {kind : Kind}
    (hhead : ∃ opener ∈ (openStarts raws).head?, opener.kind = kind) :
    ∃ opener ∈ (openStarts tokens).head?, opener.kind = kind := by
  obtain ⟨opener, hopener, hkind⟩ := hhead
  have hmap := congrArg List.head? h.kinds_openStarts
  rw [List.head?_map, List.head?_map, hopener, Option.map_some, hkind] at hmap
  exact Option.map_eq_some_iff.1 hmap

theorem directlyInside (h : Leaves raws tokens) (depth : Nat) :
    Leaves (directlyInside depth raws) (directlyInside depth tokens) := by
  induction h generalizing depth with
  | nil => exact .nil
  | @drop raw raws tokens hkind hplain h ih =>
    rw [directlyInside_cons_of_plain hplain]
    split
    · exact .drop hkind hplain (ih depth)
    · exact ih depth
  | @keep raw raws token tokens h _ ih =>
    have hhere : ∀ {raws tokens : List Token}, Leaves raws tokens →
        Leaves ((if depth = 0 then [raw] else []) ++ raws)
          ((if depth = 0 then [token] else []) ++ tokens) := by
      intro raws tokens hrest
      split
      · exact .keep h hrest
      · exact hrest
    by_cases hstart : raw.subkind = .start
    · simp only [Token.directlyInside, hstart, h.started.2 hstart]
      exact hhere (ih _)
    by_cases hstop : raw.subkind = .stop
    · simp only [Token.directlyInside, hstop, h.stopped.2 hstop]
      split
      · exact .nil
      · exact ih _
    · rw [directlyInside_cons_of_plain ⟨hstart, hstop⟩,
        directlyInside_cons_of_plain ⟨mt h.started.1 hstart, mt h.stopped.1 hstop⟩]
      exact hhere (ih _)

/-- A row is not dropped, nor is a separator. -/
theorem cons_inv (h : Leaves (raw :: raws) tokens)
    (hkind : raw.kind ≠ .whitespace ∧ raw.kind ≠ .infixOp) :
    ∃ token rest, tokens = token :: rest ∧ Remains raw token ∧ Leaves raws rest := by
  cases h with
  | drop hdropped => rcases hdropped with h | h <;> simp [h] at hkind
  | keep hremains h => exact ⟨_, _, rfl, hremains, h⟩

theorem kind_of_opensRow (h : raw.opensRow) : raw.kind ≠ .whitespace ∧ raw.kind ≠ .infixOp := by
  simp only [opensRow, opensCall, Token.is, Bool.and_eq_true, beq_iff_eq] at h
  simp [h.1.1.1]

theorem rowsOnly (h : Leaves raws tokens) (hrows : rowsOnly raws) : rowsOnly tokens := by
  induction raws using rowsOnly.induct generalizing tokens with
  | case1 => cases hrows
  | case2 row =>
    rw [Token.rowsOnly] at hrows
    obtain ⟨token, _, rfl, hremains, hnil⟩ := h.cons_inv (kind_of_opensRow hrows)
    cases hnil
    exact hremains.row hrows
  | case3 row separator rest ih =>
    simp only [Token.rowsOnly, Bool.and_eq_true, separatesArguments, beq_iff_eq] at hrows
    obtain ⟨⟨hrow, hkind, hvalue⟩, hrest⟩ := hrows
    obtain ⟨row', _, rfl, hrow', h⟩ := h.cons_inv (kind_of_opensRow hrow)
    obtain ⟨separator', rest', rfl, hseparator, h⟩ := h.cons_inv (by simp [hkind])
    simp only [Token.rowsOnly, Bool.and_eq_true, separatesArguments, beq_iff_eq]
    exact ⟨⟨hrow'.row hrow, hseparator.argument.2 hkind,
      (hseparator.value (.inl hkind)).trans hvalue⟩, ih h hrest⟩

/-- Discipline is kept. -/
theorem disciplined {formula : String} (h : Leaves raws tokens) (hraws : Disciplined formula raws) :
    Disciplined formula tokens := by
  rintro before token after rfl
  obtain ⟨before', raw, after', rfl, hbefore, hafter, hremains⟩ := h.split
  have hraw := hraws before' raw after' rfl
  refine ⟨fun hstop => ?_, fun hargument => ?_, fun hstart hslice => ?_⟩
  · have hstop' := hremains.stopped.1 hstop
    rw [hremains.bracket (.inr hstop'), hbefore.openStarts_eq_nil_iff]
    exact (hraw.stop hstop').imp_left hbefore.head_openStarts
  · exact hbefore.head_openStarts (hraw.argument (hremains.argument.1 hargument))
  · rw [hremains.places.1, hremains.places.2] at hslice
    obtain ⟨hhead, hrows⟩ := hraw.brace (hremains.started.1 hstart) hslice
    refine ⟨?_, (hafter.directlyInside 0).rowsOnly hrows⟩
    obtain ⟨row, hrow, hopens⟩ := (Option.any_eq_true _ _).1 hhead
    obtain ⟨rest, rfl⟩ : ∃ rest, after' = row :: rest := List.head?_eq_some_iff.1 hrow
    obtain ⟨token', _, rfl, hremains', -⟩ := hafter.cons_inv (kind_of_opensRow hopens)
    exact hremains'.row hopens

/-- A strict reader accepts what is left exactly if it accepts the raw tokens. -/
theorem allAccepted_iff (h : Leaves raws tokens) (hraws : ∀ raw ∈ raws, Bracketed raw) :
    AllAccepted tokens ↔ AllAccepted raws := by
  have hsame : ∀ {before before' raw token}, Leaves before' before → Remains raw token →
      (Accepted (openStarts before) token ↔ Accepted (openStarts before') raw) := by
    intro before before' raw token hbefore hremains
    unfold Accepted
    rw [hremains.stopped, hremains.unknown, ne_eq, hbefore.openStarts_eq_nil_iff]
    refine and_congr_right fun _ => forall_congr' fun hkind => ?_
    rw [hremains.value (.inr hkind)]
  refine ⟨fun haccepted before raw after heq => ?_, fun haccepted => ?_⟩
  · subst heq
    by_cases hkind : raw.kind ≠ .whitespace ∧ raw.kind ≠ .infixOp
    · obtain ⟨before', token, after', rfl, hbefore, hremains⟩ := h.split_raw hkind
      exact (hsame hbefore hremains).1 (haccepted before' token after' rfl)
    · have hplain : raw.kind ≠ .function ∧ raw.kind ≠ .subexpr ∧ raw.kind ≠ .unknown := by
        rw [not_and_or, not_not, not_not] at hkind
        rcases hkind with h | h <;> simp [h]
      refine ⟨fun hstop => ?_, fun hunknown => absurd hunknown hplain.2.2⟩
      have hbracketed : Bracketed raw := hraws raw (by simp)
      exact absurd hstop (hbracketed.plain ⟨hplain.1, hplain.2.1⟩).2
  · rintro before token after rfl
    obtain ⟨before', raw, after', rfl, hbefore, -, hremains⟩ := h.split
    exact (hsame hbefore hremains).2 (haccepted before' raw after' rfl)

end Leaves

end

end SheetFormula.Token
