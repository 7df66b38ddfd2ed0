import Mathlib.Data.List.Chain
import SheetFormula.Proofs.Printable

/-!
# Tokens side by side

Which tokens of a formula stand next to each other.

1. `Follows` says when a token may stand behind another one. What the grammar reads is a chain of such
   tokens: `stretchRules`.
2. Where a formula is read strictly, none of its tokens is of unknown kind, because an operand starts
   behind such a token and the grammar asks for something else there.
3. `Spaced` says that an intersection stands between two operands.
-/

namespace SheetFormula

namespace Token

/-! ## Tokens and their places -/

/-- Whether a token starts an expression. -/
def begins (token : Token) : Bool :=
  token.isPrefixOp || token.kind == .operand || token.isUnknown || token.opensBracket

/-- Whether a token ends an expression. -/
def completes (token : Token) : Bool :=
  token.isPostfixOp || token.kind == .operand || token.isUnknown || token.closesBracket

/-- Whether a token stands behind an expression. -/
def continues (token : Token) : Bool :=
  token.isInfixOp || token.isPostfixOp || token.separatesArguments || token.closesBracket

/-- Whether a token stands where an argument can. -/
def fills (token : Token) : Bool :=
  token.begins || token.separatesArguments || token.closesCall

/-- Whether a token may stand behind another one. -/
structure Follows (token next : Token) : Prop where
  behind : token.completes → next.continues
  ahead : token.isInfixOp || token.isPrefixOp → next.begins
  operator : next.isInfixOp → token.completes
  known : next.begins || next.continues

section

variable {token next : Token}

theorem not_continues_of_begins (h : next.begins) : next.continues = false := by
  simp only [begins, continues, isPrefixOp, isInfixOp, isPostfixOp, isUnknown, separatesArguments,
    opensBracket, closesBracket, opensCall, opensGroup, closesCall, closesGroup, is] at *
  cases hkind : next.kind <;> cases hsubkind : next.subkind <;> simp_all

theorem not_awaits_of_completes (h : token.completes) :
    (token.isInfixOp || token.isPrefixOp) = false := by
  simp only [completes, isPrefixOp, isInfixOp, isPostfixOp, isUnknown, closesBracket, closesCall,
    closesGroup, is] at *
  cases hkind : token.kind <;> simp_all

theorem not_completes_of_awaits (h : token.isInfixOp || token.isPrefixOp) :
    token.completes = false := by
  by_contra hcompletes
  rw [not_awaits_of_completes (by simpa using hcompletes)] at h
  cases h

theorem not_completes_of_opensBracket (h : token.opensBracket) : token.completes = false := by
  simp only [opensBracket, opensCall, opensGroup, completes, isPostfixOp, isUnknown, closesBracket,
    closesCall, closesGroup, is] at *
  cases hkind : token.kind <;> cases hsubkind : token.subkind <;> simp_all

/-- A call or a separator has an argument behind it, which may be empty. -/
theorem slot_of (h : token.opensCall || token.separatesArguments) :
    token.completes = false ∧ (token.isInfixOp || token.isPrefixOp) = false := by
  simp only [opensCall, separatesArguments, completes, isPostfixOp, isUnknown, closesBracket,
    closesCall, closesGroup, isInfixOp, isPrefixOp, is] at *
  cases hkind : token.kind <;> cases hsubkind : token.subkind <;> simp_all

theorem not_isInfixOp_of_fills (h : next.fills) : next.isInfixOp = false := by
  simp only [fills, begins, separatesArguments, closesCall, isPrefixOp, isUnknown, opensBracket,
    opensCall, opensGroup, isInfixOp, is] at *
  cases hkind : next.kind <;> simp_all

theorem known_of_fills (h : next.fills) : next.begins || next.continues := by
  simp only [fills, continues, closesBracket, Bool.or_eq_true] at *
  rcases h with (h | h) | h <;> simp [h]

theorem kind_ne_noop (h : token.begins || token.continues) : token.kind ≠ .noop := by
  intro hkind
  simp [begins, continues, isPrefixOp, isInfixOp, isPostfixOp, isUnknown, separatesArguments,
    opensBracket, closesBracket, opensCall, opensGroup, closesCall, closesGroup, is, hkind] at h

/-- Behind an expression. -/
theorem follows_of_completes (h : token.completes) (hnext : next.continues) : Follows token next where
  behind _ := hnext
  ahead hawaits := by rw [not_awaits_of_completes h] at hawaits; cases hawaits
  operator _ := h
  known := by rw [hnext, Bool.or_true]

/-- In front of an expression. -/
theorem follows_of_begins (h : token.completes = false) (hnext : next.begins) : Follows token next where
  behind hcompletes := by rw [h] at hcompletes; cases hcompletes
  ahead _ := hnext
  operator hoperator := by
    have hcontinues : next.continues := by simp [continues, hoperator]
    rw [not_continues_of_begins hnext] at hcontinues
    cases hcontinues
  known := by rw [hnext, Bool.true_or]

/-- In front of an argument. -/
theorem follows_of_fills (h : token.opensCall || token.separatesArguments) (hnext : next.fills) :
    Follows token next where
  behind hcompletes := by rw [(slot_of h).1] at hcompletes; cases hcompletes
  ahead hawaits := by rw [(slot_of h).2] at hawaits; cases hawaits
  operator hoperator := by rw [not_isInfixOp_of_fills hnext] at hoperator; cases hoperator
  known := known_of_fills hnext

end

/-! ## Stretches of tokens -/

/-- Tokens that stand side by side as in a formula, up to the end of an expression. -/
structure Stretch (First : Token → Bool) (tokens : List Token) : Prop where
  first : tokens.head?.any First
  chain : tokens.IsChain Follows
  last : tokens.getLast?.any completes

section

variable {token : Token} {front back tokens : List Token} {First First' : Token → Bool}

theorem Stretch.imp (h : Stretch First tokens) (himp : ∀ token, First token → First' token) :
    Stretch First' tokens := by
  obtain ⟨first, hfirst, hholds⟩ := (Option.any_eq_true _ _).1 h.first
  exact ⟨(Option.any_eq_true _ _).2 ⟨first, hfirst, himp first hholds⟩, h.chain, h.last⟩

theorem stretch_single (h : First token) (hcompletes : token.completes) : Stretch First [token] :=
  ⟨h, .singleton token, hcompletes⟩

/-- Every token of a stretch starts an expression or stands behind one. -/
theorem Stretch.known (h : Stretch begins tokens) :
    ∀ token ∈ tokens, token.begins || token.continues := by
  have hrest : ∀ {tokens : List Token}, tokens.IsChain Follows →
      (∀ first ∈ tokens.head?, first.begins || first.continues) →
      ∀ token ∈ tokens, token.begins || token.continues := by
    intro tokens hchain hfirst
    induction tokens with
    | nil => simp
    | cons first rest ih =>
      obtain ⟨hfollows, hchain⟩ := List.isChain_cons.1 hchain
      intro token ht
      rcases List.mem_cons.1 ht with rfl | ht
      · exact hfirst _ rfl
      · exact ih hchain (fun next hnext => (hfollows next hnext).known) token ht
  refine hrest h.chain fun first hfirst => ?_
  have hbegins := h.first
  rw [Option.mem_def.1 hfirst] at hbegins
  rw [show first.begins = true from hbegins, Bool.true_or]

/-- A token in front of a stretch. -/
theorem Stretch.cons (hback : Stretch First' back) (h : First token)
    (hfollows : ∀ next, First' next → Follows token next) : Stretch First (token :: back) where
  first := h
  chain := by
    refine List.isChain_cons.2 ⟨fun next hnext => hfollows next ?_, hback.chain⟩
    have hfirst := hback.first
    rwa [Option.mem_def.1 hnext] at hfirst
  last := by
    obtain ⟨last, hlast, hcompletes⟩ := (Option.any_eq_true _ _).1 hback.last
    rw [← List.singleton_append, List.getLast?_append, hlast]
    exact hcompletes

/-- Behind an expression, a stretch goes on. -/
theorem Stretch.append (hfront : Stretch First front) (hback : Stretch continues back) :
    Stretch First (front ++ back) where
  first := by
    have hfirst := hfront.first
    cases front with
    | nil => cases hfirst
    | cons => exact hfirst
  chain := by
    refine List.isChain_append.2 ⟨hfront.chain, hback.chain, fun last hlast next hnext => ?_⟩
    have hcompletes := hfront.last
    have hcontinues := hback.first
    rw [Option.mem_def.1 hlast] at hcompletes
    rw [Option.mem_def.1 hnext] at hcontinues
    exact follows_of_completes hcompletes hcontinues
  last := by
    obtain ⟨last, hlast, hcompletes⟩ := (Option.any_eq_true _ _).1 hback.last
    rw [List.getLast?_append, hlast]
    exact hcompletes

end

end Token

namespace Grammar

open Token (Stretch begins completes continues fills stretch_single)

/-! ## What the grammar reads -/

/-- What is read is a stretch of tokens. -/
def Reads (First : Token → Bool) (tokens rest : List Token) : Prop :=
  ∃ read, tokens = read ++ rest ∧ Stretch First read

/-- What is read behind an expression is a stretch of tokens, if it is anything. -/
def Trails (tokens rest : List Token) : Prop := rest = tokens ∨ Reads continues tokens rest

variable {First First' : Token → Bool} {token : Token} {tokens rest rest' : List Token}

theorem reads_single (h : First token) (hcompletes : token.completes) :
    Reads First (token :: rest) rest := ⟨[token], rfl, stretch_single h hcompletes⟩

theorem Reads.cons (hreads : Reads First' tokens rest) (h : First token)
    (hfollows : ∀ next, First' next → token.Follows next) : Reads First (token :: tokens) rest := by
  obtain ⟨read, rfl, hread⟩ := hreads
  exact ⟨token :: read, rfl, hread.cons h hfollows⟩

theorem Reads.append (h : Reads First tokens rest) (h' : Reads continues rest rest') :
    Reads First tokens rest' := by
  obtain ⟨front, rfl, hfront⟩ := h
  obtain ⟨back, rfl, hback⟩ := h'
  exact ⟨front ++ back, (List.append_assoc ..).symm, hfront.append hback⟩

theorem Reads.trail (h : Reads First tokens rest) (h' : Trails rest rest') :
    Reads First tokens rest' := by
  rcases h' with rfl | h'
  · exact h
  · exact h.append h'

theorem Reads.imp (h : Reads First tokens rest) (himp : ∀ token, First token → First' token) :
    Reads First' tokens rest := by
  obtain ⟨read, rfl, hread⟩ := h
  exact ⟨read, rfl, hread.imp himp⟩

theorem trails_postfixes (e : Expr) (tokens : List Token) : Trails tokens (postfixes e tokens).2 := by
  induction tokens generalizing e with
  | nil => exact .inl rfl
  | cons token rest ih =>
    rw [postfixes]
    split
    · rename_i hpercent
      have hone : Reads continues (token :: rest) rest :=
        reads_single (by simp [continues, hpercent]) (by simp [completes, hpercent])
      exact .inr (hone.trail (ih _))
    · exact .inl rfl

theorem trails_number (value : Number.Binary64) (tokens : List Token) :
    Trails tokens (number value tokens).2 := by
  cases tokens with
  | nil => exact .inl rfl
  | cons token rest =>
    rw [number]
    split
    · rename_i hpercent
      exact .inr (reads_single (by simp [continues, hpercent]) (by simp [completes, hpercent]))
    · exact .inl rfl

/-- A token that is an expression by itself. -/
theorem reads_operand {subkind : Token.Subkind} (h : token.is .operand subkind) :
    Reads begins (token :: rest) rest :=
  reads_single (by simp [begins, (Token.is_iff.1 h).1]) (by simp [completes, (Token.is_iff.1 h).1])

/-- The judgements that make stretches of what is read. -/
theorem stretchRules : Rules
    (fun _ tokens _ rest => Reads begins tokens rest)
    (fun _ _ tokens _ rest => Trails tokens rest)
    (fun tokens _ rest => Reads begins tokens rest)
    (fun token tokens _ rest => Reads begins (token :: tokens) rest)
    (fun tokens _ rest => Reads fills tokens rest)
    (fun tokens _ rest => Reads fills tokens rest)
    (fun tokens _ rest => rest = tokens ∨ Reads begins tokens rest) where
  climb ho hc := ho.trail hc
  chainEnd := .inl rfl
  chainStop _ := .inl rfl
  chainStep {_ _ token _ _ _ _ _ _} hoperator _ _ hr hc := by
    have hawaits : token.completes = false := Token.not_completes_of_awaits (by simp [hoperator])
    exact .inr ((hr.cons (by simp [continues, hoperator])
      fun _ => Token.follows_of_begins hawaits).trail hc)
  minus {token _ _ _} hunary _ hc := by
    have hawaits : token.completes = false := Token.not_completes_of_awaits (by simp [hunary])
    exact hc.cons (by simp [begins, hunary]) fun _ => Token.follows_of_begins hawaits
  operand _ hp := hp.trail (trails_postfixes _ _)
  number hnumber _ := (reads_operand hnumber).trail (trails_number _ _)
  text htext := reads_operand htext
  logical hlogical := reads_operand hlogical
  reference hrange := reads_operand hrange
  group {token _ _ close _} hopens hcloses hc := by
    have hopens : token.opensBracket := by simp [Token.opensBracket, hopens]
    have hcloses : close.closesBracket := by simp [Token.closesBracket, hcloses]
    exact (hc.append (reads_single (by simp [continues, hcloses]) (by simp [completes, hcloses]))).cons
      (by simp [begins, hopens])
      fun _ => Token.follows_of_begins (Token.not_completes_of_opensBracket hopens)
  call {token _ _ _} hopens ha := by
    exact ha.cons (by simp [begins, Token.opensBracket, hopens])
      fun _ => Token.follows_of_fills (by simp [hopens])
  errorValue herror := reads_operand herror
  unknown hunknown := reads_single (by simp [begins, hunknown]) (by simp [completes, hunknown])
  noArguments {token _} hcloses :=
    reads_single (by simp [fills, hcloses]) (by simp [completes, Token.closesBracket, hcloses])
  someArguments _ hs := hs
  slotsStep {_ _ token _ _ _} hseparates ha hs := by
    have hfollows : ∀ next : Token, next.fills → token.Follows next :=
      fun _ => Token.follows_of_fills (by simp [hseparates])
    rcases ha with rfl | ha
    · exact hs.cons (by simp [fills, hseparates]) hfollows
    · exact (ha.append (hs.cons (by simp [continues, hseparates]) hfollows)).imp
        fun _ h => by simp [fills, h]
  slotsEnd {_ _ token _} hcloses ha := by
    have hbracket : token.closesBracket := by simp [Token.closesBracket, hcloses]
    rcases ha with rfl | ha
    · exact reads_single (by simp [fills, hcloses]) (by simp [completes, hbracket])
    · exact (ha.append (reads_single (by simp [continues, hbracket])
        (by simp [completes, hbracket]))).imp fun _ h => by simp [fills, h]
  emptySlot _ := .inl rfl
  fullSlot _ hc := .inr hc

/-- The tokens that write an expression are a stretch. -/
theorem stretch_of_parse {e : Expr} (h : parse tokens = some e) : Stretch begins tokens := by
  unfold parse at h
  split at h
  · rename_i e' hclimb
    obtain ⟨read, hread, hstretch⟩ := stretchRules.of_climb hclimb
    rw [List.append_nil] at hread
    exact hread ▸ hstretch
  · cases h

end Grammar

namespace Token

/-! ## Tokens of unknown kind -/

theorem begins_of_startsOperand {token : Token} (h : token.startsOperand) : token.begins := by
  simp only [startsOperand, Bool.or_eq_true] at h
  rcases h with h | h <;> simp [begins, opensBracket, h]

/-- In a chain of tokens no token is of unknown kind if an operand starts behind each of them. -/
theorem kind_ne_unknown {tokens : List Token} (hchain : tokens.IsChain Follows)
    (hleading : Leading tokens) : ∀ token ∈ tokens, token.kind ≠ .unknown := by
  induction tokens with
  | nil => simp
  | cons token rest ih =>
    obtain ⟨hfollows, hrest⟩ := List.isChain_cons.1 hchain
    intro other hother
    rcases List.mem_cons.1 hother with rfl | hother
    · intro hunknown
      obtain ⟨next, hnext, hstarts⟩ := hleading.1 hunknown
      have hcontinues : next.continues :=
        (hfollows next hnext).behind (by simp [completes, isUnknown, hunknown])
      rw [not_continues_of_begins (begins_of_startsOperand hstarts)] at hcontinues
      cases hcontinues
    · exact ih hrest hleading.2 other hother

/-! ## Intersections -/

/-- An intersection stands between two operands. -/
def Spaced (previous : Option Token) : List Token → Prop
  | [] => True
  | token :: rest =>
    (token.is .infixOp .intersect → previous.any endsValue ∧ rest.head?.any startsValue) ∧
      Spaced (some token) rest

/-- What a scan leaves to the passes. -/
def Unsettled (raw : Token) : Prop :=
  raw.kind ≠ .noop ∧ (raw.kind = .whitespace → raw.value = " ") ∧ raw.is .infixOp .intersect = false

section

variable {locale : Locale} {previous resolved last : Option Token} {raw : Token} {raws : List Token}

/-- Brackets keep their kinds. -/
theorem resolveOne_kinds (h : raw.kind ≠ .infixOp ∧ raw.kind ≠ .operand) :
    (resolveOne locale previous raw).kind = raw.kind ∧
      (resolveOne locale previous raw).subkind = raw.subkind := by
  obtain ⟨value, kind, subkind, start, stop⟩ := raw
  obtain ⟨hbinary, hoperand⟩ : kind ≠ .infixOp ∧ kind ≠ .operand := h
  cases kind with
  | infixOp => exact absurd rfl hbinary
  | operand => exact absurd rfl hoperand
  | function =>
    rw [resolveOne_function]
    exact ⟨rfl, rfl⟩
  | _ => exact ⟨rfl, rfl⟩

theorem endsValue_resolveOne (h : raw.kind ≠ .infixOp) :
    (resolveOne locale previous raw).endsValue = raw.endsValue := by
  by_cases hoperand : raw.kind = .operand
  · have hkind : (resolveOne locale previous raw).kind = .operand := (kind_resolveOne h).trans hoperand
    simp [endsValue, hkind, hoperand]
  · obtain ⟨hkind, hsubkind⟩ : (resolveOne locale previous raw).kind = raw.kind ∧
        (resolveOne locale previous raw).subkind = raw.subkind := resolveOne_kinds ⟨h, hoperand⟩
    simp only [endsValue, closesBracket, closesCall, closesGroup, is, hkind, hsubkind]

theorem startsValue_resolveOne (h : raw.kind ≠ .infixOp) :
    (resolveOne locale previous raw).startsValue = raw.startsValue := by
  by_cases hoperand : raw.kind = .operand
  · have hkind : (resolveOne locale previous raw).kind = .operand := (kind_resolveOne h).trans hoperand
    simp [startsValue, hkind, hoperand]
  · obtain ⟨hkind, hsubkind⟩ : (resolveOne locale previous raw).kind = raw.kind ∧
        (resolveOne locale previous raw).subkind = raw.subkind := resolveOne_kinds ⟨h, hoperand⟩
    simp only [startsValue, opensBracket, opensCall, opensGroup, is, hkind, hsubkind]

theorem not_intersect_resolveOne (h : raw.is .infixOp .intersect = false) :
    (resolveOne locale previous raw).is .infixOp .intersect = false := by
  by_cases hkind : raw.kind = .infixOp
  · have hsubkind : raw.subkind ≠ .intersect := by simpa [is, hkind] using h
    have hfamily : operatorFamily raw.value ≠ .intersect := by
      unfold operatorFamily
      split <;> simp
    unfold resolveOne resolveSign
    rw [hkind]
    dsimp only
    split_ifs <;> simp [is, hsubkind, hfamily]
  · have hkept : (resolveOne locale previous raw).kind ≠ .infixOp := by rwa [kind_resolveOne hkind]
    simp [is, hkept]

/-- What starts an operand is kept where it is the first. -/
theorem head_normal (h : raws.head?.any startsValue) :
    (withoutNoops (resolveFrom locale resolved (settleFrom previous raws))).head?.any startsValue := by
  cases raws with
  | nil => cases h
  | cons raw rest =>
    have hstarts : raw.startsValue := h
    have hkind : raw.kind ≠ .whitespace ∧ raw.kind ≠ .infixOp ∧ raw.kind ≠ .noop := by
      refine ⟨?_, ?_, ?_⟩ <;> rintro hkind <;>
        simp [startsValue, opensBracket, opensCall, opensGroup, is, hkind] at hstarts
    have hnoop : (resolveOne locale resolved raw).kind ≠ .noop := by
      rw [kind_resolveOne hkind.2.1]
      exact hkind.2.2
    rw [normal_cons hkind.1 rfl hnoop]
    exact (startsValue_resolveOne hkind.2.1).trans hstarts

/-- The passes leave an intersection between two operands only. -/
theorem spaced_from (hraws : ∀ raw ∈ raws, Unsettled raw)
    (hlast : previous.any endsValue → last.any endsValue) :
    Spaced last (withoutNoops (resolveFrom locale resolved (settleFrom previous raws))) := by
  induction raws generalizing previous resolved last with
  | nil => exact trivial
  | cons raw rest ih =>
    have hrest : ∀ raw ∈ rest, Unsettled raw := fun raw hr => hraws raw (List.mem_cons_of_mem _ hr)
    obtain ⟨hnoop, hvalue, hintersect⟩ := hraws raw List.mem_cons_self
    -- What is no operand has no intersection behind it, whatever the last token is.
    have hno : ∀ last : Option Token, raw.kind = .whitespace ∨ raw.kind = .infixOp →
        (some raw).any endsValue → last.any endsValue := by
      rintro last (h | h) hends <;>
        simp [endsValue, closesBracket, closesCall, closesGroup, is, h] at hends
    rcases normal_cases previous resolved raw rest hvalue with
      ⟨-, heq⟩ | ⟨hkind, hprevious, hnext, heq⟩ | ⟨hdropped, resolved', heq⟩
    · rw [heq]
      refine ⟨fun h => ?_, ih hrest ?_⟩
      · rw [not_intersect_resolveOne hintersect] at h
        cases h
      · by_cases hbinary : raw.kind = .infixOp
        · exact hno _ (.inr hbinary)
        · exact fun h => (endsValue_resolveOne hbinary).trans h
    · rw [heq]
      exact ⟨fun _ => ⟨hlast hprevious, head_normal hnext⟩, ih hrest (hno _ (.inl hkind))⟩
    · rw [heq]
      refine ih hrest (hno _ (hdropped.imp id fun hdropped => ?_))
      by_contra hbinary
      rw [kind_resolveOne hbinary] at hdropped
      exact hnoop hdropped

end

end Token

namespace Scan

open Token (Unsettled)

/-- What a scan leaves to the passes. -/
theorem unsettled_of_shape {locale : Locale} {raw : Token} (h : Shape locale raw) : Unsettled raw := by
  cases h with
  | sign hsign =>
    have hsigns : ∀ sign ∈ signs,
        sign.2.1 ≠ .noop ∧ sign.2.1 ≠ .whitespace ∧ sign.2.2 ≠ .intersect := by decide
    obtain ⟨hnoop, hspace, hintersect⟩ := hsigns _ hsign
    exact ⟨hnoop, fun h => absurd h hspace, by simpa [Token.is] using fun _ => hintersect⟩
  | close h => rcases h with rfl | rfl <;> exact ⟨by simp, by simp, rfl⟩
  | _ => exact ⟨by simp, by simp, rfl⟩

end Scan

/-- The tokens of a formula that is read strictly are of known kinds and a stretch. -/
theorem Formula.stretch_of_parse {locale : Locale} {limits : Parser.Limits} {formula : String} {e : Expr}
    (h : parse ⟨locale, limits, true⟩ formula = .ok e) :
    Token.Stretch Token.begins (tokens locale formula) ∧
      ∀ token ∈ tokens locale formula, token.kind ≠ .unknown := by
  obtain ⟨hfault, hgrammar⟩ := tokens_of_parse h
  have hstretch := Grammar.stretch_of_parse hgrammar
  exact ⟨hstretch, Token.kind_ne_unknown hstretch.chain (Token.leading_tokens hfault)⟩

end SheetFormula
