import Lox.Proofs.Concrete.Syntax

/-! Unique derivations.
Two derivations that derive the same tokens, up to what stands behind them, are the same, as long as
what stands behind them does not continue them (`Expression.unique`, `Statement.unique`). -/
namespace Lox
namespace Concrete

open Grammar (Level maxArity)

def Stops (p : Kind → Bool) (ts : List Token) : Prop := ∀ t ∈ ts.head?, p t.kind = false

theorem stops_cons {p : Kind → Bool} {t : Token} {ts : List Token} (h : p t.kind = false) :
    Stops p (t :: ts) := by
  rintro _ ⟨⟩
  exact h

theorem Stops.head {p : Kind → Bool} {t : Token} {ts : List Token} (h : Stops p (t :: ts)) :
    p t.kind = false := h t rfl

theorem Stops.imp {p q : Kind → Bool} {ts : List Token} (h : Stops q ts)
    (hpq : ∀ k, q k = false → p k = false) : Stops p ts := fun t ht => hpq t.kind (h t ht)

theorem The.kind_eq {kind : Kind} (t : The kind) : t.1.kind = kind := of_decide_eq_true t.2

theorem The.eq_false {kind : Kind} (t : The kind) {p : Kind → Bool} (h : p kind = false) :
    p t.1.kind = false := by
  rw [t.kind_eq]
  exact h

def continuesChain (levels : List Level) (k : Kind) : Bool :=
  k = .leftParen || levels.any fun l => l.has k

def continuesExpression (k : Kind) : Bool := k = .equal || continuesChain Level.all k

def startsCall (k : Kind) : Bool := isConstant k || k = .identifier || k = .leftParen

def startsExpression (k : Kind) : Bool := isPrefix k || startsCall k

theorem has_disjoint {l m : Level} {k : Kind} (hl : l.has k) (hlm : l ≠ m) : m.has k = false := by
  cases l <;> cases m <;> first | exact absurd rfl hlm | (cases k <;> first | rfl | cases hl)

theorem not_continuesChain_of_has {l : Level} {tighter : List Level} (hn : l ∉ tighter) {k : Kind}
    (h : l.has k) : continuesChain tighter k = false := by
  have hparen : ¬ k = .leftParen := by
    rintro rfl
    cases l <;> cases h
  have hany : tighter.any (fun m => m.has k) = false := by
    rw [List.any_eq_false]
    intro m hm
    rw [has_disjoint h fun hlm => hn (hlm ▸ hm)]
    exact Bool.false_ne_true
  simp [continuesChain, hparen, hany]

theorem Stops.tighter {l : Level} {tighter : List Level} {ts : List Token}
    (h : Stops (continuesChain (l :: tighter)) ts) : Stops (continuesChain tighter) ts := by
  refine h.imp fun k hk => ?_
  simp only [continuesChain, List.any_cons, Bool.or_eq_false_iff] at hk ⊢
  exact ⟨hk.1, hk.2.2⟩

theorem Stops.operator {l : Level} {tighter : List Level} {ts : List Token}
    (h : Stops (continuesChain (l :: tighter)) ts) : Stops l.has ts := by
  refine h.imp fun k hk => ?_
  simp only [continuesChain, List.any_cons, Bool.or_eq_false_iff] at hk
  exact hk.2.1

theorem Stops.paren {levels : List Level} {ts : List Token}
    (h : Stops (continuesChain levels) ts) : Stops (fun k => k = .leftParen) ts := by
  refine h.imp fun k hk => ?_
  simp only [continuesChain, Bool.or_eq_false_iff] at hk
  exact hk.1

theorem Stops.chain {ts : List Token} (h : Stops continuesExpression ts) :
    Stops (continuesChain Level.all) ts := by
  refine h.imp fun k hk => ?_
  simp only [continuesExpression, Bool.or_eq_false_iff] at hk
  exact hk.2

theorem Stops.equal {ts : List Token} (h : Stops continuesExpression ts) :
    Stops (fun k => k = .equal) ts := by
  refine h.imp fun k hk => ?_
  simp only [continuesExpression, Bool.or_eq_false_iff] at hk
  exact hk.1

/-- An operand is followed by an operator that is looser, or by what follows the whole. -/
theorem Links.stops {l : Level} {tighter : List Level} (hn : l ∉ tighter) {ts : List Token}
    (h : Stops (continuesChain (l :: tighter)) ts) :
    ∀ links : Links l tighter, Stops (continuesChain tighter) (links.tokens ++ ts)
  | .none => h.tighter
  | .link op _ _ => stops_cons (not_continuesChain_of_has hn op.2)

/-- A derivation derives a token of these categories first. -/
def StartsWith (p : Kind → Bool) (ts : List Token) : Prop := ∃ t us, ts = t :: us ∧ p t.kind

theorem Primary.starts : ∀ d : Primary, StartsWith startsCall d.tokens
  | .constant token => ⟨token.1, [], rfl, by simp [startsCall, token.2]⟩
  | .identifier name => ⟨name.1, [], rfl, by simp [startsCall, name.kind_eq]⟩
  | .group opening inner closing => ⟨opening.1, _, rfl, by simp [startsCall, opening.kind_eq]⟩

theorem Call.starts : ∀ d : Call, StartsWith startsCall d.tokens
  | .call callee suffixes => by
    obtain ⟨t, us, h, hk⟩ := callee.starts
    exact ⟨t, us ++ suffixes.tokens, by rw [Call.tokens, h, List.cons_append], hk⟩

theorem Unary.starts : ∀ d : Unary, StartsWith startsExpression d.tokens
  | .operator op operand => ⟨op.1, operand.tokens, rfl, by simp [startsExpression, op.2]⟩
  | .call c => by
    obtain ⟨t, us, h, hk⟩ := c.starts
    exact ⟨t, us, h, by simp [startsExpression, hk]⟩

theorem Chain.starts {levels : List Level} : ∀ d : Chain levels,
    StartsWith startsExpression d.tokens
  | .unary operand => operand.starts
  | .level first links => by
    obtain ⟨t, us, h, hk⟩ := first.starts
    exact ⟨t, us ++ links.tokens, by rw [Chain.tokens, h, List.cons_append], hk⟩

theorem Expression.starts : ∀ d : Expression, StartsWith startsExpression d.tokens
  | .assign name equals value =>
    ⟨name.1, _, rfl, by simp [startsExpression, startsCall, name.kind_eq]⟩
  | .chain operands => operands.starts

theorem ArgumentList.starts {room : Nat} : ∀ d : ArgumentList room,
    StartsWith startsExpression d.tokens
  | .last arg => arg.starts
  | .more arg comma args => by
    obtain ⟨t, us, h, hk⟩ := arg.starts
    exact ⟨t, us ++ comma.1 :: args.tokens, by rw [ArgumentList.tokens, h, List.cons_append], hk⟩

theorem not_isPrefix_of_startsCall {k : Kind} (h : startsCall k) : ¬ isPrefix k := by
  cases k <;> first | (cases h; done) | exact Bool.false_ne_true

def closes (k : Kind) : Bool := k = .semicolon || k = .rightParen

theorem continuesExpression_of_closes {k : Kind} (h : closes k) : continuesExpression k = false := by
  cases k <;> first | (cases h; done) | rfl

theorem startsExpression_of_closes {k : Kind} (h : closes k) : ¬ startsExpression k := by
  cases k <;> first | (cases h; done) | exact Bool.false_ne_true

theorem StartsWith.stops_expression {ts : List Token} (h : StartsWith closes ts) :
    Stops continuesExpression ts := by
  obtain ⟨t, us, rfl, hk⟩ := h
  exact stops_cons (continuesExpression_of_closes hk)

theorem The.closing {kind : Kind} (t : The kind) (h : closes kind) (ts : List Token) :
    StartsWith closes (t.1 :: ts) := ⟨t.1, ts, rfl, by rw [t.kind_eq]; exact h⟩

theorem StartsWith.head {p : Kind → Bool} {ts us vs : List Token} {t : Token}
    (h : StartsWith p ts) (heq : ts ++ us = t :: vs) : p t.kind := by
  obtain ⟨u, ws, rfl, hk⟩ := h
  injection heq with hu
  rwa [← hu]

theorem Call.lone {name equals : Token} {ts us : List Token} (hname : name.kind = .identifier)
    (hequals : equals.kind = .equal) : ∀ d : Call, d.tokens ++ ts = name :: equals :: us →
      ts = equals :: us
  | .call (.constant token) _, h => by
    simp only [Call.tokens, Primary.tokens, List.cons_append, List.cons.injEq] at h
    have := token.2
    rw [h.1, hname] at this
    cases this
  | .call (.group opening _ _) _, h => by
    simp only [Call.tokens, Primary.tokens, List.cons_append, List.cons.injEq] at h
    have := opening.kind_eq
    rw [h.1, hname] at this
    cases this
  | .call (.identifier _) .none, h => by
    simp only [Call.tokens, Primary.tokens, Suffixes.tokens, List.cons_append, List.cons.injEq] at h
    exact h.2
  | .call (.identifier _) (.arguments opening _ _ _), h => by
    simp only [Call.tokens, Primary.tokens, Suffixes.tokens, List.cons_append, List.nil_append,
      List.cons.injEq] at h
    have := opening.kind_eq
    rw [h.2.1, hequals] at this
    cases this

/-- In front of a `=` an identifier is an expression of a level by itself. -/
theorem Chain.lone {name equals : Token} {us : List Token} (hname : name.kind = .identifier)
    (hequals : equals.kind = .equal) {levels : List Level} : ∀ (d : Chain levels)
      {ts : List Token}, d.tokens ++ ts = name :: equals :: us → ts = equals :: us
  | .unary (.operator op _), _, h => by
    simp only [Chain.tokens, Unary.tokens, List.cons_append, List.cons.injEq] at h
    have := op.2
    rw [h.1, hname] at this
    cases this
  | .unary (.call c), _, h => c.lone hname hequals h
  | .level first .none, _, h => by
    rw [Chain.tokens, Links.tokens, List.append_nil] at h
    exact first.lone hname hequals h
  | @Chain.level l _ first (.link op operand links), _, h => by
    rw [Chain.tokens, List.append_assoc] at h
    have hlone := first.lone hname hequals h
    simp only [Links.tokens, List.cons_append, List.cons.injEq] at hlone
    have := op.2
    rw [hlone.1, hequals] at this
    cases l <;> cases this

mutual

theorem Expression.unique : ∀ (d d' : Expression) {ts ts' : List Token},
    d.tokens ++ ts = d'.tokens ++ ts' → Stops continuesExpression ts →
      Stops continuesExpression ts' → d = d' ∧ ts = ts'
  | .assign name equals value, .assign name' equals' value', _, _, h, hs, hs' => by
    simp only [Expression.tokens, List.cons_append, List.cons.injEq] at h
    obtain ⟨hname, hequals, h⟩ := h
    obtain ⟨rfl, rfl⟩ := value.unique value' h hs hs'
    obtain rfl := Subtype.ext hname
    obtain rfl := Subtype.ext hequals
    exact ⟨rfl, rfl⟩
  | .chain operands, .chain operands', _, _, h, hs, hs' => by
    obtain ⟨rfl, rfl⟩ := operands.unique (by decide) operands' h hs.chain hs'.chain
    exact ⟨rfl, rfl⟩
  | .assign name equals value, .chain operands, _, _, h, _, hs' => by
    have hlone := operands.lone name.kind_eq equals.kind_eq h.symm
    rw [hlone] at hs'
    exact absurd hs'.equal.head (by simp [equals.kind_eq])
  | .chain operands, .assign name equals value, _, _, h, hs, _ => by
    have hlone := operands.lone name.kind_eq equals.kind_eq h
    rw [hlone] at hs
    exact absurd hs.equal.head (by simp [equals.kind_eq])
termination_by structural d => d

theorem Chain.unique {levels : List Level} (hn : levels.Nodup) : ∀ (d d' : Chain levels)
    {ts ts' : List Token}, d.tokens ++ ts = d'.tokens ++ ts' → Stops (continuesChain levels) ts →
      Stops (continuesChain levels) ts' → d = d' ∧ ts = ts'
  | .unary operand, .unary operand', _, _, h, hs, hs' => by
    obtain ⟨rfl, rfl⟩ := operand.unique operand' h hs.paren hs'.paren
    exact ⟨rfl, rfl⟩
  | .level first links, .level first' links', _, _, h, hs, hs' => by
    obtain ⟨hl, hn⟩ := List.nodup_cons.1 hn
    rw [Chain.tokens, Chain.tokens, List.append_assoc, List.append_assoc] at h
    obtain ⟨rfl, hrest⟩ := first.unique hn first' h (links.stops hl hs) (links'.stops hl hs')
    obtain ⟨rfl, rfl⟩ := links.unique hl hn links' hrest hs hs'
    exact ⟨rfl, rfl⟩
termination_by structural d => d

theorem Links.unique {l : Level} {tighter : List Level} (hl : l ∉ tighter) (hn : tighter.Nodup) :
    ∀ (d d' : Links l tighter) {ts ts' : List Token}, d.tokens ++ ts = d'.tokens ++ ts' →
      Stops (continuesChain (l :: tighter)) ts → Stops (continuesChain (l :: tighter)) ts' →
        d = d' ∧ ts = ts'
  | .none, .none, _, _, h, _, _ => ⟨rfl, h⟩
  | .link op operand links, .link op' operand' links', _, _, h, hs, hs' => by
    simp only [Links.tokens, List.cons_append, List.append_assoc, List.cons.injEq] at h
    obtain ⟨hop, h⟩ := h
    obtain ⟨rfl, hrest⟩ := operand.unique hn operand' h (links.stops hl hs) (links'.stops hl hs')
    obtain ⟨rfl, rfl⟩ := links.unique hl hn links' hrest hs hs'
    obtain rfl := Subtype.ext hop
    exact ⟨rfl, rfl⟩
  | .none, .link op _ _, _, _, h, hs, _ => by
    rw [Links.tokens, List.nil_append] at h
    rw [h] at hs
    exact absurd hs.operator.head (by simp [op.2])
  | .link op _ _, .none, _, _, h, _, hs' => by
    rw [Links.tokens, Links.tokens, List.nil_append] at h
    rw [← h] at hs'
    exact absurd hs'.operator.head (by simp [op.2])
termination_by structural d => d

theorem Unary.unique : ∀ (d d' : Unary) {ts ts' : List Token},
    d.tokens ++ ts = d'.tokens ++ ts' → Stops (fun k => k = .leftParen) ts →
      Stops (fun k => k = .leftParen) ts' → d = d' ∧ ts = ts'
  | .operator op operand, .operator op' operand', _, _, h, hs, hs' => by
    simp only [Unary.tokens, List.cons_append, List.cons.injEq] at h
    obtain ⟨rfl, rfl⟩ := operand.unique operand' h.2 hs hs'
    obtain rfl := Subtype.ext h.1
    exact ⟨rfl, rfl⟩
  | .call c, .call c', _, _, h, hs, hs' => by
    obtain ⟨rfl, rfl⟩ := c.unique c' h hs hs'
    exact ⟨rfl, rfl⟩
  | .operator op _, .call c, _, _, h, _, _ =>
    absurd op.2 (not_isPrefix_of_startsCall (c.starts.head h.symm))
  | .call c, .operator op _, _, _, h, _, _ =>
    absurd op.2 (not_isPrefix_of_startsCall (c.starts.head h))
termination_by structural d => d

theorem Call.unique : ∀ (d d' : Call) {ts ts' : List Token},
    d.tokens ++ ts = d'.tokens ++ ts' → Stops (fun k => k = .leftParen) ts →
      Stops (fun k => k = .leftParen) ts' → d = d' ∧ ts = ts'
  | .call callee suffixes, .call callee' suffixes', _, _, h, hs, hs' => by
    rw [Call.tokens, Call.tokens, List.append_assoc, List.append_assoc] at h
    obtain ⟨rfl, hrest⟩ := callee.unique callee' h
    obtain ⟨rfl, rfl⟩ := suffixes.unique suffixes' hrest hs hs'
    exact ⟨rfl, rfl⟩
termination_by structural d => d

theorem Suffixes.unique : ∀ (d d' : Suffixes) {ts ts' : List Token},
    d.tokens ++ ts = d'.tokens ++ ts' → Stops (fun k => k = .leftParen) ts →
      Stops (fun k => k = .leftParen) ts' → d = d' ∧ ts = ts'
  | .none, .none, _, _, h, _, _ => ⟨rfl, h⟩
  | .arguments opening args closing suffixes, .arguments opening' args' closing' suffixes',
    _, _, h, hs, hs' => by
    simp only [Suffixes.tokens, List.cons_append, List.append_assoc, List.cons.injEq] at h
    obtain ⟨rfl, hrest⟩ := args.unique args' h.2 (closing.closing rfl _) (closing'.closing rfl _)
    simp only [List.cons.injEq] at hrest
    obtain ⟨rfl, rfl⟩ := suffixes.unique suffixes' hrest.2 hs hs'
    obtain rfl := Subtype.ext h.1
    obtain rfl := Subtype.ext hrest.1
    exact ⟨rfl, rfl⟩
  | .none, .arguments opening _ _ _, _, _, h, hs, _ => by
    rw [Suffixes.tokens, List.nil_append] at h
    rw [h] at hs
    exact absurd hs.head (by simp [opening.kind_eq])
  | .arguments opening _ _ _, .none, _, _, h, _, hs' => by
    rw [Suffixes.tokens, Suffixes.tokens, List.nil_append] at h
    rw [← h] at hs'
    exact absurd hs'.head (by simp [opening.kind_eq])
termination_by structural d => d

theorem Arguments.unique : ∀ (d d' : Arguments) {ts ts' : List Token},
    d.tokens ++ ts = d'.tokens ++ ts' → StartsWith closes ts →
      StartsWith closes ts' → d = d' ∧ ts = ts'
  | .none, .none, _, _, h, _, _ => ⟨rfl, h⟩
  | .some args, .some args', _, _, h, hs, hs' => by
    obtain ⟨rfl, rfl⟩ := args.unique args' h hs hs'
    exact ⟨rfl, rfl⟩
  | .none, .some args, _, _, h, hs, _ => by
    obtain ⟨t, us, rfl, hk⟩ := hs
    exact absurd (args.starts.head h.symm) (startsExpression_of_closes hk)
  | .some args, .none, _, _, h, _, hs' => by
    obtain ⟨t, us, rfl, hk⟩ := hs'
    exact absurd (args.starts.head h) (startsExpression_of_closes hk)
termination_by structural d => d

theorem ArgumentList.unique {room : Nat} : ∀ (d d' : ArgumentList room) {ts ts' : List Token},
    d.tokens ++ ts = d'.tokens ++ ts' → StartsWith closes ts →
      StartsWith closes ts' → d = d' ∧ ts = ts'
  | .last arg, .last arg', _, _, h, hs, hs' => by
    obtain ⟨rfl, rfl⟩ := arg.unique arg' h hs.stops_expression hs'.stops_expression
    exact ⟨rfl, rfl⟩
  | .more arg comma args, .more arg' comma' args', _, _, h, hs, hs' => by
    rw [ArgumentList.tokens, ArgumentList.tokens, List.append_assoc, List.append_assoc] at h
    obtain ⟨rfl, hrest⟩ := arg.unique arg' h (stops_cons (comma.eq_false rfl))
      (stops_cons (comma'.eq_false rfl))
    simp only [List.cons_append, List.cons.injEq] at hrest
    obtain ⟨rfl, rfl⟩ := args.unique args' hrest.2 hs hs'
    obtain rfl := Subtype.ext hrest.1
    exact ⟨rfl, rfl⟩
  | .last arg, .more arg' comma args, _, _, h, hs, _ => by
    rw [ArgumentList.tokens, ArgumentList.tokens, List.append_assoc] at h
    obtain ⟨rfl, rfl⟩ := arg.unique arg' h hs.stops_expression (stops_cons (comma.eq_false rfl))
    obtain ⟨t, us, hcons, hk⟩ := hs
    injection hcons with ht
    rw [← ht, comma.kind_eq] at hk
    cases hk
  | .more arg comma args, .last arg', _, _, h, _, hs' => by
    rw [ArgumentList.tokens, ArgumentList.tokens, List.append_assoc] at h
    obtain ⟨rfl, rfl⟩ := arg.unique arg' h (stops_cons (comma.eq_false rfl)) hs'.stops_expression
    obtain ⟨t, us, hcons, hk⟩ := hs'
    injection hcons with ht
    rw [← ht, comma.kind_eq] at hk
    cases hk
termination_by structural d => d

theorem Primary.unique : ∀ (d d' : Primary) {ts ts' : List Token},
    d.tokens ++ ts = d'.tokens ++ ts' → d = d' ∧ ts = ts'
  | .constant token, .constant token', _, _, h => by
    simp only [Primary.tokens, List.cons_append, List.nil_append, List.cons.injEq] at h
    obtain rfl := Subtype.ext h.1
    exact ⟨rfl, h.2⟩
  | .identifier name, .identifier name', _, _, h => by
    simp only [Primary.tokens, List.cons_append, List.nil_append, List.cons.injEq] at h
    obtain rfl := Subtype.ext h.1
    exact ⟨rfl, h.2⟩
  | .group opening inner closing, .group opening' inner' closing', _, _, h => by
    simp only [Primary.tokens, List.cons_append, List.append_assoc, List.nil_append,
      List.cons.injEq] at h
    obtain ⟨rfl, hrest⟩ := inner.unique inner' h.2 (stops_cons (closing.eq_false rfl))
      (stops_cons (closing'.eq_false rfl))
    simp only [List.cons.injEq] at hrest
    obtain rfl := Subtype.ext h.1
    obtain rfl := Subtype.ext hrest.1
    exact ⟨rfl, hrest.2⟩
  | .constant token, .identifier name, _, _, h => by
    injection h with ht
    exact absurd token.2 (by simp [ht, name.kind_eq, isConstant])
  | .constant token, .group opening _ _, _, _, h => by
    injection h with ht
    exact absurd token.2 (by simp [ht, opening.kind_eq, isConstant])
  | .identifier name, .constant token, _, _, h => by
    injection h with ht
    exact absurd token.2 (by simp [← ht, name.kind_eq, isConstant])
  | .identifier name, .group opening _ _, _, _, h => by
    injection h with ht
    have := opening.kind_eq
    rw [← ht, name.kind_eq] at this
    cases this
  | .group opening _ _, .constant token, _, _, h => by
    injection h with ht
    exact absurd token.2 (by simp [← ht, opening.kind_eq, isConstant])
  | .group opening _ _, .identifier name, _, _, h => by
    injection h with ht
    have := opening.kind_eq
    rw [ht, name.kind_eq] at this
    cases this
termination_by structural d => d

end

theorem VariableDeclaration.unique : ∀ (d d' : VariableDeclaration) {ts ts' : List Token},
    d.tokens ++ ts = d'.tokens ++ ts' → d = d' ∧ ts = ts'
  | .bare keyword name semicolon, .bare keyword' name' semicolon', _, _, h => by
    simp only [VariableDeclaration.tokens, List.cons_append, List.nil_append, List.cons.injEq] at h
    obtain ⟨hkeyword, hname, hsemicolon, rfl⟩ := h
    obtain rfl := Subtype.ext hkeyword
    obtain rfl := Subtype.ext hname
    obtain rfl := Subtype.ext hsemicolon
    exact ⟨rfl, rfl⟩
  | .initialized keyword name equals init semicolon,
    .initialized keyword' name' equals' init' semicolon', _, _, h => by
    simp only [VariableDeclaration.tokens, List.cons_append, List.append_assoc, List.nil_append,
      List.cons.injEq] at h
    obtain ⟨hkeyword, hname, hequals, h⟩ := h
    obtain ⟨rfl, hrest⟩ := init.unique init' h (semicolon.closing rfl _).stops_expression
      (semicolon'.closing rfl _).stops_expression
    simp only [List.cons.injEq] at hrest
    obtain rfl := Subtype.ext hkeyword
    obtain rfl := Subtype.ext hname
    obtain rfl := Subtype.ext hequals
    obtain rfl := Subtype.ext hrest.1
    exact ⟨rfl, hrest.2⟩
  | .bare _ _ semicolon, .initialized _ _ equals _ _, _, _, h => by
    simp only [VariableDeclaration.tokens, List.cons_append, List.cons.injEq] at h
    exact absurd semicolon.kind_eq (by simp [h.2.2.1, equals.kind_eq])
  | .initialized _ _ equals _ _, .bare _ _ semicolon, _, _, h => by
    simp only [VariableDeclaration.tokens, List.cons_append, List.cons.injEq] at h
    exact absurd equals.kind_eq (by simp [h.2.2.1, semicolon.kind_eq])

theorem ExpressionStatement.unique : ∀ (d d' : ExpressionStatement) {ts ts' : List Token},
    d.tokens ++ ts = d'.tokens ++ ts' → d = d' ∧ ts = ts'
  | .statement e semicolon, .statement e' semicolon', _, _, h => by
    simp only [ExpressionStatement.tokens, List.append_assoc, List.cons_append, List.nil_append] at h
    obtain ⟨rfl, hrest⟩ := e.unique e' h (semicolon.closing rfl _).stops_expression
      (semicolon'.closing rfl _).stops_expression
    simp only [List.cons.injEq] at hrest
    obtain rfl := Subtype.ext hrest.1
    exact ⟨rfl, hrest.2⟩

theorem optional_unique : ∀ (e e' : Option Expression) {ts ts' : List Token},
    optionalTokens e ++ ts = optionalTokens e' ++ ts' → StartsWith closes ts →
      StartsWith closes ts' → e = e' ∧ ts = ts'
  | none, none, _, _, h, _, _ => ⟨rfl, h⟩
  | some e, some e', _, _, h, hs, hs' => by
    obtain ⟨rfl, rfl⟩ := e.unique e' h hs.stops_expression hs'.stops_expression
    exact ⟨rfl, rfl⟩
  | none, some e, _, _, h, hs, _ => by
    obtain ⟨t, us, rfl, hk⟩ := hs
    exact absurd (e.starts.head h.symm) (startsExpression_of_closes hk)
  | some e, none, _, _, h, _, hs' => by
    obtain ⟨t, us, rfl, hk⟩ := hs'
    exact absurd (e.starts.head h) (startsExpression_of_closes hk)

theorem ParameterList.starts {room : Nat} : ∀ d : ParameterList room,
    StartsWith (fun k => k = .identifier) d.tokens
  | .last name => ⟨name.1, [], rfl, name.2⟩
  | .more name _ _ => ⟨name.1, _, rfl, name.2⟩

theorem ParameterList.unique {room : Nat} : ∀ (d d' : ParameterList room) {ts ts' : List Token},
    d.tokens ++ ts = d'.tokens ++ ts' → StartsWith closes ts → StartsWith closes ts' →
      d = d' ∧ ts = ts'
  | .last name, .last name', _, _, h, _, _ => by
    simp only [ParameterList.tokens, List.cons_append, List.nil_append, List.cons.injEq] at h
    obtain rfl := Subtype.ext h.1
    exact ⟨rfl, h.2⟩
  | .more name comma names, .more name' comma' names', _, _, h, hs, hs' => by
    simp only [ParameterList.tokens, List.cons_append, List.cons.injEq] at h
    obtain ⟨rfl, rfl⟩ := names.unique names' h.2.2 hs hs'
    obtain rfl := Subtype.ext h.1
    obtain rfl := Subtype.ext h.2.1
    exact ⟨rfl, rfl⟩
  | .last name, .more _ comma _, _, _, h, hs, _ => by
    obtain ⟨t, us, rfl, hk⟩ := hs
    simp only [ParameterList.tokens, List.cons_append, List.nil_append, List.cons.injEq] at h
    rw [h.2.1, comma.kind_eq] at hk
    cases hk
  | .more _ comma _, .last name, _, _, h, _, hs' => by
    obtain ⟨t, us, rfl, hk⟩ := hs'
    simp only [ParameterList.tokens, List.cons_append, List.nil_append, List.cons.injEq] at h
    rw [← h.2.1, comma.kind_eq] at hk
    cases hk

theorem Parameters.unique : ∀ (d d' : Parameters) {ts ts' : List Token},
    d.tokens ++ ts = d'.tokens ++ ts' → StartsWith closes ts → StartsWith closes ts' →
      d = d' ∧ ts = ts'
  | .none, .none, _, _, h, _, _ => ⟨rfl, h⟩
  | .some names, .some names', _, _, h, hs, hs' => by
    obtain ⟨rfl, rfl⟩ := names.unique names' h hs hs'
    exact ⟨rfl, rfl⟩
  | .none, .some names, _, _, h, hs, _ => by
    obtain ⟨t, us, rfl, hk⟩ := hs
    have hname := names.starts.head h.symm
    rw [of_decide_eq_true hname] at hk
    cases hk
  | .some names, .none, _, _, h, _, hs' => by
    obtain ⟨t, us, rfl, hk⟩ := hs'
    have hname := names.starts.head h
    rw [of_decide_eq_true hname] at hk
    cases hk

/-- The category of a first token that decides on the form of a declaration, if it starts no
expression. -/
def leading (k : Kind) : Option Kind := if startsExpression k then none else some k

def Leads (lead : Option Kind) (ts : List Token) : Prop := StartsWith (fun k => leading k = lead) ts

theorem The.leads {kind : Kind} (t : The kind) {lead : Option Kind} (h : leading kind = lead)
    (ts : List Token) : Leads lead (t.1 :: ts) := ⟨t.1, ts, rfl, by simp [t.kind_eq, h]⟩

theorem StartsWith.leads {ts : List Token} (h : StartsWith startsExpression ts) : Leads none ts := by
  obtain ⟨t, us, rfl, hk⟩ := h
  exact ⟨t, us, rfl, by simp [leading, hk]⟩

theorem Leads.append {lead : Option Kind} {ts : List Token} (h : Leads lead ts)
    (us : List Token) : Leads lead (ts ++ us) := by
  obtain ⟨t, vs, rfl, hk⟩ := h
  exact ⟨t, vs ++ us, rfl, hk⟩

theorem Leads.eq {lead lead' : Option Kind} {ts ts' us us' : List Token} (h : Leads lead ts)
    (h' : Leads lead' ts') (heq : ts ++ us = ts' ++ us') : lead = lead' := by
  obtain ⟨t, vs, rfl, hk⟩ := h
  have hk' := h'.head heq.symm
  exact (of_decide_eq_true hk).symm.trans (of_decide_eq_true hk')

def LoopInitializer.lead : LoopInitializer → Option Kind
  | .none _ => some .semicolon
  | .var _ => some .varWord
  | .expression _ => .none

def Statement.lead : Statement → Option Kind
  | .print .. => some .printWord
  | .ret .. => some .returnWord
  | .expression _ => none
  | .block _ => some .leftBrace
  | .branch .. => some .ifWord
  | .branchElse .. => some .ifWord
  | .loop .. => some .whileWord
  | .forLoop .. => some .forWord

def Declaration.lead : Declaration → Option Kind
  | .var _ => some .varWord
  | .function .. => some .funWord
  | .statement d => d.lead

theorem VariableDeclaration.leads : ∀ d : VariableDeclaration, Leads (some .varWord) d.tokens
  | .bare keyword _ _ => keyword.leads rfl _
  | .initialized keyword _ _ _ _ => keyword.leads rfl _

theorem ExpressionStatement.leads : ∀ d : ExpressionStatement, Leads none d.tokens
  | .statement e _ => e.starts.leads.append _

theorem LoopInitializer.leads : ∀ d : LoopInitializer, Leads d.lead d.tokens
  | .none semicolon => semicolon.leads rfl _
  | .var d => d.leads
  | .expression d => d.leads

theorem Block.leads : ∀ d : Block, Leads (some .leftBrace) d.tokens
  | .block opening _ _ => opening.leads rfl _

theorem Statement.leads : ∀ d : Statement, Leads d.lead d.tokens
  | .print keyword _ _ => keyword.leads rfl _
  | .ret keyword _ _ => keyword.leads rfl _
  | .expression d => d.leads
  | .block d => d.leads
  | .branch keyword _ _ _ _ => keyword.leads rfl _
  | .branchElse keyword _ _ _ _ _ _ => keyword.leads rfl _
  | .loop keyword _ _ _ _ => keyword.leads rfl _
  | .forLoop keyword _ _ _ _ _ _ _ => keyword.leads rfl _

theorem Declaration.leads : ∀ d : Declaration, Leads d.lead d.tokens
  | .var d => d.leads
  | .function keyword _ _ _ _ _ => keyword.leads rfl _
  | .statement d => d.leads

theorem LoopInitializer.unique : ∀ (d d' : LoopInitializer) {ts ts' : List Token},
    d.tokens ++ ts = d'.tokens ++ ts' → d = d' ∧ ts = ts' := by
  intro d d' ts ts' h
  have hlead := d.leads.eq d'.leads h
  cases d with
  | none semicolon =>
    cases d' with
    | none semicolon' =>
      simp only [LoopInitializer.tokens, List.cons_append, List.nil_append, List.cons.injEq] at h
      obtain rfl := Subtype.ext h.1
      exact ⟨rfl, h.2⟩
    | _ => cases hlead
  | var declaration =>
    cases d' with
    | var declaration' =>
      obtain ⟨rfl, hrest⟩ := declaration.unique declaration' h
      exact ⟨rfl, hrest⟩
    | _ => cases hlead
  | expression statement =>
    cases d' with
    | expression statement' =>
      obtain ⟨rfl, hrest⟩ := statement.unique statement' h
      exact ⟨rfl, hrest⟩
    | _ => cases hlead

abbrev NoElse (ts : List Token) : Prop := Stops (fun k => k = .elseWord) ts

abbrev Ends (ts : List Token) : Prop := Stops (fun k => k ≠ .rightBrace) ts

theorem The.ends (t : The .rightBrace) (ts : List Token) : Ends (t.1 :: ts) :=
  stops_cons (t.eq_false (p := fun k => k ≠ .rightBrace) rfl)

theorem Ends.head {t : Token} {ts : List Token} (h : Ends (t :: ts)) : t.kind = .rightBrace := by
  simpa using Stops.head h

def declarationLeads : List (Option Kind) :=
  [none, some .printWord, some .returnWord, some .leftBrace, some .ifWord, some .whileWord,
    some .forWord, some .varWord, some .funWord]

theorem Statement.lead_mem (d : Statement) : d.lead ∈ declarationLeads := by
  cases d <;> exact of_decide_eq_true rfl

theorem Declaration.lead_mem (d : Declaration) : d.lead ∈ declarationLeads := by
  cases d with
  | statement d => exact d.lead_mem
  | _ => exact of_decide_eq_true rfl

theorem Declaration.starts (d : Declaration) :
    StartsWith (fun k => k ≠ .elseWord && k ≠ .rightBrace) d.tokens := by
  obtain ⟨t, us, h, hk⟩ := d.leads
  refine ⟨t, us, h, ?_⟩
  have hmem := d.lead_mem
  rw [← of_decide_eq_true hk] at hmem
  revert hmem
  cases t.kind <;> decide

theorem noElse_allTokens {ts : List Token} (h : Ends ts) : ∀ ds : List Declaration,
    NoElse (allTokens ds ++ ts)
  | [] => h.imp fun k hk => by
    have hbrace : k = .rightBrace := by simpa using hk
    subst hbrace
    rfl
  | d :: ds => by
    obtain ⟨t, us, hd, hk⟩ := d.starts
    rw [allTokens, hd]
    refine stops_cons ?_
    have hne := (Bool.and_eq_true_iff.1 hk).1
    simpa using hne

mutual

theorem Declaration.unique : ∀ (d d' : Declaration) {ts ts' : List Token},
    d.tokens ++ ts = d'.tokens ++ ts' → d.elseNearest → d'.elseNearest → NoElse ts → NoElse ts' →
      d = d' ∧ ts = ts'
  | .var d, d', _, _, h, _, _, _, _ => by
    have hlead := d.leads.eq d'.leads h
    cases d' with
    | var d' =>
      obtain ⟨rfl, hrest⟩ := d.unique d' h
      exact ⟨rfl, hrest⟩
    | function => cases hlead
    | statement d' => cases d' <;> cases hlead
  | .function keyword name opening params closing body, d', _, _, h, hn, hn', _, _ => by
    have hlead := (Declaration.function keyword name opening params closing body).leads.eq d'.leads h
    cases d' with
    | var d' => cases hlead
    | function keyword' name' opening' params' closing' body' =>
      simp only [Declaration.tokens, List.cons_append, List.append_assoc, List.cons.injEq] at h
      obtain ⟨hkeyword, hname, hopening, h⟩ := h
      obtain ⟨rfl, hrest⟩ := params.unique params' h (closing.closing rfl _)
        (closing'.closing rfl _)
      simp only [List.cons.injEq] at hrest
      obtain ⟨rfl, rfl⟩ := body.unique body' hrest.2 hn hn'
      obtain rfl := Subtype.ext hkeyword
      obtain rfl := Subtype.ext hname
      obtain rfl := Subtype.ext hopening
      obtain rfl := Subtype.ext hrest.1
      exact ⟨rfl, rfl⟩
    | statement d' => cases d' <;> cases hlead
  | .statement d, d', _, _, h, hn, hn', hs, hs' => by
    have hlead := d.leads.eq d'.leads h
    cases d' with
    | statement d' =>
      obtain ⟨rfl, hrest⟩ := d.unique d' h hn hn' (fun _ => hs) fun _ => hs'
      exact ⟨rfl, hrest⟩
    | _ => cases d <;> cases hlead
termination_by structural d => d

theorem Block.unique : ∀ (d d' : Block) {ts ts' : List Token}, d.tokens ++ ts = d'.tokens ++ ts' →
    d.elseNearest → d'.elseNearest → d = d' ∧ ts = ts'
  | .block opening body closing, .block opening' body' closing', _, _, h, hn, hn' => by
    simp only [Block.tokens, List.cons_append, List.append_assoc, List.nil_append,
      List.cons.injEq] at h
    obtain ⟨rfl, hrest⟩ := all_unique body body' h.2 hn hn' (closing.ends _) (closing'.ends _)
    simp only [List.cons.injEq] at hrest
    obtain rfl := Subtype.ext h.1
    obtain rfl := Subtype.ext hrest.1
    exact ⟨rfl, hrest.2⟩
termination_by structural d => d

theorem Statement.unique : ∀ (d d' : Statement) {ts ts' : List Token},
    d.tokens ++ ts = d'.tokens ++ ts' → d.elseNearest → d'.elseNearest → (d.isOpen → NoElse ts) →
      (d'.isOpen → NoElse ts') → d = d' ∧ ts = ts'
  | .print keyword e semicolon, d', _, _, h, _, _, _, _ => by
    have hlead := (Statement.print keyword e semicolon).leads.eq d'.leads h
    cases d' with
    | print keyword' e' semicolon' =>
      simp only [Statement.tokens, List.cons_append, List.append_assoc, List.nil_append,
        List.cons.injEq] at h
      obtain ⟨rfl, hrest⟩ := e.unique e' h.2 (semicolon.closing rfl _).stops_expression
        (semicolon'.closing rfl _).stops_expression
      simp only [List.cons.injEq] at hrest
      obtain rfl := Subtype.ext h.1
      obtain rfl := Subtype.ext hrest.1
      exact ⟨rfl, hrest.2⟩
    | _ => cases hlead
  | .ret keyword value semicolon, d', _, _, h, _, _, _, _ => by
    have hlead := (Statement.ret keyword value semicolon).leads.eq d'.leads h
    cases d' with
    | ret keyword' value' semicolon' =>
      simp only [Statement.tokens, List.cons_append, List.append_assoc, List.nil_append,
        List.cons.injEq] at h
      obtain ⟨rfl, hrest⟩ := optional_unique value value' h.2 (semicolon.closing rfl _)
        (semicolon'.closing rfl _)
      simp only [List.cons.injEq] at hrest
      obtain rfl := Subtype.ext h.1
      obtain rfl := Subtype.ext hrest.1
      exact ⟨rfl, hrest.2⟩
    | _ => cases hlead
  | .expression d, d', _, _, h, _, _, _, _ => by
    have hlead := d.leads.eq d'.leads h
    cases d' with
    | expression d' =>
      obtain ⟨rfl, hrest⟩ := d.unique d' h
      exact ⟨rfl, hrest⟩
    | _ => cases hlead
  | .block d, d', _, _, h, hn, hn', _, _ => by
    have hlead := d.leads.eq d'.leads h
    cases d' with
    | block d' =>
      obtain ⟨rfl, hrest⟩ := d.unique d' h hn hn'
      exact ⟨rfl, hrest⟩
    | _ => cases hlead
  | .branch keyword opening condition closing consequent, d', _, _, h, hn, hn', hs, hs' => by
    have hlead := (Statement.branch keyword opening condition closing consequent).leads.eq d'.leads h
    cases d' with
    | branch keyword' opening' condition' closing' consequent' =>
      simp only [Statement.tokens, List.cons_append, List.append_assoc, List.cons.injEq] at h
      obtain ⟨hkeyword, hopening, h⟩ := h
      obtain ⟨rfl, hrest⟩ := condition.unique condition' h (closing.closing rfl _).stops_expression
        (closing'.closing rfl _).stops_expression
      simp only [List.cons.injEq] at hrest
      obtain ⟨rfl, rfl⟩ := consequent.unique consequent' hrest.2 hn hn' (fun _ => hs rfl)
        fun _ => hs' rfl
      obtain rfl := Subtype.ext hkeyword
      obtain rfl := Subtype.ext hopening
      obtain rfl := Subtype.ext hrest.1
      exact ⟨rfl, rfl⟩
    | branchElse keyword' opening' condition' closing' consequent' otherwise alternative =>
      -- the `else` would have to follow the statement that has none
      simp only [Statement.tokens, List.cons_append, List.append_assoc, List.cons.injEq] at h
      obtain ⟨-, -, h⟩ := h
      obtain ⟨rfl, hrest⟩ := condition.unique condition' h (closing.closing rfl _).stops_expression
        (closing'.closing rfl _).stops_expression
      simp only [List.cons.injEq] at hrest
      simp only [Statement.elseNearest, Bool.and_eq_true, Bool.not_eq_true'] at hn'
      have hclosed : ¬ consequent'.isOpen := by simp [hn'.1.1]
      obtain ⟨rfl, rfl⟩ := consequent.unique consequent' hrest.2 hn hn'.1.2 (fun _ => hs rfl)
        fun ho => absurd ho hclosed
      exact absurd (hs rfl).head (by simp [otherwise.kind_eq])
    | _ => cases hlead
  | .branchElse keyword opening condition closing consequent otherwise alternative, d', _, _,
    h, hn, hn', hs, hs' => by
    have hlead := (Statement.branchElse keyword opening condition closing consequent otherwise
      alternative).leads.eq d'.leads h
    simp only [Statement.elseNearest, Bool.and_eq_true, Bool.not_eq_true'] at hn
    have hclosed : ¬ consequent.isOpen := by simp [hn.1.1]
    cases d' with
    | branch keyword' opening' condition' closing' consequent' =>
      simp only [Statement.tokens, List.cons_append, List.append_assoc, List.cons.injEq] at h
      obtain ⟨-, -, h⟩ := h
      obtain ⟨rfl, hrest⟩ := condition.unique condition' h (closing.closing rfl _).stops_expression
        (closing'.closing rfl _).stops_expression
      simp only [List.cons.injEq] at hrest
      obtain ⟨rfl, rfl⟩ := consequent.unique consequent' hrest.2 hn.1.2 hn'
        (fun ho => absurd ho hclosed) fun _ => hs' rfl
      exact absurd (hs' rfl).head (by simp [otherwise.kind_eq])
    | branchElse keyword' opening' condition' closing' consequent' otherwise' alternative' =>
      simp only [Statement.elseNearest, Bool.and_eq_true, Bool.not_eq_true'] at hn'
      have hclosed' : ¬ consequent'.isOpen := by simp [hn'.1.1]
      simp only [Statement.tokens, List.cons_append, List.append_assoc, List.cons.injEq] at h
      obtain ⟨hkeyword, hopening, h⟩ := h
      obtain ⟨rfl, hrest⟩ := condition.unique condition' h (closing.closing rfl _).stops_expression
        (closing'.closing rfl _).stops_expression
      simp only [List.cons.injEq] at hrest
      obtain ⟨rfl, hrest'⟩ := consequent.unique consequent' hrest.2 hn.1.2 hn'.1.2
        (fun ho => absurd ho hclosed) fun ho => absurd ho hclosed'
      simp only [List.cons.injEq] at hrest'
      obtain ⟨rfl, rfl⟩ := alternative.unique alternative' hrest'.2 hn.2 hn'.2 hs hs'
      obtain rfl := Subtype.ext hkeyword
      obtain rfl := Subtype.ext hopening
      obtain rfl := Subtype.ext hrest.1
      obtain rfl := Subtype.ext hrest'.1
      exact ⟨rfl, rfl⟩
    | _ => cases hlead
  | .loop keyword opening condition closing body, d', _, _, h, hn, hn', hs, hs' => by
    have hlead := (Statement.loop keyword opening condition closing body).leads.eq d'.leads h
    cases d' with
    | loop keyword' opening' condition' closing' body' =>
      simp only [Statement.tokens, List.cons_append, List.append_assoc, List.cons.injEq] at h
      obtain ⟨hkeyword, hopening, h⟩ := h
      obtain ⟨rfl, hrest⟩ := condition.unique condition' h (closing.closing rfl _).stops_expression
        (closing'.closing rfl _).stops_expression
      simp only [List.cons.injEq] at hrest
      obtain ⟨rfl, rfl⟩ := body.unique body' hrest.2 hn hn' hs hs'
      obtain rfl := Subtype.ext hkeyword
      obtain rfl := Subtype.ext hopening
      obtain rfl := Subtype.ext hrest.1
      exact ⟨rfl, rfl⟩
    | _ => cases hlead
  | .forLoop keyword opening init condition semicolon increment closing body, d', _, _,
    h, hn, hn', hs, hs' => by
    have hlead := (Statement.forLoop keyword opening init condition semicolon increment closing
      body).leads.eq d'.leads h
    cases d' with
    | forLoop keyword' opening' init' condition' semicolon' increment' closing' body' =>
      simp only [Statement.tokens, List.cons_append, List.append_assoc, List.cons.injEq] at h
      obtain ⟨hkeyword, hopening, h⟩ := h
      obtain ⟨rfl, hcondition⟩ := init.unique init' h
      obtain ⟨rfl, hrest⟩ := optional_unique condition condition' hcondition
        (semicolon.closing rfl _) (semicolon'.closing rfl _)
      simp only [List.cons.injEq] at hrest
      obtain ⟨rfl, hrest'⟩ := optional_unique increment increment' hrest.2 (closing.closing rfl _)
        (closing'.closing rfl _)
      simp only [List.cons.injEq] at hrest'
      obtain ⟨rfl, rfl⟩ := body.unique body' hrest'.2 hn hn' hs hs'
      obtain rfl := Subtype.ext hkeyword
      obtain rfl := Subtype.ext hopening
      obtain rfl := Subtype.ext hrest.1
      obtain rfl := Subtype.ext hrest'.1
      exact ⟨rfl, rfl⟩
    | _ => cases hlead
termination_by structural d => d

theorem all_unique : ∀ (ds ds' : List Declaration) {ts ts' : List Token},
    allTokens ds ++ ts = allTokens ds' ++ ts' → allElseNearest ds → allElseNearest ds' → Ends ts →
      Ends ts' → ds = ds' ∧ ts = ts'
  | [], [], _, _, h, _, _, _, _ => ⟨rfl, h⟩
  | d :: ds, d' :: ds', _, _, h, hn, hn', hs, hs' => by
    simp only [allTokens, List.append_assoc] at h
    simp only [allElseNearest, Bool.and_eq_true] at hn hn'
    obtain ⟨rfl, hrest⟩ := d.unique d' h hn.1 hn'.1 (noElse_allTokens hs ds)
      (noElse_allTokens hs' ds')
    obtain ⟨rfl, rfl⟩ := all_unique ds ds' hrest hn.2 hn'.2 hs hs'
    exact ⟨rfl, rfl⟩
  | [], d :: ds, _, _, h, _, _, hs, _ => by
    rw [allTokens, allTokens, List.nil_append, List.append_assoc] at h
    obtain ⟨t, us, hd, hk⟩ := d.starts
    rw [h, hd] at hs
    simp [hs.head] at hk
  | d :: ds, [], _, _, h, _, _, _, hs' => by
    rw [allTokens, allTokens, List.nil_append, List.append_assoc] at h
    obtain ⟨t, us, hd, hk⟩ := d.starts
    rw [← h, hd] at hs'
    simp [hs'.head] at hk
termination_by structural ds => ds

end

/-- A token list has one derivation at most. -/
theorem Program.unique {p p' : Program} (h : p.tokens = p'.tokens) : p = p' := by
  obtain ⟨ds, hn⟩ := p
  obtain ⟨ds', hn'⟩ := p'
  have hnil : Ends [] := nofun
  obtain ⟨rfl, -⟩ := all_unique ds ds' (congrArg (· ++ []) h) hn hn' hnil hnil
  rfl

end Concrete
end Lox
