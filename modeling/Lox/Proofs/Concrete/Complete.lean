import Lox.Proofs.Concrete.Sound

/-! Parsing succeeds along every derivation.
A step reads the tokens of a derivation and stops behind them, if what stands there does not continue
the derivation (`expression_reads`, `program_reads`). -/
namespace Lox

namespace Cursor

variable {s : Cursor} {p : Kind → Bool} {token : Token} {ts : List Token}

/-- These tokens are to come, and no error has been recorded. -/
structure Before (s : Cursor) (ts : List Token) : Prop where
  rest : s.rest = ts
  errors : s.errors = []

theorem Before.take? (h : s.Before (token :: ts)) (hp : p token.kind) :
    ∃ t ht, s.take? p = some ⟨token, t, ht⟩ ∧ t.Before ts := by
  have hsize : ({ s with rest := ts } : Cursor).size + 1 ≤ s.size := by simp [size, h.rest]
  refine ⟨{ s with rest := ts }, hsize, ?_, rfl, h.errors⟩
  unfold Cursor.take?
  split
  · next hr =>
    rw [h.rest] at hr
    injection hr with ht hts
    subst ht hts
    simp [hp]
  · next hr => simp [h.rest] at hr

theorem Before.takes {kind : Kind} {token : Concrete.The kind} (h : s.Before (token.1 :: ts)) :
    ∃ t ht, s.take? (fun k => k = kind) = some ⟨token.1, t, ht⟩ ∧ t.Before ts := h.take? token.2

theorem Before.take?_eq_none (h : s.Before ts) (hp : Concrete.Stops p ts) : s.take? p = none := by
  unfold Cursor.take?
  split
  · next t us hr =>
    rw [h.rest] at hr
    subst hr
    simp [hp.head]
  · rfl

theorem Before.sees (h : s.Before (token :: ts)) (kind : Kind) :
    s.sees kind = decide (token.kind = kind) := by
  unfold Cursor.sees
  rw [h.rest]

variable {α : Type}

/-- A step succeeds and stops before these tokens. -/
def Reads (P : α → Prop) (ts : List Token) : Except SyntaxError α → Cursor → Prop := fun r t =>
  ∃ a, r = .ok a ∧ P a ∧ t.Before ts

end Cursor

namespace Step

open Cursor

variable {α β : Type} {s t : Cursor} {j k : Nat} {P : α → Prop} {R : β → Prop}
  {ts us : List Token}

theorem reads_done {a : α} (h : s.Before ts) (ha : P a) : (done a s).Ensures (Reads P ts) :=
  ⟨a, rfl, ha, h⟩

theorem Ensures.reads {x : Step α s j} {f : α → (t : Cursor) → t.size + j ≤ s.size → Step β t k}
    (hx : x.Ensures (Reads P ts))
    (hf : ∀ a t h, t.Before ts → P a → (f a t h).Ensures (Reads R us)) :
    (x.bind f).Ensures (Reads R us) := by
  refine hx.bind ?_ fun a t h ha => ?_
  · rintro e t ⟨a, ha, -⟩
    cases ha
  · obtain ⟨b, hb, hP, ht⟩ := ha
    injection hb with hb
    subst hb
    exact hf a t h ht hP

theorem reads_expect {stop : Token} {kind : Kind} {fault : SyntaxFault} (token : Concrete.The kind)
    (h : s.Before (token.1 :: ts)) :
    (expect stop kind fault s).Ensures (Reads (fun t => t = token.1) ts) := by
  obtain ⟨t, ht, heq, hbefore⟩ := h.takes
  unfold expect
  rw [heq]
  exact ⟨token.1, rfl, rfl, hbefore⟩

end Step

namespace Concrete

theorem VariableDeclaration.cons_eq : ∀ d : VariableDeclaration,
    ∃ (keyword : The .varWord) (us : List Token), d.tokens = keyword.1 :: us
  | .bare keyword _ _ => ⟨keyword, _, rfl⟩
  | .initialized keyword _ _ _ _ => ⟨keyword, _, rfl⟩

theorem Block.cons_eq : ∀ d : Block,
    ∃ (opening : The .leftBrace) (us : List Token), d.tokens = opening.1 :: us
  | .block opening _ _ => ⟨opening, _, rfl⟩

end Concrete

namespace Grammar

open Cursor Step Concrete

theorem Before.checkArity {s : Cursor} {ts : List Token} (h : s.Before ts) {stop : Token}
    {count : Nat} {fault : SyntaxFault} (hcount : count < maxArity) :
    (checkArity stop count fault s).Before ts := by
  rw [Grammar.checkArity, if_neg (Nat.not_le_of_lt hcount)]
  exact h

variable (stop : Token)

theorem constant?_of_isConstant {t : Token} (h : isConstant t.kind) :
    constant? t = some (.literal (constant t)) := by
  unfold constant? constant
  revert h
  cases t.kind <;> intro h <;> first | rfl | cases h

/-- In front of what does not continue it, an identifier is read by itself. -/
theorem chain_reads_name (name : The .identifier) {ts : List Token} : ∀ (levels : List Level)
    {s : Cursor}, s.Before (name.1 :: ts) → Stops (continuesChain levels) ts →
      (chain stop levels s).Ensures (Reads (fun e => ∃ id, e = .use id name.1) ts)
  | [], s, h, hs => by
    have hnotUnary : s.take? (fun k => k = .bang || k = .minus) = none :=
      h.take?_eq_none (stops_cons (by simp [name.kind_eq]))
    obtain ⟨t, ht, heq, hbefore⟩ := h.take? (p := fun _ => true) rfl
    have hconstant : constant? name.1 = none := by simp [constant?, name.kind_eq]
    rw [chain, unary, hnotUnary, call]
    refine Ensures.reads (P := fun e => ∃ id, e = .use id name.1) ?_ fun e t _ (h : t.Before ts) he => ?_
    · rw [primary, heq]
      dsimp only
      rw [hconstant]
      dsimp only
      rw [if_pos name.kind_eq]
      exact ⟨_, rfl, ⟨_, rfl⟩, hbefore.rest, hbefore.errors⟩
    · rw [callRest, h.take?_eq_none hs.paren]
      exact reads_done h he
  | l :: tighter, s, h, hs => by
    rw [chain]
    refine (chain_reads_name name tighter h hs.tighter).reads fun e t _ h he => ?_
    rw [chainRest, h.take?_eq_none hs.operator]
    exact reads_done h he

mutual

theorem expression_reads : ∀ (d : Expression) {s : Cursor} {ts : List Token},
    s.Before (d.tokens ++ ts) → Stops continuesExpression ts →
      (expression stop s).Ensures (Reads (fun e => e.anonymous = d.tree) ts)
  | .assign name equals value, s, ts, h, hs => by
    rw [expression]
    refine (chain_reads_name stop name Level.all h (stops_cons (equals.eq_false rfl))).reads
      fun left t _ h hleft => ?_
    obtain ⟨id, rfl⟩ := hleft
    obtain ⟨t', ht, heq, hbefore⟩ := h.takes
    rw [heq]
    refine Ensures.reads (expression_reads value hbefore hs) fun e u _ h he => ?_
    exact ⟨_, rfl, congrArg (Expr.assign 0 name.1) he, h.rest, h.errors⟩
  | .chain operands, s, ts, h, hs => by
    rw [expression]
    refine (chain_reads (by decide) operands h hs.chain).reads fun left t _ h hleft => ?_
    rw [h.take?_eq_none hs.equal]
    exact reads_done h hleft
termination_by structural d => d

theorem chain_reads {levels : List Level} (hn : levels.Nodup) : ∀ (d : Chain levels) {s : Cursor}
    {ts : List Token}, s.Before (d.tokens ++ ts) → Stops (continuesChain levels) ts →
      (chain stop levels s).Ensures (Reads (fun e => e.anonymous = d.tree) ts)
  | .unary operand, s, ts, h, hs => by
    rw [chain]
    exact unary_reads operand h hs.paren
  | .level first links, s, ts, h, hs => by
    obtain ⟨hl, hn⟩ := List.nodup_cons.1 hn
    rw [Chain.tokens, List.append_assoc] at h
    rw [chain]
    refine (chain_reads hn first h (links.stops hl hs)).reads fun left t _ h hleft => ?_
    have hlinks := chainRest_reads hl hn links left h hs
    rw [hleft] at hlinks
    exact hlinks
termination_by structural d => d

theorem chainRest_reads {l : Level} {tighter : List Level} (hl : l ∉ tighter)
    (hn : tighter.Nodup) : ∀ (d : Links l tighter) (left : Expr) {s : Cursor} {ts : List Token},
      s.Before (d.tokens ++ ts) → Stops (continuesChain (l :: tighter)) ts →
        (chainRest stop l tighter left s).Ensures
          (Reads (fun e => e.anonymous = d.tree left.anonymous) ts)
  | .none, left, s, ts, h, hs => by
    rw [chainRest, Before.take?_eq_none h hs.operator]
    exact reads_done h rfl
  | .link op operand links, left, s, ts, h, hs => by
    rw [Links.tokens, List.cons_append, List.append_assoc] at h
    obtain ⟨t, ht, heq, hbefore⟩ := h.take? op.2
    rw [chainRest, heq]
    refine Ensures.reads (chain_reads hn operand hbefore (links.stops hl hs))
      fun right u _ h hright => ?_
    have hlinks := chainRest_reads hl hn links (l.node left op.1 right) h hs
    rw [anonymous_node, hright, ← operation_eq_node op left.anonymous] at hlinks
    exact hlinks
termination_by structural d => d

theorem unary_reads : ∀ (d : Unary) {s : Cursor} {ts : List Token},
    s.Before (d.tokens ++ ts) → Stops (fun k => k = .leftParen) ts →
      (unary stop s).Ensures (Reads (fun e => e.anonymous = d.tree) ts)
  | .operator op operand, s, ts, h, hs => by
    obtain ⟨t, ht, heq, hbefore⟩ := h.take? op.2
    rw [unary]
    have htake : s.take? (fun k => k = .bang || k = .minus) = some ⟨op.1, t, ht⟩ := heq
    rw [htake]
    refine Ensures.reads (unary_reads operand hbefore hs) fun e u _ h he => ?_
    exact reads_done h (by rw [Expr.anonymous, he, Unary.tree])
  | .call c, s, ts, h, hs => by
    have hnotUnary : s.take? (fun k => k = .bang || k = .minus) = none := by
      obtain ⟨t, us, ht, hk⟩ := c.starts
      rw [Unary.tokens, ht] at h
      exact h.take?_eq_none (stops_cons (Bool.eq_false_iff.2 (not_isPrefix_of_startsCall hk)))
    rw [unary, hnotUnary]
    exact call_reads c h hs
termination_by structural d => d

theorem call_reads : ∀ (d : Call) {s : Cursor} {ts : List Token},
    s.Before (d.tokens ++ ts) → Stops (fun k => k = .leftParen) ts →
      (call stop s).Ensures (Reads (fun e => e.anonymous = d.tree) ts)
  | .call callee suffixes, s, ts, h, hs => by
    rw [Call.tokens, List.append_assoc] at h
    rw [call]
    refine (primary_reads callee h).reads fun e t _ h he => ?_
    have hsuffixes := callRest_reads suffixes e h hs
    rw [he] at hsuffixes
    exact hsuffixes
termination_by structural d => d

theorem callRest_reads : ∀ (d : Suffixes) (callee : Expr) {s : Cursor} {ts : List Token},
    s.Before (d.tokens ++ ts) → Stops (fun k => k = .leftParen) ts →
      (callRest stop callee s).Ensures
        (Reads (fun e => e.anonymous = d.tree callee.anonymous) ts)
  | .none, callee, s, ts, h, hs => by
    rw [callRest, Before.take?_eq_none h hs]
    exact reads_done h rfl
  | .arguments opening args closing suffixes, callee, s, ts, h, hs => by
    simp only [Suffixes.tokens, List.cons_append, List.append_assoc] at h
    obtain ⟨t, ht, heq, hbefore⟩ := h.takes
    rw [callRest, heq]
    refine Ensures.reads (arguments_reads args hbefore ⟨closing.1, _, rfl, closing.2⟩)
      fun es u _ h hes => ?_
    refine (reads_expect closing h).reads fun paren v _ h hparen => ?_
    subst hparen
    have hsuffixes := callRest_reads suffixes (.call callee es closing.1) h hs
    rw [Expr.anonymous, hes] at hsuffixes
    exact hsuffixes
termination_by structural d => d

theorem arguments_reads : ∀ (d : Arguments) {s : Cursor} {ts : List Token},
    s.Before (d.tokens ++ ts) → StartsWith (fun k => k = .rightParen) ts →
      (arguments stop s).Ensures (Reads (fun es => Expr.allAnonymous es = d.trees) ts)
  | .none, s, ts, h, hs => by
    obtain ⟨t, us, rfl, hk⟩ := hs
    rw [arguments, h.sees, if_pos hk]
    exact reads_done h rfl
  | .some args, s, ts, h, hs => by
    have hsees : s.sees .rightParen = false := by
      obtain ⟨t, us, ht, hk⟩ := args.starts
      rw [Arguments.tokens, ht] at h
      rw [Before.sees h, decide_eq_false_iff_not]
      rintro hparen
      rw [hparen] at hk
      cases hk
    rw [arguments, hsees]
    exact argumentList_reads args rfl h hs
termination_by structural d => d

theorem argumentList_reads {room : Nat} : ∀ (d : ArgumentList room) {count : Nat},
    room + count = maxArity → ∀ {s : Cursor} {ts : List Token}, s.Before (d.tokens ++ ts) →
      StartsWith (fun k => k = .rightParen) ts →
        (argumentList stop count s).Ensures (Reads (fun es => Expr.allAnonymous es = d.trees) ts)
  | .last arg, count, hroom, s, ts, h, hs => by
    have hcount : count < maxArity := by omega
    obtain ⟨t, us, rfl, hk⟩ := hs
    rw [argumentList]
    refine Ensures.reads (expression_reads arg (Before.checkArity h hcount)
      (The.closing ⟨t, hk⟩ rfl us).stops_expression) fun e u _ h he => ?_
    rw [h.take?_eq_none (stops_cons (by simp [of_decide_eq_true hk]))]
    refine reads_done h ?_
    rw [Expr.allAnonymous, he, ArgumentList.trees]
    rfl
  | .more arg comma args, count, hroom, s, ts, h, hs => by
    have hcount : count < maxArity := by omega
    rw [ArgumentList.tokens, List.append_assoc] at h
    rw [argumentList]
    refine Ensures.reads (expression_reads arg (Before.checkArity h hcount)
      (stops_cons (comma.eq_false rfl))) fun e t _ h he => ?_
    obtain ⟨u, hu, heq, hbefore⟩ := h.takes
    rw [heq]
    refine Ensures.reads (argumentList_reads args (by omega) hbefore hs) fun es v _ h hes => ?_
    refine reads_done h ?_
    rw [Expr.allAnonymous, he, hes, ArgumentList.trees]
termination_by structural d => d

theorem primary_reads : ∀ (d : Primary) {s : Cursor} {ts : List Token},
    s.Before (d.tokens ++ ts) → (primary stop s).Ensures (Reads (fun e => e.anonymous = d.tree) ts)
  | .constant token, s, ts, h => by
    obtain ⟨t, ht, heq, hbefore⟩ := h.take? (p := fun _ => true) rfl
    rw [primary, heq]
    dsimp only
    rw [constant?_of_isConstant token.2]
    exact reads_done hbefore rfl
  | .identifier name, s, ts, h => by
    obtain ⟨t, ht, heq, hbefore⟩ := h.take? (p := fun _ => true) rfl
    have hconstant : constant? name.1 = none := by simp [constant?, name.kind_eq]
    rw [primary, heq]
    dsimp only
    rw [hconstant]
    dsimp only
    rw [if_pos name.kind_eq]
    exact ⟨_, rfl, rfl, hbefore.rest, hbefore.errors⟩
  | .group opening inner closing, s, ts, h => by
    simp only [Primary.tokens, List.cons_append, List.append_assoc, List.nil_append] at h
    obtain ⟨t, ht, heq, hbefore⟩ := h.take? (p := fun _ => true) rfl
    have hconstant : constant? opening.1 = none := by simp [constant?, opening.kind_eq]
    rw [primary, heq]
    dsimp only
    rw [hconstant]
    dsimp only
    rw [if_neg (by simp [opening.kind_eq]), if_pos opening.kind_eq]
    refine Ensures.reads (expression_reads inner hbefore (stops_cons (closing.eq_false rfl)))
      fun e u _ h he => ?_
    refine (reads_expect closing h).reads fun _ v _ h _ => reads_done h ?_
    rw [Expr.anonymous, he, Primary.tree]
termination_by structural d => d

end

theorem optionalExpression_reads {absent : Kind} (habsent : closes absent) {t : Token}
    (ht : t.kind = absent) {us : List Token} : ∀ (d : Option Expression) {s : Cursor},
      s.Before (optionalTokens d ++ t :: us) → (optionalExpression stop absent s).Ensures
        (Reads (fun e => e.map Expr.anonymous = d.map Expression.tree) (t :: us))
  | none, s, h => by
    have hsees := Before.sees h absent
    rw [optionalExpression, hsees, if_pos (decide_eq_true ht)]
    exact reads_done h rfl
  | some d, s, h => by
    have hsees : s.sees absent = false := by
      obtain ⟨u, vs, hu, hk⟩ := d.starts
      rw [optionalTokens, hu] at h
      rw [Before.sees h, decide_eq_false_iff_not]
      rintro rfl
      exact startsExpression_of_closes habsent hk
    subst ht
    rw [optionalExpression, hsees]
    refine Ensures.reads (expression_reads stop d h (stops_cons (continuesExpression_of_closes habsent)))
      fun e t _ h he => ?_
    exact reads_done h (congrArg some he)

theorem variableDeclaration_reads {keyword : Token} {us ts : List Token} : ∀ (d : VariableDeclaration)
    {s : Cursor}, d.tokens = keyword :: us → s.Before (us ++ ts) →
      (variableDeclaration stop s).Ensures (Reads (fun st => st.anonymous = d.tree) ts)
  | .bare _ name semicolon, s, hd, h => by
    injection hd with _ hus
    subst hus
    rw [variableDeclaration]
    refine (reads_expect name h).reads fun _ t _ h hname => ?_
    subst hname
    rw [h.take?_eq_none (stops_cons (semicolon.eq_false rfl))]
    refine (reads_expect semicolon h).reads fun _ u _ h _ => ?_
    exact reads_done h rfl
  | .initialized _ name equals init semicolon, s, hd, h => by
    injection hd with _ hus
    subst hus
    simp only [List.cons_append, List.append_assoc, List.nil_append] at h
    rw [variableDeclaration]
    refine (reads_expect name h).reads fun _ t _ h hname => ?_
    subst hname
    obtain ⟨t', ht, heq, hbefore⟩ := h.takes
    rw [heq]
    refine Ensures.reads (expression_reads stop init hbefore
      (semicolon.closing rfl _).stops_expression) fun e u _ h he => ?_
    refine (reads_expect semicolon h).reads fun _ v _ h _ => ?_
    refine reads_done h ?_
    rw [Stmt.anonymous, Option.map_some, he, VariableDeclaration.tree]

theorem expressionStatement_reads {ts : List Token} : ∀ (d : ExpressionStatement) {s : Cursor},
    s.Before (d.tokens ++ ts) →
      (expressionStatement stop s).Ensures (Reads (fun st => st.anonymous = d.tree) ts)
  | .statement e semicolon, s, h => by
    rw [ExpressionStatement.tokens, List.append_assoc] at h
    rw [expressionStatement]
    refine (expression_reads stop e h (semicolon.closing rfl _).stops_expression).reads
      fun e t _ h he => ?_
    refine (reads_expect semicolon h).reads fun _ u _ h _ => ?_
    refine reads_done h ?_
    rw [Stmt.anonymous, he, ExpressionStatement.tree]

theorem parameterList_reads {ts : List Token} (hs : StartsWith (fun k => k = .rightParen) ts)
    {room : Nat} : ∀ (d : ParameterList room) {count : Nat}, room + count = maxArity →
      ∀ {s : Cursor}, s.Before (d.tokens ++ ts) →
        (parameterList stop count s).Ensures (Reads (fun names => names = d.names) ts)
  | .last name, count, hroom, s, h => by
    have hcount : count < maxArity := by omega
    obtain ⟨t, us, rfl, hk⟩ := hs
    rw [parameterList]
    refine Ensures.reads (reads_expect name (Before.checkArity h hcount)) fun _ u _ h hname => ?_
    subst hname
    rw [Before.take?_eq_none h (stops_cons (by simp [of_decide_eq_true hk]))]
    exact reads_done h rfl
  | .more name comma names, count, hroom, s, h => by
    have hcount : count < maxArity := by omega
    rw [parameterList]
    refine Ensures.reads (reads_expect name (Before.checkArity h hcount)) fun _ t _ h hname => ?_
    subst hname
    obtain ⟨u, hu, heq, hbefore⟩ := Before.takes h
    rw [heq]
    refine Ensures.reads (parameterList_reads hs names (by omega) hbefore) fun _ v _ h hnames => ?_
    subst hnames
    exact reads_done h rfl

theorem parameters_reads {ts : List Token} (hs : StartsWith (fun k => k = .rightParen) ts) :
    ∀ (d : Parameters) {s : Cursor}, s.Before (d.tokens ++ ts) →
      (parameters stop s).Ensures (Reads (fun names => names = d.names) ts)
  | .none, s, h => by
    obtain ⟨t, us, rfl, hk⟩ := hs
    have hsees := Before.sees h .rightParen
    rw [parameters, hsees, if_pos hk]
    exact reads_done h rfl
  | .some names, s, h => by
    have hsees : s.sees .rightParen = false := by
      obtain ⟨t, us, ht, hk⟩ := names.starts
      rw [Parameters.tokens, ht] at h
      rw [Before.sees h, decide_eq_false_iff_not]
      intro hparen
      rw [hparen] at hk
      cases hk
    rw [parameters, hsees]
    exact parameterList_reads stop hs names rfl h

theorem loopInitializer_reads {ts : List Token} : ∀ (d : LoopInitializer) {s : Cursor},
    s.Before (d.tokens ++ ts) →
      (loopInitializer stop s).Ensures (Reads (fun init => init.map Stmt.anonymous = d.tree?) ts)
  | .none semicolon, s, h => by
    obtain ⟨t, ht, heq, hbefore⟩ := Before.takes h
    rw [loopInitializer, heq]
    exact reads_done hbefore rfl
  | .var d, s, h => by
    obtain ⟨keyword, us, hd⟩ := d.cons_eq
    rw [LoopInitializer.tokens, hd] at h
    obtain ⟨t, ht, heq, hbefore⟩ := Before.takes h
    rw [loopInitializer, Before.take?_eq_none h (stops_cons (keyword.eq_false rfl)), heq]
    refine Ensures.reads (variableDeclaration_reads stop d hd hbefore) fun init u _ h hinit => ?_
    exact reads_done h (congrArg some hinit)
  | .expression d, s, h => by
    have hstops (kind : Kind) (hkind : leading kind ≠ none) : s.take? (fun k => k = kind) = none := by
      obtain ⟨t, us, ht, hk⟩ := d.leads
      rw [LoopInitializer.tokens, ht] at h
      refine Before.take?_eq_none h (stops_cons ?_)
      rw [decide_eq_false_iff_not]
      rintro rfl
      exact hkind (of_decide_eq_true hk)
    rw [loopInitializer, hstops .semicolon (by decide), hstops .varWord (by decide)]
    refine Ensures.reads (expressionStatement_reads stop d h) fun init t _ h hinit => ?_
    exact reads_done h (congrArg some hinit)

theorem statement_eq {s : Cursor} {ts us : List Token} (hstart : StartsWith startsExpression ts)
    (h : s.Before (ts ++ us)) : statement stop s = expressionStatement stop s := by
  obtain ⟨token, vs, rfl, hk⟩ := hstart
  obtain ⟨t, ht, heq, -⟩ := h.take? (p := fun _ => true) rfl
  rw [statement, heq]
  dsimp only
  split <;> first | rfl | (next hkind => rw [hkind] at hk; cases hk)

theorem recover_reads {α : Type} {s : Cursor} (hs : s.rest ≠ []) {P : α → Prop} {ts : List Token}
    {x : Step α s 1} (hx : x.Ensures (Reads P ts)) :
    (recover hs x).Ensures (Reads (fun d => ∃ a, d = some a ∧ P a) ts) := by
  obtain ⟨r, t, ht, h⟩ := x
  obtain ⟨a, ha, hP, hbefore⟩ := hx
  cases ha
  exact ⟨some a, rfl, ⟨a, rfl, hP⟩, hbefore⟩

theorem not_sees_end {s : Cursor} {d : Declaration} {us : List Token}
    (h : s.Before (d.tokens ++ us)) : ¬ (s.rest = [] ∨ s.sees .rightBrace) := by
  obtain ⟨t, vs, ht, hk⟩ := d.starts
  rw [ht] at h
  rintro (hnil | hsees)
  · simp [h.rest] at hnil
  · rw [Before.sees h] at hsees
    simp [of_decide_eq_true hsees] at hk

mutual

theorem declaration_reads {ts : List Token} (hs : NoElse ts) : ∀ (d : Declaration) {s : Cursor},
    s.Before (d.tokens ++ ts) → d.elseNearest →
      (declaration stop s).Ensures (Reads (fun st => st.anonymous = d.tree) ts)
  | .var d, s, h, _ => by
    obtain ⟨keyword, us, hd⟩ := d.cons_eq
    rw [Declaration.tokens, hd] at h
    obtain ⟨t, ht, heq, hbefore⟩ := Before.takes h
    rw [declaration, heq]
    exact variableDeclaration_reads stop d hd hbefore
  | .function keyword name opening params closing body, s, h, hn => by
    simp only [Declaration.tokens, List.cons_append, List.append_assoc] at h
    obtain ⟨t, ht, heq, hbefore⟩ := Before.takes h
    rw [declaration, Before.take?_eq_none h (stops_cons (keyword.eq_false rfl)), heq]
    dsimp only
    rw [functionDeclaration]
    obtain ⟨brace, us, hd⟩ := body.cons_eq
    rw [hd] at hbefore
    refine Ensures.reads (reads_expect name hbefore) fun _ t _ h hname => ?_
    subst hname
    refine (reads_expect opening h).reads fun _ u _ h _ => ?_
    refine (parameters_reads stop ⟨closing.1, _, rfl, closing.2⟩ params h).reads
      fun names v _ h hnames => ?_
    subst hnames
    refine (reads_expect closing h).reads fun _ w _ h _ => ?_
    refine (reads_expect brace h).reads fun _ x _ h _ => ?_
    refine (block_reads body hd h hn).reads fun sts y _ h hsts => reads_done h ?_
    rw [Stmt.anonymous, hsts, Declaration.tree]
  | .statement d, s, h, hn => by
    have hnone (kind : Kind) (hkind : some kind ≠ d.lead) (hleading : leading kind = some kind) :
        s.take? (fun k => k = kind) = none := by
      obtain ⟨t, us, ht, hk⟩ := d.leads
      rw [Declaration.tokens, ht] at h
      refine Before.take?_eq_none h (stops_cons ?_)
      rw [decide_eq_false_iff_not]
      rintro rfl
      exact hkind (hleading.symm.trans (of_decide_eq_true hk))
    rw [declaration, hnone .varWord (by cases d <;> nofun) rfl,
      hnone .funWord (by cases d <;> nofun) rfl]
    exact statement_reads d h hn fun _ => hs
termination_by structural d => d

theorem block_reads {opening : Token} {us ts : List Token} : ∀ (d : Block) {s : Cursor},
    d.tokens = opening :: us → s.Before (us ++ ts) → d.elseNearest →
      (block stop s).Ensures (Reads (fun sts => Stmt.allAnonymous sts = d.trees) ts)
  | .block _ body closing, s, hd, h, hn => by
    injection hd with _ hus
    subst hus
    rw [List.append_assoc] at h
    rw [block]
    refine (declarations_reads (closing.ends _) body h hn).reads fun sts t _ h hsts => ?_
    refine (reads_expect closing h).reads fun _ u _ h _ => ?_
    exact reads_done h hsts
termination_by structural d => d

theorem statement_reads : ∀ (d : Statement) {s : Cursor} {ts : List Token},
    s.Before (d.tokens ++ ts) → d.elseNearest → (d.isOpen → NoElse ts) →
      (statement stop s).Ensures (Reads (fun st => st.anonymous = d.tree) ts)
  | .print keyword e semicolon, s, ts, h, _, _ => by
    simp only [Statement.tokens, List.cons_append, List.append_assoc, List.nil_append] at h
    obtain ⟨t, ht, heq, hbefore⟩ := h.take? (p := fun _ => true) rfl
    rw [statement, heq]
    dsimp only
    rw [keyword.kind_eq]
    refine Ensures.reads (expression_reads stop e hbefore (semicolon.closing rfl _).stops_expression)
      fun e' u _ h he => ?_
    refine (reads_expect semicolon h).reads fun _ v _ h _ => reads_done h ?_
    rw [Stmt.anonymous, he, Statement.tree]
  | .ret keyword value semicolon, s, ts, h, _, _ => by
    simp only [Statement.tokens, List.cons_append, List.append_assoc, List.nil_append] at h
    obtain ⟨t, ht, heq, hbefore⟩ := h.take? (p := fun _ => true) rfl
    rw [statement, heq]
    dsimp only
    rw [keyword.kind_eq]
    refine Ensures.reads (optionalExpression_reads stop rfl semicolon.kind_eq value hbefore)
      fun e u _ h he => ?_
    refine (reads_expect semicolon h).reads fun _ v _ h _ => reads_done h ?_
    rw [Stmt.anonymous, he, Statement.tree]
  | .expression (.statement e semicolon), s, ts, h, _, _ => by
    have hbefore := h
    rw [Statement.tokens, ExpressionStatement.tokens, List.append_assoc] at hbefore
    rw [statement_eq stop e.starts hbefore]
    exact expressionStatement_reads stop (.statement e semicolon) h
  | .block d, s, ts, h, hn, _ => by
    obtain ⟨brace, us, hd⟩ := d.cons_eq
    rw [Statement.tokens, hd] at h
    obtain ⟨t, ht, heq, hbefore⟩ := h.take? (p := fun _ => true) rfl
    rw [statement, heq]
    dsimp only
    rw [brace.kind_eq]
    refine Ensures.reads (block_reads d hd hbefore hn) fun sts u _ h hsts => reads_done h ?_
    rw [Stmt.anonymous, hsts, Statement.tree]
  | .branch keyword opening condition closing consequent, s, ts, h, hn, hs => by
    simp only [Statement.tokens, List.cons_append, List.append_assoc] at h
    obtain ⟨t, ht, heq, hbefore⟩ := h.take? (p := fun _ => true) rfl
    rw [statement, heq]
    dsimp only
    rw [keyword.kind_eq]
    dsimp only
    rw [ifStatement]
    refine Ensures.reads (reads_expect opening hbefore) fun _ t _ h _ => ?_
    refine (expression_reads stop condition h (closing.closing rfl _).stops_expression).reads
      fun c u _ h hc => ?_
    refine (reads_expect closing h).reads fun _ v _ h _ => ?_
    refine (statement_reads consequent h hn fun _ => hs rfl).reads fun st w _ h hst => ?_
    rw [h.take?_eq_none (hs rfl)]
    refine reads_done h ?_
    rw [Stmt.anonymous, hc, hst, Statement.tree]
  | .branchElse keyword opening condition closing consequent otherwise alternative, s, ts, h, hn,
    hs => by
    simp only [Statement.elseNearest, Bool.and_eq_true, Bool.not_eq_true'] at hn
    have hclosed : ¬ consequent.isOpen := by simp [hn.1.1]
    simp only [Statement.tokens, List.cons_append, List.append_assoc] at h
    obtain ⟨t, ht, heq, hbefore⟩ := h.take? (p := fun _ => true) rfl
    rw [statement, heq]
    dsimp only
    rw [keyword.kind_eq]
    dsimp only
    rw [ifStatement]
    refine Ensures.reads (reads_expect opening hbefore) fun _ t _ h _ => ?_
    refine (expression_reads stop condition h (closing.closing rfl _).stops_expression).reads
      fun c u _ h hc => ?_
    refine (reads_expect closing h).reads fun _ v _ h _ => ?_
    refine (statement_reads consequent h hn.1.2 fun ho => absurd ho hclosed).reads
      fun st w _ h hst => ?_
    obtain ⟨x, hx, heq', hbefore'⟩ := h.takes
    rw [heq']
    refine Ensures.reads (statement_reads alternative hbefore' hn.2 hs) fun st' y _ h hst' => ?_
    refine reads_done h ?_
    rw [Stmt.anonymous, hc, hst, hst', Statement.tree]
  | .loop keyword opening condition closing body, s, ts, h, hn, hs => by
    simp only [Statement.tokens, List.cons_append, List.append_assoc] at h
    obtain ⟨t, ht, heq, hbefore⟩ := h.take? (p := fun _ => true) rfl
    rw [statement, heq]
    dsimp only
    rw [keyword.kind_eq]
    refine Ensures.reads (reads_expect opening hbefore) fun _ t _ h _ => ?_
    refine (expression_reads stop condition h (closing.closing rfl _).stops_expression).reads
      fun c u _ h hc => ?_
    refine (reads_expect closing h).reads fun _ v _ h _ => ?_
    refine (statement_reads body h hn hs).reads fun st w _ h hst => reads_done h ?_
    rw [Stmt.anonymous, hc, hst, Statement.tree]
  | .forLoop keyword opening init condition semicolon increment closing body, s, ts, h, hn, hs => by
    simp only [Statement.tokens, List.cons_append, List.append_assoc] at h
    obtain ⟨t, ht, heq, hbefore⟩ := h.take? (p := fun _ => true) rfl
    rw [statement, heq]
    dsimp only
    rw [keyword.kind_eq]
    dsimp only
    rw [forStatement]
    refine Ensures.reads (reads_expect opening hbefore) fun _ t _ h _ => ?_
    refine (loopInitializer_reads stop init h).reads fun i u _ h hi => ?_
    refine (optionalExpression_reads stop rfl semicolon.kind_eq condition h).reads
      fun c v _ h hc => ?_
    refine (reads_expect semicolon h).reads fun _ w _ h _ => ?_
    refine (optionalExpression_reads stop rfl closing.kind_eq increment h).reads
      fun c' x _ h hc' => ?_
    refine (reads_expect closing h).reads fun _ y _ h _ => ?_
    refine (statement_reads body h hn hs).reads fun st z _ h hst => reads_done h ?_
    rw [Stmt.anonymous_forLoop, hi, hc, hc', hst, Statement.tree]
termination_by structural d => d

theorem declarations_reads {ts : List Token} (hs : Ends ts) : ∀ (ds : List Declaration) {s : Cursor},
    s.Before (allTokens ds ++ ts) → allElseNearest ds →
      (declarations stop s).Ensures (Reads (fun sts => Stmt.allAnonymous sts = allTrees ds) ts)
  | [], s, h, _ => by
    have hend : s.rest = [] ∨ s.sees .rightBrace := by
      cases ts with
      | nil => exact .inl h.rest
      | cons t us => exact .inr (by rw [Before.sees h]; exact decide_eq_true hs.head)
    rw [declarations, dif_pos hend]
    exact reads_done h rfl
  | d :: ds, s, h, hn => by
    simp only [allElseNearest, Bool.and_eq_true] at hn
    rw [allTokens, List.append_assoc] at h
    rw [declarations, dif_neg (not_sees_end h)]
    refine Ensures.reads (recover_reads _ (declaration_reads (noElse_allTokens hs ds) d h hn.1))
      fun r t _ h hr => ?_
    obtain ⟨st, rfl, hst⟩ := hr
    refine (declarations_reads hs ds h hn.2).reads fun sts u _ h hsts => reads_done h ?_
    rw [allTrees, ← hst, ← hsts]
    rfl
termination_by structural ds => ds

end

theorem program_reads : ∀ (ds : List Declaration) {s : Cursor}, s.Before (allTokens ds) →
    allElseNearest ds → (program stop s).Ensures (Reads (fun p => p.anonymous = allTrees ds) [])
  | [], s, h, _ => by
    have hnil : s.rest = [] := h.rest
    rw [program, dif_pos hnil]
    exact reads_done h rfl
  | d :: ds, s, h, hn => by
    simp only [allElseNearest, Bool.and_eq_true] at hn
    rw [allTokens] at h
    have hnil : s.rest ≠ [] := fun hnil => not_sees_end h (.inl hnil)
    have hnone : Ends [] := by
      intro t ht
      cases ht
    have hs := noElse_allTokens hnone ds
    rw [List.append_nil] at hs
    rw [program, dif_neg hnil]
    refine Ensures.reads (recover_reads hnil (declaration_reads stop hs d h hn.1))
      fun r t _ h hr => ?_
    obtain ⟨st, rfl, hst⟩ := hr
    refine (program_reads ds h hn.2).reads fun p u _ h hp => reads_done h ?_
    rw [allTrees, ← hst, ← hp]
    rfl

end Grammar

namespace Concrete

open Cursor

def beforeEnd (tokens : List Token) : List Token := tokens.takeWhile (·.kind ≠ .eof)

theorem beforeEnd_nil : beforeEnd [] = [] := rfl

theorem beforeEnd_append {ts : List Token} (h : ∀ t ∈ ts, t.kind ≠ .eof) (us : List Token) :
    beforeEnd (ts ++ us) = ts ++ beforeEnd us :=
  List.takeWhile_append_of_pos fun t ht => decide_eq_true (h t ht)

theorem exists_of_parse {tokens : List Token} {ids : IdSupply} {p : Lox.Program}
    (h : (parse tokens ids).1 = .ok p) :
    ∃ d : Program, d.tokens = beforeEnd tokens ∧ d.tree = p.anonymous := by
  have hspells := Grammar.program_spells
    ((tokens.find? (·.kind = .eof)).getD (.atEnd ((tokens.getLast?.map Token.line).getD 1)))
    ⟨beforeEnd tokens, ids, []⟩
  unfold parse at h
  dsimp only at h
  split at h
  · next q hq herrors =>
    injection h with h
    subst h
    obtain ⟨-, ts, hts, hrest, ds, htokens, htree, hnearest⟩ := hspells _ hq herrors
    rw [hrest, List.append_nil] at hts
    exact ⟨⟨ds, hnearest⟩, htokens.trans hts.symm, htree⟩
  · cases h
  · cases h

theorem parse_of_tokens (d : Program) {tokens : List Token} (h : d.tokens = beforeEnd tokens)
    (ids : IdSupply) : ∃ p, (parse tokens ids).1 = .ok p ∧ p.anonymous = d.tree := by
  have hbefore : Cursor.Before ⟨beforeEnd tokens, ids, []⟩ (allTokens d.declarations) :=
    ⟨h.symm, rfl⟩
  obtain ⟨p, hp, htree, -, herrors⟩ := Grammar.program_reads
    ((tokens.find? (·.kind = .eof)).getD (.atEnd ((tokens.getLast?.map Token.line).getD 1)))
    d.declarations hbefore d.nearest
  refine ⟨p, ?_, htree⟩
  unfold parse
  dsimp only
  unfold beforeEnd at hp herrors
  rw [hp, herrors]

/-- Tokens that parse after tokens that parse do so together, and the programs are concatenated. -/
theorem parse_append {ts us : List Token} {ids ids' : IdSupply} {p q : Lox.Program}
    (hts : ∀ t ∈ ts, t.kind ≠ .eof) (hp : (parse ts ids).1 = .ok p) (hq : (parse us ids').1 = .ok q)
    (ids'' : IdSupply) :
    ∃ r, (parse (ts ++ us) ids'').1 = .ok r ∧ r.anonymous = p.anonymous ++ q.anonymous := by
  obtain ⟨d, hd, hdtree⟩ := exists_of_parse hp
  obtain ⟨e, he, hetree⟩ := exists_of_parse hq
  have hbefore : beforeEnd ts = ts := by
    simpa [beforeEnd_nil] using beforeEnd_append hts []
  have htokens : (d.append e).tokens = beforeEnd (ts ++ us) := by
    rw [Program.tokens_append, hd, he, hbefore, beforeEnd_append hts]
  obtain ⟨r, hr, htree⟩ := parse_of_tokens (d.append e) htokens ids''
  exact ⟨r, hr, by rw [htree, Program.tree_append, hdtree, hetree]⟩

/-- Parsing accepts exactly what has a derivation. The derivation is unique, and its tree is the
program that parsing builds, up to ids. -/
theorem parse_eq_ok_iff {tokens : List Token} (hend : ∀ t ∈ tokens, t.kind ≠ .eof)
    (ids : IdSupply) (tree : Lox.Program) :
    (∃ p, (parse tokens ids).1 = .ok p ∧ p.anonymous = tree) ↔
      ∃ d : Program, d.tokens = tokens ∧ d.tree = tree ∧
        ∀ d' : Program, d'.tokens = tokens → d' = d := by
  have hbefore : beforeEnd tokens = tokens := by
    simpa [beforeEnd_nil] using beforeEnd_append hend []
  constructor
  · rintro ⟨p, hp, rfl⟩
    obtain ⟨d, hd, htree⟩ := exists_of_parse hp
    rw [hbefore] at hd
    exact ⟨d, hd, htree, fun d' hd' => Program.unique (hd'.trans hd.symm)⟩
  · rintro ⟨d, hd, rfl, -⟩
    exact parse_of_tokens d (hd.trans hbefore.symm) ids

def identifier (name : String) : The .identifier := ⟨⟨.identifier, name, none, 1⟩, rfl⟩

def fixed (kind : Kind) (text : String) : The kind := ⟨⟨kind, text, none, 1⟩, decide_eq_true rfl⟩

/-- The derivation of `if (a) if (b) c; else d;`, in which the `else` belongs to the second `if`. -/
def nestedBranches : Program :=
  let name (text : String) : Expression := (Call.call (.identifier (identifier text)) .none).expression
  let semicolon := fixed .semicolon ";"
  ⟨[.statement (.branch (fixed .ifWord "if") (fixed .leftParen "(") (name "a")
    (fixed .rightParen ")") (.branchElse (fixed .ifWord "if") (fixed .leftParen "(") (name "b")
      (fixed .rightParen ")") (.expression (.statement (name "c") semicolon))
      (fixed .elseWord "else") (.expression (.statement (name "d") semicolon))))], rfl⟩

theorem parse_eq_ok_iff_nestedBranches : (∀ t ∈ nestedBranches.tokens, t.kind ≠ .eof) ∧
    ∃ p, (parse nestedBranches.tokens .initial).1 = .ok p ∧ p.anonymous = nestedBranches.tree := by
  have hend : ∀ t ∈ nestedBranches.tokens, t.kind ≠ .eof := by decide
  exact ⟨hend, (parse_eq_ok_iff hend .initial nestedBranches.tree).2
    ⟨nestedBranches, rfl, rfl, fun d hd => Program.unique hd⟩⟩

end Concrete
end Lox
