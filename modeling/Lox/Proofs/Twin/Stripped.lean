import Lox.Proofs.Concrete.Demand
import Lox.Proofs.Source.Printable
import Lox.Proofs.Twin.Tree

/-! Trees that are the same without groups, ids and lines.
Such trees are twins (`Stmt.allTwin_of_stripped`), and twins are written with equally many names and `=`. -/
namespace Lox

def Expr.ungrouped : Expr → Expr
  | .group inner => inner.ungrouped
  | e => e

/-- Trees are alike if they are the same without groups, ids and lines. -/
def strippedLikeness : Likeness := ⟨True, fun t u => t.stripped = u.stripped, fun _ _ => True⟩

theorem Expr.stripped_ungrouped (e : Expr) : e.ungrouped.stripped = e.stripped := by
  induction e using Expr.ungrouped.induct with
  | case1 inner ih => exact ih
  | case2 e h => rw [ungrouped]; exact h

theorem Expr.ungrouped_ne_group (e inner : Expr) : e.ungrouped ≠ .group inner := by
  induction e using Expr.ungrouped.induct with
  | case1 e ih => exact ih
  | case2 e h =>
    rw [ungrouped]
    · exact h inner
    · exact h

theorem Expr.Twin.of_ungrouped {e e' : Expr} (h : e.Twin strippedLikeness e'.ungrouped) :
    e.Twin strippedLikeness e' := by
  induction e' using Expr.ungrouped.induct with
  | case1 inner ih => exact .groupRight trivial (ih h)
  | case2 e' hgroup => rwa [ungrouped] at h; exact hgroup

/-- It is enough to look at expressions that are no groups. -/
theorem Expr.Twin.of_bare {e e' : Expr} (h : e.stripped = e'.stripped)
    (hbare : ∀ c, (∀ inner, c ≠ .group inner) → e.stripped = c.stripped → e.Twin strippedLikeness c) :
    e.Twin strippedLikeness e' :=
  .of_ungrouped (hbare _ e'.ungrouped_ne_group (h.trans e'.stripped_ungrouped.symm))

mutual

theorem Expr.twin_of_stripped : ∀ e e' : Expr, e.stripped = e'.stripped → e.Twin strippedLikeness e'
  | .group inner, e', h => .groupLeft trivial (inner.twin_of_stripped e' h)
  | .literal value, e', h => .of_bare h fun c hgroup h => by
    cases c with
    | literal value' =>
      cases h
      exact .literal value
    | group inner => exact absurd rfl (hgroup inner)
    | _ => cases h
  | .unary op operand, e', h => .of_bare h fun c hgroup h => by
    cases c with
    | unary op' operand' =>
      injection h with hop hoperand
      exact .unary hop (operand.twin_of_stripped operand' hoperand)
    | group inner => exact absurd rfl (hgroup inner)
    | _ => cases h
  | .binary left op right, e', h => .of_bare h fun c hgroup h => by
    cases c with
    | binary left' op' right' =>
      injection h with hleft hop hright
      exact .binary (left.twin_of_stripped left' hleft) hop (right.twin_of_stripped right' hright)
    | group inner => exact absurd rfl (hgroup inner)
    | _ => cases h
  | .logical left op right, e', h => .of_bare h fun c hgroup h => by
    cases c with
    | logical left' op' right' =>
      injection h with hleft hop hright
      exact .logical (left.twin_of_stripped left' hleft) hop (right.twin_of_stripped right' hright)
    | group inner => exact absurd rfl (hgroup inner)
    | _ => cases h
  | .use id name, e', h => .of_bare h fun c hgroup h => by
    cases c with
    | use id' name' =>
      injection h with hid hname
      exact .use trivial hname
    | group inner => exact absurd rfl (hgroup inner)
    | _ => cases h
  | .assign id name value, e', h => .of_bare h fun c hgroup h => by
    cases c with
    | assign id' name' value' =>
      injection h with hid hname hvalue
      exact .assign trivial hname (value.twin_of_stripped value' hvalue)
    | group inner => exact absurd rfl (hgroup inner)
    | _ => cases h
  | .call callee args paren, e', h => .of_bare h fun c hgroup h => by
    cases c with
    | call callee' args' paren' =>
      injection h with hcallee hargs hparen
      exact .call (callee.twin_of_stripped callee' hcallee) (Expr.allTwin_of_stripped args args' hargs) hparen
    | group inner => exact absurd rfl (hgroup inner)
    | _ => cases h

theorem Expr.allTwin_of_stripped : ∀ es es' : List Expr, Expr.allStripped es = Expr.allStripped es' →
    Expr.AllTwin strippedLikeness es es'
  | [], [], _ => .nil
  | e :: es, e' :: es', h => by
    injection h with hhead htail
    exact .cons (e.twin_of_stripped e' hhead) (Expr.allTwin_of_stripped es es' htail)

end

theorem forall₂_of_map_stripped {ts us : List Token}
    (h : ts.map Token.stripped = us.map Token.stripped) :
    List.Forall₂ strippedLikeness.token ts us := by
  rw [← List.forall₂_eq_eq_eq, List.forall₂_map_left_iff, List.forall₂_map_right_iff] at h
  exact h

mutual

theorem Stmt.twin_of_stripped : ∀ s s' : Stmt, s.stripped = s'.stripped → s.Twin strippedLikeness s'
  | .expression e, s', h => by
    cases s' with
    | expression e' =>
      injection h with he
      exact .expression (e.twin_of_stripped e' he)
    | branch _ _ alternative => cases alternative <;> cases h
    | _ => cases h
  | .print e, s', h => by
    cases s' with
    | print e' =>
      injection h with he
      exact .print (e.twin_of_stripped e' he)
    | branch _ _ alternative => cases alternative <;> cases h
    | _ => cases h
  | .var name none, s', h => by
    cases s' with
    | var name' init' =>
      injection h with hname hinit
      cases init' with
      | none => exact .var hname
      | some init' => cases hinit
    | branch _ _ alternative => cases alternative <;> cases h
    | _ => cases h
  | .var name (some init), s', h => by
    cases s' with
    | var name' init' =>
      injection h with hname hinit
      cases init' with
      | none => cases hinit
      | some init' =>
        injection hinit with hinit
        exact .init hname (init.twin_of_stripped init' hinit)
    | branch _ _ alternative => cases alternative <;> cases h
    | _ => cases h
  | .block body, s', h => by
    cases s' with
    | block body' =>
      injection h with hbody
      exact .block (Stmt.allTwin_of_stripped body body' hbody)
    | branch _ _ alternative => cases alternative <;> cases h
    | _ => cases h
  | .branch condition consequent none, s', h => by
    cases s' with
    | branch condition' consequent' alternative' =>
      cases alternative' with
      | none =>
        injection h with hcondition hconsequent
        exact .branch (condition.twin_of_stripped condition' hcondition)
          (consequent.twin_of_stripped consequent' hconsequent)
      | some alternative' =>
        injection h with _ _ halternative
        cases halternative
    | _ => cases h
  | .branch condition consequent (some alternative), s', h => by
    cases s' with
    | branch condition' consequent' alternative' =>
      cases alternative' with
      | none =>
        injection h with _ _ halternative
        cases halternative
      | some alternative' =>
        injection h with hcondition hconsequent halternative
        injection halternative with halternative
        exact .branchElse (condition.twin_of_stripped condition' hcondition)
          (consequent.twin_of_stripped consequent' hconsequent)
          (alternative.twin_of_stripped alternative' halternative)
    | _ => cases h
  | .loop condition body, s', h => by
    cases s' with
    | loop condition' body' =>
      injection h with hcondition hbody
      exact .loop (condition.twin_of_stripped condition' hcondition)
        (body.twin_of_stripped body' hbody)
    | branch _ _ alternative => cases alternative <;> cases h
    | _ => cases h
  | .function name params body, s', h => by
    cases s' with
    | function name' params' body' =>
      injection h with hname hparams hbody
      exact .function hname (forall₂_of_map_stripped hparams)
        (Stmt.allTwin_of_stripped body body' hbody)
    | branch _ _ alternative => cases alternative <;> cases h
    | _ => cases h
  | .ret keyword none, s', h => by
    cases s' with
    | ret keyword' value' =>
      injection h with hkeyword hvalue
      cases value' with
      | none => exact .ret hkeyword
      | some value' => cases hvalue
    | branch _ _ alternative => cases alternative <;> cases h
    | _ => cases h
  | .ret keyword (some value), s', h => by
    cases s' with
    | ret keyword' value' =>
      injection h with hkeyword hvalue
      cases value' with
      | none => cases hvalue
      | some value' =>
        injection hvalue with hvalue
        exact .retValue hkeyword (value.twin_of_stripped value' hvalue)
    | branch _ _ alternative => cases alternative <;> cases h
    | _ => cases h

theorem Stmt.allTwin_of_stripped : ∀ ss ss' : List Stmt, Stmt.allStripped ss = Stmt.allStripped ss' →
    Stmt.AllTwin strippedLikeness ss ss'
  | [], [], _ => .nil
  | s :: ss, s' :: ss', h => by
    injection h with hhead htail
    exact .cons (s.twin_of_stripped s' hhead) (Stmt.allTwin_of_stripped ss ss' htail)

end

section

variable {L : Likeness}

mutual

theorem Expr.Twin.demand_eq {e e' : Expr} : e.Twin L e' → e.demand = e'.demand
  | .literal _ => rfl
  | .group inner | .groupLeft _ inner | .groupRight _ inner => inner.demand_eq
  | .unary _ operand => operand.demand_eq
  | .binary left _ right | .logical left _ right => by
    rw [Expr.demand, left.demand_eq, right.demand_eq, Expr.demand]
  | .use _ _ => rfl
  | .assign _ _ value => congrArg (· + 2) value.demand_eq
  | .call head tail _ => by rw [Expr.demand, head.demand_eq, tail.demand_eq, Expr.demand]

theorem Expr.AllTwin.demand_eq {es es' : List Expr} :
    Expr.AllTwin L es es' → Expr.demandAll es = Expr.demandAll es'
  | .nil => rfl
  | .cons head tail => by rw [Expr.demandAll, head.demand_eq, tail.demand_eq, Expr.demandAll]

end

mutual

theorem Stmt.Twin.demand_eq {s s' : Stmt} : s.Twin L s' → s.demand = s'.demand
  | .expression value | .print value => value.demand_eq
  | .var _ => rfl
  | .init _ value => congrArg (· + 2) value.demand_eq
  | .block all => all.demand_eq
  | .branch condition consequent => by
    rw [Stmt.demand, condition.demand_eq, consequent.demand_eq, Stmt.demand]
  | .branchElse condition consequent alternative => by
    rw [Stmt.demand, condition.demand_eq, consequent.demand_eq, alternative.demand_eq, Stmt.demand]
  | .loop condition body => by rw [Stmt.demand, condition.demand_eq, body.demand_eq, Stmt.demand]
  | .function _ tokens all => by rw [Stmt.demand, tokens.length_eq, all.demand_eq, Stmt.demand]
  | .ret _ => rfl
  | .retValue _ value => value.demand_eq

theorem Stmt.AllTwin.demand_eq {ss ss' : List Stmt} :
    Stmt.AllTwin L ss ss' → Stmt.demandAll ss = Stmt.demandAll ss'
  | .nil => rfl
  | .cons head tail => by rw [Stmt.demandAll, head.demand_eq, tail.demand_eq, Stmt.demandAll]

end

end

end Lox
