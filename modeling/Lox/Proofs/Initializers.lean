import Lox.Proofs.Settled

/-! Initializers that leave their own variable alone.
While an initializer is walked its variable is declared already. If no initializer of a local
variable assigns to that variable, this makes no difference to the uses in it
(`Settled.without`). -/
namespace Lox

mutual

/-- Whether an expression has an assignment to the name in it. -/
def Expr.assigns (name : String) : Expr → Bool
  | .literal _ => false
  | .group inner => inner.assigns name
  | .unary _ operand => operand.assigns name
  | .binary left _ right => left.assigns name || right.assigns name
  | .logical left _ right => left.assigns name || right.assigns name
  | .use _ _ => false
  | .assign _ target value => target.lexeme == name || value.assigns name
  | .call callee args _ => callee.assigns name || Expr.anyAssigns name args

def Expr.anyAssigns (name : String) : List Expr → Bool
  | [] => false
  | e :: es => e.assigns name || Expr.anyAssigns name es

end

mutual

/-- No initializer of a local variable assigns to the variable itself. -/
def Stmt.initializesCleanly (isLocal : Bool) : Stmt → Bool
  | .var name (some init) => !(isLocal && init.assigns name.lexeme)
  | .block body => Stmt.initializeCleanly true body
  | .branch _ consequent none => consequent.initializesCleanly isLocal
  | .branch _ consequent (some alternative) =>
    consequent.initializesCleanly isLocal && alternative.initializesCleanly isLocal
  | .loop _ body => body.initializesCleanly isLocal
  | .function _ _ body => Stmt.initializeCleanly true body
  | _ => true

def Stmt.initializeCleanly (isLocal : Bool) : List Stmt → Bool
  | [] => true
  | s :: ss => s.initializesCleanly isLocal && Stmt.initializeCleanly isLocal ss

end

namespace Walk

variable {r : Resolution} {v w : Walk} {name : String} {scope : Scope} {outer : List Scope}

theorem depth?_of_ne (hv : v.scopes = ((name, false) :: scope) :: outer)
    (hw : w.scopes = scope :: outer) {x : String} (hx : x ≠ name) : v.depth? x = w.depth? x := by
  have h : (x == name) = false := by simpa using hx
  simp [depth?, hv, hw, List.findIdx?_cons, List.lookup_cons, h]

theorem inOwnInitializer_of_ne (hv : v.scopes = ((name, false) :: scope) :: outer)
    (hw : w.scopes = scope :: outer) {x : String} (hx : x ≠ name) :
    v.inOwnInitializer x = w.inOwnInitializer x := by
  have h : (x == name) = false := by simpa using hx
  simp [inOwnInitializer, hv, hw, List.lookup_cons, h]

mutual

/-- An initializer that neither reads nor assigns its variable does without the declaration. -/
theorem Settled.without {v w : Walk} (hv : v.scopes = ((name, false) :: scope) :: outer)
    (hw : w.scopes = scope :: outer) : ∀ e : Expr, v.Settled r e → e.assigns name = false →
      w.Settled r e
  | .literal _, _, _ => trivial
  | .group inner, he, ha => Settled.without hv hw inner he ha
  | .unary _ operand, he, ha => Settled.without hv hw operand he ha
  | .binary left _ right, he, ha | .logical left _ right, he, ha => by
    simp only [Expr.assigns, Bool.or_eq_false_iff] at ha
    exact ⟨Settled.without hv hw left he.1 ha.1,
      Settled.without (by simpa using hv) (by simpa using hw) right he.2 ha.2⟩
  | .use id x, he, _ => by
    have hx : x.lexeme ≠ name := by
      intro hx
      have h := he.2
      simp [inOwnInitializer, hv, hx] at h
    rw [Settled, ← depth?_of_ne hv hw hx, ← inOwnInitializer_of_ne hv hw hx]
    exact he
  | .assign id x value, he, ha => by
    simp only [Expr.assigns, Bool.or_eq_false_iff] at ha
    refine ⟨Settled.without hv hw value he.1 ha.2, ?_⟩
    rw [← depth?_of_ne hv hw (by simpa using ha.1)]
    exact he.2
  | .call callee args _, he, ha => by
    simp only [Expr.assigns, Bool.or_eq_false_iff] at ha
    exact ⟨Settled.without hv hw callee he.1 ha.1,
      SettledAll.without (by simpa using hv) (by simpa using hw) args he.2 ha.2⟩

theorem SettledAll.without {v w : Walk} (hv : v.scopes = ((name, false) :: scope) :: outer)
    (hw : w.scopes = scope :: outer) : ∀ es : List Expr, v.SettledAll r es →
      Expr.anyAssigns name es = false → w.SettledAll r es
  | [], _, _ => trivial
  | e :: es, he, ha => by
    simp only [Expr.anyAssigns, Bool.or_eq_false_iff] at ha
    exact ⟨Settled.without hv hw e he.1 ha.1,
      SettledAll.without (by simpa using hv) (by simpa using hw) es he.2 ha.2⟩

end

theorem enter_of_nil (hw : w.scopes = []) (x : String) (ready : Bool) : w.enter x ready = w := by
  unfold enter
  rw [hw]

end Walk

end Lox
