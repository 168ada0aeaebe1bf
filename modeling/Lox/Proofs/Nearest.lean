import Lox.Proofs.Addresses

/-! The resolution is exact.
A use is resolved to the nearest scope around it in which its name is declared before it, and the
resolution has no other entries (`resolve_nearest`). -/
namespace Lox

open Program (Introduces scopesAround Declares nearest? at?)

namespace Walk

variable {r : Resolution} {v w : Walk} {P Q : Prop} {x : String} {id : UseId}

open scoped Classical in
/-- What a name means when it has been declared in the innermost scope, if the condition holds. -/
noncomputable def depthWith (w : Walk) (P : Prop) (x : String) : Option Nat :=
  if w.scopes ≠ [] ∧ P then some 0 else w.depth? x

theorem depthWith_of_not (h : ¬P) : w.depthWith P x = w.depth? x := by
  rw [depthWith, if_neg fun h' => h h'.2]

theorem depthWith_of (hw : w.scopes ≠ []) (h : P) : w.depthWith P x = some 0 := by
  rw [depthWith, if_pos ⟨hw, h⟩]

theorem depthWith_congr (h : P ↔ Q) : w.depthWith P x = w.depthWith Q x := by
  rw [propext h]

theorem depthWith_or (hlength : v.scopes.length = w.scopes.length)
    (h : v.depth? x = w.depthWith P x) : v.depthWith Q x = w.depthWith (P ∨ Q) x := by
  have hempty : v.scopes = [] ↔ w.scopes = [] := by
    rw [← List.length_eq_zero_iff, hlength, List.length_eq_zero_iff]
  by_cases hw : w.scopes = []
  · simp [depthWith, hw, hempty, h]
  · by_cases hq : Q
    · rw [depthWith_of (hempty.not.2 hw) hq, depthWith_of hw (.inr hq)]
    · rw [depthWith_of_not hq, h]
      exact depthWith_congr (by simp [hq])

/-- What a name means inside a scope that starts with it, if the first condition holds, and has declared
it, if the second does. -/
theorem depthWith_inside [Decidable P] [Decidable (P ∨ Q)] {outer : Option Nat} (hv : v.scopes ≠ [])
    (h : v.depth? x = if P then some 0 else outer.map (· + 1)) (n : Nat) :
    (v.depthWith Q x).map (· + n) =
      (if P ∨ Q then some n else none).or (outer.map (· + (n + 1))) := by
  by_cases hq : Q
  · rw [depthWith_of hv hq, if_pos (.inr hq), Option.map_some, Nat.zero_add, Option.some_or]
  · rw [depthWith_of_not hq, h]
    by_cases hp : P
    · rw [if_pos hp, if_pos (.inl hp), Option.map_some, Nat.zero_add, Option.some_or]
    · rw [if_neg hp, if_neg (by simp [hp, hq]), Option.map_map, Option.none_or]
      congr 1
      funext d
      simp only [Function.comp_apply]
      omega

theorem depth?_enter (w : Walk) (name : String) (ready : Bool) (x : String) :
    (w.enter name ready).depth? x = w.depthWith (x = name) x := by
  unfold depthWith depth?
  rw [scopes_enter]
  cases w.scopes with
  | nil => simp
  | cons scope outer =>
    by_cases hx : x = name
    · simp [hx, List.findIdx?_cons]
    · have hb : (x == name) = false := by simpa using hx
      simp [hx, List.findIdx?_cons, List.lookup_cons, hb]

theorem depth?_openScope (w : Walk) (x : String) :
    w.openScope.depth? x = (w.depth? x).map (· + 1) := by
  unfold depth? openScope
  rw [List.findIdx?_cons]
  rfl

theorem depth?_enterBody (w : Walk) (name : Token) (params : List Token) (x : String) :
    (w.enterBody name params).depth? x = if x ∈ params.map Token.lexeme then some 0
      else ((w.enter name.lexeme true).depth? x).map (· + 1) := by
  have hlookup : ((((params.map Token.lexeme).map (·, true)).reverse).lookup x).isSome =
      decide (x ∈ params.map Token.lexeme) := by
    rw [Bool.eq_iff_iff, List.lookup_isSome_iff]
    simp [@eq_comm _ x]
  unfold depth?
  rw [scopes_enterBody, List.findIdx?_cons, hlookup]
  by_cases hx : x ∈ params.map Token.lexeme
  · rw [if_pos (decide_eq_true hx), if_pos hx]
  · rw [if_neg (by rwa [decide_eq_true_iff]), if_neg hx]

theorem depthWith_condition (w : Walk) (condition : Expr) (x : String) :
    (w.expression condition).depth? x = w.depthWith False x := by
  rw [depthWith_of_not not_false]
  exact depth?_congr (scopes_expression w condition) x

/-- A statement declares names in the innermost scope. -/
theorem depth?_statement (inFunction : Bool) (x : String) : ∀ (s : Stmt) (w : Walk),
    (w.statement inFunction s).depth? x = w.depthWith (Introduces s x) x
  | .expression e, w | .print e, w => by
    rw [depthWith_of_not ((Program.introduces_leaf rfl).not.2 List.not_mem_nil)]
    exact depth?_congr (scopes_expression w e) x
  | .var name none, w => by
    rw [statement, depth?_enter]
    exact depthWith_congr ((Program.introduces_leaf rfl).trans List.mem_singleton).symm
  | .var name (some init), w => by
    have hinit : ((w.enter name.lexeme false).expression init).depth? x =
        w.depthWith (x = name.lexeme) x :=
      (depth?_congr (scopes_expression _ init) x).trans (depth?_enter w name.lexeme false x)
    rw [statement, depth?_enter, depthWith_or (by simp) hinit]
    refine depthWith_congr ?_
    rw [Program.introduces_leaf rfl, Stmt.declared, List.mem_singleton, or_self_iff]
  | .block body, w => by
    rw [depthWith_of_not ((Program.introduces_scope rfl).not.2 List.not_mem_nil)]
    exact depth?_congr (scopes_block inFunction w body) x
  | .branch condition consequent none, w => by
    have hcondition := depthWith_condition w condition x
    rw [statement, depth?_statement inFunction x consequent, depthWith_or (by simp) hcondition]
    refine depthWith_congr ?_
    rw [Program.introduces_parts (s := .branch ..) rfl rfl]
    simp [Stmt.parts]
  | .branch condition consequent (some alternative), w => by
    have hcondition := depthWith_condition w condition x
    have hconsequent := depth?_statement inFunction x consequent (w.expression condition)
    rw [depthWith_or (by simp) hcondition] at hconsequent
    have hlength := (tail_scopes_statement inFunction (w.expression condition) consequent).2
    rw [scopes_expression] at hlength
    rw [statement, depth?_statement inFunction x alternative, depthWith_or hlength hconsequent]
    refine depthWith_congr ?_
    rw [Program.introduces_parts (s := .branch ..) rfl rfl]
    simp [Stmt.parts]
  | .loop condition body, w => by
    have hcondition := depthWith_condition w condition x
    rw [statement, depth?_statement inFunction x body, depthWith_or (by simp) hcondition]
    refine depthWith_congr ?_
    rw [Program.introduces_parts (s := .loop ..) rfl rfl]
    simp [Stmt.parts]
  | .function name params body, w => by
    rw [depth?_congr (scopes_function inFunction w name params body), depth?_enter]
    exact depthWith_congr ((Program.introduces_scope rfl).trans List.mem_singleton).symm
  | .ret keyword none, w => by
    rw [depthWith_of_not ((Program.introduces_leaf rfl).not.2 List.not_mem_nil)]
    exact depth?_congr (scopes_enterReturn w inFunction keyword) x
  | .ret keyword (some value), w => by
    rw [depthWith_of_not ((Program.introduces_leaf rfl).not.2 List.not_mem_nil)]
    refine depth?_congr (v := (w.enterReturn inFunction keyword).expression value) ?_ x
    rw [scopes_expression, scopes_enterReturn]

theorem depth?_statements (inFunction : Bool) (x : String) : ∀ (ss : List Stmt) (w : Walk),
    (w.statements inFunction ss).depth? x = w.depthWith (∃ s ∈ ss, Introduces s x) x
  | [], w => by
    rw [depthWith_of_not (by simp)]
    rfl
  | s :: ss, w => by
    rw [statements, depth?_statements inFunction x ss,
      depthWith_or (tail_scopes_statement inFunction w s).2 (depth?_statement inFunction x s w)]
    exact depthWith_congr (by simp)

mutual

theorem Settled.reference : ∀ {e : Expr} {w : Walk}, w.Settled r e → (id, x) ∈ e.references →
    r[id]? = w.depth? x
  | .group inner, _, h, hid => Settled.reference (e := inner) h hid
  | .unary _ operand, _, h, hid => Settled.reference (e := operand) h hid
  | .binary left _ right, w, h, hid | .logical left _ right, w, h, hid => by
    rcases List.mem_append.1 hid with hid | hid
    · exact h.1.reference hid
    · rw [h.2.reference hid, depth?_congr (scopes_expression w left)]
  | .use _ _, _, h, hid => by
    obtain ⟨rfl, rfl⟩ := Prod.mk.inj (List.mem_singleton.1 hid)
    exact h.1
  | .assign _ _ value, _, h, hid => by
    rcases List.mem_append.1 hid with hid | hid
    · exact h.1.reference hid
    · obtain ⟨rfl, rfl⟩ := Prod.mk.inj (List.mem_singleton.1 hid)
      exact h.2
  | .call callee args _, w, h, hid => by
    rcases List.mem_append.1 hid with hid | hid
    · exact h.1.reference hid
    · rw [h.2.reference hid, depth?_congr (scopes_expression w callee)]

theorem SettledAll.reference : ∀ {es : List Expr} {w : Walk}, w.SettledAll r es →
    (id, x) ∈ Expr.allReferences es → r[id]? = w.depth? x
  | e :: es, w, h, hid => by
    rcases List.mem_append.1 hid with hid | hid
    · exact h.1.reference hid
    · rw [h.2.reference hid, depth?_congr (scopes_expression w e)]

end

/-- The expressions of a statement itself see what it declares. -/
theorem SettledStatement.reference {inFunction : Bool} {s : Stmt}
    (h : w.SettledStatement r inFunction s) (hid : (id, x) ∈ s.references) :
    r[id]? = w.depthWith (x ∈ s.declared) x := by
  match s, h, hid with
  | .var name (some init), h, hid =>
    rw [Settled.reference (e := init) h hid, depth?_enter]
    exact depthWith_congr List.mem_singleton.symm
  | .expression e, h, hid | .print e, h, hid =>
    exact (Settled.reference (e := e) h hid).trans (depthWith_of_not List.not_mem_nil).symm
  | .branch condition _ none, h, hid | .branch condition _ (some _), h, hid
  | .loop condition _, h, hid =>
    exact (h.1.reference hid).trans (depthWith_of_not List.not_mem_nil).symm
  | .ret keyword (some value), h, hid =>
    have hvalue := Settled.reference (e := value) h hid
    rw [depth?_congr (scopes_enterReturn w inFunction keyword)] at hvalue
    exact hvalue.trans (depthWith_of_not List.not_mem_nil).symm

/-- How the walk comes to the parts of a statement. -/
theorem SettledStatement.parts {inFunction : Bool} {s : Stmt}
    (h : w.SettledStatement r inFunction s) : ∃ inFunction' v,
      SettledStatements r inFunction' v s.parts ∧
      if s.isScope then v.scopes ≠ [] ∧ ∀ x, v.depth? x = if x ∈ s.parameters then some 0
        else (w.depthWith (x ∈ s.declared) x).map (· + 1)
      else s.parts ≠ [] → v.scopes = w.scopes ∧ s.declared = [] := by
  match s, h with
  | .block body, h =>
    refine ⟨inFunction, w.openScope, h, List.cons_ne_nil _ _, fun x => ?_⟩
    have hblock : w.depthWith (x ∈ (Stmt.block body).declared) x = w.depth? x :=
      depthWith_of_not List.not_mem_nil
    rw [hblock]
    exact depth?_openScope w x
  | .function name params body, h =>
    refine ⟨true, w.enterBody name params, h, ?_, fun x => ?_⟩
    · rw [scopes_enterBody]
      exact List.cons_ne_nil _ _
    · rw [depth?_enterBody, depth?_enter, depthWith_congr List.mem_singleton.symm]
      rfl
  | .branch condition consequent none, h =>
    exact ⟨inFunction, w.expression condition, ⟨h.2, trivial⟩, fun _ =>
      ⟨scopes_expression w condition, rfl⟩⟩
  | .branch condition consequent (some alternative), h =>
    exact ⟨inFunction, w.expression condition, ⟨h.2.1, h.2.2, trivial⟩, fun _ =>
      ⟨scopes_expression w condition, rfl⟩⟩
  | .loop condition body, h =>
    exact ⟨inFunction, w.expression condition, ⟨h.2, trivial⟩, fun _ =>
      ⟨scopes_expression w condition, rfl⟩⟩
  | .expression _, _ | .print _, _ | .var .., _ | .ret .., _ =>
    exact ⟨inFunction, w, trivial, fun hparts => absurd rfl hparts⟩

theorem SettledStatements.getElem? {inFunction : Bool} : ∀ {ss : List Stmt} {i : Nat} {w : Walk}
    {s : Stmt}, w.SettledStatements r inFunction ss → ss[i]? = some s →
    (w.statements inFunction (ss.take i)).SettledStatement r inFunction s
  | _ :: _, 0, _, _, h, rfl => h.1
  | _ :: _, _ + 1, _, _, h, hs => h.2.getElem? hs

/-- What a name means at an address in statements that the walk comes to: how many scopes out the
nearest one is, among those around the address and then those of the walk, in which it is declared
before. -/
noncomputable def meaning? (w : Walk) (ss : List Stmt) (a : Address) (x : String) : Option Nat :=
  (nearest? ss a x).or
    ((w.depthWith (Declares ss none a x) x).map (· + (scopesAround ss a).length))

section

variable {ss : List Stmt} {i : Nat} {a : Address} {t : Stmt}

/-- What stands before in the same scope has been entered when the walk comes to a statement. -/
theorem depthWith_declared (inFunction : Bool) (w : Walk) (i : Nat) :
    (w.statements inFunction (ss.take i)).depthWith (x ∈ t.declared) x =
      w.depthWith ((∃ u ∈ ss.take i, Introduces u x) ∨ x ∈ t.declared) x :=
  depthWith_or (tail_scopes_statements inFunction w _).2 (depth?_statements inFunction x _ w)

theorem meaning?_here (inFunction : Bool) (w : Walk) (ht : ss[i]? = some t) :
    w.meaning? ss [i] x =
      (w.statements inFunction (ss.take i)).depthWith (x ∈ t.declared) x := by
  have hdeclares : Declares ss none [i] x ↔ (∃ u ∈ ss.take i, Introduces u x) ∨ x ∈ t.declared := by
    rw [Program.declares_none ht]
    simp [Program.not_declares_nil]
  have hnone : nearest? ss [i] x = none := rfl
  rw [meaning?, hnone, Option.none_or, depthWith_congr hdeclares, Program.scopesAround_singleton,
    depthWith_declared]
  exact Option.map_id'

open scoped Classical in
theorem meaning?_scope (inFunction : Bool) (ht : ss[i]? = some t) (ha : a ≠ []) (hscope : t.isScope)
    (hv : v.scopes ≠ []) (h : v.depth? x = if x ∈ t.parameters then some 0 else
      ((w.statements inFunction (ss.take i)).depthWith (x ∈ t.declared) x).map (· + 1)) :
    w.meaning? ss (i :: a) x = v.meaning? t.parts a x := by
  have hdeclares : Declares ss none (i :: a) x ↔
      (∃ u ∈ ss.take i, Introduces u x) ∨ x ∈ t.declared := by
    rw [Program.declares_none ht, hscope]
    simp
  rw [meaning?, meaning?, Program.nearest?_cons ht ha, Option.or_assoc,
    Program.scopesAround_cons ht ha, depthWith_inside hv h, depthWith_declared,
    depthWith_congr hdeclares, hscope]
  simp

theorem meaning?_part (inFunction : Bool) (ht : ss[i]? = some t) (ha : a ≠ [])
    (hscope : t.isScope = false) (hdeclared : t.declared = [])
    (h : v.scopes = (w.statements inFunction (ss.take i)).scopes) :
    w.meaning? ss (i :: a) x = v.meaning? t.parts a x := by
  have hdeclares : Declares ss none (i :: a) x ↔
      ((∃ u ∈ ss.take i, Introduces u x) ∨ x ∈ t.declared) ∨ Declares t.parts none a x := by
    rw [Program.declares_none ht, hscope, or_assoc]
    simp
  have hlength : v.scopes.length = w.scopes.length := by
    rw [h, (tail_scopes_statements inFunction w _).2]
  have hv : v.depth? x = w.depthWith ((∃ u ∈ ss.take i, Introduces u x) ∨ x ∈ t.declared) x := by
    rw [depth?_congr h, ← depthWith_declared inFunction, hdeclared, depthWith_of_not List.not_mem_nil]
  rw [meaning?, meaning?, Program.nearest?_cons ht ha, Program.scopesAround_cons ht ha, hscope,
    depthWith_congr hdeclares, depthWith_or hlength hv]
  simp

end

theorem SettledStatements.reference {s : Stmt} : ∀ {a : Address} {ss : List Stmt} {inFunction : Bool}
    {w : Walk}, w.SettledStatements r inFunction ss → at? ss a = some s → (id, x) ∈ s.references →
    r[id]? = w.meaning? ss a x
  | [], _, _, _, _, hs, _ => nomatch hs
  | i :: a, ss, inFunction, w, h, hs, hid => by
    obtain ⟨_, _, t, heq, ht, hpart⟩ := Program.exists_of_at? hs
    obtain ⟨rfl, rfl⟩ := List.cons.inj heq
    have hstatement := h.getElem? ht
    rcases hpart with ⟨rfl, rfl⟩ | ⟨ha, hs⟩
    · rw [hstatement.reference hid, meaning?_here inFunction w ht]
    · obtain ⟨inFunction', v, hparts, hv⟩ := hstatement.parts
      rw [hparts.reference hs hid]
      split at hv
      · next hscope => exact (meaning?_scope inFunction ht ha hscope hv.1 (hv.2 x)).symm
      · next hscope =>
        have hne : t.parts ≠ [] := by
          intro hnil
          rw [hnil] at hs
          obtain ⟨_, _, _, -, hs, -⟩ := Program.exists_of_at? hs
          cases hs
        obtain ⟨hscopes, hdeclared⟩ := hv hne
        exact (meaning?_part inFunction ht ha (Bool.not_eq_true _ ▸ hscope) hdeclared hscopes).symm

end Walk

/-- The resolution of a program is exact. A use has the number of the nearest scope around it in
which its name is declared before it, and no entry if there is none. The resolution has no other
entries, and none leads out of the scopes around its use. -/
theorem resolve_nearest {p : Program} {r : Resolution} (hids : p.uses.Nodup) (h : resolve p = .ok r) :
    (∀ a id x, p.Refers a id x → (∀ d, r[id]? = some d ↔ p.IsNearest a x d) ∧
      (r[id]? = none ↔ ∀ b ∈ p.scopesAround a, ¬p.Declared b a x)) ∧
    ∀ id d, r[id]? = some d → ∃ a x, p.Refers a id x ∧ d < (p.scopesAround a).length := by
  have hnearest : ∀ a id x, p.Refers a id x → r[id]? = p.nearest? a x := by
    rintro a id x ⟨s, hs, hid⟩
    have hr := (settled_of_resolve hids h).reference hs hid
    rw [Walk.meaning?] at hr
    have hinitial : Walk.initial.depthWith (p.Declares none a x) x = none := by
      simp [Walk.depthWith, Walk.initial, Walk.depth?]
    rwa [hinitial, Option.map_none, Option.or_none] at hr
  refine ⟨fun a id x hrefers => ?_, fun id d hd => ?_⟩
  · rw [hnearest a id x hrefers]
    exact ⟨fun d => Program.nearest?_eq_some, Program.nearest?_eq_none⟩
  · have hid : id ∈ p.uses := by
      by_contra hid
      rw [resolve_getElem?_eq_none h hid] at hd
      cases hd
    obtain ⟨a, x, hrefers⟩ := Stmt.all_exists_refers p hid
    rw [hnearest a id x hrefers] at hd
    obtain ⟨b, hb, -⟩ := Program.nearest?_eq_some.1 hd
    exact ⟨a, x, hrefers, (List.getElem?_eq_some_iff.1 hb).1⟩

/-- A function in a block uses a variable of the block, then hides it with one of its own, and uses a
name that the block declares only afterwards. -/
def hidingProgram : Program :=
  let identifier (name : String) : Token := ⟨.identifier, name, none, 1⟩
  [.block
    [.var (identifier "a") none,
     .function (identifier "f") [identifier "b"]
       [.block
         [.print (.use 0 (identifier "a")),
          .var (identifier "a") (some (.use 1 (identifier "b"))),
          .expression (.assign 3 (identifier "a") (.use 2 (identifier "f"))),
          .print (.use 4 (identifier "c"))]],
     .var (identifier "c") none]]

theorem resolve_nearest_hiding : hidingProgram.uses.Nodup ∧ ∃ r, resolve hidingProgram = .ok r ∧
    hidingProgram.IsNearest [0, 1, 0, 0] "a" 2 ∧ hidingProgram.IsNearest [0, 1, 0, 2] "a" 0 ∧
    ∀ b ∈ hidingProgram.scopesAround [0, 1, 0, 3], ¬hidingProgram.Declared b [0, 1, 0, 3] "c" := by
  have hids : hidingProgram.uses.Nodup := by decide
  have hentries : (resolve hidingProgram).toOption.map
      (fun r => (r[(0 : UseId)]?, r[(3 : UseId)]?, r[(4 : UseId)]?)) =
        some (some 2, some 0, none) := by cbv
  cases hr : resolve hidingProgram with
  | error errors =>
    rw [hr] at hentries
    cases hentries
  | ok r =>
    rw [hr] at hentries
    simp only [Except.toOption, Option.map_some, Option.some.injEq, Prod.mk.injEq] at hentries
    obtain ⟨h₀, h₃, h₄⟩ := hentries
    have h := (resolve_nearest hids hr).1
    exact ⟨hids, r, rfl,
      ((h [0, 1, 0, 0] 0 "a" ⟨_, rfl, by decide⟩).1 2).1 h₀,
      ((h [0, 1, 0, 2] 3 "a" ⟨_, rfl, by decide⟩).1 0).1 h₃,
      (h [0, 1, 0, 3] 4 "c" ⟨_, rfl, by decide⟩).2.1 h₄⟩

end Lox
