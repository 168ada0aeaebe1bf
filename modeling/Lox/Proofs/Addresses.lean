import Lox.Proofs.Scopes
import Mathlib

/-! Where names are declared and used in a program.
A statement stands at an address. The scopes around it are the blocks and functions on the way to it,
and what is declared before it stands at addresses that come no later: the walk goes from the outside
in and from left to right. None of this looks at what the walk does. -/
namespace Lox

/-- Where a statement stands: the number of the part to go to, at each level from the outside in. -/
abbrev Address := List Nat

/-- One address is on the way to the other, or comes to an earlier part. -/
def Address.NoLater : Address → Address → Prop
  | [], _ => True
  | _ :: _, [] => False
  | i :: a, j :: b => i < j ∨ i = j ∧ Address.NoLater a b

theorem Address.noLater_cons {i j : Nat} {a b : Address} :
    NoLater (i :: a) (j :: b) ↔ i < j ∨ i = j ∧ NoLater a b := Iff.rfl

theorem Address.noLater_part {i : Nat} {a b : Address} :
    NoLater (i :: a) (i :: b) ↔ NoLater a b := by
  simp [noLater_cons]

theorem Address.noLater_refl (a : Address) : NoLater a a := by
  induction a with
  | nil => trivial
  | cons i a ih => exact noLater_part.2 ih

mutual

def Expr.references : Expr → List (UseId × String)
  | .literal _ => []
  | .group inner => inner.references
  | .unary _ operand => operand.references
  | .binary left _ right => left.references ++ right.references
  | .logical left _ right => left.references ++ right.references
  | .use id name => [(id, name.lexeme)]
  | .assign id name value => value.references ++ [(id, name.lexeme)]
  | .call callee args _ => callee.references ++ Expr.allReferences args

def Expr.allReferences : List Expr → List (UseId × String)
  | [] => []
  | e :: es => e.references ++ Expr.allReferences es

end

namespace Stmt

/-- The statements that a statement is made of, in the order of the walk. -/
def parts : Stmt → List Stmt
  | .block body => body
  | .branch _ consequent alternative => consequent :: alternative.toList
  | .loop _ body => [body]
  | .function _ _ body => body
  | _ => []

def isScope : Stmt → Bool
  | .block _ | .function .. => true
  | _ => false

def declared : Stmt → List String
  | .var name _ => [name.lexeme]
  | .function name _ _ => [name.lexeme]
  | _ => []

def parameters : Stmt → List String
  | .function _ params _ => params.map Token.lexeme
  | _ => []

def references : Stmt → List (UseId × String)
  | .expression e | .print e => e.references
  | .var _ init => init.elim [] Expr.references
  | .branch condition _ _ => condition.references
  | .loop condition _ => condition.references
  | .ret _ value => value.elim [] Expr.references
  | .block _ | .function .. => []

end Stmt

namespace Program

open Address (NoLater noLater_cons noLater_part noLater_refl)

def at? (p : Program) : Address → Option Stmt
  | [] => none
  | i :: a => p[i]?.bind fun s => if a = [] then some s else at? s.parts a

/-- The addresses of the scopes around a statement, innermost first. -/
def scopesAround (p : Program) (a : Address) : List Address :=
  a.inits.dropLast.reverse.filter fun b => (p.at? b).any Stmt.isScope

/-- A statement up to this address declares the name directly in the scope, or in none. -/
def Declares (p : Program) (scope : Option Address) (a : Address) (x : String) : Prop :=
  ∃ c s, p.at? c = some s ∧ x ∈ s.declared ∧ (p.scopesAround c).head? = scope ∧ Address.NoLater c a

/-- The name is declared in the scope at `b` when the walk comes to the statement at `a`: it is a
parameter, or declared by a statement up to `a`. A statement that uses a name in its own initializer
counts, and so does the function around a body. -/
def Declared (p : Program) (b a : Address) (x : String) : Prop :=
  (∃ s, p.at? b = some s ∧ x ∈ s.parameters) ∨ p.Declares (some b) a x

def Refers (p : Program) (a : Address) (id : UseId) (x : String) : Prop :=
  ∃ s, p.at? a = some s ∧ (id, x) ∈ s.references

variable {p : Program} {s : Stmt} {i : Nat} {a b : Address} {x : String}

theorem at?_cons (hs : p[i]? = some s) (ha : a ≠ []) : p.at? (i :: a) = at? s.parts a := by
  rw [at?, hs, Option.bind_some, if_neg ha]

theorem at?_singleton (p : Program) (i : Nat) : p.at? [i] = p[i]? := by
  rw [at?]
  cases p[i]? <;> rfl

theorem exists_of_at? {t : Stmt} (h : p.at? a = some t) :
    ∃ i b s, a = i :: b ∧ p[i]? = some s ∧ (b = [] ∧ s = t ∨ b ≠ [] ∧ at? s.parts b = some t) := by
  cases a with
  | nil => cases h
  | cons i b =>
    rw [at?, Option.bind_eq_some_iff] at h
    obtain ⟨s, hs, h⟩ := h
    split at h
    · next hb => exact ⟨i, b, s, rfl, hs, .inl ⟨hb, Option.some.inj h⟩⟩
    · next hb => exact ⟨i, b, s, rfl, hs, .inr ⟨hb, h⟩⟩

theorem scopesAround_singleton (p : Program) (i : Nat) : p.scopesAround [i] = [] := rfl

theorem scopesAround_cons (hs : p[i]? = some s) (ha : a ≠ []) :
    p.scopesAround (i :: a) =
      (scopesAround s.parts a).map (i :: ·) ++ if s.isScope then [[i]] else [] := by
  obtain ⟨j, a, rfl⟩ := List.exists_cons_of_ne_nil ha
  have hne : a.inits.map (j :: ·) ≠ [] := by cases a <;> simp
  unfold scopesAround
  rw [List.inits_cons i, List.inits_cons j, List.map_cons, List.dropLast_cons_of_ne_nil (by simp),
    List.dropLast_cons_of_ne_nil (by simpa using hne), List.dropLast_cons_of_ne_nil hne,
    ← List.map_dropLast]
  generalize hbs : (a.inits.map (j :: ·)).dropLast = bs
  have hmem : ∀ b ∈ bs.reverse, b ≠ [] := by
    intro b hb
    rw [← hbs] at hb
    obtain ⟨c, -, rfl⟩ := List.mem_map.1 (List.mem_of_mem_dropLast (List.mem_reverse.1 hb))
    exact List.cons_ne_nil j c
  have hinner : (bs.map (i :: ·)).reverse.filter (fun b => (p.at? b).any Stmt.isScope) =
      (bs.reverse.filter fun b => (at? s.parts b).any Stmt.isScope).map (i :: ·) := by
    rw [← List.map_reverse, List.filter_map]
    refine congrArg _ (List.filter_congr fun b hb => ?_)
    rw [Function.comp_apply, at?_cons hs (hmem b hb)]
  have hnone : ∀ q : Program, (q.at? []).any Stmt.isScope = false := fun q => rfl
  have hhere : (p.at? [i]).any Stmt.isScope = s.isScope := by rw [at?_singleton, hs]; rfl
  simp only [List.reverse_cons, List.filter_append, hinner, List.filter_cons, List.filter_nil, hnone,
    hhere, List.map_append]
  cases s.isScope <;> simp

theorem ne_nil_of_mem_scopesAround (hb : b ∈ p.scopesAround a) : b ≠ [] := by
  rintro rfl
  simp [scopesAround, at?] at hb

theorem declares_inside (hs : p[i]? = some s) (hb : b ≠ []) :
    p.Declares (some (i :: b)) (i :: a) x ↔ Declares s.parts (some b) a x := by
  constructor
  · rintro ⟨c, t, ht, hx, hscope, hle⟩
    obtain ⟨j, c, u, rfl, hu, ⟨rfl, rfl⟩ | ⟨hc, ht⟩⟩ := exists_of_at? ht
    · cases hscope
    · rw [scopesAround_cons hu hc] at hscope
      cases hinner : scopesAround u.parts c with
      | nil =>
        rw [hinner] at hscope
        split at hscope
        · simp [hb] at hscope
        · cases hscope
      | cons b' bs =>
        rw [hinner] at hscope
        obtain ⟨rfl, rfl⟩ := List.cons.inj (Option.some.inj hscope)
        obtain rfl := Option.some.inj (hs.symm.trans hu)
        exact ⟨c, t, ht, hx, by rw [hinner]; rfl, noLater_part.1 hle⟩
  · rintro ⟨c, t, ht, hx, hscope, hle⟩
    have hc : c ≠ [] := by
      rintro rfl
      cases ht
    refine ⟨i :: c, t, by rwa [at?_cons hs hc], hx, ?_, noLater_part.2 hle⟩
    rw [scopesAround_cons hs hc]
    cases hinner : scopesAround s.parts c with
    | nil => simp [hinner] at hscope
    | cons b' bs =>
      rw [hinner] at hscope
      cases hscope
      rfl

theorem declares_own (hs : p[i]? = some s) :
    p.Declares (some [i]) (i :: a) x ↔ s.isScope ∧ Declares s.parts none a x := by
  constructor
  · rintro ⟨c, t, ht, hx, hscope, hle⟩
    obtain ⟨j, c, u, rfl, hu, ⟨rfl, rfl⟩ | ⟨hc, ht⟩⟩ := exists_of_at? ht
    · cases hscope
    · rw [scopesAround_cons hu hc] at hscope
      cases hinner : scopesAround u.parts c with
      | nil =>
        rw [hinner] at hscope
        split at hscope
        · next hu' =>
          obtain ⟨rfl, -⟩ := List.cons.inj (Option.some.inj hscope)
          obtain rfl := Option.some.inj (hs.symm.trans hu)
          exact ⟨hu', c, t, ht, hx, by rw [hinner]; rfl, noLater_part.1 hle⟩
        · cases hscope
      | cons b' bs =>
        rw [hinner] at hscope
        obtain ⟨-, rfl⟩ := List.cons.inj (Option.some.inj hscope)
        exact absurd rfl (ne_nil_of_mem_scopesAround (hinner ▸ List.mem_cons_self))
  · rintro ⟨hscope, c, t, ht, hx, hnone, hle⟩
    have hc : c ≠ [] := by
      rintro rfl
      cases ht
    refine ⟨i :: c, t, by rwa [at?_cons hs hc], hx, ?_, noLater_part.2 hle⟩
    rw [scopesAround_cons hs hc, List.head?_eq_none_iff.1 hnone, hscope]
    rfl

def Introduces (s : Stmt) (x : String) : Prop :=
  x ∈ s.declared ∨ s.isScope = false ∧ ∃ a, Declares s.parts none a x

theorem declares_none (hs : p[i]? = some s) :
    p.Declares none (i :: a) x ↔ (∃ t ∈ p.take i, Introduces t x) ∨
      x ∈ s.declared ∨ s.isScope = false ∧ Declares s.parts none a x := by
  have hbefore : ∀ t, t ∈ p.take i ↔ ∃ k < i, p[k]? = some t := fun t => by
    rw [List.mem_iff_getElem?]
    simp [List.getElem?_take]
  constructor
  · rintro ⟨c, t, ht, hx, hscope, hle⟩
    obtain ⟨j, c, u, rfl, hu, h⟩ := exists_of_at? ht
    have hintroduces : x ∈ u.declared ∨ u.isScope = false ∧ ∃ t, at? u.parts c = some t ∧
        x ∈ t.declared ∧ (scopesAround u.parts c).head? = none := by
      rcases h with ⟨rfl, rfl⟩ | ⟨hc, ht⟩
      · exact .inl hx
      · rw [scopesAround_cons hu hc, List.head?_append, Option.or_eq_none_iff] at hscope
        refine .inr ⟨?_, t, ht, hx, by simpa using hscope.1⟩
        rw [← Bool.not_eq_true]
        intro hu'
        simp [hu'] at hscope
    rcases noLater_cons.1 hle with hlt | ⟨rfl, hca⟩
    · exact .inl ⟨u, (hbefore u).2 ⟨j, hlt, hu⟩, hintroduces.imp_right fun ⟨hu', t, ht⟩ =>
        ⟨hu', c, c, t, ht.1, ht.2.1, ht.2.2, noLater_refl c⟩⟩
    · obtain rfl := Option.some.inj (hs.symm.trans hu)
      exact .inr (hintroduces.imp_right fun ⟨hu', t, ht⟩ =>
        ⟨hu', c, t, ht.1, ht.2.1, ht.2.2, hca⟩)
  · have hpart : ∀ {k : Nat} {u : Stmt} {b : Address}, p[k]? = some u → u.isScope = false →
        Declares u.parts none b x → (∀ c, NoLater c b → NoLater (k :: c) (i :: a)) → p.Declares none (i :: a) x := by
      rintro k u b hu hu' ⟨c, t, ht, hx, hnone, hle⟩ hmono
      have hc : c ≠ [] := by
        rintro rfl
        cases ht
      refine ⟨k :: c, t, by rwa [at?_cons hu hc], hx, ?_, hmono c hle⟩
      rw [scopesAround_cons hu hc, List.head?_eq_none_iff.1 hnone, hu']
      rfl
    have hself : ∀ {k : Nat} {u : Stmt}, p[k]? = some u → x ∈ u.declared → NoLater [k] (i :: a) →
        p.Declares none (i :: a) x := fun {k u} hu hx hle =>
      ⟨[k], u, by rwa [at?_singleton], hx, rfl, hle⟩
    rintro (⟨u, hu, h⟩ | hx | ⟨hs', ha⟩)
    · obtain ⟨k, hk, hu⟩ := (hbefore u).1 hu
      rcases h with hx | ⟨hu', b, hb⟩
      · exact hself hu hx (noLater_cons.2 (.inl hk))
      · exact hpart hu hu' hb fun c _ => noLater_cons.2 (.inl hk)
    · exact hself hs hx (noLater_part.2 trivial)
    · exact hpart hs hs' ha fun c hc => noLater_part.2 hc

theorem exists_declares_none : (∃ a, p.Declares none a x) ↔ ∃ s ∈ p, Introduces s x := by
  constructor
  · rintro ⟨-, c, t, ht, hx, hnone, -⟩
    obtain ⟨i, b, s, rfl, hs, -⟩ := exists_of_at? ht
    have h : p.Declares none (i :: b) x := ⟨i :: b, t, ht, hx, hnone, noLater_refl _⟩
    rcases (declares_none hs).1 h with ⟨u, hu, hx⟩ | hx | ⟨hs', hb⟩
    · exact ⟨u, List.mem_of_mem_take hu, hx⟩
    · exact ⟨s, List.mem_of_getElem? hs, .inl hx⟩
    · exact ⟨s, List.mem_of_getElem? hs, .inr ⟨hs', b, hb⟩⟩
  · rintro ⟨s, hs, hx | ⟨hs', a, ha⟩⟩
    all_goals obtain ⟨i, hi⟩ := List.mem_iff_getElem?.1 hs
    · exact ⟨[i], (declares_none hi).2 (.inr (.inl hx))⟩
    · exact ⟨i :: a, (declares_none hi).2 (.inr (.inr ⟨hs', ha⟩))⟩

theorem introduces_scope (h : s.isScope) : Introduces s x ↔ x ∈ s.declared := by
  simp [Introduces, h]

theorem introduces_leaf (h : s.parts = []) : Introduces s x ↔ x ∈ s.declared := by
  rw [Introduces, exists_declares_none, h]
  simp

theorem introduces_parts (hscope : s.isScope = false) (h : s.declared = []) :
    Introduces s x ↔ ∃ t ∈ s.parts, Introduces t x := by
  rw [Introduces, exists_declares_none, h, hscope]
  simp

theorem not_declares_nil {scope : Option Address} : ¬p.Declares scope [] x := by
  rintro ⟨c, s, hs, -, -, hle⟩
  cases c with
  | nil => cases hs
  | cons i c => cases hle

theorem declared_inside (hs : p[i]? = some s) (hb : b ≠ []) :
    p.Declared (i :: b) (i :: a) x ↔ Declared s.parts b a x := by
  rw [Declared, Declared, at?_cons hs hb, declares_inside hs hb]

theorem declared_own (hs : p[i]? = some s) : p.Declared [i] (i :: a) x ↔
    x ∈ s.parameters ∨ s.isScope ∧ Declares s.parts none a x := by
  rw [Declared, at?_singleton, hs, declares_own hs]
  simp

theorem findIdx?_congr {α : Type} {f g : α → Bool} : ∀ {bs : List α}, (∀ b ∈ bs, f b = g b) →
    bs.findIdx? f = bs.findIdx? g
  | [], _ => rfl
  | b :: bs, h => by
    obtain ⟨hb, hbs⟩ := List.forall_mem_cons.1 h
    rw [List.findIdx?_cons, List.findIdx?_cons, hb, findIdx?_congr hbs]

open scoped Classical in
noncomputable def nearest? (p : Program) (a : Address) (x : String) : Option Nat :=
  (p.scopesAround a).findIdx? fun b => p.Declared b a x

/-- The scope so many out is the nearest in which the name is declared before the address. -/
def IsNearest (p : Program) (a : Address) (x : String) (d : Nat) : Prop :=
  ∃ b, (p.scopesAround a)[d]? = some b ∧ p.Declared b a x ∧
    ∀ e < d, ∀ c, (p.scopesAround a)[e]? = some c → ¬p.Declared c a x

theorem nearest?_eq_some {d : Nat} : p.nearest? a x = some d ↔ p.IsNearest a x d := by
  rw [nearest?, List.findIdx?_eq_some_iff_getElem]
  simp only [decide_eq_true_eq]
  constructor
  · rintro ⟨hd, hx, hfirst⟩
    refine ⟨_, List.getElem?_eq_getElem hd, hx, fun e he c hc hx => ?_⟩
    obtain ⟨_, rfl⟩ := List.getElem?_eq_some_iff.1 hc
    exact hfirst e he hx
  · rintro ⟨b, hb, hx, hfirst⟩
    obtain ⟨hd, rfl⟩ := List.getElem?_eq_some_iff.1 hb
    refine ⟨hd, hx, fun e he hx => ?_⟩
    exact hfirst e he _ (List.getElem?_eq_getElem (Nat.lt_trans he hd)) hx

theorem nearest?_eq_none : p.nearest? a x = none ↔ ∀ b ∈ p.scopesAround a, ¬p.Declared b a x := by
  rw [nearest?, List.findIdx?_eq_none_iff]
  simp

open scoped Classical in
theorem nearest?_cons (hs : p[i]? = some s) (ha : a ≠ []) :
    p.nearest? (i :: a) x = (nearest? s.parts a x).or
      (if s.isScope ∧ (x ∈ s.parameters ∨ Declares s.parts none a x)
        then some (scopesAround s.parts a).length else none) := by
  have hinside : (scopesAround s.parts a).findIdx?
      ((fun b => decide (p.Declared b (i :: a) x)) ∘ (i :: ·)) = nearest? s.parts a x := by
    unfold nearest?
    refine findIdx?_congr fun b hb => ?_
    simp only [Function.comp_apply, declared_inside hs (ne_nil_of_mem_scopesAround hb)]
  rw [nearest?, scopesAround_cons hs ha, List.findIdx?_append, List.findIdx?_map, hinside]
  refine congrArg _ ?_
  by_cases hscope : s.isScope
  · simp [hscope, List.findIdx?_cons, declared_own hs]
  · simp [hscope]

theorem exists_refers {id : UseId} (hs : s ∈ p)
    (h : (∃ x, (id, x) ∈ s.references) ∨ ∃ a x, Refers s.parts a id x) : ∃ a x, p.Refers a id x := by
  obtain ⟨i, hi⟩ := List.mem_iff_getElem?.1 hs
  rcases h with ⟨x, hx⟩ | ⟨a, x, t, ht, hx⟩
  · exact ⟨[i], x, s, by rwa [at?_singleton], hx⟩
  · have ha : a ≠ [] := by
      rintro rfl
      cases ht
    exact ⟨i :: a, x, t, by rwa [at?_cons hi ha], hx⟩

end Program

mutual

theorem Expr.exists_reference {id : UseId} : ∀ {e : Expr}, id ∈ e.uses → ∃ x, (id, x) ∈ e.references
  | .group inner, h => Expr.exists_reference (e := inner) h
  | .unary _ operand, h => Expr.exists_reference (e := operand) h
  | .binary left _ right, h | .logical left _ right, h => by
    rcases List.mem_append.1 h with h | h
    · exact (Expr.exists_reference h).imp fun _ => List.mem_append_left _
    · exact (Expr.exists_reference h).imp fun _ => List.mem_append_right _
  | .use id name, h => ⟨name.lexeme, List.mem_singleton.2 (by rw [List.mem_singleton.1 h])⟩
  | .assign id name value, h => by
    rcases List.mem_append.1 h with h | h
    · exact (Expr.exists_reference h).imp fun _ => List.mem_append_left _
    · refine ⟨name.lexeme, List.mem_append_right _ (List.mem_singleton.2 ?_)⟩
      rw [List.mem_singleton.1 h]
  | .call callee args _, h => by
    rcases List.mem_append.1 h with h | h
    · exact (Expr.exists_reference h).imp fun _ => List.mem_append_left _
    · exact (Expr.exists_allReference h).imp fun _ => List.mem_append_right _

theorem Expr.exists_allReference {id : UseId} : ∀ {es : List Expr}, id ∈ Expr.usesAll es →
    ∃ x, (id, x) ∈ Expr.allReferences es
  | e :: es, h => by
    rcases List.mem_append.1 h with h | h
    · exact (Expr.exists_reference h).imp fun _ => List.mem_append_left _
    · exact (Expr.exists_allReference h).imp fun _ => List.mem_append_right _

end

mutual

theorem Stmt.exists_refers {id : UseId} : ∀ {s : Stmt}, id ∈ s.uses →
    (∃ x, (id, x) ∈ s.references) ∨ ∃ a x, Program.Refers s.parts a id x
  | .expression e, h => .inl (Expr.exists_reference (e := e) h)
  | .print e, h => .inl (Expr.exists_reference (e := e) h)
  | .var _ (some init), h => .inl (Expr.exists_reference (e := init) h)
  | .block body, h => .inr (Stmt.all_exists_refers body h)
  | .branch condition consequent none, h => by
    rcases List.mem_append.1 h with h | h
    · exact .inl (Expr.exists_reference h)
    · exact .inr (Program.exists_refers List.mem_cons_self (Stmt.exists_refers h))
  | .branch condition consequent (some alternative), h => by
    rcases List.mem_append.1 h with h | h
    · exact .inl (Expr.exists_reference h)
    · rcases List.mem_append.1 h with h | h
      · exact .inr (Program.exists_refers List.mem_cons_self (Stmt.exists_refers h))
      · refine .inr (Program.exists_refers ?_ (Stmt.exists_refers h))
        exact List.mem_cons_of_mem _ (List.mem_singleton_self _)
  | .loop condition body, h => by
    rcases List.mem_append.1 h with h | h
    · exact .inl (Expr.exists_reference h)
    · exact .inr (Program.exists_refers List.mem_cons_self (Stmt.exists_refers h))
  | .function _ _ body, h => .inr (Stmt.all_exists_refers body h)
  | .ret _ (some value), h => .inl (Expr.exists_reference (e := value) h)

theorem Stmt.all_exists_refers {id : UseId} : ∀ ss : List Stmt, id ∈ Stmt.usesAll ss →
    ∃ a x, Program.Refers ss a id x
  | s :: ss, h => by
    rcases List.mem_append.1 h with h | h
    · exact Program.exists_refers List.mem_cons_self (Stmt.exists_refers h)
    · obtain ⟨a, x, t, ht, hx⟩ := Stmt.all_exists_refers ss h
      obtain ⟨i, b, u, rfl, hu, -⟩ := Program.exists_of_at? ht
      exact ⟨(i + 1) :: b, x, t, ht, hx⟩

end

end Lox
