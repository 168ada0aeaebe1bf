import Lox.Proofs.Scopes
import Lox.Proofs.Steps

/-! Parsing builds plain programs.
A branch of an `if` and a body of a loop are statements, never bare declarations, also where a `for`
loop is rewritten (`arePlain_of_parse`). -/
namespace Lox

theorem Stmt.isBody_branch {condition : Expr} {consequent : Stmt} {alternative : Option Stmt}
    (hc : consequent.isBody) (ha : ∀ a ∈ alternative, a.isBody) :
    (branch condition consequent alternative).isBody := by
  cases alternative with
  | none => exact hc
  | some a =>
    have h : consequent.isBody && a.isBody := Bool.and_eq_true_iff.2 ⟨hc, ha a rfl⟩
    exact h

theorem Stmt.isBody_forLoop {init : Option Stmt} {condition increment : Option Expr} {body : Stmt}
    (hi : ∀ s ∈ init, s.isPlain) (hb : body.isBody) :
    (forLoop init condition increment body).isBody := by
  have hp := isPlain_of_isBody hb
  have hb := Bool.and_eq_true_iff.1 hb
  cases init with
  | none => cases increment <;> simp_all [forLoop, isBody, isPlain, arePlain, declares]
  | some s => cases increment <;> simp_all [forLoop, isBody, isPlain, arePlain, declares]

theorem Stmt.arePlain_toList_append (d : Option Stmt) {ds : List Stmt} (hd : ∀ s ∈ d, s.isPlain)
    (hds : arePlain ds) : arePlain (d.toList ++ ds) := by
  cases d with
  | none => exact hds
  | some s => exact Bool.and_eq_true_iff.2 ⟨hd s rfl, hds⟩

abbrev Step.Yields {α : Type} {s : Cursor} {k : Nat} (P : α → Prop) (x : Step α s k) : Prop :=
  x.Ensures fun r _ => ∀ a, r = .ok a → P a

namespace Step

variable {α β : Type} {s t : Cursor} {j k : Nat} {P : α → Prop} {Q : β → Prop}

theorem yields_done {a : α} (h : P a) : (done a s).Yields P := by
  rintro _ ⟨⟩
  exact h

theorem yields_past {h : t.size + 1 ≤ s.size} {x : Step α t k} (hx : x.Yields P) :
    (past h x).Yields P := hx

theorem Yields.bind {x : Step α s j} {f : α → (t : Cursor) → t.size + j ≤ s.size → Step β t k}
    (hx : x.Yields P) (hf : ∀ a t h, P a → (f a t h).Yields Q) : (x.bind f).Yields Q :=
  Ensures.bind hx (fun _ _ _ _ h => nomatch h) fun a t h ha => hf a t h (ha a rfl)

theorem Yields.any {x : Step α s j} {f : α → (t : Cursor) → t.size + j ≤ s.size → Step β t k}
    (hf : ∀ a t h, (f a t h).Yields Q) : (x.bind f).Yields Q :=
  Yields.bind (P := fun _ => True) (fun _ _ => trivial) fun a t h _ => hf a t h

end Step

namespace Grammar

open Step

theorem recover_yields {α : Type} {s : Cursor} (hs : s.rest ≠ []) {P : α → Prop} {x : Step α s 1}
    (hx : x.Yields P) : (recover hs x).Yields fun d => ∀ a ∈ d, P a := by
  obtain ⟨r, t, ht, h⟩ := x
  cases r with
  | ok a =>
    rintro _ ⟨⟩ _ ⟨⟩
    exact hx a rfl
  | error e =>
    rintro _ ⟨⟩ _ ⟨⟩

variable (stop : Token)

theorem variableDeclaration_plain (s : Cursor) :
    (variableDeclaration stop s).Yields fun d => d.isPlain := by
  unfold variableDeclaration
  refine .any fun name t _ => ?_
  split
  · exact .any fun _ u _ => yields_done rfl
  · exact yields_past (.any fun init u _ => .any fun _ v _ => yields_done rfl)

theorem expressionStatement_isBody (s : Cursor) :
    (expressionStatement stop s).Yields fun d => d.isBody :=
  .any fun _ _ _ => .any fun _ _ _ => yields_done rfl

theorem loopInitializer_plain (s : Cursor) :
    (loopInitializer stop s).Yields fun i => ∀ d ∈ i, d.isPlain := by
  unfold loopInitializer
  split
  · refine yields_past (yields_done ?_)
    rintro _ ⟨⟩
  · split
    · next token t ht heq =>
      refine Yields.bind (variableDeclaration_plain stop t) fun d u _ hd => yields_done ?_
      rintro _ ⟨⟩
      exact hd
    · refine (expressionStatement_isBody stop s).bind fun d t _ hd => yields_done ?_
      rintro _ ⟨⟩
      exact Stmt.isPlain_of_isBody hd

mutual

theorem declaration_plain (s : Cursor) : (declaration stop s).Yields fun d => d.isPlain := by
  rw [declaration]
  split
  · next token t ht heq => exact variableDeclaration_plain stop t
  · split
    · next token t ht heq => exact functionDeclaration_plain t
    · intro d hd
      exact Stmt.isPlain_of_isBody (statement_isBody s d hd)
termination_by (s.size, 1)

theorem functionDeclaration_plain (s : Cursor) :
    (functionDeclaration stop s).Yields fun d => d.isPlain := by
  rw [functionDeclaration]
  exact .any fun name t _ => .any fun _ u _ => .any fun params v _ => .any fun _ w _ =>
    .any fun _ x _ => (block_plain x).bind fun body y _ h => yields_done h
termination_by (s.size, 0)

theorem statement_isBody (s : Cursor) : (statement stop s).Yields fun d => d.isBody := by
  rw [statement]
  split
  · exact expressionStatement_isBody stop s
  · next token t ht heq =>
    split
    · exact yields_past (.any fun e u _ => .any fun _ v _ => yields_done rfl)
    · exact Yields.bind (block_plain t) fun body u _ h => yields_done h
    · exact ifStatement_isBody t
    · refine yields_past (.any fun _ u _ => .any fun condition v _ => .any fun _ w _ => ?_)
      exact (statement_isBody w).bind fun body x _ h => yields_done h
    · exact forStatement_isBody t
    · exact yields_past (.any fun value u _ => .any fun _ v _ => yields_done rfl)
    · exact expressionStatement_isBody stop s
termination_by (s.size, 0)

theorem ifStatement_isBody (s : Cursor) : (ifStatement stop s).Yields fun d => d.isBody := by
  rw [ifStatement]
  refine .any fun _ t _ => .any fun condition u _ => .any fun _ v _ =>
    (statement_isBody v).bind fun consequent w _ hc => ?_
  split
  · exact yields_done (Stmt.isBody_branch hc nofun)
  · next token x hx heq =>
    refine Yields.bind (statement_isBody x) fun alternative y _ ha =>
      yields_done (Stmt.isBody_branch hc ?_)
    rintro _ ⟨⟩
    exact ha
termination_by (s.size, 0)

theorem forStatement_isBody (s : Cursor) : (forStatement stop s).Yields fun d => d.isBody := by
  rw [forStatement]
  exact .any fun _ t _ => (loopInitializer_plain stop t).bind fun init u _ hi =>
    .any fun condition v _ => .any fun _ w _ => .any fun increment x _ => .any fun _ y _ =>
      (statement_isBody y).bind fun body z _ hb => yields_done (Stmt.isBody_forLoop hi hb)
termination_by (s.size, 0)

theorem block_plain (s : Cursor) : (block stop s).Yields fun ds => Stmt.arePlain ds := by
  rw [block]
  exact (declarations_plain s).bind fun body t _ h => .any fun _ u _ => yields_done h
termination_by (s.size, 3)

theorem declarations_plain (s : Cursor) :
    (declarations stop s).Yields fun ds => Stmt.arePlain ds := by
  rw [declarations]
  split
  · exact yields_done rfl
  · next hn =>
    exact Yields.bind (recover_yields (fun h => hn (.inl h)) (declaration_plain s))
      fun d t _ hd => (declarations_plain t).bind fun ds u _ hds =>
        yields_done (Stmt.arePlain_toList_append d hd hds)
termination_by (s.size, 2)

end

theorem program_plain (s : Cursor) : (program stop s).Yields fun p => Stmt.arePlain p := by
  rw [program]
  split
  · exact yields_done rfl
  · next hn =>
    exact Yields.bind (recover_yields hn (declaration_plain stop s)) fun d t _ hd =>
      (program_plain t).bind fun ds u _ hds => yields_done (Stmt.arePlain_toList_append d hd hds)
termination_by s.size

end Grammar

theorem arePlain_of_parse {tokens : List Token} {ids : IdSupply} {p : Program}
    (h : (parse tokens ids).1 = .ok p) : Stmt.arePlain p := by
  unfold parse at h
  dsimp only at h
  split at h
  · next q heq _ =>
    cases h
    exact Grammar.program_plain _ _ _ heq
  · cases h
  · cases h

end Lox
