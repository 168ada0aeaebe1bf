import Lox.Proofs.Settled
import Lox.Proofs.Steps

/-! How parsing numbers the uses of names.
Parsing hands out ids in ascending order, so that the uses in a session are told apart by their ids
until all ids have been handed out (`program_numbers`). Only an identifier or a `=` can need one. -/
namespace Lox

/-- Whether parsing may need an id for a token. -/
def Token.needsId (t : Token) : Bool := t.kind = .identifier || t.kind = .equal

theorem Token.needsId_of_identifier {t : Token} (h : t.kind = .identifier) : t.needsId := by
  simp [needsId, h]

theorem Token.needsId_of_equal {t : Token} (h : t.kind = .equal) : t.needsId := by
  simp [needsId, h]

/-- The ids that parsing tokens needs at most. -/
def demand (ts : List Token) : Nat := ts.countP Token.needsId

theorem demand_append (ts us : List Token) : demand (ts ++ us) = demand ts + demand us :=
  List.countP_append

namespace Cursor

/-- Parsing from here on hands out no more than so many ids in all. -/
def reach (s : Cursor) : Nat := s.ids.handed + demand s.rest

/-- On the way from one position to another, these ids are handed out, and perhaps more. They are told
apart if there are as many ids. -/
structure Numbers (s : Cursor) (ids : List UseId) (t : Cursor) : Prop where
  reach_le : t.reach ≤ s.reach
  handed_le : s.ids.handed ≤ t.ids.handed
  range : t.ids.handed ≤ UInt32.size →
    ∀ id ∈ ids, s.ids.handed ≤ id.toNat ∧ id.toNat < t.ids.handed
  nodup : t.ids.handed ≤ UInt32.size → ids.Nodup

variable {s t u : Cursor} {ids ids' : List UseId}

theorem Numbers.refl (s : Cursor) : s.Numbers [] s :=
  ⟨Nat.le_refl _, Nat.le_refl _, fun _ => List.forall_mem_nil _, fun _ => .nil⟩

theorem Numbers.trans (h : s.Numbers ids t) (h' : t.Numbers ids' u) :
    s.Numbers (ids ++ ids') u where
  reach_le := Nat.le_trans h'.reach_le h.reach_le
  handed_le := Nat.le_trans h.handed_le h'.handed_le
  range hu id hid := by
    have hs := h.handed_le
    have ht := h'.handed_le
    rcases List.mem_append.1 hid with hid | hid
    · have := h.range (Nat.le_trans ht hu) id hid
      omega
    · have := h'.range hu id hid
      omega
  nodup hu := by
    have ht := Nat.le_trans h'.handed_le hu
    refine List.nodup_append.2 ⟨h.nodup ht, h'.nodup hu, fun a ha b hb hab => ?_⟩
    have := (h.range ht a ha).2
    have := (h'.range hu b hb).1
    subst hab
    omega

theorem Numbers.forget (h : s.Numbers ids t) : s.Numbers [] t :=
  { h with range := fun _ => List.forall_mem_nil _, nodup := fun _ => .nil }

theorem Numbers.perm (h : s.Numbers ids t) (hp : ids.Perm ids') : s.Numbers ids' t :=
  { h with
    range := fun ht id hid => h.range ht id (hp.mem_iff.2 hid)
    nodup := fun ht => hp.nodup_iff.1 (h.nodup ht) }

theorem demand_cons (token : Token) (ts : List Token) :
    demand (token :: ts) = demand ts + if token.needsId then 1 else 0 := by
  simp [demand, List.countP_cons]

theorem Numbers.skip (h : s.Numbers ids t) {token : Token} {ts : List Token}
    (ht : t.rest = token :: ts) : s.Numbers ids { t with rest := ts } where
  reach_le := by
    refine Nat.le_trans ?_ h.reach_le
    simp only [reach, ht, demand_cons]
    omega
  handed_le := h.handed_le
  range := h.range
  nodup := h.nodup

theorem Numbers.take (h : s.Numbers ids t) {p : Kind → Bool} {token : Token}
    {hu : u.size + 1 ≤ t.size} (ht : t.take? p = some ⟨token, u, hu⟩) : s.Numbers ids u := by
  obtain ⟨hr, -, heq⟩ := take?_eq_some ht
  rw [heq]
  exact h.skip hr

/-- Handing out one more id for a token that has been passed. -/
theorem Numbers.number (h : t.Numbers ids u) {token : Token}
    (hs : s.rest = token :: t.rest) (hids : t.ids = s.ids) (htoken : token.needsId) :
    s.Numbers (ids ++ [u.ids.next]) { u with ids := u.ids.take.2 } := by
  have hr := h.reach_le
  have hn := h.handed_le
  have hnext : u.ids.take.2.handed = u.ids.handed + 1 := rfl
  refine ⟨?_, ?_, fun hb id hid => ?_, fun hb => ?_⟩
  · simp only [reach, hnext, hs, demand_cons, htoken, if_true, hids] at hr ⊢
    omega
  · rw [← hids, hnext]
    omega
  · simp only [hnext, ← hids] at hb ⊢
    rcases List.mem_append.1 hid with hid | hid
    · have := h.range (Nat.le_of_succ_le hb) id hid
      omega
    · rw [List.mem_singleton.1 hid, IdSupply.toNat_next hb]
      omega
  · simp only [hnext] at hb
    refine List.nodup_append.2 ⟨h.nodup (Nat.le_of_succ_le hb), by simp, fun a ha b hb' hab => ?_⟩
    have := (h.range (Nat.le_of_succ_le hb) a ha).2
    rw [hab, List.mem_singleton.1 hb', IdSupply.toNat_next hb] at this
    omega

theorem demand_synchronize_le (ts : List Token) : demand (Grammar.synchronize ts) ≤ demand ts := by
  induction ts with
  | nil => exact Nat.le_refl _
  | cons t ts ih =>
    have h : demand ts ≤ demand (t :: ts) := by
      rw [demand_cons]
      exact Nat.le_add_right _ _
    unfold Grammar.synchronize
    split
    · exact h
    · exact Nat.le_trans ih h

variable {α β : Type}

def NumbersUses (s : Cursor) (uses : α → List UseId) : Except SyntaxError α → Cursor → Prop
  | .ok a, t => s.Numbers (uses a) t
  | .error _, t => s.Numbers [] t

/-- What a step numbers comes after what has been numbered before. -/
theorem Numbers.go (h : s.Numbers ids t) {k : Nat} {x : Step α t k} {uses : α → List UseId}
    (hx : x.Ensures (t.NumbersUses uses)) : x.Ensures (s.NumbersUses fun a => ids ++ uses a) := by
  refine hx.mono fun r u hr => ?_
  cases r with
  | ok a => exact h.trans hr
  | error e => exact (h.trans hr).forget

theorem Numbers.expect (h : s.Numbers ids t) {stop : Token} {kind : Kind} {fault : SyntaxFault} :
    (Step.expect stop kind fault t).Ensures (s.NumbersUses fun _ => ids) :=
  .expect (fun _ => h.forget) fun _ _ hr _ => h.skip hr

theorem Numbers.checkArity (h : s.Numbers ids t) (stop : Token) (count : Nat) (fault : SyntaxFault) :
    s.Numbers ids (Grammar.checkArity stop count fault t) := by
  unfold Grammar.checkArity
  split
  · exact { h with }
  · exact h

end Cursor

namespace Step

open Cursor

variable {α β : Type} {s t : Cursor} {j k : Nat} {uses : α → List UseId} {uses' : β → List UseId}

theorem Ensures.andThen {x : Step α t j} {f : α → (u : Cursor) → u.size + j ≤ t.size → Step β u k}
    (hx : x.Ensures (s.NumbersUses uses))
    (hf : ∀ a u h, s.Numbers (uses a) u → (f a u h).Ensures (s.NumbersUses uses')) :
    (x.bind f).Ensures (s.NumbersUses uses') :=
  hx.bind (fun _ _ h => h) hf

end Step

namespace Grammar

open Cursor

theorem uses_constant? {t : Token} {e : Expr} (h : constant? t = some e) : e.uses = [] := by
  unfold constant? at h
  split at h <;> first | cases h; rfl | cases h

theorem Level.uses_node (l : Level) (left : Expr) (op : Token) (right : Expr) :
    (l.node left op right).uses = left.uses ++ right.uses := by
  cases l <;> rfl

variable (stop : Token)

mutual

theorem expression_numbers (s : Cursor) :
    (expression stop s).Ensures (s.NumbersUses Expr.uses) := by
  rw [expression]
  refine (chain_numbers Level.all s).andThen fun left t _ hl => ?_
  split
  · exact hl
  · next equals t' ht heq =>
    obtain ⟨hr, hk, hids⟩ := take?_eq_some heq
    refine Step.Ensures.bind (expression_numbers t')
      (fun _ _ h => ((hl.take heq).trans h).forget) fun value u _ h => ?_
    split
    · have h' := h.number hr (by rw [hids]) (Token.needsId_of_equal (of_decide_eq_true hk))
      exact hl.forget.trans h'
    · have h' := (hl.take heq).trans h.forget
      rw [List.append_nil] at h'
      exact { h' with }
termination_by (s.size, Level.all.length + 4)

theorem chain_numbers (levels : List Level) (s : Cursor) :
    (chain stop levels s).Ensures (s.NumbersUses Expr.uses) := by
  match levels with
  | [] =>
    rw [chain]
    exact unary_numbers s
  | l :: tighter =>
    rw [chain]
    exact (chain_numbers tighter s).andThen fun left t _ h =>
      chainRest_numbers l tighter left s t h
termination_by (s.size, levels.length + 3)

theorem chainRest_numbers (l : Level) (tighter : List Level) (left : Expr) (s₀ s : Cursor)
    (h : s₀.Numbers left.uses s) :
    (chainRest stop l tighter left s).Ensures (s₀.NumbersUses Expr.uses) := by
  rw [chainRest]
  split
  · exact h
  · next op t ht heq =>
    refine Step.Ensures.andThen ((h.take heq).go (chain_numbers tighter t)) fun right u _ h' => ?_
    rw [← l.uses_node left op] at h'
    exact chainRest_numbers l tighter _ s₀ u h'
termination_by (s.size, 0)

theorem unary_numbers (s : Cursor) :
    (unary stop s).Ensures (s.NumbersUses Expr.uses) := by
  rw [unary]
  split
  · exact call_numbers s
  · next op t ht heq =>
    exact Step.Ensures.andThen (((Numbers.refl s).take heq).go (unary_numbers t))
      fun operand u _ h => h
termination_by (s.size, 2)

theorem call_numbers (s : Cursor) :
    (call stop s).Ensures (s.NumbersUses Expr.uses) := by
  rw [call]
  exact (primary_numbers s).andThen fun callee t _ h => callRest_numbers callee s t h
termination_by (s.size, 1)

theorem callRest_numbers (callee : Expr) (s₀ s : Cursor) (h : s₀.Numbers callee.uses s)
    : (callRest stop callee s).Ensures (s₀.NumbersUses Expr.uses) := by
  rw [callRest]
  split
  · exact h
  · next paren t ht heq =>
    refine Step.Ensures.andThen ((h.take heq).go (arguments_numbers t)) fun args u _ h => ?_
    exact h.expect.andThen fun paren v _ h =>
      callRest_numbers (.call callee args paren) s₀ v h
termination_by (s.size, 0)

theorem arguments_numbers (s : Cursor) :
    (arguments stop s).Ensures (s.NumbersUses Expr.usesAll) := by
  rw [arguments]
  split
  · exact Numbers.refl s
  · exact argumentList_numbers 0 s
termination_by (s.size, Level.all.length + 6)

theorem argumentList_numbers (count : Nat) (s : Cursor) :
    (argumentList stop count s).Ensures (s.NumbersUses Expr.usesAll) := by
  rw [argumentList]
  have h := (Numbers.refl s).checkArity stop count .tooManyArguments
  have hsize := size_checkArity stop count .tooManyArguments s
  refine Step.Ensures.andThen (h.go (expression_numbers _)) fun a t _ h => ?_
  split
  · rw [← List.append_nil a.uses] at h
    exact h
  · next comma u hu heq =>
    exact Step.Ensures.andThen ((h.take heq).go (argumentList_numbers (count + 1) u))
      fun as v _ h => h
termination_by (s.size, Level.all.length + 5)

theorem primary_numbers (s : Cursor) :
    (primary stop s).Ensures (s.NumbersUses Expr.uses) := by
  rw [primary]
  split
  · exact Numbers.refl s
  · next token t ht heq =>
    obtain ⟨hr, hk, hids⟩ := take?_eq_some heq
    have h := (Numbers.refl s).take heq
    split
    · next e he =>
      rw [← uses_constant? he] at h
      exact h
    · split
      · next hi =>
        exact (Numbers.refl t).number hr (by rw [hids]) (Token.needsId_of_identifier hi)
      · split
        · refine Step.Ensures.andThen (h.go (expression_numbers t)) fun inner u _ h => ?_
          exact h.expect.andThen fun _ v _ h => h
        · exact Numbers.refl s
termination_by (s.size, 0)

end

def optionalUses (e : Option Expr) : List UseId := e.elim [] Expr.uses

theorem uses_ret (keyword : Token) (value : Option Expr) :
    (Stmt.ret keyword value).uses = optionalUses value := by
  cases value <;> rfl

theorem usesAll_toList_append (d : Option Stmt) (ds : List Stmt) :
    Stmt.usesAll (d.toList ++ ds) = d.elim [] Stmt.uses ++ Stmt.usesAll ds := by
  cases d <;> rfl

theorem uses_forLoop (init : Option Stmt) (condition increment : Option Expr) (body : Stmt) :
    (Stmt.forLoop init condition increment body).uses = init.elim [] Stmt.uses ++
      (optionalUses condition ++ (body.uses ++ optionalUses increment)) := by
  cases init <;> cases condition <;> cases increment <;>
    simp [Stmt.forLoop, optionalUses, Stmt.uses, Stmt.usesAll, Expr.uses]

theorem recover_numbers {α : Type} {uses : α → List UseId} {s : Cursor} (hs : s.rest ≠ [])
    {x : Step α s 1} (hx : x.Ensures (s.NumbersUses uses)) :
    (recover hs x).Ensures (s.NumbersUses fun d => d.elim [] uses) := by
  obtain ⟨r, t, ht, h⟩ := x
  cases r with
  | ok a => exact hx
  | error e =>
    refine { hx with reach_le := Nat.le_trans ?_ hx.reach_le }
    exact Nat.add_le_add_left (demand_synchronize_le t.rest) _

theorem optionalExpression_numbers (absent : Kind) (s : Cursor) :
    (optionalExpression stop absent s).Ensures (s.NumbersUses optionalUses) := by
  unfold optionalExpression
  split
  · exact Numbers.refl s
  · exact (expression_numbers stop s).andThen fun e t _ h => h

theorem variableDeclaration_numbers (s : Cursor) :
    (variableDeclaration stop s).Ensures (s.NumbersUses Stmt.uses) := by
  unfold variableDeclaration
  refine (Numbers.refl s).expect.andThen fun name t _ h => ?_
  split
  · exact h.expect.andThen fun _ u _ h => h
  · next equals t' ht heq =>
    refine Step.Ensures.andThen ((h.take heq).go (expression_numbers stop t'))
      fun init u _ h => ?_
    exact h.expect.andThen fun _ v _ h => h

theorem expressionStatement_numbers (s : Cursor) :
    (expressionStatement stop s).Ensures (s.NumbersUses Stmt.uses) :=
  (expression_numbers stop s).andThen fun _ _ _ h => h.expect.andThen fun _ _ _ h => h

theorem loopInitializer_numbers (s : Cursor) :
    (loopInitializer stop s).Ensures (s.NumbersUses fun i => i.elim [] Stmt.uses) := by
  unfold loopInitializer
  split
  · next token t ht heq => exact (Numbers.refl s).take heq
  · split
    · next token t ht heq =>
      exact Step.Ensures.andThen
        (((Numbers.refl s).take heq).go (variableDeclaration_numbers stop t)) fun _ _ _ h => h
    · exact (expressionStatement_numbers stop s).andThen fun _ _ _ h => h

theorem parameterList_numbers (count : Nat) (s₀ s : Cursor) {ids : List UseId}
    (h : s₀.Numbers ids s) :
    (parameterList stop count s).Ensures (s₀.NumbersUses fun _ => ids) := by
  rw [parameterList]
  have hsize := size_checkArity stop count .tooManyParameters s
  refine Step.Ensures.andThen (h.checkArity stop count .tooManyParameters).expect
    fun name t _ h => ?_
  split
  · exact h
  · next comma u hu heq =>
    exact Step.Ensures.andThen (parameterList_numbers (count + 1) s₀ u (h.take heq))
      fun _ _ _ h => h
termination_by s.size

theorem parameters_numbers {s₀ s : Cursor} {ids : List UseId} (h : s₀.Numbers ids s) :
    (parameters stop s).Ensures (s₀.NumbersUses fun _ => ids) := by
  unfold parameters
  split
  · exact h
  · exact parameterList_numbers stop 0 s₀ s h

mutual

theorem declaration_numbers (s : Cursor) :
    (declaration stop s).Ensures (s.NumbersUses Stmt.uses) := by
  rw [declaration]
  split
  · next token t ht heq =>
    exact ((Numbers.refl s).take heq).go (variableDeclaration_numbers stop t)
  · split
    · next token t ht heq => exact ((Numbers.refl s).take heq).go (functionDeclaration_numbers t)
    · exact statement_numbers s
termination_by (s.size, 1)

theorem functionDeclaration_numbers (s : Cursor) :
    (functionDeclaration stop s).Ensures (s.NumbersUses Stmt.uses) := by
  rw [functionDeclaration]
  refine (Numbers.refl s).expect.andThen fun name t _ h => ?_
  refine h.expect.andThen fun _ u _ h => ?_
  refine (parameters_numbers stop h).andThen fun params v _ h => ?_
  refine h.expect.andThen fun _ w _ h => ?_
  refine h.expect.andThen fun _ x _ h => ?_
  exact (h.go (block_numbers x)).andThen fun _ _ _ h => h
termination_by (s.size, 0)

theorem statement_numbers (s : Cursor) :
    (statement stop s).Ensures (s.NumbersUses Stmt.uses) := by
  rw [statement]
  split
  · exact expressionStatement_numbers stop s
  · next token t ht heq =>
    have h := (Numbers.refl s).take heq
    split
    · refine Step.Ensures.andThen (h.go (expression_numbers stop t)) fun e u _ h => ?_
      exact h.expect.andThen fun _ _ _ h => h
    · exact Step.Ensures.andThen (h.go (block_numbers t)) fun _ _ _ h => h
    · exact h.go (ifStatement_numbers t)
    · refine Step.Ensures.andThen h.expect fun _ u _ h => ?_
      refine (h.go (expression_numbers stop u)).andThen fun condition v _ h => ?_
      refine h.expect.andThen fun _ w _ h => ?_
      exact (h.go (statement_numbers w)).andThen fun _ _ _ h => h
    · exact h.go (forStatement_numbers t)
    · refine Step.Ensures.andThen (h.go (optionalExpression_numbers stop .semicolon t))
        fun value u _ h => ?_
      refine h.expect.andThen fun _ v _ h => ?_
      rw [List.nil_append, ← uses_ret token] at h
      exact h
    · exact expressionStatement_numbers stop s
termination_by (s.size, 0)

theorem ifStatement_numbers (s : Cursor) :
    (ifStatement stop s).Ensures (s.NumbersUses Stmt.uses) := by
  rw [ifStatement]
  refine (Numbers.refl s).expect.andThen fun _ t _ h => ?_
  refine (h.go (expression_numbers stop t)).andThen fun condition u _ h => ?_
  refine h.expect.andThen fun _ v _ h => ?_
  refine (h.go (statement_numbers v)).andThen fun consequent w _ h => ?_
  split
  · exact h
  · next token x hx heq =>
    refine Step.Ensures.andThen ((h.take heq).go (statement_numbers x))
      fun alternative y _ h => ?_
    rw [List.nil_append, List.append_assoc] at h
    exact h
termination_by (s.size, 0)

theorem forStatement_numbers (s : Cursor) :
    (forStatement stop s).Ensures (s.NumbersUses Stmt.uses) := by
  rw [forStatement]
  refine (Numbers.refl s).expect.andThen fun _ t _ h => ?_
  refine (h.go (loopInitializer_numbers stop t)).andThen fun init u _ h => ?_
  refine (h.go (optionalExpression_numbers stop .semicolon u)).andThen
    fun condition v _ h => ?_
  refine h.expect.andThen fun _ w _ h => ?_
  refine (h.go (optionalExpression_numbers stop .rightParen w)).andThen
    fun increment x _ h => ?_
  refine h.expect.andThen fun _ y _ h => ?_
  refine (h.go (statement_numbers y)).andThen fun body z _ h => ?_
  -- The increment is read before the body, and executed after it.
  refine h.perm ?_
  rw [uses_forLoop, List.nil_append, List.append_assoc, List.append_assoc]
  exact .append_left _ (.append_left _ List.perm_append_comm)
termination_by (s.size, 0)

theorem block_numbers (s : Cursor) :
    (block stop s).Ensures (s.NumbersUses Stmt.usesAll) := by
  rw [block]
  exact (declarations_numbers s).andThen fun body t _ h => h.expect.andThen fun _ _ _ h => h
termination_by (s.size, 3)

theorem declarations_numbers (s : Cursor) :
    (declarations stop s).Ensures (s.NumbersUses Stmt.usesAll) := by
  rw [declarations]
  split
  · exact Numbers.refl s
  · next hn =>
    refine Step.Ensures.andThen
      (recover_numbers (fun h => hn (.inl h)) (declaration_numbers s)) fun d t _ h => ?_
    refine (h.go (declarations_numbers t)).andThen fun ds u _ h => ?_
    rw [← usesAll_toList_append] at h
    exact h
termination_by (s.size, 2)

end

theorem program_numbers (s : Cursor) :
    (program stop s).Ensures (s.NumbersUses Program.uses) := by
  rw [program]
  split
  · exact Numbers.refl s
  · next hn =>
    refine Step.Ensures.andThen (recover_numbers hn (declaration_numbers stop s))
      fun d t _ h => ?_
    refine (h.go (program_numbers t)).andThen fun ds u _ h => ?_
    rw [Program.uses, ← usesAll_toList_append] at h
    exact h
termination_by s.size

end Grammar

def Handed (ids : IdSupply) (id : UseId) : Prop := id.toNat < ids.handed

/-- Parsing hands out at most as many ids as are demanded, and as long as there are ids, those in a
program lie between the supplies before and after it. -/
theorem numbers_of_parse (tokens : List Token) (ids : IdSupply) :
    (parse tokens ids).2.handed ≤ ids.handed + demand tokens ∧
      ids.handed ≤ (parse tokens ids).2.handed ∧
      ((parse tokens ids).2.handed ≤ UInt32.size → ∀ p, (parse tokens ids).1 = .ok p →
        p.uses.Nodup ∧ ∀ id ∈ p.uses,
          ids.handed ≤ id.toNat ∧ id.toNat < (parse tokens ids).2.handed) := by
  have hd : demand (tokens.takeWhile (·.kind ≠ .eof)) ≤ demand tokens :=
    List.Sublist.countP_le (List.takeWhile_sublist _)
  have h := Grammar.program_numbers
    ((tokens.find? (·.kind = .eof)).getD (.atEnd ((tokens.getLast?.map Token.line).getD 1)))
    ⟨tokens.takeWhile (·.kind ≠ .eof), ids, []⟩
  unfold parse
  dsimp only at h ⊢
  generalize Grammar.program _ _ = step at h ⊢
  obtain ⟨r, t, _, _⟩ := step
  have hle (h : t.reach ≤ ids.handed + demand (tokens.takeWhile (·.kind ≠ .eof))) :
      t.ids.handed ≤ ids.handed + demand tokens :=
    Nat.le_trans (Nat.le_trans (Nat.le_add_right _ _) h) (Nat.add_le_add_left hd _)
  cases r with
  | error e => exact ⟨hle h.reach_le, h.handed_le, fun _ => nofun⟩
  | ok q =>
    refine ⟨hle h.reach_le, h.handed_le, fun ht p hp => ?_⟩
    dsimp only at hp
    split at hp
    · next heq _ =>
      cases heq
      cases hp
      exact ⟨h.nodup ht, h.range ht⟩
    · cases hp
    · cases hp

end Lox
