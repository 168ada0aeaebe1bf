import Lox.Proofs.Numbering
import Lox.Proofs.Plain

/-! Ids ascend in assignments.
An assignment takes its id when its right side has been parsed, so the id is greater than all ids in
the right side (`ascending_of_parse`). -/
namespace Lox

mutual

def Expr.assignments : Expr → List (UseId × Expr)
  | .literal _ => []
  | .group inner => inner.assignments
  | .unary _ operand => operand.assignments
  | .binary left _ right => left.assignments ++ right.assignments
  | .logical left _ right => left.assignments ++ right.assignments
  | .use _ _ => []
  | .assign id _ value => value.assignments ++ [(id, value)]
  | .call callee args _ => callee.assignments ++ Expr.allAssignments args

def Expr.allAssignments : List Expr → List (UseId × Expr)
  | [] => []
  | e :: es => e.assignments ++ Expr.allAssignments es

end

mutual

def Stmt.assignments : Stmt → List (UseId × Expr)
  | .expression e => e.assignments
  | .print e => e.assignments
  | .var _ none => []
  | .var _ (some init) => init.assignments
  | .block body => Stmt.allAssignments body
  | .branch condition consequent none => condition.assignments ++ consequent.assignments
  | .branch condition consequent (some alternative) =>
    condition.assignments ++ (consequent.assignments ++ alternative.assignments)
  | .loop condition body => condition.assignments ++ body.assignments
  | .function _ _ body => Stmt.allAssignments body
  | .ret _ none => []
  | .ret _ (some value) => value.assignments

def Stmt.allAssignments : List Stmt → List (UseId × Expr)
  | [] => []
  | s :: ss => s.assignments ++ Stmt.allAssignments ss

end

def Program.assignments (p : Program) : List (UseId × Expr) := Stmt.allAssignments p

/-- Every assignment has a greater id than the uses in its right side. -/
def Ascending (assignments : List (UseId × Expr)) : Prop :=
  ∀ a ∈ assignments, ∀ id ∈ a.2.uses, id < a.1

theorem Ascending.append {as bs : List (UseId × Expr)} (ha : Ascending as) (hb : Ascending bs) :
    Ascending (as ++ bs) := List.forall_mem_append.2 ⟨ha, hb⟩

theorem ascending_nil : Ascending [] := nofun

namespace Cursor

variable {s t : Cursor} {ids : List UseId}

theorem Numbers.bounded (h : s.Numbers ids t) (hs : s.reach < UInt32.size) :
    t.reach < UInt32.size := Nat.lt_of_le_of_lt h.reach_le hs

theorem Numbers.handed_lt (h : s.Numbers ids t) (hs : s.reach < UInt32.size) :
    t.ids.handed < UInt32.size := Nat.lt_of_le_of_lt (Nat.le_add_right _ _) (h.bounded hs)

end Cursor

namespace Step

open Cursor

variable {α β : Type} {s t : Cursor} {j k : Nat} {uses : α → List UseId} {P : α → Prop}
  {Q : β → Prop}

theorem Yields.after {x : Step α t j} {f : α → (u : Cursor) → u.size + j ≤ t.size → Step β u k}
    (hx : x.Yields P) (hn : x.Ensures (s.NumbersUses uses))
    (hf : ∀ a u h, s.Numbers (uses a) u → P a → (f a u h).Yields Q) : (x.bind f).Yields Q := by
  obtain ⟨r, u, h, h'⟩ := x
  cases r with
  | error e => exact fun _ he => nomatch he
  | ok a => exact hf a u (h' a rfl) hn (hx a rfl)

theorem Yields.expect {stop : Token} {kind : Kind} {fault : SyntaxFault} {ids : List UseId}
    {f : Token → (u : Cursor) → u.size + 1 ≤ t.size → Step β u k} (hn : s.Numbers ids t)
    (hf : ∀ a u h, s.Numbers ids u → (f a u h).Yields Q) :
    ((Step.expect stop kind fault t).bind f).Yields Q :=
  Yields.after (P := fun _ => True) (fun _ _ => trivial) hn.expect fun a u h hn _ => hf a u h hn

end Step

namespace Grammar

open Cursor Step

theorem assignments_constant? {t : Token} {e : Expr} (h : constant? t = some e) :
    e.assignments = [] := by
  unfold constant? at h
  split at h <;> first | cases h; rfl | cases h

theorem ascending_node {l : Level} {left right : Expr} {op : Token}
    (hl : Ascending left.assignments) (hr : Ascending right.assignments) :
    Ascending (l.node left op right).assignments := by
  cases l <;> exact hl.append hr

variable (stop : Token)

mutual

theorem expression_ascending (s : Cursor) (hs : s.reach < UInt32.size) :
    (expression stop s).Yields fun e => Ascending e.assignments := by
  rw [expression]
  refine Yields.after (chain_ascending Level.all s hs) (chain_numbers stop Level.all s)
    fun left t _ hn hl => ?_
  split
  · exact yields_done hl
  · next equals t' ht heq =>
    have hb := (hn.take heq).bounded hs
    refine Yields.after (expression_ascending t' hb) (expression_numbers stop t')
      fun value u _ hvalue hv => ?_
    split
    · rintro _ ⟨⟩
      refine hv.append fun a ha id hid => ?_
      obtain rfl := List.mem_singleton.1 ha
      have hroom := hvalue.handed_lt hb
      rw [UInt32.lt_iff_toNat_lt, IdSupply.toNat_next hroom]
      exact (hvalue.range (Nat.le_of_lt hroom) id hid).2
    · rintro _ ⟨⟩
      exact hl
termination_by (s.size, Level.all.length + 4)

theorem chain_ascending (levels : List Level) (s : Cursor) (hs : s.reach < UInt32.size) :
    (chain stop levels s).Yields fun e => Ascending e.assignments := by
  match levels with
  | [] =>
    rw [chain]
    exact unary_ascending s hs
  | l :: tighter =>
    rw [chain]
    exact Yields.after (chain_ascending tighter s hs) (chain_numbers stop tighter s)
      fun left t _ hn hl => chainRest_ascending l tighter left t (hn.bounded hs) hl
termination_by (s.size, levels.length + 3)

theorem chainRest_ascending (l : Level) (tighter : List Level) (left : Expr) (s : Cursor)
    (hs : s.reach < UInt32.size) (hl : Ascending left.assignments) :
    (chainRest stop l tighter left s).Yields fun e => Ascending e.assignments := by
  rw [chainRest]
  split
  · exact yields_done hl
  · next op t ht heq =>
    have hb := ((Numbers.refl s).take heq).bounded hs
    exact Yields.after (chain_ascending tighter t hb) (chain_numbers stop tighter t)
      fun right u _ hn hr =>
        chainRest_ascending l tighter _ u (hn.bounded hb) (ascending_node hl hr)
termination_by (s.size, 0)

theorem unary_ascending (s : Cursor) (hs : s.reach < UInt32.size) :
    (unary stop s).Yields fun e => Ascending e.assignments := by
  rw [unary]
  split
  · exact call_ascending s hs
  · next op t ht heq =>
    have hb := ((Numbers.refl s).take heq).bounded hs
    exact Yields.bind (unary_ascending t hb) fun operand u _ h => yields_done h
termination_by (s.size, 2)

theorem call_ascending (s : Cursor) (hs : s.reach < UInt32.size) :
    (call stop s).Yields fun e => Ascending e.assignments := by
  rw [call]
  exact Yields.after (primary_ascending s hs) (primary_numbers stop s)
    fun callee t _ hn h => callRest_ascending callee t (hn.bounded hs) h
termination_by (s.size, 1)

theorem callRest_ascending (callee : Expr) (s : Cursor) (hs : s.reach < UInt32.size)
    (hc : Ascending callee.assignments) :
    (callRest stop callee s).Yields fun e => Ascending e.assignments := by
  rw [callRest]
  split
  · exact yields_done hc
  · next paren t ht heq =>
    have hb := ((Numbers.refl s).take heq).bounded hs
    refine Yields.after (arguments_ascending t hb) (arguments_numbers stop t)
      fun args u _ hn ha => Yields.expect hn fun paren v _ hn => ?_
    exact callRest_ascending (.call callee args paren) v (hn.bounded hb) (hc.append ha)
termination_by (s.size, 0)

theorem arguments_ascending (s : Cursor) (hs : s.reach < UInt32.size) :
    (arguments stop s).Yields fun es => Ascending (Expr.allAssignments es) := by
  rw [arguments]
  split
  · exact yields_done ascending_nil
  · exact argumentList_ascending 0 s hs
termination_by (s.size, Level.all.length + 6)

theorem argumentList_ascending (count : Nat) (s : Cursor) (hs : s.reach < UInt32.size) :
    (argumentList stop count s).Yields fun es => Ascending (Expr.allAssignments es) := by
  rw [argumentList]
  have hsize := size_checkArity stop count .tooManyArguments s
  have hb := ((Numbers.refl s).checkArity stop count .tooManyArguments).bounded hs
  refine Yields.after (expression_ascending _ hb) (expression_numbers stop _)
    fun a t _ hn ha => ?_
  split
  · exact yields_done (ha.append ascending_nil)
  · next comma u hu heq =>
    exact Yields.bind (argumentList_ascending (count + 1) u ((hn.take heq).bounded hb))
      fun as v _ has => yields_done (ha.append has)
termination_by (s.size, Level.all.length + 5)

theorem primary_ascending (s : Cursor) (hs : s.reach < UInt32.size) :
    (primary stop s).Yields fun e => Ascending e.assignments := by
  rw [primary]
  split
  · rintro _ ⟨⟩
  · next token t ht heq =>
    have hb := ((Numbers.refl s).take heq).bounded hs
    split
    · next e he =>
      refine yields_past (yields_done ?_)
      rw [assignments_constant? he]
      exact ascending_nil
    · split
      · rintro _ ⟨⟩
        exact ascending_nil
      · split
        · exact Yields.bind (expression_ascending t hb) fun inner u _ h =>
            .any fun _ v _ => yields_done h
        · rintro _ ⟨⟩
termination_by (s.size, 0)

end

def optionalAssignments (e : Option Expr) : List (UseId × Expr) := e.elim [] Expr.assignments

theorem ascending_forLoop {init : Option Stmt} {condition increment : Option Expr} {body : Stmt}
    (hi : Ascending (init.elim [] Stmt.assignments)) (hc : Ascending (optionalAssignments condition))
    (hincrement : Ascending (optionalAssignments increment)) (hb : Ascending body.assignments) :
    Ascending (Stmt.forLoop init condition increment body).assignments := by
  have heq : (Stmt.forLoop init condition increment body).assignments =
      init.elim [] Stmt.assignments ++
        (optionalAssignments condition ++ (body.assignments ++ optionalAssignments increment)) := by
    cases init <;> cases condition <;> cases increment <;>
      simp [Stmt.forLoop, optionalAssignments, Stmt.assignments, Stmt.allAssignments,
        Expr.assignments]
  rw [heq]
  exact hi.append (hc.append (hb.append hincrement))

theorem ascending_toList_append {d : Option Stmt} {ds : List Stmt}
    (hd : ∀ s ∈ d, Ascending s.assignments) (hds : Ascending (Stmt.allAssignments ds)) :
    Ascending (Stmt.allAssignments (d.toList ++ ds)) := by
  cases d with
  | none => exact hds
  | some s => exact (hd s rfl).append hds

theorem optionalExpression_ascending (absent : Kind) (s : Cursor) (hs : s.reach < UInt32.size) :
    (optionalExpression stop absent s).Yields fun e => Ascending (optionalAssignments e) := by
  unfold optionalExpression
  split
  · exact yields_done ascending_nil
  · exact Yields.bind (expression_ascending stop s hs) fun e t _ h => yields_done h

theorem variableDeclaration_ascending (s : Cursor) (hs : s.reach < UInt32.size) :
    (variableDeclaration stop s).Yields fun d => Ascending d.assignments := by
  unfold variableDeclaration
  refine Yields.expect (.refl s) fun name t _ hn => ?_
  split
  · exact .any fun _ u _ => yields_done ascending_nil
  · next equals t' ht heq =>
    exact Yields.bind (expression_ascending stop t' ((hn.take heq).bounded hs)) fun init u _ h =>
      .any fun _ v _ => yields_done h

theorem expressionStatement_ascending (s : Cursor) (hs : s.reach < UInt32.size) :
    (expressionStatement stop s).Yields fun d => Ascending d.assignments :=
  (expression_ascending stop s hs).bind fun _ _ _ h => .any fun _ _ _ => yields_done h

theorem loopInitializer_ascending (s : Cursor) (hs : s.reach < UInt32.size) :
    (loopInitializer stop s).Yields fun i => Ascending (i.elim [] Stmt.assignments) := by
  unfold loopInitializer
  split
  · exact yields_past (yields_done ascending_nil)
  · split
    · next token t ht heq =>
      have hb := ((Numbers.refl s).take heq).bounded hs
      exact Yields.bind (variableDeclaration_ascending stop t hb) fun d u _ h => yields_done h
    · exact (expressionStatement_ascending stop s hs).bind fun d t _ h => yields_done h

mutual

theorem declaration_ascending (s : Cursor) (hs : s.reach < UInt32.size) :
    (declaration stop s).Yields fun d => Ascending d.assignments := by
  rw [declaration]
  split
  · next token t ht heq =>
    exact variableDeclaration_ascending stop t (((Numbers.refl s).take heq).bounded hs)
  · split
    · next token t ht heq =>
      exact functionDeclaration_ascending t (((Numbers.refl s).take heq).bounded hs)
    · exact statement_ascending s hs
termination_by (s.size, 1)

theorem functionDeclaration_ascending (s : Cursor) (hs : s.reach < UInt32.size) :
    (functionDeclaration stop s).Yields fun d => Ascending d.assignments := by
  rw [functionDeclaration]
  refine Yields.expect (.refl s) fun name t _ hn => Yields.expect hn fun _ u _ hn => ?_
  refine Yields.after (P := fun _ => True) (fun _ _ => trivial) (parameters_numbers stop hn)
    fun params v _ hn _ => Yields.expect hn fun _ w _ hn => Yields.expect hn fun _ x _ hn => ?_
  exact Yields.bind (block_ascending x (hn.bounded hs)) fun body y _ h => yields_done h
termination_by (s.size, 0)

theorem statement_ascending (s : Cursor) (hs : s.reach < UInt32.size) :
    (statement stop s).Yields fun d => Ascending d.assignments := by
  rw [statement]
  split
  · exact expressionStatement_ascending stop s hs
  · next token t ht heq =>
    have hn := (Numbers.refl s).take heq
    have hb := hn.bounded hs
    split
    · exact Yields.bind (expression_ascending stop t hb) fun e u _ h =>
        .any fun _ v _ => yields_done h
    · exact Yields.bind (block_ascending t hb) fun body u _ h => yields_done h
    · exact ifStatement_ascending t hb
    · refine Yields.expect hn fun _ u _ hn => ?_
      have hu := hn.bounded hs
      refine Yields.after (expression_ascending stop u hu) (expression_numbers stop u)
        fun condition v _ hn hc => Yields.expect hn fun _ w _ hn => ?_
      exact Yields.bind (statement_ascending w (hn.bounded hu)) fun body x _ h =>
        yields_done (hc.append h)
    · exact forStatement_ascending t hb
    · refine Yields.bind (optionalExpression_ascending stop .semicolon t hb) fun value u _ h =>
        .any fun _ v _ => yields_done ?_
      cases value with
      | none => exact ascending_nil
      | some e => exact h
    · exact expressionStatement_ascending stop s hs
termination_by (s.size, 0)

theorem ifStatement_ascending (s : Cursor) (hs : s.reach < UInt32.size) :
    (ifStatement stop s).Yields fun d => Ascending d.assignments := by
  rw [ifStatement]
  refine Yields.expect (.refl s) fun _ t _ hn => ?_
  have ht := hn.bounded hs
  refine Yields.after (expression_ascending stop t ht) (expression_numbers stop t)
    fun condition u _ hn hc => Yields.expect hn fun _ v _ hn => ?_
  have hv := hn.bounded ht
  refine Yields.after (statement_ascending v hv) (statement_numbers stop v)
    fun consequent w _ hn hs => ?_
  split
  · exact yields_done (hc.append hs)
  · next token x hx heq =>
    exact Yields.bind (statement_ascending x ((hn.take heq).bounded hv)) fun alternative y _ ha =>
      yields_done (hc.append (hs.append ha))
termination_by (s.size, 0)

theorem forStatement_ascending (s : Cursor) (hs : s.reach < UInt32.size) :
    (forStatement stop s).Yields fun d => Ascending d.assignments := by
  rw [forStatement]
  refine Yields.expect (.refl s) fun _ t _ hn => ?_
  have ht := hn.bounded hs
  refine Yields.after (loopInitializer_ascending stop t ht) (loopInitializer_numbers stop t)
    fun init u _ hn hi => ?_
  have hu := hn.bounded ht
  refine Yields.after (optionalExpression_ascending stop .semicolon u hu)
    (optionalExpression_numbers stop .semicolon u) fun condition v _ hn hc =>
      Yields.expect hn fun _ w _ hn => ?_
  have hw := hn.bounded hu
  refine Yields.after (optionalExpression_ascending stop .rightParen w hw)
    (optionalExpression_numbers stop .rightParen w) fun increment x _ hn hincrement =>
      Yields.expect hn fun _ y _ hn => ?_
  exact Yields.bind (statement_ascending y (hn.bounded hw)) fun body z _ hb =>
    yields_done (ascending_forLoop hi hc hincrement hb)
termination_by (s.size, 0)

theorem block_ascending (s : Cursor) (hs : s.reach < UInt32.size) :
    (block stop s).Yields fun ds => Ascending (Stmt.allAssignments ds) := by
  rw [block]
  exact (declarations_ascending s hs).bind fun body t _ h => .any fun _ u _ => yields_done h
termination_by (s.size, 3)

theorem declarations_ascending (s : Cursor) (hs : s.reach < UInt32.size) :
    (declarations stop s).Yields fun ds => Ascending (Stmt.allAssignments ds) := by
  rw [declarations]
  split
  · exact yields_done ascending_nil
  · next hn =>
    have hne : s.rest ≠ [] := fun h => hn (.inl h)
    exact Yields.after (recover_yields hne (declaration_ascending s hs))
      (recover_numbers hne (declaration_numbers stop s)) fun d t _ hn hd =>
        (declarations_ascending t (hn.bounded hs)).bind fun ds u _ hds =>
          yields_done (ascending_toList_append hd hds)
termination_by (s.size, 2)

end

theorem program_ascending (s : Cursor) (hs : s.reach < UInt32.size) :
    (program stop s).Yields fun p => Ascending p.assignments := by
  rw [program]
  split
  · exact yields_done ascending_nil
  · next hne =>
    exact Yields.after (recover_yields hne (declaration_ascending stop s hs))
      (recover_numbers hne (declaration_numbers stop s)) fun d t _ hn hd =>
        (program_ascending t (hn.bounded hs)).bind fun ds u _ hds =>
          yields_done (ascending_toList_append hd hds)
termination_by s.size

end Grammar

/-- In a program that is parsed, every assignment has a greater id than the uses in its right side. -/
theorem ascending_of_parse {tokens : List Token} {ids : IdSupply} {p : Program}
    (hb : ids.handed + demand tokens < UInt32.size) (h : (parse tokens ids).1 = .ok p) :
    Ascending p.assignments := by
  have hd : demand (tokens.takeWhile (·.kind ≠ .eof)) ≤ demand tokens :=
    List.Sublist.countP_le (List.takeWhile_sublist _)
  unfold parse at h
  dsimp only at h
  split at h
  · next q heq _ =>
    cases h
    exact Grammar.program_ascending _ _ (Nat.lt_of_le_of_lt (Nat.add_le_add_left hd _) hb) _ heq
  · cases h
  · cases h

end Lox
