import Lox.Proofs.Growth
import Lox.Session

/-! What runs print.
A run adds to the text that the sink has received, and takes nothing back (`runProgram_appends`). -/
namespace Lox

namespace Sink

structure Extends (k k' : Sink) : Prop where
  full : k'.full = k.full
  text : ∃ text, k'.text = k.text ++ text

variable {k k' k'' : Sink}

theorem Extends.refl (k : Sink) : k.Extends k := ⟨rfl, "", String.append_empty.symm⟩

theorem Extends.trans (h : k.Extends k') (h' : k'.Extends k'') : k.Extends k'' := by
  obtain ⟨hfull, text, htext⟩ := h
  obtain ⟨hfull', text', htext'⟩ := h'
  exact ⟨hfull'.trans hfull, text ++ text', by rw [htext', htext, String.append_assoc]⟩

theorem extends_receive (k : Sink) (text : String) : k.Extends (k.receive text) := ⟨rfl, text, rfl⟩

theorem since_eq {text : String} (h : k'.text = k.text ++ text) : k'.since k = text := by
  unfold since
  rw [h, String.toList_append, ← String.length_toList, List.drop_left, String.ofList_toList]

/-- What is received in two parts is received in all. -/
theorem Extends.since_append (h : k.Extends k') (h' : k'.Extends k'') :
    k''.since k = k'.since k ++ k''.since k' := by
  obtain ⟨-, text, htext⟩ := h
  obtain ⟨-, text', htext'⟩ := h'
  have hboth : k''.text = k.text ++ (text ++ text') := by rw [htext', htext, String.append_assoc]
  rw [since_eq htext, since_eq htext', since_eq hboth]

end Sink

namespace Run

variable {α β : Type}

/-- What is printed is added to what the sink has received. -/
abbrev Appends (x : Run α) : Prop := x.Keeps fun s t => s.sink.Extends t.sink

theorem Appends.of_sink_eq {x : Run α} (h : ∀ s, (x s).state.sink = s.sink) : x.Appends := by
  intro s
  show s.sink.Extends (x s).state.sink
  rw [h s]
  exact .refl s.sink

theorem Appends.pure (a : α) : Appends (Pure.pure a) := .of_sink_eq fun _ => rfl

theorem Appends.ofExcept (x : Except RuntimeError α) : Appends (.ofExcept x) := .of_sink_eq fun s => by
  cases x <;> rfl

theorem Appends.bind {x : Run α} {f : α → Run β} (hx : x.Appends) (hf : ∀ a, (f a).Appends) :
    (x >>= f).Appends := Computation.Keeps.bind (fun _ _ _ h h' => h.trans h') hx hf

theorem appends_write (text : String) : (write text).Appends := by
  intro s
  unfold write
  split
  · exact .refl _
  · exact s.sink.extends_receive text

theorem appends_ticking (f : Nat → Except RuntimeError (α × Nat)) : (ticking f).Appends :=
  .of_sink_eq fun s => by
    unfold ticking
    split <;> rfl

theorem appends_read (e : EnvironmentId) (depth : Nat) (name : Token) : (read e depth name).Appends :=
  .of_sink_eq fun s => by
    unfold read
    split <;> rfl

theorem appends_assign (e : EnvironmentId) (depth : Nat) (name : Token) (v : Value) :
    (assign e depth name v).Appends :=
  .of_sink_eq fun s => by
    unfold assign
    split <;> rfl

end Run

section

variable {σ : Setting} {call : Caller} {rounds : Nat}

mutual

theorem evaluate_appends (hcall : ∀ f args line, (call f args line).Appends) (env : EnvironmentId) :
    ∀ e : Expr, (evaluate σ call env e).Appends
  | .literal _ => .pure _
  | .group inner => evaluate_appends hcall env inner
  | .unary _ operand => (evaluate_appends hcall env operand).bind fun _ => .ofExcept _
  | .binary left _ right =>
    (evaluate_appends hcall env left).bind fun _ =>
      (evaluate_appends hcall env right).bind fun _ => .ofExcept _
  | .logical left op right => (evaluate_appends hcall env left).bind fun l => by
    split
    · exact .pure _
    · exact evaluate_appends hcall env right
  | .use _ _ => Run.appends_read _ _ _
  | .assign _ _ value => (evaluate_appends hcall env value).bind fun _ =>
    (Run.appends_assign _ _ _ _).bind fun _ => .pure _
  | .call callee args paren => (evaluate_appends hcall env callee).bind fun f =>
    (evaluateAll_appends hcall env args).bind fun vs => hcall f vs paren.line

theorem evaluateAll_appends (hcall : ∀ f args line, (call f args line).Appends) (env : EnvironmentId) :
    ∀ es : List Expr, (evaluateAll σ call env es).Appends
  | [] => .pure _
  | e :: es => (evaluate_appends hcall env e).bind fun _ =>
    (evaluateAll_appends hcall env es).bind fun _ => .pure _

end

mutual

theorem execute_appends (hcall : ∀ f args line, (call f args line).Appends) (env : EnvironmentId) :
    ∀ s : Stmt, (execute σ call rounds env s).Appends
  | .expression e => (evaluate_appends hcall env e).bind fun _ => .pure _
  | .print e => (evaluate_appends hcall env e).bind fun _ =>
    Run.Appends.bind (.of_sink_eq fun _ => rfl) fun _ => (Run.appends_write _).bind fun _ =>
      (Run.appends_write _).bind fun _ => .pure _
  | .var _ none => .of_sink_eq fun _ => rfl
  | .var _ (some init) => (evaluate_appends hcall env init).bind fun _ => .of_sink_eq fun _ => rfl
  | .block body => Run.Appends.bind (.of_sink_eq fun _ => rfl) fun inner =>
    executeAll_appends hcall inner body
  | .branch condition consequent none => (evaluate_appends hcall env condition).bind fun v => by
    split
    · exact execute_appends hcall env consequent
    · exact .pure _
  | .branch condition consequent (some alternative) =>
    (evaluate_appends hcall env condition).bind fun v => by
      split
      · exact execute_appends hcall env consequent
      · exact execute_appends hcall env alternative
  | .loop condition body => Computation.Keeps.repeatWhile (fun _ => .refl _)
    (fun _ _ _ h h' => h.trans h') (evaluate_appends hcall env condition)
    (execute_appends hcall env body) rounds
  | .function _ _ _ => .of_sink_eq fun _ => rfl
  | .ret _ none => .pure _
  | .ret _ (some value) => (evaluate_appends hcall env value).bind fun _ => .pure _

theorem executeAll_appends (hcall : ∀ f args line, (call f args line).Appends) (env : EnvironmentId) :
    ∀ ss : List Stmt, (executeAll σ call rounds env ss).Appends
  | [] => .pure _
  | s :: ss => (execute_appends hcall env s).bind fun flow => by
    cases flow with
    | next => exact executeAll_appends hcall env ss
    | returned v => exact .pure _

end

end

theorem call_appends (σ : Setting) (depth : Nat) : ∀ f args line, (call σ depth f args line).Appends := by
  induction depth with
  | zero => exact fun f args line => .of_sink_eq fun _ => rfl
  | succ depth ih =>
    intro f args line
    cases f with
    | function f =>
      apply Run.Appends.bind (.of_sink_eq fun _ => rfl)
      intro g
      cases g with
      | none => exact .of_sink_eq fun _ => rfl
      | some g =>
        dsimp only
        split
        · exact .of_sink_eq fun _ => rfl
        cases g with
        | native name arity builtin => exact Run.appends_ticking _
        | declared name params body closure =>
          apply Run.Appends.bind (.of_sink_eq fun _ => rfl)
          intro env
          apply Run.Appends.bind (.of_sink_eq fun _ => rfl)
          intro _
          apply (executeAll_appends ih env body).bind
          intro flow
          cases flow <;> exact .pure _
    | nil | bool | number | string => exact .of_sink_eq fun _ => rfl

/-- A program adds to the text in the sink. -/
theorem runProgram_appends (σ : Setting) (budget : Nat) (p : Program) :
    (runProgram σ budget p).Appends := by
  induction p with
  | nil => exact .pure ()
  | cons s p ih => exact (execute_appends (call_appends σ budget) globals s).bind fun _ => ih

end Lox
