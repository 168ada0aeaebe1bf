import Mathlib.Data.List.Induction
import Lox.Store

/-! Histories of a store.
Whatever is done with environments that share enclosing ones, a read answers what the last successful write
left in the environment that it reaches, and a write changes one name of one environment
(`perform_history`). -/
namespace Lox
namespace Store

/-- What can be done with environments. A read and an assignment go a number of links up, none for the
environment itself. -/
inductive Operation
  | new
  | child (enclosing : EnvironmentId)
  | define (e : EnvironmentId) (name : String) (v : Value)
  | assign (e : EnvironmentId) (depth : Nat) (name : String) (line : UInt32) (v : Value)
  | get (e : EnvironmentId) (depth : Nat) (name : String) (line : UInt32)

inductive Answer
  | made (e : EnvironmentId)
  | done
  | value (v : Value)
  | failed (error : RuntimeError)

def perform (s : Store) : Operation → Answer × Store
  | .new => (.made s.nextEnvironment, s.push none)
  | .child e => (.made s.nextEnvironment, s.push (some e))
  | .define e name v => (.done, s.define e name v)
  | .assign e depth name line v =>
    match s.write e depth name line v with
    | .ok t => (.done, t)
    | .error error => (.failed error, s)
  | .get e depth name line =>
    match s.read e depth name line with
    | .ok v => (.value v, s)
    | .error error => (.failed error, s)

def after (s : Store) (ops : List Operation) : Store := ops.foldl (fun s op => (s.perform op).2) s

def log (s : Store) : List Operation → List (Operation × Answer)
  | [] => []
  | op :: ops => (op, (s.perform op).1) :: (s.perform op).2.log ops

namespace Operation

def environment? : Operation → Option EnvironmentId
  | new => none
  | child e | define e _ _ | assign e _ _ _ _ | get e _ _ _ => some e

def link? : Operation → Option (Option EnvironmentId)
  | new => some none
  | child e => some (some e)
  | define _ _ _ | assign _ _ _ _ _ | get _ _ _ _ => none

end Operation

def links (ops : List Operation) : List (Option EnvironmentId) := ops.filterMap Operation.link?

def Operation.IsMade (made : Nat) (op : Operation) : Prop := ∀ e ∈ op.environment?, e < made

instance (made : Nat) (op : Operation) : Decidable (op.IsMade made) :=
  inferInstanceAs (Decidable (∀ e ∈ op.environment?, e < made))

/-- Operations that are each done with an environment that is there, as so many are at first. -/
def Proper (made : Nat) : List Operation → Prop
  | [] => True
  | op :: ops => op.IsMade made ∧ Proper (made + op.link?.toList.length) ops

instance decidableProper (made : Nat) : (ops : List Operation) → Decidable (Proper made ops)
  | [] => inferInstanceAs (Decidable True)
  | op :: ops =>
    have := decidableProper (made + op.link?.toList.length) ops
    inferInstanceAs (Decidable (op.IsMade made ∧ _))

/-- An environment so many links above another. -/
inductive Above (links : List (Option EnvironmentId)) : EnvironmentId → Nat → EnvironmentId → Prop
  | here (e : EnvironmentId) : Above links e 0 e
  | link {e e' a : EnvironmentId} {d : Nat} (enclosing : links[e]? = some (some e'))
    (outer : Above links e' d a) : Above links e (d + 1) a

/-- An operation with its answer that writes a value to a name of an environment. -/
inductive Writes (links : List (Option EnvironmentId)) :
    Operation × Answer → EnvironmentId → String → Value → Prop
  | define (a : EnvironmentId) (x : String) (v : Value) : Writes links (.define a x v, .done) a x v
  | assign {e a : EnvironmentId} {d : Nat} (above : Above links e d a) (x : String) (line : UInt32)
    (v : Value) : Writes links (.assign e d x line v, .done) a x v

def LastWrite (links : List (Option EnvironmentId)) (log : List (Operation × Answer))
    (a : EnvironmentId) (x : String) (v : Value) : Prop :=
  ∃ before entry later, log = before ++ entry :: later ∧ Writes links entry a x v ∧
    ∀ entry' ∈ later, ∀ v', ¬ Writes links entry' a x v'

/-! ### Operations one after another -/

variable {s : Store} {ops : List Operation} {op : Operation}

theorem after_concat : s.after (ops ++ [op]) = ((s.after ops).perform op).2 := by
  rw [after, List.foldl_append]
  rfl

theorem log_concat : s.log (ops ++ [op]) = s.log ops ++ [(op, ((s.after ops).perform op).1)] := by
  induction ops generalizing s with
  | nil => rfl
  | cons first ops ih =>
    rw [List.cons_append, log, ih]
    rfl

theorem links_concat : links (ops ++ [op]) = links ops ++ op.link?.toList := by
  rw [links, List.filterMap_append]
  cases h : op.link? <;> simp [links, h]

/-- What is written last, when one more operation has been done. -/
theorem lastWrite_concat {links : List (Option EnvironmentId)} {log : List (Operation × Answer)}
    {entry : Operation × Answer} {a : EnvironmentId} {x : String} {v : Value} :
    LastWrite links (log ++ [entry]) a x v ↔ Writes links entry a x v ∨
      LastWrite links log a x v ∧ ∀ v', ¬ Writes links entry a x v' := by
  constructor
  · rintro ⟨before, written, later, hlog, hwrites, hlater⟩
    rcases List.eq_nil_or_concat later with rfl | ⟨later, last, rfl⟩
    · obtain ⟨-, hentry⟩ := List.append_inj' hlog rfl
      exact .inl (List.singleton_inj.1 hentry ▸ hwrites)
    · rw [List.concat_eq_append, ← List.cons_append, ← List.append_assoc] at hlog
      obtain ⟨rfl, hentry⟩ := List.append_inj' hlog rfl
      rw [List.concat_eq_append, ← List.singleton_inj.1 hentry] at hlater
      obtain ⟨hlater, hlast⟩ := List.forall_mem_append.1 hlater
      exact .inr ⟨⟨before, written, later, rfl, hwrites, hlater⟩, List.forall_mem_singleton.1 hlast⟩
  · rintro (hwrites | ⟨⟨before, written, later, rfl, hwrites, hlater⟩, hlast⟩)
    · exact ⟨log, entry, [], rfl, hwrites, nofun⟩
    · refine ⟨before, written, later ++ [entry], by simp, hwrites, ?_⟩
      exact List.forall_mem_append.2 ⟨hlater, List.forall_mem_singleton.2 hlast⟩

/-! ### Reading and writing -/

section

variable {e a : EnvironmentId} {d : Nat} {x : String} {line : UInt32} {v : Value}

theorem read_eq_ok_iff : s.read e d x line = .ok v ↔
    ∃ a, s.ancestor? e d = some a ∧ s.binding? a x = some v := by
  unfold read
  cases s.ancestor? e d with
  | none => simp
  | some a => cases h : s.binding? a x <;> simp [h]

theorem read_eq_error_iff {error : RuntimeError} : s.read e d x line = .error error ↔
    error = .fault line (.undefinedVariable x) ∧
      ∀ a, s.ancestor? e d = some a → s.binding? a x = none := by
  unfold read
  cases s.ancestor? e d with
  | none => simp [eq_comm]
  | some a => cases h : s.binding? a x <;> simp [h, eq_comm]

theorem write_eq_ok_iff {t : Store} : s.write e d x line v = .ok t ↔
    ∃ a, s.ancestor? e d = some a ∧ (s.binding? a x).isSome ∧ t = s.define a x v := by
  unfold write owner?
  cases s.ancestor? e d with
  | none => simp
  | some a =>
    cases h : s.binding? a x with
    | none => simp [h, Option.filter]
    | some u => simpa [h, Option.filter] using eq_comm

/-- A write fails where a read does, and in the same way. -/
theorem write_eq_error_iff {error : RuntimeError} :
    s.write e d x line v = .error error ↔ s.read e d x line = .error error := by
  unfold write owner? read
  cases s.ancestor? e d with
  | none => simp
  | some a => cases h : s.binding? a x <;> simp [h, Option.filter]

theorem perform_get_eq_value_iff :
    (s.perform (.get e d x line)).1 = .value v ↔ s.read e d x line = .ok v := by
  rw [perform]
  cases s.read e d x line <;> simp

theorem perform_get_eq_failed_iff {error : RuntimeError} :
    (s.perform (.get e d x line)).1 = .failed error ↔ s.read e d x line = .error error := by
  rw [perform]
  cases s.read e d x line <;> simp

theorem perform_assign_eq_failed_iff {error : RuntimeError} :
    (s.perform (.assign e d x line v)).1 = .failed error ↔
      (s.perform (.get e d x line)).1 = .failed error := by
  have hwrite : (s.perform (.assign e d x line v)).1 = .failed error ↔
      s.write e d x line v = .error error := by
    rw [perform]
    cases s.write e d x line v <;> simp
  rw [hwrite, write_eq_error_iff, perform_get_eq_failed_iff]

theorem perform_assign_eq_done_iff : (s.perform (.assign e d x line v)).1 = .done ↔
    ∃ u, (s.perform (.get e d x line)).1 = .value u := by
  have hwrite : (s.perform (.assign e d x line v)).1 = .done ↔ ∃ t, s.write e d x line v = .ok t := by
    rw [perform]
    cases s.write e d x line v <;> simp
  simp only [hwrite, perform_get_eq_value_iff, write_eq_ok_iff, read_eq_ok_iff,
    Option.isSome_iff_exists]
  exact ⟨fun ⟨_, a, ha, ⟨u, hu⟩, _⟩ => ⟨u, a, ha, hu⟩, fun ⟨u, a, ha, hu⟩ => ⟨_, a, ha, ⟨u, hu⟩, rfl⟩⟩

/-- Environments are numbered as they are made. -/
theorem perform_of_made {e : EnvironmentId} (h : (s.perform op).1 = .made e) :
    e = s.nextEnvironment := by
  cases op with
  | new | child => exact (Answer.made.inj h).symm
  | define => cases h
  | assign e d x line v =>
    rw [perform] at h
    split at h <;> cases h
  | get e d x line =>
    rw [perform] at h
    split at h <;> cases h

theorem perform_of_failed {error : RuntimeError} (h : (s.perform op).1 = .failed error) :
    (s.perform op).2 = s := by
  cases op with
  | new | child | define => cases h
  | assign e d x line v =>
    rw [perform] at h ⊢
    cases hw : s.write e d x line v with
    | ok t =>
      rw [hw] at h
      cases h
    | error error => rfl
  | get e d x line =>
    rw [perform]
    split <;> rfl

end

/-! ### Links -/

structure HasLinks (s : Store) (links : List (Option EnvironmentId)) : Prop where
  next : s.nextEnvironment = links.length
  enclosing : ∀ e, s.enclosing? e = links[e]?.join
  closed : ∀ e e' : EnvironmentId, links[e]? = some (some e') → e' < links.length

variable {ls : List (Option EnvironmentId)}

theorem HasLinks.above_iff (h : s.HasLinks ls) {e a : EnvironmentId} {d : Nat} :
    Above ls e d a ↔ s.ancestor? e d = some a := by
  induction d generalizing e with
  | zero =>
    rw [ancestor?, Option.some_inj]
    exact ⟨fun hab => by cases hab; rfl, fun heq => heq ▸ .here e⟩
  | succ d ih =>
    rw [ancestor?, h.enclosing, Option.bind_eq_some_iff]
    simp only [← ih, Option.join_eq_some_iff]
    exact ⟨fun hab => by cases hab with | link he ho => exact ⟨_, he, ho⟩,
      fun ⟨e', he, ho⟩ => .link he ho⟩

theorem HasLinks.push (h : s.HasLinks ls) {p : Option EnvironmentId} (hp : ∀ e ∈ p, e < ls.length) :
    (s.push p).HasLinks (ls ++ [p]) where
  next := by rw [nextEnvironment_push, h.next, List.length_append]; rfl
  enclosing e := by
    rw [enclosing?_push, h.next, h.enclosing]
    rcases Nat.lt_trichotomy e ls.length with hlt | rfl | hgt
    · rw [if_neg (Nat.ne_of_lt hlt), List.getElem?_append_left hlt]
    · rw [if_pos rfl, List.getElem?_concat_length, Option.join_some]
    · rw [if_neg (Nat.ne_of_gt hgt), List.getElem?_eq_none (Nat.le_of_lt hgt), List.getElem?_eq_none]
      rw [List.length_append]
      exact hgt
  closed e e' he := by
    rw [List.length_append]
    apply Nat.lt_succ_of_lt
    rcases List.mem_append.1 (List.mem_of_getElem? he) with hmem | hmem
    · obtain ⟨i, hi⟩ := List.mem_iff_getElem?.1 hmem
      exact h.closed i e' hi
    · exact hp e' (List.mem_singleton.1 hmem).symm

theorem HasLinks.define (h : s.HasLinks ls) (e : EnvironmentId) (x : String) (v : Value) :
    (s.define e x v).HasLinks ls where
  next := by rw [nextEnvironment_define, h.next]
  enclosing e' := by rw [enclosing?_define, h.enclosing]
  closed := h.closed

theorem above_append (hclosed : ∀ e e' : EnvironmentId, ls[e]? = some (some e') → e' < ls.length)
    (more : List (Option EnvironmentId)) {e a : EnvironmentId} {d : Nat} (he : e < ls.length) :
    Above (ls ++ more) e d a ↔ Above ls e d a := by
  induction d generalizing e with
  | zero => exact ⟨fun h => by cases h; exact .here _, fun h => by cases h; exact .here _⟩
  | succ d ih =>
    constructor
    · rintro (_ | ⟨hlink, houter⟩)
      rw [List.getElem?_append_left he] at hlink
      exact .link hlink ((ih (hclosed _ _ hlink)).1 houter)
    · rintro (_ | ⟨hlink, houter⟩)
      refine .link ?_ ((ih (hclosed _ _ hlink)).2 houter)
      rwa [List.getElem?_append_left he]

/-- Making environments does not change what earlier operations have written. -/
theorem writes_append (hclosed : ∀ e e' : EnvironmentId, ls[e]? = some (some e') → e' < ls.length)
    (more : List (Option EnvironmentId)) {entry : Operation × Answer}
    (hmade : entry.1.IsMade ls.length) {a : EnvironmentId} {x : String} {v : Value} :
    Writes (ls ++ more) entry a x v ↔ Writes ls entry a x v := by
  constructor
  · rintro (⟨⟩ | habove)
    · exact .define a x v
    · exact .assign ((above_append hclosed more (hmade _ rfl)).1 habove) x _ v
  · rintro (⟨⟩ | habove)
    · exact .define a x v
    · exact .assign ((above_append hclosed more (hmade _ rfl)).2 habove) x _ v

theorem lastWrite_append (hclosed : ∀ e e' : EnvironmentId, ls[e]? = some (some e') → e' < ls.length)
    (more : List (Option EnvironmentId)) {log : List (Operation × Answer)}
    (hmade : ∀ entry ∈ log, entry.1.IsMade ls.length) {a : EnvironmentId} {x : String}
    {v : Value} : LastWrite (ls ++ more) log a x v ↔ LastWrite ls log a x v := by
  unfold LastWrite
  refine exists_congr fun before => exists_congr fun entry => exists_congr fun later =>
    and_congr_right ?_
  rintro rfl
  obtain ⟨-, hlast⟩ := List.forall_mem_append.1 hmade
  obtain ⟨hentry, hlater⟩ := List.forall_mem_cons.1 hlast
  refine and_congr (writes_append hclosed more hentry) ?_
  exact forall₂_congr fun entry' hmem => forall_congr' fun v' =>
    not_congr (writes_append hclosed more (hlater entry' hmem))

/-! ### What an operation does -/

/-- What one operation does. Either it defines a name in an environment, one that is defined there already
unless the operation is a definition; or it writes nothing, and all names stay bound as they are. -/
theorem HasLinks.perform_cases (h : s.HasLinks ls) (hmade : op.IsMade ls.length) :
    (∃ e n w, e < s.nextEnvironment ∧ s.perform op = (.done, s.define e n w) ∧
      ((s.binding? e n).isSome ∨ op = .define e n w) ∧
      ∀ a x v, Writes ls (op, .done) a x v ↔ a = e ∧ x = n ∧ v = w) ∨
    (s.perform op).1 ≠ .done ∧ ∀ a x, (s.perform op).2.binding? a x = s.binding? a x := by
  cases op with
  | new | child e => exact .inr ⟨nofun, binding?_push s _⟩
  | define e n w =>
    refine .inl ⟨e, n, w, h.next ▸ hmade e rfl, rfl, .inr rfl, fun a x v => ⟨?_, ?_⟩⟩
    · rintro ⟨⟩
      exact ⟨rfl, rfl, rfl⟩
    · rintro ⟨rfl, rfl, rfl⟩
      exact .define a x v
  | assign e d n line w =>
    cases hw : s.write e d n line w with
    | error error =>
      refine .inr ?_
      rw [perform, hw]
      exact ⟨nofun, fun _ _ => rfl⟩
    | ok t =>
      obtain ⟨b, hb, hbound, rfl⟩ := write_eq_ok_iff.1 hw
      refine .inl ⟨b, n, w, lt_of_binding? hbound, by rw [perform, hw], .inl hbound,
        fun a x v => ⟨?_, ?_⟩⟩
      · rintro (_ | habove)
        exact ⟨Option.some.inj ((h.above_iff.1 habove).symm.trans hb), rfl, rfl⟩
      · rintro ⟨rfl, rfl, rfl⟩
        exact .assign (h.above_iff.2 hb) x line v
  | get e d n line =>
    refine .inr ?_
    unfold perform
    dsimp only
    split <;> exact ⟨nofun, fun _ _ => rfl⟩

/-- Only what is done writes. -/
theorem Writes.eq_done {entry : Operation × Answer} {a : EnvironmentId} {x : String} {v : Value}
    (h : Writes ls entry a x v) : entry.2 = .done := by
  cases h <;> rfl

section

variable (h : s.HasLinks ls) (hmade : op.IsMade ls.length)
variable {a : EnvironmentId} {x : String}
include h hmade

theorem HasLinks.unwritten (hne : (s.perform op).1 ≠ .done) (a : EnvironmentId) (x : String) :
    (s.perform op).2.binding? a x = s.binding? a x := by
  rcases h.perform_cases hmade with ⟨_, _, _, -, hdone, -⟩ | ⟨-, hsame⟩
  · exact absurd (congrArg Prod.fst hdone) hne
  · exact hsame a x

/-- What is done writes one name of one environment and changes nothing else. -/
theorem HasLinks.written (hdone : (s.perform op).1 = .done) :
    ∃ a x v, (∀ a' x' v', Writes ls (op, .done) a' x' v' ↔ a' = a ∧ x' = x ∧ v' = v) ∧
      (∀ a' x', (s.perform op).2.binding? a' x' =
        if a' = a ∧ x' = x then some v else s.binding? a' x') ∧
      (s.perform op).2.nextEnvironment = s.nextEnvironment ∧
      ∀ a', (s.perform op).2.enclosing? a' = s.enclosing? a' := by
  rcases h.perform_cases hmade with ⟨a, x, v, ha, ht, -, hwrites⟩ | ⟨hne, -⟩
  · rw [ht]
    refine ⟨a, x, v, hwrites, fun a' x' => ?_, nextEnvironment_define _ _ _ _,
      fun a' => enclosing?_define _ _ _ _ _⟩
    simp only [binding?_define, ha, and_true, @eq_comm _ x x']
  · exact absurd hdone hne

theorem HasLinks.binding?_perform {v : Value} : (s.perform op).2.binding? a x = some v ↔
    Writes ls (op, (s.perform op).1) a x v ∨
      s.binding? a x = some v ∧ ∀ v', ¬ Writes ls (op, (s.perform op).1) a x v' := by
  rcases h.perform_cases hmade with ⟨e, n, w, he, ht, -, hwrites⟩ | ⟨hne, hsame⟩
  · rw [ht, binding?_define, hwrites]
    by_cases heq : a = e ∧ n = x
    · obtain ⟨rfl, rfl⟩ := heq
      simp [he, hwrites, eq_comm]
    · have hne : ∀ v', ¬ (a = e ∧ x = n ∧ v' = w) := fun v' hh => heq ⟨hh.1, hh.2.1.symm⟩
      rw [if_neg fun hh => heq ⟨hh.1, hh.2.1⟩]
      simp [hwrites, hne]
  · have hnone (v : Value) : ¬ Writes ls (op, (s.perform op).1) a x v := fun hw => hne hw.eq_done
    simp [hnone, hsame]

theorem HasLinks.isSome_perform : ((s.perform op).2.binding? a x).isSome ↔
    (s.binding? a x).isSome ∨ ∃ v, op = .define a x v := by
  rcases h.perform_cases hmade with ⟨e, n, w, he, ht, hdefined, hwrites⟩ | ⟨hne, hsame⟩
  · rw [ht, binding?_define]
    by_cases heq : a = e ∧ n = x
    · obtain ⟨rfl, rfl⟩ := heq
      rw [if_pos ⟨rfl, rfl, he⟩]
      exact iff_of_true rfl (hdefined.imp_right fun hop => ⟨w, hop⟩)
    · rw [if_neg fun hh => heq ⟨hh.1, hh.2.1⟩]
      refine ⟨.inl, fun hbound => hbound.resolve_right ?_⟩
      rintro ⟨v, rfl⟩
      obtain ⟨ha, hx, -⟩ := (hwrites a x v).1 (.define a x v)
      exact heq ⟨ha, hx.symm⟩
  · rw [hsame]
    refine ⟨.inl, fun hbound => hbound.resolve_right ?_⟩
    rintro ⟨v, rfl⟩
    exact hne rfl

theorem HasLinks.perform : (s.perform op).2.HasLinks (ls ++ op.link?.toList) := by
  cases op with
  | new => exact h.push nofun
  | child e => exact h.push hmade
  | define e n w => exact (List.append_nil ls).symm ▸ h.define e n w
  | assign e d n line w =>
    rw [Operation.link?, Option.toList_none, List.append_nil, Store.perform]
    split
    · next t hw =>
      obtain ⟨b, -, -, rfl⟩ := write_eq_ok_iff.1 hw
      exact h.define b n w
    · exact h
  | get e d n line =>
    rw [Operation.link?, Option.toList_none, List.append_nil, Store.perform]
    split <;> exact h

end

/-! ### Histories -/

/-- What a store owes to the operations that it comes from. -/
structure Records (ops : List Operation) : Prop where
  hasLinks : (empty.after ops).HasLinks (links ops)
  made : ∀ entry ∈ empty.log ops, entry.1.IsMade (links ops).length
  binding : ∀ a x v, (empty.after ops).binding? a x = some v ↔ LastWrite (links ops) (empty.log ops) a x v
  bound : ∀ a x, ((empty.after ops).binding? a x).isSome ↔ ∃ v, .define a x v ∈ ops

theorem records_nil : Records [] := by
  refine ⟨⟨rfl, fun _ => rfl, nofun⟩, nofun, fun a x v => iff_of_false nofun ?_, fun a x => ?_⟩
  · rintro ⟨before, entry, later, hlog, -⟩
    exact List.append_ne_nil_of_right_ne_nil before (List.cons_ne_nil entry later) hlog.symm
  · exact iff_of_false nofun (by simp)

theorem Records.concat (h : Records ops) (made : op.IsMade (links ops).length) :
    Records (ops ++ [op]) := by
  obtain ⟨hlinks, hmade, hbinding, hbound⟩ := h
  have hlength : (links ops).length ≤ (links (ops ++ [op])).length := by
    rw [links_concat, List.length_append]
    exact Nat.le_add_right _ _
  refine ⟨?_, ?_, fun a x v => ?_, fun a x => ?_⟩
  · rw [after_concat, links_concat]
    exact hlinks.perform made
  · rw [log_concat]
    refine List.forall_mem_append.2 ⟨fun entry hentry e he => ?_, ?_⟩
    · exact Nat.lt_of_lt_of_le (hmade entry hentry e he) hlength
    · exact List.forall_mem_singleton.2 fun e he => Nat.lt_of_lt_of_le (made e he) hlength
  · have hop (answer : Answer) (v : Value) :
        Writes (links ops ++ op.link?.toList) (op, answer) a x v ↔ Writes (links ops) (op, answer) a x v :=
      writes_append hlinks.closed _ made
    rw [after_concat, log_concat, links_concat, lastWrite_concat, hlinks.binding?_perform made,
      hbinding, lastWrite_append hlinks.closed _ hmade]
    simp only [hop]
  · rw [after_concat, hlinks.isSome_perform made, hbound]
    simp only [List.mem_append, List.mem_singleton, exists_or, eq_comm]

/-- All operations are recorded, by induction on those that are still to be done. -/
theorem Records.append {more : List Operation} (h : Records ops)
    (hmore : Proper (links ops).length more) : Records (ops ++ more) := by
  induction more generalizing ops with
  | nil => rwa [List.append_nil]
  | cons op more ih =>
    obtain ⟨hop, hmore⟩ := hmore
    rw [← List.length_append, ← links_concat] at hmore
    rw [List.append_cons]
    exact ih (h.concat hop) hmore

/-- An environment chain is a store of last writes. After any operations with environments that are there, a
read answers what was written last to the name in the environment that it reaches. It fails if there is none,
or if the name was never defined in that one. An assignment succeeds and fails where a read does. What fails
changes nothing, and what is written changes one name of one environment and nothing else; only a definition
binds a name that was not bound. -/
theorem perform_history (h : Proper 0 ops) :
    let s := empty.after ops
    let above := Above (links ops)
    (∀ e d x line,
      (∀ v, (s.perform (.get e d x line)).1 = .value v ↔
        ∃ a, above e d a ∧ LastWrite (links ops) (empty.log ops) a x v) ∧
      (∀ error, (s.perform (.get e d x line)).1 = .failed error ↔
        error = .fault line (.undefinedVariable x) ∧
          ((∀ a, ¬ above e d a) ∨ ∃ a, above e d a ∧ ∀ v, .define a x v ∉ ops)) ∧
      ∀ w, ((s.perform (.assign e d x line w)).1 = .done ↔
          ∃ v, (s.perform (.get e d x line)).1 = .value v) ∧
        ∀ error, (s.perform (.assign e d x line w)).1 = .failed error ↔
          (s.perform (.get e d x line)).1 = .failed error) ∧
    ∀ op answer t, op.IsMade (links ops).length → s.perform op = (answer, t) →
      (∀ e, answer = .made e → e = (links ops).length) ∧
      (∀ error, answer = .failed error → t = s) ∧
      (answer ≠ .done → ∀ a x, t.binding? a x = s.binding? a x) ∧
      (answer = .done → ∃ a x v, (∀ a' x' v', Writes (links ops) (op, answer) a' x' v' ↔
          a' = a ∧ x' = x ∧ v' = v) ∧
        (∀ a' x', t.binding? a' x' = if a' = a ∧ x' = x then some v else s.binding? a' x') ∧
        t.nextEnvironment = s.nextEnvironment ∧ ∀ a', t.enclosing? a' = s.enclosing? a') ∧
      ∀ a x, (t.binding? a x).isSome ↔ (s.binding? a x).isSome ∨ ∃ v, op = .define a x v := by
  intro s above
  obtain ⟨hlinks, -, hbinding, hbound⟩ : Records ops := records_nil.append h
  refine ⟨fun e d x line => ⟨fun v => ?_, fun error => ?_, fun w =>
    ⟨perform_assign_eq_done_iff, fun error => perform_assign_eq_failed_iff⟩⟩, ?_⟩
  · simp only [perform_get_eq_value_iff, read_eq_ok_iff, above, hlinks.above_iff, ← hbinding]
    rfl
  · have hnone (a : EnvironmentId) : s.binding? a x = none ↔ ∀ v, .define a x v ∉ ops := by
      rw [← Option.not_isSome_iff_eq_none, hbound, not_exists]
    rw [perform_get_eq_failed_iff, read_eq_error_iff]
    simp only [above, hlinks.above_iff, hnone]
    refine and_congr_right fun _ => ?_
    cases (empty.after ops).ancestor? e d <;> simp
  · intro op answer t hop heq
    obtain rfl : (s.perform op).1 = answer := congrArg Prod.fst heq
    obtain rfl : (s.perform op).2 = t := congrArg Prod.snd heq
    refine ⟨fun e he => ?_, fun error => perform_of_failed, hlinks.unwritten hop, fun hdone => ?_,
      fun a x => hlinks.isSome_perform hop⟩
    · rw [← hlinks.next]
      exact perform_of_made he
    · rw [hdone]
      exact hlinks.written hop hdone

/-- Two environments in one that both have written to, one of them with a name of its own that hides it. -/
def siblings : List Operation :=
  [.new, .define 0 "x" (.bool true), .child 0, .child 0, .define 1 "x" .nil,
    .assign 2 1 "x" 5 (.string "two"), .assign 1 0 "y" 6 .nil, .assign 1 1 "x" 7 (.string "one"), .child 1]

theorem perform_history_siblings :
    Proper 0 siblings ∧
    (∃ a, Above (links siblings) 3 2 a ∧
      LastWrite (links siblings) (empty.log siblings) a "x" (.string "one")) ∧
    (∃ a, Above (links siblings) 3 1 a ∧ LastWrite (links siblings) (empty.log siblings) a "x" .nil) ∧
    ((∀ a, ¬ Above (links siblings) 3 0 a) ∨
      ∃ a, Above (links siblings) 3 0 a ∧ ∀ v, .define a "x" v ∉ siblings) ∧
    ((empty.after siblings).perform (.assign 2 2 "x" 8 .nil)).1 =
      .failed (.fault 8 (.undefinedVariable "x")) := by
  have hproper : Proper 0 siblings := by decide
  obtain ⟨hreads, -⟩ := perform_history hproper
  refine ⟨hproper, ?_, ?_, ?_, ?_⟩
  · exact ((hreads 3 2 "x" 1).1 _).1 rfl
  · exact ((hreads 3 1 "x" 1).1 _).1 rfl
  · exact (((hreads 3 0 "x" 1).2.1 _).1 rfl).2
  · exact (((hreads 2 2 "x" 8).2.2 .nil).2 _).2 rfl

end Store
end Lox
