import Mathlib.Data.List.ReduceOption
import Mathlib.Data.List.TakeWhile
import Lox.Proofs.Recovery

/-! Where the parser stands.
Whatever the tokens, parsing only moves forward and stops at the first end token, every declaration
takes a token also when it fails, one that gives no statement leaves an error, and errors stand at
tokens of the list (`parse_progress`). -/
namespace Lox

open Concrete (beforeEnd)

/-- The tokens with an end token behind them, unless one is there. -/
def completed (tokens : List Token) : List Token :=
  if tokens.getLast?.map Token.kind = some .eof then tokens
  else tokens ++ [.atEnd ((tokens.getLast?.map Token.line).getD 1)]

/-- The first end token stands behind the tokens that are parsed. -/
theorem completed_eq (tokens : List Token) :
    ∃ later, completed tokens = beforeEnd tokens ++ endOf tokens :: later := by
  unfold endOf
  cases h : tokens.find? (·.kind = .eof) with
  | none =>
    have hne : ∀ t ∈ tokens, t.kind ≠ .eof := by simpa using h
    have hlast : tokens.getLast?.map Token.kind ≠ some .eof := by
      simp only [ne_eq, Option.map_eq_some_iff, not_exists, not_and]
      exact fun t ht => hne t (List.mem_of_getLast? ht)
    have hbefore : beforeEnd tokens = tokens := by
      simpa [Concrete.beforeEnd_nil] using Concrete.beforeEnd_append hne []
    exact ⟨[], by rw [completed, if_neg hlast, hbefore, Option.getD_none]⟩
  | some stop =>
    obtain ⟨hstop, before, later, rfl, hne⟩ := List.find?_eq_some_iff_append.1 h
    have hstop : stop.kind = .eof := of_decide_eq_true hstop
    have hbefore : beforeEnd (before ++ stop :: later) = before := by
      rw [Concrete.beforeEnd_append fun t ht => by simpa using hne t ht]
      simp [beforeEnd, hstop]
    rw [hbefore, completed, Option.getD_some]
    split
    · exact ⟨later, rfl⟩
    · exact ⟨later ++ [_], by simp; rfl⟩

theorem getElem?_completed (tokens : List Token) :
    (completed tokens)[(beforeEnd tokens).length]? = some (endOf tokens) := by
  obtain ⟨later, hcompleted⟩ := completed_eq tokens
  rw [hcompleted, List.getElem?_append_right (Nat.le_refl _), Nat.sub_self]
  rfl

theorem kind_of_getElem?_completed (tokens : List Token) (i : Nat)
    (hi : i < (beforeEnd tokens).length) (t : Token) (ht : (completed tokens)[i]? = some t) :
    t.kind ≠ .eof := by
  obtain ⟨later, hcompleted⟩ := completed_eq tokens
  rw [hcompleted, List.getElem?_append_left hi] at ht
  have hmem : t ∈ tokens.takeWhile (·.kind ≠ .eof) := List.mem_of_getElem? ht
  simpa using List.mem_takeWhile_imp hmem

namespace Cursor

def In (tokens : List Token) (s : Cursor) : Prop := s.rest <:+ beforeEnd tokens

def index (tokens : List Token) (s : Cursor) : Nat := (beforeEnd tokens).length - s.rest.length

def start (tokens : List Token) (ids : IdSupply) : Cursor := ⟨beforeEnd tokens, ids, []⟩

variable {tokens : List Token} {s t : Cursor}

theorem In.getElem?_index (h : s.In tokens) :
    (completed tokens)[s.index tokens]? = some (s.peek (endOf tokens)) := by
  obtain ⟨later, hcompleted⟩ := completed_eq tokens
  obtain ⟨before, hbefore⟩ := h
  have hindex : s.index tokens = before.length := by
    rw [index, ← hbefore, List.length_append, Nat.add_sub_cancel]
  rw [hindex, hcompleted, ← hbefore, List.append_assoc,
    List.getElem?_append_right (Nat.le_refl _), Nat.sub_self, peek]
  cases s.rest <;> rfl

theorem In.reaches (h : s.In tokens) (hst : s.Reaches t) :
    t.In tokens ∧ s.index tokens ≤ t.index tokens :=
  ⟨hst.rest.trans h, Nat.sub_le_sub_left hst.rest.length_le _⟩

theorem In.index_lt (h : s.In tokens) (hst : t.size < s.size) : s.index tokens < t.index tokens :=
  Nat.sub_lt_sub_left (Nat.lt_of_lt_of_le hst h.length_le) hst

end Cursor

namespace Grammar

open Placement Step

/-- The same tokens twice, all of a kind, as are those at which errors may be reported. -/
def among (P : Token → Prop) (stop : Token) (earlier : List SyntaxError) : Placement :=
  ⟨fun t t' => t = t' ∧ P t, fun t t' => t = t' ∧ P t, fun _ _ => True, fun _ _ => True, stop,
    stop, [], earlier, earlier⟩

variable {P : Token → Prop} {stop : Token} {s : Cursor}

theorem lawful_among (h : P stop) (earlier : List SyntaxError) : (among P stop earlier).Lawful where
  kind _ _ h := congrArg Token.kind h.1.symm
  literal _ _ h := congrArg Token.literal h.1.symm
  reported _ _ h := h
  ends _ := ⟨rfl, h⟩
  next _ _ h := h
  take _ _ h := h

theorem near_among (h : ∀ t ∈ s.rest, P t) : (among P stop s.errors).Near s s where
  rest := ⟨s.rest, List.forall₂_same.2 fun t ht => ⟨rfl, h t ht⟩, (List.append_nil _).symm⟩
  errors := ⟨[], [], (List.append_nil _).symm, (List.append_nil _).symm, .nil⟩
  ids := trivial

theorem errors_among {t t' : Cursor} {earlier : List SyntaxError}
    (h : (among P stop earlier).Near t t') :
    ∃ es, t.errors = earlier ++ es ∧
      ∀ e ∈ es, ∃ token fault, P token ∧ e = .atToken token fault := by
  obtain ⟨es, _, hes, -, halike⟩ := h.errors
  refine ⟨es, hes, ?_⟩
  clear hes
  induction halike with
  | nil => nofun
  | cons hhead _ ih =>
    refine List.forall_mem_cons.2 ⟨?_, ih⟩
    cases hhead with
    | atToken fault alike => exact ⟨_, fault, alike.2, rfl⟩

/-- The procedures of the parser, with what they are given. -/
inductive Procedure
  | expression
  | chain (levels : List Level)
  | chainRest (l : Level) (tighter : List Level) (left : Expr)
  | unary
  | call
  | callRest (callee : Expr)
  | arguments
  | argumentList (count : Nat)
  | primary
  | optionalExpression (absent : Kind)
  | variableDeclaration
  | expressionStatement
  | parameterList (count : Nat)
  | parameters
  | loopInitializer
  | declaration
  | functionDeclaration
  | statement
  | ifStatement
  | forStatement
  | block
  | declarations
  | program

/-- Where a procedure that starts at a position ends, with success or failure. -/
def Procedure.after (stop : Token) (s : Cursor) : Procedure → Cursor
  | expression => (Grammar.expression stop s).after
  | chain levels => (Grammar.chain stop levels s).after
  | chainRest l tighter left => (Grammar.chainRest stop l tighter left s).after
  | unary => (Grammar.unary stop s).after
  | call => (Grammar.call stop s).after
  | callRest callee => (Grammar.callRest stop callee s).after
  | arguments => (Grammar.arguments stop s).after
  | argumentList count => (Grammar.argumentList stop count s).after
  | primary => (Grammar.primary stop s).after
  | optionalExpression absent => (Grammar.optionalExpression stop absent s).after
  | variableDeclaration => (Grammar.variableDeclaration stop s).after
  | expressionStatement => (Grammar.expressionStatement stop s).after
  | parameterList count => (Grammar.parameterList stop count s).after
  | parameters => (Grammar.parameters stop s).after
  | loopInitializer => (Grammar.loopInitializer stop s).after
  | declaration => (Grammar.declaration stop s).after
  | functionDeclaration => (Grammar.functionDeclaration stop s).after
  | statement => (Grammar.statement stop s).after
  | ifStatement => (Grammar.ifStatement stop s).after
  | forStatement => (Grammar.forStatement stop s).after
  | block => (Grammar.block stop s).after
  | declarations => (Grammar.declarations stop s).after
  | program => (Grammar.program stop s).after

/-- No procedure gives tokens back, or errors. -/
theorem Procedure.reaches (stop : Token) (s : Cursor) (p : Procedure) :
    s.Reaches (p.after stop s) := by
  have hA : (among (fun _ => True) stop s.errors).Lawful := lawful_among trivial s.errors
  have h : (among (fun _ => True) stop s.errors).Near s s := near_among fun _ _ => trivial
  have hrefl (e : Expr) : e.Twin (among (fun _ => True) stop s.errors).likeness e :=
    Expr.Twin.refl (L := (among (fun _ => True) stop s.errors).likeness) (fun _ => ⟨rfl, trivial⟩)
      (fun _ => trivial) e
  -- Nothing stands behind the tokens, so the end of input is no obstacle to a comparison.
  have hin (t : Cursor) : (among (fun _ => True) stop s.errors).Inside t := .inl rfl
  cases p with
  | expression => exact (expression_tracks hA s s h (hin _)).reaches
  | chain levels => exact (chain_tracks hA levels s s h (hin _)).reaches
  | chainRest l tighter left =>
    exact (chainRest_tracks hA l tighter (hrefl left) s s h (hin _)).reaches
  | unary => exact (unary_tracks hA s s h (hin _)).reaches
  | call => exact (call_tracks hA s s h (hin _)).reaches
  | callRest callee => exact (callRest_tracks hA (hrefl callee) s s h (hin _)).reaches
  | arguments => exact (arguments_tracks hA s s h (hin _)).reaches
  | argumentList count => exact (argumentList_tracks hA count s s h (hin _)).reaches
  | primary => exact (primary_tracks hA s s h (hin _)).reaches
  | optionalExpression absent => exact (optionalExpression_tracks hA absent s s h (hin _)).reaches
  | variableDeclaration => exact (variableDeclaration_follows hA s s h (.inl (hin _))).reaches
  | expressionStatement => exact (expressionStatement_follows hA s s h (.inl (hin _))).reaches
  | parameterList count => exact (parameterList_tracks hA count s s h (hin _)).reaches
  | parameters => exact (parameters_tracks hA s s h (hin _)).reaches
  | loopInitializer => exact (loopInitializer_follows hA s s h (.inl (hin _))).reaches
  | declaration => exact (declaration_follows hA s s h (.inl (hin _))).reaches
  | functionDeclaration => exact (functionDeclaration_follows hA s s h (.inl (hin _))).reaches
  | statement => exact (statement_follows hA s s h (.inl (hin _))).reaches
  | ifStatement => exact (ifStatement_follows hA s s h (.inl (hin _))).reaches
  | forStatement => exact (forStatement_follows hA s s h (.inl (hin _))).reaches
  | block => exact (block_follows hA s s h (.inl (hin _))).reaches
  | declarations => exact (declarations_tracks hA s s h (hin _)).reaches
  | program => exact (program_tracks hA s s h (hin _)).reaches

/-- A declaration that errors are recovered from takes a token, and leaves an error if it gives no
statement. -/
theorem exists_gives_declaration (stop : Token) {s : Cursor} (hs : s.rest ≠ []) :
    ∃ d t, (recover hs (declaration stop s)).Gives d t ∧ s.Reaches t ∧ t.size < s.size ∧
      (d = none → s.errors.length < t.errors.length) := by
  have hreaches := Procedure.declaration.reaches stop s
  have hsize (d t) (h : (recover hs (declaration stop s)).Gives d t) : t.size < s.size := by
    have hleast := (recover hs (declaration stop s)).size_le_of_ok d h.1
    rwa [h.2] at hleast
  cases h : (declaration stop s).outcome with
  | ok a =>
    have hgives := gives_recover hs ⟨h, rfl⟩
    exact ⟨_, _, hgives, hreaches, hsize _ _ hgives, nofun⟩
  | error e =>
    have hgives := gives_recover_error hs h
    refine ⟨_, _, hgives, ⟨?_, ?_⟩, hsize _ _ hgives, fun _ => ?_⟩
    · exact (synchronize_suffix _).trans hreaches.rest
    · exact hreaches.errors.trans (List.prefix_append _ _)
    · rw [Cursor.record, List.length_append]
      exact Nat.lt_succ_of_le hreaches.errors.length_le

/-- What the declarations of a program give, one after another. -/
def results (stop : Token) (s : Cursor) : List (Option Stmt) :=
  if h : s.rest = [] then []
  else
    match hd : (recover h (declaration stop s)).outcome with
    | .ok d =>
      have := (recover h (declaration stop s)).size_le_of_ok d hd
      d :: results stop (recover h (declaration stop s)).after
    | .error _ => []
termination_by s.size

theorem results_step {s t : Cursor} (hs : s.rest ≠ []) {d : Option Stmt}
    (hd : (recover hs (declaration stop s)).Gives d t) : results stop s = d :: results stop t := by
  obtain ⟨hok, rfl⟩ := hd
  rw [results, dif_neg hs]
  split
  · next d' hd' =>
    cases hok.symm.trans hd'
    rfl
  · next e he => cases hok.symm.trans he

/-- A program consists of the results that are statements; the others have left errors. -/
theorem program_results (stop : Token) (s : Cursor) :
    (program stop s).outcome = .ok (results stop s).reduceOption ∧
      (results stop s).length ≤ s.size ∧
      (none ∈ results stop s → s.errors.length < (program stop s).after.errors.length) := by
  by_cases hs : s.rest = []
  · rw [program, dif_pos hs, results, dif_pos hs]
    exact ⟨rfl, Nat.zero_le _, fun h => absurd h List.not_mem_nil⟩
  · obtain ⟨d, t, hd, hreaches, hlt, hnone⟩ := exists_gives_declaration stop hs
    obtain ⟨houtcome, hlength, herrors⟩ := program_results stop t
    obtain ⟨hprogram, hafter⟩ := gives_program_step hs hd ⟨houtcome, rfl⟩
    have hle := (Procedure.program.reaches stop t).errors.length_le
    rw [results_step hs hd, hprogram, hafter]
    refine ⟨?_, Nat.lt_of_le_of_lt hlength hlt, fun hmem => ?_⟩
    · cases d <;> rfl
    · rcases List.mem_cons.1 hmem with hnil | hmem
      · exact Nat.lt_of_lt_of_le (hnone hnil.symm) hle
      · exact Nat.lt_of_le_of_lt hreaches.errors.length_le (herrors hmem)
termination_by s.size

end Grammar

open Grammar Step

theorem eq_map_some_of_not_mem {α : Type} : ∀ {ds : List (Option α)}, none ∉ ds →
    ds = ds.reduceOption.map some
  | [], _ => rfl
  | none :: _, h => absurd List.mem_cons_self h
  | some d :: ds, h => by
    rw [List.reduceOption_cons_of_some, List.map_cons,
      ← eq_map_some_of_not_mem fun hmem => h (List.mem_cons_of_mem _ hmem)]

theorem parse_eq_results (tokens : List Token) (ids : IdSupply) : (parse tokens ids).1 =
    if (program (endOf tokens) (.start tokens ids)).after.errors = [] then
      .ok (results (endOf tokens) (.start tokens ids)).reduceOption
    else .error (program (endOf tokens) (.start tokens ids)).after.errors := by
  have houtcome := (program_results (endOf tokens) (.start tokens ids)).1
  unfold Cursor.start beforeEnd at houtcome ⊢
  rw [parse_eq, houtcome]
  cases (program (endOf tokens) _).after.errors <;> rfl

theorem errors_program (tokens : List Token) (ids : IdSupply) :
    ∀ e ∈ (program (endOf tokens) (.start tokens ids)).after.errors,
      ∃ t ∈ completed tokens, ∃ fault, e = .atToken t fault := by
  obtain ⟨later, hcompleted⟩ := completed_eq tokens
  have hend : endOf tokens ∈ completed tokens := by simp [hcompleted]
  have hbefore : ∀ t ∈ beforeEnd tokens, t ∈ completed tokens := fun t ht => by
    rw [hcompleted]
    exact List.mem_append_left _ ht
  obtain ⟨es, hes, hat⟩ := errors_among
    (program_tracks (lawful_among (P := (· ∈ completed tokens)) hend []) _ _
      (near_among (s := .start tokens ids) hbefore) (.inl rfl)).near
  intro e he
  obtain ⟨t, fault, ht, rfl⟩ := hat e (by rwa [← List.nil_append es, ← hes])
  exact ⟨t, ht, fault, rfl⟩

theorem results_of_parse {tokens : List Token} {ids : IdSupply} {p : Program}
    (h : (parse tokens ids).1 = .ok p) :
    results (endOf tokens) (.start tokens ids) = p.map some := by
  rw [parse_eq_results] at h
  split at h
  · next herrors =>
    cases h
    refine eq_map_some_of_not_mem fun hmem => ?_
    have hlt := (program_results (endOf tokens) (.start tokens ids)).2.2 hmem
    rw [herrors] at hlt
    exact Nat.not_lt_zero _ hlt
  · cases h

theorem errors_of_parse {tokens : List Token} {ids : IdSupply} {es : List SyntaxError}
    (h : (parse tokens ids).1 = .error es) :
    es ≠ [] ∧ ∀ e ∈ es, ∃ t ∈ completed tokens, ∃ fault, e = .atToken t fault := by
  rw [parse_eq_results] at h
  split at h
  · cases h
  · next herrors =>
    cases h
    exact ⟨herrors, errors_program tokens ids⟩

/-- Parsing moves forward only and ends at the first end token. -/
theorem parse_progress (tokens : List Token) (ids : IdSupply) :
    let stop := endOf tokens
    let start := Cursor.start tokens ids
    let last := (beforeEnd tokens).length
    (start.In tokens ∧ start.index tokens = 0) ∧
    ((completed tokens)[last]? = some stop ∧ stop.kind = .eof ∧
      ∀ i < last, ∀ t, (completed tokens)[i]? = some t → t.kind ≠ .eof) ∧
    (∀ s : Cursor, s.In tokens →
      (s.index tokens ≤ last ∧ (completed tokens)[s.index tokens]? = some (s.peek stop)) ∧
      (∀ p : Procedure,
        (p.after stop s).In tokens ∧ s.index tokens ≤ (p.after stop s).index tokens) ∧
      ∀ hs : s.rest ≠ [], ∃ d t, (recover hs (declaration stop s)).Gives d t ∧ t.In tokens ∧
        s.index tokens < t.index tokens ∧ s.errors <+: t.errors ∧
        (d = none → s.errors.length < t.errors.length)) ∧
    ((program stop start).after.index tokens = last ∧ (results stop start).length ≤ last) ∧
    match (parse tokens ids).1 with
    | .ok p => results stop start = p.map some
    | .error es => es ≠ [] ∧ ∀ e ∈ es, ∃ t ∈ completed tokens, ∃ fault, e = .atToken t fault := by
  intro stop start last
  obtain ⟨-, hlength, -⟩ := program_results stop start
  refine ⟨⟨List.suffix_refl _, Nat.sub_self _⟩,
    ⟨getElem?_completed tokens, kind_endOf tokens, kind_of_getElem?_completed tokens⟩,
    fun s hs => ⟨?_, fun p => ?_, fun hne => ?_⟩, ⟨?_, hlength⟩, ?_⟩
  · exact ⟨Nat.sub_le _ _, hs.getElem?_index⟩
  · exact hs.reaches (p.reaches stop s)
  · obtain ⟨d, t, hd, hreaches, hlt, herrors⟩ := exists_gives_declaration stop hne
    exact ⟨d, t, hd, (hs.reaches hreaches).1, hs.index_lt hlt, hreaches.errors, herrors⟩
  · rw [Cursor.index, rest_program]
    rfl
  · split
    · next p hp => exact results_of_parse hp
    · next es hes => exact errors_of_parse hes

/-- `var ;`, an end token and then `print`, with no end token behind it. -/
def stoppedTokens : List Token :=
  [⟨.varWord, "var", none, 1⟩, ⟨.semicolon, ";", none, 1⟩, .atEnd 2, ⟨.printWord, "print", none, 3⟩]

theorem parse_progress_stopped (ids : IdSupply) :
    beforeEnd stoppedTokens = stoppedTokens.take 2 ∧
    completed stoppedTokens = stoppedTokens ++ [.atEnd 3] ∧
    (∃ hs d t,
      (recover hs (declaration (endOf stoppedTokens) (.start stoppedTokens ids))).Gives d t ∧
      t.In stoppedTokens ∧ 0 < t.index stoppedTokens ∧
      (d = none → (Cursor.start stoppedTokens ids).errors.length < t.errors.length)) ∧
    ∀ p : Procedure,
      (p.after (endOf stoppedTokens) (.start stoppedTokens ids)).In stoppedTokens := by
  obtain ⟨⟨hin, hzero⟩, -, hall, -⟩ := parse_progress stoppedTokens ids
  obtain ⟨-, hprocedure, hdeclaration⟩ := hall _ hin
  have hs : (Cursor.start stoppedTokens ids).rest ≠ [] := List.cons_ne_nil _ _
  obtain ⟨d, t, hd, ht, hlt, -, hnone⟩ := hdeclaration hs
  rw [hzero] at hlt
  exact ⟨rfl, rfl, ⟨hs, d, t, hd, ht, hlt, hnone⟩, fun p => (hprocedure p).1⟩

end Lox
