import Lox.Proofs.Twin.Placement

/-! Parsing goes alike in two places.
Expressions are read alike as long as a token follows them in the first place, statements also at its
end, unless what follows in the second place goes on with an `else`. -/
namespace Lox

theorem Cursor.peek_of_nil {s : Cursor} {stop : Token} (h : ∀ t ∈ s.rest.head?, true = false) :
    s.peek stop = stop := by
  unfold peek
  cases hs : s.rest with
  | nil => rfl
  | cons t ts => cases h t (by rw [hs]; rfl)

theorem Cursor.peek_of_cons {s : Cursor} {stop t : Token} {ts : List Token}
    (h : s.rest = t :: ts) : s.peek stop = t := by
  rw [peek, h]
  rfl

namespace Grammar

open Placement

variable {A : Placement}

theorem constant?_congr {t t' : Token} (hk : t'.kind = t.kind) (hl : t'.literal = t.literal) :
    constant? t' = constant? t := by
  unfold constant?
  rw [hk, hl]

theorem twin_node {L : Likeness} (l : Level) {e e' f f' : Expr} {op op' : Token}
    (left : e.Twin L e') (token : L.token op op') (right : f.Twin L f') :
    (l.node e op f).Twin L (l.node e' op' f') := by
  cases l <;> first | exact .logical left token right | exact .binary left token right

theorem twin_constant? {L : Likeness} {t : Token} {e : Expr} (h : constant? t = some e) :
    e.Twin L e := by
  unfold constant? at h
  split at h <;> first | cases h; exact .literal _ | cases h

mutual

theorem expression_tracks (hA : A.Lawful) (s s' : Cursor) (h : A.Near s s') :
    A.Tracks (Expr.Twin A.likeness) (expression A.stop s) (expression A.stop' s') := by
  rw [expression, expression]
  refine (chain_tracks hA Level.all s s' h).bind fun left left' t t' ht _ hleft hnear => ?_
  refine .of_inside fun hin => ?_
  have htake := hnear.take? hA hin (· = .equal)
  generalize t.take? _ = u, t'.take? _ = u' at htake ⊢
  cases htake with
  | none => exact (hnear.done hleft).follows.tracks
  | @some equals equals' v v' hv hv' hequals _ hnear' reaches =>
    refine .further reaches ?_
    refine (expression_tracks hA v v' hnear').bind fun value value' w w' _ _ hvalue hnear => ?_
    have hrecord := hnear.record (.atToken .invalidAssignmentTarget (hA.reported _ _ hequals))
    have hreaches := (Cursor.Reaches.refl w).record (.atToken equals .invalidAssignmentTarget)
    cases hleft with
    | use same token =>
      exact fun _ => ⟨hnear.renumber (hA.take _ _ hnear.ids), .ok (.assign (hA.next _ _ hnear.ids) token hvalue),
        .renumber (.refl w) _⟩
    | groupLeft groupless => exact groupless.elim
    | groupRight groupless => exact groupless.elim
    | literal value => exact fun _ => ⟨hrecord, .ok (.literal value), hreaches⟩
    | group inner => exact fun _ => ⟨hrecord, .ok (.group inner), hreaches⟩
    | unary token operand => exact fun _ => ⟨hrecord, .ok (.unary token operand), hreaches⟩
    | binary left token right => exact fun _ => ⟨hrecord, .ok (.binary left token right), hreaches⟩
    | logical left token right => exact fun _ => ⟨hrecord, .ok (.logical left token right), hreaches⟩
    | assign same token value => exact fun _ => ⟨hrecord, .ok (.assign same token value), hreaches⟩
    | call head tail token => exact fun _ => ⟨hrecord, .ok (.call head tail token), hreaches⟩
termination_by (s.size, Level.all.length + 4)

theorem chain_tracks (hA : A.Lawful) (levels : List Level) (s s' : Cursor) (h : A.Near s s') :
    A.Tracks (Expr.Twin A.likeness) (chain A.stop levels s) (chain A.stop' levels s') := by
  cases levels with
  | nil =>
    rw [chain, chain]
    exact unary_tracks hA s s' h
  | cons l tighter =>
    rw [chain, chain]
    exact (chain_tracks hA tighter s s' h).bind fun left left' t t' ht _ hleft hnear =>
      chainRest_tracks hA l tighter hleft t t' hnear
termination_by (s.size, levels.length + 3)

theorem chainRest_tracks (hA : A.Lawful) (l : Level) (tighter : List Level) {left left' : Expr}
    (hleft : left.Twin A.likeness left') (s s' : Cursor) (h : A.Near s s') :
    A.Tracks (Expr.Twin A.likeness) (chainRest A.stop l tighter left s)
      (chainRest A.stop' l tighter left' s') := by
  rw [chainRest, chainRest]
  refine .of_inside fun hin => ?_
  have htake := h.take? hA hin l.has
  generalize s.take? _ = u, s'.take? _ = u' at htake ⊢
  cases htake with
  | none => exact (h.done hleft).follows.tracks
  | @some op op' t t' ht ht' hop _ hnear reaches =>
    refine .further reaches ?_
    exact (chain_tracks hA tighter t t' hnear).bind fun right right' u u' _ _ hright hnear =>
      chainRest_tracks hA l tighter (twin_node l hleft hop hright) u u' hnear
termination_by (s.size, 0)

theorem unary_tracks (hA : A.Lawful) (s s' : Cursor) (h : A.Near s s') :
    A.Tracks (Expr.Twin A.likeness) (unary A.stop s) (unary A.stop' s') := by
  rw [unary, unary]
  refine .of_inside fun hin => ?_
  have htake := h.take? hA hin fun k => k = .bang || k = .minus
  generalize s.take? _ = u, s'.take? _ = u' at htake ⊢
  cases htake with
  | none => exact call_tracks hA s s' h
  | @some op op' t t' ht ht' hop _ hnear reaches =>
    refine .since reaches ?_
    exact (unary_tracks hA t t' hnear).bind fun operand operand' u u' _ _ hoperand hnear =>
      (hnear.done (.unary hop hoperand)).follows.tracks
termination_by (s.size, 2)

theorem call_tracks (hA : A.Lawful) (s s' : Cursor) (h : A.Near s s') :
    A.Tracks (Expr.Twin A.likeness) (call A.stop s) (call A.stop' s') := by
  rw [call, call]
  exact (primary_tracks hA s s' h).bind fun callee callee' t t' ht _ hcallee hnear =>
    callRest_tracks hA hcallee t t' hnear
termination_by (s.size, 1)

theorem callRest_tracks (hA : A.Lawful) {callee callee' : Expr} (hcallee : callee.Twin A.likeness callee')
    (s s' : Cursor) (h : A.Near s s') :
    A.Tracks (Expr.Twin A.likeness) (callRest A.stop callee s) (callRest A.stop' callee' s') := by
  rw [callRest, callRest]
  refine .of_inside fun hin => ?_
  have htake := h.take? hA hin (· = .leftParen)
  generalize s.take? _ = u, s'.take? _ = u' at htake ⊢
  cases htake with
  | none => exact (h.done hcallee).follows.tracks
  | @some _ _ t t' ht ht' _ _ hnear reaches =>
    refine .further reaches ?_
    refine (arguments_tracks hA t t' hnear).bind fun args args' u u' _ _ hargs hnear => ?_
    refine (hnear.expect hA _ _).tracks.bind fun paren paren' v v' _ _ hparen hnear => ?_
    exact callRest_tracks hA (.call hcallee hargs hparen) v v' hnear
termination_by (s.size, 0)

theorem arguments_tracks (hA : A.Lawful) (s s' : Cursor) (h : A.Near s s') :
    A.Tracks (Expr.AllTwin A.likeness) (arguments A.stop s) (arguments A.stop' s') := by
  rw [arguments, arguments]
  refine .of_inside fun hin => ?_
  rw [h.sees hA hin]
  split
  · exact (h.done .nil).follows.tracks
  · exact argumentList_tracks hA 0 s s' h
termination_by (s.size, Level.all.length + 6)

theorem argumentList_tracks (hA : A.Lawful) (count : Nat) (s s' : Cursor) (h : A.Near s s') :
    A.Tracks (Expr.AllTwin A.likeness) (argumentList A.stop count s)
      (argumentList A.stop' count s') := by
  rw [argumentList, argumentList]
  refine .of_inside fun hin => ?_
  obtain ⟨hcheck, hreaches⟩ := h.checkArity hA hin count .tooManyArguments
  have hsize := size_checkArity A.stop count .tooManyArguments s
  refine .since hreaches ?_
  refine (expression_tracks hA _ _ hcheck).bind fun a a' t t' ht _ ha hnear => ?_
  refine .of_inside fun hin => ?_
  have htake := hnear.take? hA hin (· = .comma)
  generalize t.take? _ = u, t'.take? _ = u' at htake ⊢
  cases htake with
  | none => exact (hnear.done (.cons ha .nil)).follows.tracks
  | @some _ _ u u' hu hu' _ _ hnear reaches =>
    refine .further reaches ?_
    exact (argumentList_tracks hA (count + 1) u u' hnear).bind fun as as' v v' _ _ has hnear =>
      (hnear.done (.cons ha has)).follows.tracks
termination_by (s.size, Level.all.length + 5)

theorem primary_tracks (hA : A.Lawful) (s s' : Cursor) (h : A.Near s s') :
    A.Tracks (Expr.Twin A.likeness) (primary A.stop s) (primary A.stop' s') := by
  rw [primary, primary]
  refine .of_inside fun hin => ?_
  have hfail : A.Same (Expr.Twin A.likeness)
      (Step.fail (.atToken (s.peek A.stop) .expectExpression) s : Step Expr s 1)
      (Step.fail (.atToken (s'.peek A.stop') .expectExpression) s' : Step Expr s' 1) :=
    h.fail hA hin .expectExpression
  have htake := h.take? hA hin fun _ => true
  generalize s.take? _ = u, s'.take? _ = u' at htake ⊢
  cases htake with
  | none head head' =>
    rw [Cursor.peek_of_nil head, Cursor.peek_of_nil head'] at hfail
    exact hfail.follows.tracks
  | @some token token' t t' ht ht' htoken _ hnear reaches head head' =>
    rw [Cursor.peek_of_cons head, Cursor.peek_of_cons head'] at hfail
    dsimp only
    rw [constant?_congr (hA.kind _ _ htoken) (hA.literal _ _ htoken), hA.kind _ _ htoken]
    split
    · next e he => exact .since reaches (hnear.done (twin_constant? he)).follows.tracks
    · split
      · exact .since reaches fun _ => ⟨hnear.renumber (hA.take _ _ hnear.ids),
          .ok (.use (hA.next _ _ hnear.ids) htoken), .renumber (.refl t) _⟩
      · split
        · refine .since reaches ?_
          refine (expression_tracks hA t t' hnear).bind fun inner inner' u u' _ _ hinner hnear => ?_
          exact (hnear.expect hA _ _).tracks.bind fun _ _ v v' _ _ _ hnear =>
            (hnear.done (.group hinner)).follows.tracks
        · exact hfail.follows.tracks
termination_by (s.size, 0)

end

theorem twin_forLoop {L : Likeness} {init init' : Option Stmt} {condition condition' : Option Expr}
    {increment increment' : Option Expr} {body body' : Stmt}
    (hinit : Option.Rel (Stmt.Twin L) init init')
    (hcondition : Option.Rel (Expr.Twin L) condition condition')
    (hincrement : Option.Rel (Expr.Twin L) increment increment') (hbody : body.Twin L body') :
    (Stmt.forLoop init condition increment body).Twin L
      (Stmt.forLoop init' condition' increment' body') := by
  have hround : ∀ {s s' : Stmt}, s.Twin L s' →
      (Stmt.loop (condition.getD (.literal (.bool true))) s).Twin L
        (.loop (condition'.getD (.literal (.bool true))) s') := by
    intro s s' hs
    cases hcondition with
    | none => exact .loop (.literal _) hs
    | some hcondition => exact .loop hcondition hs
  cases hinit with
  | none =>
    cases hincrement with
    | none => exact hround hbody
    | some hincrement => exact hround (.block (.cons hbody (.cons (.expression hincrement) .nil)))
  | some hinit =>
    cases hincrement with
    | none => exact .block (.cons hinit (.cons (hround hbody) .nil))
    | some hincrement =>
      exact .block (.cons hinit
        (.cons (hround (.block (.cons hbody (.cons (.expression hincrement) .nil)))) .nil))

theorem optionalExpression_tracks (hA : A.Lawful) (absent : Kind) (s s' : Cursor)
    (h : A.Near s s') : A.Tracks (Option.Rel (Expr.Twin A.likeness))
      (optionalExpression A.stop absent s) (optionalExpression A.stop' absent s') := by
  unfold optionalExpression
  refine .of_inside fun hin => ?_
  rw [h.sees hA hin]
  split
  · exact (h.done .none).follows.tracks
  · refine .since (.refl s) ?_
    exact (expression_tracks hA s s' h).bind fun e e' t t' _ _ he hnear =>
      (hnear.done (.some he)).follows.tracks

theorem variableDeclaration_follows (hA : A.Lawful) (s s' : Cursor) (h : A.Near s s') :
    A.Follows (Stmt.Twin A.likeness) (variableDeclaration A.stop s)
      (variableDeclaration A.stop' s') := by
  unfold variableDeclaration
  refine (h.expect hA _ _).bind fun name name' t t' _ _ hname hnear => ?_
  refine .of_inside fun hin => ?_
  have htake := hnear.take? hA hin (· = .equal)
  generalize t.take? _ = u, t'.take? _ = u' at htake ⊢
  cases htake with
  | none =>
    exact (hnear.expect hA _ _).bind fun _ _ v v' _ _ _ hnear => (hnear.done (.var hname)).follows
  | @some _ _ u u' hu hu' _ _ hnear reaches =>
    refine .since reaches ?_
    refine (expression_tracks hA u u' hnear).close fun init init' v v' _ _ hinit hnear => ?_
    exact (hnear.expect hA _ _).bind fun _ _ w w' _ _ _ hnear =>
      (hnear.done (.init hname hinit)).follows

theorem expressionStatement_follows (hA : A.Lawful) (s s' : Cursor) (h : A.Near s s') :
    A.Follows (Stmt.Twin A.likeness) (expressionStatement A.stop s)
      (expressionStatement A.stop' s') := by
  unfold expressionStatement
  refine (expression_tracks hA s s' h).close fun e e' t t' _ _ he hnear => ?_
  exact (hnear.expect hA _ _).bind fun _ _ u u' _ _ _ hnear => (hnear.done (.expression he)).follows

theorem parameterList_tracks (hA : A.Lawful) (count : Nat) (s s' : Cursor) (h : A.Near s s') :
    A.Tracks (List.Forall₂ A.token) (parameterList A.stop count s)
      (parameterList A.stop' count s') := by
  rw [parameterList, parameterList]
  refine .of_inside fun hin => ?_
  obtain ⟨hcheck, hreaches⟩ := h.checkArity hA hin count .tooManyParameters
  have hsize := size_checkArity A.stop count .tooManyParameters s
  refine .since hreaches ?_
  refine (hcheck.expect hA _ _).tracks.bind fun name name' t t' ht _ hname hnear => ?_
  refine .of_inside fun hin => ?_
  have htake := hnear.take? hA hin (· = .comma)
  generalize t.take? _ = u, t'.take? _ = u' at htake ⊢
  cases htake with
  | none => exact (hnear.done (.cons hname .nil)).follows.tracks
  | @some _ _ u u' hu hu' _ _ hnear reaches =>
    refine .further reaches ?_
    exact (parameterList_tracks hA (count + 1) u u' hnear).bind
      fun names names' v v' _ _ hnames hnear => (hnear.done (.cons hname hnames)).follows.tracks
termination_by s.size

theorem parameters_tracks (hA : A.Lawful) (s s' : Cursor) (h : A.Near s s') :
    A.Tracks (List.Forall₂ A.token) (parameters A.stop s) (parameters A.stop' s') := by
  unfold parameters
  refine .of_inside fun hin => ?_
  rw [h.sees hA hin]
  split
  · exact (h.done .nil).follows.tracks
  · exact parameterList_tracks hA 0 s s' h

theorem loopInitializer_follows (hA : A.Lawful) (s s' : Cursor) (h : A.Near s s') :
    A.Follows (Option.Rel (Stmt.Twin A.likeness)) (loopInitializer A.stop s)
      (loopInitializer A.stop' s') := by
  unfold loopInitializer
  refine .of_inside fun hin => ?_
  have hsemicolon := h.take? hA hin (· = .semicolon)
  generalize s.take? (· = .semicolon) = u, s'.take? (· = .semicolon) = u' at hsemicolon ⊢
  cases hsemicolon with
  | some _ _ _ _ hnear reaches => exact .since reaches (hnear.done .none).follows
  | none =>
    dsimp only
    have hvar := h.take? hA hin (· = .varWord)
    generalize s.take? _ = u, s'.take? _ = u' at hvar ⊢
    cases hvar with
    | @some _ _ t t' _ _ _ _ hnear reaches =>
      refine .since reaches ?_
      exact (variableDeclaration_follows hA t t' hnear).bind fun init init' u u' _ _ hinit hnear =>
        (hnear.done (.some hinit)).follows
    | none =>
      exact (expressionStatement_follows hA s s' h).bind fun init init' t t' _ _ hinit hnear =>
        (hnear.done (.some hinit)).follows

theorem synchronize_suffix (ts : List Token) : synchronize ts <:+ ts := by
  induction ts with
  | nil => exact List.suffix_refl _
  | cons t ts ih =>
    unfold synchronize
    split
    · exact List.suffix_cons t ts
    · exact ih.trans (List.suffix_cons t ts)

/-- Skipping that stops inside the first list stops at the corresponding place. -/
theorem synchronize_near (hA : A.Lawful) {ts us : List Token} (h : List.Forall₂ A.token ts us)
    (hin : A.behind = [] ∨ synchronize ts ≠ []) :
    ∃ vs, List.Forall₂ A.token (synchronize ts) vs ∧ synchronize (us ++ A.behind) = vs ++ A.behind := by
  induction h with
  | nil =>
    have hbehind := hin.resolve_right fun hne => hne rfl
    exact ⟨[], .nil, by rw [hbehind]; rfl⟩
  | @cons t u ts us htu h ih =>
    have hhead : ts = [] → A.behind = [] := by
      rintro rfl
      refine hin.resolve_right fun hne => hne ?_
      unfold synchronize
      split <;> rfl
    have hnext : ((us ++ A.behind).head?.any fun u => startsStatement u.kind) =
        (ts.head?.any fun u => startsStatement u.kind) := by
      cases h with
      | nil =>
        rw [hhead rfl]
        rfl
      | cons htu _ => exact congrArg startsStatement (hA.kind _ _ htu)
    rw [List.cons_append]
    unfold synchronize at hin ⊢
    rw [hA.kind _ _ htu, hnext]
    split
    · exact ⟨us, h, rfl⟩
    · next hstop =>
      rw [if_neg hstop] at hin
      exact ih hin

theorem recover_tracks (hA : A.Lawful) {α β : Type} {R : α → β → Prop} {s s' : Cursor}
    {x : Step α s 1} {x' : Step β s' 1} (hs : s.rest ≠ []) (hs' : s'.rest ≠ [])
    (hx : A.Follows R x x') : A.Tracks (Option.Rel R) (recover hs x) (recover hs' x') := by
  intro hin
  obtain ⟨r, t, h, hok⟩ := x
  obtain ⟨r', t', h', hok'⟩ := x'
  cases r with
  | ok a =>
    obtain ⟨hnear, (houtcome : A.SameOutcome R t t' _ r'), hreaches⟩ := hx (.inl hin)
    cases houtcome with
    | ok alike => exact ⟨hnear, .ok (.some alike), hreaches⟩
  | error e =>
    have hin : A.behind = [] ∨ synchronize t.rest ≠ [] := hin
    have hint : A.Inside t := hin.imp_right fun hne hnil => hne (by rw [hnil]; rfl)
    obtain ⟨hnear, (houtcome : A.SameOutcome R t t' (.error e) r'), hreaches⟩ := hx (.inl hint)
    cases houtcome with
    | error fault reported =>
      obtain ⟨us, hus, hrest⟩ := hnear.rest
      obtain ⟨vs, hvs, hsync⟩ := synchronize_near hA hus hin
      have hrecord := hnear.record (.atToken fault reported)
      refine ⟨⟨⟨vs, hvs, ?_⟩, hrecord.errors, hrecord.ids⟩, .ok .none, ?_, ?_⟩
      · rw [← hsync, ← hrest]
        rfl
      · exact (synchronize_suffix t.rest).trans hreaches.rest
      · exact (hreaches.record _).errors

mutual

theorem declaration_follows (hA : A.Lawful) (s s' : Cursor) (h : A.Near s s') :
    A.Follows (Stmt.Twin A.likeness) (declaration A.stop s) (declaration A.stop' s') := by
  rw [declaration, declaration]
  refine .of_inside fun hin => ?_
  have hvar := h.take? hA hin (· = .varWord)
  generalize s.take? (· = .varWord) = u, s'.take? (· = .varWord) = u' at hvar ⊢
  cases hvar with
  | @some _ _ t t' ht ht' _ _ hnear reaches =>
    exact .since reaches (variableDeclaration_follows hA t t' hnear)
  | none =>
    dsimp only
    have hfun := h.take? hA hin (· = .funWord)
    generalize s.take? _ = u, s'.take? _ = u' at hfun ⊢
    cases hfun with
    | @some _ _ t t' ht ht' _ _ hnear reaches =>
      exact .since reaches (functionDeclaration_follows hA t t' hnear)
    | none => exact statement_follows hA s s' h
termination_by (s.size, 1)

theorem functionDeclaration_follows (hA : A.Lawful) (s s' : Cursor) (h : A.Near s s') :
    A.Follows (Stmt.Twin A.likeness) (functionDeclaration A.stop s)
      (functionDeclaration A.stop' s') := by
  rw [functionDeclaration, functionDeclaration]
  refine (h.expect hA _ _).bind fun name name' t t' ht _ hname hnear => ?_
  refine (hnear.expect hA _ _).bind fun _ _ u u' hu _ _ hnear => ?_
  refine (parameters_tracks hA u u' hnear).close fun params params' v v' hv _ hparams hnear => ?_
  refine (hnear.expect hA _ _).bind fun _ _ w w' hw _ _ hnear => ?_
  refine (hnear.expect hA _ _).bind fun _ _ x x' hx _ _ hnear => ?_
  exact (block_follows hA x x' hnear).bind fun body body' y y' _ _ hbody hnear =>
    (hnear.done (.function hname hparams hbody)).follows
termination_by (s.size, 0)

theorem statement_follows (hA : A.Lawful) (s s' : Cursor) (h : A.Near s s') :
    A.Follows (Stmt.Twin A.likeness) (statement A.stop s) (statement A.stop' s') := by
  rw [statement, statement]
  refine .of_inside fun hin => ?_
  have htake := h.take? hA hin fun _ => true
  generalize s.take? _ = u, s'.take? _ = u' at htake ⊢
  cases htake with
  | none => exact expressionStatement_follows hA s s' h
  | @some token token' t t' ht ht' htoken _ hnear reaches =>
    dsimp only
    rw [hA.kind _ _ htoken]
    split
    · refine .since reaches ?_
      refine (expression_tracks hA t t' hnear).close fun e e' u u' _ _ he hnear => ?_
      exact (hnear.expect hA _ _).bind fun _ _ v v' _ _ _ hnear =>
        (hnear.done (.print he)).follows
    · refine .since reaches ?_
      exact (block_follows hA t t' hnear).bind fun body body' u u' _ _ hbody hnear =>
        (hnear.done (.block hbody)).follows
    · exact .since reaches (ifStatement_follows hA t t' hnear)
    · refine .since reaches ?_
      refine (hnear.expect hA _ _).bind fun _ _ u u' hu _ _ hnear => ?_
      refine (expression_tracks hA u u' hnear).close fun e e' v v' hv _ he hnear => ?_
      refine (hnear.expect hA _ _).bind fun _ _ w w' hw _ _ hnear => ?_
      exact (statement_follows hA w w' hnear).bind fun body body' x x' _ _ hbody hnear =>
        (hnear.done (.loop he hbody)).follows
    · exact .since reaches (forStatement_follows hA t t' hnear)
    · refine .since reaches ?_
      refine (optionalExpression_tracks hA _ t t' hnear).close fun e e' u u' _ _ he hnear => ?_
      refine (hnear.expect hA _ _).bind fun _ _ v v' _ _ _ hnear => ?_
      cases he with
      | none => exact (hnear.done (.ret htoken)).follows
      | some he => exact (hnear.done (.retValue htoken he)).follows
    · exact expressionStatement_follows hA s s' h
termination_by (s.size, 0)

theorem ifStatement_follows (hA : A.Lawful) (s s' : Cursor) (h : A.Near s s') :
    A.Follows (Stmt.Twin A.likeness) (ifStatement A.stop s) (ifStatement A.stop' s') := by
  rw [ifStatement, ifStatement]
  refine (h.expect hA _ _).bind fun _ _ t t' ht _ _ hnear => ?_
  refine (expression_tracks hA t t' hnear).close fun e e' u u' hu _ he hnear => ?_
  refine (hnear.expect hA _ _).bind fun _ _ v v' hv _ _ hnear => ?_
  refine (statement_follows hA v v' hnear).bind fun c c' w w' hw _ hc hnear => ?_
  by_cases hin : A.Inside w
  · have htake := hnear.take? hA hin (· = .elseWord)
    generalize w.take? _ = r, w'.take? _ = r' at htake ⊢
    cases htake with
    | none => exact (hnear.done (.branch he hc)).follows
    | @some _ _ x x' hx hx' _ _ hnear reaches =>
      refine .further reaches ?_
      exact (statement_follows hA x x' hnear).bind fun a a' y y' _ _ ha hnear =>
        (hnear.done (.branchElse he hc ha)).follows
  · -- The first place ends here, so whether an `else` follows depends on the tokens behind.
    have hnil : w.rest = [] := by
      by_contra hne
      exact hin (.inr hne)
    have hnone : w.take? (· = .elseWord) = none :=
      Cursor.take?_of_head fun t ht => by simp [hnil] at ht
    rw [hnone]
    rintro (hinside | ⟨-, hclosed⟩)
    · exact absurd hinside hin
    · have hnone' : w'.take? (· = .elseWord) = none := by
        obtain ⟨ts, hts, hrest⟩ := hnear.rest
        rw [hnil] at hts
        cases hts
        rw [List.nil_append] at hrest
        exact Cursor.take?_of_head fun t ht => decide_eq_false (hclosed t (hrest ▸ ht))
      rw [hnone']
      exact hnear.done (.branch he hc)
termination_by (s.size, 0)

theorem forStatement_follows (hA : A.Lawful) (s s' : Cursor) (h : A.Near s s') :
    A.Follows (Stmt.Twin A.likeness) (forStatement A.stop s) (forStatement A.stop' s') := by
  rw [forStatement, forStatement]
  refine (h.expect hA _ _).bind fun _ _ t t' ht _ _ hnear => ?_
  refine (loopInitializer_follows hA t t' hnear).bind fun init init' u u' hu _ hinit hnear => ?_
  refine (optionalExpression_tracks hA _ u u' hnear).close fun c c' v v' hv _ hc hnear => ?_
  refine (hnear.expect hA _ _).bind fun _ _ w w' hw _ _ hnear => ?_
  refine (optionalExpression_tracks hA _ w w' hnear).close fun i i' x x' hx _ hi hnear => ?_
  refine (hnear.expect hA _ _).bind fun _ _ y y' hy _ _ hnear => ?_
  exact (statement_follows hA y y' hnear).bind fun body body' z z' _ _ hbody hnear =>
    (hnear.done (twin_forLoop hinit hc hi hbody)).follows
termination_by (s.size, 0)

theorem block_follows (hA : A.Lawful) (s s' : Cursor) (h : A.Near s s') :
    A.Follows (Stmt.AllTwin A.likeness) (block A.stop s) (block A.stop' s') := by
  rw [block, block]
  refine (declarations_tracks hA s s' h).close fun body body' t t' _ _ hbody hnear => ?_
  exact (hnear.expect hA _ _).bind fun _ _ u u' _ _ _ hnear => (hnear.done hbody).follows
termination_by (s.size, 3)

theorem declarations_tracks (hA : A.Lawful) (s s' : Cursor) (h : A.Near s s') :
    A.Tracks (Stmt.AllTwin A.likeness) (declarations A.stop s) (declarations A.stop' s') := by
  rw [declarations, declarations]
  refine .of_inside fun hin => ?_
  have hends : (s'.rest = [] ∨ s'.sees .rightBrace) ↔ (s.rest = [] ∨ s.sees .rightBrace) := by
    rw [h.rest_eq_nil hin, h.sees hA hin]
  by_cases hend : s.rest = [] ∨ s.sees .rightBrace
  · rw [dif_pos hend, dif_pos (hends.2 hend)]
    exact (h.done .nil).follows.tracks
  · rw [dif_neg hend, dif_neg (hends.not.2 hend)]
    refine .since (.refl s) ?_
    refine (recover_tracks hA _ _ (declaration_follows hA s s' h)).bind fun d d' t t' ht _ hd hnear => ?_
    exact (declarations_tracks hA t t' hnear).bind fun ds ds' u u' _ _ hds hnear =>
      (hnear.done (.toList_append hd hds)).follows.tracks
termination_by (s.size, 2)

end

theorem program_tracks (hA : A.Lawful) (s s' : Cursor) (h : A.Near s s') :
    A.Tracks (Stmt.AllTwin A.likeness) (program A.stop s) (program A.stop' s') := by
  rw [program, program]
  refine .of_inside fun hin => ?_
  by_cases hend : s.rest = []
  · rw [dif_pos hend, dif_pos ((h.rest_eq_nil hin).2 hend)]
    exact (h.done .nil).follows.tracks
  · rw [dif_neg hend, dif_neg ((h.rest_eq_nil hin).not.2 hend)]
    refine .since (.refl s) ?_
    refine (recover_tracks hA _ _ (declaration_follows hA s s' h)).bind fun d d' t t' ht _ hd hnear => ?_
    exact (program_tracks hA t t' hnear).bind fun ds ds' u u' _ _ hds hnear =>
      (hnear.done (.toList_append hd hds)).follows.tracks
termination_by s.size

end Grammar

def endOf (tokens : List Token) : Token :=
  (tokens.find? (·.kind = .eof)).getD (.atEnd ((tokens.getLast?.map Token.line).getD 1))

theorem parse_eq (tokens : List Token) (ids : IdSupply) : (parse tokens ids).1 =
    match (Grammar.program (endOf tokens) ⟨tokens.takeWhile (·.kind ≠ .eof), ids, []⟩).outcome,
      (Grammar.program (endOf tokens) ⟨tokens.takeWhile (·.kind ≠ .eof), ids, []⟩).after.errors with
    | .ok p, [] => .ok p
    | .ok _, errors => .error errors
    | .error e, errors => .error (errors ++ [e]) := rfl

theorem kind_endOf (tokens : List Token) : (endOf tokens).kind = .eof := by
  unfold endOf
  cases h : tokens.find? (·.kind = .eof) with
  | none => rfl
  | some t => exact of_decide_eq_true (List.find?_some h :)

/-- Two token lists are parsed to twins, or the same errors are found in both. -/
inductive SameParse (L : Likeness) :
    Except (List SyntaxError) Program → Except (List SyntaxError) Program → Prop
  | ok {p p' : Program} (twin : Stmt.AllTwin L p p') : SameParse L (.ok p) (.ok p')
  | error {es es' : List SyntaxError} (alike : List.Forall₂ (SyntaxError.Alike L.token) es es') :
    SameParse L (.error es) (.error es')

/-- Alike tokens are parsed alike, whichever supplies of ids are taken to be alike, and alike supplies
are left. -/
theorem parse_alike {token : Token → Token → Prop} {use : UseId → UseId → Prop}
    (free : IdSupply → IdSupply → Prop) (hnext : ∀ ids ids', free ids ids' → use ids.next ids'.next)
    (hkind : ∀ t t', token t t' → t'.kind = t.kind)
    (hliteral : ∀ t t', token t t' → t'.literal = t.literal)
    (htake : ∀ ids ids', free ids ids' → free ids.take.2 ids'.take.2) {tokens tokens' : List Token}
    (htokens : List.Forall₂ token (tokens.takeWhile (·.kind ≠ .eof))
      (tokens'.takeWhile (·.kind ≠ .eof)))
    (hend : token (endOf tokens) (endOf tokens')) {ids ids' : IdSupply} (hfree : free ids ids') :
    SameParse ⟨False, token, use⟩ (parse tokens ids).1 (parse tokens' ids').1 ∧
      free (parse tokens ids).2 (parse tokens' ids').2 := by
  let A : Placement := ⟨token, token, free, use, endOf tokens, endOf tokens', [], [], []⟩
  have hA : A.Lawful := ⟨hkind, hliteral, fun _ _ h => h, fun _ => hend, hnext, htake⟩
  have hnear : A.Near ⟨tokens.takeWhile (·.kind ≠ .eof), ids, []⟩
      ⟨tokens'.takeWhile (·.kind ≠ .eof), ids', []⟩ :=
    ⟨⟨_, htokens, (List.append_nil _).symm⟩, ⟨[], [], rfl, rfl, .nil⟩, hfree⟩
  have hsame : A.Same (Stmt.AllTwin A.likeness) (Grammar.program (endOf tokens) _)
    (Grammar.program (endOf tokens') _) := Grammar.program_tracks hA _ _ hnear (.inl rfl)
  refine ⟨?_, hsame.near.ids⟩
  rw [parse_eq, parse_eq]
  generalize Grammar.program (endOf tokens) _ = x, Grammar.program (endOf tokens') _ = x' at hsame ⊢
  obtain ⟨r, t, _, _⟩ := x
  obtain ⟨r', t', _, _⟩ := x'
  obtain ⟨⟨-, ⟨es, es', hes, hes', herrors⟩, -⟩, (houtcome : A.SameOutcome _ t t' r r'), -⟩ := hsame
  obtain rfl : t.errors = es := hes
  obtain rfl : t'.errors = es' := hes'
  cases houtcome with
  | ok twin =>
    dsimp only
    generalize t.errors = es, t'.errors = es' at herrors ⊢
    cases herrors with
    | nil => exact .ok twin
    | cons he hes => exact .error (.cons he hes)
  | error fault reported =>
    exact .error (List.rel_append herrors (.cons (.atToken fault reported) .nil))

end Lox
