import Lox.Proofs.Settled
import Lox.Proofs.Twin.Tree

/-! Resolution of twins.
The walk over twins opens the same scopes, declares the same names and meets the same errors
(`resolve_alike`). So a use and its twin are settled at the same depth (`AllTwin.settle`). -/
namespace Lox

structure Likeness.Lawful (L : Likeness) : Prop where
  kind : ∀ t t', L.token t t' → t'.kind = t.kind
  lexeme : ∀ t t', L.token t t' → t'.lexeme = t.lexeme

/-- Two walks with the same open scopes, which have met the same errors. -/
structure Walk.Alike (token : Token → Token → Prop) (w w' : Walk) : Prop where
  scopes : w'.scopes = w.scopes
  errors : List.Forall₂ (SyntaxError.Alike token) w.errors w'.errors

variable {L : Likeness}

namespace Walk.Alike

variable {token : Token → Token → Prop} {w w' : Walk}

theorem settle (h : w.Alike token w') (id id' : UseId) (name name' : String) :
    (w.settle id name).Alike token (w'.settle id' name') :=
  ⟨by simp [h.scopes], by simpa using h.errors⟩

theorem record (h : w.Alike token w') {t t' : Token} (ht : token t t') (fault : SyntaxFault) :
    (w.record (.atToken t fault)).Alike token (w'.record (.atToken t' fault)) :=
  ⟨h.scopes, List.rel_append h.errors (.cons (.atToken fault ht) .nil)⟩

theorem enter (h : w.Alike token w') (name : String) (ready : Bool) :
    (w.enter name ready).Alike token (w'.enter name ready) := by
  refine ⟨?_, by simpa using h.errors⟩
  have hscopes := h.scopes
  unfold Walk.enter
  rw [hscopes]
  cases w.scopes with
  | nil => exact hscopes
  | cons scope outer => rfl

theorem enterAll (h : w.Alike token w') (names : List String) :
    (w.enterAll names).Alike token (w'.enterAll names) := by
  induction names generalizing w w' with
  | nil => exact h
  | cons name names ih => exact ih (h.enter name true)

theorem openScope (h : w.Alike token w') : w.openScope.Alike token w'.openScope :=
  ⟨congrArg ([] :: ·) h.scopes, h.errors⟩

theorem closeScope (h : w.Alike token w') : w.closeScope.Alike token w'.closeScope :=
  ⟨congrArg List.tail h.scopes, h.errors⟩

theorem enterReturn (h : w.Alike token w') (inFunction : Bool) {t t' : Token} (ht : token t t') :
    (w.enterReturn inFunction t).Alike token (w'.enterReturn inFunction t') := by
  unfold Walk.enterReturn
  split
  · exact h
  · exact h.record ht _

end Walk.Alike

theorem Likeness.Lawful.map_lexeme (hL : L.Lawful) {ts ts' : List Token}
    (h : List.Forall₂ L.token ts ts') : ts'.map Token.lexeme = ts.map Token.lexeme := by
  induction h with
  | nil => rfl
  | cons ht _ ih => rw [List.map_cons, List.map_cons, hL.lexeme _ _ ht, ih]

theorem Walk.Alike.enterBody {w w' : Walk} (hL : L.Lawful) (h : w.Alike L.token w')
    {name name' : Token} (hname : L.token name name') {params params' : List Token}
    (hparams : List.Forall₂ L.token params params') :
    (w.enterBody name params).Alike L.token (w'.enterBody name' params') := by
  unfold Walk.enterBody Walk.openBody
  rw [hL.lexeme _ _ hname, hL.map_lexeme hparams]
  exact (h.enter _ _).openScope.enterAll _

mutual

theorem Expr.Twin.walk (hL : L.Lawful) {w w' : Walk} (h : w.Alike L.token w') {e e' : Expr} :
    e.Twin L e' → (w.expression e).Alike L.token (w'.expression e')
  | .literal _ => h
  | .group inner => inner.walk hL h
  | .groupLeft _ inner | .groupRight _ inner => inner.walk hL h
  | .unary _ operand => operand.walk hL h
  | .binary left _ right | .logical left _ right => right.walk hL (left.walk hL h)
  | @Expr.Twin.use _ id id' name name' same token => by
    rw [Walk.expression, Walk.expression, hL.lexeme _ _ token, Walk.inOwnInitializer_congr h.scopes]
    split
    · exact (h.record token _).settle _ _ _ _
    · exact h.settle _ _ _ _
  | .assign _ _ value => (value.walk hL h).settle _ _ _ _
  | .call head tail _ => tail.walk hL (head.walk hL h)

theorem Expr.AllTwin.walk (hL : L.Lawful) {w w' : Walk} (h : w.Alike L.token w')
    {es es' : List Expr} :
    Expr.AllTwin L es es' → (w.expressions es).Alike L.token (w'.expressions es')
  | .nil => h
  | .cons head tail => tail.walk hL (head.walk hL h)

end

mutual

theorem Stmt.Twin.walk (hL : L.Lawful) {inFunction : Bool} {w w' : Walk} (h : w.Alike L.token w')
    {s s' : Stmt} :
    s.Twin L s' → (w.statement inFunction s).Alike L.token (w'.statement inFunction s')
  | .expression value => value.walk hL h
  | .print value => value.walk hL h
  | .var token => by
    rw [Walk.statement, Walk.statement, hL.lexeme _ _ token]
    exact h.enter _ _
  | .init token value => by
    rw [Walk.statement, Walk.statement, hL.lexeme _ _ token]
    exact (value.walk hL (h.enter _ _)).enter _ _
  | .block all => (all.walk hL h.openScope).closeScope
  | .branch condition consequent => consequent.walk hL (condition.walk hL h)
  | .branchElse condition consequent alternative =>
    alternative.walk hL (consequent.walk hL (condition.walk hL h))
  | .loop condition body => body.walk hL (condition.walk hL h)
  | .function token tokens all => (all.walk hL (h.enterBody hL token tokens)).closeScope
  | .ret token => h.enterReturn inFunction token
  | .retValue token value => value.walk hL (h.enterReturn inFunction token)

theorem Stmt.AllTwin.walk (hL : L.Lawful) {inFunction : Bool} {w w' : Walk}
    (h : w.Alike L.token w') {ss ss' : List Stmt} :
    Stmt.AllTwin L ss ss' → (w.statements inFunction ss).Alike L.token (w'.statements inFunction ss')
  | .nil => h
  | .cons head tail => tail.walk hL (head.walk hL h)

end

inductive SameResolution (token : Token → Token → Prop) :
    Except (List SyntaxError) Resolution → Except (List SyntaxError) Resolution → Prop
  | ok (r r' : Resolution) : SameResolution token (.ok r) (.ok r')
  | error {es es' : List SyntaxError} (alike : List.Forall₂ (SyntaxError.Alike token) es es') :
    SameResolution token (.error es) (.error es')

theorem resolve_alike (hL : L.Lawful) {p p' : Program} (h : Stmt.AllTwin L p p') :
    SameResolution L.token (resolve p) (resolve p') := by
  have hwalk : Walk.Alike L.token .initial .initial := ⟨rfl, .nil⟩
  have herrors : List.Forall₂ (SyntaxError.Alike L.token) (Walk.initial.statements false p).errors
      (Walk.initial.statements false p').errors := (h.walk hL hwalk).errors
  unfold resolve
  dsimp only
  generalize (Walk.initial.statements false p) = v, (Walk.initial.statements false p') = v' at herrors ⊢
  obtain ⟨scopes, depths, errors⟩ := v
  obtain ⟨scopes', depths', errors'⟩ := v'
  cases herrors with
  | nil => exact .ok _ _
  | cons he hes => exact .error (.cons he hes)

theorem Walk.depths_settle_congr {w w' : Walk} (hscopes : w'.scopes = w.scopes)
    (hdepths : w'.depths = w.depths) (id : UseId) (name : String) :
    (w'.settle id name).depths = (w.settle id name).depths := by
  unfold settle
  rw [depth?_congr hscopes]
  split
  · exact congrArg (Std.TreeMap.insert · id _) hdepths
  · exact hdepths

@[simp] theorem Walk.depths_enterReturn (w : Walk) (inFunction : Bool) (keyword : Token) :
    (w.enterReturn inFunction keyword).depths = w.depths := by
  unfold enterReturn
  split <;> rfl

mutual

/-- Where twins have the same ids, the same depths are found. -/
theorem Expr.Twin.depths (hL : L.Lawful) (huse : ∀ id id', L.use id id' → id' = id) {w w' : Walk}
    (hscopes : w'.scopes = w.scopes) (hdepths : w'.depths = w.depths) {e e' : Expr} :
    e.Twin L e' → (w'.expression e').depths = (w.expression e).depths
  | .literal _ => hdepths
  | .group inner => inner.depths hL huse hscopes hdepths
  | .groupLeft _ inner | .groupRight _ inner => inner.depths hL huse hscopes hdepths
  | .unary _ operand => operand.depths hL huse hscopes hdepths
  | .binary left _ right | .logical left _ right =>
    right.depths hL huse (by simp [hscopes]) (left.depths hL huse hscopes hdepths)
  | @Expr.Twin.use _ id id' name name' same token => by
    rw [Walk.expression, Walk.expression, huse _ _ same, hL.lexeme _ _ token,
      Walk.inOwnInitializer_congr hscopes]
    split
    · have hrecord : (w'.record (.atToken name' .ownInitializer)).scopes =
          (w.record (.atToken name .ownInitializer)).scopes := hscopes
      exact Walk.depths_settle_congr hrecord hdepths id _
    · exact Walk.depths_settle_congr hscopes hdepths id _
  | .assign same token value => by
    rw [Walk.expression, Walk.expression, huse _ _ same, hL.lexeme _ _ token]
    exact Walk.depths_settle_congr (by simp [hscopes]) (value.depths hL huse hscopes hdepths) _ _
  | .call head tail _ =>
    tail.depths hL huse (by simp [hscopes]) (head.depths hL huse hscopes hdepths)

theorem Expr.AllTwin.depths (hL : L.Lawful) (huse : ∀ id id', L.use id id' → id' = id)
    {w w' : Walk} (hscopes : w'.scopes = w.scopes) (hdepths : w'.depths = w.depths)
    {es es' : List Expr} :
    Expr.AllTwin L es es' → (w'.expressions es').depths = (w.expressions es).depths
  | .nil => hdepths
  | .cons head tail =>
    tail.depths hL huse (by simp [hscopes]) (head.depths hL huse hscopes hdepths)

end

mutual

theorem Stmt.Twin.depths (hL : L.Lawful) (huse : ∀ id id', L.use id id' → id' = id)
    {inFunction : Bool} {w w' : Walk} (h : w.Alike L.token w') (hdepths : w'.depths = w.depths)
    {s s' : Stmt} :
    s.Twin L s' → (w'.statement inFunction s').depths = (w.statement inFunction s).depths
  | .expression value | .print value => value.depths hL huse h.scopes hdepths
  | .var _ => by
    rw [Walk.statement, Walk.statement, Walk.depths_enter, Walk.depths_enter, hdepths]
  | .init token value => by
    rw [Walk.statement, Walk.statement, Walk.depths_enter, Walk.depths_enter, hL.lexeme _ _ token]
    exact value.depths hL huse (h.enter _ _).scopes (by simpa using hdepths)
  | .block all => all.depths hL huse h.openScope hdepths
  | .branch condition consequent =>
    consequent.depths hL huse (condition.walk hL h) (condition.depths hL huse h.scopes hdepths)
  | .branchElse condition consequent alternative =>
    have hc := condition.walk hL h
    alternative.depths hL huse (consequent.walk hL hc)
      (consequent.depths hL huse hc (condition.depths hL huse h.scopes hdepths))
  | .loop condition body =>
    body.depths hL huse (condition.walk hL h) (condition.depths hL huse h.scopes hdepths)
  | .function token tokens all =>
    all.depths hL huse (h.enterBody hL token tokens)
      (by simpa [Walk.enterBody, Walk.openBody, Walk.openScope] using hdepths)
  | .ret _ =>
    (w'.depths_enterReturn inFunction _).trans
      (hdepths.trans (w.depths_enterReturn inFunction _).symm)
  | .retValue token value =>
    value.depths hL huse (h.enterReturn inFunction token).scopes (by simpa using hdepths)

theorem Stmt.AllTwin.depths (hL : L.Lawful) (huse : ∀ id id', L.use id id' → id' = id)
    {inFunction : Bool} {w w' : Walk} (h : w.Alike L.token w') (hdepths : w'.depths = w.depths)
    {ss ss' : List Stmt} : Stmt.AllTwin L ss ss' →
      (w'.statements inFunction ss').depths = (w.statements inFunction ss).depths
  | .nil => hdepths
  | .cons head tail => tail.depths hL huse (head.walk hL h) (head.depths hL huse h hdepths)

end

theorem resolve_eq_of_alike (hL : L.Lawful) (huse : ∀ id id', L.use id id' → id' = id)
    {p p' : Program} (h : Stmt.AllTwin L p p') {r r' : Resolution} (hr : resolve p = .ok r)
    (hr' : resolve p' = .ok r') : r' = r := by
  have hdepths : (Walk.initial.statements false p').depths =
      (Walk.initial.statements false p).depths := h.depths hL huse ⟨rfl, .nil⟩ rfl
  unfold resolve at hr hr'
  dsimp only at hr hr'
  split at hr
  · split at hr'
    · cases hr
      cases hr'
      exact hdepths
    · cases hr'
  · cases hr

/-- What is alike in one sense is alike in another if the tables have the same depth for the uses. -/
structure Likeness.Settles (L M : Likeness) (r r' : Resolution) (known known' : UseId → Prop) :
    Prop where
  lawful : L.Lawful
  groupless : L.groupless → M.groupless
  token : ∀ t t', L.token t t' → M.token t t'
  use : ∀ id id', known id → known' id' → r[id]? = r'[id']? → M.use id id'

section

variable {M : Likeness} {r r' : Resolution} {known known' : UseId → Prop}

mutual

theorem Expr.Twin.settle (h : L.Settles M r r' known known') {w w' : Walk}
    (hw : w'.scopes = w.scopes) {e e' : Expr} : e.Twin L e' → w.Settled r e → w'.Settled r' e' →
      (∀ id ∈ e.uses, known id) → (∀ id ∈ e'.uses, known' id) → e.Twin M e'
  | .literal value, _, _, _, _ => .literal value
  | .group inner, hs, hs', hk, hk' => .group (inner.settle h hw hs hs' hk hk')
  | .groupLeft groupless inner, hs, hs', hk, hk' =>
    .groupLeft (h.groupless groupless) (inner.settle h hw hs hs' hk hk')
  | .groupRight groupless inner, hs, hs', hk, hk' =>
    .groupRight (h.groupless groupless) (inner.settle h hw hs hs' hk hk')
  | .unary token operand, hs, hs', hk, hk' =>
    .unary (h.token _ _ token) (operand.settle h hw hs hs' hk hk')
  | .binary left token right, hs, hs', hk, hk' =>
    have hk := List.forall_mem_append.1 hk
    have hk' := List.forall_mem_append.1 hk'
    .binary (left.settle h hw hs.1 hs'.1 hk.1 hk'.1) (h.token _ _ token)
      (right.settle h (by simp [hw]) hs.2 hs'.2 hk.2 hk'.2)
  | .logical left token right, hs, hs', hk, hk' =>
    have hk := List.forall_mem_append.1 hk
    have hk' := List.forall_mem_append.1 hk'
    .logical (left.settle h hw hs.1 hs'.1 hk.1 hk'.1) (h.token _ _ token)
      (right.settle h (by simp [hw]) hs.2 hs'.2 hk.2 hk'.2)
  | @Expr.Twin.use _ id id' name name' same token, hs, hs', hk, hk' => by
    refine .use (h.use id id' (hk id (List.mem_singleton_self id))
      (hk' id' (List.mem_singleton_self id')) ?_) (h.token _ _ token)
    rw [hs.1, hs'.1, h.lawful.lexeme _ _ token, Walk.depth?_congr hw]
  | @Expr.Twin.assign _ id id' name name' e e' same token value, hs, hs', hk, hk' => by
    have hk := List.forall_mem_append.1 hk
    have hk' := List.forall_mem_append.1 hk'
    refine .assign (h.use id id' (hk.2 id (List.mem_singleton_self id))
      (hk'.2 id' (List.mem_singleton_self id')) ?_) (h.token _ _ token)
      (value.settle h hw hs.1 hs'.1 hk.1 hk'.1)
    rw [hs.2, hs'.2, h.lawful.lexeme _ _ token, Walk.depth?_congr hw]
  | .call head tail token, hs, hs', hk, hk' =>
    have hk := List.forall_mem_append.1 hk
    have hk' := List.forall_mem_append.1 hk'
    .call (head.settle h hw hs.1 hs'.1 hk.1 hk'.1)
      (tail.settle h (by simp [hw]) hs.2 hs'.2 hk.2 hk'.2) (h.token _ _ token)

theorem Expr.AllTwin.settle (h : L.Settles M r r' known known') {w w' : Walk}
    (hw : w'.scopes = w.scopes) {es es' : List Expr} :
    Expr.AllTwin L es es' → w.SettledAll r es → w'.SettledAll r' es' →
      (∀ id ∈ Expr.usesAll es, known id) → (∀ id ∈ Expr.usesAll es', known' id) →
        Expr.AllTwin M es es'
  | .nil, _, _, _, _ => .nil
  | .cons head tail, hs, hs', hk, hk' =>
    have hk := List.forall_mem_append.1 hk
    have hk' := List.forall_mem_append.1 hk'
    .cons (head.settle h hw hs.1 hs'.1 hk.1 hk'.1)
      (tail.settle h (by simp [hw]) hs.2 hs'.2 hk.2 hk'.2)

end

mutual

theorem Stmt.Twin.settle (h : L.Settles M r r' known known') {inFunction : Bool} {w w' : Walk}
    (hw : w.Alike L.token w') {s s' : Stmt} : s.Twin L s' → w.SettledStatement r inFunction s →
      w'.SettledStatement r' inFunction s' → (∀ id ∈ s.uses, known id) →
        (∀ id ∈ s'.uses, known' id) → s.Twin M s'
  | .expression value, hs, hs', hk, hk' => .expression (value.settle h hw.scopes hs hs' hk hk')
  | .print value, hs, hs', hk, hk' => .print (value.settle h hw.scopes hs hs' hk hk')
  | .var token, _, _, _, _ => .var (h.token _ _ token)
  | @Stmt.Twin.init _ name name' e e' token value, hs, hs', hk, hk' => by
    have henter := hw.enter name.lexeme false
    rw [← h.lawful.lexeme _ _ token] at henter
    refine .init (h.token _ _ token) (value.settle h ?_ hs hs' hk hk')
    rw [henter.scopes, h.lawful.lexeme _ _ token]
  | .block all, hs, hs', hk, hk' => .block (all.settle h hw.openScope hs hs' hk hk')
  | .branch condition consequent, hs, hs', hk, hk' =>
    have hk := List.forall_mem_append.1 hk
    have hk' := List.forall_mem_append.1 hk'
    have hc := condition.walk h.lawful hw
    .branch (condition.settle h hw.scopes hs.1 hs'.1 hk.1 hk'.1)
      (consequent.settle h hc hs.2 hs'.2 hk.2 hk'.2)
  | .branchElse condition consequent alternative, hs, hs', hk, hk' =>
    have hk := List.forall_mem_append.1 hk
    have hk' := List.forall_mem_append.1 hk'
    have hka := List.forall_mem_append.1 hk.2
    have hka' := List.forall_mem_append.1 hk'.2
    have hc := condition.walk h.lawful hw
    .branchElse (condition.settle h hw.scopes hs.1 hs'.1 hk.1 hk'.1)
      (consequent.settle h hc hs.2.1 hs'.2.1 hka.1 hka'.1)
      (alternative.settle h (consequent.walk h.lawful hc) hs.2.2 hs'.2.2 hka.2 hka'.2)
  | .loop condition body, hs, hs', hk, hk' =>
    have hk := List.forall_mem_append.1 hk
    have hk' := List.forall_mem_append.1 hk'
    .loop (condition.settle h hw.scopes hs.1 hs'.1 hk.1 hk'.1)
      (body.settle h (condition.walk h.lawful hw) hs.2 hs'.2 hk.2 hk'.2)
  | .function token tokens all, hs, hs', hk, hk' =>
    .function (h.token _ _ token) (tokens.imp h.token)
      (all.settle h (hw.enterBody h.lawful token tokens) hs hs' hk hk')
  | .ret token, _, _, _, _ => .ret (h.token _ _ token)
  | .retValue token value, hs, hs', hk, hk' =>
    .retValue (h.token _ _ token)
      (value.settle h (hw.enterReturn inFunction token).scopes hs hs' hk hk')

theorem Stmt.AllTwin.settle (h : L.Settles M r r' known known') {inFunction : Bool} {w w' : Walk}
    (hw : w.Alike L.token w') {ss ss' : List Stmt} : Stmt.AllTwin L ss ss' →
      w.SettledStatements r inFunction ss → w'.SettledStatements r' inFunction ss' →
        (∀ id ∈ Stmt.usesAll ss, known id) → (∀ id ∈ Stmt.usesAll ss', known' id) →
          Stmt.AllTwin M ss ss'
  | .nil, _, _, _, _ => .nil
  | .cons head tail, hs, hs', hk, hk' =>
    have hk := List.forall_mem_append.1 hk
    have hk' := List.forall_mem_append.1 hk'
    .cons (head.settle h hw hs.1 hs'.1 hk.1 hk'.1)
      (tail.settle h (head.walk h.lawful hw) hs.2 hs'.2 hk.2 hk'.2)

end

end

end Lox
