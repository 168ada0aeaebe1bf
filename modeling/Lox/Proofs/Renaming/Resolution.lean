import Lox.Proofs.Scopes
import Lox.Proofs.Renaming.Tree

/-! The resolution of renamed programs.
The walks over the two programs are in step: the scopes have the same entries, up to names, and uses are
settled at the same depths. So if the one is accepted, the other is accepted with the same table
(`resolve_renamed`). -/
namespace Lox

namespace Change

variable {C : Change} {here here' : Prop} {m m' n n' : String}

theorem Name.congr (h : here ↔ here') (hn : C.Name here n n') : C.Name here' n n' :=
  propext h ▸ hn

theorem Name.iff (hm : C.Name here m m') (hn : C.Name here n n') : m' = n' ↔ m = n := by
  cases hm with
  | renamed inside =>
    cases hn with
    | renamed => simp
    | kept other fresh => simp [Ne.symm fresh, Ne.symm (other inside)]
  | kept other fresh =>
    cases hn with
    | renamed inside => simp [fresh, other inside]
    | kept => rfl

/-- In the renamed scope the old name is not used any more. -/
theorem Name.ne_old (hn : C.Name here n n') (h : here) : n' ≠ C.old := by
  cases hn with
  | renamed inside differ => exact differ.symm
  | kept other => exact other h

theorem Name.ne_new (hn : C.Name here n n') (h : ¬ here) : n' ≠ C.new := by
  cases hn with
  | renamed inside => exact absurd inside h
  | kept other fresh => exact fresh

theorem means_iff {position : Option Nat} {id : UseId} {depth : Nat} (h : C.depth? id = some depth) :
    C.Means position id ↔ position = some depth := by
  simp [Means, h]

end Change

namespace Walk

def ready? (w : Walk) (i : Nat) (name : String) : Option Bool :=
  w.scopes[i]?.bind fun scope => scope.lookup name

theorem ready?_congr {v w : Walk} (h : v.scopes = w.scopes) (i : Nat) (name : String) :
    v.ready? i name = w.ready? i name := by
  rw [ready?, h, ready?]

theorem ready?_enter (w : Walk) (n name : String) (ready : Bool) (i : Nat) :
    (w.enter n ready).ready? i name =
      if i = 0 ∧ n = name ∧ w.scopes.length ≠ 0 then some ready else w.ready? i name := by
  unfold ready? enter
  cases h : w.scopes with
  | nil => simp [h]
  | cons scope outer =>
    cases i with
    | zero =>
      by_cases hn : n = name
      · simp [hn]
      · simp [hn, List.lookup_cons, beq_eq_false_iff_ne.2 (Ne.symm hn)]
    | succ i => simp

theorem depth?_eq_none_iff {w : Walk} {name : String} :
    w.depth? name = none ↔ ∀ i, w.ready? i name = none := by
  unfold depth? ready?
  rw [List.findIdx?_eq_none_iff]
  constructor
  · intro h i
    cases hi : w.scopes[i]? with
    | none => rfl
    | some scope => simpa using h scope (List.mem_of_getElem? hi)
  · intro h scope hscope
    obtain ⟨i, hi⟩ := List.mem_iff_getElem?.1 hscope
    simpa [hi] using h i

theorem depth?_eq_some_iff {w : Walk} {name : String} {depth : Nat} :
    w.depth? name = some depth ↔
      (w.ready? depth name).isSome ∧ ∀ i < depth, w.ready? i name = none := by
  unfold depth? ready?
  rw [List.findIdx?_eq_some_iff_getElem]
  constructor
  · rintro ⟨hdepth, hsome, hbefore⟩
    refine ⟨by simpa [hdepth] using hsome, fun i hi => ?_⟩
    rw [List.getElem?_eq_getElem (Nat.lt_trans hi hdepth)]
    exact Option.not_isSome_iff_eq_none.1 (hbefore i hi)
  · rintro ⟨hsome, hbefore⟩
    have hdepth : depth < w.scopes.length := by
      refine Nat.lt_of_not_le fun hle => ?_
      simp [List.getElem?_eq_none hle] at hsome
    refine ⟨hdepth, by simpa [hdepth] using hsome, fun i hi => ?_⟩
    have hnone := hbefore i hi
    rw [List.getElem?_eq_getElem (Nat.lt_trans hi hdepth)] at hnone
    exact Option.not_isSome_iff_eq_none.2 hnone

theorem inOwnInitializer_eq (w : Walk) (name : String) :
    w.inOwnInitializer name = (w.ready? 0 name == some false) := by
  unfold inOwnInitializer ready?
  cases w.scopes <;> rfl

theorem depths_settle (w : Walk) (id id' : UseId) (name : String) :
    (w.settle id name).depths[id']? =
      if id = id' then (w.depth? name).or w.depths[id']? else w.depths[id']? := by
  unfold settle
  cases w.depth? name with
  | none => simp
  | some d => simp [Std.TreeMap.getElem?_insert]

/-- Two walks in step. The entries are the same up to names, and wherever the first has settled a use as it is
settled in the end, the second has done so, too. -/
structure Renames (C : Change) (position : Option Nat) (w w' : Walk) : Prop where
  length : w'.scopes.length = w.scopes.length
  same : ∀ i n n', C.Name (position = some i) n n' → w'.ready? i n' = w.ready? i n
  gone : ∀ i, position = some i → w'.ready? i C.old = none
  absent : ∀ i, position ≠ some i → w'.ready? i C.new = none
  depths : ∀ id, w.depths[id]? = C.depth? id → w'.depths[id]? = C.depth? id
  errors : w.errors = [] → w'.errors = []

namespace Renames

variable {C : Change} {position inner : Option Nat} {w w' : Walk} {id : UseId} {n n' : String}

/-- What the second walk finds for a use, the first finds as well. -/
theorem of_ready (h : w.Renames C position w') (hn : C.Name (C.Means position id) n n') {i : Nat}
    {ready : Bool} (hi : w'.ready? i n' = some ready) : w.ready? i n = some ready := by
  by_cases hposition : position = some i
  · cases hn with
    | renamed inside differ => rwa [← h.same i C.old C.new (.renamed hposition differ)]
    | kept other fresh =>
      have hold : n ≠ C.old := by
        rintro rfl
        simp [h.gone i hposition] at hi
      rwa [← h.same i n n (.kept (fun _ => hold) fresh)]
  · cases hn with
    | renamed inside differ => simp [h.absent i hposition] at hi
    | kept other fresh =>
      rwa [← h.same i n n (.kept (fun heq => absurd heq hposition) fresh)]

/-- A use that is not found, or that is found where it is settled in the end, is found at the same depth. -/
theorem depth?_eq (h : w.Renames C position w') (hn : C.Name (C.Means position id) n n')
    (hdepth : w.depth? n = none ∨ w.depth? n = C.depth? id) : w'.depth? n' = w.depth? n := by
  have hnone (i : Nat) (hi : w.ready? i n = none) : w'.ready? i n' = none := by
    rw [Option.eq_none_iff_forall_ne_some] at hi ⊢
    exact fun ready hready => hi ready (h.of_ready hn hready)
  cases hd : w.depth? n with
  | none =>
    rw [depth?_eq_none_iff] at hd ⊢
    exact fun i => hnone i (hd i)
  | some depth =>
    have hsettled : C.depth? id = some depth := by simpa [hd, eq_comm] using hdepth
    rw [depth?_eq_some_iff] at hd ⊢
    refine ⟨?_, fun i hi => hnone i (hd.2 i hi)⟩
    rw [h.same depth n n' (hn.congr (Change.means_iff hsettled))]
    exact hd.1

theorem settle (h : w.Renames C position w') (hn : C.Name (C.Means position id) n n') :
    (w.settle id n).Renames C position (w'.settle id n') where
  length := by simpa using h.length
  same i m m' hm := by
    rw [ready?_congr (scopes_settle w' id n'), ready?_congr (scopes_settle w id n)]
    exact h.same i m m' hm
  gone i hi := by
    rw [ready?_congr (scopes_settle w' id n')]
    exact h.gone i hi
  absent i hi := by
    rw [ready?_congr (scopes_settle w' id n')]
    exact h.absent i hi
  depths id' hsettled := by
    rw [depths_settle] at hsettled ⊢
    by_cases hid : id = id'
    · subst hid
      rw [if_pos rfl] at hsettled ⊢
      cases hd : w.depth? n with
      | none =>
        rw [hd, Option.none_or] at hsettled
        rw [h.depth?_eq hn (.inl hd), hd, Option.none_or]
        exact h.depths id hsettled
      | some depth =>
        rw [hd, Option.some_or] at hsettled
        rw [h.depth?_eq hn (.inr (hd.trans hsettled)), hd, Option.some_or, hsettled]
    · rw [if_neg hid] at hsettled ⊢
      exact h.depths id' hsettled
  errors := by simpa using h.errors

theorem ownInitializer (h : w.Renames C position w') (hn : C.Name (C.Means position id) n n')
    (e e' : SyntaxError) :
    (if w.inOwnInitializer n then w.record e else w).Renames C position
      (if w'.inOwnInitializer n' then w'.record e' else w') := by
  have hown : w'.inOwnInitializer n' → w.inOwnInitializer n := by
    rw [inOwnInitializer_eq, inOwnInitializer_eq, beq_iff_eq, beq_iff_eq]
    exact h.of_ready hn
  -- Once the first walk has an error, nothing is claimed about those of the second.
  have hrecord : (w.record e).Renames C position w' := { h with errors := by simp [record] }
  by_cases hfirst : w.inOwnInitializer n
  · rw [if_pos hfirst]
    split
    · exact { hrecord with errors := by simp [record] }
    · exact hrecord
  · rw [if_neg hfirst, if_neg (mt hown hfirst)]
    exact h

theorem enter (h : w.Renames C position w') (hn : C.Name (position = some 0) n n') (ready : Bool) :
    (w.enter n ready).Renames C position (w'.enter n' ready) where
  length := by simpa using h.length
  same i m m' hm := by
    rw [ready?_enter, ready?_enter, h.length, h.same i m m' hm]
    by_cases hi : i = 0
    · subst hi
      simp only [hn.iff hm]
    · simp [hi]
  gone i hi := by
    rw [ready?_enter, h.gone i hi, if_neg]
    rintro ⟨rfl, hold, -⟩
    exact hn.ne_old hi hold
  absent i hi := by
    rw [ready?_enter, h.absent i hi, if_neg]
    rintro ⟨rfl, hnew, -⟩
    exact hn.ne_new hi hnew
  depths id hsettled := by
    rw [depths_enter] at hsettled ⊢
    exact h.depths id hsettled
  errors := by
    rw [errors_enter, errors_enter]
    exact h.errors

theorem enterAll {ts ts' : List Token} (h : w.Renames C position w')
    (hs : List.Forall₂ (C.Names (position = some 0)) ts ts') :
    (w.enterAll (ts.map Token.lexeme)).Renames C position (w'.enterAll (ts'.map Token.lexeme)) := by
  induction hs generalizing w w' with
  | nil => exact h
  | cons hn _ ih => exact ih (h.enter hn.name true)

theorem openScope (h : w.Renames C position w') (hwithin : Within position inner) :
    w.openScope.Renames C inner w'.openScope where
  length := congrArg Nat.succ h.length
  same i m m' hm := by
    cases i with
    | zero => rfl
    | succ i => exact h.same i m m' (hm.congr (hwithin i))
  gone i hi := by
    cases i with
    | zero => rfl
    | succ i => exact h.gone i ((hwithin i).1 hi)
  absent i hi := by
    cases i with
    | zero => rfl
    | succ i => exact h.absent i (mt (hwithin i).2 hi)
  depths := h.depths
  errors := h.errors

theorem closeScope (h : w.Renames C inner w') (hwithin : Within position inner) :
    w.closeScope.Renames C position w'.closeScope := by
  have hcloses (v : Walk) (i : Nat) (name : String) :
      v.closeScope.ready? i name = v.ready? (i + 1) name := by
    simp [ready?, Walk.closeScope]
  constructor
  · simp [Walk.closeScope, h.length]
  · intro i m m' hm
    rw [hcloses, hcloses]
    exact h.same (i + 1) m m' (hm.congr (hwithin i).symm)
  · intro i hi
    rw [hcloses]
    exact h.gone (i + 1) ((hwithin i).2 hi)
  · intro i hi
    rw [hcloses]
    exact h.absent (i + 1) (mt (hwithin i).1 hi)
  · exact h.depths
  · exact h.errors

theorem enterReturn (h : w.Renames C position w') (inFunction : Bool) (keyword : Token) :
    (w.enterReturn inFunction keyword).Renames C position (w'.enterReturn inFunction keyword) := by
  unfold Walk.enterReturn
  split
  · exact h
  · exact { h with errors := by simp [record] }

end Renames
end Walk

variable {C : Change} {position : Option Nat}

mutual

theorem Expr.Renames.walk {w w' : Walk} (h : w.Renames C position w') {e e' : Expr} :
    e.Renames C position e' →
    (w.expression e).Renames C position (w'.expression e')
  | .literal _ => h
  | .group inner => inner.walk h
  | .unary _ operand => operand.walk h
  | .binary _ left right | .logical _ left right => right.walk (left.walk h)
  | .use names => (h.ownInitializer names.name _ _).settle names.name
  | .assign names value => (value.walk h).settle names.name
  | .call _ head tail => tail.walk (head.walk h)

theorem Expr.AllRenames.walk {w w' : Walk} (h : w.Renames C position w') {es es' : List Expr} :
    Expr.AllRenames C position es es' → (w.expressions es).Renames C position (w'.expressions es')
  | .nil => h
  | .cons head tail => tail.walk (head.walk h)

end

mutual

theorem Stmt.Renames.walk (inFunction : Bool) {position : Option Nat} {w w' : Walk}
    (h : w.Renames C position w') {s s' : Stmt} : s.Renames C position s' →
      (w.statement inFunction s).Renames C position (w'.statement inFunction s')
  | .expression value | .print value => value.walk h
  | .var names => h.enter names.name true
  | .init names value => (value.walk (h.enter names.name false)).enter names.name true
  | .block within all => (all.walk inFunction (h.openScope within)).closeScope within
  | .branch condition consequent => consequent.walk inFunction (condition.walk h)
  | .branchElse condition consequent alternative =>
    alternative.walk inFunction (consequent.walk inFunction (condition.walk h))
  | .loop condition body => body.walk inFunction (condition.walk h)
  | .function kept within names all =>
    (all.walk true (((h.enter kept true).openScope within).enterAll names)).closeScope within
  | .ret keyword => h.enterReturn inFunction keyword
  | .retValue keyword value => value.walk (h.enterReturn inFunction keyword)

theorem Stmt.AllRenames.walk (inFunction : Bool) {position : Option Nat} {w w' : Walk}
    (h : w.Renames C position w') {ss ss' : List Stmt} : Stmt.AllRenames C position ss ss' →
      (w.statements inFunction ss).Renames C position (w'.statements inFunction ss')
  | .nil => h
  | .cons head tail => tail.walk inFunction (head.walk inFunction h)

end

theorem Walk.renames_initial (C : Change) : Walk.initial.Renames C none .initial where
  length := rfl
  same _ _ _ _ := rfl
  gone := nofun
  absent _ _ := rfl
  depths _ h := h
  errors h := h

/-- A renamed program is accepted with the same table. -/
theorem resolve_renamed {r : Resolution} {x y : String} {p p' : Program} (hr : resolve p = .ok r)
    (h : Stmt.AllRenames (r.change x y) none p p') :
    ∃ r', resolve p' = .ok r' ∧ ∀ id : UseId, r'[id]? = r[id]? := by
  have hwalk := h.walk false (Walk.renames_initial _)
  unfold resolve at hr ⊢
  dsimp only at hr ⊢
  split at hr
  · next herrors =>
    cases hr
    rw [List.isEmpty_iff] at herrors
    rw [hwalk.errors herrors]
    exact ⟨_, rfl, fun id => hwalk.depths id rfl⟩
  · cases hr

end Lox
