import Lox.Proofs.Source.RoundTrip

/-! Who an `else` belongs to in printed text.
Any nesting of blocks, branches and loops has a text that compiles. Printing puts braces around the
first branch of an `if` with an `else` only if that branch is itself an `if` without one. Where it ends
with such an `if` further in, the `else` is read as belonging to that one. So the text is read as the
regrouped tree, and as the tree itself just if every `else` keeps its owner (`compile_regrouped`). -/
namespace Lox

def Expr.Parsed (e : Expr) : Prop := ∃ source ids, (compile source ids).1 = .ok [.expression e]

mutual

/-- Blocks, branches and loops over parsed expressions and printing of them, nested in any way. -/
def Stmt.Nested : Stmt → Prop
  | .expression e => e.Parsed
  | .print e => e.Parsed
  | .block body => Stmt.AllNested body
  | .branch condition consequent none => condition.Parsed ∧ consequent.Nested
  | .branch condition consequent (some alternative) =>
    condition.Parsed ∧ consequent.Nested ∧ alternative.Nested
  | .loop condition body => condition.Parsed ∧ body.Nested
  | .var .. | .function .. | .ret .. => False

def Stmt.AllNested : List Stmt → Prop
  | [] => True
  | s :: ss => s.Nested ∧ Stmt.AllNested ss

end

namespace Stmt

/-- Hand an `else` to the nearest `if` at the end that is without one. -/
def giveElse (alternative : Stmt) : Stmt → Stmt
  | .branch condition consequent none =>
    if consequent.isOpen then .branch condition (giveElse alternative consequent) none
    else .branch condition consequent (some alternative)
  | .branch condition consequent (some last) =>
    .branch condition consequent (some (giveElse alternative last))
  | .loop condition body => .loop condition (giveElse alternative body)
  | s => s

end Stmt

mutual

/-- The statement that is read where this one is printed: with the braces of printing, and with every
`else` at the nearest `if`. -/
def Stmt.regrouped : Stmt → Stmt
  | .block body => .block (Stmt.allRegrouped body)
  | .branch condition consequent none => .branch condition consequent.regrouped none
  | .branch condition consequent (some alternative) =>
    if consequent.takesElse then
      .branch condition (.block [consequent.regrouped]) (some alternative.regrouped)
    else Stmt.giveElse alternative.regrouped (.branch condition consequent.regrouped none)
  | .loop condition body => .loop condition body.regrouped
  | s => s

def Stmt.allRegrouped : List Stmt → List Stmt
  | [] => []
  | s :: ss => s.regrouped :: Stmt.allRegrouped ss

end

mutual

/-- Whether every `else` is read as belonging to its own `if`. -/
def Stmt.keepsElse : Stmt → Bool
  | .block body => Stmt.allKeepElse body
  | .branch _ consequent none => consequent.keepsElse
  | .branch _ consequent (some alternative) =>
    (consequent.takesElse || !consequent.isOpen) && consequent.keepsElse && alternative.keepsElse
  | .loop _ body => body.keepsElse
  | _ => true

def Stmt.allKeepElse : List Stmt → Bool
  | [] => true
  | s :: ss => s.keepsElse && Stmt.allKeepElse ss

end

/-- What stands in a block of one statement, if this would take a following `else`. -/
def Stmt.unwrapped : Stmt → Stmt
  | .block [s] => if s.takesElse then s else .block [s]
  | s => s

mutual

/-- The statement without the braces that printing puts around a first branch. -/
def Stmt.unbraced : Stmt → Stmt
  | .block body => .block (Stmt.allUnbraced body)
  | .branch condition consequent none => .branch condition consequent.unbraced none
  | .branch condition consequent (some alternative) =>
    .branch condition consequent.unbraced.unwrapped (some alternative.unbraced)
  | .loop condition body => .loop condition body.unbraced
  | s => s

def Stmt.allUnbraced : List Stmt → List Stmt
  | [] => []
  | s :: ss => s.unbraced :: Stmt.allUnbraced ss

end

def Program.unbraced (p : Program) : Program := Stmt.allUnbraced p

namespace Stmt

/-- An open statement ends with an `if` without `else`, whose branch is closed. -/
@[elab_as_elim]
theorem isOpen_induction {P : ∀ s : Stmt, s.isOpen → Prop}
    (last : ∀ condition consequent, consequent.isOpen = false →
      P (.branch condition consequent none) rfl)
    (inner : ∀ condition consequent h, P consequent h → P (.branch condition consequent none) rfl)
    (alternative : ∀ condition consequent alternative h, P alternative h →
      P (.branch condition consequent (some alternative)) h)
    (loop : ∀ condition body h, P body h → P (.loop condition body) h) :
    ∀ (s : Stmt) (h : s.isOpen), P s h
  | .branch condition consequent none, _ => by
    cases hopen : consequent.isOpen with
    | false => exact last condition consequent hopen
    | true =>
      exact inner condition consequent hopen
        (isOpen_induction last inner alternative loop consequent hopen)
  | .branch condition consequent (some a), h =>
    alternative condition consequent a h (isOpen_induction last inner alternative loop a h)
  | .loop condition body, h =>
    loop condition body h (isOpen_induction last inner alternative loop body h)
  | .expression _, h | .print _, h | .var _ _, h | .block _, h | .function _ _ _, h | .ret _ _, h =>
    nomatch h

variable {s consequent alternative : Stmt} {condition : Expr}

theorem giveElse_closed (h : consequent.isOpen = false) :
    giveElse alternative (.branch condition consequent none) =
      .branch condition consequent (some alternative) := by
  rw [giveElse, h, if_neg Bool.false_ne_true]

theorem giveElse_open (h : consequent.isOpen) :
    giveElse alternative (.branch condition consequent none) =
      .branch condition (giveElse alternative consequent) none := by
  rw [giveElse, if_pos h]

theorem declares_giveElse (h : s.isOpen) : (giveElse alternative s).declares = false := by
  cases s, h using isOpen_induction with
  | last condition consequent hclosed => rw [giveElse_closed hclosed]; rfl
  | inner condition consequent hopen ih => rw [giveElse_open hopen]; rfl
  | alternative condition consequent last h ih => rfl
  | loop condition body h ih => rfl

/-- An open statement reads on when an `else` follows. -/
theorem source_giveElse (depth : Nat) (h : s.isOpen) : (giveElse alternative s).source depth =
    s.source depth ++ " else " ++ alternative.source depth := by
  induction s, h using isOpen_induction with
  | last condition consequent hclosed =>
    have htakes : consequent.takesElse = false :=
      Bool.eq_false_iff.2 fun h => by simp [isOpen_of_takesElse h] at hclosed
    rw [giveElse_closed hclosed, source_branch htakes, source]
  | inner condition consequent hopen ih =>
    rw [giveElse_open hopen, source, ih, source]
    simp only [String.append_assoc]
  | alternative condition consequent last h ih =>
    rw [giveElse, source, ih, source]
    simp only [String.append_assoc]
  | loop condition body h ih =>
    rw [giveElse, source, ih, source]
    simp only [String.append_assoc]

theorem printable_giveElse (ha : alternative.Printable) (hd : alternative.declares = false)
    (h : s.isOpen) (hs : s.Printable) : (giveElse alternative s).Printable := by
  induction s, h using isOpen_induction with
  | last condition consequent hclosed =>
    obtain ⟨hc, hdt, ht⟩ := hs
    rw [giveElse_closed hclosed]
    exact ⟨hc, hclosed, hdt, ht, hd, ha⟩
  | inner condition consequent hopen ih =>
    obtain ⟨hc, -, ht⟩ := hs
    rw [giveElse_open hopen]
    exact ⟨hc, declares_giveElse hopen, ih ht⟩
  | alternative condition consequent last h ih =>
    obtain ⟨hc, hclosed, hdt, ht, -, hl⟩ := hs
    exact ⟨hc, hclosed, hdt, ht, declares_giveElse h, ih hl⟩
  | loop condition body h ih =>
    obtain ⟨hc, -, hb⟩ := hs
    exact ⟨hc, declares_giveElse h, ih hb⟩

end Stmt

mutual

/-- Printing does not tell a statement from the regrouped one. -/
theorem Stmt.source_regrouped : ∀ (s : Stmt) (depth : Nat), s.regrouped.source depth = s.source depth
  | .block body, depth => by rw [regrouped, source, sources_allRegrouped body, source]
  | .branch condition consequent none, depth => by
    rw [regrouped, source, consequent.source_regrouped, source]
  | .branch condition consequent (some alternative), depth => by
    cases htakes : consequent.takesElse with
    | true =>
      rw [regrouped, if_pos htakes, source_branch rfl, source, source, htakes, sources, sources,
        consequent.source_regrouped, alternative.source_regrouped]
      rfl
    | false =>
      rw [regrouped, htakes, if_neg Bool.false_ne_true, source_giveElse depth rfl, source,
        consequent.source_regrouped, alternative.source_regrouped, source_branch htakes]
  | .loop condition body, depth => by rw [regrouped, source, body.source_regrouped, source]
  | .expression _, _ | .print _, _ | .var _ _, _ | .function _ _ _, _ | .ret _ _, _ => rfl

theorem Stmt.sources_allRegrouped : ∀ (ss : List Stmt) (depth : Nat),
    Stmt.sources depth (Stmt.allRegrouped ss) = Stmt.sources depth ss
  | [], _ => rfl
  | s :: ss, depth => by
    rw [allRegrouped, sources, s.source_regrouped, sources_allRegrouped ss, sources]

end

mutual

theorem Expr.printable_of_anonymous : ∀ e : Expr, e.anonymous.Printable → e.Printable
  | .literal _, h => h
  | .group inner, h => inner.printable_of_anonymous h
  | .unary _ operand, ⟨hop, hprefix, h⟩ => ⟨hop, hprefix, operand.printable_of_anonymous h⟩
  | .binary left _ right, ⟨hop, ⟨l, hl, hnode⟩, hleft, hright⟩ =>
    ⟨hop, ⟨l, hl, hnode⟩, left.printable_of_anonymous hleft, right.printable_of_anonymous hright⟩
  | .logical left _ right, ⟨hop, ⟨l, hl, hnode⟩, hleft, hright⟩ =>
    ⟨hop, ⟨l, hl, hnode⟩, left.printable_of_anonymous hleft, right.printable_of_anonymous hright⟩
  | .use _ _, h => h
  | .assign _ _ value, ⟨hname, h⟩ => ⟨hname, value.printable_of_anonymous h⟩
  | .call callee args _, ⟨hcallee, hargs, hlength, hparen⟩ => by
    obtain ⟨hprintable, heq⟩ := Expr.allPrintable_of_allAnonymous args hargs
    exact ⟨callee.printable_of_anonymous hcallee, hprintable, heq ▸ hlength, hparen⟩

theorem Expr.allPrintable_of_allAnonymous : ∀ es : List Expr,
    Expr.AllPrintable (Expr.allAnonymous es) →
      Expr.AllPrintable es ∧ (Expr.allAnonymous es).length = es.length
  | [], _ => ⟨trivial, rfl⟩
  | e :: es, ⟨he, hes⟩ => by
    obtain ⟨hprintable, heq⟩ := Expr.allPrintable_of_allAnonymous es hes
    exact ⟨⟨e.printable_of_anonymous he, hprintable⟩, congrArg (· + 1) heq⟩

end

theorem Expr.Parsed.printable {e : Expr} (h : e.Parsed) : e.Printable := by
  obtain ⟨source, ids, h⟩ := h
  exact e.printable_of_anonymous (printable_of_parse (compile_eq_ok_iff.1 h).2).1

mutual

theorem Stmt.printable_regrouped : ∀ s : Stmt, s.Nested →
    s.regrouped.Printable ∧ s.regrouped.declares = false
  | .expression _, h | .print _, h => ⟨Expr.Parsed.printable h, rfl⟩
  | .block body, h => ⟨allPrintable_allRegrouped body h, rfl⟩
  | .branch _ consequent none, ⟨hc, ht⟩ => by
    obtain ⟨hprintable, hdeclares⟩ := consequent.printable_regrouped ht
    exact ⟨⟨hc.printable, hdeclares, hprintable⟩, rfl⟩
  | .branch condition consequent (some alternative), ⟨hc, ht, ha⟩ => by
    obtain ⟨hprintable, hdeclares⟩ := consequent.printable_regrouped ht
    obtain ⟨hprintable', hdeclares'⟩ := alternative.printable_regrouped ha
    rw [regrouped]
    split
    · exact ⟨⟨hc.printable, rfl, rfl, ⟨hprintable, trivial⟩, hdeclares', hprintable'⟩, rfl⟩
    · have hbranch : (branch condition consequent.regrouped none).Printable :=
        ⟨hc.printable, hdeclares, hprintable⟩
      exact ⟨printable_giveElse hprintable' hdeclares' rfl hbranch, declares_giveElse rfl⟩
  | .loop _ body, ⟨hc, hb⟩ => by
    obtain ⟨hprintable, hdeclares⟩ := body.printable_regrouped hb
    exact ⟨⟨hc.printable, hdeclares, hprintable⟩, rfl⟩
  | .var _ _, h | .function _ _ _, h | .ret _ _, h => nomatch h

theorem Stmt.allPrintable_allRegrouped : ∀ ss : List Stmt, Stmt.AllNested ss →
    Stmt.AllPrintable (Stmt.allRegrouped ss)
  | [], _ => trivial
  | s :: ss, ⟨hs, hss⟩ => ⟨(s.printable_regrouped hs).1, allPrintable_allRegrouped ss hss⟩

end

namespace Stmt

theorem takesElse_unbraced (s : Stmt) : s.unbraced.takesElse = s.takesElse := by
  cases s with
  | branch condition consequent alternative => cases alternative <;> rfl
  | _ => rfl

theorem takesElse_regrouped {s : Stmt} (h : s.takesElse) : s.regrouped.takesElse := by
  cases s with
  | branch condition consequent alternative =>
    cases alternative with
    | none => rfl
    | some a => cases h
  | _ => cases h

/-- How the printed `else` of a branch is read. -/
theorem regrouped_branch (condition : Expr) (consequent alternative : Stmt) :
    (Stmt.branch condition consequent (some alternative)).regrouped =
      if consequent.takesElse then
        .branch condition (.block [consequent.regrouped]) (some alternative.regrouped)
      else if consequent.regrouped.isOpen then
        .branch condition (giveElse alternative.regrouped consequent.regrouped) none
      else .branch condition consequent.regrouped (some alternative.regrouped) := by
  rw [regrouped, giveElse]

theorem isOpen_regrouped {s : Stmt} (h : s.isOpen) : s.regrouped.isOpen := by
  induction s, h using isOpen_induction with
  | last condition consequent _ => rfl
  | inner condition consequent _ _ => rfl
  | alternative condition consequent last h ih =>
    rw [regrouped_branch]
    split
    · exact ih
    · split
      · rfl
      · exact ih
  | loop condition body h ih => exact ih

/-- Where every `else` keeps its owner, regrouping opens nothing. -/
theorem isOpen_of_regrouped : ∀ s : Stmt, s.keepsElse → s.regrouped.isOpen → s.isOpen
  | .branch _ _ none, _, _ => rfl
  | .branch condition consequent (some alternative), hkeeps, h => by
    simp only [keepsElse, Bool.and_eq_true, Bool.or_eq_true, Bool.not_eq_true'] at hkeeps
    obtain ⟨⟨howner, hconsequent⟩, halternative⟩ := hkeeps
    rw [regrouped_branch] at h
    split at h
    · exact alternative.isOpen_of_regrouped halternative h
    · next htakes =>
      have hclosed : consequent.regrouped.isOpen = false := by
        refine Bool.eq_false_iff.2 fun hopen => ?_
        have := consequent.isOpen_of_regrouped hconsequent hopen
        simp [this, htakes] at howner
      rw [hclosed, if_neg Bool.false_ne_true] at h
      exact alternative.isOpen_of_regrouped halternative h
  | .loop _ body, hkeeps, h => body.isOpen_of_regrouped hkeeps h
  | .expression _, _, h | .print _, _, h | .var _ _, _, h | .block _, _, h | .function _ _ _, _, h
  | .ret _ _, _, h => by cases h

theorem unwrapped_of_takesElse {s : Stmt} (h : s.takesElse) : s.unwrapped = s := by
  cases s with
  | block body => cases h
  | _ => rfl

/-- Taking off braces does not hide a difference. -/
theorem unbraced_of_unwrapped : ∀ s : Stmt,
    s.regrouped.stripped.unbraced.unwrapped = s.stripped.unbraced.unwrapped →
      s.regrouped.stripped.unbraced = s.stripped.unbraced
  | .block [], h | .block (_ :: _ :: _), h | .branch _ _ none, h => h
  | .branch _ consequent (some alternative), h => by
    revert h
    rw [regrouped_branch]
    split
    · exact id
    · split <;> exact id
  | .block [s], h => by
    have htakes : s.regrouped.stripped.unbraced.takesElse = s.regrouped.takesElse := by
      rw [takesElse_unbraced, takesElse_stripped]
    have htakes' : s.stripped.unbraced.takesElse = s.takesElse := by
      rw [takesElse_unbraced, takesElse_stripped]
    change unwrapped (.block [_]) = unwrapped (.block [_]) at h
    rw [unwrapped, unwrapped, htakes, htakes'] at h
    change Stmt.block [_] = Stmt.block [_]
    cases hs : s.takesElse with
    | true =>
      rw [hs, takesElse_regrouped hs, if_pos rfl, if_pos rfl] at h
      rw [h]
    | false =>
      rw [hs, if_neg Bool.false_ne_true] at h
      cases hr : s.regrouped.takesElse with
      | true =>
        rw [hr, if_pos rfl] at h
        rw [hr, h] at htakes
        cases htakes
      | false => rwa [hr, if_neg Bool.false_ne_true] at h
  | .expression _, h | .print _, h | .var _ _, h | .loop _ _, h | .function _ _ _, h
  | .ret _ _, h => h

end Stmt

mutual

/-- A statement is read as it is printed just if every `else` keeps its owner. -/
theorem Stmt.unbraced_regrouped_iff : ∀ s : Stmt,
    s.regrouped.stripped.unbraced = s.stripped.unbraced ↔ s.keepsElse
  | .block body => by
    change Stmt.block _ = Stmt.block _ ↔ _
    rw [Stmt.block.injEq, allUnbraced_regrouped_iff body, keepsElse]
  | .branch condition consequent none => by
    change Stmt.branch _ _ _ = Stmt.branch _ _ _ ↔ _
    rw [Stmt.branch.injEq, consequent.unbraced_regrouped_iff, keepsElse]
    simp
  | .branch condition consequent (some alternative) => by
    have hbranch (x : Stmt) :
        (Stmt.branch condition x (some alternative.regrouped)).stripped.unbraced =
            (Stmt.branch condition consequent (some alternative)).stripped.unbraced ↔
          x.stripped.unbraced.unwrapped = consequent.stripped.unbraced.unwrapped ∧
            alternative.keepsElse := by
      rw [← alternative.unbraced_regrouped_iff]
      change Stmt.branch _ _ (some _) = Stmt.branch _ _ (some _) ↔ _
      simp
    rw [regrouped_branch, keepsElse, Bool.and_eq_true, Bool.and_eq_true,
      ← consequent.unbraced_regrouped_iff]
    cases htakes : consequent.takesElse with
    | true =>
      have hwrapped : (block [consequent.regrouped]).stripped.unbraced.unwrapped =
          consequent.regrouped.stripped.unbraced := by
        change unwrapped (block [_]) = _
        rw [unwrapped, takesElse_unbraced, takesElse_stripped, takesElse_regrouped htakes, if_pos rfl]
      have hbare : consequent.stripped.unbraced.unwrapped = consequent.stripped.unbraced :=
        unwrapped_of_takesElse (by rw [takesElse_unbraced, takesElse_stripped, htakes])
      rw [if_pos rfl, hbranch, hwrapped, hbare]
      simp
    | false =>
      rw [if_neg Bool.false_ne_true]
      cases hopen : consequent.regrouped.isOpen with
      | true =>
        rw [if_pos rfl]
        refine iff_of_false (fun h => ?_) fun ⟨⟨howner, hconsequent⟩, _⟩ => ?_
        · change Stmt.branch _ _ none = Stmt.branch _ _ (some _) at h
          cases (Stmt.branch.inj h).2.2
        · have := consequent.isOpen_of_regrouped (consequent.unbraced_regrouped_iff.1 hconsequent)
            hopen
          simp [this] at howner
      | false =>
        have hclosed : consequent.isOpen = false := Bool.eq_false_iff.2 fun h => by
          simp [isOpen_regrouped h] at hopen
        rw [if_neg Bool.false_ne_true, hbranch, hclosed]
        have hunwrapped := consequent.unbraced_of_unwrapped
        exact ⟨fun ⟨h, ha⟩ => ⟨⟨rfl, hunwrapped h⟩, ha⟩, fun ⟨⟨_, h⟩, ha⟩ => ⟨congrArg _ h, ha⟩⟩
  | .loop condition body => by
    change Stmt.loop _ _ = Stmt.loop _ _ ↔ _
    rw [Stmt.loop.injEq, body.unbraced_regrouped_iff, keepsElse]
    simp
  | .expression _ | .print _ | .var _ _ | .function _ _ _ | .ret _ _ =>
    iff_of_true rfl rfl

theorem Stmt.allUnbraced_regrouped_iff : ∀ ss : List Stmt,
    Stmt.allUnbraced (Stmt.allStripped (Stmt.allRegrouped ss)) =
      Stmt.allUnbraced (Stmt.allStripped ss) ↔ Stmt.allKeepElse ss
  | [] => iff_of_true rfl rfl
  | s :: ss => by
    change _ :: _ = _ :: _ ↔ _
    rw [List.cons.injEq, s.unbraced_regrouped_iff, allUnbraced_regrouped_iff ss, allKeepElse,
      Bool.and_eq_true]

end

/-- How printed nestings are read. The text of blocks, branches and loops, nested in any way, compiles,
to a program that differs from the regrouped one in groups, ids and lines only. Up to braces around a
first branch that would take the `else`, it is the program that was printed just if every `else` keeps
its owner: the first branch of its `if` is itself an `if` without `else`, or does not end with one. -/
theorem compile_regrouped {p : Program} (h : Stmt.AllNested p) (ids : IdSupply) :
    ∃ q, (compile p.source ids).1 = .ok q ∧
      q.stripped = Program.stripped (Stmt.allRegrouped p) ∧
        (q.stripped.unbraced = p.stripped.unbraced ↔ Stmt.allKeepElse p) := by
  obtain ⟨q, hq, hstripped, -⟩ := compile_of_printable (Stmt.allPrintable_allRegrouped p h) ids
  have hsource : Program.source (Stmt.allRegrouped p) = p.source := by
    rw [Program.source, Stmt.sources_allRegrouped, Program.source]
  rw [hsource] at hq
  refine ⟨q, hq, hstripped, ?_⟩
  rw [hstripped]
  exact Stmt.allUnbraced_regrouped_iff p

/-- An `else` behind an `if` that is printed in braces. -/
def keptElse : Program :=
  let nil : Expr := .literal .nil
  [.branch nil (.branch nil (.print nil) none) (some (.loop nil (.print nil)))]

theorem Expr.parsed_nil : Expr.Parsed (.literal .nil) := ⟨"nil;", .initial, by cbv⟩

theorem compile_regrouped_kept :
    Stmt.AllNested keptElse ∧ ∃ q, (compile keptElse.source .initial).1 = .ok q ∧
      q.stripped.unbraced = keptElse.stripped.unbraced := by
  have hnil := Expr.parsed_nil
  have hnested : Stmt.AllNested keptElse := ⟨⟨hnil, ⟨hnil, hnil⟩, hnil, hnil⟩, trivial⟩
  obtain ⟨q, hq, -, hkeeps⟩ := compile_regrouped hnested .initial
  exact ⟨hnested, q, hq, hkeeps.2 rfl⟩

/-- An `else` behind a loop whose body is an `if`. -/
def capturedElse : Program :=
  let nil : Expr := .literal .nil
  [.branch nil (.loop nil (.branch nil (.expression nil) none)) (some (.print nil))]

/-- The `else` is read as belonging to the `if` in the loop, and so nothing is printed any more. -/
theorem compile_capturedElse :
    Stmt.AllNested capturedElse ∧
      capturedElse.source = "if (nil) while (nil) if (nil) nil; else print nil;\n" ∧
      ∃ q, (compile capturedElse.source .initial).1 = .ok q ∧
        q.stripped.unbraced ≠ capturedElse.stripped.unbraced ∧
        let s := Session.initial .unlimited
        (s.runProgram 9 (fun _ => 0) capturedElse).2.printedSince s = "nil\n" ∧
          (s.runProgram 9 (fun _ => 0) q).2.printedSince s = "" := by
  have hnil := Expr.parsed_nil
  have hnested : Stmt.AllNested capturedElse := ⟨⟨hnil, ⟨hnil, hnil, hnil⟩, hnil⟩, trivial⟩
  have hcompile : (compile capturedElse.source .initial).1 =
      .ok (Stmt.allRegrouped capturedElse) := by cbv
  refine ⟨hnested, by decide +kernel, _, hcompile, fun h => ?_, by decide +kernel, by decide +kernel⟩
  cases (Stmt.allUnbraced_regrouped_iff capturedElse).1 h

end Lox
