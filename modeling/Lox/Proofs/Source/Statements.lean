import Lox.Proofs.Source.Reading

/-! Printed statements are read back.
The source of a printable statement, wherever it stands and whatever stands behind it, is read as a
statement that differs from it in groups, ids and lines only and has the same source
(`Stmt.spelled`). -/
namespace Lox

open Grammar (maxArity)
open Piece (isBoundary)
open Concrete

abbrev Blank (text : String) : Prop := Spelled anything text fun ts => ts.map Token.kind = []

theorem pieces_blanks (rest : List Char) : ∀ cs : List Char, (∀ c ∈ cs, isBlank c) →
    pieces (cs ++ rest) = cs.map Piece.blank ++ pieces rest
  | [], _ => rfl
  | c :: cs, h => by
    obtain ⟨hc, hcs⟩ := List.forall_mem_cons.1 h
    have hnext : Piece.next c (cs ++ rest) = (.blank c, cs ++ rest) := if_pos hc
    rw [List.cons_append, Piece.pieces_cons hnext, pieces_blanks rest cs hcs]
    rfl

theorem blank_ofList {cs : List Char} (h : ∀ c ∈ cs, isBlank c) : Blank (.ofList cs) := by
  refine ⟨cs.map Piece.blank, fun rest _ => ?_, ?_, fun ts hts => ?_⟩
  · rw [String.toList_ofList, pieces_blanks rest cs h]
  · intro p hp
    obtain ⟨c, -, rfl⟩ := List.mem_map.1 hp
    rfl
  · have hnone : (cs.map Piece.blank).filterMap (Piece.token? · 0) = [] := by
      rw [List.filterMap_map, List.filterMap_eq_nil_iff]
      exact fun c _ => rfl
    rw [hnone] at hts
    rw [List.map_eq_nil_iff.1 hts]
    rfl

theorem blank_newLine (depth : Nat) : Blank (newLine depth) := by
  refine blank_ofList fun c hc => ?_
  rcases List.mem_cons.1 hc with rfl | hc
  · rfl
  · rw [List.eq_of_mem_replicate hc]
    rfl

theorem spelled_print : Spelled anything "print " fun ts => ts.map Token.kind = [.printWord] :=
  spelled_fixed [.word "print".toList, .blank ' '] (by decide) rfl (by decide) rfl

theorem spelled_var : Spelled anything "var " fun ts => ts.map Token.kind = [.varWord] :=
  spelled_fixed [.word "var".toList, .blank ' '] (by decide) rfl (by decide) rfl

theorem spelled_fun : Spelled anything "fun " fun ts => ts.map Token.kind = [.funWord] :=
  spelled_fixed [.word "fun".toList, .blank ' '] (by decide) rfl (by decide) rfl

theorem spelled_if : Spelled anything "if (" fun ts => ts.map Token.kind = [.ifWord, .leftParen] :=
  spelled_fixed [.word "if".toList, .blank ' ', .mark .leftParen ['(']] (by decide) rfl (by decide)
    rfl

theorem spelled_while :
    Spelled anything "while (" fun ts => ts.map Token.kind = [.whileWord, .leftParen] :=
  spelled_fixed [.word "while".toList, .blank ' ', .mark .leftParen ['(']] (by decide) rfl
    (by decide) rfl

theorem spelled_else : Spelled anything " else " fun ts => ts.map Token.kind = [.elseWord] :=
  spelled_fixed [.blank ' ', .word "else".toList, .blank ' '] (by decide) rfl (by decide) rfl

theorem spelled_parenSpace : Spelled anything ") " fun ts => ts.map Token.kind = [.rightParen] :=
  spelled_fixed [.mark .rightParen [')'], .blank ' '] (by decide) rfl (by decide) rfl

theorem spelled_braces : Spelled anything "\x7b\x7d" fun ts =>
    ts.map Token.kind = [.leftBrace, .rightBrace] :=
  spelled_fixed [.mark .leftBrace ['\x7b'], .mark .rightBrace ['\x7d']] (by decide) rfl (by decide)
    rfl

theorem spelled_return {text : String} (ps : List Piece)
    (hps : Piece.areClosed (.word "return".toList :: ps))
    (htext : text.toList = "return".toList ++ ps.flatMap Piece.text)
    (hfault : ∀ p ∈ ps, p.fault? = none) {kinds : List Kind}
    (hkinds : (ps.filterMap (Piece.token? · 0)).map Token.kind = kinds) :
    Spelled anything text fun ts => ∃ (t : The .returnWord) (us : List Token), ts = t.1 :: us ∧
      t.1.stripped = ⟨.returnWord, "return", none, 0⟩ ∧ us.map Token.kind = kinds := by
  refine (spelled_pieces (.word "return".toList :: ps) hps htext
    (List.forall_mem_cons.2 ⟨rfl, hfault⟩)).imp fun ts hts => ?_
  have htoken : (Piece.word "return".toList).token? 0 = some ⟨.returnWord, "return", none, 0⟩ := rfl
  rw [List.filterMap_cons_some (f := (Piece.token? · 0)) htoken] at hts
  obtain ⟨t, us, rfl, ht, hus⟩ := List.map_eq_cons_iff.1 hts
  have hk : t.kind = .returnWord := congrArg Token.kind ht
  refine ⟨⟨t, decide_eq_true hk⟩, us, rfl, ht, ?_⟩
  rw [← hkinds, ← hus, List.map_map]
  rfl

theorem ledBy_semicolon : LedBy isBoundary ";" := ⟨';', [], rfl, rfl⟩

theorem ledBy_parenSpace : LedBy isBoundary ") " := ⟨')', [' '], rfl, rfl⟩

theorem ledBy_equal : LedBy isBoundary " = " := ⟨' ', ['=', ' '], rfl, rfl⟩

def Token.AreRead (names : List Token) (ts : List Token) : Prop :=
  ∀ room, names.length ≤ room → ∃ d : ParameterList room, d.tokens = ts ∧
    d.names.map Token.stripped = names.map Token.stripped ∧
      d.names.map Token.lexeme = names.map Token.lexeme

theorem Token.all_spelled : ∀ names : List Token, (∀ name ∈ names, name.IsName) → names ≠ [] →
    Spelled isBoundary (commaSeparated (names.map Token.lexeme)) (Token.AreRead names)
  | [], _, hne => absurd rfl hne
  | [name], h, _ => by
    refine (spelled_name (h name List.mem_cons_self)).imp ?_
    rintro _ ⟨n, rfl, hstripped, hlexeme⟩ (- | room) hroom
    · cases hroom
    · exact ⟨.last n, rfl, congrArg (fun t => [t]) hstripped, congrArg (fun t => [t]) hlexeme⟩
  | name :: name' :: names, h, _ => by
    obtain ⟨hname, hnames⟩ := List.forall_mem_cons.1 h
    have hlist : commaSeparated ((name :: name' :: names).map Token.lexeme) =
        name.lexeme ++ (", " ++ commaSeparated ((name' :: names).map Token.lexeme)) := by
      rw [← String.append_assoc]
      exact String.intercalate_cons_cons
    rw [hlist]
    refine ((spelled_name hname).append (spelled_comma.followed (Token.all_spelled (name' :: names)
      hnames (List.cons_ne_nil _ _))) (ledBy_comma.append _)).imp ?_
    rintro _ ⟨_, _, rfl, ⟨n, rfl, hstripped, hlexeme⟩, _, _, rfl, hc, hrest⟩ (- | room) hroom
    · cases hroom
    · obtain ⟨comma, rfl⟩ := eq_of_map_kind hc
      obtain ⟨d, rfl, hdstripped, hdlexeme⟩ := hrest room (Nat.le_of_succ_le_succ hroom)
      refine ⟨.more n comma d, rfl, ?_, ?_⟩
      · rw [ParameterList.names, List.map_cons, hstripped, hdstripped]
        rfl
      · rw [ParameterList.names, List.map_cons, hlexeme, hdlexeme]
        rfl

theorem spelled_parameters {params : List Token} (h : ∀ param ∈ params, param.IsName)
    (hlength : params.length ≤ maxArity) :
    Spelled isBoundary (commaSeparated (params.map Token.lexeme)) fun ts =>
      ∃ d : Parameters, d.tokens = ts ∧
        d.names.map Token.stripped = params.map Token.stripped ∧
          d.names.map Token.lexeme = params.map Token.lexeme := by
  by_cases hnil : params = []
  · subst hnil
    refine (spelled_empty.before fun _ _ => rfl).imp fun ts hts => ?_
    exact ⟨.none, (List.map_eq_nil_iff.1 hts).symm, rfl, rfl⟩
  · refine (Token.all_spelled params h hnil).imp fun ts hts => ?_
    obtain ⟨d, hd⟩ := hts maxArity hlength
    exact ⟨.some d, hd⟩

/-- The tokens are a statement that differs from this one in groups, ids and lines only, and has
the same source. -/
def Stmt.IsBody (st : Stmt) (ts : List Token) : Prop :=
  ∃ b : Statement, b.tokens = ts ∧ b.elseNearest ∧ (b.isOpen → st.isOpen) ∧
    b.tree.stripped = st.stripped ∧ ∀ depth, b.tree.source depth = st.source depth

def Stmt.IsRead (st : Stmt) (ts : List Token) : Prop :=
  ∃ d : Declaration, d.tokens = ts ∧ d.elseNearest ∧ d.tree.stripped = st.stripped ∧
    ∀ depth, d.tree.source depth = st.source depth

def Stmt.AreRead (sts : List Stmt) (ts : List Token) : Prop :=
  ∃ ds : List Declaration, allTokens ds = ts ∧ allElseNearest ds ∧
    Stmt.allStripped (allTrees ds) = Stmt.allStripped sts ∧
      ∀ depth, Stmt.sources depth (allTrees ds) = Stmt.sources depth sts

theorem Stmt.IsBody.isRead {st : Stmt} {ts : List Token} (h : st.IsBody ts) : st.IsRead ts := by
  obtain ⟨b, htokens, hnearest, -, hstripped, hsource⟩ := h
  exact ⟨.statement b, htokens, hnearest, hstripped, hsource⟩

theorem Stmt.takesElse_stripped (st : Stmt) : st.stripped.takesElse = st.takesElse := by
  cases st with
  | branch condition consequent alternative => cases alternative <;> rfl
  | _ => rfl

theorem Stmt.isOpen_of_takesElse {st : Stmt} (h : st.takesElse) : st.isOpen := by
  cases st with
  | branch condition consequent alternative =>
    cases alternative with
    | none => rfl
    | some a => cases h
  | _ => cases h

/-- Where no branch takes the `else` of another, no braces are needed. -/
theorem Stmt.source_branch {condition : Expr} {consequent alternative : Stmt} {depth : Nat}
    (h : consequent.takesElse = false) :
    (branch condition consequent (some alternative)).source depth =
      "if (" ++ condition.source ++ ") " ++ consequent.source depth ++ " else " ++
        alternative.source depth := by
  rw [source, h]
  rfl

theorem Stmt.source_empty_join (texts : List String) :
    texts.map (fun t => "" ++ t ++ "\n") = texts.map (· ++ "\n") := by
  simp only [String.empty_append]

theorem spelled_block {body : List Stmt} {depth : Nat}
    (h : Spelled anything
      (String.join ((Stmt.sources (depth + 1) body).map fun t => newLine (depth + 1) ++ t ++ ""))
      (Stmt.AreRead body)) :
    Spelled anything (braces depth (Stmt.sources (depth + 1) body)) fun ts =>
      ∃ d : Block, d.tokens = ts ∧ d.elseNearest ∧
        Stmt.allStripped d.trees = Stmt.allStripped body ∧
          ∀ depth, Stmt.sources depth d.trees = Stmt.sources depth body := by
  cases body with
  | nil =>
    refine spelled_braces.imp fun ts hts => ?_
    obtain ⟨opening, us, rfl, hus⟩ := cons_of_map_kind hts
    obtain ⟨closing, rfl⟩ := eq_of_map_kind hus
    exact ⟨.block opening [] closing, rfl, rfl, rfl, fun _ => rfl⟩
  | cons st body =>
    simp only [String.append_empty] at h
    have hnonempty : (Stmt.sources (depth + 1) (st :: body)).isEmpty = false := rfl
    rw [braces, hnonempty, if_neg Bool.false_ne_true]
    simp only [String.append_assoc]
    refine (spelled_leftBrace.followed (h.followed ((blank_newLine depth).followed
      spelled_rightBrace))).imp ?_
    rintro _ ⟨_, _, rfl, ho, _, _, rfl, ⟨ds, rfl, hnearest, hstripped, hsource⟩, _, _, rfl, hb, hc⟩
    obtain ⟨opening, rfl⟩ := eq_of_map_kind ho
    obtain ⟨closing, rfl⟩ := eq_of_map_kind hc
    rw [List.map_eq_nil_iff.1 hb]
    exact ⟨.block opening ds closing, rfl, hnearest, hstripped, hsource⟩

mutual

theorem Stmt.spelled : ∀ (st : Stmt) (depth : Nat), st.Printable →
    Spelled anything (st.source depth) fun ts => st.IsRead ts ∧ (st.declares = false → st.IsBody ts)
  | .expression e, depth, h => by
    rw [source]
    refine ((e.spelled h).append spelled_semicolon ledBy_semicolon).imp ?_
    rintro _ ⟨_, _, rfl, ⟨c, rfl, hstripped, hsource⟩, hs⟩
    obtain ⟨semicolon, rfl⟩ := eq_of_map_kind hs
    have hbody : IsBody (.expression e) (c.tokens ++ [semicolon.1]) := by
      refine ⟨.expression (.statement c.expression semicolon), ?_, rfl, nofun, ?_, fun _ => ?_⟩
      · simp [Statement.tokens, ExpressionStatement.tokens]
      · simp [Statement.tree, ExpressionStatement.tree, stripped, hstripped]
      · simp [Statement.tree, ExpressionStatement.tree, source, hsource]
    exact ⟨hbody.isRead, fun _ => hbody⟩
  | .print e, depth, h => by
    rw [source, String.append_assoc]
    refine (spelled_print.followed ((e.spelled h).append spelled_semicolon ledBy_semicolon)).imp ?_
    rintro _ ⟨_, _, rfl, hk, _, _, rfl, ⟨c, rfl, hstripped, hsource⟩, hs⟩
    obtain ⟨keyword, rfl⟩ := eq_of_map_kind hk
    obtain ⟨semicolon, rfl⟩ := eq_of_map_kind hs
    have hbody : IsBody (.print e) ([keyword.1] ++ (c.tokens ++ [semicolon.1])) := by
      refine ⟨.print keyword c.expression semicolon, ?_, rfl, nofun, ?_, fun _ => ?_⟩
      · simp [Statement.tokens]
      · simp [Statement.tree, stripped, hstripped]
      · simp [Statement.tree, source, hsource]
    exact ⟨hbody.isRead, fun _ => hbody⟩
  | .var name none, depth, h => by
    rw [source, String.append_assoc]
    refine (spelled_var.followed ((spelled_name h.1).append spelled_semicolon ledBy_semicolon)).imp ?_
    rintro _ ⟨_, _, rfl, hk, _, _, rfl, ⟨n, rfl, hstripped, hlexeme⟩, hs⟩
    obtain ⟨keyword, rfl⟩ := eq_of_map_kind hk
    obtain ⟨semicolon, rfl⟩ := eq_of_map_kind hs
    refine ⟨⟨.var (.bare keyword n semicolon), rfl, rfl, ?_, fun _ => ?_⟩, nofun⟩
    · exact congrArg (fun t => var t none) hstripped
    · simp [Declaration.tree, VariableDeclaration.tree, source, hlexeme]
  | .var name (some init), depth, h => by
    rw [source]
    simp only [String.append_assoc]
    refine (spelled_var.followed ((spelled_name h.1).append (spelled_equal.followed
      ((init.spelled (h.2 init rfl)).append spelled_semicolon ledBy_semicolon))
        (ledBy_equal.append _))).imp ?_
    rintro _ ⟨_, _, rfl, hk, _, _, rfl, ⟨n, rfl, hnstripped, hlexeme⟩, _, _, rfl, he, _, _, rfl,
      ⟨c, rfl, hstripped, hsource⟩, hs⟩
    obtain ⟨keyword, rfl⟩ := eq_of_map_kind hk
    obtain ⟨equals, rfl⟩ := eq_of_map_kind he
    obtain ⟨semicolon, rfl⟩ := eq_of_map_kind hs
    refine ⟨⟨.var (.initialized keyword n equals c.expression semicolon), ?_, rfl, ?_, fun _ => ?_⟩,
      nofun⟩
    · simp [Declaration.tokens, VariableDeclaration.tokens]
    · simp [Declaration.tree, VariableDeclaration.tree, stripped, hnstripped, hstripped]
    · simp [Declaration.tree, VariableDeclaration.tree, source, hlexeme, hsource]
  | .block body, depth, h => by
    rw [source]
    refine (spelled_block (Stmt.all_spelled body (depth + 1) (blank_newLine _) spelled_empty h)).imp ?_
    rintro _ ⟨d, rfl, hnearest, hstripped, hsource⟩
    have hbody : IsBody (.block body) d.tokens := by
      refine ⟨.block d, rfl, hnearest, nofun, congrArg block hstripped, fun k => ?_⟩
      rw [Statement.tree, source, hsource, source]
    exact ⟨hbody.isRead, fun _ => hbody⟩
  | .branch condition consequent none, depth, h => by
    obtain ⟨hcondition, hdeclares, hconsequent⟩ := h
    rw [source]
    simp only [String.append_assoc]
    refine (spelled_if.followed ((condition.spelled hcondition).append (spelled_parenSpace.followed
      (Stmt.spelled consequent depth hconsequent)) (ledBy_parenSpace.append _))).imp ?_
    rintro _ ⟨_, _, rfl, hk, _, _, rfl, ⟨c, rfl, hstripped, hsource⟩, _, _, rfl, hp, -, hread⟩
    obtain ⟨keyword, _, rfl, ho⟩ := cons_of_map_kind hk
    obtain ⟨opening, rfl⟩ := eq_of_map_kind ho
    obtain ⟨closing, rfl⟩ := eq_of_map_kind hp
    obtain ⟨b, rfl, hnearest, -, hbstripped, hbsource⟩ := hread hdeclares
    have hbody : IsBody (.branch condition consequent none)
        ([keyword.1, opening.1] ++ (c.tokens ++ ([closing.1] ++ b.tokens))) := by
      refine ⟨.branch keyword opening c.expression closing b, ?_, hnearest, fun _ => rfl, ?_,
        fun k => ?_⟩
      · simp [Statement.tokens]
      · simp [Statement.tree, stripped, hstripped, hbstripped]
      · simp [Statement.tree, source, hsource, hbsource]
    exact ⟨hbody.isRead, fun _ => hbody⟩
  | .branch condition consequent (some alternative), depth, h => by
    obtain ⟨hcondition, hclosed, hdeclares, hconsequent, hdeclares', halternative⟩ := h
    have htakes : consequent.takesElse = false := by
      rw [← Bool.not_eq_true]
      intro ht
      rw [isOpen_of_takesElse ht] at hclosed
      cases hclosed
    rw [source_branch htakes]
    simp only [String.append_assoc]
    refine (spelled_if.followed ((condition.spelled hcondition).append (spelled_parenSpace.followed
      ((Stmt.spelled consequent depth hconsequent).followed (spelled_else.followed
        (Stmt.spelled alternative depth halternative)))) (ledBy_parenSpace.append _))).imp ?_
    rintro _ ⟨_, _, rfl, hk, _, _, rfl, ⟨c, rfl, hstripped, hsource⟩, _, _, rfl, hp, _, _, rfl,
      ⟨-, hread⟩, _, _, rfl, he, -, hread'⟩
    obtain ⟨keyword, _, rfl, ho⟩ := cons_of_map_kind hk
    obtain ⟨opening, rfl⟩ := eq_of_map_kind ho
    obtain ⟨closing, rfl⟩ := eq_of_map_kind hp
    obtain ⟨otherwise, rfl⟩ := eq_of_map_kind he
    obtain ⟨b, rfl, hnearest, hopen, hbstripped, hbsource⟩ := hread hdeclares
    obtain ⟨a, rfl, hnearest', hopen', hastripped, hasource⟩ := hread' hdeclares'
    have hbclosed : b.isOpen = false := by
      rw [← Bool.not_eq_true]
      intro ho
      rw [hopen ho] at hclosed
      cases hclosed
    have hbtakes : b.tree.takesElse = false := by
      rw [← takesElse_stripped, hbstripped, takesElse_stripped, htakes]
    have hbody : IsBody (.branch condition consequent (some alternative))
        ([keyword.1, opening.1] ++ (c.tokens ++ ([closing.1] ++ (b.tokens ++
          ([otherwise.1] ++ a.tokens))))) := by
      refine ⟨.branchElse keyword opening c.expression closing b otherwise a, ?_, ?_, hopen', ?_,
        fun k => ?_⟩
      · simp [Statement.tokens]
      · simp [Statement.elseNearest, hbclosed, hnearest, hnearest']
      · simp [Statement.tree, stripped, hstripped, hbstripped, hastripped]
      · rw [Statement.tree, source_branch hbtakes, source_branch htakes, Call.tree_expression,
          hsource, hbsource, hasource]
    exact ⟨hbody.isRead, fun _ => hbody⟩
  | .loop condition body, depth, h => by
    obtain ⟨hcondition, hdeclares, hloop⟩ := h
    rw [source]
    simp only [String.append_assoc]
    refine (spelled_while.followed ((condition.spelled hcondition).append
      (spelled_parenSpace.followed (Stmt.spelled body depth hloop))
        (ledBy_parenSpace.append _))).imp ?_
    rintro _ ⟨_, _, rfl, hk, _, _, rfl, ⟨c, rfl, hstripped, hsource⟩, _, _, rfl, hp, -, hread⟩
    obtain ⟨keyword, _, rfl, ho⟩ := cons_of_map_kind hk
    obtain ⟨opening, rfl⟩ := eq_of_map_kind ho
    obtain ⟨closing, rfl⟩ := eq_of_map_kind hp
    obtain ⟨b, rfl, hnearest, hopen, hbstripped, hbsource⟩ := hread hdeclares
    have hbody : IsBody (.loop condition body)
        ([keyword.1, opening.1] ++ (c.tokens ++ ([closing.1] ++ b.tokens))) := by
      refine ⟨.loop keyword opening c.expression closing b, ?_, hnearest, hopen, ?_, fun k => ?_⟩
      · simp [Statement.tokens]
      · simp [Statement.tree, stripped, hstripped, hbstripped]
      · simp [Statement.tree, source, hsource, hbsource]
    exact ⟨hbody.isRead, fun _ => hbody⟩
  | .function name params body, depth, h => by
    obtain ⟨hname, hparams, hlength, hbody⟩ := h
    rw [source]
    simp only [String.append_assoc]
    refine (spelled_fun.followed ((spelled_name hname).append (spelled_leftParen.followed
      ((spelled_parameters hparams hlength).append (spelled_parenSpace.followed (spelled_block
        (Stmt.all_spelled body (depth + 1) (blank_newLine _) spelled_empty hbody)))
          (ledBy_parenSpace.append _))) (ledBy_leftParen.append _))).imp ?_
    rintro _ ⟨_, _, rfl, hk, _, _, rfl, ⟨n, rfl, hnstripped, hlexeme⟩, _, _, rfl, ho, _, _, rfl,
      ⟨ps, rfl, hpstripped, hplexemes⟩, _, _, rfl, hp, d, rfl, hnearest, hstripped, hsource⟩
    obtain ⟨keyword, rfl⟩ := eq_of_map_kind hk
    obtain ⟨opening, rfl⟩ := eq_of_map_kind ho
    obtain ⟨closing, rfl⟩ := eq_of_map_kind hp
    refine ⟨⟨.function keyword n opening ps closing d, ?_, hnearest, ?_, fun k => ?_⟩, nofun⟩
    · simp [Declaration.tokens]
    · simp [Declaration.tree, stripped, hnstripped, hpstripped, hstripped]
    · simp [Declaration.tree, source, hlexeme, hplexemes, hsource]
  | .ret keyword none, depth, h => by
    rw [source]
    refine (spelled_return [.mark .semicolon [';']] (by decide) rfl (by decide) rfl).imp ?_
    rintro _ ⟨t, us, rfl, ht, hus⟩
    obtain ⟨semicolon, rfl⟩ := eq_of_map_kind hus
    have hbody : IsBody (.ret keyword none) [t.1, semicolon.1] := by
      refine ⟨.ret t none semicolon, rfl, rfl, nofun, ?_, fun _ => rfl⟩
      rw [Statement.tree, stripped, ht, ← h.1]
      rfl
    exact ⟨hbody.isRead, fun _ => hbody⟩
  | .ret keyword (some value), depth, h => by
    rw [source, String.append_assoc]
    refine ((spelled_return [.blank ' '] (by decide) rfl (by decide) rfl).followed
      ((value.spelled (h.2 value rfl)).append spelled_semicolon ledBy_semicolon)).imp ?_
    rintro _ ⟨_, _, rfl, ⟨t, us, rfl, ht, hus⟩, _, _, rfl, ⟨c, rfl, hstripped, hsource⟩, hs⟩
    obtain ⟨semicolon, rfl⟩ := eq_of_map_kind hs
    rw [List.map_eq_nil_iff.1 hus]
    have hbody : IsBody (.ret keyword (some value)) ([t.1] ++ (c.tokens ++ [semicolon.1])) := by
      refine ⟨.ret t (some c.expression) semicolon, ?_, rfl, nofun, ?_, fun _ => ?_⟩
      · simp [Statement.tokens, optionalTokens]
      · simp [Statement.tree, stripped, ht, h.1, hstripped]
      · simp [Statement.tree, source, hsource]
    exact ⟨hbody.isRead, fun _ => hbody⟩

/-- Statements one after another, each between two texts without tokens. -/
theorem Stmt.all_spelled {before after : String} : ∀ (ss : List Stmt) (depth : Nat), Blank before →
    Blank after → Stmt.AllPrintable ss →
    Spelled anything (String.join ((Stmt.sources depth ss).map fun t => before ++ t ++ after))
      (Stmt.AreRead ss)
  | [], _, _, _, _ => by
    refine spelled_empty.imp fun ts hts => ?_
    exact ⟨[], (List.map_eq_nil_iff.1 hts).symm, rfl, rfl, fun _ => rfl⟩
  | st :: ss, depth, hb, ha, h => by
    rw [sources, List.map_cons, String.join_cons]
    simp only [String.append_assoc]
    have hrest := Stmt.all_spelled ss depth hb ha h.2
    simp only [String.append_assoc] at hrest
    refine (hb.followed ((Stmt.spelled st depth h.1).followed (ha.followed hrest))).imp ?_
    rintro _ ⟨_, _, rfl, hb, _, _, rfl, ⟨⟨d, rfl, hnearest, hstripped, hsource⟩, -⟩, _, _, rfl, ha, ds,
      rfl, hnearests, hstrippeds, hsources⟩
    rw [List.map_eq_nil_iff.1 hb, List.map_eq_nil_iff.1 ha]
    refine ⟨d :: ds, rfl, ?_, ?_, fun k => ?_⟩
    · simp [allElseNearest, hnearest, hnearests]
    · rw [allTrees, allStripped, hstripped, hstrippeds, allStripped]
    · rw [allTrees, sources, hsource, hsources, sources]

end

end Lox
