import Lox.Proofs.Source.Spelling

/-! Printed trees are read back.
The source of a printable tree has a derivation whose tree differs from it in groups, ids and lines
only, and has the same source (`Expr.spelled`). Operator expressions come back in groups, so every
expression comes back as a call. -/
namespace Lox

open Grammar (Level maxArity)
open Piece (isBoundary)

namespace Concrete

theorem exists_joined (left right : Unary) {l : Level} (op : TokenOf l.has) :
    ∀ levels : List Level, l ∈ levels → ∃ d : Chain levels,
      d.tokens = left.tokens ++ op.1 :: right.tokens ∧ d.tree = l.node left.tree op.1 right.tree
  | [], h => nomatch h
  | m :: tighter, h => by
    by_cases hm : l = m
    · subst hm
      refine ⟨.level (left.chain tighter) (.link op (right.chain tighter) .none), ?_, ?_⟩
      · simp [Chain.tokens, Links.tokens]
      · simp [Chain.tree, Links.tree, operation_eq_node]
    · obtain ⟨d, htokens, htree⟩ := exists_joined left right op tighter
        ((List.mem_cons.1 h).resolve_left hm)
      refine ⟨.level d .none, ?_, ?_⟩
      · rw [Chain.tokens, Links.tokens, List.append_nil, htokens]
      · rw [Chain.tree, Links.tree, htree]

/-- A call is a callee in its turn. -/
theorem Suffixes.exists_snoc (opening : The .leftParen) (args : Arguments)
    (closing : The .rightParen) (d : Suffixes) : ∃ d' : Suffixes,
      d'.tokens = d.tokens ++ opening.1 :: (args.tokens ++ [closing.1]) ∧
        ∀ callee, d'.tree callee = .call (d.tree callee) args.trees closing.1 := by
  cases d with
  | none => exact ⟨.arguments opening args closing .none, rfl, fun _ => rfl⟩
  | arguments o as c suffixes =>
    obtain ⟨d, htokens, htree⟩ := suffixes.exists_snoc opening args closing
    refine ⟨.arguments o as c d, ?_, fun callee => ?_⟩
    · simp [Suffixes.tokens, htokens]
    · rw [Suffixes.tree, htree, Suffixes.tree]

theorem Call.exists_call (opening : The .leftParen) (args : Arguments) (closing : The .rightParen)
    (c : Call) : ∃ c' : Call, c'.tokens = c.tokens ++ opening.1 :: (args.tokens ++ [closing.1]) ∧
      c'.tree = .call c.tree args.trees closing.1 := by
  cases c with
  | call callee suffixes =>
    obtain ⟨d, htokens, htree⟩ := suffixes.exists_snoc opening args closing
    refine ⟨.call callee d, ?_, ?_⟩
    · rw [Call.tokens, Call.tokens, htokens, List.append_assoc]
    · rw [Call.tree, Call.tree, htree]

def Expression.call (opening : The .leftParen) (e : Expression) (closing : The .rightParen) : Call :=
  .call (.group opening e closing) .none

theorem Expression.tokens_call (opening : The .leftParen) (e : Expression)
    (closing : The .rightParen) :
    (e.call opening closing).tokens = opening.1 :: (e.tokens ++ [closing.1]) :=
  List.append_nil _

theorem Expression.tree_call (opening : The .leftParen) (e : Expression)
    (closing : The .rightParen) : (e.call opening closing).tree = .group e.tree := rfl

theorem Suffixes.isOperator_tree : ∀ (d : Suffixes) {callee : Expr}, callee.isOperator = false →
    (d.tree callee).isOperator = false
  | .none, _, h => h
  | .arguments _ _ _ suffixes, _, _ => suffixes.isOperator_tree rfl

theorem Call.isOperator_tree : ∀ c : Call, c.tree.isOperator = false
  | .call (.constant _) suffixes => suffixes.isOperator_tree rfl
  | .call (.identifier _) suffixes => suffixes.isOperator_tree rfl
  | .call (.group _ _ _) suffixes => suffixes.isOperator_tree rfl

theorem cons_of_map_kind {ts : List Token} {kind : Kind} {kinds : List Kind}
    (h : ts.map Token.kind = kind :: kinds) :
    ∃ (t : The kind) (us : List Token), ts = t.1 :: us ∧ us.map Token.kind = kinds := by
  obtain ⟨t, us, rfl, ht, hus⟩ := List.map_eq_cons_iff.1 h
  exact ⟨⟨t, decide_eq_true ht⟩, us, rfl, hus⟩

theorem eq_of_map_kind {ts : List Token} {kind : Kind} (h : ts.map Token.kind = [kind]) :
    ∃ t : The kind, ts = [t.1] := by
  obtain ⟨t, us, rfl, hus⟩ := cons_of_map_kind h
  exact ⟨t, by rw [List.map_eq_nil_iff.1 hus]⟩

end Concrete

open Concrete

namespace Piece

/-- A text that is scanned as another piece than a mark starts with no `=`. -/
theorem IsScanned.ledBy {p : Piece} (hp : p.IsScanned) (hmark : ∀ kind text, p ≠ mark kind text) :
    LedBy (· ≠ '=') (.ofList p.text) := by
  obtain ⟨c, cs, rest, h⟩ := hp
  obtain ⟨text, htext, -⟩ := next_again h
  refine ⟨c, text, by rw [String.toList_ofList, htext], ?_⟩
  rw [decide_eq_true_eq]
  rintro rfl
  unfold next at h
  rw [if_neg (by decide), if_neg (by decide), if_neg (by decide), if_neg (by decide),
    if_neg (by decide)] at h
  split at h
  · cases h
    exact hmark _ _ rfl
  · cases h
    exact hmark _ _ rfl
  · cases h
    exact hmark _ _ rfl
  · next hnone => cases hnone

theorem isScanned_numeral {whole fraction : List Char} (h : Number.IsNumeral whole fraction) :
    (numeral whole fraction).IsScanned := by
  obtain ⟨hne, hwhole, hfraction⟩ := h
  cases whole with
  | nil => exact absurd rfl hne
  | cons c cs =>
    obtain ⟨hc, hcs⟩ := List.forall_mem_cons.1 hwhole
    have hblank : ¬ isBlank c := by
      intro hb
      simp only [isBlank, Bool.or_eq_true, decide_eq_true_eq] at hb
      rcases hb with ((rfl | rfl) | rfl) | rfl <;> cases hc
    have hquote : c ≠ '"' := by
      rintro rfl
      cases hc
    have hslash : c ≠ '/' := by
      rintro rfl
      cases hc
    exact ⟨c, _, [], next_numeral hblank hquote hslash hc hcs hfraction nofun⟩

theorem isScanned_string {body : List Char} (h : '"' ∉ body) : (string body).IsScanned :=
  ⟨'"', _, [], next_string h⟩

end Piece

def IsConstant (value : Literal) (ts : List Token) : Prop :=
  ∃ t : TokenOf isConstant, ts = [t.1] ∧ constant t.1 = value

theorem isConstant_of_stripped {value : Literal} {ts : List Token} {kind : Kind} {text : String}
    {literal : Option Literal} (hkind : isConstant kind)
    (hvalue : constant ⟨kind, text, literal, 0⟩ = value)
    (h : ∃ t, ts = [t] ∧ t.stripped = ⟨kind, text, literal, 0⟩) : IsConstant value ts := by
  obtain ⟨t, rfl, ht⟩ := h
  have hk : t.kind = kind := congrArg Token.kind ht
  have hc : constant t = constant t.stripped := rfl
  exact ⟨⟨t, by rw [hk]; exact hkind⟩, rfl, by rw [hc, ht, hvalue]⟩

theorem Literal.exists_piece {value : Literal} (h : value.Printable) : ∃ p : Piece, p.IsScanned ∧
    (∀ kind text, p ≠ .mark kind text) ∧ value.source = .ofList p.text ∧
      ∃ kind literal, p.content? = some (kind, literal) ∧ isConstant kind ∧
        ∀ text, constant ⟨kind, text, literal, 0⟩ = value := by
  have hword (text : List Char) : ∀ kind mark, Piece.word text ≠ .mark kind mark := by
    rintro _ _ ⟨⟩
  cases value with
  | nil =>
    exact ⟨.word ['n', 'i', 'l'], ⟨'n', ['i', 'l'], [], rfl⟩, hword _, rfl, .nilWord, none, rfl,
      rfl, fun _ => rfl⟩
  | bool b =>
    cases b with
    | true =>
      exact ⟨.word ['t', 'r', 'u', 'e'], ⟨'t', ['r', 'u', 'e'], [], rfl⟩, hword _, rfl, .trueWord,
        none, rfl, rfl, fun _ => rfl⟩
    | false =>
      exact ⟨.word ['f', 'a', 'l', 's', 'e'], ⟨'f', ['a', 'l', 's', 'e'], [], rfl⟩, hword _, rfl,
        .falseWord, none, rfl, rfl, fun _ => rfl⟩
  | number x =>
    obtain ⟨n, hn, rfl⟩ := h
    obtain ⟨whole, fraction, hnumeral, hsource, hvalue⟩ := Number.exists_source hn
    refine ⟨.numeral whole fraction, Piece.isScanned_numeral hnumeral, by rintro _ _ ⟨⟩, ?_, .number,
      _, rfl, rfl, fun _ => congrArg Literal.number hvalue⟩
    rw [← String.toList_inj, String.toList_ofList, hsource, Piece.text_numeral, Number.numeralText]
    split
    · rw [List.append_nil]
    · rfl
  | string s =>
    refine ⟨.string s.toList, Piece.isScanned_string h, by rintro _ _ ⟨⟩, ?_, .string, _, rfl, rfl,
      fun _ => ?_⟩
    · rw [← String.toList_inj, String.toList_ofList]
      simp [source, Piece.text]
    · rw [String.ofList_toList]
      rfl

theorem Literal.spelled {value : Literal} (h : value.Printable) :
    Spelled isBoundary value.source (IsConstant value) := by
  obtain ⟨p, hp, -, hsource, kind, literal, hcontent, hkind, hvalue⟩ := exists_piece h
  have ht : p.token? 0 = some ⟨kind, .ofList p.text, literal, 0⟩ := by
    rw [Piece.token?, hcontent]
    rfl
  rw [hsource]
  refine (spelled_piece hp ht fun c hc => ?_).imp fun ts hts =>
    isConstant_of_stripped hkind (hvalue _) hts
  exact Piece.stopsAt_of_isBoundary (by rw [hcontent]; rfl) hc

theorem Token.eq_of_stripped {t u : Token} (h : t.stripped = u.stripped) :
    t.kind = u.kind ∧ t.lexeme = u.lexeme := by
  have hfields := Token.mk.inj h
  exact ⟨hfields.1, hfields.2.1⟩

/-- The tokens are one token of these categories, which differs from this one in its line only. -/
def Token.IsRead (t : Token) (p : Kind → Bool) (ts : List Token) : Prop :=
  ∃ u : TokenOf p, ts = [u.1] ∧ u.1.stripped = t.stripped ∧ u.1.lexeme = t.lexeme

theorem Token.isRead {p : Kind → Bool} {t : Token} (ht : p t.kind) {ts : List Token}
    (h : ∃ u, ts = [u] ∧ u.stripped = t.stripped) : t.IsRead p ts := by
  obtain ⟨u, rfl, hu⟩ := h
  obtain ⟨hkind, hlexeme⟩ := eq_of_stripped hu
  exact ⟨⟨u, by rw [hkind]; exact ht⟩, rfl, hu, hlexeme⟩

theorem spelled_name {name : Token} (h : name.IsName) :
    Spelled isBoundary name.lexeme (name.IsRead fun k => k = .identifier) :=
  (spelled_lexeme h.1).imp fun _ hts => Token.isRead (decide_eq_true h.2) hts

/-- The tokens are a call whose tree is the expression, up to groups, ids and lines, and has the same
source. -/
def Expr.IsRead (e : Expr) (ts : List Token) : Prop :=
  ∃ c : Call, c.tokens = ts ∧ c.tree.stripped = e.stripped ∧ c.tree.source = e.source

def Expr.AreRead (es : List Expr) (ts : List Token) : Prop :=
  ∀ room, es.length ≤ room → ∃ d : ArgumentList room, d.tokens = ts ∧
    Expr.allStripped d.trees = Expr.allStripped es ∧ Expr.sources d.trees = Expr.sources es

theorem ledBy_leftParen : LedBy isBoundary "(" := ⟨'(', [], rfl, rfl⟩

theorem ledBy_rightParen : LedBy isBoundary ")" := ⟨')', [], rfl, rfl⟩

theorem ledBy_space : LedBy isBoundary " " := ⟨' ', [], rfl, rfl⟩

theorem ledBy_comma : LedBy isBoundary ", " := ⟨',', [' '], rfl, rfl⟩

theorem Token.IsName.ledBy {name : Token} (h : name.IsName) : LedBy (· ≠ '=') name.lexeme := by
  obtain ⟨⟨p, hp, ht⟩, hk⟩ := h
  obtain ⟨hcontent, hlexeme⟩ := content_of_token? ht
  rw [hlexeme]
  refine hp.ledBy ?_
  rintro kind text rfl
  have hmarks : ∀ m ∈ Piece.marks, m.1 ≠ .identifier := by decide
  injection hcontent with hcontent
  exact hmarks _ hp.mem_marks ((congrArg Prod.fst hcontent).trans hk)

/-- The source of an expression does not turn an operator before it into another. -/
theorem Expr.ledBy : ∀ e : Expr, e.Printable → LedBy (· ≠ '=') e.source
  | .literal value, h => by
    obtain ⟨p, hp, hmark, hsource, -⟩ := Literal.exists_piece h
    rw [source, hsource]
    exact hp.ledBy hmark
  | .group inner, h => by
    rw [source]
    split
    · exact inner.ledBy h
    · exact .append (.append ⟨'(', [], rfl, rfl⟩ _) _
  | .unary _ _, _ => .append (.append (.append ⟨'(', [], rfl, rfl⟩ _) _) _
  | .binary _ _ _, _ => by
    rw [source]
    iterate 6 refine .append ?_ _
    exact ⟨'(', [], rfl, rfl⟩
  | .logical _ _ _, _ => by
    rw [source]
    iterate 6 refine .append ?_ _
    exact ⟨'(', [], rfl, rfl⟩
  | .use _ _, h => h.ledBy
  | .assign _ _ _, _ => by
    rw [source]
    iterate 4 refine .append ?_ _
    exact ⟨'(', [], rfl, rfl⟩
  | .call callee _ _, h => by
    rw [source]
    iterate 3 refine .append ?_ _
    exact callee.ledBy h.1

theorem source_node (l : Level) (left : Expr) (op : Token) (right : Expr) :
    (l.node left op right).source =
      "(" ++ left.source ++ " " ++ op.lexeme ++ " " ++ right.source ++ ")" := by
  cases l <;> rfl

theorem stripped_node (l : Level) (left : Expr) (op : Token) (right : Expr) :
    (l.node left op right).stripped = l.node left.stripped op.stripped right.stripped := by
  cases l <;> rfl

theorem isOperator_node (l : Level) (left : Expr) (op : Token) (right : Expr) :
    (l.node left op right).isOperator := by
  cases l <;> rfl

/-- Operator expressions come back in a group. -/
theorem spelled_node {l : Level} {left right : Expr} {op : Token} (hop : op.IsLexical)
    (hl : l.has op.kind) (hleft : Spelled isBoundary left.source left.IsRead)
    (hright : Spelled isBoundary right.source right.IsRead) :
    Spelled isBoundary (l.node left op right).source (l.node left op right).IsRead := by
  have hoperator := (spelled_lexeme hop).imp fun ts hts => Token.isRead (p := l.has) hl hts
  rw [source_node]
  simp only [String.append_assoc]
  refine ((spelled_leftParen.followed (hleft.append (spelled_space.followed (hoperator.append
    (spelled_space.followed (hright.append spelled_rightParen ledBy_rightParen))
      (ledBy_space.append _))) (ledBy_space.append _))).before fun _ _ => rfl).imp ?_
  rintro _ ⟨_, _, rfl, ho, _, _, rfl, ⟨c, rfl, hc, hcsource⟩, _, _, rfl, hs, _, _, rfl,
    ⟨o, rfl, hostripped, hosource⟩, _, _, rfl, hs', _, _, rfl, ⟨d, rfl, hd, hdsource⟩, hp⟩
  obtain ⟨opening, rfl⟩ := eq_of_map_kind ho
  obtain ⟨closing, rfl⟩ := eq_of_map_kind hp
  rw [List.map_eq_nil_iff] at hs hs'
  obtain ⟨e, htokens, htree⟩ := exists_joined (.call c) (.call d) o Level.all (by cases l <;> decide)
  have htree : (Expression.chain e).tree = l.node c.tree o.1 d.tree := htree
  refine ⟨(Expression.chain e).call opening closing, ?_, ?_, ?_⟩
  · simp [Expression.tokens_call, Expression.tokens, htokens, Unary.tokens, hs, hs']
  · rw [Expression.tree_call, htree, Expr.stripped, stripped_node, stripped_node, hostripped, hc, hd]
  · rw [Expression.tree_call, htree, Expr.source, if_pos (isOperator_node ..), source_node, source_node,
      hosource, hcsource, hdsource]

theorem spelled_closing : Spelled anything ")" fun ts => ∃ t : The .rightParen,
    ts = [t.1] ∧ t.1.stripped = ⟨.rightParen, ")", none, 0⟩ := by
  refine (spelled_pieces [.mark .rightParen [')']] (by decide) rfl (by decide)).imp fun ts hts => ?_
  obtain ⟨t, rfl, ht⟩ := List.map_eq_singleton_iff.1 hts
  have hk : t.kind = .rightParen := congrArg Token.kind ht
  exact ⟨⟨t, decide_eq_true hk⟩, rfl, ht⟩

mutual

theorem Expr.spelled : ∀ e : Expr, e.Printable → Spelled isBoundary e.source e.IsRead
  | .literal value, h => by
    refine (Literal.spelled h).imp fun ts hts => ?_
    obtain ⟨t, rfl, hvalue⟩ := hts
    subst hvalue
    exact ⟨.call (.constant t) .none, rfl, rfl, rfl⟩
  | .group inner, h => by
    by_cases hoperator : inner.isOperator
    · rw [source, if_pos hoperator]
      refine (inner.spelled h).imp fun ts hts => ?_
      obtain ⟨c, htokens, hstripped, hsource⟩ := hts
      exact ⟨c, htokens, hstripped, by rw [hsource, source, if_pos hoperator]⟩
    · rw [source, if_neg hoperator, String.append_assoc]
      refine ((spelled_leftParen.followed ((inner.spelled h).append spelled_rightParen
        ledBy_rightParen)).before fun _ _ => rfl).imp ?_
      rintro _ ⟨_, _, rfl, ho, _, _, rfl, ⟨c, rfl, hstripped, hsource⟩, hp⟩
      obtain ⟨opening, rfl⟩ := eq_of_map_kind ho
      obtain ⟨closing, rfl⟩ := eq_of_map_kind hp
      refine ⟨c.expression.call opening closing, ?_, ?_, ?_⟩
      · simp [Expression.tokens_call]
      · rw [Expression.tree_call, stripped, Call.tree_expression, hstripped, stripped]
      · have hcall : ¬ c.tree.isOperator := by simp [c.isOperator_tree]
        rw [Expression.tree_call, source, Call.tree_expression, if_neg hcall, hsource, source,
          if_neg hoperator]
  | .unary op operand, h => by
    obtain ⟨hop, hk, hoperand⟩ := h
    have hoperator := (spelled_unaryOp hop hk).imp fun ts hts => Token.isRead (p := isPrefix) hk hts
    rw [source]
    simp only [String.append_assoc]
    refine ((spelled_leftParen.followed (hoperator.append ((operand.spelled hoperand).append
      spelled_rightParen ledBy_rightParen) ((operand.ledBy hoperand).append _))).before
        fun _ _ => rfl).imp ?_
    rintro _ ⟨_, _, rfl, ho, _, _, rfl, ⟨o, rfl, hostripped, hosource⟩, _, _, rfl,
      ⟨c, rfl, hstripped, hsource⟩, hp⟩
    obtain ⟨opening, rfl⟩ := eq_of_map_kind ho
    obtain ⟨closing, rfl⟩ := eq_of_map_kind hp
    refine ⟨(Unary.operator o (.call c)).expression.call opening closing, ?_, ?_, ?_⟩
    · simp [Expression.tokens_call, Unary.tokens]
    · simp [Expression.tree_call, Unary.tree, stripped, hostripped, hstripped]
    · simp [Expression.tree_call, Unary.tree, source, isOperator, hosource, hsource,
        String.append_assoc]
  | .binary left op right, h => by
    obtain ⟨hop, ⟨l, hl, hnode⟩, hleft, hright⟩ := h
    rw [← hnode left right]
    exact spelled_node hop hl (left.spelled hleft) (right.spelled hright)
  | .logical left op right, h => by
    obtain ⟨hop, ⟨l, hl, hnode⟩, hleft, hright⟩ := h
    rw [← hnode left right]
    exact spelled_node hop hl (left.spelled hleft) (right.spelled hright)
  | .use _ name, h => by
    refine (spelled_name h).imp fun ts hts => ?_
    obtain ⟨n, rfl, hn, hlexeme⟩ := hts
    exact ⟨.call (.identifier n) .none, rfl, congrArg (Expr.use 0) hn, hlexeme⟩
  | .assign _ name value, h => by
    obtain ⟨hname, hvalue⟩ := h
    rw [source]
    simp only [String.append_assoc]
    refine ((spelled_leftParen.followed ((spelled_name hname).append (spelled_equal.followed
      ((value.spelled hvalue).append spelled_rightParen ledBy_rightParen))
        (.append ⟨' ', _, rfl, rfl⟩ _))).before fun _ _ => rfl).imp ?_
    rintro _ ⟨_, _, rfl, ho, _, _, rfl, ⟨n, rfl, hnstripped, hnsource⟩, _, _, rfl, he, _, _, rfl,
      ⟨c, rfl, hstripped, hsource⟩, hp⟩
    obtain ⟨opening, rfl⟩ := eq_of_map_kind ho
    obtain ⟨equals, rfl⟩ := eq_of_map_kind he
    obtain ⟨closing, rfl⟩ := eq_of_map_kind hp
    refine ⟨(Expression.assign n equals c.expression).call opening closing, ?_, ?_, ?_⟩
    · simp [Expression.tokens_call, Expression.tokens]
    · simp [Expression.tree_call, Expression.tree, stripped, hnstripped, hstripped]
    · simp [Expression.tree_call, Expression.tree, source, isOperator, hnsource, hsource,
        String.append_assoc]
  | .call callee args paren, h => by
    obtain ⟨hcallee, hargs, hlength, hparen⟩ := h
    have hlist : Spelled isBoundary (commaSeparated (Expr.sources args)) fun ts =>
        ∃ d : Arguments, d.tokens = ts ∧ Expr.allStripped d.trees = Expr.allStripped args ∧
          Expr.sources d.trees = Expr.sources args := by
      by_cases hnil : args = []
      · subst hnil
        refine (spelled_empty.before fun _ _ => rfl).imp fun ts hts => ?_
        exact ⟨.none, (List.map_eq_nil_iff.1 hts).symm, rfl, rfl⟩
      · refine (all_spelled args hargs hnil).imp fun ts hts => ?_
        obtain ⟨d, hd⟩ := hts maxArity hlength
        exact ⟨.some d, hd⟩
    rw [source]
    simp only [String.append_assoc]
    refine (((callee.spelled hcallee).append (spelled_leftParen.followed (hlist.append
      spelled_closing ledBy_rightParen)) (ledBy_leftParen.append _)).before fun _ _ => rfl).imp ?_
    rintro _ ⟨_, _, rfl, ⟨c, rfl, hstripped, hsource⟩, _, _, rfl, ho, _, _, rfl,
      ⟨d, rfl, hdstripped, hdsource⟩, closing, rfl, hp⟩
    obtain ⟨opening, rfl⟩ := eq_of_map_kind ho
    obtain ⟨c', htokens, htree⟩ := c.exists_call opening d closing
    refine ⟨c', ?_, ?_, ?_⟩
    · simp [htokens]
    · rw [htree, stripped, hstripped, hdstripped, hp, ← hparen, stripped]
    · simp [htree, source, hsource, hdsource, String.append_assoc]

theorem Expr.all_spelled : ∀ es : List Expr, Expr.AllPrintable es → es ≠ [] →
    Spelled isBoundary (commaSeparated (Expr.sources es)) (Expr.AreRead es)
  | [], _, hne => absurd rfl hne
  | [e], h, _ => by
    refine (e.spelled h.1).imp ?_
    rintro _ ⟨c, rfl, hstripped, hsource⟩ (- | room) hroom
    · cases hroom
    · refine ⟨.last c.expression, c.tokens_expression, ?_, ?_⟩
      · simp [ArgumentList.trees, allStripped, hstripped]
      · simp [ArgumentList.trees, sources, hsource]
  | e :: e' :: es, h, _ => by
    have hlist : commaSeparated (Expr.sources (e :: e' :: es)) =
        e.source ++ (", " ++ commaSeparated (Expr.sources (e' :: es))) := by
      rw [← String.append_assoc]
      exact String.intercalate_cons_cons
    rw [hlist]
    refine ((e.spelled h.1).append (spelled_comma.followed (Expr.all_spelled (e' :: es) h.2
      (List.cons_ne_nil _ _))) (ledBy_comma.append _)).imp ?_
    rintro _ ⟨_, _, rfl, ⟨c, rfl, hstripped, hsource⟩, _, _, rfl, hc, hargs⟩ (- | room) hroom
    · cases hroom
    · obtain ⟨comma, rfl⟩ := eq_of_map_kind hc
      obtain ⟨d, rfl, hdstripped, hdsource⟩ := hargs room (Nat.le_of_succ_le_succ hroom)
      refine ⟨.more c.expression comma d, ?_, ?_, ?_⟩
      · simp [ArgumentList.tokens]
      · rw [ArgumentList.trees, allStripped, Call.tree_expression, hstripped, hdstripped]
        rfl
      · rw [ArgumentList.trees, sources, Call.tree_expression, hsource, hdsource]
        rfl

end

end Lox
