import Lox.Proofs.Source.RoundTrip
import Lox.Proofs.Tiling

/-! Expressions of any shape and their source text.
The source text of an expression brings the parentheses that its shape needs. So every expression with
legal tokens and constants, whether parsing builds such a tree or not, is read back from its text, up to
groups, ids and lines (`compile_legal`). -/
namespace Lox

open Grammar (Level maxArity)
open Concrete (isPrefix The eq_of_map_kind)

namespace Token

variable {t : Token}

/-- A mark or a reserved word, with the lexeme that its category has. A constant is carried by numerals
and strings only. -/
def IsFixed (t : Token) : Prop := (t.kind, t.lexeme.toList) ∈ fixedTexts ∧ t.literal = none

/-- An identifier, which is a word and no reserved word. -/
def IsIdentifier (t : Token) : Prop :=
  t.kind = .identifier ∧ t.literal = none ∧ Kind.ofWord? t.lexeme = none ∧
    ∃ c cs, t.lexeme.toList = c :: cs ∧ startsWord c ∧ ∀ d ∈ cs, continuesWord d

theorem isLexical_of_piece {p : Piece} (hp : p.IsScanned) (htext : p.text = t.lexeme.toList)
    (hcontent : p.content? = some (t.kind, t.literal)) : t.IsLexical := by
  refine ⟨p, hp, ?_⟩
  rw [Piece.token?, hcontent, htext, String.ofList_toList]
  rfl

theorem IsFixed.isLexical (h : t.IsFixed) : t.IsLexical := by
  obtain ⟨hmem, hliteral⟩ := h
  rcases List.mem_append.1 hmem with hmark | hword
  · have hfits : (Piece.mark t.kind t.lexeme.toList).Fits [] :=
      .mark hmark (fun _ hd => by cases hd) (fun _ _ hd => by cases hd)
    exact isLexical_of_piece hfits.isScanned rfl (by rw [hliteral]; rfl)
  · obtain ⟨⟨text, kind⟩, hmem, heq⟩ := List.mem_map.1 hword
    obtain ⟨hkind, htext⟩ := Prod.mk.inj heq
    have hall : ∀ w ∈ Kind.words, (Piece.word w.1.toList).isWhole ∧ Kind.ofWord? w.1 = some w.2 := by
      decide
    obtain ⟨hwhole, hof⟩ := hall _ hmem
    have hcontent : (Piece.word text.toList).content? = some (t.kind, t.literal) := by
      rw [Piece.content?, String.ofList_toList, hof, hkind, hliteral]
      rfl
    exact isLexical_of_piece (Piece.isScanned_of_isWhole hwhole) htext hcontent

theorem IsIdentifier.isName (h : t.IsIdentifier) : t.IsName := by
  obtain ⟨hkind, hliteral, hreserved, c, cs, htext, hfirst, hothers⟩ := h
  have hfits : (Piece.word (c :: cs)).Fits [] := .word hfirst hothers (fun _ hd => by cases hd)
  have hcontent : (Piece.word (c :: cs)).content? = some (t.kind, t.literal) := by
    rw [Piece.content?, ← htext, String.ofList_toList, hreserved, hkind, hliteral]
    rfl
  exact ⟨isLexical_of_piece hfits.isScanned htext.symm hcontent, hkind⟩

end Token

/-- A number is defined and has no sign, and a text has no quote inside. -/
def Literal.Legal : Literal → Prop
  | .nil | .bool _ => True
  | .number x => x.isNaN = false ∧ Number.isNegative x = false
  | .string s => '"' ∉ s.toList

mutual

/-- Every operator is one of its node, every name is an identifier, every constant is legal, and no call
has too many arguments; what closes a call is a parenthesis. Any such expression can stand anywhere in
another one. -/
def Expr.Legal : Expr → Prop
  | .literal value => value.Legal
  | .group inner => inner.Legal
  | .unary op operand => op.IsFixed ∧ isPrefix op.kind ∧ operand.Legal
  | .binary left op right => op.IsFixed ∧
    (∃ l ∈ [Level.equality, .comparison, .term, .factor], l.has op.kind) ∧ left.Legal ∧ right.Legal
  | .logical left op right => op.IsFixed ∧
    (∃ l ∈ [Level.disjunction, .conjunction], l.has op.kind) ∧ left.Legal ∧ right.Legal
  | .use _ name => name.IsIdentifier
  | .assign _ name value => name.IsIdentifier ∧ value.Legal
  | .call callee args paren => callee.Legal ∧ Expr.AllLegal args ∧ args.length ≤ maxArity ∧
    paren.IsFixed ∧ paren.kind = .rightParen

def Expr.AllLegal : List Expr → Prop
  | [] => True
  | e :: es => e.Legal ∧ Expr.AllLegal es

end

theorem Literal.Legal.printable {value : Literal} (h : value.Legal) : value.Printable := by
  cases value with
  | nil => trivial
  | bool b => trivial
  | number x => exact Number.exists_eq_ofMagnitude h.1 h.2
  | string s => exact h

theorem Token.IsFixed.stripped_rightParen {t : Token} (h : t.IsFixed) (hk : t.kind = .rightParen) :
    t.stripped = ⟨.rightParen, ")", none, 0⟩ := by
  let closing : The .rightParen := ⟨t, decide_eq_true hk⟩
  exact closing.stripped_rightParen h.isLexical

mutual

/-- What parsing could not build is printable all the same. -/
theorem Expr.printable_of_legal : ∀ e : Expr, e.Legal → e.Printable
  | .literal _, h => Literal.Legal.printable h
  | .group inner, h => inner.printable_of_legal h
  | .unary _ operand, ⟨hop, hkind, h⟩ => ⟨hop.isLexical, hkind, operand.printable_of_legal h⟩
  | .binary left _ right, ⟨hop, ⟨l, hl, hhas⟩, hleft, hright⟩ => by
    refine ⟨hop.isLexical, ⟨l, hhas, fun a b => ?_⟩, left.printable_of_legal hleft,
      right.printable_of_legal hright⟩
    cases l <;> first | rfl | simp at hl
  | .logical left _ right, ⟨hop, ⟨l, hl, hhas⟩, hleft, hright⟩ => by
    refine ⟨hop.isLexical, ⟨l, hhas, fun a b => ?_⟩, left.printable_of_legal hleft,
      right.printable_of_legal hright⟩
    cases l <;> first | rfl | simp at hl
  | .use _ _, h => Token.IsIdentifier.isName h
  | .assign _ _ value, ⟨hname, h⟩ => ⟨hname.isName, value.printable_of_legal h⟩
  | .call callee args _, ⟨hcallee, hargs, hlength, hparen, hkind⟩ =>
    ⟨callee.printable_of_legal hcallee, Expr.allPrintable_of_allLegal args hargs, hlength,
      hparen.stripped_rightParen hkind⟩

theorem Expr.allPrintable_of_allLegal : ∀ es : List Expr, Expr.AllLegal es → Expr.AllPrintable es
  | [], _ => trivial
  | e :: es, ⟨he, hes⟩ => ⟨e.printable_of_legal he, Expr.allPrintable_of_allLegal es hes⟩

end

theorem exists_expression_of_anonymous {p : Program} {e : Expr} (h : p.anonymous = [.expression e]) :
    ∃ d, p = [.expression d] ∧ d.anonymous = e := by
  obtain _ | ⟨st, _ | ⟨st', p⟩⟩ := p
  · cases h
  · injection h with hst
    cases st with
    | expression d =>
      injection hst with hd
      exact ⟨d, rfl, hd⟩
    | branch condition consequent alternative => cases alternative <;> cases hst
    | _ => cases hst
  · injection h with _ hrest
    cases hrest

/-- The text of any legal expression, closed by a semicolon, compiles to one expression statement, whose
expression differs in groups, ids and lines only. -/
theorem compile_legal {e : Expr} (h : e.Legal) (ids : IdSupply) :
    ∃ d, (compile (e.source ++ ";") ids).1 = .ok [.expression d] ∧ d.stripped = e.stripped := by
  have hspelled := (e.spelled (e.printable_of_legal h)).append spelled_semicolon ledBy_semicolon
  have hstatement : Spelled anything (e.source ++ ";") fun ts => ∃ d : Concrete.Program,
      d.tokens = ts ∧ ∃ x, d.tree = [.expression x] ∧ x.stripped = e.stripped := by
    refine hspelled.imp ?_
    rintro _ ⟨_, _, rfl, ⟨c, rfl, hstripped, -⟩, hsemicolon⟩
    obtain ⟨semicolon, rfl⟩ := eq_of_map_kind hsemicolon
    refine ⟨⟨[.statement (.expression (.statement c.expression semicolon))], rfl⟩, ?_, c.tree, ?_,
      hstripped⟩
    · rw [← c.tokens_expression]
      exact List.append_nil _
    · rw [← c.tree_expression]
      rfl
  obtain ⟨d, p, ⟨x, hx, hstripped⟩, hp, htree⟩ := hstatement.compile ids
  rw [hx] at htree
  obtain ⟨y, rfl, hy⟩ := exists_expression_of_anonymous htree
  exact ⟨y, hp, by rw [← y.stripped_anonymous, hy, hstripped]⟩

/-- A product that is called, of an assignment and a negated infinite number. No parenthesis is
recorded. -/
def calledProduct : Expr :=
  let token (kind : Kind) (lexeme : String) : Token := ⟨kind, lexeme, none, 1⟩
  .call (.binary (.assign 0 (token .identifier "a") (.use 0 (token .identifier "or_")))
      (token .star "*") (.unary (token .minus "-")
        (.unary (token .minus "-") (.literal (.number (Number.ofMagnitude Number.infinityBits))))))
    [.logical (.literal .nil) (token .orWord "or") (.literal (.string "//\n"))] (token .rightParen ")")

theorem legal_calledProduct : calledProduct.Legal := by
  have hfixed (kind : Kind) (lexeme : String) (h : (kind, lexeme.toList) ∈ Token.fixedTexts) :
      (⟨kind, lexeme, none, 1⟩ : Token).IsFixed := ⟨h, rfl⟩
  have hminus := hfixed .minus "-" (by decide)
  have hassign : (Expr.assign 0 ⟨.identifier, "a", none, 1⟩
      (.use 0 ⟨.identifier, "or_", none, 1⟩)).Legal :=
    ⟨⟨rfl, rfl, by decide, 'a', [], rfl, rfl, nofun⟩,
      rfl, rfl, by decide, 'o', ['r', '_'], rfl, rfl, by simp [continuesWord, Char.isAlphanum]⟩
  have hinfinite : (Literal.number (Number.ofMagnitude Number.infinityBits)).Legal :=
    ⟨by decide +kernel, Number.isNegative_ofMagnitude (Nat.le_refl _)⟩
  refine ⟨⟨hfixed .star "*" (by decide), ⟨.factor, by decide, rfl⟩, hassign, hminus, rfl, hminus, rfl,
    hinfinite⟩, ⟨⟨hfixed .orWord "or" (by decide), ⟨.disjunction, by decide, rfl⟩, trivial, ?_⟩, trivial⟩,
    by decide, hfixed .rightParen ")" (by decide), rfl⟩
  change '"' ∉ "//\n".toList
  decide

theorem compile_legal_calledProduct : calledProduct.Legal ∧ ∃ d,
    (compile (calledProduct.source ++ ";") .initial).1 = .ok [.expression d] ∧
      d.stripped = calledProduct.stripped :=
  ⟨legal_calledProduct, compile_legal legal_calledProduct .initial⟩

end Lox
