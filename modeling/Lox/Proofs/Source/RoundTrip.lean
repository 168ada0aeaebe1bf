import Lox.Proofs.Compilation
import Lox.Proofs.Source.Statements

/-! Writing out and reading back.
The tokens of a source are scanned again where they are written out with spaces between them
(`scan_spaced`). The text of a program that is compiled from any source compiles again, to a program that
differs in groups, ids and lines only and has the same text (`compile_source`). -/
namespace Lox

open Concrete (beforeEnd)

theorem printable_of_parse {source : String} {ids : IdSupply} {p : Program}
    (h : (parse (scan source).tokens ids).1 = .ok p) : Stmt.AllPrintable p.anonymous := by
  obtain ⟨d, htokens, htree⟩ := Concrete.exists_of_parse h
  rw [beforeEnd_scan] at htokens
  rw [← htree]
  exact d.printable fun t ht => isLexical_of_scan (htokens ▸ ht)

theorem Program.stripped_anonymous (p : Program) : p.anonymous.stripped = p.stripped :=
  Stmt.allStripped_allAnonymous p

theorem Program.source_anonymous (p : Program) : p.anonymous.source = p.source := by
  rw [source, source, anonymous, Stmt.sources_allAnonymous]

/-- What a text spells is what is scanned if nothing follows it. -/
theorem Spelled.scan {f : Char → Bool} {text : String} {P : List Token → Prop}
    (h : Spelled f text P) :
    (scan text).errors = [] ∧ P (beforeEnd (scan text).tokens) := by
  obtain ⟨ps, hpieces, hfault, htokens⟩ := h
  have hnone : ∀ c ∈ ([] : List Char).head?, f c := by
    intro c hc
    cases hc
  have hps : pieces text.toList = ps := by simpa [pieces] using hpieces [] hnone
  refine ⟨?_, htokens _ ?_⟩
  · rw [scan_errors, hps, locatedErrors_eq_nil hfault]
  · rw [beforeEnd_scan, hps, stripped_locatedTokens]

/-- The lexemes of tokens, with one space between neighbours. -/
def spaced (ts : List Token) : String := " ".intercalate (ts.map Token.lexeme)

/-- A space extends no lexeme, so each token is read from its own. -/
theorem spelled_spaced : ∀ ts : List Token, (∀ t ∈ ts, t.IsLexical) →
    Spelled Piece.isBoundary (spaced ts) fun us => us.map Token.stripped = ts.map Token.stripped
  | [], _ => (spelled_empty.before fun _ _ => rfl).imp fun us hus => by
    rw [List.map_eq_nil_iff.1 hus]
  | [t], h => (spelled_lexeme (h t List.mem_cons_self)).imp fun us ⟨u, hus, hu⟩ => by
    rw [hus, List.map_singleton, hu, List.map_singleton]
  | t :: t' :: ts, h => by
    obtain ⟨ht, hts⟩ := List.forall_mem_cons.1 h
    have htext : spaced (t :: t' :: ts) = t.lexeme ++ (" " ++ spaced (t' :: ts)) := by
      rw [← String.append_assoc]
      exact String.intercalate_cons_cons
    rw [htext]
    refine ((spelled_lexeme ht).append (spelled_space.followed (spelled_spaced (t' :: ts) hts))
      (ledBy_space.append _)).imp ?_
    rintro _ ⟨_, _, rfl, ⟨u, rfl, hu⟩, blank, vs, rfl, hblank, hvs⟩
    rw [List.map_eq_nil_iff.1 hblank, List.nil_append, List.map_append, List.map_singleton, hu, hvs]
    rfl

theorem stripped_scan (source : String) : (scan source).tokens.map Token.stripped =
    (beforeEnd (scan source).tokens).map Token.stripped ++ [.atEnd 0] := by
  rw [beforeEnd_scan, scan_tokens, List.map_append]
  rfl

/-- The tokens of any source, written out with single spaces, are scanned without errors, and as the same
tokens on other lines. -/
theorem scan_spaced (source : String) :
    (scan (spaced (scan source).tokens.dropLast)).errors = [] ∧
      (scan (spaced (scan source).tokens.dropLast)).tokens.map Token.stripped =
        (scan source).tokens.map Token.stripped := by
  have hdrop : (scan source).tokens.dropLast = beforeEnd (scan source).tokens := by
    rw [beforeEnd_scan, scan_tokens, List.dropLast_concat]
  have hlexical : ∀ t ∈ beforeEnd (scan source).tokens, t.IsLexical := by
    rw [beforeEnd_scan]
    exact fun t => isLexical_of_scan
  obtain ⟨herrors, htokens⟩ := (spelled_spaced _ hlexical).scan
  rw [hdrop]
  refine ⟨herrors, ?_⟩
  rw [stripped_scan, htokens, ← stripped_scan]

/-- Spaces keep apart what would be longer marks, or a numeral with a fraction. -/
example : spaced (scan "a=!\n=12.(34)").tokens.dropLast = "a = ! = 12 . ( 34 )" := by decide +kernel

theorem Spelled.compile {f : Char → Bool} {text : String} {P : Concrete.Program → Prop}
    (h : Spelled f text fun ts => ∃ d : Concrete.Program, d.tokens = ts ∧ P d) (ids : IdSupply) :
    ∃ d p, P d ∧ (Lox.compile text ids).1 = .ok p ∧ p.anonymous = d.tree := by
  obtain ⟨herrors, d, htokens, hd⟩ := h.scan
  obtain ⟨p, hp, htree⟩ := Concrete.parse_of_tokens d htokens ids
  exact ⟨d, p, hd, compile_eq_ok_iff.2 ⟨herrors, hp⟩, htree⟩

/-- The text of a printable program compiles to a program that differs in groups, ids and lines only
and has the same text. -/
theorem compile_of_printable {p : Program} (h : Stmt.AllPrintable p) (ids : IdSupply) :
    ∃ q, (compile p.source ids).1 = .ok q ∧ q.stripped = p.stripped ∧ q.source = p.source := by
  have hspelled := Stmt.all_spelled p 0 spelled_empty spelled_line h
  rw [Stmt.source_empty_join] at hspelled
  obtain ⟨d, q, ⟨hstripped, hsource⟩, hq, htree⟩ :=
    (hspelled.imp fun ts ⟨ds, htokens, hnearest, hsame⟩ =>
      (⟨⟨ds, hnearest⟩, htokens, hsame⟩ : ∃ d : Concrete.Program, d.tokens = ts ∧
        Stmt.allStripped d.tree = Stmt.allStripped p ∧
          ∀ depth, Stmt.sources depth d.tree = Stmt.sources depth p)).compile ids
  refine ⟨q, hq, ?_, ?_⟩
  · rw [← q.stripped_anonymous, htree]
    exact hstripped
  · rw [← q.source_anonymous, htree]
    exact congrArg (fun texts => String.join (texts.map (· ++ "\n"))) (hsource 0)

/-- Printing a program that is compiled from any source gives a text that compiles, to a program that
differs in groups, ids and lines only. Printing that program gives the same text again. -/
theorem compile_source {source : String} {ids : IdSupply} {p : Program}
    (h : (compile source ids).1 = .ok p) (ids' : IdSupply) :
    ∃ q, (compile p.source ids').1 = .ok q ∧ q.stripped = p.stripped ∧ q.source = p.source := by
  have hprintable := printable_of_parse (compile_eq_ok_iff.1 h).2
  obtain ⟨q, hq, hstripped, hsource⟩ := compile_of_printable hprintable ids'
  rw [p.source_anonymous] at hq hsource
  exact ⟨q, hq, hstripped.trans p.stripped_anonymous, hsource⟩

/-- A loop whose body is an `if` inside an `if`, with groups that printing drops and groups that it
adds. -/
def loopSource : String :=
  "for (;; i = (i)) if (a) \x7b if (b) print \"\n\"; \x7d else (f)(-(d));"

set_option maxRecDepth 8000 in
theorem compile_source_loop : ∃ p, (compile loopSource .initial).1 = .ok p ∧
    ∃ q, (compile p.source .initial).1 = .ok q ∧ q.stripped = p.stripped ∧ q.source = p.source := by
  have hok : (compile loopSource .initial).1.toBool = true := by cbv
  cases hp : (compile loopSource .initial).1 with
  | error errors =>
    rw [hp] at hok
    cases hok
  | ok p => exact ⟨p, rfl, compile_source hp .initial⟩

end Lox
