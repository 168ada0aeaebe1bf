import Lox.Proofs.Concrete.Complete
import Lox.Proofs.Concrete.Unique
import Lox.Proofs.Source.Lexemes
import Lox.Session

/-! Compilation: what scanning hands to parsing, and when a source is a program. -/
namespace Lox

open Concrete (beforeEnd)

theorem mem_located {line : UInt32} {ps : List Piece} {p : Piece × UInt32}
    (h : p ∈ located line ps) : p.1 ∈ ps := by
  induction ps generalizing line with
  | nil => cases h
  | cons q ps ih =>
    rcases List.mem_cons.1 h with rfl | h
    · exact List.mem_cons_self
    · exact List.mem_cons_of_mem q (ih h)

def locatedTokens (ls : List (Piece × UInt32)) : List Token :=
  ls.filterMap fun (p, line) => p.token? line

def locatedErrors (ls : List (Piece × UInt32)) : List SyntaxError :=
  ls.filterMap fun (p, line) => p.error? line

theorem scan_tokens (source : String) : (scan source).tokens =
    locatedTokens (located 1 (pieces source.toList)) ++ [.atEnd (lastLine 1 (pieces source.toList))] :=
  rfl

theorem scan_errors (source : String) :
    (scan source).errors = locatedErrors (located 1 (pieces source.toList)) := rfl

theorem locatedTokens_cons (p : Piece) (line : UInt32) (ls : List (Piece × UInt32)) :
    locatedTokens ((p, line) :: ls) = (p.token? line).toList ++ locatedTokens ls := by
  unfold locatedTokens
  cases ht : p.token? line with
  | none => exact List.filterMap_cons_none ht
  | some t => exact List.filterMap_cons_some ht

theorem stripped_locatedTokens (line : UInt32) (ps : List Piece) :
    (locatedTokens (located line ps)).map Token.stripped = ps.filterMap (Piece.token? · 0) := by
  induction ps generalizing line with
  | nil => rfl
  | cons p ps ih =>
    have hhead : (p.token? (line + .ofNat p.newlines)).map Token.stripped = p.token? 0 := by
      unfold Piece.token?
      rw [Option.map_map]
      rfl
    rw [located, locatedTokens_cons, List.map_append, ih, List.filterMap_cons, ← hhead]
    cases p.token? (line + .ofNat p.newlines) <;> rfl

theorem locatedErrors_eq_nil {ps : List Piece} (h : ∀ p ∈ ps, p.fault? = none) (line : UInt32) :
    locatedErrors (located line ps) = [] := by
  refine List.filterMap_eq_nil_iff.2 fun (p, line) hp => ?_
  change (p.fault?.map _) = none
  rw [h p (mem_located hp), Option.map_none]

theorem exists_mem_located {p : Piece} {ps : List Piece} (h : p ∈ ps) (line : UInt32) :
    ∃ line', (p, line') ∈ located line ps := by
  induction ps generalizing line with
  | nil => cases h
  | cons q ps ih =>
    rw [located]
    rcases List.mem_cons.1 h with rfl | h
    · exact ⟨_, List.mem_cons_self⟩
    · obtain ⟨line', hline⟩ := ih h (line + .ofNat q.newlines)
      exact ⟨line', List.mem_cons_of_mem _ hline⟩

theorem isLexical_of_scan {source : String} {t : Token}
    (h : t ∈ locatedTokens (located 1 (pieces source.toList))) : t.IsLexical := by
  obtain ⟨⟨p, line⟩, hp, ht⟩ := List.mem_filterMap.1 h
  exact ⟨p, Piece.isScanned_of_mem _ p (mem_located hp), Token.stripped_token? ht⟩

theorem beforeEnd_scan (source : String) : beforeEnd (scan source).tokens =
    locatedTokens (located 1 (pieces source.toList)) := by
  rw [scan_tokens, Concrete.beforeEnd_append fun t ht => (isLexical_of_scan ht).kind_ne_eof]
  exact List.append_nil _

theorem compile_eq_ok {source : String} {ids ids' : IdSupply} {p : Program}
    (h : compile source ids = (.ok p, ids')) :
    (parse (scan source).tokens ids).1 = .ok p := by
  unfold compile at h
  dsimp only at h
  cases hp : (parse (scan source).tokens ids).1 with
  | error e => simp [hp] at h
  | ok q =>
    simp only [hp, Prod.mk.injEq] at h
    obtain ⟨h, -⟩ := h
    split at h
    · next heq _ => rw [heq, h]
    · cases h
    · cases h

theorem compile_ids (source : String) (ids : IdSupply) :
    (compile source ids).2 = (parse (scan source).tokens ids).2 := rfl

/-- A source is a program if scanning finds no errors and parsing accepts its tokens. -/
theorem compile_eq_ok_iff {source : String} {ids : IdSupply} {p : Program} :
    (compile source ids).1 = .ok p ↔
      (scan source).errors = [] ∧ (parse (scan source).tokens ids).1 = .ok p := by
  unfold compile
  dsimp only
  cases (parse (scan source).tokens ids).1 with
  | error e => simp
  | ok q => cases (scan source).errors <;> simp

/-- The tree of a source is the same up to ids, whatever ids are free. -/
theorem anonymous_eq_of_compile {source : String} {ids ids' : IdSupply} {p p' : Program}
    (h : (compile source ids).1 = .ok p) (h' : (compile source ids').1 = .ok p') :
    p.anonymous = p'.anonymous := by
  obtain ⟨d, hd, htree⟩ := Concrete.exists_of_parse (compile_eq_ok_iff.1 h).2
  obtain ⟨d', hd', htree'⟩ := Concrete.exists_of_parse (compile_eq_ok_iff.1 h').2
  rw [← htree, ← htree', Concrete.Program.unique (hd.trans hd'.symm)]

end Lox
