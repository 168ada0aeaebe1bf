import Lox.Proofs.Diagnosis
import Lox.Proofs.Layout
import Lox.Proofs.Tiling

/-! Lines.
What scanning finds is on the line on which it ends, and lines are counted by the line ends before them. So
lines never decrease from token to token, and all errors in a source are on its lines (`scan_lines`). -/
namespace Lox

/-- The line that goes on behind a text. -/
def lineBehind (before : List Char) : Nat := 1 + before.count '\n'

/-- The tokens and the errors that pieces behind a text stand for, on their lines. What goes over several
lines is on its last one. -/
inductive ReadsBehind : List Char → List Piece → List Token → List SyntaxError → Prop
  | nil (before : List Char) : ReadsBehind before [] [] []
  | blank (c : Char) {before : List Char} {ps : List Piece} {ts : List Token} {es : List SyntaxError}
    (tail : ReadsBehind (before ++ [c]) ps ts es) : ReadsBehind before (.blank c :: ps) ts es
  | comment (body : List Char) {before : List Char} {ps : List Piece} {ts : List Token}
    {es : List SyntaxError} (tail : ReadsBehind (before ++ (Piece.comment body).text) ps ts es) :
    ReadsBehind before (.comment body :: ps) ts es
  | token {p : Piece} {kind : Kind} {literal : Option Literal} (denotes : p.Denotes kind literal)
    {before : List Char} {line : UInt32} (ends : line.toNat = lineBehind (before ++ p.text))
    {ps : List Piece} {ts : List Token} {es : List SyntaxError}
    (tail : ReadsBehind (before ++ p.text) ps ts es) :
    ReadsBehind before (p :: ps) (⟨kind, .ofList p.text, literal, line⟩ :: ts) es
  | stray (c : Char) {before : List Char} {line : UInt32} (starts : line.toNat = lineBehind before)
    {ps : List Piece} {ts : List Token} {es : List SyntaxError}
    (tail : ReadsBehind (before ++ [c]) ps ts es) :
    ReadsBehind before (.stray c :: ps) ts (.atLine line .unexpectedCharacter :: es)
  /-- Nothing stands behind a string that is never closed. -/
  | unterminated (body : List Char) {before : List Char} {line : UInt32}
    (ends : line.toNat = lineBehind (before ++ (Piece.unterminated body).text)) :
    ReadsBehind before [.unterminated body] [] [.atLine line .unterminatedString]

theorem lineBehind_append (before text : List Char) :
    lineBehind (before ++ text) = lineBehind before + text.count '\n' := by
  rw [lineBehind, lineBehind, List.count_append, Nat.add_assoc]

/-- Lines that there are words for are counted on without overflow. -/
theorem toNat_line {before : List Char} {p : Piece} {line : UInt32}
    (hline : line.toNat = lineBehind before) (hb : lineBehind (before ++ p.text) < UInt32.size) :
    (line + .ofNat p.newlines).toNat = lineBehind (before ++ p.text) := by
  have hsum : lineBehind (before ++ p.text) = lineBehind before + p.newlines :=
    lineBehind_append before p.text
  rw [hsum] at hb ⊢
  have hnewlines : (UInt32.ofNat p.newlines).toNat = p.newlines :=
    UInt32.toNat_ofNat_of_lt' (Nat.lt_of_le_of_lt (Nat.le_add_left _ _) hb)
  rw [UInt32.toNat_add, hline, hnewlines]
  exact Nat.mod_eq_of_lt hb

/-- Scanning counts every line end once. -/
theorem Tiling.readsBehind {cs : List Char} {ps : List Piece} (h : Tiling cs ps) {before : List Char}
    {line : UInt32} (hline : line.toNat = lineBehind before)
    (hb : lineBehind (before ++ cs) < UInt32.size) :
    ReadsBehind before ps (locatedTokens (located line ps)) (locatedErrors (located line ps)) := by
  induction h generalizing before line with
  | nil => exact .nil before
  | @cons p ps rest fits tail ih =>
    rw [← List.append_assoc] at hb
    have hpiece : lineBehind (before ++ p.text) < UInt32.size := by
      rw [lineBehind_append] at hb
      exact Nat.lt_of_le_of_lt (Nat.le_add_right _ _) hb
    have hends := toNat_line hline hpiece
    have htail := ih hends hb
    cases fits with
    | blank => exact .blank _ htail
    | comment => exact .comment _ htail
    | mark => exact .token (.mark _ _) hends htail
    | string => exact .token (.string _) hends htail
    | numeral => exact .token (.numeral _ _) hends htail
    | word => exact .token (denotes_word _) hends htail
    | @stray c _ hblank =>
      have hnewline : c ≠ '\n' := by
        rintro rfl
        exact hblank (by decide)
      have hcount : [c].count '\n' = 0 := List.count_eq_zero.2 (by simpa using hnewline.symm)
      refine .stray c ?_ htail
      rw [hends, lineBehind_append]
      exact congrArg (lineBehind before + ·) hcount
    | unterminated =>
      obtain rfl : ps = [] := by rw [tiling_iff.1 tail, pieces]
      exact .unterminated _ hends

theorem lineBehind_le (before text : List Char) : lineBehind before ≤ lineBehind (before ++ text) := by
  rw [lineBehind_append]
  exact Nat.le_add_right _ _

/-- Lines on which something is found in a text that is scanned behind another one. -/
def IsWithin (before text : List Char) (line : UInt32) : Prop :=
  lineBehind before ≤ line.toNat ∧ line.toNat ≤ lineBehind (before ++ text)

theorem IsWithin.behind {before text rest : List Char} {line : UInt32}
    (h : IsWithin (before ++ text) rest line) : IsWithin before (text ++ rest) line := by
  obtain ⟨hfirst, hlast⟩ := h
  rw [List.append_assoc] at hlast
  exact ⟨(lineBehind_le before text).trans hfirst, hlast⟩

theorem IsWithin.first {before text : List Char} {line : UInt32}
    (h : line.toNat = lineBehind (before ++ text)) (rest : List Char) :
    IsWithin before (text ++ rest) line :=
  behind ⟨h.ge, h.le.trans (lineBehind_le _ rest)⟩

section

variable {before : List Char} {ps : List Piece} {ts : List Token} {es : List SyntaxError}

theorem ReadsBehind.within (h : ReadsBehind before ps ts es) :
    (∀ t ∈ ts, IsWithin before (ps.flatMap Piece.text) t.line) ∧
      ∀ e ∈ es, IsWithin before (ps.flatMap Piece.text) e.line := by
  induction h with
  | nil => exact ⟨List.forall_mem_nil _, List.forall_mem_nil _⟩
  | blank _ _ ih | comment _ _ ih =>
    obtain ⟨htokens, herrors⟩ := ih
    rw [List.flatMap_cons]
    exact ⟨fun t ht => (htokens t ht).behind, fun e he => (herrors e he).behind⟩
  | token denotes ends _ ih =>
    obtain ⟨htokens, herrors⟩ := ih
    rw [List.flatMap_cons]
    refine ⟨List.forall_mem_cons.2 ⟨.first ends _, fun t ht => (htokens t ht).behind⟩, ?_⟩
    exact fun e he => (herrors e he).behind
  | stray c starts _ ih =>
    obtain ⟨htokens, herrors⟩ := ih
    rw [List.flatMap_cons]
    refine ⟨fun t ht => (htokens t ht).behind, List.forall_mem_cons.2 ⟨⟨?_, ?_⟩, ?_⟩⟩
    · exact starts.ge
    · exact starts.le.trans (lineBehind_le _ _)
    · exact fun e he => (herrors e he).behind
  | unterminated body ends =>
    exact ⟨List.forall_mem_nil _, List.forall_mem_cons.2 ⟨.first ends _, List.forall_mem_nil _⟩⟩

/-- Lines never decrease from token to token. -/
theorem ReadsBehind.pairwise (h : ReadsBehind before ps ts es) :
    ts.Pairwise fun t u => t.line.toNat ≤ u.line.toNat := by
  induction h with
  | nil => exact .nil
  | blank _ _ ih => exact ih
  | comment _ _ ih => exact ih
  | token denotes ends tail ih =>
    refine .cons (fun t ht => ?_) ih
    exact ends.le.trans (tail.within.1 t ht).1
  | stray _ _ _ ih => exact ih
  | unterminated => exact .nil

theorem ReadsBehind.unterminated_line (h : ReadsBehind before ps ts es) :
    ∀ e ∈ es, e.fault = .unterminatedString →
      e.line.toNat = lineBehind (before ++ ps.flatMap Piece.text) := by
  induction h with
  | nil => nofun
  | blank _ _ ih | comment _ _ ih | token _ _ _ ih =>
    rw [List.flatMap_cons, ← List.append_assoc]
    exact ih
  | stray _ _ _ ih =>
    rw [List.flatMap_cons, ← List.append_assoc]
    exact List.forall_mem_cons.2 ⟨nofun, ih⟩
  | unterminated body ends =>
    rw [List.flatMap_singleton]
    exact List.forall_mem_singleton.2 fun _ => ends

end

/-! ### Errors at tokens -/

theorem exists_mem_of_alike {ts : List Token} {es es' : List SyntaxError}
    (h : List.Forall₂ (SyntaxError.Alike (SamePosition ts ts)) es es') :
    ∀ e ∈ es, ∃ t ∈ ts, e.line = t.line := by
  induction h with
  | nil => nofun
  | cons hhead _ ih =>
    refine List.forall_mem_cons.2 ⟨?_, ih⟩
    cases hhead with
    | @atToken t _ fault alike =>
      obtain ⟨i, hi, -⟩ := alike
      exact ⟨t, List.mem_of_getElem? hi, rfl⟩

def amongTokens (tokens : List Token) : Likeness :=
  ⟨False, SamePosition tokens tokens, Eq⟩

section

variable {tokens : List Token} (hend : ∃ t ∈ tokens, t.kind = .eof)
include hend

theorem parse_amongTokens (ids : IdSupply) :
    SameParse (amongTokens tokens) (parse tokens ids).1 (parse tokens ids).1 :=
  parse_samePosition rfl hend ids

/-- Parsing reports errors on the lines of tokens. -/
theorem exists_mem_of_parse {ids : IdSupply} {es : List SyntaxError}
    (h : (parse tokens ids).1 = .error es) : ∀ e ∈ es, ∃ t ∈ tokens, e.line = t.line := by
  have hparse := parse_amongTokens hend ids
  rw [h] at hparse
  cases hparse with
  | error alike => exact exists_mem_of_alike alike

/-- The tokens of a tree are tokens that it is parsed from. -/
theorem exists_mem_of_resolve {ids : IdSupply} {p : Program} {es : List SyntaxError}
    (h : (parse tokens ids).1 = .ok p) (hes : resolve p = .error es) :
    ∀ e ∈ es, ∃ t ∈ tokens, e.line = t.line := by
  have hlawful : (amongTokens tokens).Lawful :=
    ⟨fun _ _ h => h.kind_eq rfl, fun _ _ h => h.lexeme_eq rfl⟩
  have hparse := parse_amongTokens hend ids
  rw [h] at hparse
  cases hparse with
  | ok twin =>
    have hresolve := resolve_alike hlawful twin
    rw [hes] at hresolve
    cases hresolve with
    | error alike => exact exists_mem_of_alike alike

end

/-! ### Sources -/

section

variable {source : String} (h : newlines source + 1 < UInt32.size)
include h

theorem readsBehind_scan : ReadsBehind [] (pieces source.toList)
    (locatedTokens (located 1 (pieces source.toList))) (scan source).errors := by
  refine (tiling_pieces source.toList).readsBehind rfl ?_
  show 1 + newlines source < _
  rwa [Nat.add_comm]

theorem toNat_lastLine : (lastLine 1 (pieces source.toList)).toNat = 1 + newlines source := by
  have hnewlines : (UInt32.ofNat (newlines source)).toNat = newlines source :=
    UInt32.toNat_ofNat_of_lt' (Nat.lt_of_succ_lt h)
  rw [lastLine_pieces, UInt32.toNat_add, hnewlines]
  exact Nat.mod_eq_of_lt (by rwa [Nat.add_comm] at h)

theorem isWithin_scan : (∀ t ∈ (scan source).tokens, IsWithin [] source.toList t.line) ∧
    ∀ e ∈ (scan source).errors, IsWithin [] source.toList e.line := by
  obtain ⟨htokens, herrors⟩ := (readsBehind_scan h).within
  rw [text_pieces] at htokens herrors
  have hlast : (lastLine 1 (pieces source.toList)).toNat = lineBehind source.toList := toNat_lastLine h
  refine ⟨?_, herrors⟩
  rw [scan_tokens]
  refine List.forall_mem_append.2 ⟨htokens, List.forall_mem_singleton.2 ⟨?_, hlast.le⟩⟩
  exact (lineBehind_le [] source.toList).trans hlast.ge

theorem pairwise_scan : (scan source).tokens.Pairwise fun t u => t.line.toNat ≤ u.line.toNat := by
  have hread := readsBehind_scan h
  have hbound := hread.within.1
  rw [text_pieces] at hbound
  rw [scan_tokens]
  refine List.pairwise_append.2 ⟨hread.pairwise, List.pairwise_singleton _ _, ?_⟩
  intro t ht
  refine List.forall_mem_singleton.2 ((hbound t ht).2.trans ?_)
  exact (toNat_lastLine h).ge

omit h in
theorem exists_eof_scan (source : String) : ∃ t ∈ (scan source).tokens, t.kind = .eof := by
  refine ⟨.atEnd (lastLine 1 (pieces source.toList)), ?_, rfl⟩
  rw [scan_tokens]
  exact List.mem_append_right _ List.mem_cons_self

theorem isWithin_of_mem {es : List SyntaxError}
    (hes : ∀ e ∈ es, ∃ t ∈ (scan source).tokens, e.line = t.line) :
    ∀ e ∈ es, IsWithin [] source.toList e.line := by
  intro e he
  obtain ⟨t, ht, hline⟩ := hes e he
  rw [hline]
  exact (isWithin_scan h).1 t ht

/-- Whatever a source is refused for is on one of its lines. -/
theorem isWithin_of_refusals (ids : IdSupply) :
    ∀ e ∈ refusals source ids, IsWithin [] source.toList e.line := by
  have hend := exists_eof_scan source
  refine List.forall_mem_append.2 ⟨List.forall_mem_append.2 ⟨(isWithin_scan h).2, ?_⟩, ?_⟩
  · unfold syntaxErrors
    cases hp : (parse (scan source).tokens ids).1 with
    | ok p => exact List.forall_mem_nil _
    | error es => exact isWithin_of_mem h (exists_mem_of_parse hend hp)
  · cases hc : (compile source ids).1 with
    | error es => exact List.forall_mem_nil _
    | ok p =>
      show ∀ e ∈ resolveErrors p, _
      unfold resolveErrors
      cases hr : resolve p with
      | ok r => exact List.forall_mem_nil _
      | error es => exact isWithin_of_mem h (exists_mem_of_resolve hend (compile_eq_ok_iff.1 hc).2 hr)

/-- Line numbers are right everywhere, in a source whose lines can be numbered. A token is on the line on
which it ends, and a stray character on its own line. The end of input and a string that is never closed are
on the last line. So lines never decrease along the tokens, and whatever keeps a source from being compiled
or run is on one of its lines. -/
theorem scan_lines :
    (∃ ps, (∀ qs, Tiling source.toList qs ↔ qs = ps) ∧
      ∃ ts last, (scan source).tokens = ts ++ [.atEnd last] ∧ last.toNat = 1 + newlines source ∧
        ReadsBehind [] ps ts (scan source).errors) ∧
    (∀ e ∈ (scan source).errors, e.fault = .unterminatedString →
      e.line.toNat = 1 + newlines source) ∧
    (scan source).tokens.Pairwise (fun t u => t.line.toNat ≤ u.line.toNat) ∧
    (∀ ids es, (compile source ids).1 = .error es →
      ∀ e ∈ es, 1 ≤ e.line.toNat ∧ e.line.toNat ≤ 1 + newlines source) ∧
    ∀ budget clock (s : Session) es, (s.run budget clock source).1 = .refused es →
      ∀ e ∈ es, 1 ≤ e.line.toNat ∧ e.line.toNat ≤ 1 + newlines source := by
  refine ⟨⟨pieces source.toList, fun qs => tiling_iff, _, _, scan_tokens source, toNat_lastLine h,
    readsBehind_scan h⟩, ?_, pairwise_scan h, ?_, ?_⟩
  · have hlines := (readsBehind_scan h).unterminated_line
    rwa [text_pieces] at hlines
  · intro ids es hes
    obtain ⟨rfl, -⟩ := compile_eq_error_iff.1 hes
    exact (List.forall_mem_append.1 (isWithin_of_refusals h ids)).1
  · intro budget clock s es hes
    obtain ⟨rfl, -⟩ := Session.run_eq_refused_iff.1 hes
    exact isWithin_of_refusals h s.ids

end

/-- A string over two lines, a comment, a stray character and a string that is never closed. -/
def torn : String := "var s = \"x\ny\"; // \"\n# print \"s;\n"

theorem scan_lines_torn :
    (∃ ps ts last, Tiling torn.toList ps ∧ (scan torn).tokens = ts ++ [.atEnd last] ∧ last.toNat = 4 ∧
      ReadsBehind [] ps ts [.atLine 3 .unexpectedCharacter, .atLine 4 .unterminatedString]) ∧
    (scan torn).tokens.map Token.line = [1, 1, 1, 2, 2, 3, 4] ∧
    (scan torn).tokens.Pairwise (fun t u => t.line.toNat ≤ u.line.toNat) ∧
    ∃ es, (compile torn .initial).1 = .error es ∧ es ≠ [] ∧
      ∀ e ∈ es, 1 ≤ e.line.toNat ∧ e.line.toNat ≤ 4 := by
  have hnewlines : newlines torn = 3 := by decide +kernel
  have herrors : (scan torn).errors = [.atLine 3 .unexpectedCharacter, .atLine 4 .unterminatedString] := by
    decide +kernel
  have hsmall : newlines torn + 1 < UInt32.size := by rw [hnewlines]; decide
  obtain ⟨⟨ps, hps, ts, last, htokens, hlast, hread⟩, -, hpairwise, hcompile, -⟩ := scan_lines hsmall
  rw [hnewlines] at hlast hcompile
  rw [herrors] at hread
  have hne : compileErrors torn .initial ≠ [] := by simp [compileErrors, herrors]
  have herror := compile_eq_error_iff.2 ⟨rfl, hne⟩
  exact ⟨⟨ps, ts, last, (hps ps).2 rfl, htokens, hlast, hread⟩, by decide +kernel, hpairwise,
    _, herror, hne, hcompile _ _ herror⟩

end Lox
