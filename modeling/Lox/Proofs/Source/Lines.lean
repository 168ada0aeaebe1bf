import Lox.Proofs.Compilation

/-! Scanning across the end of a line.
Only a string goes on over the end of a line. So a text without an unterminated string is scanned as if
nothing followed, and what follows on the next line is scanned as if nothing preceded, on later lines
(`scan_joined`). -/
namespace Lox

section Spans

variable {α : Type} {p : α → Bool}

theorem takeWhile_append_cons {x : α} (hx : p x = false) (xs ys : List α) :
    (xs ++ x :: ys).takeWhile p = xs.takeWhile p := by
  induction xs with
  | nil => exact List.takeWhile_cons_of_neg (by simp [hx])
  | cons y xs ih =>
    rw [List.cons_append, List.takeWhile_cons, List.takeWhile_cons, ih]

theorem dropWhile_append_cons {x : α} (hx : p x = false) (xs ys : List α) :
    (xs ++ x :: ys).dropWhile p = xs.dropWhile p ++ x :: ys := by
  induction xs with
  | nil => exact List.dropWhile_cons_of_neg (by simp [hx])
  | cons y xs ih =>
    rw [List.cons_append, List.dropWhile_cons, List.dropWhile_cons, ih]
    split <;> rfl

end Spans

namespace Piece

/-- The end of a line ends a fraction, and a point before it belongs to no numeral. -/
theorem splitFraction_newline (cs rest : List Char) :
    splitFraction (cs ++ '\n' :: rest) =
      ((splitFraction cs).1, (splitFraction cs).2 ++ '\n' :: rest) := by
  rcases cs with _ | ⟨c, _ | ⟨d, ds⟩⟩
  · rfl
  · by_cases hc : c = '.'
    · subst hc
      rfl
    · simp [splitFraction, hc]
  · by_cases hc : c = '.'
    · subst hc
      simp only [List.cons_append, splitFraction]
      split
      · rw [takeWhile_append_cons (by decide), dropWhile_append_cons (by decide)]
      · rfl
    · simp [splitFraction, hc]

theorem next_alone {c d : Char} {alone extended : Kind}
    (hc : Kind.ofExtensible? c = some (alone, extended)) (hd : d ≠ '=') (ds : List Char) :
    next c (d :: ds) = (mark alone [c], d :: ds) := by
  unfold Kind.ofExtensible? at hc
  split at hc <;> cases hc <;> unfold next <;> simp [isBlank, startsWord, Kind.ofMark?, Kind.ofExtensible?, hd]

/-- The next piece is the same before the end of a line, unless it is an unterminated string. -/
theorem next_newline {c : Char} {cs rest : List Char} {p : Piece} (h : next c cs = (p, rest))
    (hp : p.fault? ≠ some .unterminatedString) (behind : List Char) :
    next c (cs ++ '\n' :: behind) = (p, rest ++ '\n' :: behind) := by
  unfold next at h
  split at h
  · next hblank =>
    cases h
    exact if_pos hblank
  split at h
  · next hblank hquote =>
    subst hquote
    split at h
    · cases h
      exact absurd rfl hp
    · next q rest hclosed =>
      cases h
      have hq : q = '"' := by
        have hn : cs.dropWhile (· != '"') ≠ [] := by rw [hclosed]; exact List.cons_ne_nil q rest
        have hhead := List.head_dropWhile_not (· != '"') hn
        simpa [hclosed] using hhead
      have hcs := (List.takeWhile_append_dropWhile (p := (· != '"')) (l := cs)).symm
      rw [hclosed, hq] at hcs
      have hnext : next '"' (_ ++ '"' :: (rest ++ '\n' :: behind)) = _ :=
        next_string (not_mem_takeWhile_quote cs)
      rwa [← List.cons_append, ← List.append_assoc, ← hcs] at hnext
  split at h
  · next hblank hquote hslash =>
    subst hslash
    split at h
    · next body =>
      cases h
      unfold next
      rw [if_neg hblank, if_neg hquote, if_pos rfl]
      change (comment (List.takeWhile _ (body ++ _)), List.dropWhile _ (body ++ _)) = _
      rw [takeWhile_append_cons (by decide), dropWhile_append_cons (by decide)]
    · next hne =>
      cases h
      unfold next
      rw [if_neg hblank, if_neg hquote, if_pos rfl]
      split
      · next body heq =>
        cases cs with
        | nil => cases heq
        | cons d ds =>
          injection heq with hd
          exact absurd (congrArg (· :: ds) hd) (hne ds)
      · rfl
  split at h
  · next hblank hquote hslash hdigit =>
    cases h
    unfold next
    rw [if_neg hblank, if_neg hquote, if_neg hslash, if_pos hdigit, takeWhile_append_cons (by decide),
      dropWhile_append_cons (by decide), splitFraction_newline]
    rfl
  split at h
  · next hblank hquote hslash hdigit hword =>
    cases h
    unfold next
    rw [if_neg hblank, if_neg hquote, if_neg hslash, if_neg hdigit, if_pos hword,
      takeWhile_append_cons (by decide), dropWhile_append_cons (by decide)]
  · next hblank hquote hslash hdigit hword =>
    split at h
    · next kind hkind =>
      cases h
      simp [next, *]
    · next alone extended hkind hextensible =>
      cases h
      simp [next, *]
    · next alone extended hkind hextensible hne =>
      obtain ⟨rfl, hcs⟩ := Prod.mk.inj h
      rw [hcs] at hne ⊢
      rcases rest with _ | ⟨d, ds⟩
      · exact next_alone hextensible (by decide) behind
      · apply next_alone hextensible
        rintro rfl
        exact hne ds rfl
    · next hkind hextensible =>
      cases h
      simp [next, *]

end Piece

/-- A text without an unterminated string and what follows on the next line are cut by themselves. -/
theorem pieces_newline {cs : List Char} (h : ∀ p ∈ pieces cs, p.fault? ≠ some .unterminatedString)
    (behind : List Char) :
    pieces (cs ++ '\n' :: behind) = pieces cs ++ .blank '\n' :: pieces behind := by
  fun_induction pieces cs with
  | case1 => exact Piece.pieces_cons rfl
  | case2 c cs ih =>
    obtain ⟨hhead, htail⟩ := List.forall_mem_cons.1 h
    have hnext : Piece.next c (cs ++ '\n' :: behind) =
        ((Piece.next c cs).1, (Piece.next c cs).2 ++ '\n' :: behind) :=
      Piece.next_newline rfl hhead behind
    rw [List.cons_append, Piece.pieces_cons hnext, ih htail, List.cons_append]

def Token.below (k : UInt32) (t : Token) : Token := { t with line := t.line + k }

def SyntaxError.below (k : UInt32) (e : SyntaxError) : SyntaxError := { e with line := e.line + k }

theorem located_append (line : UInt32) (ps qs : List Piece) :
    located line (ps ++ qs) = located line ps ++ located (lastLine line ps) qs := by
  induction ps generalizing line with
  | nil => rfl
  | cons p ps ih => rw [List.cons_append, located, located, ih, List.cons_append, lastLine]

theorem located_add (line k : UInt32) (ps : List Piece) :
    located (line + k) ps = (located line ps).map fun (p, line) => (p, line + k) := by
  induction ps generalizing line with
  | nil => rfl
  | cons p ps ih =>
    have hline : line + k + .ofNat p.newlines = line + .ofNat p.newlines + k := by
      rw [UInt32.add_assoc, UInt32.add_comm k, UInt32.add_assoc]
    rw [located, located, List.map_cons, hline, ih]

theorem lastLine_eq (line : UInt32) (ps : List Piece) :
    lastLine line ps = line + .ofNat ((ps.flatMap Piece.text).count '\n') := by
  induction ps generalizing line with
  | nil => exact (UInt32.add_zero line).symm
  | cons p ps ih =>
    rw [lastLine, ih, List.flatMap_cons, List.count_append, UInt32.ofNat_add, UInt32.add_assoc]
    rfl

def newlines (source : String) : Nat := source.toList.count '\n'

theorem lastLine_pieces (line : UInt32) (source : String) :
    lastLine line (pieces source.toList) = line + .ofNat (newlines source) := by
  rw [lastLine_eq, text_pieces, newlines]

theorem locatedTokens_append (ls ms : List (Piece × UInt32)) :
    locatedTokens (ls ++ ms) = locatedTokens ls ++ locatedTokens ms := List.filterMap_append

theorem locatedErrors_append (ls ms : List (Piece × UInt32)) :
    locatedErrors (ls ++ ms) = locatedErrors ls ++ locatedErrors ms := List.filterMap_append

theorem locatedTokens_add (k : UInt32) (ls : List (Piece × UInt32)) :
    locatedTokens (ls.map fun (p, line) => (p, line + k)) = (locatedTokens ls).map (Token.below k) := by
  unfold locatedTokens
  rw [List.filterMap_map, List.map_filterMap]
  congr 1
  funext ⟨p, line⟩
  show p.token? (line + k) = (p.token? line).map (Token.below k)
  unfold Piece.token?
  rw [Option.map_map]
  rfl

theorem locatedErrors_add (k : UInt32) (ls : List (Piece × UInt32)) :
    locatedErrors (ls.map fun (p, line) => (p, line + k)) =
      (locatedErrors ls).map (SyntaxError.below k) := by
  unfold locatedErrors
  rw [List.filterMap_map, List.map_filterMap]
  congr 1
  funext ⟨p, line⟩
  show p.error? (line + k) = (p.error? line).map (SyntaxError.below k)
  unfold Piece.error?
  rw [Option.map_map]
  rfl

theorem located_newline {a b : String}
    (h : ∀ p ∈ pieces a.toList, p.fault? ≠ some .unterminatedString) :
    located 1 (pieces (a ++ "\n" ++ b).toList) = located 1 (pieces a.toList) ++
      (.blank '\n', 1 + .ofNat (newlines a + 1)) ::
        (located 1 (pieces b.toList)).map fun (p, line) => (p, line + .ofNat (newlines a + 1)) := by
  have htext : (a ++ "\n" ++ b).toList = a.toList ++ '\n' :: b.toList := by simp
  have hline : (1 : UInt32) + .ofNat (newlines a) + .ofNat (Piece.blank '\n').newlines =
      1 + .ofNat (newlines a + 1) := by
    rw [UInt32.add_assoc, UInt32.ofNat_add]
    rfl
  rw [htext, pieces_newline h, located_append, lastLine_pieces, located, hline, located_add]

theorem scan_newline {a b : String} (h : ∀ p ∈ pieces a.toList, p.fault? ≠ some .unterminatedString) :
    locatedTokens (located 1 (pieces (a ++ "\n" ++ b).toList)) =
        locatedTokens (located 1 (pieces a.toList)) ++
          (locatedTokens (located 1 (pieces b.toList))).map (Token.below (.ofNat (newlines a + 1))) ∧
      (scan (a ++ "\n" ++ b)).errors = (scan a).errors ++
        (scan b).errors.map (SyntaxError.below (.ofNat (newlines a + 1))) := by
  rw [scan_errors, scan_errors, scan_errors, located_newline h]
  constructor
  · rw [locatedTokens_append, locatedTokens_cons, locatedTokens_add]
    rfl
  · rw [locatedErrors_append, ← locatedErrors_add]
    rfl

theorem no_unterminatedString_of_errors {source : String}
    (h : ∀ e ∈ (scan source).errors, e.fault ≠ .unterminatedString) :
    ∀ p ∈ pieces source.toList, p.fault? ≠ some .unterminatedString := by
  intro p hp hfault
  obtain ⟨line, hline⟩ := exists_mem_located hp 1
  refine h (.atLine line .unterminatedString) (List.mem_filterMap.2 ⟨(p, line), hline, ?_⟩) rfl
  exact congrArg (Option.map (SyntaxError.atLine line)) hfault

/-- Scanning is compositional at line ends. Where the first text has no unterminated string, its tokens,
without the end token, and its errors stand before those of the second text, which are on later lines. -/
theorem scan_joined {a : String} (h : ∀ e ∈ (scan a).errors, e.fault ≠ .unterminatedString)
    (b : String) :
    ∃ ts, (scan a).tokens = ts ++ [.atEnd (1 + .ofNat (newlines a))] ∧
      (scan (a ++ "\n" ++ b)).tokens =
        ts ++ (scan b).tokens.map (Token.below (.ofNat (newlines a + 1))) ∧
      (scan (a ++ "\n" ++ b)).errors = (scan a).errors ++
        (scan b).errors.map (SyntaxError.below (.ofNat (newlines a + 1))) := by
  obtain ⟨htokens, herrors⟩ := scan_newline (b := b) (no_unterminatedString_of_errors h)
  have hlines : newlines (a ++ "\n" ++ b) = newlines a + 1 + newlines b := by
    simp only [newlines, String.toList_append, List.count_append]
    rfl
  have hend : Token.atEnd (1 + .ofNat (newlines (a ++ "\n" ++ b))) =
      (Token.atEnd (1 + .ofNat (newlines b))).below (.ofNat (newlines a + 1)) := by
    rw [hlines, UInt32.ofNat_add, UInt32.add_comm (.ofNat _), ← UInt32.add_assoc]
    rfl
  refine ⟨locatedTokens (located 1 (pieces a.toList)), ?_, ?_, herrors⟩
  · rw [scan_tokens, lastLine_pieces]
  · rw [scan_tokens, scan_tokens, htokens, lastLine_pieces, lastLine_pieces, List.map_append, hend,
      List.append_assoc]
    rfl

/-- The first text has a stray character and a string over two lines, and ends with a point that belongs
to no numeral. The second text has a string that is never closed. -/
theorem scan_joined_strays :
    (scan ("# \"x\ny\" 12." ++ "\n" ++ "5 = \"z")).tokens.map (fun t => (t.kind, t.line)) =
      [(.string, 2), (.number, 2), (.dot, 2), (.number, 3), (.equal, 3), (.eof, 3)] ∧
    (scan ("# \"x\ny\" 12." ++ "\n" ++ "5 = \"z")).errors =
      [.atLine 1 .unexpectedCharacter, .atLine 3 .unterminatedString] := by
  have ha : (scan "# \"x\ny\" 12.").errors = [.atLine 1 .unexpectedCharacter] := by
    decide +kernel
  have hb : (scan "5 = \"z").errors = [.atLine 1 .unterminatedString] := by decide +kernel
  have hclosed : ∀ e ∈ (scan "# \"x\ny\" 12.").errors, e.fault ≠ .unterminatedString := by
    rw [ha]
    decide
  obtain ⟨ts, hts, htokens, herrors⟩ := scan_joined hclosed "5 = \"z"
  have hkinds : ts.map (fun t => (t.kind, t.line)) = [(.string, 2), (.number, 2), (.dot, 2)] := by
    have hdrop : ts = (scan "# \"x\ny\" 12.").tokens.dropLast := by rw [hts, List.dropLast_concat]
    rw [hdrop]
    decide +kernel
  constructor
  · rw [htokens, List.map_append, hkinds]
    decide +kernel
  · rw [herrors, ha, hb]
    rfl

end Lox
