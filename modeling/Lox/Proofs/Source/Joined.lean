import Lox.Proofs.Numbering
import Lox.Proofs.Recovery
import Lox.Proofs.Source.Lines

/-! Sources on lines of their own.
Two sources that are compiled by themselves are compiled together, to twins of their programs, the lines
of the second being further down (`compile_joined`). -/
namespace Lox

open Concrete (beforeEnd)
open Grammar (Passes amid)

theorem parse_eq_ok {tokens : List Token} {ids : IdSupply} {p : Program} :
    (parse tokens ids).1 = .ok p ↔
      (Grammar.program (endOf tokens) ⟨beforeEnd tokens, ids, []⟩).outcome = .ok p ∧
      (Grammar.program (endOf tokens) ⟨beforeEnd tokens, ids, []⟩).after.errors = [] := by
  rw [parse_eq, ← beforeEnd]
  cases (Grammar.program _ _).outcome with
  | error e => simp
  | ok q => cases (Grammar.program _ _).after.errors <;> simp

theorem beforeEnd_concat {ts : List Token} (h : ∀ t ∈ ts, t.kind ≠ .eof) {stop : Token}
    (hstop : stop.kind = .eof) : beforeEnd (ts ++ [stop]) = ts := by
  have hnil : beforeEnd [stop] = [] := List.takeWhile_cons_of_neg (by simp [hstop])
  rw [Concrete.beforeEnd_append h, hnil, List.append_nil]

theorem endOf_concat {ts : List Token} (h : ∀ t ∈ ts, t.kind ≠ .eof) {stop : Token}
    (hstop : stop.kind = .eof) : endOf (ts ++ [stop]) = stop := by
  have hfind : (ts ++ [stop]).find? (·.kind = .eof) = some stop := by
    rw [List.find?_append, List.find?_eq_none.2 fun t ht => by simpa using h t ht]
    simp [hstop]
  rw [endOf, hfind]
  rfl

/-- The first token of a program is no `else`. -/
theorem head_ne_else {tokens : List Token} {ids : IdSupply} {p : Program}
    (h : (parse tokens ids).1 = .ok p) : ∀ t ∈ (beforeEnd tokens).head?, t.kind ≠ .elseWord := by
  obtain ⟨d, hd, -⟩ := Concrete.exists_of_parse h
  have hends : Concrete.Ends [] := fun t ht => by cases ht
  have hno := Concrete.noElse_allTokens hends d.declarations
  rw [List.append_nil, ← Concrete.Program.tokens, hd] at hno
  exact fun t ht => of_decide_eq_false (hno t ht)

/-- No error at alike tokens, where there is none in the first place. -/
theorem Placement.Near.errors_eq_nil {A : Placement} {s s' : Cursor} (h : A.Near s s')
    (hs : s.errors = []) (hearlier : A.earlier' = []) : s'.errors = [] := by
  obtain ⟨es, es', hes, hes', hsame⟩ := h.errors
  rw [hs] at hes
  obtain rfl : es = [] := (List.append_eq_nil_iff.1 hes.symm).2
  cases hsame
  rw [hes', hearlier]
  rfl

/-- Tokens that are parsed to a program, with more tokens behind them, are passed to a twin. -/
theorem exists_passes_of_parse {ts behind : List Token} {stop : Token} {ids : IdSupply} {p : Program}
    (hts : ∀ t ∈ ts, t.kind ≠ .eof) (hstop : stop.kind = .eof)
    (hp : (parse (ts ++ [stop]) ids).1 = .ok p) (hhead : ∀ t ∈ behind.head?, t.kind ≠ .elseWord)
    (stop' : Token) (ids' : IdSupply) :
    ∃ p' u, Passes stop' ⟨ts ++ behind, ids', []⟩ p' u ∧ u.rest = behind ∧ u.errors = [] ∧
      Stmt.AllTwin ⟨False, Eq, fun _ _ => True⟩ p p' := by
  rw [parse_eq_ok, endOf_concat hts hstop, beforeEnd_concat hts hstop] at hp
  obtain ⟨houtcome, herrors⟩ := hp
  have hnear : (amid stop stop' behind [] []).Near ⟨ts, ids, []⟩ ⟨ts ++ behind, ids', []⟩ :=
    Grammar.near_amid (s := ⟨ts, ids, []⟩) rfl ids'
  obtain ⟨p', u, hpasses, hu, htwin⟩ :=
    Grammar.exists_passes hstop hhead ⟨ts, ids, []⟩ _ hnear (.inl herrors)
  refine ⟨p', u, hpasses, ?_, ?_, htwin p houtcome herrors⟩
  · obtain ⟨us, hus, hrest⟩ := hu.rest
    rw [Grammar.rest_program] at hus
    cases hus
    exact hrest
  · exact hu.errors_eq_nil herrors rfl

/-- Tokens that are parsed to a program by themselves, and those of another program in a changed form, are
parsed together to twins of the programs. -/
theorem parse_twins {f : Token → Token} (hkind : ∀ t, (f t).kind = t.kind)
    (hliteral : ∀ t, (f t).literal = t.literal) {ts us : List Token} {stop stop' stop'' : Token}
    {ids ids' : IdSupply} {p q : Program} (hts : ∀ t ∈ ts, t.kind ≠ .eof)
    (hus : ∀ t ∈ us, t.kind ≠ .eof) (hstop : stop.kind = .eof) (hstop' : stop'.kind = .eof)
    (hstop'' : stop''.kind = .eof) (hp : (parse (ts ++ [stop]) ids).1 = .ok p)
    (hq : (parse (us ++ [stop']) ids').1 = .ok q) (ids'' : IdSupply) :
    ∃ p' q', (parse (ts ++ us.map f ++ [stop'']) ids'').1 = .ok (p' ++ q') ∧
      Stmt.AllTwin ⟨False, Eq, fun _ _ => True⟩ p p' ∧
      Stmt.AllTwin ⟨False, fun t t' => t' = f t, fun _ _ => True⟩ q q' := by
  have hhead : ∀ t ∈ (us.map f).head?, t.kind ≠ .elseWord := by
    have hno := head_ne_else hq
    rw [beforeEnd_concat hus hstop'] at hno
    rw [List.head?_map]
    intro t ht
    obtain ⟨u, hu, rfl⟩ := Option.map_eq_some_iff.1 ht
    rw [hkind]
    exact hno u hu
  have hends : ∀ t ∈ ts ++ us.map f, t.kind ≠ .eof := by
    apply List.forall_mem_append.2 ⟨hts, _⟩
    intro t ht
    obtain ⟨u, hu, rfl⟩ := List.mem_map.1 ht
    rw [hkind]
    exact hus u hu
  obtain ⟨p', u, hpasses, hrest, herrors, htwin⟩ :=
    exists_passes_of_parse hts hstop hp hhead stop'' ids''
  rw [parse_eq_ok, endOf_concat hus hstop', beforeEnd_concat hus hstop'] at hq
  let B : Placement :=
    ⟨fun t t' => t' = f t, fun t t' => t' = f t ∨ t.kind = .eof, fun _ _ => True, fun _ _ => True, stop',
      stop'', [], [], []⟩
  have hB : B.Lawful := by
    refine ⟨?_, ?_, fun _ _ h => .inl h, fun _ => .inr hstop', fun _ _ h => h, fun _ _ h => h⟩
    · rintro t _ rfl
      exact hkind t
    · rintro t _ rfl
      exact hliteral t
  have hnear : B.Near ⟨us, ids', []⟩ u := by
    refine ⟨⟨us.map f, ?_, hrest.trans (List.append_nil _).symm⟩, ⟨[], [], rfl, herrors, .nil⟩, trivial⟩
    exact List.forall₂_map_right_iff.2 (List.forall₂_same.2 fun _ _ => rfl)
  have hprogram : B.Same (Stmt.AllTwin B.likeness) (Grammar.program stop' ⟨us, ids', []⟩)
    (Grammar.program stop'' u) := Grammar.program_tracks hB _ _ hnear (.inl rfl)
  obtain ⟨q', hq', htwin'⟩ := hprogram.outcome.of_ok hq.1
  have hgives := hpasses.append ⟨hq', rfl⟩
  refine ⟨p', q', parse_eq_ok.2 ?_, htwin, htwin'⟩
  rw [endOf_concat hends hstop'', beforeEnd_concat hends hstop'']
  exact ⟨hgives.1, by rw [hgives.2, hprogram.near.errors_eq_nil hq.2 rfl]⟩

theorem no_unterminatedString {source : String} (h : (scan source).errors = []) :
    ∀ p ∈ pieces source.toList, p.fault? ≠ some .unterminatedString :=
  no_unterminatedString_of_errors (h ▸ nofun)

/-- Two sources on lines of their own are compiled to twins of their programs. The lines of the second are
moved down. -/
theorem compile_joined {a b : String} {ids ids' : IdSupply} {p q : Program}
    (ha : (compile a ids).1 = .ok p) (hb : (compile b ids').1 = .ok q) (ids'' : IdSupply) :
    ∃ p' q', (compile (a ++ "\n" ++ b) ids'').1 = .ok (p' ++ q') ∧
      Stmt.AllTwin ⟨False, Eq, fun _ _ => True⟩ p p' ∧
      Stmt.AllTwin ⟨False, fun t t' => t' = t.below (.ofNat (newlines a + 1)), fun _ _ => True⟩ q q' := by
  obtain ⟨herrorsa, ha⟩ := compile_eq_ok_iff.1 ha
  obtain ⟨herrorsb, hb⟩ := compile_eq_ok_iff.1 hb
  obtain ⟨htokens, herrors⟩ := scan_newline (b := b) (no_unterminatedString herrorsa)
  rw [herrorsa, herrorsb] at herrors
  have hend : (Token.atEnd (lastLine 1 (pieces (a ++ "\n" ++ b).toList))).kind = .eof := rfl
  obtain ⟨p', q', hjoined, hp, hq⟩ := parse_twins (f := Token.below (.ofNat (newlines a + 1)))
    (fun _ => rfl) (fun _ => rfl) (fun t ht => (isLexical_of_scan ht).kind_ne_eof)
    (fun t ht => (isLexical_of_scan ht).kind_ne_eof) rfl rfl hend ha hb ids''
  refine ⟨p', q', compile_eq_ok_iff.2 ⟨herrors, ?_⟩, hp, hq⟩
  rw [scan_tokens, htokens]
  exact hjoined

theorem demand_joined {a b : String} {ids : IdSupply} {p : Program}
    (ha : (compile a ids).1 = .ok p) : demand (scan (a ++ "\n" ++ b)).tokens =
      demand (scan a).tokens + demand (scan b).tokens := by
  have hend (line : UInt32) : demand [.atEnd line] = 0 := rfl
  have hbelow (k : UInt32) (ts : List Token) : demand (ts.map (Token.below k)) = demand ts :=
    List.countP_map
  rw [scan_tokens, scan_tokens, scan_tokens,
    (scan_newline (b := b) (no_unterminatedString (compile_eq_ok_iff.1 ha).1)).1]
  simp only [demand_append, hend, hbelow, Nat.add_zero]

end Lox
