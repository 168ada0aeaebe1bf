import Lox.Piece

/-! Lexemes that are scanned again.
What scanning finds in a text, it finds again wherever the lexeme stands before something that does not
extend it (`Piece.next_again`). -/
namespace Lox

section Spans

variable {α : Type} {p : α → Bool} {xs ys : List α}

theorem of_mem_takeWhile {x : α} (h : x ∈ xs.takeWhile p) : p x :=
  List.all_eq_true.1 List.all_takeWhile x h

theorem takeWhile_append_of_stop (hx : ∀ x ∈ xs, p x) (hy : ∀ y ∈ ys.head?, p y = false) :
    (xs ++ ys).takeWhile p = xs := by
  rw [List.takeWhile_append_of_pos hx]
  cases ys with
  | nil => exact List.append_nil xs
  | cons y ys => rw [List.takeWhile_cons_of_neg (by simp [hy y rfl]), List.append_nil]

theorem dropWhile_append_of_stop (hx : ∀ x ∈ xs, p x) (hy : ∀ y ∈ ys.head?, p y = false) :
    (xs ++ ys).dropWhile p = ys := by
  rw [List.dropWhile_append_of_pos hx]
  cases ys with
  | nil => rfl
  | cons y ys => rw [List.dropWhile_cons_of_neg (by simp [hy y rfl])]

end Spans

namespace Piece

/-- Whether a piece stays as it is before a character. -/
def stopsAt : Piece → Char → Bool
  | comment _, c => c = '\n'
  | mark .slash _, c => c ≠ '/'
  | mark .bang _, c | mark .equal _, c | mark .less _, c | mark .greater _, c => c ≠ '='
  | numeral _ _, c => !c.isDigit && c ≠ '.'
  | word _, c => !continuesWord c
  | unterminated _, _ => false
  | _, _ => true

/-- A point belongs to a numeral with the digits behind it. -/
theorem splitFraction_append {fraction rest : List Char} (hf : ∀ c ∈ fraction, c.isDigit)
    (hrest : ∀ c ∈ rest.head?, !c.isDigit && c ≠ '.') :
    splitFraction ((if fraction = [] then [] else '.' :: fraction) ++ rest) = (fraction, rest) := by
  have hdigit : ∀ c ∈ rest.head?, c.isDigit = false := fun c hc => by
    have h := hrest c hc
    simp only [Bool.and_eq_true, Bool.not_eq_true'] at h
    exact h.1
  cases fraction with
  | nil =>
    rw [if_pos rfl, List.nil_append]
    cases rest with
    | nil => rfl
    | cons c cs =>
      have hpoint : c ≠ '.' := by
        have h := hrest c rfl
        simp only [Bool.and_eq_true, decide_eq_true_eq] at h
        exact h.2
      unfold splitFraction
      split
      · next heq =>
        injection heq with hc
        exact absurd hc hpoint
      · rfl
  | cons d ds =>
    have hd := hf d List.mem_cons_self
    have hds : ∀ c ∈ ds, c.isDigit := fun c hc => hf c (List.mem_cons_of_mem d hc)
    rw [if_neg (List.cons_ne_nil d ds)]
    change splitFraction ('.' :: d :: (ds ++ rest)) = _
    rw [splitFraction, if_pos hd, takeWhile_append_of_stop hds hdigit,
      dropWhile_append_of_stop hds hdigit]

theorem text_numeral (whole fraction : List Char) :
    (numeral whole fraction).text = whole ++ if fraction = [] then [] else '.' :: fraction := by
  cases fraction with
  | nil => rw [if_pos rfl, List.append_nil]; rfl
  | cons d ds => rfl

/-- A numeral is scanned as such before what continues no numeral. -/
theorem next_numeral {c : Char} {cs fraction rest : List Char} (hblank : ¬ isBlank c)
    (hquote : c ≠ '"') (hslash : c ≠ '/') (hdigit : c.isDigit) (hcs : ∀ d ∈ cs, d.isDigit)
    (hf : ∀ d ∈ fraction, d.isDigit) (hrest : ∀ d ∈ rest.head?, !d.isDigit && d ≠ '.') :
    next c (cs ++ (if fraction = [] then [] else '.' :: fraction) ++ rest) =
      (numeral (c :: cs) fraction, rest) := by
  have hstop : ∀ d ∈ ((if fraction = [] then [] else '.' :: fraction) ++ rest).head?,
      d.isDigit = false := by
    cases fraction with
    | nil =>
      intro d hd
      have h := hrest d hd
      simp only [Bool.and_eq_true, Bool.not_eq_true'] at h
      exact h.1
    | cons e es =>
      rintro d ⟨⟩
      rfl
  unfold next
  rw [if_neg hblank, if_neg hquote, if_neg hslash, if_pos hdigit, List.append_assoc,
    takeWhile_append_of_stop hcs hstop, dropWhile_append_of_stop hcs hstop,
    splitFraction_append hf hrest]

theorem splitFraction_digits (cs : List Char) : ∀ c ∈ (splitFraction cs).1, c.isDigit := by
  unfold splitFraction
  split
  · next d ds =>
    split
    · next hd =>
      intro c hc
      rcases List.mem_cons.1 hc with rfl | hc
      · exact hd
      · exact of_mem_takeWhile hc
    · exact nofun
  · exact nofun

theorem next_string {body rest : List Char} (h : '"' ∉ body) :
    next '"' (body ++ '"' :: rest) = (string body, rest) := by
  have hbody : ∀ c ∈ body, c != '"' := fun c hc => by
    rw [bne_iff_ne]
    rintro rfl
    exact h hc
  have hstop : ∀ c ∈ ('"' :: rest).head?, (c != '"') = false := by
    rintro c ⟨⟩
    rfl
  unfold next
  rw [if_neg (by decide), if_pos rfl, takeWhile_append_of_stop hbody hstop,
    dropWhile_append_of_stop hbody hstop]

theorem not_mem_takeWhile_quote (cs : List Char) : '"' ∉ cs.takeWhile (· != '"') := fun h => by
  simpa using of_mem_takeWhile h

/-- What is scanned is scanned again before what does not extend it. -/
theorem next_again {c : Char} {cs rest : List Char} {p : Piece} (h : next c cs = (p, rest)) :
    ∃ text, p.text = c :: text ∧ ∀ rest' : List Char, (∀ d ∈ rest'.head?, p.stopsAt d) →
      next c (text ++ rest') = (p, rest') := by
  unfold next at h
  split at h
  · next hblank =>
    cases h
    exact ⟨[], rfl, fun rest' _ => if_pos hblank⟩
  split at h
  · next hblank hquote =>
    subst hquote
    split at h
    · next hopen =>
      cases h
      refine ⟨cs, rfl, fun rest' hstop => ?_⟩
      cases rest' with
      | nil =>
        rw [List.append_nil]
        unfold next
        rw [if_neg hblank, if_pos rfl, hopen]
      | cons d ds => cases hstop d rfl
    · next q rest hclosed =>
      cases h
      refine ⟨cs.takeWhile (· != '"') ++ ['"'], rfl, fun rest' _ => ?_⟩
      rw [List.append_assoc]
      exact next_string (not_mem_takeWhile_quote cs)
  split at h
  · next hblank hquote hslash =>
    subst hslash
    split at h
    · next rest =>
      cases h
      refine ⟨'/' :: rest.takeWhile (· != '\n'), rfl, fun rest' hstop => ?_⟩
      have hbody : ∀ d ∈ rest.takeWhile (· != '\n'), d != '\n' :=
        fun d hd => of_mem_takeWhile (p := (· != '\n')) hd
      have hrest : ∀ d ∈ rest'.head?, (d != '\n') = false := fun d hd => by
        simpa [stopsAt] using hstop d hd
      unfold next
      rw [if_neg hblank, if_neg hquote, if_pos rfl]
      change (comment (List.takeWhile _ (_ ++ rest')), List.dropWhile _ (_ ++ rest')) = _
      rw [takeWhile_append_of_stop hbody hrest, dropWhile_append_of_stop hbody hrest]
    · cases h
      refine ⟨[], rfl, fun rest' hstop => ?_⟩
      cases rest' with
      | nil => rfl
      | cons d ds =>
        have hne : d ≠ '/' := by simpa [stopsAt] using hstop d rfl
        unfold next
        rw [if_neg hblank, if_neg hquote, if_pos rfl, List.nil_append]
        split
        · next heq =>
          injection heq with hd
          exact absurd hd hne
        · rfl
  split at h
  · next hblank hquote hslash hdigit =>
    cases h
    refine ⟨_, text_numeral _ _, fun rest' hstop => ?_⟩
    exact next_numeral hblank hquote hslash hdigit (fun d hd => of_mem_takeWhile hd)
      (splitFraction_digits _) hstop
  split at h
  · next hblank hquote hslash hdigit hword =>
    cases h
    refine ⟨cs.takeWhile continuesWord, rfl, fun rest' hstop => ?_⟩
    have hcs : ∀ d ∈ cs.takeWhile continuesWord, continuesWord d := fun d hd => of_mem_takeWhile hd
    have hrest : ∀ d ∈ rest'.head?, continuesWord d = false := fun d hd => by
      simpa [stopsAt] using hstop d hd
    unfold next
    rw [if_neg hblank, if_neg hquote, if_neg hslash, if_neg hdigit, if_pos hword,
      takeWhile_append_of_stop hcs hrest, dropWhile_append_of_stop hcs hrest]
  · next hblank hquote hslash hdigit hword =>
    split at h
    · next kind hkind =>
      cases h
      exact ⟨[], rfl, fun rest' _ => by simp [next, *]⟩
    · next alone extended hkind hextensible =>
      cases h
      exact ⟨['='], rfl, fun rest' _ => by simp [next, *]⟩
    · next alone extended hkind hextensible hne =>
      cases h
      refine ⟨[], rfl, fun rest' hstop => ?_⟩
      have hequal : ∀ d ∈ rest'.head?, d ≠ '=' := fun d hd => by
        have h := hstop d hd
        unfold Kind.ofExtensible? at hextensible
        split at hextensible <;> cases hextensible <;> simpa [stopsAt] using h
      clear hstop
      unfold next
      rw [if_neg hblank, if_neg hquote, if_neg hslash, if_neg hdigit, if_neg hword, hkind,
        hextensible, List.nil_append]
      split
      · next hnone => cases hnone
      · exact absurd rfl (hequal '=' rfl)
      · next hsome _ =>
        injection hsome with hsome
        injection hsome with halone
        rw [halone]
      · next hnone => cases hnone
    · next hkind hextensible =>
      cases h
      exact ⟨[], rfl, fun rest' _ => by simp [next, *]⟩

def IsScanned (p : Piece) : Prop := ∃ c cs rest, next c cs = (p, rest)

def marks : List (Kind × List Char) :=
  [(.leftParen, ['(']), (.rightParen, [')']), (.leftBrace, ['\x7b']), (.rightBrace, ['\x7d']),
   (.comma, [',']), (.dot, ['.']), (.minus, ['-']), (.plus, ['+']), (.semicolon, [';']),
   (.star, ['*']), (.slash, ['/']), (.bang, ['!']), (.bangEqual, ['!', '=']), (.equal, ['=']),
   (.equalEqual, ['=', '=']), (.less, ['<']), (.lessEqual, ['<', '=']), (.greater, ['>']),
   (.greaterEqual, ['>', '='])]

theorem mem_marks_of_ofMark? {c : Char} {kind : Kind} (h : Kind.ofMark? c = some kind) :
    (kind, [c]) ∈ marks := by
  unfold Kind.ofMark? at h
  split at h <;> first | (cases h; done) | (cases h; decide)

theorem mem_marks_of_ofExtensible? {c : Char} {alone extended : Kind}
    (h : Kind.ofExtensible? c = some (alone, extended)) :
    (alone, [c]) ∈ marks ∧ (extended, [c, '=']) ∈ marks := by
  unfold Kind.ofExtensible? at h
  split at h <;> first | (cases h; done) | (cases h; decide)

theorem IsScanned.mem_marks {kind : Kind} {text : List Char} (h : (mark kind text).IsScanned) :
    (kind, text) ∈ marks := by
  obtain ⟨c, cs, rest, h⟩ := h
  unfold next at h
  split at h
  · cases h
  split at h
  · split at h <;> cases h
  split at h
  · next hslash =>
    subst hslash
    split at h
    · cases h
    · cases h
      decide
  split at h
  · cases h
  split at h
  · cases h
  split at h
  · next hkind =>
    cases h
    exact mem_marks_of_ofMark? hkind
  · next hextensible =>
    cases h
    exact (mem_marks_of_ofExtensible? hextensible).2
  · next hextensible _ =>
    cases h
    exact (mem_marks_of_ofExtensible? hextensible).1
  · cases h

theorem IsScanned.not_mem_quote {body : List Char} (h : (string body).IsScanned) : '"' ∉ body := by
  obtain ⟨c, cs, rest, h⟩ := h
  unfold next at h
  split at h
  · cases h
  split at h
  · split at h
    · cases h
    · cases h
      exact not_mem_takeWhile_quote cs
  split at h
  · split at h <;> cases h
  split at h
  · cases h
  split at h
  · cases h
  · split at h <;> cases h

theorem isScanned_of_mem (cs : List Char) : ∀ p ∈ pieces cs, p.IsScanned := by
  fun_induction pieces cs with
  | case1 =>
    intro p hp
    cases hp
  | case2 c cs ih =>
    intro p hp
    rcases List.mem_cons.1 hp with rfl | hp
    · exact ⟨c, cs, _, rfl⟩
    · exact ih p hp

/-- Characters that extend no piece of a token. -/
def isBoundary (c : Char) : Bool :=
  c = ' ' || c = '\n' || c = '(' || c = ')' || c = ',' || c = ';'

theorem stopsAt_of_isBoundary {p : Piece} (hp : p.content?.isSome) {c : Char} (hc : isBoundary c) :
    p.stopsAt c := by
  simp only [isBoundary, Bool.or_eq_true, decide_eq_true_eq] at hc
  cases p with
  | mark kind text => rcases hc with ((((rfl | rfl) | rfl) | rfl) | rfl) | rfl <;> cases kind <;> rfl
  | string body => rfl
  | numeral whole fraction => rcases hc with ((((rfl | rfl) | rfl) | rfl) | rfl) | rfl <;> rfl
  | word text => rcases hc with ((((rfl | rfl) | rfl) | rfl) | rfl) | rfl <;> rfl
  | _ => cases hp

theorem pieces_cons {c : Char} {cs rest : List Char} {p : Piece} (h : next c cs = (p, rest)) :
    pieces (c :: cs) = p :: pieces rest := by
  rw [pieces, h]

/-- A scanned piece is the first piece of a text that starts with it and does not extend it. -/
theorem IsScanned.pieces_append {p : Piece} (hp : p.IsScanned) {rest : List Char}
    (hstop : ∀ c ∈ rest.head?, p.stopsAt c) : pieces (p.text ++ rest) = p :: pieces rest := by
  obtain ⟨c, cs, rest', h⟩ := hp
  obtain ⟨text, htext, hagain⟩ := next_again h
  rw [htext, List.cons_append, pieces_cons (hagain rest hstop)]

end Piece

theorem Kind.mem_words {text : String} {kind : Kind} (h : Kind.ofWord? text = some kind) :
    (text, kind) ∈ Kind.words := by
  obtain ⟨before, after, hwords, -⟩ := List.lookup_eq_some_iff.1 h
  rw [hwords]
  exact List.mem_append_right before List.mem_cons_self

def Token.stripped (t : Token) : Token := { t with line := 0 }

/-- Scanning finds the token in some text. -/
def Token.IsLexical (t : Token) : Prop := ∃ p : Piece, p.IsScanned ∧ p.token? 0 = some t.stripped

namespace Token

variable {t : Token}

theorem stripped_token? {p : Piece} {line : UInt32} (h : p.token? line = some t) :
    p.token? 0 = some t.stripped := by
  unfold Piece.token? at h ⊢
  cases hc : p.content? with
  | none => simp [hc] at h
  | some content =>
    rw [hc] at h
    cases h
    rfl

def fixedTexts : List (Kind × List Char) :=
  Piece.marks ++ Kind.words.map fun (text, kind) => (kind, text.toList)

/-- A token is an identifier or a constant, or its category determines its text. -/
theorem IsLexical.cases (h : t.IsLexical) :
    (t.kind = .identifier ∧ t.literal = none) ∨
    (t.kind = .string ∧ ∃ body, '"' ∉ body ∧ t.literal = some (.string (.ofList body))) ∨
    (t.kind = .number ∧ ∃ whole fraction,
      t.literal = some (.number (Number.ofDigits whole fraction))) ∨
    ∃ text, (t.kind, text) ∈ fixedTexts ∧ t.stripped = ⟨t.kind, .ofList text, none, 0⟩ := by
  obtain ⟨p, hp, ht⟩ := h
  cases p with
  | mark kind text =>
    injection ht with ht
    have hkind : kind = t.kind := congrArg Token.kind ht
    rw [hkind] at ht hp
    exact .inr (.inr (.inr ⟨text, List.mem_append_left _ hp.mem_marks, ht.symm⟩))
  | string body =>
    injection ht with ht
    have hkind : .string = t.kind := congrArg Token.kind ht
    have hliteral : some (.string (.ofList body)) = t.literal := congrArg Token.literal ht
    exact .inr (.inl ⟨hkind.symm, body, hp.not_mem_quote, hliteral.symm⟩)
  | numeral whole fraction =>
    injection ht with ht
    have hkind : .number = t.kind := congrArg Token.kind ht
    have hliteral : some (.number (Number.ofDigits whole fraction)) = t.literal :=
      congrArg Token.literal ht
    exact .inr (.inr (.inl ⟨hkind.symm, whole, fraction, hliteral.symm⟩))
  | word text =>
    injection ht with ht
    have hkind : (Kind.ofWord? (.ofList text)).getD .identifier = t.kind := congrArg Token.kind ht
    have hliteral : none = t.literal := congrArg Token.literal ht
    cases hword : Kind.ofWord? (.ofList text) with
    | none =>
      rw [hword] at hkind
      exact .inl ⟨hkind.symm, hliteral.symm⟩
    | some kind =>
      rw [hword] at hkind ht
      refine .inr (.inr (.inr ⟨text, List.mem_append_right _ (List.mem_map.2 ?_), ?_⟩))
      · refine ⟨(.ofList text, kind), Kind.mem_words hword, ?_⟩
        · change (kind, (String.ofList text).toList) = _
          rw [String.toList_ofList, ← hkind]
          rfl
      · rw [← ht, ← hkind]
        rfl
  | _ => cases ht

theorem IsLexical.kind_ne_eof (h : t.IsLexical) : t.kind ≠ .eof := by
  rcases h.cases with ⟨hk, -⟩ | ⟨hk, -⟩ | ⟨hk, -⟩ | ⟨text, hmem, -⟩
  · simp [hk]
  · simp [hk]
  · simp [hk]
  · have hfixed : ∀ m ∈ fixedTexts, m.1 ≠ .eof := by decide
    exact hfixed _ hmem

theorem IsLexical.stripped_eq (h : t.IsLexical) {text : List Char}
    (hfixed : ∀ m ∈ fixedTexts, m.1 = t.kind → m.2 = text)
    (hk : t.kind ∉ [.identifier, .string, .number]) :
    t.stripped = ⟨t.kind, .ofList text, none, 0⟩ := by
  rcases h.cases with ⟨hi, -⟩ | ⟨hs, -⟩ | ⟨hn, -⟩ | ⟨text', hmem, ht⟩
  · simp [hi] at hk
  · simp [hs] at hk
  · simp [hn] at hk
  · have htext : text' = text := hfixed _ hmem rfl
    rw [ht, htext]

end Token
end Lox
