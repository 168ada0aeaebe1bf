import Mathlib.Data.List.TakeWhile
import Lox.Proofs.Source.Lines

/-! Texts tiled by pieces.
A text is cut in exactly one way into pieces that end only where nothing behind them could go on with them,
and this is how scanning cuts it (`tiling_iff`). Scanning reports the pieces that are tokens and the pieces
that are errors, each once and in order (`scan_tiling`). -/
namespace Lox

theorem of_mem_head_dropWhile {α : Type} {p : α → Bool} {xs : List α} :
    ∀ x ∈ (xs.dropWhile p).head?, p x = false := by
  intro x hx
  have h := List.head?_dropWhile_not p xs
  rw [Option.mem_def.1 hx] at h
  exact h

namespace Piece

/-- A piece that can stand before this text. It is spelled as a piece of its sort is, and what follows does
not go on with it. -/
inductive Fits : Piece → List Char → Prop
  | blank {c : Char} {rest : List Char} (blank : c ∈ [' ', '\t', '\r', '\n']) : Fits (.blank c) rest
  | comment {body rest : List Char} (inside : '\n' ∉ body) (stop : ∀ d ∈ rest.head?, d = '\n') :
    Fits (.comment body) rest
  /-- No longer mark starts here, and no comment. -/
  | mark {kind : Kind} {text rest : List Char} (known : (kind, text) ∈ marks)
    (stop : ∀ d ∈ rest.head?, ∀ kind', (kind', text ++ [d]) ∉ marks)
    (slash : text = ['/'] → ∀ d ∈ rest.head?, d ≠ '/') : Fits (.mark kind text) rest
  | string {body rest : List Char} (inside : '"' ∉ body) : Fits (.string body) rest
  /-- A numeral without a fraction is not followed by a point and a digit. -/
  | numeral {whole fraction rest : List Char} (nonempty : whole ≠ [])
    (digits : ∀ d ∈ whole ++ fraction, d.isDigit) (stop : ∀ d ∈ rest.head?, d.isDigit = false)
    (point : fraction = [] → ∀ d ds, rest = '.' :: d :: ds → d.isDigit = false) :
    Fits (.numeral whole fraction) rest
  | word {c : Char} {cs rest : List Char} (first : startsWord c) (others : ∀ d ∈ cs, continuesWord d)
    (stop : ∀ d ∈ rest.head?, continuesWord d = false) : Fits (.word (c :: cs)) rest
  /-- The character can start nothing else. -/
  | stray {c : Char} {rest : List Char} (blank : c ∉ [' ', '\t', '\r', '\n']) (quote : c ≠ '"')
    (digit : c.isDigit = false) (word : startsWord c = false)
    (mark : ∀ kind text, (kind, c :: text) ∉ marks) : Fits (.stray c) rest
  /-- A string that is never closed goes on to the end. -/
  | unterminated {body : List Char} (inside : '"' ∉ body) : Fits (.unterminated body) []

theorem isBlank_iff {c : Char} : isBlank c ↔ c ∈ [' ', '\t', '\r', '\n'] := by
  simp [isBlank, or_assoc]

theorem first_of_mem_marks {kind : Kind} {c : Char} {cs : List Char} (h : (kind, c :: cs) ∈ marks) :
    (Kind.ofMark? c).isSome ∨ c = '/' ∨ (Kind.ofExtensible? c).isSome := by
  have hall : ∀ m ∈ marks, m.2.head?.all fun c =>
      (Kind.ofMark? c).isSome ∨ c = '/' ∨ (Kind.ofExtensible? c).isSome := by decide
  exact of_decide_eq_true (hall _ h)

theorem second_of_mem_marks {kind : Kind} {c d : Char} {cs : List Char}
    (h : (kind, c :: d :: cs) ∈ marks) :
    (Kind.ofExtensible? c).isSome ∧ Kind.ofMark? c = none ∧ c ≠ '/' ∧ d = '=' ∧ cs = [] := by
  have hall : ∀ m ∈ marks, m.2.tail ≠ [] → m.2.head?.all fun c =>
      (Kind.ofExtensible? c).isSome ∧ Kind.ofMark? c = none ∧ c ≠ '/' ∧ m.2.tail = ['='] := by decide
  obtain ⟨hextensible, hmark, hslash, htail⟩ :=
    of_decide_eq_true (hall _ h (List.cons_ne_nil d cs))
  injection htail with hd hcs
  exact ⟨hextensible, hmark, hslash, hd, hcs⟩

/-! ### What scanning cuts off fits -/

/-- What is left after a fraction does not go on with the numeral. -/
theorem fits_numeral {c : Char} {whole cs : List Char} (hwhole : ∀ d ∈ c :: whole, d.isDigit)
    (hstop : ∀ d ∈ cs.head?, d.isDigit = false) :
    (numeral (c :: whole) (splitFraction cs).1).Fits (splitFraction cs).2 := by
  have hdigits := List.forall_mem_append.2 ⟨hwhole, splitFraction_digits cs⟩
  apply Fits.numeral (List.cons_ne_nil c whole) hdigits
  · unfold splitFraction
    split
    · split
      · exact of_mem_head_dropWhile
      · exact hstop
    · exact hstop
  · unfold splitFraction
    split
    · next d ds =>
      split
      · intro hnil
        cases hnil
      · next hd =>
        rintro - _ _ ⟨⟩
        exact Bool.eq_false_iff.2 hd
    · next hne =>
      rintro - d ds rfl
      exact absurd rfl (hne d ds)

theorem fits_single {kind : Kind} {c : Char} (h : Kind.ofMark? c = some kind) (rest : List Char) :
    (mark kind [c]).Fits rest := by
  apply Fits.mark (mem_marks_of_ofMark? h)
  · intro d _ kind' hmem
    rw [(second_of_mem_marks hmem).2.1] at h
    cases h
  · intro hc
    injection hc with hc
    rw [hc] at h
    cases h

theorem fits_alone {c : Char} {alone extended : Kind}
    (h : Kind.ofExtensible? c = some (alone, extended)) (hslash : c ≠ '/') {rest : List Char}
    (hrest : ∀ ds, rest ≠ '=' :: ds) : (mark alone [c]).Fits rest := by
  apply Fits.mark (mem_marks_of_ofExtensible? h).1
  · intro d hd kind hmem
    obtain ⟨ds, rfl⟩ := List.head?_eq_some_iff.1 hd
    obtain rfl : d = '=' := (second_of_mem_marks hmem).2.2.2.1
    exact hrest ds rfl
  · intro hc
    injection hc with hc
    exact absurd hc hslash

theorem fits_extended {c : Char} {alone extended : Kind}
    (h : Kind.ofExtensible? c = some (alone, extended)) (rest : List Char) :
    (mark extended [c, '=']).Fits rest := by
  apply Fits.mark (mem_marks_of_ofExtensible? h).2
  · intro d _ kind hmem
    have hnil := (second_of_mem_marks hmem).2.2.2.2
    cases hnil
  · intro hc
    cases hc

theorem fits_slash {rest : List Char} (hrest : ∀ ds, rest ≠ '/' :: ds) :
    (mark .slash ['/']).Fits rest := by
  apply Fits.mark (by decide)
  · intro d _ kind hmem
    exact (second_of_mem_marks hmem).2.2.1 rfl
  · rintro - d hd rfl
    obtain ⟨ds, rfl⟩ := List.head?_eq_some_iff.1 hd
    exact hrest ds rfl

theorem fits_comment (cs : List Char) :
    (comment (cs.takeWhile (· != '\n'))).Fits (cs.dropWhile (· != '\n')) := by
  apply Fits.comment
  · intro hmem
    have hline := of_mem_takeWhile (p := (· != '\n')) hmem
    cases hline
  · intro d hd
    have hline := of_mem_head_dropWhile (p := (· != '\n')) d hd
    simpa using hline

theorem fits_stray {c : Char} (hblank : ¬ isBlank c) (hquote : c ≠ '"') (hslash : c ≠ '/')
    (hdigit : ¬ c.isDigit) (hword : ¬ startsWord c) (hmark : Kind.ofMark? c = none)
    (hextensible : Kind.ofExtensible? c = none) (rest : List Char) : (stray c).Fits rest := by
  apply Fits.stray (mt isBlank_iff.2 hblank) hquote (Bool.eq_false_iff.2 hdigit)
    (Bool.eq_false_iff.2 hword)
  intro kind text hmem
  rcases first_of_mem_marks hmem with h | h | h
  · rw [hmark] at h
    cases h
  · exact hslash h
  · rw [hextensible] at h
    cases h

/-- The cases are those that scanning tries, in its order. -/
theorem fits_next (c : Char) (cs : List Char) : (next c cs).1.Fits (next c cs).2 := by
  unfold next
  split
  · next hblank => exact .blank (isBlank_iff.1 hblank)
  split
  · split
    · next hopen =>
      apply Fits.unterminated
      intro hmem
      have hquote := List.dropWhile_eq_nil_iff.1 hopen '"' hmem
      cases hquote
    · exact .string (not_mem_takeWhile_quote cs)
  next hblank hquote =>
  split
  · next hslash =>
    subst hslash
    split
    · exact fits_comment _
    · next hne => exact fits_slash hne
  next hslash =>
  split
  · next hdigit =>
    apply fits_numeral
    · exact List.forall_mem_cons.2 ⟨hdigit, fun d hd => of_mem_takeWhile hd⟩
    · exact of_mem_head_dropWhile
  next hdigit =>
  split
  · next hword =>
    exact .word hword (fun d hd => of_mem_takeWhile hd) of_mem_head_dropWhile
  next hword =>
  split
  · next hkind => exact fits_single hkind _
  · next hextensible => exact fits_extended hextensible _
  · next hextensible hne => exact fits_alone hextensible hslash hne
  · next hmark hextensible =>
    exact fits_stray hblank hquote hslash hdigit hword hmark hextensible _

/-! ### What fits is cut off -/

/-- Before what does not go on with it, a piece that fits is the next piece. -/
def IsNext (p : Piece) (rest : List Char) : Prop :=
  ∃ c cs, p.text ++ rest = c :: cs ∧ next c cs = (p, rest)

theorem isNext_single {c : Char} {kind : Kind} (h : Kind.ofMark? c = some kind) (rest : List Char) :
    (mark kind [c]).IsNext rest := by
  refine ⟨c, rest, rfl, ?_⟩
  unfold Kind.ofMark? at h
  split at h <;> cases h <;> rfl

theorem isNext_extended {c : Char} {alone extended : Kind}
    (h : Kind.ofExtensible? c = some (alone, extended)) (rest : List Char) :
    (mark extended [c, '=']).IsNext rest := by
  refine ⟨c, '=' :: rest, rfl, ?_⟩
  unfold Kind.ofExtensible? at h
  split at h <;> cases h <;> rfl

theorem isNext_alone {c : Char} {alone extended : Kind}
    (h : Kind.ofExtensible? c = some (alone, extended)) {rest : List Char}
    (hrest : ∀ d ∈ rest.head?, d ≠ '=') : (mark alone [c]).IsNext rest := by
  refine ⟨c, rest, rfl, ?_⟩
  cases rest with
  | nil =>
    unfold Kind.ofExtensible? at h
    split at h <;> cases h <;> rfl
  | cons d ds => exact next_alone h (hrest d rfl) ds

theorem isNext_slash {rest : List Char} (hrest : ∀ d ∈ rest.head?, d ≠ '/') :
    (mark .slash ['/']).IsNext rest := by
  refine ⟨'/', rest, rfl, ?_⟩
  unfold next
  rw [if_neg (by decide), if_neg (by decide), if_pos rfl]
  split
  · exact absurd rfl (hrest '/' rfl)
  · rfl

/-- Marks are single characters, or extensible ones with or without a `=`. -/
theorem cases_of_mem_marks {kind : Kind} {text : List Char} (h : (kind, text) ∈ marks) :
    ∃ c ∈ text.head?, (Kind.ofMark? c = some kind ∧ text = [c]) ∨ (kind = .slash ∧ text = ['/']) ∨
      ∃ pair ∈ Kind.ofExtensible? c,
        (kind = pair.1 ∧ text = [c]) ∨ (kind = pair.2 ∧ text = [c, '=']) := by
  have hall : ∀ m ∈ marks, m.2.head?.any fun c =>
      (Kind.ofMark? c = some m.1 ∧ m.2 = [c]) ∨ (m.1 = .slash ∧ m.2 = ['/']) ∨
        ∃ pair ∈ Kind.ofExtensible? c,
          (m.1 = pair.1 ∧ m.2 = [c]) ∨ (m.1 = pair.2 ∧ m.2 = [c, '=']) := by
    decide
  obtain ⟨c, hc, hcases⟩ := (Option.any_eq_true _ _).1 (hall _ h)
  exact ⟨c, hc, of_decide_eq_true hcases⟩

theorem of_continuesWord {c : Char} (h : continuesWord c) : ¬ isBlank c ∧ c ≠ '"' ∧ c ≠ '/' := by
  refine ⟨?_, ?_, ?_⟩
  · intro hb
    simp only [isBlank, Bool.or_eq_true, decide_eq_true_eq] at hb
    rcases hb with ((rfl | rfl) | rfl) | rfl <;> cases h
  · rintro rfl
    cases h
  · rintro rfl
    cases h

theorem continuesWord_of_isDigit {c : Char} (h : c.isDigit) : continuesWord c := by
  simp [continuesWord, Char.isAlphanum, h]

theorem continuesWord_of_startsWord {c : Char} (h : startsWord c) : continuesWord c := by
  simp only [startsWord, Bool.or_eq_true, decide_eq_true_eq] at h
  rcases h with h | rfl
  · simp [continuesWord, Char.isAlphanum, h]
  · rfl

theorem isDigit_of_startsWord {c : Char} (h : startsWord c) : c.isDigit = false := by
  rw [Bool.eq_false_iff]
  intro hdigit
  have hupper (h : c.isUpper) : 65 ≤ c.val := (of_decide_eq_true h).1
  have hlower (h : c.isLower) : 97 ≤ c.val := of_decide_eq_true (Bool.and_eq_true_iff.1 h).1
  have hle : c.val ≤ 57 := of_decide_eq_true (Bool.and_eq_true_iff.1 hdigit).2
  simp only [startsWord, Bool.or_eq_true, decide_eq_true_eq] at h
  rcases h with h | rfl
  · rcases Bool.or_eq_true_iff.1 h with h | h
    · exact absurd (UInt32.le_trans (hupper h) hle) (by decide)
    · exact absurd (UInt32.le_trans (hlower h) hle) (by decide)
  · exact absurd hdigit (by decide)

theorem splitFraction_of_stop {fraction rest : List Char} (hfraction : ∀ d ∈ fraction, d.isDigit)
    (hstop : ∀ d ∈ rest.head?, d.isDigit = false)
    (hpoint : fraction = [] → ∀ d ds, rest = '.' :: d :: ds → d.isDigit = false) :
    splitFraction ((if fraction = [] then [] else '.' :: fraction) ++ rest) = (fraction, rest) := by
  cases fraction with
  | nil =>
    rw [if_pos rfl, List.nil_append]
    unfold splitFraction
    split
    · next d ds => rw [if_neg (Bool.eq_false_iff.1 (hpoint rfl d ds rfl))]
    · rfl
  | cons d ds =>
    obtain ⟨hd, hds⟩ := List.forall_mem_cons.1 hfraction
    rw [if_neg (List.cons_ne_nil d ds)]
    change splitFraction ('.' :: d :: (ds ++ rest)) = _
    rw [splitFraction, if_pos hd, takeWhile_append_of_stop hds hstop,
      dropWhile_append_of_stop hds hstop]

theorem isNext_comment {body rest : List Char} (inside : '\n' ∉ body)
    (stop : ∀ d ∈ rest.head?, d = '\n') : (comment body).IsNext rest := by
  have hbody : ∀ c ∈ body, c != '\n' := fun c hc => bne_iff_ne.2 fun heq => inside (heq ▸ hc)
  have hrest : ∀ c ∈ rest.head?, (c != '\n') = false := fun c hc => by simpa using stop c hc
  refine ⟨'/', '/' :: (body ++ rest), rfl, ?_⟩
  unfold next
  rw [if_neg (by decide), if_neg (by decide), if_pos rfl]
  change (Piece.comment (List.takeWhile _ (body ++ rest)), List.dropWhile _ (body ++ rest)) = _
  rw [takeWhile_append_of_stop hbody hrest, dropWhile_append_of_stop hbody hrest]

theorem isNext_numeral {whole fraction rest : List Char} (nonempty : whole ≠ [])
    (digits : ∀ d ∈ whole ++ fraction, d.isDigit) (stop : ∀ d ∈ rest.head?, d.isDigit = false)
    (point : fraction = [] → ∀ d ds, rest = '.' :: d :: ds → d.isDigit = false) :
    (numeral whole fraction).IsNext rest := by
  obtain ⟨c, cs, rfl⟩ := List.exists_cons_of_ne_nil nonempty
  obtain ⟨hwhole, hfraction⟩ := List.forall_mem_append.1 digits
  obtain ⟨hc, hcs⟩ := List.forall_mem_cons.1 hwhole
  obtain ⟨hblank, hquote, hslash⟩ := of_continuesWord (continuesWord_of_isDigit hc)
  -- The whole part ends before the point, if there is a fraction, and else where the numeral ends.
  have hend : ∀ d ∈ ((if fraction = [] then [] else '.' :: fraction) ++ rest).head?,
      d.isDigit = false := by
    split
    · exact stop
    · rintro d ⟨⟩
      rfl
  refine ⟨c, cs ++ ((if fraction = [] then [] else '.' :: fraction) ++ rest), ?_, ?_⟩
  · rw [text_numeral, List.cons_append, List.cons_append, List.append_assoc]
  · unfold next
    rw [if_neg hblank, if_neg hquote, if_neg hslash, if_pos hc, takeWhile_append_of_stop hcs hend,
      dropWhile_append_of_stop hcs hend, splitFraction_of_stop hfraction stop point]

theorem isNext_word {c : Char} {cs rest : List Char} (first : startsWord c)
    (others : ∀ d ∈ cs, continuesWord d) (stop : ∀ d ∈ rest.head?, continuesWord d = false) :
    (word (c :: cs)).IsNext rest := by
  obtain ⟨hblank, hquote, hslash⟩ := of_continuesWord (continuesWord_of_startsWord first)
  refine ⟨c, cs ++ rest, rfl, ?_⟩
  unfold next
  rw [if_neg hblank, if_neg hquote, if_neg hslash,
    if_neg (Bool.eq_false_iff.1 (isDigit_of_startsWord first)),
    if_pos first, takeWhile_append_of_stop others stop, dropWhile_append_of_stop others stop]

theorem isNext_stray {c : Char} (blank : c ∉ [' ', '\t', '\r', '\n']) (quote : c ≠ '"')
    (digit : c.isDigit = false) (word : startsWord c = false)
    (mark : ∀ kind text, (kind, c :: text) ∉ marks) (rest : List Char) : (stray c).IsNext rest := by
  have hslash : c ≠ '/' := by
    rintro rfl
    exact mark .slash [] (by decide)
  have hmark : Kind.ofMark? c = none :=
    Option.eq_none_iff_forall_ne_some.2 fun kind hkind => mark kind [] (mem_marks_of_ofMark? hkind)
  have hextensible : Kind.ofExtensible? c = none :=
    Option.eq_none_iff_forall_ne_some.2 fun pair hpair =>
      mark pair.1 [] (mem_marks_of_ofExtensible? hpair).1
  refine ⟨c, rest, rfl, ?_⟩
  unfold next
  rw [if_neg (mt isBlank_iff.1 blank), if_neg quote, if_neg hslash, if_neg (Bool.eq_false_iff.1 digit),
    if_neg (Bool.eq_false_iff.1 word), hmark, hextensible]

theorem isNext_unterminated {body : List Char} (inside : '"' ∉ body) :
    (unterminated body).IsNext [] := by
  have hopen : body.dropWhile (· != '"') = [] :=
    List.dropWhile_eq_nil_iff.2 fun c hc => bne_iff_ne.2 fun heq => inside (heq ▸ hc)
  refine ⟨'"', body, List.append_nil _, ?_⟩
  unfold next
  rw [if_neg (by decide), if_pos rfl, hopen]

theorem Fits.isNext {p : Piece} {rest : List Char} (h : p.Fits rest) : p.IsNext rest := by
  cases h with
  | @blank c _ hblank => exact ⟨c, rest, rfl, if_pos (isBlank_iff.2 hblank)⟩
  | comment inside stop => exact isNext_comment inside stop
  | @mark kind text _ known stop slash =>
    obtain ⟨c, -, ⟨hkind, rfl⟩ | ⟨rfl, rfl⟩ | ⟨⟨alone, extended⟩, hc, ⟨rfl, rfl⟩ | ⟨rfl, rfl⟩⟩⟩ :=
      cases_of_mem_marks known
    · exact isNext_single hkind rest
    · exact isNext_slash (slash rfl)
    · apply isNext_alone hc
      rintro d hd rfl
      exact stop '=' hd extended (mem_marks_of_ofExtensible? hc).2
    · exact isNext_extended hc rest
  | @string body _ inside =>
    refine ⟨'"', body ++ '"' :: rest, ?_, next_string inside⟩
    simp [text]
  | numeral nonempty digits stop point => exact isNext_numeral nonempty digits stop point
  | word first others stop => exact isNext_word first others stop
  | stray blank quote digit word mark => exact isNext_stray blank quote digit word mark rest
  | unterminated inside => exact isNext_unterminated inside

theorem Fits.isScanned {p : Piece} {rest : List Char} (h : p.Fits rest) : p.IsScanned := by
  obtain ⟨c, cs, -, hnext⟩ := h.isNext
  exact ⟨c, cs, rest, hnext⟩

end Piece

/-- Pieces that make up a text, each one fitting before those behind it. -/
inductive Tiling : List Char → List Piece → Prop
  | nil : Tiling [] []
  | cons {p : Piece} {ps : List Piece} {rest : List Char} (fits : p.Fits rest) (tail : Tiling rest ps) :
    Tiling (p.text ++ rest) (p :: ps)

theorem tiling_pieces (cs : List Char) : Tiling cs (pieces cs) := by
  fun_induction pieces cs with
  | case1 => exact .nil
  | case2 c cs ih =>
    have htiling := Tiling.cons (Piece.fits_next c cs) ih
    rwa [Piece.text_next] at htiling

/-- There is one way to tile a text. -/
theorem tiling_iff {cs : List Char} {ps : List Piece} : Tiling cs ps ↔ ps = pieces cs := by
  constructor
  · intro h
    induction h with
    | nil => exact (pieces.eq_1).symm
    | cons fits _ ih =>
      obtain ⟨c, cs, hcs, hnext⟩ := fits.isNext
      rw [hcs, Piece.pieces_cons hnext, ih]
  · rintro rfl
    exact tiling_pieces cs

/-- A string that is never closed is the last piece. -/
theorem Tiling.getLast?_eq {cs : List Char} {ps : List Piece} (h : Tiling cs ps) {body : List Char}
    (hmem : .unterminated body ∈ ps) : ps.getLast? = some (.unterminated body) := by
  induction h with
  | nil => cases hmem
  | @cons p ps rest fits tail ih =>
    rcases List.mem_cons.1 hmem with rfl | hmem
    · cases fits
      rw [tiling_iff.1 tail, pieces]
      rfl
    · rw [List.getLast?_cons_of_ne_nil (List.ne_nil_of_mem hmem), ih hmem]

theorem Tiling.text_eq {cs : List Char} {ps : List Piece} (h : Tiling cs ps) :
    ps.flatMap Piece.text = cs := by
  rw [tiling_iff.1 h, text_pieces]

inductive Piece.Denotes : Piece → Kind → Option Literal → Prop
  | mark (kind : Kind) (text : List Char) : Denotes (.mark kind text) kind none
  | string (body : List Char) : Denotes (.string body) .string (some (.string (.ofList body)))
  | numeral (whole fraction : List Char) :
    Denotes (.numeral whole fraction) .number (some (.number (Number.ofDigits whole fraction)))
  | reserved {text : List Char} {kind : Kind} (known : (String.ofList text, kind) ∈ Kind.words) :
    Denotes (.word text) kind none
  | identifier {text : List Char} (unknown : ∀ kind, (String.ofList text, kind) ∉ Kind.words) :
    Denotes (.word text) .identifier none

/-- The tokens and the errors that pieces stand for. Blanks and comments stand for nothing. -/
inductive Reads : List Piece → List Token → List SyntaxError → Prop
  | nil : Reads [] [] []
  | blank (c : Char) {ps : List Piece} {ts : List Token} {es : List SyntaxError} (tail : Reads ps ts es) :
    Reads (.blank c :: ps) ts es
  | comment (body : List Char) {ps : List Piece} {ts : List Token} {es : List SyntaxError}
    (tail : Reads ps ts es) : Reads (.comment body :: ps) ts es
  | token {p : Piece} {kind : Kind} {literal : Option Literal} (denotes : p.Denotes kind literal)
    (line : UInt32) {ps : List Piece} {ts : List Token} {es : List SyntaxError} (tail : Reads ps ts es) :
    Reads (p :: ps) (⟨kind, .ofList p.text, literal, line⟩ :: ts) es
  | stray (c : Char) (line : UInt32) {ps : List Piece} {ts : List Token} {es : List SyntaxError}
    (tail : Reads ps ts es) : Reads (.stray c :: ps) ts (.atLine line .unexpectedCharacter :: es)
  | unterminated (body : List Char) (line : UInt32) {ps : List Piece} {ts : List Token}
    {es : List SyntaxError} (tail : Reads ps ts es) :
    Reads (.unterminated body :: ps) ts (.atLine line .unterminatedString :: es)

theorem denotes_word (text : List Char) :
    (Piece.word text).Denotes ((Kind.ofWord? (.ofList text)).getD .identifier) none := by
  cases h : Kind.ofWord? (.ofList text) with
  | some kind => exact .reserved (Kind.mem_words h)
  | none =>
    refine .identifier fun kind hmem => ?_
    have hne := List.lookup_eq_none_iff.1 h _ hmem
    simp at hne

theorem reads_located (line : UInt32) (ps : List Piece) :
    Reads ps (locatedTokens (located line ps)) (locatedErrors (located line ps)) := by
  induction ps generalizing line with
  | nil => exact .nil
  | cons p ps ih =>
    have htail := ih (line + .ofNat p.newlines)
    cases p with
    | blank c => exact .blank c htail
    | comment body => exact .comment body htail
    | mark kind text => exact .token (.mark kind text) _ htail
    | string body => exact .token (.string body) _ htail
    | numeral whole fraction => exact .token (.numeral whole fraction) _ htail
    | word text => exact .token (denotes_word text) _ htail
    | stray c => exact .stray c _ htail
    | unterminated body => exact .unterminated body _ htail

/-- Scanning tiles the source and loses nothing. There is one way to cut a source into longest pieces, only
the last of which can be a string that is never closed. The tokens are those of the token pieces, in order
and with one end token behind them, and the errors are those of the other pieces that are no blanks and no
comments. -/
theorem scan_tiling (source : String) :
    ∃ ps, Tiling source.toList ps ∧ (∀ qs, Tiling source.toList qs → qs = ps) ∧
      ps.flatMap Piece.text = source.toList ∧
      (∀ body, .unterminated body ∈ ps → ps.getLast? = some (.unterminated body)) ∧
      ∃ ts line, (scan source).tokens = ts ++ [.atEnd line] ∧ (∀ t ∈ ts, t.kind ≠ .eof) ∧
        Reads ps ts (scan source).errors := by
  have htiling := tiling_pieces source.toList
  refine ⟨pieces source.toList, htiling, fun qs => tiling_iff.1, htiling.text_eq,
    fun body => htiling.getLast?_eq, _, _, scan_tokens source, ?_, reads_located 1 _⟩
  exact fun t ht => (isLexical_of_scan ht).kind_ne_eof

end Lox
