import Mathlib.Data.List.TakeWhile
import Lox.Proofs.Recovery

/-! Lists of segments.
A segment parses without errors, or is a single statement with errors that stand before its end. Parsing
a list of segments finds the errors that it finds in each segment by itself (`parse_segments`). -/
namespace Lox

open Concrete (The beforeEnd)

def syntaxErrors (tokens : List Token) (ids : IdSupply) : List SyntaxError :=
  match (parse tokens ids).1 with
  | .ok _ => []
  | .error errors => errors

def inBraces (opening : The .leftBrace) (closing : The .rightBrace) (ts : List Token) : List Token :=
  opening.1 :: (ts ++ [closing.1])

/-- The body of a function without parameters. -/
def inFunction (word : The .funWord) (name : The .identifier) (left : The .leftParen)
    (right : The .rightParen) (opening : The .leftBrace) (closing : The .rightBrace)
    (ts : List Token) : List Token :=
  word.1 :: name.1 :: left.1 :: right.1 :: inBraces opening closing ts

def inAllBraces (braces : List (The .leftBrace × The .rightBrace)) (ts : List Token) : List Token :=
  braces.foldr (fun (opening, closing) => inBraces opening closing) ts

theorem kind_ne_eof_inBraces {ts : List Token} (h : ∀ t ∈ ts, t.kind ≠ .eof)
    (opening : The .leftBrace) (closing : The .rightBrace) :
    ∀ t ∈ inBraces opening closing ts, t.kind ≠ .eof := by
  have hopening := opening.kind_eq
  have hclosing := closing.kind_eq
  simp only [inBraces, List.mem_cons, List.mem_append, List.not_mem_nil, or_false]
  rintro t (rfl | ht | rfl)
  · simp [hopening]
  · exact h t ht
  · simp [hclosing]

theorem kind_ne_eof_inAllBraces {ts : List Token} (h : ∀ t ∈ ts, t.kind ≠ .eof)
    (braces : List (The .leftBrace × The .rightBrace)) :
    ∀ t ∈ inAllBraces braces ts, t.kind ≠ .eof := by
  induction braces with
  | nil => exact h
  | cons pair braces ih => exact kind_ne_eof_inBraces ih pair.1 pair.2

theorem kind_ne_eof_inFunction {ts : List Token} (h : ∀ t ∈ ts, t.kind ≠ .eof) (word : The .funWord)
    (name : The .identifier) (left : The .leftParen) (right : The .rightParen)
    (opening : The .leftBrace) (closing : The .rightBrace) :
    ∀ t ∈ inFunction word name left right opening closing ts, t.kind ≠ .eof := by
  have hword := word.kind_eq
  have hname := name.kind_eq
  have hleft := left.kind_eq
  have hright := right.kind_eq
  simp only [inFunction, List.mem_cons]
  rintro t (rfl | rfl | rfl | rfl | ht)
  · simp [hword]
  · simp [hname]
  · simp [hleft]
  · simp [hright]
  · exact kind_ne_eof_inBraces h opening closing t ht

theorem Cursor.take?_of_kind {s : Cursor} {token : Token} {ts : List Token} {kind kind' : Kind}
    (hs : s.rest = token :: ts) (htoken : token.kind = kind) (hne : kind ≠ kind') :
    s.take? (· = kind') = none := by
  refine Cursor.take?_of_head fun t ht => ?_
  rw [hs] at ht
  cases ht
  exact decide_eq_false (htoken ▸ hne)

namespace Grammar

open Placement Step

theorem syntaxErrors_eq {tokens : List Token} (h : ∀ t ∈ tokens, t.kind ≠ .eof) (ids : IdSupply) :
    syntaxErrors tokens ids = (program (endOf tokens) ⟨tokens, ids, []⟩).after.errors := by
  have hbefore : tokens.takeWhile (·.kind ≠ .eof) = tokens :=
    List.takeWhile_eq_self_iff.2 (by simpa using h)
  obtain ⟨ds, u, hds⟩ := exists_gives_program (endOf tokens) ⟨tokens, ids, []⟩
  unfold syntaxErrors
  rw [parse_eq, hbefore, hds.1]
  cases (program (endOf tokens) ⟨tokens, ids, []⟩).after.errors <;> rfl

/-- Wherever the tokens stand, declarations lead past them, and they add these errors. What follows
does not go on with an `if`. -/
def Passable (tokens : List Token) (errors : List SyntaxError) : Prop :=
  ∀ (stop : Token) (s : Cursor) (behind : List Token), s.rest = tokens ++ behind →
    (∀ t ∈ behind.head?, t.kind ≠ .elseWord) →
      ∃ ds u, Passes stop s ds u ∧ u.rest = behind ∧ u.errors = s.errors ++ errors

theorem passable_nil : Passable [] [] := fun _ s _ hs _ =>
  ⟨[], s, .refl s, hs, (List.append_nil _).symm⟩

theorem Passable.append {ts us : List Token} {es fs : List SyntaxError} (h : Passable ts es)
    (h' : Passable us fs) (hhead : ∀ t ∈ us.head?, t.kind ≠ .elseWord) :
    Passable (ts ++ us) (es ++ fs) := by
  intro stop s behind hs hbehind
  rw [List.append_assoc] at hs
  obtain ⟨ds, t, hds, htrest, hterrors⟩ := h stop s (us ++ behind) hs <| by
    cases us with
    | nil => exact hbehind
    | cons u us => exact hhead
  obtain ⟨ds', u, hds', hurest, huerrors⟩ := h' stop t behind htrest hbehind
  exact ⟨ds ++ ds', u, hds.trans hds', hurest, by rw [huerrors, hterrors, List.append_assoc]⟩

/-- A block leads past what is in it. -/
theorem Passable.block {ts : List Token} {es : List SyntaxError} (h : Passable ts es)
    (stop : Token) {s : Cursor} {behind : List Token} (closing : The .rightBrace)
    (hs : s.rest = ts ++ closing.1 :: behind) :
    ∃ body u, (block stop s).Gives body u ∧ u.rest = behind ∧ u.errors = s.errors ++ es := by
  have hclosing : closing.1.kind = .rightBrace := closing.kind_eq
  obtain ⟨body, t, hbody, htrest, hterrors⟩ := h stop s (closing.1 :: behind) hs <| by
    rintro _ ⟨⟩
    simp [hclosing]
  have hsees : t.sees .rightBrace := by
    rw [Cursor.sees, htrest]
    exact decide_eq_true hclosing
  refine ⟨body, { t with rest := behind }, ?_, rfl, hterrors⟩
  rw [Grammar.block]
  refine (hbody.declarations hsees).bind fun _ => ?_
  exact (gives_expect htrest hclosing).bind fun _ => ⟨rfl, rfl⟩

theorem Passes.of_declaration {stop : Token} {s t : Cursor} {token : Token} {ts : List Token}
    (hs : s.rest = token :: ts) (htoken : token.kind ≠ .rightBrace) {d : Stmt}
    (hd : (declaration stop s).Gives d t) : Passes stop s [d] t := by
  have hne : s.rest ≠ [] := by simp [hs]
  have hbrace : ¬ s.sees .rightBrace := by simp [Cursor.sees, hs, htoken]
  exact .step hne hbrace (gives_recover hne hd) (.refl t)

theorem Passable.inBraces {ts : List Token} {es : List SyntaxError} (h : Passable ts es)
    (opening : The .leftBrace) (closing : The .rightBrace) :
    Passable (inBraces opening closing ts) es := by
  intro stop s behind hs _
  have hopening : opening.1.kind = .leftBrace := opening.kind_eq
  have hs : s.rest = opening.1 :: (ts ++ closing.1 :: behind) := by
    simpa [Lox.inBraces] using hs
  obtain ⟨body, u, hbody, hrest, herrors⟩ :=
    h.block stop (s := { s with rest := ts ++ closing.1 :: behind }) closing rfl
  refine ⟨[.block body], u, .of_declaration hs (by simp [hopening]) ?_, hrest, herrors⟩
  obtain ⟨_, htake⟩ := Cursor.take?_of_cons hs (p := fun _ => true) rfl
  rw [declaration, Cursor.take?_of_kind hs hopening (by decide),
    Cursor.take?_of_kind hs hopening (by decide)]
  dsimp only
  rw [statement, htake]
  dsimp only
  rw [hopening]
  exact .past (hbody.bind fun _ => ⟨rfl, rfl⟩)

theorem gives_parameters {stop : Token} {s : Cursor} {token : Token} {ts : List Token}
    (hs : s.rest = token :: ts) (htoken : token.kind = .rightParen) :
    (parameters stop s).Gives [] s := by
  have hsees : s.sees .rightParen := by simp [Cursor.sees, hs, htoken]
  rw [parameters, if_pos hsees]
  exact ⟨rfl, rfl⟩

theorem Passable.inFunction {ts : List Token} {es : List SyntaxError} (h : Passable ts es)
    (word : The .funWord) (name : The .identifier) (left : The .leftParen)
    (right : The .rightParen) (opening : The .leftBrace) (closing : The .rightBrace) :
    Passable (inFunction word name left right opening closing ts) es := by
  intro stop s behind hs _
  have hword : word.1.kind = .funWord := word.kind_eq
  have hs : s.rest = word.1 :: name.1 :: left.1 :: right.1 :: opening.1 ::
      (ts ++ closing.1 :: behind) := by
    simpa [Lox.inFunction, Lox.inBraces] using hs
  obtain ⟨body, u, hbody, hrest, herrors⟩ :=
    h.block stop (s := { s with rest := ts ++ closing.1 :: behind }) closing rfl
  refine ⟨[.function name.1 [] body], u, .of_declaration hs (by simp [hword]) ?_, hrest, herrors⟩
  obtain ⟨_, htake⟩ := Cursor.take?_of_cons hs (p := (· = .funWord)) (decide_eq_true hword)
  rw [declaration, Cursor.take?_of_kind hs hword (by decide), htake]
  dsimp only
  refine Gives.past ?_
  rw [functionDeclaration]
  refine (gives_expect rfl name.kind_eq).bind fun _ => ?_
  refine (gives_expect rfl left.kind_eq).bind fun _ => ?_
  refine (gives_parameters rfl right.kind_eq).bind fun _ => ?_
  refine (gives_expect rfl right.kind_eq).bind fun _ => ?_
  refine (gives_expect rfl opening.kind_eq).bind fun _ => ?_
  exact hbody.bind fun _ => ⟨rfl, rfl⟩

theorem Passable.inAllBraces {ts : List Token} {es : List SyntaxError} (h : Passable ts es)
    (braces : List (The .leftBrace × The .rightBrace)) : Passable (inAllBraces braces ts) es := by
  induction braces with
  | nil => exact h
  | cons pair braces ih => exact ih.inBraces pair.1 pair.2

theorem Passable.syntaxErrors {ts : List Token} {es : List SyntaxError} (h : Passable ts es)
    (hends : ∀ t ∈ ts, t.kind ≠ .eof) (ids : IdSupply) : syntaxErrors ts ids = es := by
  obtain ⟨ds, u, hpasses, hrest, hu⟩ :=
    h (endOf ts) ⟨ts, ids, []⟩ [] (List.append_nil ts).symm fun _ ht => by cases ht
  rw [syntaxErrors_eq hends, (hpasses.program hrest).2, hu, List.nil_append]

/-- Errors before the end of the first place are the same in the second. -/
theorem eq_of_alike {es es' : List SyntaxError}
    (h : List.Forall₂ (SyntaxError.Alike fun t t' => t = t' ∨ t.kind = .eof) es es')
    (hes : ∀ e ∈ es, e.place ≠ .inputEnd) : es' = es := by
  induction h with
  | nil => rfl
  | cons he _ ih =>
    rw [ih fun e he => hes e (List.mem_cons_of_mem _ he)]
    cases he with
    | @atToken t t' fault reported =>
      obtain rfl | hkind := reported
      · rfl
      · exact absurd (if_pos hkind) (hes _ List.mem_cons_self)

/-- Tokens that parse without errors are passable, and so is a broken statement whose errors stand before
its end. -/
theorem passable {ts : List Token} {ids : IdSupply} (hends : ∀ t ∈ ts, t.kind ≠ .eof)
    (h : syntaxErrors ts ids = [] ∨
      Unbroken ts ∧ ∀ e ∈ syntaxErrors ts ids, e.place ≠ .inputEnd) :
    Passable ts (syntaxErrors ts ids) := by
  intro stop' s' behind hs' hbehind
  rw [syntaxErrors_eq hends] at h ⊢
  have hnear : (amid (endOf ts) stop' behind [] s'.errors).Near ⟨ts, ids, []⟩ s' := by
    obtain ⟨rest, ids', errors⟩ := s'
    obtain rfl : rest = ts ++ behind := hs'
    exact near_amid (s := ⟨ts, ids, []⟩) rfl ids'
  obtain ⟨ds, u, hpasses, hu, -⟩ := exists_passes (kind_endOf ts) hbehind ⟨ts, ids, []⟩ s' hnear h
  refine ⟨ds, u, hpasses, ?_, ?_⟩
  · obtain ⟨us, hus, hrest⟩ := hu.rest
    rw [rest_program] at hus
    cases hus
    exact hrest
  · obtain ⟨es, es', hes, hes', hsame⟩ := hu.errors
    obtain rfl : _ = es := hes
    refine hes'.trans (congrArg (s'.errors ++ ·) (eq_of_alike hsame ?_))
    rcases h with h | h
    · rw [h]
      exact List.forall_mem_nil _
    · exact h.2

end Grammar

/-- A token list that can stand in a list of segments: it has no end token and does not go on with an `if`
before it. -/
structure IsPart (ts : List Token) : Prop where
  ends : ∀ t ∈ ts, t.kind ≠ .eof
  head : ∀ t ∈ ts.head?, t.kind ≠ .elseWord

structure IsClean (ids : IdSupply) (ts : List Token) : Prop extends IsPart ts where
  parses : ∃ p, (parse ts ids).1 = .ok p

/-- A single statement in which parsing finds errors, all of them before its end. -/
structure IsBad (ids : IdSupply) (ts : List Token) : Prop extends IsPart ts where
  semicolon : ∃ us t, ts = us ++ [t] ∧ t.kind = .semicolon ∧ ∀ u ∈ us, u.kind ≠ .semicolon
  braces : ∀ t ∈ ts, t.kind ≠ .leftBrace ∧ t.kind ≠ .rightBrace
  keywords : ∀ t ∈ ts.tail, Grammar.startsStatement t.kind = false
  errors : syntaxErrors ts ids ≠ []
  places : ∀ e ∈ syntaxErrors ts ids, e.place ≠ .inputEnd

def IsSegment (ids : IdSupply) (ts : List Token) : Prop := IsClean ids ts ∨ IsBad ids ts

theorem syntaxErrors_eq_nil {ts : List Token} {ids : IdSupply} :
    syntaxErrors ts ids = [] ↔ ∃ p, (parse ts ids).1 = .ok p := by
  obtain ⟨ds, u, hds⟩ := Grammar.exists_gives_program (endOf ts) ⟨beforeEnd ts, ids, []⟩
  unfold syntaxErrors
  rw [parse_eq, ← beforeEnd, hds.1]
  cases (Grammar.program (endOf ts) ⟨beforeEnd ts, ids, []⟩).after.errors with
  | nil => exact ⟨fun _ => ⟨ds, rfl⟩, fun _ => rfl⟩
  | cons e es => exact ⟨fun h => (List.cons_ne_nil e es h).elim, fun ⟨p, hp⟩ => by cases hp⟩

variable {ids : IdSupply} {ts : List Token} {segments : List (List Token)}

namespace IsBad

theorem unbroken (h : IsBad ids ts) : Grammar.Unbroken ts := by
  obtain ⟨us, t, rfl, ht, hus⟩ := h.semicolon
  have hbraces := h.braces
  have hkeywords := h.keywords
  clear h
  induction us with
  | nil => exact ht
  | cons u us ih =>
    have htail : Grammar.Unbroken (us ++ [t]) :=
      ih (fun v hv => hus v (List.mem_cons_of_mem u hv))
        (fun v hv => hbraces v (List.mem_cons_of_mem u hv))
        fun v hv => hkeywords v (List.mem_of_mem_tail hv)
    have hu : u.kind ≠ .semicolon ∧ u.kind ≠ .rightBrace :=
      ⟨hus u List.mem_cons_self, (hbraces u List.mem_cons_self).2⟩
    cases us with
    | nil => exact ⟨hu.1, hu.2, hkeywords t List.mem_cons_self, htail⟩
    | cons v vs => exact ⟨hu.1, hu.2, hkeywords v List.mem_cons_self, htail⟩

end IsBad

namespace IsSegment

theorem isPart (h : IsSegment ids ts) : IsPart ts := h.elim (·.toIsPart) (·.toIsPart)

theorem passable (h : IsSegment ids ts) : Grammar.Passable ts (syntaxErrors ts ids) :=
  Grammar.passable h.isPart.ends <| h.imp (fun hclean => syntaxErrors_eq_nil.2 hclean.parses)
    fun hbad => ⟨hbad.unbroken, hbad.places⟩

theorem isClean_iff (h : IsSegment ids ts) : IsClean ids ts ↔ syntaxErrors ts ids = [] := by
  refine ⟨fun hclean => syntaxErrors_eq_nil.2 hclean.parses, fun hnil => ?_⟩
  exact h.resolve_right fun hbad => hbad.errors hnil

end IsSegment

theorem head_flatten (h : ∀ S ∈ segments, IsSegment ids S) :
    ∀ t ∈ segments.flatten.head?, t.kind ≠ .elseWord := by
  induction segments with
  | nil =>
    rintro t ⟨⟩
  | cons S segments ih =>
    rw [List.flatten_cons]
    cases S with
    | nil => exact ih fun S hS => h S (List.mem_cons_of_mem _ hS)
    | cons t ts => exact (h _ List.mem_cons_self).isPart.head

theorem passable_flatten (h : ∀ S ∈ segments, IsSegment ids S) :
    Grammar.Passable segments.flatten (segments.flatMap (syntaxErrors · ids)) := by
  induction segments with
  | nil => exact Grammar.passable_nil
  | cons S segments ih =>
    have htail : ∀ S ∈ segments, IsSegment ids S := fun S hS => h S (List.mem_cons_of_mem _ hS)
    rw [List.flatten_cons, List.flatMap_cons]
    exact (h S List.mem_cons_self).passable.append (ih htail) (head_flatten htail)

theorem kind_ne_eof_flatten (h : ∀ S ∈ segments, IsSegment ids S) :
    ∀ t ∈ segments.flatten, t.kind ≠ .eof := by
  intro t ht
  obtain ⟨S, hS, htS⟩ := List.mem_flatten.1 ht
  exact (h S hS).isPart.ends t htS

theorem anonymous_flatten {programs : List Program}
    (h : List.Forall₂ (fun S p => (parse S ids).1 = .ok p) segments programs)
    (hends : ∀ S ∈ segments, ∀ t ∈ S, t.kind ≠ .eof) (ids' : IdSupply) :
    ∃ p, (parse segments.flatten ids').1 = .ok p ∧
      p.anonymous = programs.flatMap Program.anonymous := by
  induction h with
  | nil => exact Concrete.parse_of_tokens ⟨[], rfl⟩ rfl ids'
  | cons hp _ ih =>
    obtain ⟨q, hq, hanonymous⟩ := ih fun S hS => hends S (List.mem_cons_of_mem _ hS)
    obtain ⟨r, hr, hr'⟩ := Concrete.parse_append (hends _ List.mem_cons_self) hp hq ids'
    exact ⟨r, hr, by rw [hr', hanonymous, List.flatMap_cons]⟩

/-- Parsing a list of segments finds the errors that it finds in each segment by itself, in order. It
succeeds if all segments are clean, and gives their programs one after another. In blocks, and in the
body of a function, the same errors are found. -/
theorem parse_segments (h : ∀ S ∈ segments, IsSegment ids S) (ids' : IdSupply) :
    syntaxErrors segments.flatten ids' = segments.flatMap (syntaxErrors · ids) ∧
    ((∃ p, (parse segments.flatten ids').1 = .ok p) ↔ ∀ S ∈ segments, IsClean ids S) ∧
    (∀ programs : List Program,
      List.Forall₂ (fun S p => (parse S ids).1 = .ok p) segments programs →
        ∃ p, (parse segments.flatten ids').1 = .ok p ∧
          p.anonymous = programs.flatMap Program.anonymous) ∧
    (∀ braces : List (The .leftBrace × The .rightBrace),
      syntaxErrors (inAllBraces braces segments.flatten) ids' =
        segments.flatMap (syntaxErrors · ids)) ∧
    ∀ (word : The .funWord) (name : The .identifier) (left : The .leftParen)
      (right : The .rightParen) (opening : The .leftBrace) (closing : The .rightBrace),
      syntaxErrors (inFunction word name left right opening closing segments.flatten) ids' =
        segments.flatMap (syntaxErrors · ids) := by
  have hpassable := passable_flatten h
  have hends := kind_ne_eof_flatten h
  have herrors := hpassable.syntaxErrors hends ids'
  refine ⟨herrors, ?_, fun programs hprograms => ?_, fun braces => ?_, ?_⟩
  · rw [← syntaxErrors_eq_nil, herrors, List.flatMap_eq_nil_iff]
    exact forall₂_congr fun S hS => (h S hS).isClean_iff.symm
  · exact anonymous_flatten hprograms (fun S hS => (h S hS).isPart.ends) ids'
  · exact (hpassable.inAllBraces braces).syntaxErrors (kind_ne_eof_inAllBraces hends braces) ids'
  · intro word name left right opening closing
    exact (hpassable.inFunction word name left right opening closing).syntaxErrors
      (kind_ne_eof_inFunction hends word name left right opening closing) ids'

def namelessVariable : List Token :=
  [(Concrete.fixed .varWord "var").1, (Concrete.fixed .semicolon ";").1]

def bareReturn : Concrete.Program :=
  ⟨[.statement (.ret (Concrete.fixed .returnWord "return") none (Concrete.fixed .semicolon ";"))], rfl⟩

theorem syntaxErrors_namelessVariable (ids : IdSupply) :
    syntaxErrors namelessVariable ids = [⟨1, .lexeme ";", .variableName⟩] := by
  have hends : ∀ t ∈ namelessVariable, t.kind ≠ .eof := by decide
  generalize hstop : endOf namelessVariable = stop
  have hdeclaration : (Grammar.declaration stop ⟨namelessVariable, ids, []⟩).outcome =
        .error ⟨1, .lexeme ";", .variableName⟩ ∧
      (Grammar.declaration stop ⟨namelessVariable, ids, []⟩).after =
        ⟨[(Concrete.fixed .semicolon ";").1], ids, []⟩ := by
    rw [Grammar.declaration]
    exact ⟨rfl, rfl⟩
  have hgives := Grammar.gives_recover_error (List.cons_ne_nil _ _) hdeclaration.1
  rw [hdeclaration.2] at hgives
  have hbrace : ¬ (⟨namelessVariable, ids, []⟩ : Cursor).sees .rightBrace := Bool.false_ne_true
  have hpasses : Grammar.Passes stop ⟨namelessVariable, ids, []⟩ [] _ :=
    .step (List.cons_ne_nil _ _) hbrace hgives (.refl _)
  rw [Grammar.syntaxErrors_eq hends, hstop, (hpasses.program rfl).2]
  rfl

theorem isBad_namelessVariable (ids : IdSupply) : IsBad ids namelessVariable where
  ends := by decide
  head := by decide
  semicolon := ⟨[_], _, rfl, rfl, by decide⟩
  braces := by decide
  keywords := by decide
  errors := by rw [syntaxErrors_namelessVariable]; exact List.cons_ne_nil _ _
  places := by rw [syntaxErrors_namelessVariable]; decide

theorem isClean_bareReturn (ids : IdSupply) : IsClean ids bareReturn.tokens where
  ends := by decide
  head := by decide
  parses :=
    let ⟨p, hp, _⟩ := Concrete.parse_of_tokens bareReturn rfl ids
    ⟨p, hp⟩

theorem parse_segments_namelessVariable :
    (∀ S ∈ [namelessVariable, bareReturn.tokens, namelessVariable], IsSegment .initial S) ∧
      syntaxErrors (namelessVariable ++ bareReturn.tokens ++ namelessVariable) .initial =
        [⟨1, .lexeme ";", .variableName⟩, ⟨1, .lexeme ";", .variableName⟩] := by
  have h : ∀ S ∈ [namelessVariable, bareReturn.tokens, namelessVariable], IsSegment .initial S := by
    simp only [List.forall_mem_cons]
    exact ⟨.inr (isBad_namelessVariable _), .inl (isClean_bareReturn _),
      .inr (isBad_namelessVariable _), List.forall_mem_nil _⟩
  refine ⟨h, (parse_segments h .initial).1.trans ?_⟩
  have hclean := syntaxErrors_eq_nil.2 (isClean_bareReturn .initial).parses
  simp only [List.flatMap_cons, List.flatMap_nil, syntaxErrors_namelessVariable, hclean]
  rfl

end Lox
