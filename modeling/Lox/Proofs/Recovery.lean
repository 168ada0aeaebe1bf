import Lox.Proofs.Concrete.Complete
import Lox.Proofs.Twin.Parsing

/-! Recovery from syntax errors.
A segment is a token list that parses without error, or one with errors that ends at its only semicolon.
Parsing finds in a list of segments the errors that it finds in each segment by itself, also inside
blocks and functions (`parse_segments`). -/
namespace Lox

theorem Cursor.take?_of_cons {s : Cursor} {p : Kind → Bool} {t : Token} {ts : List Token}
    (hs : s.rest = t :: ts) (ht : p t.kind) :
    ∃ h, s.take? p = some ⟨t, { s with rest := ts }, h⟩ := by
  obtain ⟨rest, ids, errors⟩ := s
  cases hs
  refine ⟨Nat.le_refl _, ?_⟩
  unfold take?
  simp [ht]

namespace Step

variable {α β : Type} {s t u : Cursor} {j k : Nat}

/-- A step succeeds with this result at this position. -/
abbrev Gives (x : Step α s k) (a : α) (t : Cursor) : Prop := x.Ensures fun r u => r = .ok a ∧ u = t

theorem Gives.bind {x : Step α s j} {f : α → (t : Cursor) → t.size + j ≤ s.size → Step β t k}
    {a : α} {b : β} (hx : x.Gives a t) (hf : ∀ h, (f a t h).Gives b u) : (x.bind f).Gives b u := by
  refine Ensures.bind hx (fun e v h => ?_) fun a' v h ha => ?_
  · cases h.1
  · obtain ⟨⟨⟩, rfl⟩ := ha
    exact hf h

theorem Gives.past {h : t.size + 1 ≤ s.size} {x : Step α t k} {a : α} (hx : x.Gives a u) :
    (x.past h).Gives a u := hx

theorem gives_expect {stop : Token} {kind : Kind} {fault : SyntaxFault} {token : Token}
    {ts : List Token} (hs : s.rest = token :: ts) (ht : token.kind = kind) :
    (expect stop kind fault s).Gives token { s with rest := ts } := by
  obtain ⟨h, htake⟩ := Cursor.take?_of_cons hs (p := (· = kind)) (decide_eq_true ht)
  rw [expect, htake]
  exact ⟨rfl, rfl⟩

end Step

namespace Placement.SameOutcome

variable {A : Placement} {α β : Type} {R : α → β → Prop} {t t' : Cursor} {r : Except SyntaxError α}
  {r' : Except SyntaxError β}

theorem of_ok {a : α} (h : A.SameOutcome R t t' r r') (hr : r = .ok a) :
    ∃ b, r' = .ok b ∧ R a b := by
  subst hr
  cases h with
  | ok alike => exact ⟨_, rfl, alike⟩

theorem of_error {e : SyntaxError} (h : A.SameOutcome R t t' r r') (hr : r = .error e) :
    ∃ fault, e = .atToken (t.peek A.stop) fault ∧ r' = .error (.atToken (t'.peek A.stop') fault) ∧
      A.reported (t.peek A.stop) (t'.peek A.stop') := by
  subst hr
  cases h with
  | error fault reported => exact ⟨fault, rfl, rfl, reported⟩

end Placement.SameOutcome

namespace Grammar

open Placement Step

theorem gives_recover {α : Type} {s t : Cursor} (hs : s.rest ≠ []) {x : Step α s 1} {a : α}
    (hx : x.Gives a t) : (recover hs x).Gives (some a) t := by
  obtain ⟨r, u, h, hok⟩ := x
  obtain ⟨hr, rfl⟩ := hx
  cases hr
  exact ⟨rfl, rfl⟩

theorem gives_recover_error {α : Type} {s : Cursor} (hs : s.rest ≠ []) {x : Step α s 1}
    {e : SyntaxError} (hx : x.outcome = .error e) :
    (recover hs x).Gives none { x.after.record e with rest := synchronize x.after.rest } := by
  obtain ⟨r, t, h, hok⟩ := x
  obtain rfl : r = .error e := hx
  exact ⟨rfl, rfl⟩

/-- Recovery never fails. -/
theorem exists_gives_recover {α : Type} {s : Cursor} (hs : s.rest ≠ []) (x : Step α s 1) :
    ∃ d t, (recover hs x).Gives d t := by
  obtain ⟨r, u, h, hok⟩ := x
  cases r <;> exact ⟨_, _, rfl, rfl⟩

/-- Declarations lead from one position to another and give these statements, errors in them being
recorded. None of them starts with a closing brace. -/
inductive Passes (stop : Token) : Cursor → List Stmt → Cursor → Prop
  | refl (s : Cursor) : Passes stop s [] s
  | step {s t u : Cursor} {d : Option Stmt} {ds : List Stmt} (hs : s.rest ≠ [])
    (brace : ¬ s.sees .rightBrace) (gives : (recover hs (declaration stop s)).Gives d t)
    (rest : Passes stop t ds u) : Passes stop s (d.toList ++ ds) u

variable {stop : Token}

theorem gives_program_step {s t u : Cursor} (hs : s.rest ≠ []) {d : Option Stmt} {ds : List Stmt}
    (hd : (recover hs (declaration stop s)).Gives d t) (hds : (program stop t).Gives ds u) :
    (program stop s).Gives (d.toList ++ ds) u := by
  rw [program, dif_neg hs]
  exact Gives.bind hd fun _ => hds.bind fun _ => ⟨rfl, rfl⟩

theorem exists_gives_program (stop : Token) (s : Cursor) : ∃ ds t, (program stop s).Gives ds t := by
  by_cases hs : s.rest = []
  · rw [program, dif_pos hs]
    exact ⟨[], s, rfl, rfl⟩
  · obtain ⟨d, t, hd⟩ := exists_gives_recover hs (declaration stop s)
    have hlt : t.size < s.size := by
      have hleast := (recover hs (declaration stop s)).size_le_of_ok d hd.1
      rw [hd.2] at hleast
      exact hleast
    obtain ⟨ds, u, hds⟩ := exists_gives_program stop t
    exact ⟨_, u, gives_program_step hs hd hds⟩
termination_by s.size

/-- Parsing a program comes to the end. -/
theorem rest_program (stop : Token) (s : Cursor) : (program stop s).after.rest = [] := by
  by_cases hs : s.rest = []
  · rw [program, dif_pos hs]
    exact hs
  · obtain ⟨d, t, hd⟩ := exists_gives_recover hs (declaration stop s)
    have hlt : t.size < s.size := by
      have hleast := (recover hs (declaration stop s)).size_le_of_ok d hd.1
      rw [hd.2] at hleast
      exact hleast
    obtain ⟨ds, u, hds⟩ := exists_gives_program stop t
    rw [(gives_program_step hs hd hds).2, ← hds.2]
    exact rest_program stop t
termination_by s.size

namespace Passes

variable {s t u : Cursor} {ds es : List Stmt}

theorem trans (h : Passes stop s ds t) (h' : Passes stop t es u) :
    Passes stop s (ds ++ es) u := by
  induction h with
  | refl => exact h'
  | step hs brace gives rest ih =>
    rw [List.append_assoc]
    exact .step hs brace gives (ih h')

theorem program (h : Passes stop s ds u) (hu : u.rest = []) : (program stop s).Gives ds u := by
  induction h with
  | refl s =>
    rw [Grammar.program, dif_pos hu]
    exact ⟨rfl, rfl⟩
  | step hs brace gives rest ih => exact gives_program_step hs gives (ih hu)

/-- What is passed comes before what is parsed from there on. -/
theorem append (h : Passes stop s ds u) (hu : (Grammar.program stop u).Gives es t) :
    (Grammar.program stop s).Gives (ds ++ es) t := by
  induction h with
  | refl s => exact hu
  | step hs brace gives rest ih =>
    rw [List.append_assoc]
    exact gives_program_step hs gives (ih hu)

theorem declarations (h : Passes stop s ds u) (hu : u.sees .rightBrace) :
    (declarations stop s).Gives ds u := by
  induction h with
  | refl s =>
    rw [Grammar.declarations, dif_pos (.inr hu)]
    exact ⟨rfl, rfl⟩
  | step hs brace gives rest ih =>
    rw [Grammar.declarations, dif_neg (not_or.2 ⟨hs, brace⟩)]
    exact Gives.bind gives fun _ => (ih hu).bind fun _ => ⟨rfl, rfl⟩

end Passes

/-- The same tokens by themselves and with other tokens behind. An error at the end of the first place
may be reported elsewhere in the second. -/
def amid (stop stop' : Token) (behind : List Token) (earlier earlier' : List SyntaxError) : Placement :=
  ⟨Eq, fun t t' => t = t' ∨ t.kind = .eof, fun _ _ => True, fun _ _ => True, stop, stop', behind, earlier,
    earlier'⟩

variable {stop' : Token} {behind : List Token} {earlier earlier' : List SyntaxError}

theorem lawful_amid (h : stop.kind = .eof) : (amid stop stop' behind earlier earlier').Lawful where
  kind _ _ h := congrArg Token.kind h.symm
  literal _ _ h := congrArg Token.literal h.symm
  reported _ _ h := .inl h
  ends _ := .inr h
  next _ _ h := h
  take _ _ h := h

theorem near_amid {s : Cursor} (herrors : s.errors = earlier) (ids : IdSupply) :
    (amid stop stop' behind earlier earlier').Near s ⟨s.rest ++ behind, ids, earlier'⟩ where
  rest := ⟨s.rest, List.forall₂_same.2 fun _ _ => rfl, rfl⟩
  errors := ⟨[], [], by rw [herrors, List.append_nil]; rfl, (List.append_nil _).symm, .nil⟩
  ids := trivial

theorem declaration_amid (h : stop.kind = .eof) (s : Cursor) :
    (amid stop stop [] s.errors s.errors).Same (Stmt.Twin (amid stop stop [] s.errors s.errors).likeness)
      (declaration stop s) (declaration stop ⟨s.rest ++ [], s.ids, s.errors⟩) :=
  declaration_follows (lawful_amid h) s _ (near_amid rfl s.ids) (.inl (.inl rfl))

theorem reaches_program (h : stop.kind = .eof) (s : Cursor) : s.Reaches (program stop s).after :=
  (program_tracks (A := amid stop stop [] s.errors s.errors) (lawful_amid h) s _ (near_amid rfl s.ids)
    (.inl rfl)).reaches

/-- A declaration fails at the token that stands next. -/
theorem error_declaration (hstop : stop.kind = .eof) {s : Cursor} {e : SyntaxError}
    (h : (declaration stop s).outcome = .error e) :
    ∃ fault, e = .atToken ((declaration stop s).after.peek stop) fault := by
  obtain ⟨fault, he, -⟩ := (declaration_amid hstop s).outcome.of_error h
  exact ⟨fault, he⟩

/-- Tokens of one statement: the only semicolon is the last token, there are no braces, and no statement
keyword stands behind the first token. -/
def Unbroken : List Token → Prop
  | [] => True
  | [t] => t.kind = .semicolon
  | t :: u :: ts => t.kind ≠ .semicolon ∧ t.kind ≠ .rightBrace ∧ startsStatement u.kind = false ∧
    Unbroken (u :: ts)

theorem Unbroken.suffix {ts us : List Token} (h : Unbroken ts) (hus : us <:+ ts) : Unbroken us := by
  induction ts with
  | nil =>
    rw [List.suffix_nil.1 hus]
    trivial
  | cons t ts ih =>
    rcases List.suffix_cons_iff.1 hus with rfl | hus
    · exact h
    · cases ts with
      | nil => exact ih trivial hus
      | cons u ts => exact ih h.2.2.2 hus

/-- Skipping stops behind the semicolon. -/
theorem synchronize_unbroken {ts : List Token} (h : Unbroken ts) (hne : ts ≠ []) (us : List Token) :
    synchronize (ts ++ us) = us := by
  induction ts with
  | nil => exact absurd rfl hne
  | cons t ts ih =>
    rw [List.cons_append, synchronize]
    cases ts with
    | nil => exact if_pos (.inl h)
    | cons u ts =>
      obtain ⟨hsemicolon, -, hkeyword, hrest⟩ := h
      rw [if_neg]
      · exact ih hrest (List.cons_ne_nil u ts)
      · rintro (ht | hu)
        · exact hsemicolon ht
        · rw [List.cons_append, List.head?_cons, Option.any_some, hkeyword] at hu
          cases hu

theorem Unbroken.not_sees {s : Cursor} (h : Unbroken s.rest) : ¬ s.sees .rightBrace := by
  unfold Cursor.sees
  cases hs : s.rest with
  | nil => nofun
  | cons t ts =>
    rw [hs] at h
    cases ts with
    | nil =>
      have ht : t.kind = .semicolon := h
      simp [ht]
    | cons u ts => simpa using h.2.1

/-- Tokens that parse without errors, or with errors that leave the last token for recovery. -/
def Recovers (stop : Token) (s : Cursor) : Prop :=
  (program stop s).after.errors = [] ∨
    Unbroken s.rest ∧ ∀ e ∈ (program stop s).after.errors, e.place ≠ .inputEnd

theorem not_sees_of_errors {s : Cursor} (h : (program stop s).after.errors = []) (hs : s.rest ≠ []) :
    ¬ s.sees .rightBrace := by
  obtain ⟨ds, t, hds⟩ := exists_gives_program stop s
  obtain ⟨herrors, ts, hts, hrest, es, htokens, -, -⟩ := program_spells stop s ds hds.1 h
  rw [hrest, List.append_nil] at hts
  cases es with
  | nil => exact absurd (hts.trans htokens.symm) hs
  | cons d es =>
    have hbefore : s.Before (d.tokens ++ Concrete.allTokens es) := ⟨hts.trans htokens.symm, herrors⟩
    exact fun hsees => not_sees_end hbefore (.inr hsees)

theorem Recovers.not_sees {s : Cursor} (h : Recovers stop s) (hs : s.rest ≠ []) :
    ¬ s.sees .rightBrace := by
  rcases h with h | h
  · exact not_sees_of_errors h hs
  · exact h.1.not_sees

section

variable {s : Cursor} {b : Token}

theorem Recovers.further {t : Cursor} (h : Recovers stop s) (hst : s.Reaches t)
    (hafter : (program stop s).after = (program stop t).after) : Recovers stop t := by
  rw [Recovers, ← hafter]
  exact h.imp_right fun h => ⟨h.1.suffix hst.rest, h.2⟩

/-- What is parsed by itself is passed where other tokens follow it, with the same errors. Without errors
the statements are twins. -/
theorem exists_passes (hstop : stop.kind = .eof)
    (hclosed : (amid stop stop' behind earlier earlier').Closed) (s s' : Cursor)
    (h : (amid stop stop' behind earlier earlier').Near s s') (hs : Recovers stop s) :
    ∃ ds u, Passes stop' s' ds u ∧
      (amid stop stop' behind earlier earlier').Near (program stop s).after u ∧
      ∀ p, (program stop s).outcome = .ok p → (program stop s).after.errors = [] →
        Stmt.AllTwin (amid stop stop' behind earlier earlier').likeness p ds := by
  have hA : (amid stop stop' behind earlier earlier').Lawful := lawful_amid hstop
  by_cases hnil : s.rest = []
  · refine ⟨[], s', .refl s', ?_⟩
    rw [program, dif_pos hnil]
    refine ⟨h, fun p hp _ => ?_⟩
    cases hp
    exact .nil
  have hin : (amid stop stop' behind earlier earlier').Inside s := .inr hnil
  have hnil' : s'.rest ≠ [] := (h.rest_eq_nil hin).not.2 hnil
  have hbrace : ¬ s'.sees .rightBrace := by
    rw [h.sees hA hin]
    exact hs.not_sees hnil
  have hfollows := declaration_follows hA s s' h
  cases hr : (declaration stop s).outcome with
  | ok a =>
    obtain ⟨hnear, houtcome, hreaches⟩ := hfollows (.inr ⟨⟨a, hr⟩, hclosed⟩)
    have hgives : (declaration stop s).Gives a (declaration stop s).after := ⟨hr, rfl⟩
    obtain ⟨ds, v, hds⟩ := exists_gives_program stop (declaration stop s).after
    have hstep := gives_program_step hnil (gives_recover hnil hgives) hds
    have hafter : (program stop s).after = (program stop (declaration stop s).after).after := by
      rw [hstep.2, hds.2]
    have hlt : (declaration stop s).after.size < s.size := (declaration stop s).size_le_of_ok a hr
    obtain ⟨ds', u, hpasses, hu, htwins⟩ :=
      exists_passes hstop hclosed _ _ hnear (hs.further hreaches hafter)
    rw [hafter]
    obtain ⟨b, hb, htwin⟩ := houtcome.of_ok hr
    refine ⟨_, u, .step hnil' hbrace (gives_recover hnil' ⟨hb, rfl⟩) hpasses, hu, fun p hp herrors => ?_⟩
    cases hstep.1.symm.trans hp
    exact .cons htwin (htwins ds hds.1 herrors)
  | error e =>
    have hgives := gives_recover_error hnil hr
    obtain ⟨ds, v, hds⟩ := exists_gives_program stop
      { (declaration stop s).after.record e with rest := synchronize (declaration stop s).after.rest }
    have hafter := (gives_program_step hnil hgives hds).2.trans hds.2.symm
    have he : e ∈ (program stop s).after.errors := by
      rw [hafter]
      refine (reaches_program hstop _).errors.subset ?_
      exact List.mem_append_right _ (List.mem_singleton_self e)
    obtain herrors | ⟨hunbroken, hplaces⟩ := hs
    · rw [herrors] at he
      cases he
    obtain ⟨fault, rfl⟩ := error_declaration hstop hr
    have hne : (declaration stop s).after.rest ≠ [] := by
      intro hend
      refine hplaces _ he ?_
      rw [Cursor.peek, hend]
      exact if_pos hstop
    obtain ⟨hnear, houtcome, hreaches⟩ := hfollows (.inl (.inr hne))
    obtain ⟨fault', hfault, hr', hreported⟩ := houtcome.of_error hr
    obtain rfl : fault = fault' := congrArg SyntaxError.fault hfault
    have hrest := hunbroken.suffix hreaches.rest
    obtain ⟨ts, hts, hrest'⟩ := hnear.rest
    obtain rfl := List.forall₂_eq_eq_eq ▸ hts
    have hsync : synchronize (declaration stop s).after.rest = [] :=
      (congrArg synchronize (List.append_nil _)).symm.trans (synchronize_unbroken hrest hne [])
    have hsync' : synchronize (declaration stop' s').after.rest = behind :=
      (congrArg synchronize hrest').trans (synchronize_unbroken hrest hne behind)
    refine ⟨_, _, .step hnil' hbrace (gives_recover_error hnil' hr') (.refl _), ?_⟩
    refine ⟨?_, fun p _ herrors => ?_⟩
    · rw [hafter, hsync, program, dif_pos rfl]
      exact ⟨⟨[], .nil, hsync'⟩, (hnear.record (.atToken fault hreported)).errors, trivial⟩
    · rw [herrors] at he
      cases he
termination_by s.size

end

end Grammar
end Lox
