import Lox.Proofs.Steps
import Lox.Proofs.Twin.Tree

/-! Parsing the same tokens in two places.
In the first place the tokens are read by themselves, in the second place more tokens stand behind
them. A step that ends before the first token list does goes alike in
both places (`Tracks`), and a step that ends at a mark of its own does so at the end of the list, too
(`Follows`). -/
namespace Lox

/-- A position that is no earlier, with no error taken back. -/
structure Cursor.Reaches (s t : Cursor) : Prop where
  rest : t.rest <:+ s.rest
  errors : s.errors <+: t.errors

namespace Cursor.Reaches

variable {s t u : Cursor}

theorem refl (s : Cursor) : s.Reaches s := ⟨List.suffix_refl _, List.prefix_refl _⟩

theorem trans (h : s.Reaches t) (h' : t.Reaches u) : s.Reaches u :=
  ⟨h'.rest.trans h.rest, h.errors.trans h'.errors⟩

theorem renumber (h : s.Reaches t) (ids : IdSupply) : s.Reaches { t with ids } := ⟨h.rest, h.errors⟩

theorem record (h : s.Reaches t) (e : SyntaxError) : s.Reaches (t.record e) :=
  ⟨h.rest, h.errors.trans (List.prefix_append _ _)⟩

end Cursor.Reaches

theorem Cursor.take?_of_head {s : Cursor} {p : Kind → Bool}
    (h : ∀ t ∈ s.rest.head?, p t.kind = false) : s.take? p = none := by
  obtain ⟨rest, ids, errors⟩ := s
  cases rest with
  | nil => rfl
  | cons t ts =>
    have ht : p t.kind = false := h t rfl
    unfold take?
    simp [ht]

structure Placement where
  /-- Which tokens are alike. -/
  token : Token → Token → Prop
  /-- Where errors may be reported. -/
  reported : Token → Token → Prop
  /-- Which supplies of ids are alike. -/
  ids : IdSupply → IdSupply → Prop
  /-- Which ids are alike. -/
  use : UseId → UseId → Prop
  stop : Token
  stop' : Token
  /-- The tokens that follow in the second place only. -/
  behind : List Token
  /-- The errors recorded before in each place. -/
  earlier : List SyntaxError
  earlier' : List SyntaxError

namespace Placement

/-- Alike tokens have the same category and constant, and supplies that are alike hand out alike ids
and stay alike. -/
structure Lawful (A : Placement) : Prop where
  kind : ∀ t t', A.token t t' → t'.kind = t.kind
  literal : ∀ t t', A.token t t' → t'.literal = t.literal
  reported : ∀ t t', A.token t t' → A.reported t t'
  ends : A.behind = [] → A.reported A.stop A.stop'
  next : ∀ ids ids', A.ids ids ids' → A.use ids.next ids'.next
  take : ∀ ids ids', A.ids ids ids' → A.ids ids.take.2 ids'.take.2

variable (A : Placement)

def likeness : Likeness := ⟨False, A.token, A.use⟩

structure Near (s s' : Cursor) : Prop where
  rest : ∃ ts, List.Forall₂ A.token s.rest ts ∧ s'.rest = ts ++ A.behind
  errors : ∃ es es', s.errors = A.earlier ++ es ∧ s'.errors = A.earlier' ++ es' ∧
    List.Forall₂ (SyntaxError.Alike A.reported) es es'
  ids : A.ids s.ids s'.ids

/-- Where what stands next in the first place stands next in the second. -/
def Inside (s : Cursor) : Prop := A.behind = [] ∨ s.rest ≠ []

/-- What follows in the second place does not go on with an `if`. -/
def Closed : Prop := ∀ t ∈ A.behind.head?, t.kind ≠ .elseWord

section

variable {α β : Type}

/-- Alike outcomes. An error is reported at the token that stands next. -/
inductive SameOutcome (R : α → β → Prop) (t t' : Cursor) :
    Except SyntaxError α → Except SyntaxError β → Prop
  | ok {a : α} {b : β} (alike : R a b) : SameOutcome R t t' (.ok a) (.ok b)
  | error (fault : SyntaxFault) (reported : A.reported (t.peek A.stop) (t'.peek A.stop')) :
    SameOutcome R t t' (.error (.atToken (t.peek A.stop) fault))
      (.error (.atToken (t'.peek A.stop') fault))

structure Same {s s' : Cursor} {k k' : Nat} (R : α → β → Prop) (x : Step α s k)
    (x' : Step β s' k') : Prop where
  near : A.Near x.after x'.after
  outcome : A.SameOutcome R x.after x'.after x.outcome x'.outcome
  reaches : s.Reaches x.after

/-- The steps go alike if the first does not come to the end. -/
def Tracks {s s' : Cursor} {k k' : Nat} (R : α → β → Prop) (x : Step α s k)
    (x' : Step β s' k') : Prop := A.Inside x.after → A.Same R x x'

/-- The steps go alike also if the first succeeds at the end. -/
def Follows {s s' : Cursor} {k k' : Nat} (R : α → β → Prop) (x : Step α s k)
    (x' : Step β s' k') : Prop :=
  A.Inside x.after ∨ (∃ a, x.outcome = .ok a) ∧ A.Closed → A.Same R x x'

end

variable {A}

theorem Inside.of_size {s t : Cursor} (h : A.Inside t) (hsize : t.size ≤ s.size) : A.Inside s :=
  h.imp_right fun ht hs => by
    have hpos := List.length_pos_iff.2 ht
    rw [Cursor.size, Cursor.size, hs] at hsize
    exact Nat.not_lt_of_le hsize hpos

section

variable {α β γ δ : Type} {s s' : Cursor} {k k' : Nat} {R : α → β → Prop} {Q : γ → δ → Prop}
  {x : Step α s k} {x' : Step β s' k'}

theorem Follows.tracks (h : A.Follows R x x') : A.Tracks R x x' := fun hx => h (.inl hx)

theorem Same.follows (h : A.Same R x x') : A.Follows R x x' := fun _ => h

/-- It may be assumed that there is a next token. -/
theorem Tracks.of_inside (h : A.Inside s → A.Tracks R x x') : A.Tracks R x x' := fun hx =>
  h (hx.of_size x.size_le) hx

theorem Follows.of_inside {x : Step α s 1} (h : A.Inside s → A.Follows R x x') :
    A.Follows R x x' := by
  intro hx
  refine h ?_ hx
  rcases hx with hx | ⟨⟨a, ha⟩, -⟩
  · exact hx.of_size x.size_le
  · refine .inr fun hs => ?_
    have hlt := x.size_le_of_ok a ha
    rw [Cursor.size, Cursor.size, hs] at hlt
    exact Nat.not_succ_le_zero _ hlt

theorem Same.since {t t' : Cursor} {j j' : Nat} {h : t.size + j ≤ s.size}
    {h' : t'.size + j' ≤ s'.size} {x : Step α t k} {x' : Step β t' k'} (hs : s.Reaches t)
    (hx : A.Same R x x') : A.Same R (x.since h) (x'.since h') :=
  ⟨hx.near, hx.outcome, hs.trans hx.reaches⟩

theorem Tracks.since {t t' : Cursor} {j j' : Nat} {h : t.size + j ≤ s.size}
    {h' : t'.size + j' ≤ s'.size} {x : Step α t k} {x' : Step β t' k'} (hs : s.Reaches t)
    (hx : A.Tracks R x x') : A.Tracks R (x.since h) (x'.since h') := fun ha => (hx ha).since hs

theorem Tracks.further {t t' : Cursor} {h : t.size + 1 ≤ s.size} {h' : t'.size + 1 ≤ s'.size}
    {x : Step α t k} {x' : Step β t' k'} (hs : s.Reaches t) (hx : A.Tracks R x x') :
    A.Tracks R (x.further h) (x'.further h') := fun ha =>
  ⟨(hx ha).near, (hx ha).outcome, hs.trans (hx ha).reaches⟩

theorem Follows.since {t t' : Cursor} {j j' : Nat} {h : t.size + j ≤ s.size}
    {h' : t'.size + j' ≤ s'.size} {x : Step α t k} {x' : Step β t' k'} (hs : s.Reaches t)
    (hx : A.Follows R x x') : A.Follows R (x.since h) (x'.since h') := fun ha => (hx ha).since hs

theorem Follows.further {t t' : Cursor} {h : t.size + 1 ≤ s.size} {h' : t'.size + 1 ≤ s'.size}
    {x : Step α t k} {x' : Step β t' k'} (hs : s.Reaches t) (hx : A.Follows R x x') :
    A.Follows R (x.further h) (x'.further h') := fun ha =>
  ⟨(hx ha).near, (hx ha).outcome, hs.trans (hx ha).reaches⟩

end

section

variable {α β γ δ : Type} {s s' : Cursor} {i i' j j' : Nat} {R : α → β → Prop} {Q : γ → δ → Prop}
  {x : Step α s i} {x' : Step β s' i'} {f : α → (t : Cursor) → t.size + i ≤ s.size → Step γ t j}
  {f' : β → (t : Cursor) → t.size + i' ≤ s'.size → Step δ t j'}

/-- Where the first steps go alike, what follows them decides. -/
theorem Same.bind (hx : A.Same R x x')
    (hf : ∀ a b t t' h h', x.outcome = .ok a → x.after = t → R a b → A.Near t t' →
      A.Same Q (f a t h) (f' b t' h')) : A.Same Q (x.bind f) (x'.bind f') := by
  obtain ⟨r, t, h, hok⟩ := x
  obtain ⟨r', t', h', hok'⟩ := x'
  obtain ⟨hnear, (houtcome : A.SameOutcome R t t' r r'), hreaches⟩ := hx
  cases houtcome with
  | ok alike =>
    have hsame := hf _ _ t t' (hok _ rfl) (hok' _ rfl) rfl rfl alike hnear
    exact ⟨hsame.near, hsame.outcome, hreaches.trans hsame.reaches⟩
  | error fault reported => exact ⟨hnear, .error fault reported, hreaches⟩

theorem after_bind_of_ok {a : α} (ha : x.outcome = .ok a) :
    (x.bind f).after = (f a x.after (x.size_le_of_ok a ha)).after ∧
      (x.bind f).outcome = (f a x.after (x.size_le_of_ok a ha)).outcome := by
  obtain ⟨r, t, h, hok⟩ := x
  obtain rfl : r = .ok a := ha
  exact ⟨rfl, rfl⟩

theorem size_after_bind (x : Step α s i)
    (f : α → (t : Cursor) → t.size + i ≤ s.size → Step γ t j) :
    (x.bind f).after.size ≤ x.after.size := by
  obtain ⟨r, t, h, hok⟩ := x
  cases r with
  | error e => exact Nat.le_refl _
  | ok a => exact (f a t (hok a rfl)).size_le

theorem Tracks.bind (hx : A.Tracks R x x')
    (hf : ∀ a b t t' h h', R a b → A.Near t t' → A.Tracks Q (f a t h) (f' b t' h')) :
    A.Tracks Q (x.bind f) (x'.bind f') := by
  intro ha
  refine (hx (ha.of_size (size_after_bind x f))).bind fun a b t t' h h' hok ht halike hnear => ?_
  subst ht
  refine hf a b _ t' h h' halike hnear ?_
  rwa [(after_bind_of_ok hok).1] at ha

theorem ok_of_bind (h : ∃ c, (x.bind f).outcome = .ok c) : ∃ a, x.outcome = .ok a := by
  obtain ⟨r, t, h', hok⟩ := x
  obtain ⟨c, hc⟩ := h
  cases r with
  | error e => cases hc
  | ok a => exact ⟨a, rfl⟩

theorem Follows.bind (hx : A.Follows R x x')
    (hf : ∀ a b t t' h h', R a b → A.Near t t' → A.Follows Q (f a t h) (f' b t' h')) :
    A.Follows Q (x.bind f) (x'.bind f') := by
  intro ha
  have hxa := ha.imp (·.of_size (size_after_bind x f)) (And.imp_left ok_of_bind)
  refine (hx hxa).bind fun a b t t' h h' hok ht halike hnear => ?_
  subst ht
  refine hf a b _ t' h h' halike hnear ?_
  rwa [(after_bind_of_ok hok).1, (after_bind_of_ok hok).2] at ha

/-- What follows takes a token at least, so the first step has not come to the end. -/
theorem Tracks.close {f : α → (t : Cursor) → t.size + i ≤ s.size → Step γ t 1}
    (hx : A.Tracks R x x')
    (hf : ∀ a b t t' h h', R a b → A.Near t t' → A.Follows Q (f a t h) (f' b t' h')) :
    A.Follows Q (x.bind f) (x'.bind f') := by
  intro ha
  have hxa : A.Inside x.after := by
    rcases ha with ha | ⟨⟨c, hc⟩, -⟩
    · exact ha.of_size (size_after_bind x f)
    · obtain ⟨a, hok⟩ := ok_of_bind ⟨c, hc⟩
      rw [(after_bind_of_ok hok).2] at hc
      refine .inr fun hnil => ?_
      have hlt := (f a x.after (x.size_le_of_ok a hok)).size_le_of_ok c hc
      rw [Cursor.size, Cursor.size, hnil] at hlt
      exact Nat.not_succ_le_zero _ hlt
  refine (hx hxa).bind fun a b t t' h h' hok ht halike hnear => ?_
  subst ht
  refine hf a b _ t' h h' halike hnear ?_
  rwa [(after_bind_of_ok hok).1, (after_bind_of_ok hok).2] at ha

end

inductive Takes (A : Placement) (s s' : Cursor) (p : Kind → Bool) :
    Option s.Taken → Option s'.Taken → Prop
  | none (head : ∀ t ∈ s.rest.head?, p t.kind = false)
    (head' : ∀ t ∈ s'.rest.head?, p t.kind = false) : Takes A s s' p none none
  | some {token token' : Token} {t t' : Cursor} (ht : t.size + 1 ≤ s.size)
    (ht' : t'.size + 1 ≤ s'.size) (alike : A.token token token') (kind : p token.kind)
    (near : A.Near t t') (reaches : s.Reaches t) (head : s.rest = token :: t.rest)
    (head' : s'.rest = token' :: t'.rest) :
    Takes A s s' p (some ⟨token, t, ht⟩) (some ⟨token', t', ht'⟩)

section

variable {α β : Type} {s s' : Cursor} {R : α → β → Prop}

theorem Near.done (h : A.Near s s') {a : α} {b : β} (hab : R a b) :
    A.Same R (Step.done a s) (Step.done b s') := ⟨h, .ok hab, .refl s⟩

theorem Near.record (h : A.Near s s') {e e' : SyntaxError} (he : SyntaxError.Alike A.reported e e') :
    A.Near (s.record e) (s'.record e') := by
  obtain ⟨es, es', herrors, herrors', hes⟩ := h.errors
  refine ⟨h.rest, ⟨es ++ [e], es' ++ [e'], ?_, ?_, List.rel_append hes (.cons he .nil)⟩, h.ids⟩
  · rw [Cursor.record, herrors, List.append_assoc]
  · rw [Cursor.record, herrors', List.append_assoc]

theorem Near.renumber (h : A.Near s s') {ids ids' : IdSupply} (hids : A.ids ids ids') :
    A.Near { s with ids } { s' with ids := ids' } := ⟨h.rest, h.errors, hids⟩

theorem Near.rest_eq_nil (h : A.Near s s') (hs : A.Inside s) : s'.rest = [] ↔ s.rest = [] := by
  obtain ⟨ts, hts, hrest⟩ := h.rest
  obtain ⟨rest, ids, errors⟩ := s
  rw [hrest]
  cases hts with
  | nil => simp [hs.resolve_right fun hne => hne rfl]
  | cons ht _ => simp

variable (hA : A.Lawful)
include hA

theorem Near.peek (h : A.Near s s') (hs : A.Inside s) :
    A.reported (s.peek A.stop) (s'.peek A.stop') := by
  obtain ⟨ts, hts, hrest⟩ := h.rest
  obtain ⟨rest, ids, errors⟩ := s
  unfold Cursor.peek
  rw [hrest]
  cases hts with
  | nil =>
    have hbehind : A.behind = [] := hs.resolve_right fun hne => hne rfl
    rw [hbehind]
    exact hA.ends hbehind
  | cons ht _ => exact hA.reported _ _ ht

theorem Near.sees (h : A.Near s s') (hs : A.Inside s) (kind : Kind) :
    s'.sees kind = s.sees kind := by
  obtain ⟨ts, hts, hrest⟩ := h.rest
  obtain ⟨rest, ids, errors⟩ := s
  unfold Cursor.sees
  rw [hrest]
  cases hts with
  | nil =>
    rw [hs.resolve_right fun hne => hne rfl]
    rfl
  | cons ht _ => exact congrArg (fun k => decide (k = kind)) (hA.kind _ _ ht)

theorem Near.fail {k k' : Nat} (h : A.Near s s') (hs : A.Inside s) (fault : SyntaxFault) :
    A.Same R (Step.fail (.atToken (s.peek A.stop) fault) s : Step α s k)
      (Step.fail (.atToken (s'.peek A.stop') fault) s' : Step β s' k') :=
  ⟨h, .error fault (h.peek hA hs), .refl s⟩

theorem Near.take? (h : A.Near s s') (hs : A.Inside s) (p : Kind → Bool) :
    Takes A s s' p (s.take? p) (s'.take? p) := by
  obtain ⟨ts, hts, hrest⟩ := h.rest
  obtain ⟨rest, ids, errors⟩ := s
  obtain ⟨rest', ids', errors'⟩ := s'
  cases hrest
  cases hts with
  | nil =>
    have hbehind : A.behind = [] := hs.resolve_right fun hne => hne rfl
    rw [hbehind]
    exact .none nofun nofun
  | @cons t t' us us' ht hus =>
    have hk := hA.kind _ _ ht
    change Takes A _ _ p (if p t.kind then some ⟨t, ⟨us, ids, errors⟩, _⟩ else none)
      (if p t'.kind then some ⟨t', ⟨us' ++ A.behind, ids', errors'⟩, _⟩ else none)
    rw [hk]
    split
    · next hp =>
      exact .some _ _ ht hp ⟨⟨us', hus, rfl⟩, h.errors, h.ids⟩
        ⟨List.suffix_cons t us, List.prefix_refl _⟩ rfl rfl
    · next hp =>
      have hp' : p t.kind = false := Bool.eq_false_iff.2 hp
      refine .none ?_ ?_
      · rintro _ ⟨⟩
        exact hp'
      · rintro _ ⟨⟩
        rw [hk]
        exact hp'

theorem Near.expect (h : A.Near s s') (kind : Kind) (fault : SyntaxFault) :
    A.Follows A.token (Step.expect A.stop kind fault s) (Step.expect A.stop' kind fault s') := by
  refine .of_inside fun hs => ?_
  have htake := h.take? hA hs (· = kind)
  unfold Step.expect
  generalize s.take? _ = u, s'.take? _ = u' at htake ⊢
  cases htake with
  | none => exact (h.fail hA hs fault).follows
  | some ht ht' alike kind near reaches => exact .since reaches (near.done alike).follows

theorem Near.checkArity (h : A.Near s s') (hs : A.Inside s) (count : Nat) (fault : SyntaxFault) :
    A.Near (Grammar.checkArity A.stop count fault s) (Grammar.checkArity A.stop' count fault s') ∧
      s.Reaches (Grammar.checkArity A.stop count fault s) := by
  unfold Grammar.checkArity
  split
  · exact ⟨h.record (.atToken fault (h.peek hA hs)), (Cursor.Reaches.refl s).record _⟩
  · exact ⟨h, .refl s⟩

end

end Placement
end Lox
