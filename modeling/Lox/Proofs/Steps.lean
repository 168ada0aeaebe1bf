import Lox.Grammar.Statement

/-! What parsing steps ensure.
A postcondition of a step speaks of its outcome and of the position where it ends. It is proved of a
step from the postconditions of the steps that it is made of. -/
namespace Lox

namespace Cursor

variable {s t : Cursor} {p : Kind → Bool} {token : Token} {h : t.size + 1 ≤ s.size}

/-- A token that is taken stood next, and nothing else has changed. -/
theorem take?_eq_some (hs : s.take? p = some ⟨token, t, h⟩) :
    s.rest = token :: t.rest ∧ p token.kind ∧ t = { s with rest := t.rest } := by
  unfold take? at hs
  split at hs
  · next u ts hr =>
    split at hs
    · next hp =>
      injection hs with hs
      injection hs with hu ht
      subst hu ht
      exact ⟨hr, hp, rfl⟩
    · cases hs
  · cases hs

theorem take?_eq_none (hs : s.take? p = none) {u : Token} {us : List Token}
    (hr : s.rest = u :: us) : p u.kind = false := by
  unfold take? at hs
  split at hs
  · next v vs hv =>
    rw [hv] at hr
    injection hr with hu
    subst hu
    split at hs
    · cases hs
    · next hp => simpa using hp
  · next hv => simp [hv] at hr

end Cursor

namespace Step

variable {α β : Type} {s t : Cursor} {j k : Nat}

def Ensures (x : Step α s k) (Q : Except SyntaxError α → Cursor → Prop) : Prop :=
  Q x.outcome x.after

variable {Q : Except SyntaxError α → Cursor → Prop} {R : Except SyntaxError β → Cursor → Prop}

theorem Ensures.mono {Q' : Except SyntaxError α → Cursor → Prop} {x : Step α s k}
    (hx : x.Ensures Q) (h : ∀ r t, Q r t → Q' r t) : x.Ensures Q' := h _ _ hx

theorem Ensures.bind {x : Step α s j} {f : α → (t : Cursor) → t.size + j ≤ s.size → Step β t k}
    (hx : x.Ensures Q) (herror : ∀ e t, Q (.error e) t → R (.error e) t)
    (hok : ∀ a t h, Q (.ok a) t → (f a t h).Ensures R) : (x.bind f).Ensures R := by
  obtain ⟨r, t, h, h'⟩ := x
  cases r with
  | error e => exact herror e t hx
  | ok a => exact hok a t (h' a rfl) hx

theorem Ensures.expect {stop : Token} {kind : Kind} {fault : SyntaxFault}
    {Q : Except SyntaxError Token → Cursor → Prop} (herror : ∀ e, Q (.error e) s)
    (hok : ∀ token ts, s.rest = token :: ts → token.kind = kind → Q (.ok token) { s with rest := ts }) :
    (Step.expect stop kind fault s).Ensures Q := by
  unfold Step.expect
  split
  · next token t ht h =>
    obtain ⟨hr, hk, heq⟩ := Cursor.take?_eq_some h
    have hq := hok token t.rest hr (of_decide_eq_true hk)
    rw [← heq] at hq
    exact hq
  · exact herror _

end Step
end Lox
