import Lox.Diagnostic
import Lox.Tree

/-! Positions in a token list, and parsing steps.
The result of a step carries the fact that it never gives tokens back, and that it takes at
least so many if it succeeds: it is what makes the recursion of the grammar end. -/
namespace Lox

/-- Where parsing stands: the tokens before the end of input, the ids still free, and the errors
recorded so far. -/
structure Cursor where
  rest : List Token
  ids : IdSupply
  errors : List SyntaxError

namespace Cursor

def size (s : Cursor) : Nat := s.rest.length

def record (s : Cursor) (e : SyntaxError) : Cursor := { s with errors := s.errors ++ [e] }

/-- The token that stands next, `stop` at the end of input. -/
def peek (stop : Token) (s : Cursor) : Token := s.rest.headD stop

def sees (s : Cursor) (kind : Kind) : Bool :=
  match s.rest with
  | t :: _ => t.kind = kind
  | [] => false

structure Taken (s : Cursor) where
  token : Token
  after : Cursor
  size_lt : after.size + 1 ≤ s.size

def take? (s : Cursor) (p : Kind → Bool) : Option s.Taken :=
  match h : s.rest with
  | t :: ts => if p t.kind then some ⟨t, { s with rest := ts }, by simp [size, h]⟩ else none
  | [] => none

end Cursor

/-- The outcome of a parsing step that starts at `s`. Success takes at least `least` tokens. -/
structure Step (α : Type) (s : Cursor) (least : Nat) where
  outcome : Except SyntaxError α
  after : Cursor
  size_le : after.size ≤ s.size
  size_le_of_ok : ∀ a, outcome = .ok a → after.size + least ≤ s.size

namespace Step

variable {α β : Type} {s t : Cursor} {j k : Nat}

def yield (a : α) (t : Cursor) (h : t.size ≤ s.size) : Step α s 0 := ⟨.ok a, t, h, fun _ _ => h⟩

def done (a : α) (s : Cursor) : Step α s 0 := yield a s (Nat.le_refl _)

def fail (e : SyntaxError) (s : Cursor) : Step α s k := ⟨.error e, s, Nat.le_refl _, nofun⟩

/-- Count a step from an earlier position. -/
def since (h : t.size + j ≤ s.size) (x : Step α t k) : Step α s j :=
  ⟨x.outcome, x.after, by have := x.size_le; omega, by
    intro a ha
    have := x.size_le_of_ok a ha
    omega⟩

/-- Do a step after a token has been taken. -/
def past (h : t.size + 1 ≤ s.size) (x : Step α t k) : Step α s 1 := x.since h

/-- Forget that a step takes a token. -/
def loosen (x : Step α s 1) : Step α s 0 := x.since (Nat.le_refl s.size)

/-- Do a step after a token has been taken, where no token has to be taken. -/
def further (h : t.size + 1 ≤ s.size) (x : Step α t k) : Step α s 0 := (x.past h).loosen

def bind (x : Step α s j) (f : α → (t : Cursor) → t.size + j ≤ s.size → Step β t k) :
    Step β s j :=
  match x with
  | ⟨.error e, t, h, _⟩ => ⟨.error e, t, h, nofun⟩
  | ⟨.ok a, t, _, h⟩ => (f a t (h a rfl)).since (h a rfl)

/-- Take a token of this category, or fail at the token that stands in its place. -/
def expect (stop : Token) (kind : Kind) (fault : SyntaxFault) (s : Cursor) : Step Token s 1 :=
  match s.take? (· = kind) with
  | some ⟨token, t, ht⟩ => .past ht (done token t)
  | none => fail (.atToken (s.peek stop) fault) s

end Step
end Lox
