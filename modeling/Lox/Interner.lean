/-! Interning: symbols that stand for texts and compare without looking at them. -/
namespace Lox

/-- A text with its identity: the interner it came from and its number there. -/
structure Symbol where
  owner : Nat
  number : Nat
  text : String
  deriving Repr

/-- Identity decides, not the text. -/
def Symbol.same (a b : Symbol) : Bool := a.owner == b.owner && a.number == b.number

/-- The texts that have been requested, each once, numbered from zero. -/
structure Interner where
  owner : Nat
  texts : List String
  deriving Repr

namespace Interner

def empty (owner : Nat) : Interner := ⟨owner, []⟩

def size (i : Interner) : Nat := i.texts.length

/-- The symbol of a text, a new one only if the text is new. -/
def symbol (i : Interner) (text : String) : Symbol × Interner :=
  match i.texts.findIdx? (· == text) with
  | some n => (⟨i.owner, n, text⟩, i)
  | none => (⟨i.owner, i.texts.length, text⟩, { i with texts := i.texts ++ [text] })

end Interner
end Lox
