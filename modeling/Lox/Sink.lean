import Lox.Diagnostic

/-! The sink that printed text goes to. -/
namespace Lox

structure Sink where
  /-- The text received so far. -/
  text : String
  /-- After which texts the sink is full. -/
  full : String → Bool
  /-- What a full sink says of a text that it refuses. -/
  refusal : String

namespace Sink

def unlimited : Sink := ⟨"", fun _ => false, ""⟩

/-- A sink that is full once it holds so many line ends. -/
def ofLineLimit (lines : Nat) : Sink :=
  ⟨"", fun t => lines ≤ t.toList.count '\n', "sink full"⟩

/-- A full sink refuses every text but the empty one. -/
def refuses (k : Sink) (s : String) : Bool := !s.isEmpty && k.full k.text

def error (k : Sink) : RuntimeError := @RuntimeError.output k.refusal

def receive (k : Sink) (s : String) : Sink := { k with text := k.text ++ s }

/-- What the sink has received since it had received only `before`. -/
def since (k : Sink) (before : Sink) : String :=
  .ofList (k.text.toList.drop before.text.length)

end Sink
end Lox
