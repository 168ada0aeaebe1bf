import Lox.Number.Text

/-! Tokens: the vocabulary that scanning produces and parsing consumes. -/
namespace Lox

inductive Kind
  | leftParen | rightParen | leftBrace | rightBrace | comma | dot | minus | plus | semicolon
  | slash | star
  | bang | bangEqual | equal | equalEqual | greater | greaterEqual | less | lessEqual
  | identifier | string | number
  | andWord | classWord | elseWord | falseWord | forWord | funWord | ifWord | nilWord | orWord
  | printWord | returnWord | superWord | thisWord | trueWord | varWord | whileWord
  | eof
  deriving DecidableEq, Repr, Inhabited

namespace Kind

def all : List Kind :=
  [leftParen, rightParen, leftBrace, rightBrace, comma, dot, minus, plus, semicolon, slash, star,
   bang, bangEqual, equal, equalEqual, greater, greaterEqual, less, lessEqual, identifier, string,
   number, andWord, classWord, elseWord, falseWord, forWord, funWord, ifWord, nilWord, orWord,
   printWord, returnWord, superWord, thisWord, trueWord, varWord, whileWord, eof]

theorem mem_all (k : Kind) : k ∈ all := by cases k <;> decide

def name : Kind → String
  | leftParen => "LeftParen" | rightParen => "RightParen" | leftBrace => "LeftBrace"
  | rightBrace => "RightBrace" | comma => "Comma" | dot => "Dot" | minus => "Minus"
  | plus => "Plus" | semicolon => "Semicolon" | slash => "Slash" | star => "Star"
  | bang => "Bang" | bangEqual => "BangEqual" | equal => "Equal" | equalEqual => "EqualEqual"
  | greater => "Greater" | greaterEqual => "GreaterEqual" | less => "Less"
  | lessEqual => "LessEqual" | identifier => "Identifier" | string => "String"
  | number => "Number" | andWord => "And" | classWord => "Class" | elseWord => "Else"
  | falseWord => "False" | forWord => "For" | funWord => "Fun" | ifWord => "If"
  | nilWord => "Nil" | orWord => "Or" | printWord => "Print" | returnWord => "Return"
  | superWord => "Super" | thisWord => "This" | trueWord => "True" | varWord => "Var"
  | whileWord => "While" | eof => "Eof"

def ofName? (s : String) : Option Kind := all.find? (·.name = s)

def words : List (String × Kind) :=
  [("and", andWord), ("class", classWord), ("else", elseWord), ("false", falseWord),
   ("for", forWord), ("fun", funWord), ("if", ifWord), ("nil", nilWord), ("or", orWord),
   ("print", printWord), ("return", returnWord), ("super", superWord), ("this", thisWord),
   ("true", trueWord), ("var", varWord), ("while", whileWord)]

def ofWord? (text : String) : Option Kind := words.lookup text

end Kind

inductive Literal
  | nil
  | bool (b : Bool)
  | number (x : Float)
  | string (s : String)
  deriving DecidableEq

/-- A lexeme with its category, its constant if it denotes one, and the line where it ends. -/
structure Token where
  kind : Kind
  lexeme : String
  literal : Option Literal
  line : UInt32
  deriving DecidableEq

namespace Token

/-- One line of a listing: category, lexeme, and the constant of a numeral or string. -/
def listing (t : Token) : String :=
  let head := t.kind.name ++ " " ++ t.lexeme
  match t.literal with
  | some (.number x) => head ++ " " ++ Number.text x
  | some (.string s) => head ++ " " ++ s
  | _ => head

def atEnd (line : UInt32) : Token := ⟨.eof, "", none, line⟩

end Token
end Lox
