import Lox.Token

/-! Diagnostics: what can go wrong in a program text and in a run, where, and in which words. -/
namespace Lox

inductive SyntaxFault
  | unexpectedCharacter | unterminatedString
  | expectExpression | parenAfterExpression | parenAfterArguments | tooManyArguments
  | invalidAssignmentTarget
  | semicolonAfterValue | semicolonAfterExpression | semicolonAfterReturn
  | variableName | semicolonAfterVariable
  | functionName | parenAfterFunctionName | parameterName | tooManyParameters
  | parenAfterParameters | braceBeforeBody | braceAfterBlock
  | parenAfterIf | parenAfterIfCondition | parenAfterWhile | parenAfterCondition
  | parenAfterFor | semicolonAfterLoopCondition | parenAfterForClauses
  | returnAtTopLevel | ownInitializer
  deriving DecidableEq, Repr

namespace SyntaxFault

def message : SyntaxFault → String
  | unexpectedCharacter => "Unexpected character."
  | unterminatedString => "Unterminated string."
  | expectExpression => "Expect expression."
  | parenAfterExpression => "Expect ')' after expression."
  | parenAfterArguments => "Expect ')' after arguments."
  | tooManyArguments => "Can't have more than 255 arguments."
  | invalidAssignmentTarget => "Invalid assignment target."
  | semicolonAfterValue => "Expect ';' after value."
  | semicolonAfterExpression => "Expect ';' after expression."
  | semicolonAfterReturn => "Expect ';' after return value."
  | variableName => "Expect variable name."
  | semicolonAfterVariable => "Expect ';' after variable declaration."
  | functionName => "Expect function name."
  | parenAfterFunctionName => "Expect '(' after function name."
  | parameterName => "Expect parameter name."
  | tooManyParameters => "Can't have more than 255 parameters."
  | parenAfterParameters => "Expect ')' after parameters."
  | braceBeforeBody => "Expect '\x7b' before function body."
  | braceAfterBlock => "Expect '\x7d' after block."
  | parenAfterIf => "Expect '(' after 'if'."
  | parenAfterIfCondition => "Expect ')' after if condition."
  | parenAfterWhile => "Expect '(' after 'while'."
  | parenAfterCondition => "Expect ')' after condition."
  | parenAfterFor => "Expect '(' after 'for'."
  | semicolonAfterLoopCondition => "Expect ';' after loop condition."
  | parenAfterForClauses => "Expect ')' after for clauses."
  | returnAtTopLevel => "Can't return from top-level code."
  | ownInitializer => "Can't read local variable in its own initializer."

end SyntaxFault

inductive Place
  | line
  | inputEnd
  | lexeme (text : String)
  deriving DecidableEq, Repr

def Place.text : Place → String
  | line => ""
  | inputEnd => " at end"
  | lexeme l => " at '" ++ l ++ "'"

structure SyntaxError where
  line : UInt32
  place : Place
  fault : SyntaxFault
  deriving DecidableEq, Repr

namespace SyntaxError

def atLine (line : UInt32) (fault : SyntaxFault) : SyntaxError := ⟨line, .line, fault⟩

def atToken (t : Token) (fault : SyntaxFault) : SyntaxError :=
  ⟨t.line, if t.kind = .eof then .inputEnd else .lexeme t.lexeme, fault⟩

def text (e : SyntaxError) : String :=
  "[line " ++ toString e.line.toNat ++ "] Error" ++ e.place.text ++ ": " ++ e.fault.message

end SyntaxError

inductive RuntimeFault
  | numberOperand | numberOperands | addOperands | divisionByZero
  | undefinedVariable (name : String)
  | notCallable
  | arity (expected got : Nat)
  deriving DecidableEq, Repr

def RuntimeFault.message : RuntimeFault → String
  | numberOperand => "Oprand must be a number."
  | numberOperands => "Oprands must be numbers."
  | addOperands => "Operands must be two numbers or two strings."
  | divisionByZero => "Right oprand must not be zero."
  | undefinedVariable name => "Undefined variable '" ++ name ++ "'."
  | notCallable => "Can only call functions."
  | arity expected got =>
    "Expected " ++ toString expected ++ " arguments but got " ++ toString got ++ "."

/-- An error that stops a run: the program's own fault, or output that was refused. -/
inductive RuntimeError
  | fault (line : UInt32) (cause : RuntimeFault)
  /-- What was wrong is told in the words of whatever takes the output. -/
  | output {words : String}
  deriving DecidableEq, Repr

namespace RuntimeError

def line? : RuntimeError → Option UInt32
  | fault line _ => some line
  | output => none

def message : RuntimeError → String
  | fault _ cause => cause.message
  | @output words => "failed to write output: " ++ words

def text : RuntimeError → String
  | fault line cause => cause.message ++ "\n[line " ++ toString line.toNat ++ "]"
  | @output words => (@output words).message

end RuntimeError

/-- Texts on lines of their own, the last line unended. -/
def joinLines (texts : List String) : String := "\n".intercalate texts

end Lox
