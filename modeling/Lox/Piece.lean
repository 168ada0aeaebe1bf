import Lox.Diagnostic

/-! Scanning: a source text is cut into pieces, longest match first.
`pieces` tiles the text (`text_pieces`); `scan` keeps the pieces that are tokens or errors,
each with the line on which it ends. -/
namespace Lox

/-- A stretch of source text that scanning takes in one step. -/
inductive Piece
  | blank (c : Char)
  | comment (body : List Char)
  | mark (kind : Kind) (text : List Char)
  | string (body : List Char)
  | numeral (whole fraction : List Char)
  | word (text : List Char)
  | stray (c : Char)
  | unterminated (body : List Char)
  deriving DecidableEq, Repr

/-- Marks that no following character extends. -/
def Kind.ofMark? : Char → Option Kind
  | '(' => some .leftParen
  | ')' => some .rightParen
  | '\x7b' => some .leftBrace
  | '\x7d' => some .rightBrace
  | ',' => some .comma
  | '.' => some .dot
  | '-' => some .minus
  | '+' => some .plus
  | ';' => some .semicolon
  | '*' => some .star
  | _ => none

/-- Marks that a following `=` extends: the category alone and the one with it. -/
def Kind.ofExtensible? : Char → Option (Kind × Kind)
  | '!' => some (.bang, .bangEqual)
  | '=' => some (.equal, .equalEqual)
  | '<' => some (.less, .lessEqual)
  | '>' => some (.greater, .greaterEqual)
  | _ => none

def isBlank (c : Char) : Bool := c = ' ' || c = '\t' || c = '\r' || c = '\n'

def startsWord (c : Char) : Bool := c.isAlpha || c = '_'

def continuesWord (c : Char) : Bool := c.isAlphanum || c = '_'

namespace Piece

def text : Piece → List Char
  | blank c => [c]
  | comment body => '/' :: '/' :: body
  | mark _ text => text
  | string body => '"' :: body ++ ['"']
  | numeral whole [] => whole
  | numeral whole fraction => whole ++ '.' :: fraction
  | word text => text
  | stray c => [c]
  | unterminated body => '"' :: body

/-- A point belongs to a numeral only if a digit follows it. -/
def splitFraction : List Char → List Char × List Char
  | '.' :: d :: cs =>
    if d.isDigit then (d :: cs.takeWhile Char.isDigit, cs.dropWhile Char.isDigit)
    else ([], '.' :: d :: cs)
  | cs => ([], cs)

/-- The longest piece that starts with `c`, and the text after it. -/
def next (c : Char) (cs : List Char) : Piece × List Char :=
  if isBlank c then (blank c, cs)
  else if c = '"' then
    match cs.dropWhile (· != '"') with
    | [] => (unterminated cs, [])
    | _ :: rest => (string (cs.takeWhile (· != '"')), rest)
  else if c = '/' then
    match cs with
    | '/' :: rest => (comment (rest.takeWhile (· != '\n')), rest.dropWhile (· != '\n'))
    | _ => (mark .slash [c], cs)
  else if c.isDigit then
    let (fraction, rest) := splitFraction (cs.dropWhile Char.isDigit)
    (numeral (c :: cs.takeWhile Char.isDigit) fraction, rest)
  else if startsWord c then
    (word (c :: cs.takeWhile continuesWord), cs.dropWhile continuesWord)
  else
    match Kind.ofMark? c, Kind.ofExtensible? c, cs with
    | some kind, _, _ => (mark kind [c], cs)
    | none, some (_, extended), '=' :: rest => (mark extended [c, '='], rest)
    | none, some (alone, _), _ => (mark alone [c], cs)
    | none, none, _ => (stray c, cs)

theorem text_splitFraction (whole cs : List Char) :
    (numeral whole (splitFraction cs).1).text ++ (splitFraction cs).2 = whole ++ cs := by
  unfold splitFraction
  split
  · split <;> simp [text, List.takeWhile_append_dropWhile]
  · simp [text]

theorem text_next (c : Char) (cs : List Char) :
    (next c cs).1.text ++ (next c cs).2 = c :: cs := by
  unfold next
  split
  · rfl
  split
  · next hq =>
    split
    · simp [text, hq]
    · next q rest h =>
      have hd : q = '"' := by
        have hn : cs.dropWhile (· != '"') ≠ [] := by rw [h]; exact List.cons_ne_nil q rest
        have := List.head_dropWhile_not (· != '"') hn
        simpa [h] using this
      have hs := List.takeWhile_append_dropWhile (p := (· != '"')) (l := cs)
      rw [h, hd] at hs
      simp [text, hq, hs]
  split
  · next hs =>
    split
    · simp [text, hs, List.takeWhile_append_dropWhile]
    · rfl
  split
  · simp [text_splitFraction, List.takeWhile_append_dropWhile]
  split
  · simp [text, List.takeWhile_append_dropWhile]
  · split <;> simp [text]

theorem text_length_pos (c : Char) (cs : List Char) : 0 < (next c cs).1.text.length := by
  have numeral_pos (d : Char) (ds fraction : List Char) :
      0 < (numeral (d :: ds) fraction).text.length := by cases fraction <;> simp [text]
  unfold next
  repeat' split
  all_goals first
    | exact numeral_pos _ _ _
    | simp [text]

theorem length_next_le (c : Char) (cs : List Char) : (next c cs).2.length ≤ cs.length := by
  have h := congrArg List.length (text_next c cs)
  have := text_length_pos c cs
  simp only [List.length_append, List.length_cons] at h
  omega

end Piece

def pieces : List Char → List Piece
  | [] => []
  | c :: cs => (Piece.next c cs).1 :: pieces (Piece.next c cs).2
termination_by cs => cs.length
decreasing_by simpa using Nat.lt_succ_of_le (Piece.length_next_le c cs)

theorem text_pieces (cs : List Char) : (pieces cs).flatMap Piece.text = cs := by
  fun_induction pieces cs with
  | case1 => rfl
  | case2 c cs ih => rw [List.flatMap_cons, ih, Piece.text_next]

namespace Piece

def newlines (p : Piece) : Nat := p.text.count '\n'

def content? : Piece → Option (Kind × Option Literal)
  | mark kind _ => some (kind, none)
  | string body => some (.string, some (.string (.ofList body)))
  | numeral whole fraction => some (.number, some (.number (Number.ofDigits whole fraction)))
  | word text => some ((Kind.ofWord? (.ofList text)).getD .identifier, none)
  | _ => none

def fault? : Piece → Option SyntaxFault
  | stray _ => some .unexpectedCharacter
  | unterminated _ => some .unterminatedString
  | _ => none

def token? (p : Piece) (line : UInt32) : Option Token :=
  p.content?.map fun (kind, literal) => ⟨kind, .ofList p.text, literal, line⟩

def error? (p : Piece) (line : UInt32) : Option SyntaxError :=
  p.fault?.map (.atLine line)

end Piece

/-- Each piece with the line on which it ends, the text starting on `line`. -/
def located (line : UInt32) : List Piece → List (Piece × UInt32)
  | [] => []
  | p :: ps =>
    let line := line + .ofNat p.newlines
    (p, line) :: located line ps

def lastLine (line : UInt32) : List Piece → UInt32
  | [] => line
  | p :: ps => lastLine (line + .ofNat p.newlines) ps

structure Scan where
  tokens : List Token
  errors : List SyntaxError

/-- Bad input is reported and skipped; scanning always reaches the end. -/
def scan (source : String) : Scan :=
  let ps := pieces source.toList
  let ls := located 1 ps
  { tokens := ls.filterMap (fun (p, line) => p.token? line) ++ [.atEnd (lastLine 1 ps)]
    errors := ls.filterMap fun (p, line) => p.error? line }

end Lox
