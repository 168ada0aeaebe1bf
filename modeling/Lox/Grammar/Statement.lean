import Lox.Grammar.Expression

/-! The grammar of statements and programs.
An error inside a declaration is recorded, the rest of the declaration is skipped, and parsing
goes on, so that one mistake does not hide another (`recover`). -/
namespace Lox
namespace Grammar

def startsStatement (k : Kind) : Bool :=
  k = .classWord || k = .funWord || k = .varWord || k = .forWord || k = .ifWord ||
    k = .whileWord || k = .printWord || k = .returnWord

/-- Tokens from the likely start of the next statement on. At least one token is skipped; skipping
stops after a semicolon and before a keyword that starts a statement. -/
def synchronize : List Token → List Token
  | [] => []
  | t :: ts =>
    if t.kind = .semicolon ∨ (ts.head?.any fun u => startsStatement u.kind) then ts
    else synchronize ts

theorem length_synchronize_le (ts : List Token) : (synchronize ts).length ≤ ts.length - 1 := by
  induction ts with
  | nil => simp [synchronize]
  | cons t ts ih =>
    unfold synchronize
    split
    · simp
    · simp only [List.length_cons]
      omega

/-- Record an error and resume behind it. The step never fails, and always gets on. -/
def recover {α : Type} {s : Cursor} (hs : s.rest ≠ []) (x : Step α s 1) : Step (Option α) s 1 :=
  match x with
  | ⟨.ok a, t, ht, h⟩ => ⟨.ok (some a), t, ht, fun _ _ => h a rfl⟩
  | ⟨.error e, t, ht, _⟩ =>
    have h : (synchronize t.rest).length + 1 ≤ s.size := by
      have := length_synchronize_le t.rest
      have := List.length_pos_iff.2 hs
      simp only [Cursor.size] at *
      omega
    ⟨.ok none, { t.record e with rest := synchronize t.rest }, Nat.le_of_lt h, fun _ _ => h⟩

variable (stop : Token)

def variableDeclaration (s : Cursor) : Step Stmt s 1 :=
  (Step.expect stop .identifier .variableName s).bind fun name t _ =>
    match t.take? (· = .equal) with
    | none => (Step.expect stop .semicolon .semicolonAfterVariable t).bind fun _ u _ =>
        .done (.var name none) u
    | some ⟨_, t', ht⟩ => .past ht <|
      (expression stop t').bind fun init u _ =>
        (Step.expect stop .semicolon .semicolonAfterVariable u).bind fun _ v _ =>
          .done (.var name (some init)) v

def expressionStatement (s : Cursor) : Step Stmt s 1 :=
  (expression stop s).bind fun e t _ =>
    (Step.expect stop .semicolon .semicolonAfterExpression t).bind fun _ u _ =>
      .done (.expression e) u

def parameterList (count : Nat) (s : Cursor) : Step (List Token) s 0 :=
  have hs := size_checkArity stop count .tooManyParameters s
  .since (Nat.le_of_eq hs) <|
    (Step.expect stop .identifier .parameterName
        (checkArity stop count .tooManyParameters s)).bind fun name t _ =>
      match t.take? (· = .comma) with
      | none => .done [name] t
      | some ⟨_, u, hu⟩ => .further hu <|
        (parameterList (count + 1) u).bind fun names v _ => .done (name :: names) v
termination_by s.size

def parameters (s : Cursor) : Step (List Token) s 0 :=
  if s.sees .rightParen then .done [] s else parameterList stop 0 s

def optionalExpression (absent : Kind) (s : Cursor) : Step (Option Expr) s 0 :=
  if s.sees absent then .done none s
  else .loosen <| (expression stop s).bind fun e t _ => .done (some e) t

/-- The first clause of a `for` header, with its semicolon. -/
def loopInitializer (s : Cursor) : Step (Option Stmt) s 1 :=
  match s.take? (· = .semicolon) with
  | some ⟨_, t, ht⟩ => .past ht (.done none t)
  | none =>
    match s.take? (· = .varWord) with
    | some ⟨_, t, ht⟩ => .past ht <|
      (variableDeclaration stop t).bind fun init u _ => .done (some init) u
    | none => (expressionStatement stop s).bind fun init t _ => .done (some init) t

mutual

def declaration (s : Cursor) : Step Stmt s 1 :=
  match s.take? (· = .varWord) with
  | some ⟨_, t, ht⟩ => .past ht (variableDeclaration stop t)
  | none =>
    match s.take? (· = .funWord) with
    | some ⟨_, t, ht⟩ => .past ht (functionDeclaration t)
    | none => statement s
termination_by (s.size, 1)

def functionDeclaration (s : Cursor) : Step Stmt s 1 :=
  (Step.expect stop .identifier .functionName s).bind fun name t _ =>
    (Step.expect stop .leftParen .parenAfterFunctionName t).bind fun _ u _ =>
      (parameters stop u).bind fun params v _ =>
        (Step.expect stop .rightParen .parenAfterParameters v).bind fun _ w _ =>
          (Step.expect stop .leftBrace .braceBeforeBody w).bind fun _ x _ =>
            (block x).bind fun body y _ => .done (.function name params body) y
termination_by (s.size, 0)

def statement (s : Cursor) : Step Stmt s 1 :=
  match s.take? (fun _ => true) with
  | none => expressionStatement stop s
  | some ⟨token, t, ht⟩ =>
    match token.kind with
    | .printWord => .past ht <|
      (expression stop t).bind fun e u _ =>
        (Step.expect stop .semicolon .semicolonAfterValue u).bind fun _ v _ => .done (.print e) v
    | .leftBrace => .past ht <| (block t).bind fun body u _ => .done (.block body) u
    | .ifWord => .past ht (ifStatement t)
    | .whileWord => .past ht <|
      (Step.expect stop .leftParen .parenAfterWhile t).bind fun _ u _ =>
        (expression stop u).bind fun condition v _ =>
          (Step.expect stop .rightParen .parenAfterCondition v).bind fun _ w _ =>
            (statement w).bind fun body x _ => .done (.loop condition body) x
    | .forWord => .past ht (forStatement t)
    | .returnWord => .past ht <|
      (optionalExpression stop .semicolon t).bind fun value u _ =>
        (Step.expect stop .semicolon .semicolonAfterReturn u).bind fun _ v _ =>
          .done (.ret token value) v
    | _ => expressionStatement stop s
termination_by (s.size, 0)

/-- After `if`. An `else` belongs to the nearest `if` that can take it. -/
def ifStatement (s : Cursor) : Step Stmt s 1 :=
  (Step.expect stop .leftParen .parenAfterIf s).bind fun _ t _ =>
    (expression stop t).bind fun condition u _ =>
      (Step.expect stop .rightParen .parenAfterIfCondition u).bind fun _ v _ =>
        (statement v).bind fun consequent w _ =>
          match w.take? (· = .elseWord) with
          | none => .done (.branch condition consequent none) w
          | some ⟨_, x, hx⟩ => .further hx <|
            (statement x).bind fun alternative y _ =>
              .done (.branch condition consequent (some alternative)) y
termination_by (s.size, 0)

def forStatement (s : Cursor) : Step Stmt s 1 :=
  (Step.expect stop .leftParen .parenAfterFor s).bind fun _ t _ =>
    (loopInitializer stop t).bind fun init u _ =>
      (optionalExpression stop .semicolon u).bind fun condition v _ =>
        (Step.expect stop .semicolon .semicolonAfterLoopCondition v).bind fun _ w _ =>
          (optionalExpression stop .rightParen w).bind fun increment x _ =>
            (Step.expect stop .rightParen .parenAfterForClauses x).bind fun _ y _ =>
              (statement y).bind fun body z _ =>
                .done (.forLoop init condition increment body) z
termination_by (s.size, 0)

def block (s : Cursor) : Step (List Stmt) s 0 :=
  (declarations s).bind fun body t _ =>
    (Step.expect stop .rightBrace .braceAfterBlock t).bind fun _ u _ => .done body u
termination_by (s.size, 3)

def declarations (s : Cursor) : Step (List Stmt) s 0 :=
  if h : s.rest = [] ∨ s.sees .rightBrace then .done [] s
  else .loosen <|
    (recover (fun hs => h (.inl hs)) (declaration s)).bind fun d t _ =>
      (declarations t).bind fun ds u _ => .done (d.toList ++ ds) u
termination_by (s.size, 2)

end

def program (s : Cursor) : Step Program s 0 :=
  if h : s.rest = [] then .done [] s
  else .loosen <|
    (recover h (declaration stop s)).bind fun d t _ =>
      (program t).bind fun ds u _ => .done (d.toList ++ ds) u
termination_by s.size

end Grammar

/-- The program that a token list spells, or the errors in it, in the order they were met; and
the ids that are still free. Input ends at the first end token, or behind the last token. -/
def parse (tokens : List Token) (ids : IdSupply) : Except (List SyntaxError) Program × IdSupply :=
  let stop := (tokens.find? (·.kind = .eof)).getD (.atEnd ((tokens.getLast?.map Token.line).getD 1))
  let step := Grammar.program stop ⟨tokens.takeWhile (·.kind ≠ .eof), ids, []⟩
  let result := match step.outcome, step.after.errors with
    | .ok p, [] => .ok p
    | .ok _, errors => .error errors
    | .error e, errors => .error (errors ++ [e])
  (result, step.after.ids)

end Lox
