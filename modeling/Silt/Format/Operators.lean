import Mathlib.Algebra.Group.Int.Defs
import Mathlib.Data.List.Basic

/-!
# Operators and parentheses

The part of the parser and of the formatter that is about operators: names, integers, binary
operators, unary minus and not, pipes, ranges, `as` with a named type, `?`, calls and field
accesses, on one line.  The parser reads operators by their binding powers; a `?` behind the last
stage of a pipeline is for the pipeline.  The formatter keeps of the parentheses around an operand
one pair, and that only if `needsParens` asks for it.

The trees have a node for a pair of parentheses.  The source's trees do not: its formatter finds the
parentheses of an operand among the tokens.  What looks at a tree here looks through them.  Left out
is what the formatter does for comments and line breaks.  The expression stands in no other, so the
parser reads it with no nesting around it.

## Main definitions

* `Expr`, `Expr.erase` : a tree with its parentheses, and without.
* `Limits`, `height` : how deep the parser nests, and what it counts of a tree.
* `parse` : the tree that tokens are read as.
* `Ctx`, `needsParens` : where an operand stands, and whether it has to be in parentheses there.
* `printed` : the tree whose parentheses are those the formatter writes.
* `spell`, `lex` : the text of a tree, and the tokens of a text.
-/

namespace Silt.Format.Operators

/-! ### Tokens and trees -/

inductive BinOp
  | or
  | and
  | eq
  | neq
  | lt
  | gt
  | leq
  | geq
  | add
  | sub
  | mul
  | div
  | mod
deriving DecidableEq

/-- An operator between two operands. -/
inductive Infix
  | binary (op : BinOp)
  | pipe
  | range
deriving DecidableEq

inductive UnaryOp
  | neg
  | not
deriving DecidableEq

inductive Tok
  | ident (name : String)
  /-- An integer; the magnitude of the smallest one is `smallest` too. -/
  | int (i : Int)
  | lparen
  | rparen
  | comma
  | dot
  | question
  | asKeyword
  | not
  /-- An operator between operands; the minus sign is also the one in front of an operand. -/
  | infixed (op : Infix)
deriving DecidableEq

/-- The smallest integer. -/
def smallest : Int :=
  -2 ^ 63

/-- The minus sign. -/
abbrev minus : Tok :=
  .infixed (.binary .sub)

/-- A named type, with the module it is qualified with. -/
structure TypeName where
  module : Option String
  name : String

/-- An expression, with the parentheses around its parts. -/
inductive Expr
  | name (x : String)
  | int (i : Int)
  | unary (op : UnaryOp) (operand : Expr)
  | infixed (left : Expr) (op : Infix) (right : Expr)
  | question (operand : Expr)
  | field (operand : Expr) (name : String)
  /-- A call, and whether a comma is behind the last argument. -/
  | call (callee : Expr) (args : List Expr) (comma : Bool)
  /-- `as` with a type, and the number of parentheses around the type. -/
  | ascription (operand : Expr) (ty : TypeName) (parens : Nat)
  | paren (inner : Expr)

namespace Expr

mutual

/-- The tree without its parentheses. -/
def erase : Expr → Expr
  | .name x => .name x
  | .int i => .int i
  | .unary op t => .unary op t.erase
  | .infixed l op r => .infixed l.erase op r.erase
  | .question t => .question t.erase
  | .field t f => .field t.erase f
  | .call t args _ => .call t.erase (eraseAll args) false
  | .ascription t ty _ => .ascription t.erase ty 0
  | .paren t => t.erase

def eraseAll : List Expr → List Expr
  | [] => []
  | t :: ts => t.erase :: eraseAll ts

end

/-- Whether the expression is in parentheses. -/
def wrapped : Expr → Bool
  | .paren _ => true
  | _ => false

/-- The last stage of a pipeline. -/
def stage : Expr → Option Expr
  | .paren t => t.stage
  | .infixed _ .pipe s => some s
  | _ => none

def isPipe (t : Expr) : Bool :=
  t.stage.isSome

end Expr

/-! ### Binding powers -/

def BinOp.bp : BinOp → Nat
  | .or => 20
  | .and => 30
  | .eq | .neq => 40
  | .lt | .gt | .leq | .geq => 50
  | .add | .sub => 70
  | .mul | .div | .mod => 80

def Infix.leftBp : Infix → Nat
  | .binary op => op.bp
  | .pipe => 55
  | .range => 60

def Infix.rightBp (op : Infix) : Nat :=
  op.leftBp + 1

/-- The binding powers of what is in front of or behind one operand. -/
def unaryBp : Nat := 90
def asBp : Nat := 95
def callBp : Nat := 120
def fieldBp : Nat := 130

/-- The binding power of what nothing can be taken from. -/
def closed : Nat := 255

/-! ### The parser -/

/-- How deep the parser nests, and how many operations one expression may chain or nest. -/
structure Limits where
  maxDepth : Nat
  maxExprOperations : Nat

/-- The limits of the parser. -/
def limits : Limits := ⟨128, 2048⟩

/-- Whether the name, which is of ASCII characters, is one of a constructor. -/
def isConstructor (name : String) : Bool :=
  name.toList.head?.any Char.isUpper

mutual

/-- What `expr_height` is when the expression has been read: an operation each for an operator, a
call, a field access, an `as` and a `?`, and a level for parentheses, an argument and the operand of
a unary operator.  The call of a constructor is read with its name, and is no operation. -/
def height : Expr → Nat
  | .name _ | .int _ => 0
  | .unary _ t | .question t | .field t _ | .ascription t _ _ | .paren t => height t + 1
  | .infixed l _ r => max (height l) (height r) + 1
  | .call (.name x) args _ => if isConstructor x then heightArgs args else heightArgs args + 1
  | .call t args _ => max (height t) (heightArgs args) + 1

def heightArgs : List Expr → Nat
  | [] => 0
  | t :: ts => max (height t + 1) (heightArgs ts)

end

/-- A name with the module it is qualified with, behind its first part. -/
def parseQualifiedName (first : String) : List Tok → TypeName × List Tok
  | .dot :: .ident name :: ts => (⟨some first, name⟩, ts)
  | ts => (⟨none, first⟩, ts)

/-- The named type that the tokens start with, the number of parentheses around it, and the tokens
behind it, read at a depth.  A type of another form has no tree here. -/
def parseType (limits : Limits) : Nat → List Tok → Option (Nat × TypeName × List Tok)
  | depth, .lparen :: ts =>
    if limits.maxDepth ≤ depth then none
    else
      match parseType limits (depth + 1) ts with
      | some (parens, ty, .rparen :: ts) => some (parens + 1, ty, ts)
      | _ => none
  | depth, .ident x :: ts =>
    let (ty, ts) := parseQualifiedName x ts
    -- arguments of the type, or one more qualifier
    if limits.maxDepth ≤ depth ∨ ts.head? = some .lparen ∨ ts.head? = some .dot then none
    else some (0, ty, ts)
  | _, _ => none

mutual

/-- An expression of operators that bind at least as tightly as `minBp`, inside of `depth`
others. -/
def parseExprBp (limits : Limits) : Nat → Nat → Nat → List Tok → Option (Expr × List Tok)
  | 0, _, _, _ => none
  | fuel + 1, depth, minBp, ts =>
    if limits.maxDepth ≤ depth then none
    else do
      let (left, ts) ← parseUnary limits fuel (depth + 1) ts
      parseLoop limits fuel (depth + 1) minBp left ts
termination_by structural fuel => fuel

def parseUnary (limits : Limits) : Nat → Nat → List Tok → Option (Expr × List Tok)
  | 0, _, _ => none
  | fuel + 1, depth, ts =>
    match ts with
    | .infixed (.binary .sub) :: ts =>
      -- the minus sign and the digits of the smallest integer are one literal
      if ts.head? = some (.int smallest) then some (.int smallest, ts.tail)
      else do
        let (operand, ts) ← parseExprBp limits fuel depth unaryBp ts
        some (.unary .neg operand, ts)
    | .not :: ts => do
      let (operand, ts) ← parseExprBp limits fuel depth unaryBp ts
      some (.unary .not operand, ts)
    | .int i :: ts => if i = smallest then none else some (.int i, ts)
    | .ident x :: ts => some (.name x, ts)
    | .lparen :: ts => do
      let (inner, ts) ← parseExprBp limits fuel depth 0 ts
      match ts with
      | .rparen :: ts => some (.paren inner, ts)
      | _ => none
    | _ => none
termination_by structural fuel => fuel

/-- The operators behind `left`.  (The height is checked on each pass; the source checks that of an
operand with nothing behind it when the expression is read.) -/
def parseLoop (limits : Limits) : Nat → Nat → Nat → Expr → List Tok → Option (Expr × List Tok)
  | 0, _, _, _, _ => none
  | fuel + 1, depth, minBp, left, ts =>
    if limits.maxExprOperations < height left then none
    else
      match ts with
      | .question :: rest =>
        -- a question mark that ends a stage is left for the pipeline
        if minBp = Infix.pipe.rightBp then some (left, ts)
        else parseLoop limits fuel depth minBp (.question left) rest
      | .lparen :: rest =>
        if callBp < minBp then some (left, ts)
        else do
          let (args, comma, rest) ← parseArgs limits fuel depth rest
          parseLoop limits fuel depth minBp (.call left args comma) rest
      | .infixed op :: rest =>
        if op.leftBp < minBp then some (left, ts)
        else do
          let (right, rest) ← parseExprBp limits fuel depth op.rightBp rest
          parseLoop limits fuel depth minBp (.infixed left op right) rest
      | .dot :: rest =>
        if fieldBp < minBp then some (left, ts)
        else
          match rest with
          | .ident name :: rest => parseLoop limits fuel depth minBp (.field left name) rest
          | _ => none
      | .asKeyword :: rest =>
        if asBp < minBp then some (left, ts)
        else do
          let (parens, ty, rest) ← parseType limits depth rest
          parseLoop limits fuel depth minBp (.ascription left ty parens) rest
      | _ => some (left, ts)
termination_by structural fuel => fuel

/-- The arguments of a call, and whether a comma is behind the last. -/
def parseArgs (limits : Limits) : Nat → Nat → List Tok → Option (List Expr × Bool × List Tok)
  | 0, _, _ => none
  | fuel + 1, depth, ts =>
    match ts with
    | .rparen :: ts => some ([], false, ts)
    | ts => do
      let (arg, ts) ← parseExprBp limits fuel depth 0 ts
      match ts with
      | .comma :: ts => do
        let (args, comma, ts) ← parseArgs limits fuel depth ts
        some (arg :: args, comma || args.isEmpty, ts)
      | .rparen :: ts => some ([arg], false, ts)
      | _ => none
termination_by structural fuel => fuel

end

/-- The expression that the tokens are, within the limits. -/
def parse (limits : Limits) (ts : List Tok) : Option Expr :=
  match parseExprBp limits (2 * ts.length + 3) 0 0 ts with
  | some (t, []) => some t
  | _ => none

/-! ### Which parentheses stay -/

/-- Where an expression stands: the binding power it is read at, the binding power of the operator
behind it, whether it starts a stage of a pipeline, and whether a `?` for the pipeline that it is
follows. -/
structure Ctx where
  minBp : Nat
  leftOf : Option Nat
  stage : Bool
  questionFollows : Bool

namespace Ctx

/-- A whole expression. -/
def top : Ctx := ⟨0, none, false, false⟩

/-- The left operand of an operator of an expression that stands at `ctx`. -/
def left (ctx : Ctx) (bp : Nat) : Ctx := ⟨0, some bp, ctx.stage, false⟩

/-- A right operand. -/
def right (bp : Nat) : Ctx := ⟨bp, none, false, false⟩

/-- A stage of a pipeline. -/
def atStage : Ctx := { right Infix.pipe.rightBp with stage := true }

/-- The right operand of an operator. -/
def rightOf : Infix → Ctx
  | .pipe => atStage
  | op => right op.rightBp

end Ctx

/-- The binding power of the operator at the top of the expression. -/
def topBp : Expr → Nat
  | .paren t => topBp t
  | .infixed _ op _ => op.leftBp
  | .ascription _ _ _ => asBp
  -- the `?` behind a pipeline
  | .question t => if t.isPipe then Infix.pipe.leftBp else closed
  | _ => closed

/-- Whether an expression has to be in parentheses at `ctx`, by the operator at its top, by the
lowest binding power of an operator that its right end takes, and by whether a `?` is on its left.
-/
def needsBy (top takes : Nat) (question : Bool) (ctx : Ctx) : Bool :=
  top < ctx.minBp ||
    (match ctx.leftOf with
      | some follows => decide (top < follows) || decide (takes ≤ follows)
      | none => false) ||
    (ctx.stage && question)

mutual

/-- The lowest binding power of an operator that, behind the expression, would be taken by its right
end. -/
def takesFromUnwrapped : Expr → Nat
  | .paren t => takesFromUnwrapped t
  | .infixed _ op r =>
    min op.rightBp
      (if needsBy (topBp r) (takesFromUnwrapped r) (questionOnLeftSpine r) (Ctx.rightOf op) then
        closed
      else takesFromUnwrapped r)
  | .unary _ t =>
    min unaryBp
      (if needsBy (topBp t) (takesFromUnwrapped t) (questionOnLeftSpine t) (Ctx.right unaryBp) then
        closed
      else takesFromUnwrapped t)
  | _ => closed

/-- Whether a `?` is behind the leftmost operand of a stage, outside parentheses. -/
def questionOnLeftSpine : Expr → Bool
  | .paren t => questionOnLeftSpine t
  | .question _ => true
  | .infixed _ .pipe _ => false
  | .infixed l op _ =>
    !needsBy (topBp l) (takesFromUnwrapped l) (questionOnLeftSpine l) (Ctx.top.left op.leftBp) &&
      questionOnLeftSpine l
  | .ascription l _ _ =>
    !needsBy (topBp l) (takesFromUnwrapped l) (questionOnLeftSpine l) (Ctx.top.left asBp) &&
      questionOnLeftSpine l
  | .call l _ _ =>
    !needsBy (topBp l) (takesFromUnwrapped l) (questionOnLeftSpine l) (Ctx.top.left callBp) &&
      questionOnLeftSpine l
  | .field l _ =>
    !needsBy (topBp l) (takesFromUnwrapped l) (questionOnLeftSpine l) (Ctx.top.left fieldBp) &&
      questionOnLeftSpine l
  | _ => false

end

/-- Whether the expression has to be in parentheses to stand at `ctx`. -/
def needsParens (t : Expr) (ctx : Ctx) : Bool :=
  needsBy (topBp t) (takesFromUnwrapped t) (questionOnLeftSpine t) ctx

/-- What the right end of an expression at `ctx` would take. -/
def takesFrom (t : Expr) (ctx : Ctx) : Nat :=
  if needsParens t ctx then closed else takesFromUnwrapped t

/-! ### The printer -/

/-- Whether the source's parentheses around the expression stay. -/
def keeps (t : Expr) (ctx : Ctx) : Bool :=
  t.wrapped && needsParens t ctx

/-- Whether the expression gets parentheses as the operand of a `?`, a call or a field access: an
`as` without any, or one whose own stay. -/
def keepsHead (t : Expr) (ctx : Ctx) : Bool :=
  match t with
  | .ascription _ _ _ => true
  | t => keeps t ctx

/-- A minus sign in front of an expression that starts with one: the two would start a comment. -/
def doubled (op : UnaryOp) (operand : Expr) : Bool :=
  match op, operand.erase with
  | .neg, .unary .neg _ => true
  | .neg, .int i => i = smallest
  | _, _ => false

/-- The expression in parentheses, or as it is printed without. -/
def place (kept : Bool) (inside outside : Expr) : Expr :=
  if kept then .paren inside else outside

/-- Where the stage of a pipeline that stands at `ctx` is: in front of the `?` that follows it. -/
def Ctx.rightAt (ctx : Ctx) : Infix → Ctx
  | .pipe => if ctx.questionFollows then { atStage with leftOf := some callBp } else atStage
  | op => right op.rightBp

/-- Where the pipeline in front of a `?` stands. -/
def Ctx.beforeQuestion (ctx : Ctx) (pipeline : Expr) : Ctx :=
  match pipeline.stage with
  | some stage =>
    -- the parentheses of `(a |> -b)?` stay, since `-b?` is something else
    if takesFrom stage atStage ≠ closed ∧ pipeline.wrapped then ctx.left callBp
    else { ctx with questionFollows := true }
  | none => ctx.left callBp

mutual

/-- The expression at `ctx`, without parentheses around it. -/
def bareExpr : Ctx → Expr → Expr
  | _, .name x => .name x
  | _, .int i => .int i
  | ctx, .paren t => bareExpr ctx t
  | _, .unary op t =>
    if doubled op t then
      .unary op (.paren (bareExpr (if t.wrapped then .top else .right unaryBp) t))
    else
      .unary op (place (keeps t (.right unaryBp)) (bareExpr .top t) (bareExpr (.right unaryBp) t))
  | ctx, .infixed l op r =>
    .infixed (place (keeps l (ctx.left op.leftBp)) (bareExpr .top l)
        (bareExpr (ctx.left op.leftBp) l)) op
      (place (keeps r (ctx.rightAt op)) (bareExpr .top r) (bareExpr (ctx.rightAt op) r))
  | ctx, .question t =>
    if t.isPipe then
      .question (place (keeps t (ctx.beforeQuestion t)) (bareExpr .top t)
        (bareExpr (ctx.beforeQuestion t) t))
    else
      .question (place (keepsHead t (ctx.left callBp)) (bareExpr .top t)
        (bareExpr (ctx.left callBp) t))
  | ctx, .field t name =>
    .field (place (keepsHead t (ctx.left fieldBp)) (bareExpr .top t)
      (bareExpr (ctx.left fieldBp) t)) name
  | ctx, .call t args _ =>
    .call (place (keepsHead t (ctx.left callBp)) (bareExpr .top t) (bareExpr (ctx.left callBp) t))
      (bareAll args) false
  | ctx, .ascription t ty _ =>
    .ascription
      (place (keeps t (ctx.left asBp)) (bareExpr .top t) (bareExpr (ctx.left asBp) t)) ty 0

def bareAll : List Expr → List Expr
  | [] => []
  | t :: ts => place (keeps t .top) (bareExpr .top t) (bareExpr .top t) :: bareAll ts

end

/-- The expression at `ctx`, with the parentheses that are printed. -/
def printed (ctx : Ctx) (t : Expr) : Expr :=
  place (keeps t ctx) (bareExpr .top t) (bareExpr ctx t)

/-! ### Texts -/

/-- A token, or a space. -/
inductive Piece
  | tok (t : Tok)
  | space
deriving DecidableEq

/-- The tokens, and the spaces around an operator. -/
def spellInfix : Infix → List Piece
  | .range => [.tok (.infixed .range)]
  | op => [.space, .tok (.infixed op), .space]

def spellUnary : UnaryOp → List Piece
  | .neg => [.tok minus]
  | .not => [.tok .not]

def spellType (ty : TypeName) (parens : Nat) : List Piece :=
  List.replicate parens (.tok .lparen) ++
    (match ty.module with
      | some m => [.tok (.ident m), .tok .dot, .tok (.ident ty.name)]
      | none => [.tok (.ident ty.name)]) ++
    List.replicate parens (.tok .rparen)

mutual

/-- The text of a tree, with its parentheses. -/
def spell : Expr → List Piece
  | .name x => [.tok (.ident x)]
  | .int i => if i = smallest then [.tok minus, .tok (.int i)] else [.tok (.int i)]
  | .unary op t => spellUnary op ++ spell t
  | .infixed l op r => spell l ++ spellInfix op ++ spell r
  | .question t => spell t ++ [.tok .question]
  | .field t name => spell t ++ [.tok .dot, .tok (.ident name)]
  | .call t args comma => spell t ++ [.tok .lparen] ++ spellArgs args comma ++ [.tok .rparen]
  | .ascription t ty parens =>
    spell t ++ [.space, .tok .asKeyword, .space] ++ spellType ty parens
  | .paren t => [.tok .lparen] ++ spell t ++ [.tok .rparen]

def spellArgs : List Expr → Bool → List Piece
  | [], comma => if comma then [.tok .comma] else []
  | t :: ts, comma =>
    spell t ++ (if ts.isEmpty then [] else [.tok .comma, .space]) ++ spellArgs ts comma

end

/-- The tokens of a text on one line: two minus signs with nothing between them start a comment. -/
def lex : List Piece → List Tok
  | .tok t :: .tok t' :: ps => if t = minus ∧ t' = minus then [] else t :: lex (.tok t' :: ps)
  | .tok t :: ps => t :: lex ps
  | .space :: ps => lex ps
  | [] => []

/-- What the text that the formatter prints for the expression is read as. -/
def readPrinted (t : Expr) : Option Expr :=
  parse limits (lex (spell (printed .top t)))

/-- An expression of the source: its tokens, and what they are read as. -/
structure Source where
  tokens : List Tok
  tree : Expr
  read : parse limits tokens = some tree

end Silt.Format.Operators
