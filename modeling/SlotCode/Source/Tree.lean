import SlotCode.Source.Operator
import SlotCode.Source.Span

/-!
# Source trees

The language that is lowered: functions over integers, booleans, strings, tuples, boxes and lists.
Everything is an expression except the statements of a block.  A parser is not part of the library,
so trees that no parser would build, such as a comparison without operators, are trees too.
-/

namespace SlotCode

/-- A type as written.  `placeholder` stands for a box whose payload each call chooses. -/
inductive TypeExpr where
  | void (span : Span)
  | integer (span : Span)
  | boolean (span : Span)
  | string (span : Span)
  | tuple (span : Span) (items : List TypeExpr)
  | box (span : Span) (payload : TypeExpr)
  | list (span : Span) (item : TypeExpr)
  | placeholder (span : Span) (name : String)

def TypeExpr.span : TypeExpr → Span
  | .void span | .integer span | .boolean span | .string span => span
  | .tuple span _ | .box span _ | .list span _ | .placeholder span _ => span

mutual

inductive Expr where
  | var (span : Span) (name : String)
  | int (span : Span) (value : Int)
  | bool (span : Span) (value : Bool)
  | str (span : Span) (value : String)
  | tuple (span : Span) (items : List Expr)
  | arith (span : Span) (op : ArithOp) (operands : List Expr)
  | compare (span : Span) (chain : List Link)
  | not (span : Span) (operand : Expr)
  | call (span : Span) (target : Expr) (args : List Expr)
  | block (span : Span) (body : Block)
  /-- A conditional; without its last part it has no value. -/
  | cond (span : Span) (test yes : Expr) (no : Option Expr)
  /-- Takes `yes` with the payload bound to `pattern` if the box is full. -/
  | ifFull (span : Span) (boxed pattern yes : Expr) (no : Option Expr)
  /-- Runs its body until a `leave` that names it. -/
  | loop (span : Span) (label : Option String) (body : Block)
  /-- Leaves the innermost loop, or the innermost one with that label, with a value for it. -/
  | leave (span : Span) (label : Option String) (value : Option Expr)
  | wrap (span : Span) (payload : Expr)
  | wrapEmpty (span : Span) (payload : TypeExpr)
  | cons (span : Span) (head tail : Expr)
  | consEmpty (span : Span) (item : TypeExpr)

/-- A part of a comparison chain: a group of operands, or the operator between two groups. -/
inductive Link where
  | operands (group : List Expr)
  | operator (span : Span) (op : CmpOp)

inductive Block where
  | mk (span : Span) (stmts : List Stmt)

inductive Stmt where
  /-- Binds the names of a new pattern. -/
  | bind (span : Span) (target value : Expr)
  /-- Stores into variables that exist. -/
  | set (span : Span) (target value : Expr)
  /-- Makes its expression the value of the block. -/
  | yield (span : Span) (value : Expr)
  | ret (span : Span) (value : Expr)
  | eval (span : Span) (value : Expr)

end

def Expr.span : Expr → Span
  | .var span _ | .int span _ | .bool span _ | .str span _ | .tuple span _ => span
  | .arith span _ _ | .compare span _ | .not span _ | .call span _ _ | .block span _ => span
  | .cond span _ _ _ | .ifFull span _ _ _ _ | .loop span _ _ | .leave span _ _ => span
  | .wrap span _ | .wrapEmpty span _ | .cons span _ _ | .consEmpty span _ => span

def Block.span : Block → Span
  | .mk span _ => span

structure Param where
  name : String
  span : Span
  type : TypeExpr

structure FnDecl where
  name : String
  params : List Param
  result : TypeExpr
  body : Block
  span : Span

end SlotCode
