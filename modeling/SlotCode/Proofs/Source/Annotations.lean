import SlotCode.Source.Tree

/-!
# Types that are written in a tree

The *annotations* of a tree are the types written in it: those of the payloads of empty boxes and of the
items of empty lists.  Nothing else in a tree says a type.
-/

namespace SlotCode

mutual

/-- The types that are written in an expression. -/
def Expr.annotations : Expr → List TypeExpr
  | .var _ _ | .int _ _ | .bool _ _ | .str _ _ => []
  | .tuple _ items => Expr.annotationsAll items
  | .arith _ _ operands => Expr.annotationsAll operands
  | .compare _ chain => Link.annotationsAll chain
  | .not _ operand => operand.annotations
  | .call _ target args => target.annotations ++ Expr.annotationsAll args
  | .block _ body => body.annotations
  | .cond _ test yes no => test.annotations ++ yes.annotations ++ Expr.annotationsIn no
  | .ifFull _ boxed _ yes no => boxed.annotations ++ yes.annotations ++ Expr.annotationsIn no
  | .loop _ _ body => body.annotations
  | .leave _ _ value => Expr.annotationsIn value
  | .wrap _ payload => payload.annotations
  | .wrapEmpty _ type | .consEmpty _ type => [type]
  | .cons _ head tail => head.annotations ++ tail.annotations

def Expr.annotationsIn : Option Expr → List TypeExpr
  | none => []
  | some expr => expr.annotations

def Expr.annotationsAll : List Expr → List TypeExpr
  | [] => []
  | expr :: exprs => expr.annotations ++ Expr.annotationsAll exprs

def Link.annotationsAll : List Link → List TypeExpr
  | [] => []
  | .operands group :: links => Expr.annotationsAll group ++ Link.annotationsAll links
  | .operator _ _ :: links => Link.annotationsAll links

def Block.annotations : Block → List TypeExpr
  | .mk _ stmts => Stmt.annotationsAll stmts

def Stmt.annotationsAll : List Stmt → List TypeExpr
  | [] => []
  | stmt :: stmts => stmt.annotations ++ Stmt.annotationsAll stmts

def Stmt.annotations : Stmt → List TypeExpr
  | .bind _ _ value | .set _ _ value => value.annotations
  | .yield _ value | .ret _ value | .eval _ value => value.annotations

end

end SlotCode
