import SlotCode.Source.Tree

/-!
# Sequenced trees

A value is read later than it is computed: the items of a tuple when the tuple is stored, the operands
of an operator when its result is used.  In a *sequenced* tree nothing that is evaluated in between
stores into a variable anew, so this makes no difference.
-/

namespace SlotCode

mutual

/-- No statement in the expression stores into a variable that exists. -/
def Expr.setFree : Expr → Bool
  | .var _ _ | .int _ _ | .bool _ _ | .str _ _ | .wrapEmpty _ _ | .consEmpty _ _ => true
  | .tuple _ items => Expr.setFreeAll items
  | .arith _ _ operands => Expr.setFreeAll operands
  | .compare _ chain => Link.setFreeAll chain
  | .not _ operand => operand.setFree
  | .call _ _ args => Expr.setFreeAll args
  | .block _ body => body.setFree
  | .cond _ test yes no => test.setFree && yes.setFree && Expr.setFreeIn no
  | .ifFull _ boxed _ yes no => boxed.setFree && yes.setFree && Expr.setFreeIn no
  | .loop _ _ body => body.setFree
  | .leave _ _ value => Expr.setFreeIn value
  | .wrap _ payload => payload.setFree
  | .cons _ head tail => head.setFree && tail.setFree

def Expr.setFreeIn : Option Expr → Bool
  | none => true
  | some expr => expr.setFree

def Expr.setFreeAll : List Expr → Bool
  | [] => true
  | expr :: exprs => expr.setFree && Expr.setFreeAll exprs

def Link.setFreeAll : List Link → Bool
  | [] => true
  | .operands group :: links => Expr.setFreeAll group && Link.setFreeAll links
  | .operator _ _ :: links => Link.setFreeAll links

def Block.setFree : Block → Bool
  | .mk _ stmts => Stmt.setFreeAll stmts

def Stmt.setFreeAll : List Stmt → Bool
  | [] => true
  | stmt :: stmts => stmt.setFree && Stmt.setFreeAll stmts

def Stmt.setFree : Stmt → Bool
  | .set _ _ _ => false
  | .bind _ _ value | .yield _ value | .ret _ value | .eval _ value => value.setFree

end

/-- The statement gives the block its value. -/
def Stmt.isYield : Stmt → Bool
  | .yield _ _ => true
  | _ => false

mutual

/-- Nothing is stored anew between the time a part is computed and the time it is read: not in the
items of a tuple, in operands or in arguments.  A block yields its value at its end, and what is stored
anew is one variable at a time. -/
def Expr.sequenced : Expr → Bool
  | .var _ _ | .int _ _ | .bool _ _ | .str _ _ | .wrapEmpty _ _ | .consEmpty _ _ => true
  | .tuple _ items => Expr.setFreeAll items && Expr.sequencedAll items
  | .arith _ _ operands => Expr.setFreeAll operands && Expr.sequencedAll operands
  | .compare _ chain => Link.setFreeAll chain && Link.sequencedAll chain
  | .not _ operand => operand.sequenced
  | .call _ _ args => Expr.setFreeAll args && Expr.sequencedAll args
  | .block _ body => body.sequenced
  | .cond _ test yes no => test.sequenced && yes.sequenced && Expr.sequencedIn no
  | .ifFull _ boxed _ yes no => boxed.sequenced && yes.sequenced && Expr.sequencedIn no
  | .loop _ _ body => body.sequenced
  | .leave _ _ value => Expr.sequencedIn value
  | .wrap _ payload => payload.sequenced
  | .cons _ head tail => head.setFree && tail.setFree && head.sequenced && tail.sequenced

def Expr.sequencedIn : Option Expr → Bool
  | none => true
  | some expr => expr.sequenced

def Expr.sequencedAll : List Expr → Bool
  | [] => true
  | expr :: exprs => expr.sequenced && Expr.sequencedAll exprs

def Link.sequencedAll : List Link → Bool
  | [] => true
  | .operands group :: links => Expr.sequencedAll group && Link.sequencedAll links
  | .operator _ _ :: links => Link.sequencedAll links

def Block.sequenced : Block → Bool
  | .mk _ stmts => Stmt.sequencedAll stmts

def Stmt.sequencedAll : List Stmt → Bool
  | [] => true
  | stmt :: stmts => (stmts.isEmpty || !stmt.isYield) && stmt.sequenced && Stmt.sequencedAll stmts

def Stmt.sequenced : Stmt → Bool
  | .set _ (.var _ _) value => value.sequenced
  | .set _ _ _ => false
  | .bind _ _ value | .yield _ value | .ret _ value | .eval _ value => value.sequenced

end

end SlotCode
