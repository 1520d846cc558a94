import SlotCode.Lowering.Steps

/-!
# Lowering expressions

An expression is lowered to code and a value: after the code has run, the operands of the value read
what the expression stands for.  Expressions are lowered from left to right, each in the session that
the one before it leaves.  The recursion follows the source tree.
-/

namespace SlotCode

open Lower

mutual

def lowerExpr : Expr → Lower (Code × Value)
  | .var span name => do
    let id ← search (·.lookup name span)
    let value ← valueOf id span
    return ([], value)
  | .int span value => return ([], .scalar TypeId.integer span (.int value))
  | .bool span value => return ([], .scalar TypeId.boolean span (.bool value))
  | .str span value => return ([], .scalar TypeId.string span (.str value))
  | .tuple span items => do
    let (code, values) ← lowerItems items
    let value ← tupleOf values span
    return (code, value)
  | .arith span op operands => do
    let (code, operands) ← lowerOperands op.type span operands
    return (code, .scalar op.type span (.arith op op.type operands))
  | .compare span chain => do
    let (code, comparisons) ← lowerChain span chain
    let (tests, outcomes) ← runComparisons comparisons
    return (code ++ tests,
      .scalar TypeId.boolean span (.arith .and TypeId.boolean outcomes))
  | .not span _ => unsupported "unary operator" span
  | .call span (.var targetSpan name) args => do
    let callee ← callee name targetSpan
    checkArity name callee args span
    let (code, inputs, bindings) ← lowerArgs targetSpan [] args callee.params
    let (outputs, value) ← callResult callee.result bindings span
    let command ← callCommand name callee.native inputs outputs targetSpan span
    return (code ++ [command], value)
  | .call _ target _ => unsupported "call of a computed target" target.span
  | .block _ body => do
    let (code, value) ← lowerBlock body
    let (copy, value) ← keepValue value body.span
    return (code ++ copy, value)
  | .cond span test yes no => do
    let (testCode, testValue) ← lowerExpr test
    expectType TypeId.boolean testValue test.span
    let operand ← scalarOf testValue
    let yes ← lowerExpr yes
    let no ← lowerElse no
    let (yesCode, noCode, value) ← joinBranches yes no span
    return (testCode ++ [.branch span operand yesCode noCode], value)
  | .ifFull span boxed pattern yes no => do
    let (boxCode, box) ← lowerExpr boxed
    let (payload, operand) ← openBox box
    let full ← newTyped TypeId.boolean span
    let yes ← inContext do
      let (pattern, _) ← bindPattern (.declare []) pattern
      let slots ← expand box.span pattern payload
      let (code, value) ← lowerExpr yes
      return (.native pattern.span .unwrap [operand] slots :: code, value)
    let no ← lowerElse no
    let (yesCode, noCode, value) ← joinBranches yes no span
    return (boxCode ++ [.native span .full [operand] [full],
      .branch span (.var full) yesCode noCode], value)
  | .loop span label body => do
    let (ref, code) ← inContext do
      let ref ← updateScope (·.newLoop label span)
      let (code, _) ← lowerBlock body
      return (ref, code)
    let value ← loopValue ref.var span
    return ([.loop span ref.loop code], value)
  | .leave span label none => leaveWith label (.void span) span
  | .leave span label (some value) => do
    let (code, value) ← lowerExpr value
    let (leaving, value) ← leaveWith label value span
    return (code ++ leaving, value)
  | .wrap span payload => do
    let (code, value) ← lowerExpr payload
    let (wrapping, value) ← wrapValue value payload.span span
    return (code ++ wrapping, value)
  | .wrapEmpty span payload => wrapNothing payload span
  | .cons span head tail => do
    let (headCode, head) ← lowerExpr head
    let (tailCode, tail) ← lowerExpr tail
    let (wrapping, value) ← consValue head tail span
    return (headCode ++ tailCode ++ wrapping, value)
  | .consEmpty span item => consNothing item span

def lowerElse : Option Expr → Lower (Option (Code × Value))
  | none => return none
  | some expr => do
    let lowered ← lowerExpr expr
    return some lowered

def lowerItems : List Expr → Lower (Code × List Value)
  | [] => return ([], [])
  | expr :: exprs => do
    let (code, value) ← lowerExpr expr
    let (codes, values) ← lowerItems exprs
    return (code ++ codes, value :: values)

/-- Operands of an operator, all of one type. -/
def lowerOperands (type : TypeId) (span : Span) : List Expr → Lower (Code × List Operand)
  | [] => return ([], [])
  | expr :: exprs => do
    let (code, value) ← lowerExpr expr
    expectType type value span
    let operand ← scalarOf value
    let (codes, operands) ← lowerOperands type span exprs
    return (code ++ codes, operand :: operands)

/-- Integers of a comparison, each held in a variable. -/
def lowerGroup (span : Span) : List Expr → Lower (Code × List VarId)
  | [] => return ([], [])
  | expr :: exprs => do
    let (code, value) ← lowerExpr expr
    expectType TypeId.integer value span
    let (holding, id) ← holdInteger value expr.span
    let (codes, ids) ← lowerGroup span exprs
    return (code ++ holding ++ codes, id :: ids)

/-- A comparison chain, which begins with a group of operands. -/
def lowerChain (span : Span) : List Link → Lower (Code × List Comparison)
  | .operands group :: links => do
    let (code, left) ← lowerGroup span group
    let (codes, comparisons) ← lowerLinks span left [] links
    return (code ++ codes, comparisons)
  | _ => failAt (.malformedComparison "expected an operand") span

/-- The links after the group `left`, with the comparisons that came before.  A chain ends after a
group, and not before it compares something. -/
def lowerLinks (span : Span) (left : List VarId) (before : List Comparison) :
    List Link → Lower (Code × List Comparison)
  | .operator opSpan op :: .operands group :: links => do
    let (code, right) ← lowerGroup span group
    let (codes, comparisons) ←
      lowerLinks span right (before ++ comparePairs left op opSpan right) links
    return (code ++ codes, comparisons)
  | .operator _ _ :: _ => failAt (.malformedComparison "expected an operand") span
  | .operands _ :: _ => failAt (.malformedComparison "expected an operator") span
  | [] =>
    if before.isEmpty then
      failAt (.malformedComparison "expected an operator") span
    else
      return ([], before)

/-- Arguments of a call, each matched with its parameter as soon as it is lowered. -/
def lowerArgs (targetSpan : Span) (bindings : Bindings) :
    List Expr → List TypeId → Lower (Code × List Operand × Bindings)
  | expr :: exprs, param :: params => do
    let (code, value) ← lowerExpr expr
    let origin ← askTypes (·.origin param)
    let bindings ← bindArgument param value (origin.getD targetSpan) bindings
    let (codes, inputs, bindings) ← lowerArgs targetSpan bindings exprs params
    return (code ++ codes, value.leaves ++ inputs, bindings)
  | _, _ => return ([], [], bindings)

/-- A block in a context of its own.  The value may read variables of that context. -/
def lowerBlock : Block → Lower (Code × Value)
  | .mk span stmts => inContext (lowerStmts (.void span) stmts)

/-- Statements of a block whose value so far is `value`. -/
def lowerStmts (value : Value) : List Stmt → Lower (Code × Value)
  | [] => return ([], value)
  | stmt :: stmts => do
    let (code, value) ← lowerStmt value stmt
    let (codes, value) ← lowerStmts value stmts
    return (code ++ codes, value)

def lowerStmt (value : Value) : Stmt → Lower (Code × Value)
  | .bind span target expr => do
    let (code, stored) ← lowerExpr expr
    let (pattern, _) ← bindPattern (.declare []) target
    let stores ← storeInto pattern stored span
    return (code ++ stores, value)
  | .set span target expr => do
    let (code, stored) ← lowerExpr expr
    let (pattern, _) ← bindPattern .resolve target
    let stores ← storeInto pattern stored span
    return (code ++ stores, value)
  | .yield _ expr => lowerExpr expr
  | .ret span _ => unsupported "return statement" span
  | .eval _ expr => do
    let (code, _) ← lowerExpr expr
    return (code, value)

end

end SlotCode
