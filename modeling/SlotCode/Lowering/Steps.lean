import SlotCode.Lowering.Pattern

/-!
# Steps of lowering

One step for each thing that is done with values that are lowered already: tuples are put together,
comparisons run, boxes filled, branches joined.  None of them looks at a source tree below the
expression that it serves.
-/

namespace SlotCode

/-- The type that an operator works on. -/
def ArithOp.type : ArithOp → TypeId
  | .concat => TypeId.string
  | .and | .or => TypeId.boolean
  | .add | .sub | .mul | .div => TypeId.integer

/-- One comparison of a chain; `span` is the place of its operator. -/
structure Comparison where
  left : VarId
  op : CmpOp
  right : VarId
  span : Span

/-- The type of a function, without the mark for an empty list of parameters. -/
structure Callee where
  params : List TypeId
  result : TypeId
  native : Bool

namespace Lower

/-! ## Tuples and operators -/

/-- The operands of a tuple of values. -/
def tupleLeaves : List Value → Lower (List Operand)
  | [] => return []
  | value :: values => do
    if value.isVoid then
      failAt (.voidValue "store in a tuple") value.span
    else
      let rest ← tupleLeaves values
      return value.leaves ++ rest

def tupleOf (values : List Value) (span : Span) : Lower Value := do
  let type ← updateTypes (·.add (.tuple (values.map Value.type)) (some span))
  let leaves ← tupleLeaves values
  return .tuple type span leaves

/-- Every member of one group compared with every member of the next. -/
def comparePairs (left : List VarId) (op : CmpOp) (span : Span) (right : List VarId) :
    List Comparison :=
  left.flatMap fun l => right.map fun r => ⟨l, op, r, span⟩

/-- Code that leaves the outcome of each comparison in a variable of its own. -/
def runComparisons : List Comparison → Lower (Code × List Operand)
  | [] => return ([], [])
  | c :: cs => do
    let dest ← newTyped TypeId.boolean c.span
    let (code, tests) ← runComparisons cs
    return (.assign c.span dest (.compare c.left c.op c.right) :: code, .var dest :: tests)

/-- The integer as a variable.  A value that only reads one is used as it is. -/
def holdInteger (value : Value) (span : Span) : Lower (Code × VarId) := do
  match value.asVar? with
  | some id => return ([], id)
  | none =>
    let id ← newTyped TypeId.integer value.span
    let operand ← scalarOf value
    return ([.assign span id operand], id)

/-! ## Boxes -/

def wrapValue (value : Value) (payloadSpan span : Span) : Lower (Code × Value) := do
  if value.isVoid then
    failAt (.voidValue "wrap") payloadSpan
  else
    let type ← updateTypes (·.add (.box value.type) (some span))
    let dest ← newTyped type span
    return ([.native span .wrap value.leaves [dest]], .scalar type span (.var dest))

def consValue (head tail : Value) (span : Span) : Lower (Code × Value) := do
  match (← askTypes (·.kind tail.type)).item? with
  | none =>
    let found ← askTypes (·.text tail.type)
    failAt (.expectedList found) tail.span
  | some item =>
    if head.isVoid then
      failAt (.voidValue "cons") head.span
    else
      expectType item head tail.span
      let operand ← scalarOf tail
      let dest ← newTyped tail.type span
      return ([.native span .wrap (head.leaves ++ [operand]) [dest]],
        .scalar tail.type span (.var dest))

/-- A box or list of the type with nothing in it. -/
def emptyBox (type : TypeId) (span : Span) : Lower (Code × Value) := do
  let dest ← newTyped type span
  return ([.native span .wrapEmpty [] [dest]], .scalar type span (.var dest))

def wrapNothing (payload : TypeExpr) (span : Span) : Lower (Code × Value) := do
  let payload ← updateTypes (·.resolve payload)
  if payload = TypeId.void then
    failAt (.voidValue "wrap") span
  else
    let type ← updateTypes (·.add (.box payload) (some span))
    emptyBox type span

def consNothing (item : TypeExpr) (span : Span) : Lower (Code × Value) := do
  let item ← updateTypes (·.resolve item)
  if item = TypeId.void then
    failAt (.voidValue "cons") span
  else
    let type ← updateTypes (·.addList item (some span))
    emptyBox type span

/-- The type of the payload of a box, and the operand that reads the box. -/
def openBox (value : Value) : Lower (TypeId × Operand) := do
  match (← askTypes (·.kind value.type)).payload? with
  | none =>
    let found ← askTypes (·.text value.type)
    failAt (.expectedBox found) value.span
  | some payload =>
    let operand ← scalarOf value
    return (payload, operand)

/-! ## Calls -/

/-- The declared type of a function.  A function that takes `void` has no parameters. -/
def callee (name : String) (span : Span) : Lower Callee := do
  let type ← search (·.signature name span)
  match ← askTypes (·.kind type) with
  | .function params result native =>
    return ⟨if params = [TypeId.void] then [] else params, result, native⟩
  | _ => unsupported "call to a non-function" span

def checkArity (name : String) (callee : Callee) (args : List Expr) (span : Span) : Lower Unit :=
  if callee.params.length = args.length then
    return ()
  else
    failAt (.arityMismatch name callee.params.length args.length) span

/-- Where the result of a call goes, and its value. -/
def callResult (result : TypeId) (bindings : Bindings) (span : Span) :
    Lower (List VarId × Value) := do
  if result = TypeId.void then
    return ([], .void span)
  else
    let type ← instantiate result bindings span
    let dest ← updateScope (·.newTemp span none)
    let outputs ← expand span (.var dest span) type
    let value ← valueOf dest span
    return (outputs, value)

def callCommand (name : String) (native : Bool) (inputs : List Operand) (outputs : List VarId)
    (targetSpan span : Span) : Lower Command := do
  if native then
    match Primitive.ofName? name with
    | some primitive => return .native span primitive inputs outputs
    | none => unsupported s!"native `{name}` without a primitive" targetSpan
  else
    report (.called name inputs.length)
    return .call span name inputs outputs

/-! ## Blocks, conditionals and loops -/

/-- Copies the value of a block into a variable of the context around it, since the variables of the
block are gone when it ends. -/
def keepValue (value : Value) (span : Span) : Lower (Code × Value) := do
  if value.isVoid then
    return ([], value)
  else
    let dest ← updateScope (·.newTemp span none)
    let code ← storeInto (.var dest span) value span
    let value ← valueOf dest span
    return (code, value)

/-- Joins two branches: both store their value into the same new variable.  A conditional whose
first branch has no value has none itself. -/
def joinBranches (yes : Code × Value) (no : Option (Code × Value)) (span : Span) :
    Lower (Code × Code × Value) := do
  if let some (_, noValue) := no then
    expectType yes.2.type noValue yes.2.span
  if yes.2.isVoid then
    return (yes.1, (no.map Prod.fst).getD [], .void span)
  else
    match no with
    | none => failAt (.missingElse span) yes.2.span
    | some (noCode, noValue) =>
      let dest ← updateScope (·.newTemp span none)
      let yesStores ← storeInto (.var dest span) yes.2 yes.2.span
      let noStores ← storeInto (.var dest span) noValue noValue.span
      let value ← valueOf dest span
      return (yes.1 ++ yesStores, noCode ++ noStores, value)

/-- The loop that a `leave` means. -/
def targetLoop (label : Option String) (span : Span) : Lower LoopRef :=
  match label with
  | some label => search (·.findLoop label span)
  | none => search (·.innermostLoop span)

/-- The first value that a loop is left with fixes its type; later values must match. -/
def fixLoopType (ref : LoopRef) (value : Value) : Lower Unit := do
  let var ← askScope (·.var ref.var)
  match var.type with
  | none =>
    let type ← askTypes (·.text value.type)
    report (.loopTyped ref.loop type)
    modifyScope (·.modifyVar ref.var fun v => { v with type := some value.type, span := value.span })
  | some type => requireMatch (some type) value.type var.span value.span

/-- Code that leaves a loop with a value. -/
def leaveWith (label : Option String) (value : Value) (span : Span) : Lower (Code × Value) := do
  let ref ← targetLoop label span
  fixLoopType ref value
  let stores ← if value.isVoid then pure [] else storeInto (.var ref.var span) value span
  return (stores ++ [.leave span ref.loop], .void span)

/-- What a loop stands for; a loop that is never left has no value. -/
def loopValue (id : VarId) (span : Span) : Lower Value := do
  let var ← askScope (·.var id)
  match var.type with
  | none => return .void span
  | some _ => valueOf id span

end Lower

end SlotCode
