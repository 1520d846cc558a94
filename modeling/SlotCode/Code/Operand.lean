import SlotCode.Types.Graph

/-!
# Operands and values

An operand is a scalar expression without effects over the variables of a function.  A value is
what an expression has been lowered to: nothing, one operand, or the operands of the leaves of a
tuple.  Equality of operands is decided by `Operand.same`.
-/

namespace SlotCode

/-- The number of a variable in the table of its function, without an upper bound. -/
abbrev VarId := Nat

inductive Operand where
  | var (id : VarId)
  | int (value : Int)
  | bool (value : Bool)
  | str (value : String)
  /-- The operator folded over all operands; `type` is the type of the result. -/
  | arith (op : ArithOp) (type : TypeId) (operands : List Operand)
  | compare (left : VarId) (op : CmpOp) (right : VarId)

namespace Operand

mutual

def same : Operand → Operand → Bool
  | .var a, .var b => a = b
  | .int a, .int b => a = b
  | .bool a, .bool b => a = b
  | .str a, .str b => a = b
  | .arith op type operands, .arith op' type' operands' =>
    op = op' && type = type' && sameAll operands operands'
  | .compare left op right, .compare left' op' right' => left = left' && op = op' && right = right'
  | _, _ => false

def sameAll : List Operand → List Operand → Bool
  | [], [] => true
  | a :: as, b :: bs => same a b && sameAll as bs
  | _, _ => false

end

mutual

theorem same_iff (a b : Operand) : same a b = true ↔ a = b := by
  cases a <;> cases b <;> simp [same, and_assoc]
  case arith.arith op type operands op' type' operands' =>
    simp [sameAll_iff operands operands']
termination_by structural a

theorem sameAll_iff (as bs : List Operand) : sameAll as bs = true ↔ as = bs := by
  cases as with
  | nil => cases bs <;> simp [sameAll]
  | cons a as =>
    cases bs with
    | nil => simp [sameAll]
    | cons b bs => simp [sameAll, same_iff a b, sameAll_iff as bs]
termination_by structural as

end

instance : DecidableEq Operand := fun a b => decidable_of_iff _ (same_iff a b)

end Operand

/-- The operands that a value is made of. -/
inductive Shape where
  | void
  | scalar (operand : Operand)
  /-- The leaves of a tuple; nested tuples are spliced in. -/
  | tuple (leaves : List Operand)
deriving DecidableEq

structure Value where
  type : TypeId
  span : Span
  shape : Shape
deriving DecidableEq

namespace Value

def void (span : Span) : Value :=
  { type := TypeId.void, span := span, shape := .void }

def scalar (type : TypeId) (span : Span) (operand : Operand) : Value :=
  { type := type, span := span, shape := .scalar operand }

def tuple (type : TypeId) (span : Span) (leaves : List Operand) : Value :=
  { type := type, span := span, shape := .tuple leaves }

def isVoid (v : Value) : Bool :=
  v.shape = .void

def leaves (v : Value) : List Operand :=
  match v.shape with
  | .void => []
  | .scalar operand => [operand]
  | .tuple leaves => leaves

/-- The variable that the value merely reads, if it does no more. -/
def asVar? (v : Value) : Option VarId :=
  match v.shape with
  | .scalar (.var id) => some id
  | _ => none

end Value

end SlotCode
