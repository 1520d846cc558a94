import SlotCode.Code.Operand

/-!
# Commands

Flat code is a list of commands over scalar variables.  Only conditionals and loops nest.
-/

namespace SlotCode

/-- The number of a loop, different for all loops of a program, without an upper bound. -/
abbrev LoopId := Nat

/-- Operations that the machine below has to provide. -/
inductive Primitive where
  /-- A fresh box that holds the inputs. -/
  | wrap
  /-- The empty box. -/
  | wrapEmpty
  /-- What the box holds; an empty box has nothing to give. -/
  | unwrap
  /-- Whether the box holds something. -/
  | full
  | print
deriving DecidableEq

namespace Primitive

def name : Primitive → String
  | .wrap => "wrap"
  | .wrapEmpty => "wrap_empty"
  | .unwrap => "unwrap"
  | .full => "full"
  | .print => "print"

def all : List Primitive :=
  [.wrap, .wrapEmpty, .unwrap, .full, .print]

def ofName? (name : String) : Option Primitive :=
  all.find? fun p => p.name = name

theorem ofName?_name (p : Primitive) : ofName? p.name = some p := by
  cases p <;> decide

end Primitive

inductive Command where
  | assign (span : Span) (dest : VarId) (value : Operand)
  | call (span : Span) (target : String) (inputs : List Operand) (outputs : List VarId)
  | native (span : Span) (primitive : Primitive) (inputs : List Operand) (outputs : List VarId)
  | branch (span : Span) (test : Operand) (yes no : List Command)
  /-- Repeats its body until a `leave` with its number. -/
  | loop (span : Span) (id : LoopId) (body : List Command)
  | leave (span : Span) (id : LoopId)

abbrev Code := List Command

namespace Command

mutual

def same : Command → Command → Bool
  | .assign span dest value, .assign span' dest' value' =>
    span = span' && dest = dest' && value = value'
  | .call span target inputs outputs, .call span' target' inputs' outputs' =>
    span = span' && target = target' && inputs = inputs' && outputs = outputs'
  | .native span primitive inputs outputs, .native span' primitive' inputs' outputs' =>
    span = span' && primitive = primitive' && inputs = inputs' && outputs = outputs'
  | .branch span test yes no, .branch span' test' yes' no' =>
    span = span' && test = test' && sameAll yes yes' && sameAll no no'
  | .loop span id body, .loop span' id' body' => span = span' && id = id' && sameAll body body'
  | .leave span id, .leave span' id' => span = span' && id = id'
  | _, _ => false

def sameAll : List Command → List Command → Bool
  | [], [] => true
  | a :: as, b :: bs => same a b && sameAll as bs
  | _, _ => false

end

mutual

theorem same_iff (a b : Command) : same a b = true ↔ a = b := by
  cases a <;> cases b <;> simp [same, and_assoc]
  case branch.branch span test yes no span' test' yes' no' =>
    simp [sameAll_iff yes yes', sameAll_iff no no']
  case loop.loop span id body span' id' body' =>
    simp [sameAll_iff body body']
termination_by structural a

theorem sameAll_iff (as bs : List Command) : sameAll as bs = true ↔ as = bs := by
  cases as with
  | nil => cases bs <;> simp [sameAll]
  | cons a as =>
    cases bs with
    | nil => simp [sameAll]
    | cons b bs => simp [sameAll, same_iff a b, sameAll_iff as bs]
termination_by structural as

end

instance : DecidableEq Command := fun a b => decidable_of_iff _ (same_iff a b)

end Command

end SlotCode
