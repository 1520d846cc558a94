import SlotCode.Code.Function
import SlotCode.Proofs.Meaning.Values

/-!
# The meaning of flat code

A machine for flat code.  Its store holds one word for each variable that has been written; reading
any other variable is stuck.  A call runs the code of a function on a store that holds its arguments
and nothing else.
-/

namespace SlotCode

/-- What the variables hold; a variable that was never written holds nothing. -/
abbrev Store := VarId → Option Word

namespace Store

def empty : Store := fun _ => none

def write (σ : Store) (id : VarId) (word : Word) : Store := fun other =>
  if other = id then some word else σ other

/-- Writes one word for each variable, in order. -/
def writeAll (σ : Store) : List VarId → List Word → Option Store
  | [], [] => some σ
  | id :: ids, word :: words => (σ.write id word).writeAll ids words
  | _, _ => none

end Store

/-- State of a machine. -/
structure Machine where
  store : Store
  printed : List String

/-- How code ends: after its last command, or on its way out of a loop. -/
inductive Exit where
  | done
  | leave (loop : LoopId)
deriving DecidableEq

mutual

/-- What an operand stands for in a store. -/
def Operand.eval (A : Arithmetic) (σ : Store) : Operand → Option Word
  | .var id => σ id
  | .int value => some (.datum (.int value))
  | .bool value => some (.datum (.bool value))
  | .str value => some (.datum (.str value))
  | .arith op _ operands => do
    let words ← Operand.evalAll A σ operands
    let data ← words.mapM Word.datum?
    return .datum (A op data)
  | .compare left op right =>
    match σ left, σ right with
    | some (.datum (.int a)), some (.datum (.int b)) => some (.datum (.bool (op.holds a b)))
    | _, _ => none

def Operand.evalAll (A : Arithmetic) (σ : Store) : List Operand → Option (List Word)
  | [] => some []
  | operand :: operands => do
    let word ← Operand.eval A σ operand
    let words ← Operand.evalAll A σ operands
    return word :: words

end

/-- What a primitive gives for its inputs, and the line it prints if it does.  An empty box has
nothing to unwrap. -/
def Primitive.run : Primitive → List Word → Option (List Word × List String)
  | .wrap, words => some ([.box (some words)], [])
  | .wrapEmpty, [] => some ([.box none], [])
  | .unwrap, [.box (some words)] => some (words, [])
  | .full, [.box payload] => some ([.datum (.bool payload.isSome)], [])
  | .print, [.datum (.str line)] => some ([], [line])
  | _, _ => none

section

variable (A : Arithmetic) (p : Program)

/-- Runs code.  It gives nothing if it is stuck or takes more than `fuel` steps. -/
def exec (fuel : Nat) (code : Code) (m : Machine) : Option (Exit × Machine) :=
  match fuel, code with
  | 0, _ => none
  | _ + 1, [] => some (.done, m)
  | n + 1, .assign _ dest value :: rest => do
    let word ← value.eval A m.store
    exec n rest { m with store := m.store.write dest word }
  | n + 1, .call _ target inputs outputs :: rest => do
    let f ← p.function? target
    let inputs ← Operand.evalAll A m.store inputs
    let store ← Store.empty.writeAll f.args inputs
    match ← exec n f.code ⟨store, m.printed⟩ with
    | (.done, m') =>
      let results ← Operand.evalAll A m'.store f.value
      let store ← m.store.writeAll outputs results
      exec n rest ⟨store, m'.printed⟩
    | (.leave _, _) => none
  | n + 1, .native _ primitive inputs outputs :: rest => do
    let inputs ← Operand.evalAll A m.store inputs
    let (results, lines) ← primitive.run inputs
    let store ← m.store.writeAll outputs results
    exec n rest ⟨store, m.printed ++ lines⟩
  | n + 1, .branch _ test yes no :: rest => do
    match ← test.eval A m.store with
    | .datum (.bool b) =>
      match ← exec n (if b then yes else no) m with
      | (.done, m) => exec n rest m
      | (.leave loop, m) => some (.leave loop, m)
    | _ => none
  | n + 1, .loop span id body :: rest => do
    match ← exec n body m with
    | (.done, m) => exec n (.loop span id body :: rest) m
    | (.leave loop, m) => if loop = id then exec n rest m else some (.leave loop, m)
  | _ + 1, .leave _ loop :: _ => some (.leave loop, m)

/-- Runs a function on a store that holds its arguments, and gives what it returns and prints. -/
def runFunction (fuel : Nat) (f : Function) (args : List Word) :
    Option (List Word × List String) := do
  let store ← Store.empty.writeAll f.args args
  match ← exec A p fuel f.code ⟨store, []⟩ with
  | (.done, m) =>
    let results ← Operand.evalAll A m.store f.value
    return (results, m.printed)
  | (.leave _, _) => none

end

end SlotCode
