import SlotCode.Fault
import SlotCode.Source.Tree

/-!
# The type graph

Types are nodes of a graph and are named by their number.  Nodes are only ever added.  The four
unit types have fixed numbers, so two of them are the same type exactly if their numbers are equal.
The numbers have no upper bound here; in 32-bit words they are the same for graphs of up to `2^32`
nodes.

A list is a box around a pair of an item and the list itself, so its node lies on a cycle:

    l     : list item p
    p     : tuple [item, l]
-/

namespace SlotCode

/-- The number of a node in a type graph. -/
abbrev TypeId := Nat

inductive TypeKind where
  | void
  | integer
  | boolean
  | string
  | tuple (items : List TypeId)
  | box (payload : TypeId)
  /-- A box whose payload is the pair of an item and this list. -/
  | list (item payload : TypeId)
  /-- A box whose payload each call chooses. -/
  | placeholder (name : String)
  | function (params : List TypeId) (result : TypeId) (native : Bool)
deriving DecidableEq

/-- A type, and the place where it was written if it was. -/
structure TypeNode where
  kind : TypeKind
  origin : Option Span
deriving DecidableEq

structure TypeGraph where
  nodes : Array TypeNode
deriving DecidableEq

namespace TypeId

abbrev void : TypeId := 0
abbrev integer : TypeId := 1
abbrev boolean : TypeId := 2
abbrev string : TypeId := 3

def isVoid (id : TypeId) : Bool :=
  id = void

/-- Whether the type is one of `Integer`, `Boolean` and `String`. -/
def isUnit (id : TypeId) : Bool :=
  id = integer ∨ id = boolean ∨ id = string

end TypeId

namespace TypeKind

def items? : TypeKind → Option (List TypeId)
  | .tuple items => some items
  | _ => none

/-- What a box or a list holds. -/
def payload? : TypeKind → Option TypeId
  | .box payload | .list _ payload => some payload
  | _ => none

def item? : TypeKind → Option TypeId
  | .list item _ => some item
  | _ => none

def isList : TypeKind → Bool
  | .list _ _ => true
  | _ => false

/-- Whether it is the type of a function that takes and returns nothing. -/
def isEntry : TypeKind → Bool
  | .function params result _ => params = [TypeId.void] ∧ result = TypeId.void
  | _ => false

end TypeKind

namespace TypeGraph

/-! ## Building -/

/-- The unit types alone. -/
def initial : TypeGraph :=
  { nodes := #[⟨.void, none⟩, ⟨.integer, none⟩, ⟨.boolean, none⟩, ⟨.string, none⟩] }

def size (g : TypeGraph) : Nat :=
  g.nodes.size

/-- Adds a node under the next free number. -/
def add (g : TypeGraph) (kind : TypeKind) (origin : Option Span) : TypeId × TypeGraph :=
  (g.size, { nodes := g.nodes.push ⟨kind, origin⟩ })

/-- Changes what a node is and leaves its origin. -/
def setKind (g : TypeGraph) (id : TypeId) (kind : TypeKind) : TypeGraph :=
  { nodes := g.nodes.modify id fun node => { node with kind := kind } }

/-- Adds a list and the pair that it holds.  The list takes its number first, so that the pair can
mention it. -/
def addList (g : TypeGraph) (item : TypeId) (origin : Option Span) : TypeId × TypeGraph :=
  let (list, g) := g.add .void origin
  let (pair, g) := g.add (.tuple [item, list]) origin
  (list, g.setKind list (.list item pair))

/-- Native functions are written nowhere, so they have no origin. -/
def addNative (g : TypeGraph) (params : List TypeId) (result : TypeId) : TypeId × TypeGraph :=
  g.add (.function params result true) none

mutual

/-- Adds the nodes of a written type, parts before the whole. -/
def resolve (g : TypeGraph) : TypeExpr → TypeId × TypeGraph
  | .void _ => (TypeId.void, g)
  | .integer _ => (TypeId.integer, g)
  | .boolean _ => (TypeId.boolean, g)
  | .string _ => (TypeId.string, g)
  | .tuple span items =>
    let (ids, g) := g.resolveAll items
    g.add (.tuple ids) (some span)
  | .box span payload =>
    let (id, g) := g.resolve payload
    g.add (.box id) (some span)
  | .list span item =>
    let (id, g) := g.resolve item
    g.addList id (some span)
  | .placeholder span name => g.add (.placeholder name) (some span)

/-- Adds the nodes of several written types from left to right. -/
def resolveAll (g : TypeGraph) : List TypeExpr → List TypeId × TypeGraph
  | [] => ([], g)
  | type :: types =>
    let (id, g) := g.resolve type
    let (ids, g) := g.resolveAll types
    (id :: ids, g)

end

/-! ## Reading -/

def node (g : TypeGraph) (id : TypeId) : Except Fault TypeNode :=
  match g.nodes[id]? with
  | some node => .ok node
  | none => .error (.unknownType id)

def kind (g : TypeGraph) (id : TypeId) : Except Fault TypeKind :=
  (g.node id).map TypeNode.kind

def origin (g : TypeGraph) (id : TypeId) : Except Fault (Option Span) :=
  (g.node id).map TypeNode.origin

end TypeGraph

end SlotCode
