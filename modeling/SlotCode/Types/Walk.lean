import SlotCode.Types.Graph

/-!
# Walks through the type graph

Three walks that start at one type: its leaves, the search for placeholders, and its text.

The walk for leaves follows tuples, and the walk for the text follows all parts but enters a list
only through its item.  In a graph whose cycles all go through the payload of a list both end.  Such
a walk never meets one node twice on its way down, so it is no deeper than the graph has nodes: a
walk that goes deeper runs around a cycle and is `endless`.  The search for placeholders passes by
nodes it has met before, and ends in every graph.
-/

namespace SlotCode.TypeGraph

/-- Deepest way down that meets no node twice, and one step more for a number without a node. -/
def depth (g : TypeGraph) : Nat :=
  g.size + 1

/-! ## Leaves -/

def leavesWithin (g : TypeGraph) : Nat → TypeId → Except Fault (List TypeId)
  | 0, _ => .error .endless
  | fuel + 1, id => do
    match ← g.kind id with
    | .tuple items => return (← items.mapM (g.leavesWithin fuel)).flatten
    | _ => return [id]

/-- The parts of a type that are not tuples, in order.  A type that is no tuple is its only leaf. -/
def leaves (g : TypeGraph) (id : TypeId) : Except Fault (List TypeId) :=
  g.leavesWithin g.depth id

/-! ## Placeholders -/

/-- Searches below a type, with the list of nodes met so far as its state.  Stops at the first
placeholder. -/
def searchWithin (g : TypeGraph) : Nat → TypeId → StateT (List TypeId) (Except Fault) Bool
  | 0, _ => throw .endless
  | fuel + 1, id => do
    let seen ← get
    if id ∈ seen then
      return false
    set (id :: seen)
    match ← g.kind id with
    | .placeholder _ => return true
    | .tuple items => items.anyM (g.searchWithin fuel)
    | .box payload | .list _ payload => g.searchWithin fuel payload
    | .function params result _ => (params ++ [result]).anyM (g.searchWithin fuel)
    | .void | .integer | .boolean | .string => return false

/-- Whether a placeholder can be reached from the type. -/
def hasPlaceholder (g : TypeGraph) (id : TypeId) : Except Fault Bool :=
  (g.searchWithin g.depth id).run' []

/-! ## Text -/

def textWithin (g : TypeGraph) : Nat → TypeId → Except Fault String
  | 0, _ => .error .endless
  | fuel + 1, id => do
    match ← g.kind id with
    | .void => return "void"
    | .integer => return "Integer"
    | .boolean => return "Boolean"
    | .string => return "String"
    | .tuple items => return "(" ++ ", ".intercalate (← items.mapM (g.textWithin fuel)) ++ ")"
    | .box payload => return "Box(" ++ (← g.textWithin fuel payload) ++ ")"
    | .list item _ => return "List(" ++ (← g.textWithin fuel item) ++ ")"
    | .placeholder name => return "GenericBox<" ++ name ++ ">"
    | .function params result native =>
      let params ← params.mapM (g.textWithin fuel)
      let result ← g.textWithin fuel result
      let mark := if native then "(native) " else ""
      return mark ++ " -> ".intercalate (params ++ [result])

/-- How a type is written in messages.  A list shows its item only. -/
def text (g : TypeGraph) (id : TypeId) : Except Fault String :=
  g.textWithin g.depth id

end SlotCode.TypeGraph
