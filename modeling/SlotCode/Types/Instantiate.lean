import SlotCode.Types.Match

/-!
# Filling in placeholders

Replaces each placeholder below a type by a box around the type it is bound to.  The result is a new
part of the graph; nodes that exist are not changed.  Boxes and lists are copied once each, which
keeps the cycles of lists, while a tuple is copied wherever it is met.

The number of a copy is taken before its parts are copied.  Where a placeholder has no binding, or a
number no node, the copy stops: finished copies stay in the graph, and the numbers taken for
unfinished ones stay as `void` nodes.
-/

namespace SlotCode

/-- State of a copy: the graph, and the copies made of boxes, lists and placeholders. -/
structure Instantiation where
  graph : TypeGraph
  copies : List (TypeId × TypeId)

namespace Instantiation

abbrev Step := EStateM (Failure TypeError) Instantiation

def add (kind : TypeKind) (origin : Option Span) : Step TypeId := fun s =>
  let (id, graph) := s.graph.add kind origin
  .ok id { s with graph := graph }

def setKind (id : TypeId) (kind : TypeKind) : Step Unit := fun s =>
  .ok () { s with graph := s.graph.setKind id kind }

/-- Notes that `copy` is the copy of `id`. -/
def note (id copy : TypeId) : Step Unit := fun s =>
  .ok () { s with copies := (id, copy) :: s.copies }

def copyWithin (bindings : Bindings) (span : Span) : Nat → TypeId → Step TypeId
  | 0, _ => query (.error .endless)
  | fuel + 1, id => do
    let state ← get
    match state.copies.lookup id with
    | some copy => return copy
    | none =>
      let node ← query (state.graph.node id)
      match node.kind with
      | .void | .integer | .boolean | .string => return id
      | .tuple items =>
        let items ← items.mapM (copyWithin bindings span fuel)
        add (.tuple items) node.origin
      | .box payload =>
        let copy ← add .void node.origin
        note id copy
        let payload ← copyWithin bindings span fuel payload
        setKind copy (.box payload)
        return copy
      | .list item payload =>
        let copy ← add .void node.origin
        note id copy
        let item ← copyWithin bindings span fuel item
        let payload ← copyWithin bindings span fuel payload
        setKind copy (.list item payload)
        return copy
      | .placeholder name =>
        match bindings.get? name with
        | some bound =>
          let copy ← add (.box bound) node.origin
          note id copy
          return copy
        | none => fail (.unboundPlaceholder name span)
      | .function params result native =>
        let params ← params.mapM (copyWithin bindings span fuel)
        let result ← copyWithin bindings span fuel result
        add (.function params result native) (if native then none else node.origin)

end Instantiation

namespace TypeGraph

/-- Between two boxes a walk that ends meets no node twice, and it enters no box twice. -/
def copyDepth (g : TypeGraph) : Nat :=
  (g.size + 1) * (g.size + 1)

/-- The type with its placeholders filled in, as seen from a call at `span`.  A type without
placeholders is its own instance. -/
def instantiate (id : TypeId) (bindings : Bindings) (span : Span) :
    EStateM (Failure TypeError) TypeGraph TypeId := fun g =>
  match g.hasPlaceholder id with
  | .error fault => .error (.fault fault) g
  | .ok false => .ok id g
  | .ok true =>
    match Instantiation.copyWithin bindings span g.copyDepth id ⟨g, []⟩ with
    | .ok copy state => .ok copy state.graph
    | .error failure state => .error failure state.graph

end TypeGraph

end SlotCode
