import SlotCode.Types.Error
import SlotCode.Types.Walk

/-!
# Matching types

Whether a value of one type can be stored where another is required.  The two types must have the
same structure; where the tree of a type is infinite, as that of a list is, the whole infinite trees
must agree.  When a call is matched, a placeholder on the required side also accepts every box, and
the payload of that box is noted as what the placeholder stands for.

A pair of boxes that has been entered before is accepted.  That is sound because the pair is being
compared already, and it is what makes the comparison of cyclic types end.
-/

namespace SlotCode

/-- What placeholders stand for.  The first entry of a name counts. -/
abbrev Bindings := List (String × TypeId)

namespace Bindings

def get? (b : Bindings) (name : String) : Option TypeId :=
  b.lookup name

/-- Gives the name a type, in place of the one it has. -/
def insert (b : Bindings) (name : String) (id : TypeId) : Bindings :=
  (name, id) :: b

/-- Gives the name a type unless it has one. -/
def insertNew (b : Bindings) (name : String) (id : TypeId) : Bindings :=
  if (b.get? name).isSome then b else b.insert name id

end Bindings

/-- State of a comparison: the pairs of boxes that were entered, and the bindings made so far.
Without bindings a placeholder matches itself only. -/
structure Matching where
  entered : List (TypeId × TypeId)
  bindings : Option Bindings

namespace TypeGraph

/-- The error of two types that differ at these places. -/
def mismatch {σ : Type} (g : TypeGraph) (expected found : TypeId)
    (expectedSpan foundSpan : Span) : EStateM (Failure TypeError) σ Unit := do
  let expected ← query (g.text expected)
  let found ← query (g.text found)
  fail (.mismatch expected found expectedSpan foundSpan)

/-- The error of two tuples that differ in length. -/
def tupleArity {σ : Type} (g : TypeGraph) (expected found : TypeId)
    (expectedSpan foundSpan : Span) : EStateM (Failure TypeError) σ Unit := do
  let expected ← query (g.text expected)
  let found ← query (g.text found)
  fail (.tupleArity expected found expectedSpan foundSpan)

/-- Compares from the found side.  The origin of a tuple is the better place to report, so it
replaces the place given. -/
def matchWithin (g : TypeGraph) :
    Nat → TypeId → TypeId → Span → Span → EStateM (Failure TypeError) Matching Unit
  | 0, _, _, _, _ => query (.error .endless)
  | fuel + 1, expected, found, expectedSpan, foundSpan => do
    if expected = found then
      return ()
    let foundNode ← query (g.node found)
    match foundNode.kind with
    | .tuple foundItems =>
      let foundSpan := foundNode.origin.getD foundSpan
      let expectedNode ← query (g.node expected)
      match expectedNode.kind with
      | .tuple expectedItems =>
        let expectedSpan := expectedNode.origin.getD expectedSpan
        if expectedItems.length = foundItems.length then
          (expectedItems.zip foundItems).forM fun (e, f) =>
            g.matchWithin fuel e f expectedSpan foundSpan
        else
          g.tupleArity expected found expectedSpan foundSpan
      | _ => g.mismatch expected found expectedSpan foundSpan
    | .box foundPayload | .list _ foundPayload =>
      let expectedKind ← query (g.kind expected)
      let state ← get
      match expectedKind, state.bindings with
      | .placeholder name, some bindings =>
        set { state with bindings := some (bindings.insertNew name foundPayload) }
      | .box payload, _ | .list _ payload, _ =>
        if (expected, found) ∈ state.entered then
          return ()
        set { state with entered := (expected, found) :: state.entered }
        g.matchWithin fuel payload foundPayload expectedSpan foundSpan
      | _, _ => g.mismatch expected found expectedSpan foundSpan
    | .placeholder foundName =>
      if (← query (g.kind expected)) = .placeholder foundName then
        return ()
      g.mismatch expected found expectedSpan foundSpan
    | .void | .integer | .boolean | .string | .function _ _ _ =>
      g.mismatch expected found expectedSpan foundSpan

/-- Between two pairs of boxes a walk that ends meets no pair of tuples twice, and it enters no
pair of boxes twice. -/
def matchDepth (g : TypeGraph) : Nat :=
  (g.size * g.size + 1) * (g.size * g.size + 1)

/-- Matches a found type with the type required, if one is.  The bindings made before a failure,
be it an error or a fault, are kept. -/
def matchTypes (g : TypeGraph) (expected : Option TypeId) (found : TypeId)
    (expectedSpan foundSpan : Span) : EStateM (Failure TypeError) (Option Bindings) Unit :=
  fun bindings =>
    match expected with
    | none => .ok () bindings
    | some expected =>
      match g.matchWithin g.matchDepth expected found expectedSpan foundSpan ⟨[], bindings⟩ with
      | .ok () state => .ok () state.bindings
      | .error failure state => .error failure state.bindings

end TypeGraph

end SlotCode
