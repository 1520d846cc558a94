import SlotCode.Proofs.EitherWay
import SlotCode.Proofs.Types.Embedding
import SlotCode.Types.Instantiate

/-!
# What a copy adds

While a type is copied, some numbers are *open*: they have been taken for copies that are not finished,
and their nodes are still `void`.  What each addition keeps, up to what holds of open numbers, is kept by
copying a type.  If the copy fails, numbers may stay open.
-/

namespace SlotCode

def TypeKind.isCompound : TypeKind → Bool
  | .tuple _ | .box _ | .list _ _ | .function _ _ _ => true
  | _ => false

namespace Instantiation

/-- What holds of a graph with open numbers goes on to hold if a compound type is added, if a number is
taken, and if the copy is finished that a number was taken for. -/
structure Invariant (I : (TypeId → Prop) → TypeGraph → Prop) : Prop where
  add {opens : TypeId → Prop} {g : TypeGraph} {kind : TypeKind} (origin : Option Span) :
    kind.isCompound = true → I opens g → I opens (g.add kind origin).2
  take {opens : TypeId → Prop} {g : TypeGraph} (origin : Option Span) :
    I opens g → I (fun id => opens id ∨ id = g.size) (g.add .void origin).2
  finish {opens : TypeId → Prop} {g : TypeGraph} {id : TypeId} {kind : TypeKind} :
    kind.isCompound = true → I (fun x => opens x ∨ x = id) g → I opens (g.setKind id kind)

/-- How a copy can fail. -/
def Stops : Failure TypeError → Prop
  | .fault _ | .error (.unboundPlaceholder _ _) => True
  | _ => False

variable {I : (TypeId → Prop) → TypeGraph → Prop} {opens : TypeId → Prop} {s : Instantiation}

/-- The run keeps what holds, or it stops and numbers stay open. -/
abbrev Holds (I : (TypeId → Prop) → TypeGraph → Prop) (opens : TypeId → Prop) {α : Type}
    (r : EStateM.Result (Failure TypeError) Instantiation α) : Prop :=
  EndsIn (fun t => I opens t.graph) (fun e t => Stops e ∧ ∃ opens, I opens t.graph) r

/-- A number is taken and noted before the copy is made. -/
theorem holds_taken (hI : Invariant I) (hs : I opens s.graph) {id : TypeId} {origin : Option Span}
    {α : Type} {rest : TypeId → Step α}
    (hrest : ∀ t : Instantiation, I (fun x => opens x ∨ x = s.graph.size) t.graph →
      Holds I opens (rest s.graph.size t)) :
    Holds I opens ((add .void origin >>= fun copy => note id copy >>= fun _ => rest copy) s) :=
  hrest ⟨(s.graph.add .void origin).2, (id, s.graph.size) :: s.copies⟩ (hI.take origin hs)

theorem copyWithin_holds (hI : Invariant I) (bindings : Bindings) (span : Span) (fuel : Nat) (id : TypeId)
    (hs : I opens s.graph) : Holds I opens (copyWithin bindings span fuel id s) := by
  induction fuel generalizing id opens s with
  | zero => exact ⟨trivial, opens, hs⟩
  | succ fuel ih =>
    have hparts : ∀ {t : Instantiation} {opens : TypeId → Prop} (parts : List TypeId), I opens t.graph →
        Holds I opens (parts.mapM (copyWithin bindings span fuel) t) :=
      fun parts ht => .mapM (fun part t ht => ih part ht) parts ht
    rw [copyWithin, get_bind]
    cases s.copies.lookup id with
    | some copy => exact hs
    | none =>
      cases s.graph.node id with
      | error fault => exact ⟨trivial, opens, hs⟩
      | ok node =>
        dsimp only
        rw [query_ok_bind]
        cases node.kind with
        | void | integer | boolean | string => exact hs
        | tuple items => exact .bind (hparts items hs) fun _ t _ ht => hI.add _ rfl ht
        | box payload =>
          refine holds_taken hI hs fun t ht => ?_
          exact .bind (ih payload ht) fun _ u _ hu => hI.finish rfl hu
        | list item payload =>
          refine holds_taken hI hs fun t ht => ?_
          exact .bind (ih item ht) fun _ u _ hu => .bind (ih payload hu) fun _ w _ hw => hI.finish rfl hw
        | placeholder name =>
          dsimp only
          cases bindings.get? name with
          | some bound => exact hI.add _ rfl hs
          | none => exact ⟨trivial, opens, hs⟩
        | function params result native =>
          exact .bind (hparts params hs) fun _ t _ ht => .bind (ih result ht) fun _ u _ hu =>
            hI.add _ rfl hu

end Instantiation

namespace TypeGraph

variable {I : (TypeId → Prop) → TypeGraph → Prop} {g : TypeGraph}

theorem instantiate_holds (hI : Instantiation.Invariant I) (hg : I (fun _ => False) g) (id : TypeId)
    (bindings : Bindings) (span : Span) :
    EndsIn (I fun _ => False) (fun e g' => Instantiation.Stops e ∧ ∃ opens, I opens g')
      (instantiate id bindings span g) := by
  have hcopy := Instantiation.copyWithin_holds (s := ⟨g, []⟩) hI bindings span g.copyDepth id hg
  unfold instantiate
  split
  · exact ⟨trivial, _, hg⟩
  · exact hg
  · split
    · next hrun =>
      rw [hrun] at hcopy
      exact hcopy
    · next hrun =>
      rw [hrun] at hcopy
      exact hcopy

/-- Open numbers are new. -/
theorem keptIn_invariant (g : TypeGraph) :
    Instantiation.Invariant fun opens g' => g.KeptIn g' ∧ ∀ id, opens id → g.size ≤ id where
  add origin _ h := ⟨h.1.trans (keptIn_add _ _ origin), h.2⟩
  take origin h := by
    refine ⟨h.1.trans (keptIn_add _ _ origin), ?_⟩
    rintro id (hid | rfl)
    · exact h.2 id hid
    · exact h.1.extends.size_le
  finish _ h := ⟨h.1.setKind (h.2 _ (.inr rfl)) _, fun id hid => h.2 id (.inl hid)⟩

/-- Nodes that were there are kept, whether or not the copy succeeds. -/
theorem instantiate_keptIn (id : TypeId) (bindings : Bindings) (span : Span) (g : TypeGraph) :
    g.KeptIn (stateAfter (instantiate id bindings span g)) := by
  have hends := instantiate_holds g.keptIn_invariant ⟨.refl g, fun _ => False.elim⟩ id bindings span
  cases hrun : instantiate id bindings span g with
  | ok r g' =>
    rw [hrun] at hends
    exact hends.1
  | error e g' =>
    rw [hrun] at hends
    obtain ⟨-, opens, hkept, -⟩ := hends
    exact hkept

end TypeGraph

end SlotCode
