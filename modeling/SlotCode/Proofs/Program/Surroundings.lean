import SlotCode.Proofs.Lowering.Kept

/-!
# The surroundings of an expression

Lowering an expression leaves its surroundings as they are, whether or not it succeeds
(`lowerExpr_keeps_surroundings`): the same contexts are open, so that every name and every label stands
for what it stood for, and what a variable has been given it keeps.  This is said of every session, not
only of those that lowering can reach.
-/

namespace SlotCode

open Lower

/-- What a context says about names and loops, and which context it is. -/
def Context.view (c : Context) : ContextId × List (String × VarId) × List (Option String × LoopRef) :=
  (c.id, c.names, c.loops)

theorem Context.Keeps.view {n : VarId} {c c' : Context} (h : c.Keeps false n c') : c'.view = c.view := by
  have hframe := h.frame rfl
  rw [Context.frame, Context.frame, Frame.mk.injEq] at hframe
  rw [Context.view, Context.view, h.id, hframe.1, hframe.2]

namespace Scope

variable {s t : Scope}

theorem Keeps.views (h : s.Keeps false t) : t.contexts.map Context.view = s.contexts.map Context.view := by
  have houter : t.outer.map Context.view = s.outer.map Context.view :=
    List.forall₂_eq_eq_eq ▸ List.forall₂_map_left_iff.2
      (List.forall₂_map_right_iff.2 (h.outer.flip.imp fun _ _ hc => hc.view))
  rw [contexts, contexts, List.map_cons, List.map_cons, h.current.view, houter]

/-- A search through the contexts that reads only their views. -/
theorem contexts_findSome?_eq {α : Type} (f : List (String × VarId) → Option α)
    (h : t.contexts.map Context.view = s.contexts.map Context.view) :
    t.contexts.findSome? (fun c => f c.names) = s.contexts.findSome? fun c => f c.names := by
  have hview : ∀ u : Scope, u.contexts.findSome? (fun c => f c.names) =
      (u.contexts.map Context.view).findSome? fun v => f v.2.1 := fun u => by
    rw [List.findSome?_map]
    rfl
  rw [hview, hview, h]

theorem openLoops_eq (h : t.contexts.map Context.view = s.contexts.map Context.view) :
    t.openLoops = s.openLoops := by
  have hview : ∀ u : Scope, u.openLoops = (u.contexts.map Context.view).flatMap fun v => v.2.2 :=
    fun u => by
      rw [List.flatMap_map]
      rfl
  rw [hview, hview, h]

end Scope

/-- Lowering an expression does not disturb its surroundings. -/
theorem lowerExpr_keeps_surroundings (e : Expr) (s : Session) :
    let t := stateAfter (lowerExpr e s)
    t.scope.contexts.map Context.view = s.scope.contexts.map Context.view ∧
    (∀ name span, t.scope.lookup name span = s.scope.lookup name span) ∧
    (∀ label span, t.scope.findLoop label span = s.scope.findLoop label span) ∧
    (∀ span, t.scope.innermostLoop span = s.scope.innermostLoop span) ∧
    (∀ name span, t.scope.signature name span = s.scope.signature name span) ∧
    (∀ id kind, s.types.kind id = .ok kind → t.types.kind id = .ok kind) ∧
    ∀ (id : VarId) (entry : OwnedVar), s.scope.vars[id]? = some entry →
      ∃ entry' : OwnedVar, t.scope.vars[id]? = some entry' ∧
        entry'.var.name = entry.var.name ∧ entry'.owner = entry.owner ∧
        (∀ type, entry.var.type = some type → entry'.var.type = some type) ∧
        (∀ leaves, entry.var.leaves = some leaves → entry'.var.leaves = some leaves) ∧
        entry'.var.slot = entry.var.slot := by
  intro t
  have hkeeps : s.Keeps false t := lowerExpr_keeps e s
  have hviews := hkeeps.scope.views
  have hloops := Scope.openLoops_eq hviews
  refine ⟨hviews, ?_, ?_, ?_, ?_, hkeeps.types.extends, ?_⟩
  · intro name span
    rw [Scope.lookup, Scope.lookup, Scope.contexts_findSome?_eq (·.lookup name) hviews]
  · intro label span
    rw [Scope.findLoop, Scope.findLoop, hloops]
  · intro span
    rw [Scope.innermostLoop, Scope.innermostLoop, hloops]
  · intro name span
    rw [Scope.signature, Scope.signature, hkeeps.scope.functions]
  · intro id entry hentry
    obtain ⟨entry', hentry', hvar, howner⟩ := hkeeps.scope.vars hentry
    exact ⟨entry', hentry', hvar.name, howner, hvar.type, hvar.leaves, hvar.slot⟩

end SlotCode
