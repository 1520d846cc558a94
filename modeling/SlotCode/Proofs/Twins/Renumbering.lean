import SlotCode.Proofs.Code.Renamed
import SlotCode.Scope

/-!
# Scopes under other numbers

A scope can have other numbers for its types, contexts and loops.  The numbers of variables and slots
start over with each function and are the same.  Whatever is done to a scope can be done to it under
other numbers as well, and gives the same under these numbers.
-/

namespace SlotCode

open List

/-- Other numbers for types, contexts and loops. -/
structure Renumbering where
  types : TypeId → TypeId
  contexts : ContextId → ContextId
  loops : LoopId → LoopId
  types_inj : Function.Injective types
  types_void : types .void = .void
  contexts_inj : Function.Injective contexts
  /-- New contexts are numbered in step.  The outermost one may have any number. -/
  contexts_succ : ∀ id, 0 < id → contexts (id + 1) = contexts id + 1
  loops_succ : ∀ id, loops (id + 1) = loops id + 1

variable (r : Renumbering)

def LoopRef.renumber (ref : LoopRef) : LoopRef :=
  { ref with loop := r.loops ref.loop }

/-- The variables of a context keep their numbers. -/
def Context.renumber (c : Context) : Context :=
  { c with
    id := r.contexts c.id
    loops := c.loops.map fun l => (l.1, l.2.renumber r) }

def OwnedVar.renumber (entry : OwnedVar) : OwnedVar :=
  { var := entry.var.rename r.types, owner := r.contexts entry.owner }

namespace Scope

/-- The scope under other numbers, with a table of functions of its own. -/
def renumber (fs : List (String × Signature)) (s : Scope) : Scope :=
  { current := s.current.renumber r
    outer := s.outer.map (Context.renumber r)
    nextContext := r.contexts s.nextContext
    nextLoop := r.loops s.nextLoop
    vars := s.vars.map (OwnedVar.renumber r)
    locals := s.locals.map (Local.rename r.types)
    functions := fs }

variable (fs : List (String × Signature)) (s : Scope)

/-! ## Contexts -/

theorem contexts_renumber : (s.renumber r fs).contexts = s.contexts.map (Context.renumber r) :=
  rfl

/-- New contexts are numbered in step. -/
theorem push_renumber (h : 0 < s.nextContext) : (s.renumber r fs).push = s.push.renumber r fs := by
  simp only [push, renumber, r.contexts_succ _ h]
  rfl

end Scope

theorem Var.stored?_rename (v : Var) : (v.rename r.types).stored? = v.stored?.map r.types := by
  have hvoid : ∀ id, r.types id ≠ .void ↔ id ≠ .void := fun id =>
    not_congr ⟨fun h => r.types_inj (h.trans r.types_void.symm), fun h => h ▸ r.types_void⟩
  unfold stored?
  split
  · next hreal =>
    rw [if_pos (show v.isReal from hreal), Var.rename]
    cases v.type with
    | none => rfl
    | some type =>
      simp only [Option.map_some, Option.filter_some, decide_eq_true_eq, hvoid]
      split <;> rfl
  · next hreal => rw [if_neg (show ¬ v.isReal from hreal), Option.map_none]

namespace Scope

variable (fs : List (String × Signature)) (s : Scope)

theorem getElem?_renumber (id : VarId) :
    (s.renumber r fs).vars[id]? = s.vars[id]?.map (OwnedVar.renumber r) :=
  Array.getElem?_map ..

/-- Changing a variable and changing numbers can be done in either order. -/
theorem modify_map {α β : Type} (xs : Array α) (id : Nat) {f : α → α} {f' : β → β} {q : α → β}
    (h : ∀ x, f' (q x) = q (f x)) : (xs.map q).modify id f' = (xs.modify id f).map q := by
  refine Array.ext_getElem? fun i => ?_
  rw [Array.getElem?_map, Array.getElem?_modify, Array.getElem?_modify, Array.getElem?_map]
  split
  · cases xs[i]? with
    | none => rfl
    | some x => exact congrArg some (h x)
  · rfl

theorem store_renumber (id : VarId) : (s.renumber r fs).store id = (s.store id).renumber r fs := by
  rw [store, store, getElem?_renumber]
  cases hentry : s.vars[id]? with
  | none => rfl
  | some entry =>
    have hstored := entry.var.stored?_rename r
    simp only [Option.map_some, Option.bind_some, OwnedVar.renumber, hstored]
    cases entry.var.stored? with
    | none => rfl
    | some type =>
      simp only [Option.map_some, renumber, Array.map_push, Array.size_map, Local.rename]
      congr 1
      refine modify_map s.vars id ?_
      exact fun _ => rfl

theorem foldl_store_renumber (ids : List VarId) :
    ids.foldl store (s.renumber r fs) = (ids.foldl store s).renumber r fs := by
  induction ids generalizing s with
  | nil => rfl
  | cons id ids ih => rw [foldl_cons, foldl_cons, store_renumber, ih]

/-- Slots do not depend on the numbers of contexts. -/
theorem pop_renumber : (s.renumber r fs).pop = s.pop.renumber r fs := by
  rw [pop, pop]
  cases houter : s.outer with
  | nil => simp only [renumber, houter, map_nil]
  | cons parent outer =>
    have hfold := s.foldl_store_renumber r fs s.current.owned.reverse
    simp only [renumber, houter, map_cons, Context.renumber] at hfold ⊢
    rw [hfold]

/-! ## Variables -/

theorem addOwned_renumber (owner : ContextId) (id : VarId) (cs : List Context) :
    addOwned (r.contexts owner) id (cs.map (Context.renumber r)) =
      (addOwned owner id cs).map (Context.renumber r) := by
  induction cs with
  | nil => rfl
  | cons c cs ih =>
    rw [map_cons, addOwned, addOwned]
    by_cases h : c.id = owner
    · rw [if_pos h, if_pos (show (c.renumber r).id = r.contexts owner from congrArg _ h)]
      rfl
    · rw [if_neg h, if_neg (show (c.renumber r).id ≠ r.contexts owner from r.contexts_inj.ne h), ih]
      rfl

theorem newVar_renumber (name : Option String) (span : Span) (owner : ContextId) :
    (s.renumber r fs).newVar name span (r.contexts owner) =
      ((s.newVar name span owner).1, (s.newVar name span owner).2.renumber r fs) := by
  unfold newVar
  by_cases h : s.current.id = owner
  · rw [if_pos h, if_pos (show (s.renumber r fs).current.id = r.contexts owner from congrArg _ h)]
    simp only [renumber, Array.size_map, Array.map_push]
    rfl
  · rw [if_neg h, if_neg (show (s.renumber r fs).current.id ≠ r.contexts owner from
      r.contexts_inj.ne h)]
    simp only [renumber, Array.size_map, Array.map_push, addOwned_renumber]
    rfl

theorem newTemp_renumber (span : Span) (owner : Option ContextId) :
    (s.renumber r fs).newTemp span (owner.map r.contexts) =
      ((s.newTemp span owner).1, (s.newTemp span owner).2.renumber r fs) := by
  have howner : (owner.map r.contexts).getD (s.renumber r fs).current.id =
      r.contexts (owner.getD s.current.id) := by
    cases owner <;> rfl
  rw [newTemp, newTemp, howner, newVar_renumber]

theorem modifyVar_renumber (id : VarId) {f f' : Var → Var}
    (h : ∀ v, (f v).rename r.types = f' (v.rename r.types)) :
    (s.renumber r fs).modifyVar id f' = (s.modifyVar id f).renumber r fs := by
  simp only [modifyVar, renumber]
  congr 1
  refine modify_map s.vars id ?_
  intro entry
  simp only [OwnedVar.renumber, h]

theorem var_renumber (id : VarId) :
    (s.renumber r fs).var id = (s.var id).map (Var.rename r.types) := by
  rw [var, var, entry, entry, getElem?_renumber]
  cases s.vars[id]? <;> rfl

theorem owner_renumber (id : VarId) :
    (s.renumber r fs).owner id = (s.owner id).map r.contexts := by
  rw [owner, owner, entry, entry, getElem?_renumber]
  cases s.vars[id]? <;> rfl

/-- Names stand for the same variables. -/
theorem lookup_renumber (name : String) (span : Span) :
    (s.renumber r fs).lookup name span = s.lookup name span := by
  rw [lookup, lookup, contexts_renumber, findSome?_map]
  rfl

theorem bind_renumber (name : String) (span : Span) (mode : BindMode) :
    (s.renumber r fs).bind name span mode =
      (s.bind name span mode).map fun b => (b.1, b.2.1, b.2.2.renumber r fs) := by
  cases mode with
  | resolve =>
    rw [Scope.bind, Scope.bind, lookup_renumber]
    cases s.lookup name span <;> rfl
  | declare bound =>
    have hnew := s.newVar_renumber r fs (some name) span s.current.id
    rw [Scope.bind, Scope.bind]
    cases bound.lookup name with
    | some previous => rfl
    | none =>
      simp only [show (s.renumber r fs).current.id = r.contexts s.current.id from rfl, hnew]
      rfl

/-- The table of variables differs in types only. -/
theorem table_renumber : (s.renumber r fs).table = s.table.map (Var.rename r.types) := by
  simp only [table, renumber, Array.map_map]
  rfl

/-! ## Loops -/

/-- New loops are numbered in step. -/
theorem newLoop_renumber (label : Option String) (span : Span) :
    (s.renumber r fs).newLoop label span =
      ((s.newLoop label span).1.renumber r, (s.newLoop label span).2.renumber r fs) := by
  have hnew := s.newVar_renumber r fs none span s.current.id
  simp only [newLoop, newHiddenLoop, show (s.renumber r fs).current.id = r.contexts s.current.id from rfl,
    hnew]
  simp only [renumber, r.loops_succ]
  rfl

theorem openLoops_renumber :
    (s.renumber r fs).openLoops = s.openLoops.map fun l => (l.1, l.2.renumber r) := by
  rw [openLoops, openLoops, contexts_renumber, flatMap_map, map_flatMap]
  rfl

theorem findLoop_renumber (label : String) (span : Span) :
    (s.renumber r fs).findLoop label span = (s.findLoop label span).map (LoopRef.renumber r) := by
  rw [findLoop, findLoop, openLoops_renumber, find?_map]
  simp only [Function.comp_def]
  cases s.openLoops.find? fun l => l.1 = some label <;> rfl

theorem innermostLoop_renumber (span : Span) :
    (s.renumber r fs).innermostLoop span = (s.innermostLoop span).map (LoopRef.renumber r) := by
  rw [innermostLoop, innermostLoop, openLoops_renumber, head?_map]
  cases s.openLoops.head? <;> rfl

end Scope

end SlotCode
