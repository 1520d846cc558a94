import SlotCode.Lowering.Program
import SlotCode.Proofs.Step

/-!
# Outlines of sessions

What lowering does next depends on a session only through its *outline*: the type graph, the name,
type and leaves of each variable, the names and loops of each open context, and the declared
functions.  Owners, slots, places in the source and the log have no bearing on it.

Each step is described by what it does to the outline.  Three things happen to variables: a new one
is added at the end, its type is fixed, its leaves are made.
-/

namespace SlotCode

open List

variable {u : Unit} {α : Type} {name : String} {span : Span} {id : VarId}

/-- What the table says about a variable, apart from its owner, its slot and its place. -/
structure VarInfo where
  name : Option String
  type : Option TypeId
  leaves : Option (List VarId)
deriving DecidableEq

namespace VarInfo

/-- What is kept of an entry of the table. -/
def ofVar (v : Var) : VarInfo :=
  { name := v.name, type := v.type, leaves := v.leaves }

/-- A temporary of the type. -/
def temp (type : TypeId) : VarInfo :=
  { name := none, type := some type, leaves := none }

/-- A variable that nothing has been stored into. -/
def fresh (name : Option String) : VarInfo :=
  { name := name, type := none, leaves := none }

end VarInfo

/-- The names and loops of a context, newest first. -/
structure Frame where
  names : List (String × VarId)
  loops : List (Option String × LoopRef)

def Frame.empty : Frame :=
  { names := [], loops := [] }

def Context.frame (c : Context) : Frame :=
  { names := c.names, loops := c.loops }

/-- A session as lowering sees it: without slots, owners and the log. -/
structure Outline where
  types : TypeGraph
  vars : List VarInfo
  /-- Innermost first. -/
  frames : List Frame
  functions : List (String × Signature)
  nextLoop : LoopId

namespace Outline

/-- What is known of a variable. -/
def info (o : Outline) (id : VarId) : Option VarInfo :=
  o.vars[id]?

/-- The type of a variable, once it has one. -/
def typeOf (o : Outline) (id : VarId) : Option TypeId :=
  (o.info id).bind VarInfo.type

/-- The leaves of a virtual variable. -/
def leavesOf (o : Outline) (id : VarId) : Option (List VarId) :=
  (o.info id).bind VarInfo.leaves

/-- The variables that hold what a variable stands for. -/
def slots (o : Outline) (id : VarId) : List VarId :=
  (o.leavesOf id).getD [id]

/-- The names in scope, newest first. -/
def names (o : Outline) : List (String × VarId) :=
  o.frames.flatMap Frame.names

/-- The loops that can be left, innermost first. -/
def loops (o : Outline) : List (Option String × LoopRef) :=
  o.frames.flatMap Frame.loops

/-- The variable that a name stands for. -/
def lookup (o : Outline) (name : String) : Option VarId :=
  o.names.lookup name

/-- The loop that a `leave` means. -/
def target (o : Outline) : Option String → Option LoopRef
  | none => o.loops.head?.map Prod.snd
  | some label => (o.loops.find? fun l => l.1 = some label).map Prod.snd

/-- Adds variables at the end of the table. -/
def push (o : Outline) (infos : List VarInfo) : Outline :=
  { o with vars := o.vars ++ infos }

def modify (o : Outline) (id : VarId) (f : VarInfo → VarInfo) : Outline :=
  { o with vars := o.vars.modify id f }

/-- Changes the innermost frame. -/
def modifyFrame (o : Outline) (f : Frame → Frame) : Outline :=
  { o with frames := o.frames.modifyHead f }

/-- Opens a context. -/
def enter (o : Outline) : Outline :=
  { o with frames := .empty :: o.frames }

/-- Closes the innermost context. -/
def exit (o : Outline) : Outline :=
  { o with frames := o.frames.tail }

end Outline

def Scope.infos (s : Scope) : List VarInfo :=
  s.vars.toList.map fun entry => .ofVar entry.var

/-- What a session looks like from outside. -/
def Session.outline (s : Session) : Outline where
  types := s.types
  vars := s.scope.infos
  frames := s.scope.contexts.map Context.frame
  functions := s.scope.functions
  nextLoop := s.scope.nextLoop

namespace Lower

variable {s s' : Session}

/-! ## Access to the session -/

theorem report_eq_ok_iff {event : Event} :
    report event s = .ok u s' ↔ s' = { s with log := s.log.push event } := by
  simp [report, eq_comm]

theorem askTypes_eq_ok_iff {f : TypeGraph → Except Fault α} {a : α} :
    askTypes f s = .ok a s' ↔ f s.types = .ok a ∧ s = s' :=
  query_eq_ok_iff

theorem askScope_eq_ok_iff {f : Scope → Except Fault α} {a : α} :
    askScope f s = .ok a s' ↔ f s.scope = .ok a ∧ s = s' :=
  query_eq_ok_iff

theorem search_eq_ok_iff {f : Scope → Except LoweringError α} {a : α} :
    search f s = .ok a s' ↔ f s.scope = .ok a ∧ s = s' := by
  unfold search
  cases f s.scope <;> simp

theorem updateTypes_eq_ok_iff {f : TypeGraph → α × TypeGraph} {a : α} :
    updateTypes f s = .ok a s' ↔ (f s.types).1 = a ∧ { s with types := (f s.types).2 } = s' := by
  simp [updateTypes]

theorem updateScope_eq_ok_iff {f : Scope → α × Scope} {a : α} :
    updateScope f s = .ok a s' ↔ (f s.scope).1 = a ∧ { s with scope := (f s.scope).2 } = s' := by
  simp [updateScope]

theorem modifyScope_eq_ok_iff {f : Scope → Scope} :
    modifyScope f s = .ok u s' ↔ { s with scope := f s.scope } = s' := by
  simp [modifyScope]

theorem failAt_ne_ok {cause : Cause} {a : α} : ¬ (failAt cause span : Lower α) s = .ok a s' :=
  fail_ne_ok

theorem unsupported_ne_ok {construct : String} {a : α} :
    ¬ (unsupported construct span : Lower α) s = .ok a s' :=
  fail_ne_ok

/-- The context is closed again after the step. -/
theorem inContext_eq_ok_iff {step : Lower α} {a : α} :
    inContext step s = .ok a s' ↔ ∃ s₁, step s.enter = .ok a s₁ ∧ s₁.exit = s' := by
  unfold inContext
  cases h : step s.enter with
  | ok b s₁ =>
    constructor
    · intro heq
      cases heq
      exact ⟨s₁, rfl, rfl⟩
    · rintro ⟨_, heq, rfl⟩
      cases heq
      rfl
  | error e s₁ => simp

end Lower

/-! ## Variables and contexts -/

theorem map_modify {β : Type} {f : α → α} {g : α → β} (f' : β → β) (h : ∀ a, g (f a) = f' (g a))
    (l : List α) (i : Nat) : (l.modify i f).map g = (l.map g).modify i f' := by
  apply ext_getElem?
  intro j
  simp only [getElem?_map, getElem?_modify]
  cases l[j]? with
  | none => rfl
  | some a => by_cases hij : i = j <;> simp [hij, h]

theorem modify_id {f : α → α} (h : ∀ a, f a = a) (l : List α) (i : Nat) : l.modify i f = l := by
  have hf : f = id := funext h
  rw [hf, List.modify_id]

theorem modify_length (f : α → α) (l : List α) (a : α) :
    (l ++ [a]).modify l.length f = l ++ [f a] := by
  induction l with
  | nil => rfl
  | cons b l ih => exact congrArg (b :: ·) ih

theorem Outline.push_modify (o : Outline) (info : VarInfo) (f : VarInfo → VarInfo) :
    (o.push [info]).modify o.vars.length f = o.push [f info] := by
  simp only [push, modify, modify_length]

namespace Scope

variable (s : Scope)

theorem infos_length : s.infos.length = s.vars.size := by
  simp [infos]

theorem infos_modifyVar (id : VarId) (f : Var → Var) (f' : VarInfo → VarInfo)
    (hf : ∀ v, VarInfo.ofVar (f v) = f' (.ofVar v)) :
    (s.modifyVar id f).infos = s.infos.modify id f' := by
  simp only [infos, modifyVar, Array.toList_modify]
  exact map_modify f' (fun entry => hf entry.var) _ _

/-- Slots do not show. -/
theorem infos_store (id : VarId) : (s.store id).infos = s.infos := by
  unfold store
  split
  · rfl
  · simp only [infos, Array.toList_modify]
    rw [map_modify (fun info => info) fun _ => ?_, modify_id fun _ => rfl]
    rfl

theorem contexts_store (id : VarId) : (s.store id).contexts = s.contexts := by
  unfold store
  split <;> rfl

/-- Owning a variable does not change what a context declares. -/
theorem frame_addOwned (owner : ContextId) (id : VarId) (cs : List Context) :
    (addOwned owner id cs).map Context.frame = cs.map Context.frame := by
  induction cs with
  | nil => rfl
  | cons c cs ih =>
    unfold addOwned
    split
    · rfl
    · simp [ih]

end Scope

namespace Session

/-- The outline shows the types and the scope, and not the log. -/
theorem outline_congr {s t : Session} (htypes : s.types = t.types) (hscope : s.scope = t.scope) :
    s.outline = t.outline := by
  rw [outline, outline, htypes, hscope]

variable (s : Session)

/-- A new variable has neither type nor leaves. -/
theorem outline_newVar (name : Option String) (span : Span) (owner : ContextId) :
    ({ s with scope := (s.scope.newVar name span owner).2 } : Session).outline =
      s.outline.push [.fresh name] := by
  unfold Scope.newVar
  split <;> simp [outline, Outline.push, Scope.infos, Scope.contexts, Context.frame, VarInfo.ofVar,
    VarInfo.fresh, Var.new, Scope.frame_addOwned]

theorem newVar_fst (name : Option String) (span : Span) (owner : ContextId) :
    (s.scope.newVar name span owner).1 = s.outline.vars.length := by
  unfold Scope.newVar
  split <;> exact s.scope.infos_length.symm

theorem outline_modifyVar (id : VarId) (f : Var → Var) (f' : VarInfo → VarInfo)
    (hf : ∀ v, VarInfo.ofVar (f v) = f' (.ofVar v)) :
    ({ s with scope := s.scope.modifyVar id f } : Session).outline = s.outline.modify id f' := by
  simp only [outline, Outline.modify, ← s.scope.infos_modifyVar id f f' hf]
  rfl

/-- Slots are not seen in the outline. -/
theorem outline_foldl_store (ids : List VarId) :
    ({ s with scope := ids.foldl Scope.store s.scope } : Session).outline = s.outline := by
  induction ids generalizing s with
  | nil => rfl
  | cons id ids ih =>
    have hone : ({ s with scope := s.scope.store id } : Session).outline = s.outline := by
      simp only [outline, Scope.infos_store, Scope.contexts_store]
      unfold Scope.store
      split <;> rfl
    exact (ih { s with scope := s.scope.store id }).trans hone

theorem outline_exit (h : 1 < s.outline.frames.length) : s.exit.outline = s.outline.exit := by
  have hstore := s.outline_foldl_store s.scope.current.owned.reverse
  cases hout : s.scope.outer with
  | nil => simp [outline, Scope.contexts, hout] at h
  | cons context outer =>
    simp only [outline, Outline.mk.injEq] at hstore
    obtain ⟨-, hvars, hframes, hfunctions, hloop⟩ := hstore
    simp only [exit, outline, Outline.exit, Scope.pop, hout, Outline.mk.injEq]
    refine ⟨trivial, hvars, ?_, hfunctions, hloop⟩
    simp [Scope.contexts, hout]

end Session

/-! ## Steps -/

namespace Lower

variable {s s' : Session}

theorem newTemp_ok {owner : Option ContextId} (h : updateScope (·.newTemp span owner) s = .ok id s') :
    id = s.outline.vars.length ∧ s'.outline = s.outline.push [.fresh none] := by
  obtain ⟨rfl, rfl⟩ := updateScope_eq_ok_iff.1 h
  exact ⟨s.newVar_fst _ _ _, s.outline_newVar _ _ _⟩

theorem setType_ok {type : Option TypeId} (h : modifyScope (·.setType id type) s = .ok u s') :
    s'.outline = s.outline.modify id fun i => { i with type := type } := by
  rw [← modifyScope_eq_ok_iff.1 h]
  exact s.outline_modifyVar id _ _ fun _ => rfl

theorem setLeaves_ok {leaves : List VarId} (h : modifyScope (·.setLeaves id leaves) s = .ok u s') :
    s'.outline = s.outline.modify id fun i => { i with leaves := some leaves } := by
  rw [← modifyScope_eq_ok_iff.1 h]
  exact s.outline_modifyVar id _ _ fun _ => rfl

theorem newTyped_ok {type : TypeId} (h : newTyped type span s = .ok id s') :
    id = s.outline.vars.length ∧ s'.outline = s.outline.push [.temp type] := by
  simp only [newTyped, bind_eq_ok_iff, pure_eq_ok_iff] at h
  obtain ⟨id', s₁, hnew, _, s₂, htype, rfl, rfl⟩ := h
  obtain ⟨rfl, hs₁⟩ := newTemp_ok hnew
  refine ⟨rfl, ?_⟩
  rw [setType_ok htype, hs₁]
  exact s.outline.push_modify (.fresh none) _

/-- New leaves are temporaries with successive numbers. -/
theorem newLeaves_ok {owner : ContextId} {types : List TypeId} {ids : List VarId}
    (h : newLeaves span owner types s = .ok ids s') :
    ids = List.range' s.outline.vars.length types.length ∧
      s'.outline = s.outline.push (types.map .temp) := by
  induction types generalizing s ids with
  | nil =>
    cases h
    simp [Outline.push]
  | cons type types ih =>
    simp only [newLeaves, bind_eq_ok_iff, pure_eq_ok_iff] at h
    obtain ⟨id, s₁, hnew, _, s₂, htype, ids', s₃, hrest, rfl, rfl⟩ := h
    obtain ⟨rfl, hs₁⟩ := newTemp_ok hnew
    have hs₂ : s₂.outline = s.outline.push [.temp type] := by
      rw [setType_ok htype, hs₁]
      exact s.outline.push_modify (.fresh none) _
    obtain ⟨rfl, hs₃⟩ := ih hrest
    rw [hs₃, hs₂]
    simp [Outline.push, range'_succ]

theorem var_ok {v : Var} (h : s.scope.var id = .ok v) : s.outline.info id = some (.ofVar v) := by
  simp only [Scope.var, Scope.entry] at h
  simp only [Outline.info, Session.outline, Scope.infos, getElem?_map, Array.getElem?_toList]
  cases hid : s.scope.vars[id]? with
  | none =>
    rw [hid] at h
    cases h
  | some entry =>
    rw [hid] at h
    cases h
    rfl

/-- A variable stands for nothing, for itself or for its leaves. -/
theorem valueOf_ok {v : Value} (h : valueOf id span s = .ok v s') :
    s' = s ∧ ∃ info type, s.outline.info id = some info ∧ info.type = some type ∧
      v = if type = .void then .void span else
        match info.leaves with
        | none => .scalar type span (.var id)
        | some leaves => .tuple type span (leaves.map .var) := by
  simp only [valueOf, bind_eq_ok_iff, askScope_eq_ok_iff] at h
  obtain ⟨var, s₁, ⟨hvar, rfl⟩, h⟩ := h
  cases htype : var.type with
  | none =>
    rw [htype] at h
    exact absurd h unsupported_ne_ok
  | some type =>
    simp only [htype] at h
    have hboth : v = (if type = .void then .void span else
        match var.leaves with
        | none => .scalar type span (.var id)
        | some leaves => .tuple type span (leaves.map .var)) ∧ s' = s := by
      split at h
      · next hvoid =>
        rw [if_pos hvoid]
        cases h
        exact ⟨rfl, rfl⟩
      · next hvoid =>
        rw [if_neg hvoid]
        cases hl : var.leaves <;> rw [hl] at h <;> cases h <;> exact ⟨rfl, rfl⟩
    exact ⟨hboth.2, .ofVar var, type, var_ok hvar, htype, hboth.1⟩

theorem lookup_eq (s : Session) (name : String) :
    (s.scope.contexts.findSome? fun c => c.names.lookup name) = s.outline.lookup name := by
  simp only [Outline.lookup, Outline.names, Session.outline]
  induction s.scope.contexts with
  | nil => rfl
  | cons c cs ih =>
    simp only [findSome?_cons, map_cons, flatMap_cons, lookup_append, ih]
    cases hc : c.names.lookup name <;> simp [Context.frame, hc]

theorem lookup_ok (h : s.scope.lookup name span = .ok id) : s.outline.lookup name = some id := by
  simp only [Scope.lookup, lookup_eq] at h
  cases hl : s.outline.lookup name with
  | none =>
    rw [hl] at h
    cases h
  | some id' =>
    rw [hl] at h
    cases h
    rfl

theorem bindName_resolve_ok {mode : BindMode}
    (h : bindName name span .resolve s = .ok (id, mode) s') :
    s' = s ∧ mode = .resolve ∧ s.outline.lookup name = some id := by
  simp only [bindName, Scope.bind] at h
  cases hl : s.scope.lookup name span with
  | error e =>
    rw [hl] at h
    cases h
  | ok id' =>
    rw [hl] at h
    cases h
    exact ⟨rfl, rfl, lookup_ok hl⟩

/-- A declared name stands for a new variable. -/
theorem bindName_declare_ok {bound : List (String × Span)} {mode : BindMode}
    (h : bindName name span (.declare bound) s = .ok (id, mode) s') :
    (∃ bound', mode = .declare bound') ∧ id = s.outline.vars.length ∧
      s'.outline = (s.outline.push [.fresh (some name)]).modifyFrame
        fun f => { f with names := (name, id) :: f.names } := by
  simp only [bindName, Scope.bind] at h
  split at h
  · next id' mode' scope hbind =>
    cases h
    split at hbind
    · cases hbind
    · cases hbind
      refine ⟨⟨_, rfl⟩, s.newVar_fst _ _ _, ?_⟩
      rw [← s.outline_newVar (some name) span s.scope.current.id]
      rfl
  · cases h

/-- A new loop gets the next number and a variable for its value. -/
theorem newLoop_ok {label : Option String} {ref : LoopRef}
    (h : updateScope (·.newLoop label span) s = .ok ref s') :
    ref = ⟨s.outline.nextLoop, s.outline.vars.length⟩ ∧
      s'.outline = { (s.outline.push [.fresh none]).modifyFrame
          fun f => { f with loops := (label, ref) :: f.loops } with
        nextLoop := s.outline.nextLoop + 1 } := by
  obtain ⟨rfl, rfl⟩ := updateScope_eq_ok_iff.1 h
  have href : (s.scope.newLoop label span).1 = ⟨s.outline.nextLoop, s.outline.vars.length⟩ := by
    simp only [Scope.newLoop, Scope.newHiddenLoop, s.newVar_fst]
    simp [Scope.newVar]
    rfl
  refine ⟨href, ?_⟩
  rw [← s.outline_newVar none span s.scope.current.id]
  simp [Session.outline, Scope.newLoop, Scope.newHiddenLoop, Scope.newVar, Outline.modifyFrame,
    Scope.contexts, Scope.infos, Context.frame]

theorem openLoops_eq (s : Session) : s.scope.openLoops = s.outline.loops := by
  simp only [Scope.openLoops, Outline.loops, Session.outline, flatMap_map]
  rfl

/-- Only a loop that is open can be left. -/
theorem targetLoop_ok {label : Option String} {ref : LoopRef}
    (h : targetLoop label span s = .ok ref s') : s' = s ∧ s.outline.target label = some ref := by
  cases label with
  | none =>
    simp only [targetLoop, search_eq_ok_iff, Scope.innermostLoop, openLoops_eq] at h
    obtain ⟨h, rfl⟩ := h
    cases hl : s.outline.loops.head? with
    | none =>
      rw [hl] at h
      cases h
    | some l =>
      rw [hl] at h
      cases h
      exact ⟨rfl, by rw [Outline.target, hl]; rfl⟩
  | some label =>
    simp only [targetLoop, search_eq_ok_iff, Scope.findLoop, openLoops_eq] at h
    obtain ⟨h, rfl⟩ := h
    cases hl : s.outline.loops.find? fun l => l.1 = some label with
    | none =>
      rw [hl] at h
      cases h
    | some l =>
      rw [hl] at h
      cases h
      exact ⟨rfl, by rw [Outline.target, hl]; rfl⟩

end Lower

end SlotCode
