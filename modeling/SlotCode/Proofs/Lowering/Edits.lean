import SlotCode.Proofs.EitherWay
import SlotCode.Proofs.Lowering.Patterns

/-!
# What steps do to a session

A step that lowers no tree makes temporaries, and it changes variables that it was given or has made
itself (`Scope.Edits`).  It opens and closes no context, declares no name and no loop, gives out no slot,
and takes nothing from a variable.  To the type graph it adds the nodes of tuples, boxes, lists, written
types and copies.

So what is kept by each such change is kept by every step, whether or not it succeeds.  What is said of
the graph is left open: it is any relation that each of these additions upholds (`TypeGraph.Upheld`).
-/

namespace SlotCode

variable {id : VarId} {type : TypeId} {v : Value} {span : Span}

/-- What a variable has been given it keeps. -/
structure Var.Keeps (v v' : Var) : Prop where
  name : v'.name = v.name
  type : ∀ type ∈ v.type, v'.type = some type
  leaves : ∀ leaves ∈ v.leaves, v'.leaves = some leaves
  slot : v'.slot = v.slot

theorem Var.Keeps.refl (v : Var) : v.Keeps v :=
  ⟨rfl, fun _ h => h, fun _ h => h, rfl⟩

/-- A variable without a type may be given one. -/
theorem Var.Keeps.typed {v : Var} (h : v.type = none) (type : TypeId) (span : Span) :
    v.Keeps { v with type := some type, span := span } :=
  { Keeps.refl v with
    type := by
      rw [h]
      rintro _ ⟨⟩ }

theorem Var.Keeps.shaped {v : Var} (h : v.leaves = none) (leaves : List VarId) :
    v.Keeps { v with leaves := some leaves } :=
  { Keeps.refl v with
    leaves := by
      rw [h]
      rintro _ ⟨⟩ }

/-- The scope is edited: temporaries are made, and variables are changed that are allowed or new. -/
inductive Scope.Edits : (VarId → Prop) → Scope → Scope → Prop where
  | refl (allowed : VarId → Prop) (s : Scope) : Edits allowed s s
  /-- A temporary belongs to the current context, or to the one that owns an allowed variable. -/
  | temp {allowed : VarId → Prop} {s s' : Scope} (span : Span) (owner : Option ContextId)
      (howner : ∀ w, owner = some w → ∃ id, allowed id ∧ s.owner id = .ok w)
      (h : Edits (fun id => allowed id ∨ id = s.vars.size) (s.newTemp span owner).2 s') :
      Edits allowed s s'
  | change {allowed : VarId → Prop} {s s' : Scope} {id : VarId} {f : Var → Var} (hid : allowed id)
      (hkeeps : ∀ {entry : OwnedVar}, s.vars[id]? = some entry → entry.var.Keeps (f entry.var))
      (h : Edits allowed (s.modifyVar id f) s') : Edits allowed s s'

namespace Scope

variable {allowed allowed' : VarId → Prop} {s s₁ s' : Scope}

theorem newVar_fst (s : Scope) (name : Option String) (span : Span) (owner : ContextId) :
    (s.newVar name span owner).1 = s.vars.size := by
  unfold newVar
  split <;> rfl

theorem newTemp_fst (s : Scope) (span : Span) (owner : Option ContextId) :
    (s.newTemp span owner).1 = s.vars.size :=
  s.newVar_fst none span _

theorem newTemp_vars (s : Scope) (span : Span) (owner : Option ContextId) :
    (s.newTemp span owner).2.vars =
      s.vars.push { var := .new none span, owner := owner.getD s.current.id } := by
  unfold newTemp newVar
  split <;> rfl

theorem newTemp_nextLoop (s : Scope) (span : Span) (owner : Option ContextId) :
    (s.newTemp span owner).2.nextLoop = s.nextLoop := by
  unfold newTemp newVar
  split <;> rfl

/-- Only variables of the table have owners. -/
theorem owner_eq_ok_iff {w : ContextId} :
    s.owner id = .ok w ↔ ∃ entry, s.vars[id]? = some entry ∧ entry.owner = w := by
  unfold owner entry
  cases s.vars[id]? with
  | none => simp [Except.map]
  | some entry => simp [Except.map]

theorem owner_newTemp {w : ContextId} (h : s.owner id = .ok w) (span : Span)
    (owner : Option ContextId) : (s.newTemp span owner).2.owner id = .ok w := by
  obtain ⟨entry, hentry, hw⟩ := owner_eq_ok_iff.1 h
  refine owner_eq_ok_iff.2 ⟨entry, ?_, hw⟩
  have hlt : id < s.vars.size := (Array.getElem?_eq_some_iff.1 hentry).1
  rw [newTemp_vars, Array.getElem?_push_lt hlt, ← hentry, Array.getElem?_eq_getElem hlt]

theorem owner_modifyVar {other : VarId} {w : ContextId} (h : s.owner id = .ok w) (f : Var → Var) :
    (s.modifyVar other f).owner id = .ok w := by
  obtain ⟨entry, hentry, hw⟩ := owner_eq_ok_iff.1 h
  refine owner_eq_ok_iff.2 ?_
  rw [modifyVar, Array.getElem?_modify, hentry]
  split
  · exact ⟨_, rfl, hw⟩
  · exact ⟨entry, rfl, hw⟩

namespace Edits

theorem mono (h : Edits allowed s s') (hsub : ∀ id, allowed id → allowed' id) :
    Edits allowed' s s' := by
  induction h generalizing allowed' with
  | refl _ s => exact .refl _ s
  | temp span owner howner _ ih =>
    refine .temp span owner (fun w hw => ?_) (ih fun id hid => hid.imp_left (hsub id))
    obtain ⟨id, hid, howner⟩ := howner w hw
    exact ⟨id, hsub id hid, howner⟩
  | change hid hkeeps _ ih => exact .change (hsub _ hid) hkeeps (ih hsub)

theorem trans (h : Edits allowed s s₁) (h' : Edits allowed s₁ s') : Edits allowed s s' := by
  induction h with
  | refl => exact h'
  | temp span owner howner _ ih => exact .temp span owner howner (ih (h'.mono fun _ => .inl))
  | change hid hkeeps _ ih => exact .change hid hkeeps (ih h')

theorem modify {f : Var → Var} (hid : allowed id)
    (hkeeps : ∀ {entry : OwnedVar}, s.vars[id]? = some entry → entry.var.Keeps (f entry.var)) :
    Edits allowed s (s.modifyVar id f) :=
  .change hid hkeeps (.refl _ _)

/-- A temporary is made and given a type. -/
theorem typed {owner : Option ContextId}
    (howner : ∀ w, owner = some w → ∃ id, allowed id ∧ s.owner id = .ok w) :
    Edits allowed s ((s.newTemp span owner).2.setType (s.newTemp span owner).1 (some type)) := by
  refine .temp span owner howner (.modify (.inr (newTemp_fst _ _ _)) fun hentry => ?_)
  rw [newTemp_fst, newTemp_vars, Array.getElem?_push_size] at hentry
  cases hentry
  exact .typed rfl type _

/-- Edits open no loop. -/
theorem nextLoop (h : Edits allowed s s') : s'.nextLoop = s.nextLoop := by
  induction h with
  | refl => rfl
  | temp span owner _ _ ih => exact ih.trans (newTemp_nextLoop _ span owner)
  | change _ _ _ ih => exact ih

end Edits

end Scope

/-! ## Relations between type graphs -/

/-- `T` relates a type graph to what each addition but a written type makes of it.  A copy that fails may
break it if such failures are exempt. -/
class TypeGraph.Upheld (E : Failure LoweringError → Prop) (T : TypeGraph → TypeGraph → Prop) : Prop where
  tuple (g : TypeGraph) (items : List TypeId) (origin : Option Span) : T g (g.add (.tuple items) origin).2
  box (g : TypeGraph) (payload : TypeId) (origin : Option Span) : T g (g.add (.box payload) origin).2
  list (g : TypeGraph) (item : TypeId) (origin : Option Span) : T g (g.addList item origin).2
  copy (g : TypeGraph) (type : TypeId) (b : Bindings) (span : Span) :
    EndsIn (T g) (fun e g' => E (e.map .ofTypeError) ∨ T g g') (TypeGraph.instantiate type b span g)

/-- The written type may be added. -/
def TypeGraph.Admits (T : TypeGraph → TypeGraph → Prop) (type : TypeExpr) : Prop :=
  ∀ g : TypeGraph, T g (g.resolve type).2

/-- Nothing is said of the graphs. -/
def TypeGraph.Any (_ _ : TypeGraph) : Prop :=
  True

instance : Std.Refl TypeGraph.Any where
  refl _ := trivial

instance : IsTrans TypeGraph TypeGraph.Any where
  trans _ _ _ _ _ := trivial

instance : TypeGraph.Upheld (fun _ => True) TypeGraph.Any where
  tuple _ _ _ := trivial
  box _ _ _ := trivial
  list _ _ _ := trivial
  copy g type b span := by
    cases TypeGraph.instantiate type b span g with
    | ok id g' => trivial
    | error e g' => exact .inl trivial

/-- The types change as `T` says, and the scope by edits. -/
structure Session.Edits (T : TypeGraph → TypeGraph → Prop) (p : VarId → Prop) (s t : Session) : Prop where
  types : T s.types t.types
  scope : s.scope.Edits p t.scope

section

variable {T : TypeGraph → TypeGraph → Prop} {p : VarId → Prop}

instance [Std.Refl T] : Std.Refl (Session.Edits T p) where
  refl s := ⟨refl_of T s.types, .refl p s.scope⟩

instance [IsTrans TypeGraph T] : IsTrans Session (Session.Edits T p) where
  trans _ _ _ h h' := ⟨trans_of T h.types h'.types, h.scope.trans h'.scope⟩

end

/-! ## Access to the session -/

section

variable {α : Type} {E : Failure LoweringError → Prop} {R : Session → Session → Prop} [Std.Refl R]

theorem EitherWay.failAt (cause : Cause) (span : Span) :
    EitherWay E R (Lower.failAt cause span : Lower α) :=
  .fail _

theorem EitherWay.askTypes (f : TypeGraph → Except Fault α) : EitherWay E R (Lower.askTypes f) :=
  fun s => EitherWay.query (f s.types) s

theorem EitherWay.askScope (f : Scope → Except Fault α) : EitherWay E R (Lower.askScope f) :=
  fun s => EitherWay.query (f s.scope) s

theorem EitherWay.search (f : Scope → Except LoweringError α) : EitherWay E R (Lower.search f) := by
  intro s
  rw [EitherWayAt, Lower.search]
  cases f s.scope with
  | ok a => exact refl_of R s
  | error e => exact .inr (refl_of R s)

end

namespace Lower

/-- The step edits the session, and the type graph changes as `T` says. -/
abbrev Editing (E : Failure LoweringError → Prop) (T : TypeGraph → TypeGraph → Prop) (p : VarId → Prop)
    {α : Type} (x : Lower α) : Prop :=
  EitherWay E (Session.Edits T p) x

variable {E : Failure LoweringError → Prop} {T : TypeGraph → TypeGraph → Prop}
  {p : VarId → Prop} {s : Session} {α : Type}

theorem updateTypes_edits {f : TypeGraph → α × TypeGraph} (hf : ∀ g, T g (f g).2) :
    Editing E T p (updateTypes f) :=
  fun s => ⟨hf s.types, .refl _ _⟩

theorem instantiate_edits [TypeGraph.Upheld E T] (type : TypeId) (b : Bindings) (span : Span) :
    Editing E T p (instantiate type b span) := by
  intro s
  have hcopy := TypeGraph.Upheld.copy (E := E) (T := T) s.types type b span
  rw [EitherWayAt, instantiate]
  cases hrun : TypeGraph.instantiate type b span s.types with
  | ok id types =>
    rw [hrun] at hcopy
    exact ⟨hcopy, .refl _ _⟩
  | error failure types =>
    rw [hrun] at hcopy
    exact hcopy.imp_right fun h => ⟨h, .refl _ _⟩

/-- A temporary is made, and then a step may change it. -/
theorem fresh_edits {rest : VarId → Lower α} (hrest : ∀ dest, Editing E T (· = dest) (rest dest)) :
    Editing E T p (updateScope (·.newTemp span none) >>= rest) := by
  intro s
  refine (hrest (s.scope.newTemp span none).1 { s with scope := (s.scope.newTemp span none).2 }).via
    (fun t ht => ⟨ht.types, ?_⟩) rfl
  refine .temp span none (by simp) (ht.scope.mono fun id hid => .inr ?_)
  exact hid.trans (Scope.newTemp_fst _ _ _)

section

variable [Std.Refl T]

theorem report_edits (event : Event) : Editing E T p (report event) :=
  fun s => ⟨refl_of T s.types, .refl _ _⟩

theorem modifyScope_edits {f : Scope → Scope} (h : s.scope.Edits p (f s.scope)) :
    EitherWayAt E (Session.Edits T p) s (modifyScope f) :=
  ⟨refl_of T s.types, h⟩

theorem newTyped_edits (type : TypeId) (span : Span) : Editing E T p (newTyped type span) :=
  fun s => ⟨refl_of T s.types, .typed (by simp)⟩

/-! ## Types, variables and patterns -/

theorem requireMatch_edits (expected : Option TypeId) (found : TypeId) (sp sp' : Span) :
    Editing E T p (requireMatch expected found sp sp') := by
  intro s
  rw [EitherWayAt, requireMatch]
  split
  · exact refl_of (Session.Edits T p) s
  · exact .inr (refl_of (Session.Edits T p) s)

theorem bindArgument_edits (param : TypeId) (v : Value) (span : Span) (b : Bindings) :
    Editing E T p (bindArgument param v span b) := by
  intro s
  rw [EitherWayAt, bindArgument]
  split
  · exact refl_of (Session.Edits T p) s
  · exact .inr (refl_of (Session.Edits T p) s)

theorem scalarOf_edits (v : Value) : Editing E T p (scalarOf v) := by
  rw [scalarOf]
  split
  · exact .pure _
  · exact .failAt _ _

theorem checkArity_edits (name : String) (c : Callee) (args : List Expr) (span : Span) :
    Editing E T p (checkArity name c args span) := by
  rw [checkArity]
  split
  · exact .pure _
  · exact .failAt _ _

theorem targetLoop_edits (label : Option String) (span : Span) :
    Editing E T p (targetLoop label span) := by
  cases label with
  | some label => exact .search (·.findLoop label span)
  | none => exact .search (·.innermostLoop span)

theorem askScope_var {t : Session} {var : Var} (h : askScope (·.var id) s = .ok var t) :
    s = t ∧ ∃ owner, s.scope.vars[id]? = some ⟨var, owner⟩ := by
  obtain ⟨hvar, rfl⟩ := askScope_eq_ok_iff.1 h
  rw [Scope.var, Scope.entry] at hvar
  cases hentry : s.scope.vars[id]? with
  | none =>
    rw [hentry] at hvar
    cases hvar
  | some entry =>
    rw [hentry] at hvar
    cases hvar
    exact ⟨rfl, entry.owner, rfl⟩

variable [IsTrans TypeGraph T]

theorem valueOf_edits (id : VarId) (span : Span) : Editing E T p (valueOf id span) := by
  refine .bind (.askScope _) fun var => ?_
  split
  · exact .failAt _ _
  · split
    · exact .pure _
    · split <;> exact .pure _

/-- The leaves go to the owner of the variable that is shaped. -/
theorem newLeaves_edits {owner : ContextId} (howner : ∃ id, p id ∧ s.scope.owner id = .ok owner)
    (types : List TypeId) : EitherWayAt E (Session.Edits T p) s (newLeaves span owner types) := by
  induction types generalizing s with
  | nil => exact EitherWay.pure _ s
  | cons type types ih =>
    obtain ⟨id, hid, howner⟩ := howner
    let new := s.scope.newTemp span (some owner)
    have hfirst : s.scope.Edits p (new.2.setType new.1 (some type)) := .typed (by
      rintro w ⟨⟩
      exact ⟨id, hid, howner⟩)
    have hrest := @ih { s with scope := new.2.setType new.1 (some type) }
      ⟨id, hid, Scope.owner_modifyVar (Scope.owner_newTemp howner span (some owner)) _⟩
    refine (EitherWayAt.bind hrest fun _ _ _ => EitherWay.pure _ _).via (fun t ht => ?_) rfl
    exact ⟨ht.types, hfirst.trans ht.scope⟩

/-- The variables that receive the leaves of a value which is stored into `id`. -/
def receivers (id : VarId) (var : Var) (type : TypeId) : Lower (List VarId) := do
  match (← askTypes (·.kind type)).items?, var.leaves with
  | none, _ => return [id]
  | some _, some leaves => return leaves
  | some _, none =>
    let owner ← askScope (·.owner id)
    let types ← askTypes (·.leaves type)
    let leaves ← newLeaves var.span owner types
    modifyScope (·.setLeaves id leaves)
    return leaves

/-- A variable is matched first, then typed and then spread. -/
theorem expandVar_eq (id : VarId) (type : TypeId) (span : Span) :
    expandVar id type span = (do
      let var ← askScope (·.var id)
      requireMatch var.type type var.span span
      if var.type.isNone then
        modifyScope (·.setType id (some type))
        receivers id var type
      else
        receivers id var type) :=
  rfl

theorem info_of_entry {entry : OwnedVar} (h : s.scope.vars[id]? = some entry) :
    s.outline.info id = some (.ofVar entry.var) := by
  simp [Outline.info, Session.outline, Scope.infos, h]

/-- The variable is as it was read, at least so far as it has leaves. -/
theorem receivers_edits {var : Var} (hid : p id) (type : TypeId)
    (hvar : ∀ {entry : OwnedVar}, s.scope.vars[id]? = some entry → entry.var.leaves = var.leaves) :
    EitherWayAt E (Session.Edits T p) s (receivers id var type) := by
  refine .bind (EitherWay.askTypes _ s) fun kind t hkind => ?_
  obtain ⟨-, rfl⟩ := askTypes_eq_ok_iff.1 hkind
  cases kind.items? with
  | none => exact EitherWay.pure _ s
  | some _ =>
    cases hleaves : var.leaves with
    | some _ => exact EitherWay.pure _ s
    | none =>
      refine .bind (EitherWay.askScope _ s) fun owner t hask => ?_
      obtain ⟨howner, rfl⟩ := askScope_eq_ok_iff.1 hask
      refine .bind (EitherWay.askTypes _ s) fun types t htypes => ?_
      obtain ⟨-, rfl⟩ := askTypes_eq_ok_iff.1 htypes
      refine .bind (newLeaves_edits ⟨id, hid, howner⟩ types) fun leaves t hnew => ?_
      refine .bind (modifyScope_edits (.modify hid fun {entry} hentry => .shaped ?_ leaves)) fun _ _ _ =>
        EitherWay.pure _ _
      -- The new leaves come after all variables that were there.
      obtain ⟨old, hold, -⟩ := Scope.owner_eq_ok_iff.1 howner
      have hinfo := info_of_entry hentry
      rw [(newLeaves_ok hnew).2, Outline.info, Outline.push,
        List.getElem?_append_left (Outline.lt_of_info (info_of_entry hold))] at hinfo
      have heq := (info_of_entry hold).symm.trans hinfo
      rw [Option.some.injEq, VarInfo.ofVar, VarInfo.ofVar, VarInfo.mk.injEq] at heq
      rw [← heq.2.2, hvar hold, hleaves]

theorem expandVar_edits (hid : p id) (type : TypeId) (span : Span) :
    Editing E T p (expandVar id type span) := by
  intro s
  rw [expandVar_eq]
  refine .bind (EitherWay.askScope _ s) fun var t hvar => ?_
  obtain ⟨rfl, owner, hentry⟩ := askScope_var hvar
  refine .bind (requireMatch_edits _ _ _ _ s) fun _ t hmatch => ?_
  obtain rfl := (requireMatch_ok hmatch).1.symm
  have hself : ∀ {entry : OwnedVar}, s.scope.vars[id]? = some entry → entry.var = var := by
    intro entry hentry'
    rw [hentry] at hentry'
    cases hentry'
    rfl
  by_cases hnone : var.type.isNone
  · have htyped : Scope.Edits p s.scope (s.scope.setType id (some type)) := by
      refine .modify hid fun hentry => .typed ?_ type _
      rw [hself hentry, Option.isNone_iff_eq_none.1 hnone]
    rw [if_pos hnone]
    refine .bind (modifyScope_edits htyped) fun _ t ht => ?_
    obtain rfl := modifyScope_eq_ok_iff.1 ht
    refine receivers_edits hid type fun {entry} hentry' => ?_
    simp only [Scope.setType, Scope.modifyVar, Array.getElem?_modify, hentry, if_true,
      Option.map_some, Option.some.injEq] at hentry'
    rw [← hentry']
  · rw [if_neg hnone]
    exact receivers_edits hid type fun hentry => by rw [hself hentry]

mutual

/-- Only variables of the pattern are edited. -/
theorem expand_edits (span : Span) (pattern : Pattern) (hvars : ∀ id ∈ pattern.vars, p id)
    (type : TypeId) : Editing E T p (expand span pattern type) := by
  cases pattern with
  | var id varSpan => exact expandVar_edits (hvars id List.mem_cons_self) type span
  | tuple items tupleSpan =>
    refine .bind (.askTypes _) fun kind => ?_
    split
    · split
      · exact expandEach_edits span items hvars _
      · exact .bind (.askTypes _) fun _ => .fail _
    · exact .bind (.askTypes _) fun _ => .fail _

theorem expandEach_edits (span : Span) (items : List Pattern)
    (hvars : ∀ id ∈ Pattern.varsAll items, p id) (types : List TypeId) :
    Editing E T p (expandEach span items types) := by
  cases items with
  | nil => exact .pure _
  | cons item items =>
    cases types with
    | nil => exact .pure _
    | cons type types =>
      obtain ⟨hitem, hitems⟩ := List.forall_mem_append.1 hvars
      exact .bind (expand_edits span item hitem type) fun _ =>
        .bind (expandEach_edits span items hitems types) fun _ => .pure _

end

theorem storeInto_edits {pattern : Pattern} (hvars : ∀ id ∈ pattern.vars, p id) (v : Value)
    (span : Span) : Editing E T p (storeInto pattern v span) := by
  rw [storeInto]
  split
  · exact .failAt _ _
  · exact .bind (expand_edits _ _ hvars _) fun _ => .pure _

theorem mem_vars_var {dest : VarId} (h : id ∈ (Pattern.var dest span).vars) : id = dest :=
  List.mem_singleton.1 h

/-! ## Operations -/

theorem tupleLeaves_edits (vs : List Value) : Editing E T p (tupleLeaves vs) := by
  induction vs with
  | nil => exact .pure _
  | cons v vs ih =>
    rw [tupleLeaves]
    split
    · exact .failAt _ _
    · exact .bind ih fun _ => .pure _

theorem runComparisons_edits (cs : List Comparison) : Editing E T p (runComparisons cs) := by
  induction cs with
  | nil => exact .pure _
  | cons c cs ih => exact .bind (newTyped_edits _ _) fun _ => .bind ih fun _ => .pure _

theorem holdInteger_edits (v : Value) (span : Span) : Editing E T p (holdInteger v span) := by
  rw [holdInteger]
  split
  · exact .pure _
  · exact .bind (newTyped_edits _ _) fun _ => .bind (scalarOf_edits v) fun _ => .pure _

theorem consValue_edits (head tail : Value) (span : Span) : Editing E T p (consValue head tail span) := by
  refine .bind (.askTypes _) fun kind => ?_
  split
  · exact .bind (.askTypes _) fun _ => .failAt _ _
  · split
    · exact .failAt _ _
    · exact .bind (requireMatch_edits _ _ _ _) fun _ => .bind (scalarOf_edits _) fun _ =>
        .bind (newTyped_edits _ _) fun _ => .pure _

theorem emptyBox_edits (type : TypeId) (span : Span) : Editing E T p (emptyBox type span) :=
  .bind (newTyped_edits _ _) fun _ => .pure _

theorem openBox_edits (v : Value) : Editing E T p (openBox v) := by
  refine .bind (.askTypes _) fun kind => ?_
  split
  · exact .bind (.askTypes _) fun _ => .failAt _ _
  · exact .bind (scalarOf_edits v) fun _ => .pure _

/-- Nothing is changed at all. -/
theorem callee_eitherWay {R : Session → Session → Prop} [Std.Refl R] [IsTrans Session R]
    (name : String) (span : Span) : EitherWay E R (callee name span) := by
  refine .bind (.search _) fun type => .bind (.askTypes _) fun kind => ?_
  split
  · exact .pure _
  · exact .failAt _ _

theorem callCommand_edits (name : String) (native : Bool) (inputs : List Operand)
    (outputs : List VarId) (targetSpan span : Span) :
    Editing E T p (callCommand name native inputs outputs targetSpan span) := by
  rw [callCommand]
  split
  · split
    · exact .pure _
    · exact .failAt _ _
  · exact .bind (report_edits _) fun _ => .pure _

theorem keepValue_edits (v : Value) (span : Span) : Editing E T p (keepValue v span) := by
  rw [keepValue]
  split
  · exact .pure _
  · exact fresh_edits fun _ => .bind (storeInto_edits (fun _ => mem_vars_var) _ _) fun _ =>
      .bind (valueOf_edits _ _) fun _ => .pure _

/-- The value of a conditional whose branches have values of one type. -/
def storeBranches (yes no : Code × Value) (span : Span) : Lower (Code × Code × Value) := do
  let dest ← updateScope (·.newTemp span none)
  let yesStores ← storeInto (.var dest span) yes.2 yes.2.span
  let noStores ← storeInto (.var dest span) no.2 no.2.span
  let value ← valueOf dest span
  return (yes.1 ++ yesStores, no.1 ++ noStores, value)

theorem joinBranches_none (yes : Code × Value) (span : Span) :
    joinBranches yes none span =
      if yes.2.isVoid then pure (yes.1, [], .void span) else failAt (.missingElse span) yes.2.span :=
  rfl

theorem joinBranches_some (yes no : Code × Value) (span : Span) :
    joinBranches yes (some no) span = (do
      expectType yes.2.type no.2 yes.2.span
      if yes.2.isVoid then pure (yes.1, no.1, .void span) else storeBranches yes no span) :=
  rfl

/-- Joining two branches edits new variables only. -/
theorem joinBranches_edits (yes : Code × Value) (no : Option (Code × Value)) (span : Span) :
    Editing E T p (joinBranches yes no span) := by
  cases no with
  | none =>
    rw [joinBranches_none]
    split
    · exact .pure _
    · exact .failAt _ _
  | some no =>
    rw [joinBranches_some]
    refine .bind (requireMatch_edits _ _ _ _) fun _ => ?_
    split
    · exact .pure _
    · exact fresh_edits fun _ => .bind (storeInto_edits (fun _ => mem_vars_var) _ _) fun _ =>
        .bind (storeInto_edits (fun _ => mem_vars_var) _ _) fun _ => .bind (valueOf_edits _ _) fun _ =>
          .pure _

/-- Only the variable of the loop is edited. -/
theorem fixLoopType_edits {ref : LoopRef} (hid : p ref.var) (v : Value) :
    Editing E T p (fixLoopType ref v) := by
  intro s
  refine .bind (EitherWay.askScope _ s) fun var t hvar => ?_
  obtain ⟨rfl, owner, hentry⟩ := askScope_var hvar
  cases htype : var.type with
  | some type => exact requireMatch_edits _ _ _ _ s
  | none =>
    refine .bind (EitherWay.askTypes _ s) fun text t htext => ?_
    obtain ⟨-, rfl⟩ := askTypes_eq_ok_iff.1 htext
    refine .bind (report_edits _ s) fun _ t ht => ?_
    obtain rfl := report_eq_ok_iff.1 ht
    refine modifyScope_edits (.modify hid fun hentry' => .typed ?_ v.type v.span)
    rw [show s.scope.vars[ref.var]? = _ from hentry] at hentry'
    cases hentry'
    exact htype

/-- A `leave` changes the variable of the loop that it means. -/
theorem leaveWith_edits {label : Option String}
    (hvar : ∀ ref, s.outline.target label = some ref → p ref.var) (v : Value) (span : Span) :
    EitherWayAt E (Session.Edits T p) s (leaveWith label v span) := by
  refine .bind (targetLoop_edits label span s) fun ref t href => ?_
  obtain ⟨rfl, htarget⟩ := targetLoop_ok href
  have hid := hvar ref htarget
  refine .bind (fixLoopType_edits hid v _) fun _ t _ => ?_
  split
  · exact EitherWay.pure _ t
  · refine EitherWay.bind (storeInto_edits (fun id hmem => ?_) _ _) (fun _ => .pure _) t
    exact mem_vars_var hmem ▸ hid

theorem loopValue_edits (id : VarId) (span : Span) : Editing E T p (loopValue id span) := by
  refine .bind (.askScope _) fun var => ?_
  split
  · exact .pure _
  · exact valueOf_edits id span

end

/-! ## Operations that make types -/

section

variable [Std.Refl T] [IsTrans TypeGraph T] [TypeGraph.Upheld E T]

theorem tupleOf_edits (vs : List Value) (span : Span) : Editing E T p (tupleOf vs span) :=
  .bind (updateTypes_edits fun g => TypeGraph.Upheld.tuple E g _ _) fun _ =>
    .bind (tupleLeaves_edits vs) fun _ => .pure _

theorem wrapValue_edits (v : Value) (payloadSpan span : Span) :
    Editing E T p (wrapValue v payloadSpan span) := by
  rw [wrapValue]
  split
  · exact .failAt _ _
  · exact .bind (updateTypes_edits fun g => TypeGraph.Upheld.box E g _ _) fun _ =>
      .bind (newTyped_edits _ _) fun _ => .pure _

theorem wrapNothing_edits {payload : TypeExpr} (h : TypeGraph.Admits T payload) (span : Span) :
    Editing E T p (wrapNothing payload span) := by
  refine .bind (updateTypes_edits h) fun id => ?_
  split
  · exact .failAt _ _
  · exact .bind (updateTypes_edits fun g => TypeGraph.Upheld.box E g _ _) fun _ => emptyBox_edits _ _

theorem consNothing_edits {item : TypeExpr} (h : TypeGraph.Admits T item) (span : Span) :
    Editing E T p (consNothing item span) := by
  refine .bind (updateTypes_edits h) fun id => ?_
  split
  · exact .failAt _ _
  · exact .bind (updateTypes_edits fun g => TypeGraph.Upheld.list E g _ _) fun _ => emptyBox_edits _ _

theorem callResult_edits (result : TypeId) (b : Bindings) (span : Span) :
    Editing E T p (callResult result b span) := by
  rw [callResult]
  split
  · exact .pure _
  · exact .bind (instantiate_edits _ _ _) fun _ => fresh_edits fun _ =>
      .bind (expand_edits _ _ (fun _ => mem_vars_var) _) fun _ => .bind (valueOf_edits _ _) fun _ =>
        .pure _

end

end Lower

end SlotCode
