import SlotCode.Proofs.Twins.Trees

/-!
# Functions in twin sessions

A function is lowered in the same way in twin sessions that know the same about the function and about
those that it calls (`lowerFunction_lockstep`).
-/

namespace SlotCode

open Lower

variable {r : Renumbering} {names : List String} {s s' : Session}

theorem declareParams_inStep (h : s.Twins r names s') (mode : BindMode) (params : List Param)
    {types : List TypeId} (htypes : ∀ type ∈ types, s.types.IsValue type) :
    InStep r names s Equal (declareParams mode params types s)
      (declareParams mode params (types.map r.types) s') := by
  induction params generalizing mode types s s' with
  | nil => exact h.pure rfl
  | cons param params ih =>
    cases types with
    | nil => exact h.pure rfl
    | cons type types =>
      obtain ⟨htype, htypes⟩ := List.forall_mem_cons.1 htypes
      refine (bindName_inStep h param.name param.span mode).bind fun a a' t t' hgrows ht ha => ?_
      obtain ⟨rfl, hid⟩ := ha
      have hids : ∀ id ∈ (Pattern.var a'.1 param.span).vars, id < t.scope.vars.size := fun id hmem =>
        mem_vars_var hmem ▸ hid
      refine (expand_inStep ht param.type.span _ hids (htype.extend hgrows.types)).bind
        fun head head' u u' hgrows' hu hhead => ?_
      obtain rfl : head' = head := hhead
      refine (ih hu a'.2 fun type hmem =>
        (htypes type hmem).extend (hgrows.trans hgrows').types).bind fun rest rest' w w' _ hw hrest => ?_
      obtain rfl : rest' = rest := hrest
      exact hw.pure rfl

/-- The same body of a function. -/
structure SameBody (r : Renumbering) (b b' : Body) : Prop where
  args : b'.args = b.args
  code : SameCode r b.code b'.code
  value : SameOperands r b.value b'.value

section

variable (h : s.Twins r names s')

include h

theorem lowerBody_inStep {decl : FnDecl} (hnames : decl.body.callees ⊆ names) {c c' : Callee}
    (hc : SameCallee r s c c') :
    InStep r names s (fun _ => SameBody r) (lowerBody decl c s) (lowerBody decl c' s') := by
  obtain ⟨rfl, hparams, hresult⟩ := hc
  refine inContext_inStep h (fun _ _ _ _ _ hbody => hbody) fun t t' hgrows ht => ?_
  refine (declareParams_inStep ht (.declare []) decl.params fun param hmem =>
    (hparams param hmem).extend hgrows.types).bind fun args args' u u' hgrows' hu hargs => ?_
  refine (Block.inStep hnames hu).bind fun a a' w w' hgrows'' hw ha => ?_
  obtain ⟨code, v⟩ := a
  obtain ⟨code', v'⟩ := a'
  obtain ⟨hcode, hv⟩ := ha
  have hresult' := hresult.extend (hgrows.trans (hgrows'.trans hgrows'')).types
  have hmatch : InStep r names w (fun _ _ _ => True)
      (requireMatch (some c.result) v.type decl.result.span v.span w)
      (requireMatch (some (r.types c.result)) v'.type decl.result.span v'.span w') :=
    expectType_inStep hw hresult' hv decl.result.span
  refine hmatch.bind fun _ _ x x' _ hx _ => ?_
  exact hx.pure ⟨hargs, hcode, hv.operands⟩

theorem checkParams_inStep (decl : FnDecl) {c c' : Callee} (hc : SameCallee r s c c') :
    InStep r names s (fun _ _ _ => True) (checkParams decl c s) (checkParams decl c' s') := by
  rw [hc.1, checkParams, checkParams]
  cases decl.params with
  | nil => exact h.pure trivial
  | cons param params =>
    cases params with
    | cons => exact h.pure trivial
    | nil =>
      cases c.params with
      | nil => exact failAt_inStep _ _
      | cons => exact h.pure trivial

/-! ## Tables -/

theorem Session.Twins.table : s'.scope.table = s.scope.table.map (Var.rename r.types) := by
  obtain ⟨fs, hfs, -⟩ := h.scope
  rw [hfs, Scope.table_renumber]

theorem Session.Twins.locals :
    s'.scope.locals.toList = s.scope.locals.toList.map (Local.rename r.types) := by
  obtain ⟨fs, hfs, -⟩ := h.scope
  rw [hfs]
  exact Array.toList_map ..

end

theorem Scope.Firm.table {scope : Scope} {g : TypeGraph} (h : scope.Firm g) {type : TypeId}
    (htype : type ∈ scope.table.toList.filterMap Var.type) : g.IsValue type := by
  obtain ⟨v, hv, htype⟩ := List.mem_filterMap.1 htype
  rw [Scope.table, Array.toList_map] at hv
  obtain ⟨entry, hentry, rfl⟩ := List.mem_map.1 hv
  obtain ⟨id, hid⟩ := Array.getElem?_of_mem (Array.mem_toList_iff.1 hentry)
  exact h.vars hid type htype

/-! ## Functions -/

/-- Both type graphs know the same, as far as the first one goes. -/
structure TypesAlike (r : Renumbering) (s s' : Session) : Prop where
  regular : s.types.Regular
  embeds : s.types.Embeds r.types 0 s'.types

/-- The same function. -/
structure SameFunction (r : Renumbering) (s : Session) (f f' : Function) : Prop where
  eq : f' = f.rename r.types r.loops
  values : ∀ type ∈ f.types, s.types.IsValue type

/-- A function that was lowered in twin sessions is put together. -/
theorem sameFunction (h : s.Twins r names s') (name : String) (span : Span) {result : TypeId}
    (hresult : s.types.IsValue result) {b b' : Body} (hb : SameBody r b b') :
    SameFunction r s
      ⟨name, result, s.scope.table, s.scope.locals.toList, b.args, b.code, b.value, span⟩
      ⟨name, r.types result, s'.scope.table, s'.scope.locals.toList, b'.args, b'.code, b'.value,
        span⟩ where
  eq := by rw [h.table, h.locals, hb.args, hb.code.eq, hb.value.eq, Function.rename]
  values := by
    have hunit : ∀ {types : List TypeId}, AllUnits types → ∀ type ∈ types, s.types.IsValue type :=
      fun hunits type hmem => h.regular.unit (hunits type hmem)
    simp only [Function.types, List.forall_mem_append, List.forall_mem_cons, List.forall_mem_map]
    exact ⟨⟨⟨⟨hresult, fun type => h.firm.table⟩, fun l hl => h.firm.locals l (Array.mem_toList_iff.1 hl)⟩,
      hunit hb.code.units⟩, hunit hb.value.units⟩

theorem lowerFunction_lockstep (h : s.Twins r names s') {decl : FnDecl} (hname : decl.name ∈ names)
    (hnames : decl.body.callees ⊆ names) :
    Lockstep (TypesAlike r) (SameFunction r) (lowerFunction decl s) (lowerFunction decl s') := by
  rw [lowerFunction]
  refine Lockstep.bind (report_inStep h _ _) fun _ _ t t' ht _ => ?_
  refine Lockstep.bind (callee_inStep ht.2 hname decl.span) fun c c' u u' hu hc => ?_
  refine Lockstep.bind (checkParams_inStep hu.2 decl hc) fun _ _ w w' hw _ => ?_
  have hc' : SameCallee r w c c' := ⟨hc.1, fun p hp => (hc.2.1 p hp).extend hw.1.types,
    hc.2.2.extend hw.1.types⟩
  rcases (lowerBody_inStep hw.2 hnames hc').cases with
    ⟨b, x, b', x', hrun, hrun', ⟨hgrows, hx⟩, hb⟩ | ⟨e, x, x', hrun, hrun'⟩
  · simp only [draining, hrun, hrun', bind, EStateM.bind]
    obtain ⟨heq, hvalues⟩ := sameFunction hx decl.name decl.span (hc'.2.2.extend hgrows.types) hb
    rw [hc.1]
    exact ⟨⟨hx.regular, hx.types⟩, heq, hvalues⟩
  · simp only [draining, hrun, hrun', bind, EStateM.bind]
    exact rfl

end SlotCode
