import SlotCode.Proofs.Twins.Patterns

/-!
# Operations in twin sessions

What is done with values that are lowered already ends in the same way in twin sessions.
-/

namespace SlotCode

open List

variable {vs vs' : List Value} {v v' : Value}

namespace Lower

variable {r : Renumbering} {names : List String} {s s' : Session}

/-! ## Tuples and operators -/

/-- The same values. -/
abbrev SameValues (r : Renumbering) (s : Session) (vs vs' : List Value) : Prop :=
  List.Forall₂ (SameValue r s) vs vs'

theorem tupleLeaves_inStep {t : Session} (hvs : SameValues r t vs vs') (h : s.Twins r names s') :
    InStep r names s (fun _ => SameOperands r) (tupleLeaves vs s) (tupleLeaves vs' s') := by
  induction hvs generalizing s s' with
  | nil => exact h.pure .nil
  | cons hv _ ih =>
    rw [tupleLeaves, tupleLeaves, hv.isVoid, hv.span]
    split
    · exact failAt_inStep _ _
    · refine (ih h).bind fun os os' t t' _ ht hos => ?_
      exact ht.pure (hv.operands.append hos)

/-- A node is added to both graphs. -/
theorem add_inStep (h : s.Twins r names s') {kind : TypeKind} (origin : Option Span)
    (hparts : ∀ part ∈ kind.parts, s.types.IsValue part) (hlist : kind.item? = none)
    (hvalue : kind.isFunction = false) :
    InStep r names s (SameType r) (updateTypes (·.add kind origin) s)
      (updateTypes (·.add (kind.rename r.types) origin) s') := by
  have hgrown : s.types.Grown s.types kind.parts := ⟨h.regular, .refl _, hparts⟩
  have hadded := hgrown.add origin rfl hlist hvalue
  exact updateTypes_inStep h hadded (h.types.add kind origin)
    ⟨h.types.size, hadded.values _ mem_cons_self⟩

/-- The types of the values differ by the renumbering. -/
theorem SameValues.types (h : SameValues r s vs vs') :
    vs'.map Value.type = (vs.map Value.type).map r.types ∧
      ∀ type ∈ vs.map Value.type, s.types.IsValue type := by
  induction h with
  | nil => exact ⟨rfl, forall_mem_nil _⟩
  | cons hv _ ih =>
    refine ⟨?_, forall_mem_cons.2 ⟨hv.value, ih.2⟩⟩
    rw [map_cons, ih.1, hv.eq]
    rfl

theorem tupleOf_inStep (h : s.Twins r names s') (hvs : SameValues r s vs vs') (span : Span) :
    InStep r names s (SameValue r) (tupleOf vs span s) (tupleOf vs' span s') := by
  obtain ⟨htypes, hvalues⟩ := hvs.types
  have hparts : ∀ part ∈ (TypeKind.tuple (vs.map Value.type)).parts, s.types.IsValue part := hvalues
  rw [tupleOf, tupleOf, htypes, ← TypeKind.rename_tuple]
  refine (add_inStep h (some span) hparts rfl rfl).bind fun type type' t t' _ ht htype => ?_
  obtain ⟨rfl, htype⟩ := htype
  refine (tupleLeaves_inStep hvs ht).bind fun os os' u u' hgrows hu hos => ?_
  obtain ⟨rfl, hunits⟩ := hos
  exact hu.pure ⟨rfl, htype.extend hgrows.types, hunits⟩

theorem runComparisons_inStep (h : s.Twins r names s') (cs : List Comparison) :
    InStep r names s (fun _ a a' => SameCode r a.1 a'.1 ∧ SameOperands r a.2 a'.2)
      (runComparisons cs s) (runComparisons cs s') := by
  induction cs generalizing s s' with
  | nil => exact h.pure ⟨.nil, .nil⟩
  | cons c cs ih =>
    have hnew := newTyped_inStep h (h.regular.unit (show TypeId.boolean < 4 by decide)) c.span
    rw [h.types.unit (show .boolean < 4 by decide)] at hnew
    rw [runComparisons]
    refine hnew.bind fun dest dest' t t' _ ht hdest => ?_
    obtain ⟨rfl, -⟩ := hdest
    refine (ih ht).bind fun a a' u u' _ hu ha => ?_
    exact hu.pure ⟨.cons rfl .nil ha.1, .cons (.var dest') ha.2⟩

theorem holdInteger_inStep (h : s.Twins r names s') (hv : SameValue r s v v') (span : Span) :
    InStep r names s (fun _ a a' => SameCode r a.1 a'.1 ∧ a'.2 = a.2) (holdInteger v span s)
      (holdInteger v' span s') := by
  have hnew := newTyped_inStep h (h.regular.unit (show TypeId.integer < 4 by decide)) v.span
  rw [h.types.unit (show .integer < 4 by decide)] at hnew
  have hasVar : v'.asVar? = v.asVar? := hv.eq ▸ v.asVar?_rename r.types
  rw [holdInteger, holdInteger, hasVar, hv.span]
  cases v.asVar? with
  | some id => exact h.pure ⟨.nil, rfl⟩
  | none =>
    refine hnew.bind fun id id' t t' _ ht hid => ?_
    obtain ⟨rfl, -⟩ := hid
    refine (scalarOf_inStep ht hv).bind fun o o' u u' _ hu ho => ?_
    exact hu.pure ⟨.assign ho span id', rfl⟩

/-! ## Boxes -/

/-- The value of a new variable of the type. -/
theorem sameResult_new {type : TypeId} {dest : VarId} {code code' : Code} (span : Span)
    (hcode : SameCode r code code') (htype : s.types.IsValue type) :
    SameResult r s (code, .scalar type span (.var dest))
      (code', .scalar (r.types type) span (.var dest)) :=
  ⟨hcode, rfl, htype, .nil⟩

/-- A box around a value can be added. -/
theorem box_parts {g : TypeGraph} {payload : TypeId} (h : g.IsValue payload) :
    ∀ part ∈ (TypeKind.box payload).parts, g.IsValue part :=
  fun _ hpart => mem_singleton.1 hpart ▸ h

section

variable (h : s.Twins r names s')

include h

theorem wrapValue_inStep (hv : SameValue r s v v') (payloadSpan span : Span) :
    InStep r names s (SameResult r) (wrapValue v payloadSpan span s)
      (wrapValue v' payloadSpan span s') := by
  have hkind : TypeKind.box v'.type = (TypeKind.box v.type).rename r.types := by rw [hv.eq]; rfl
  rw [wrapValue, wrapValue, hv.isVoid, hkind]
  split
  · exact failAt_inStep _ _
  · refine (add_inStep h (some span) (box_parts hv.value) rfl rfl).bind
      fun type type' t t' _ ht htype => ?_
    obtain ⟨rfl, htype⟩ := htype
    refine (newTyped_inStep ht htype span).bind fun dest dest' u u' hgrows hu hdest => ?_
    obtain ⟨rfl, -⟩ := hdest
    exact hu.pure (sameResult_new span (.native hv.operands span .wrap [dest'])
      (htype.extend hgrows.types))

theorem consValue_inStep {head head' tail tail' : Value} (hhead : SameValue r s head head')
    (htail : SameValue r s tail tail') (span : Span) :
    InStep r names s (SameResult r) (consValue head tail span s) (consValue head' tail' span s') := by
  obtain rfl := htail.eq
  obtain ⟨kind, hk⟩ := TypeGraph.exists_kind htail.value.lt_size
  have hk' : s'.types.kind (tail.rename r.types).type = .ok (kind.rename r.types) := kind_twins h hk
  rw [consValue, consValue, askTypes_bind hk, askTypes_bind hk', TypeKind.item?_rename, hhead.isVoid,
    hhead.span]
  cases hitem : kind.item? with
  | none => exact text_inStep h htail.value.lt_size _
  | some item =>
    have hitemValue := h.regular.parts tail.type item ⟨kind, hk, TypeKind.item_mem_parts hitem⟩
    simp only [Option.map_some]
    split
    · exact failAt_inStep _ _
    · refine (expectType_inStep h hitemValue hhead tail.span).bind fun _ _ t t' hgrows ht _ => ?_
      refine (scalarOf_inStep ht htail).bind fun o o' u u' hgrows' hu ho => ?_
      have htype := htail.value.extend (hgrows.trans hgrows').types
      refine (newTyped_inStep hu htype span).bind fun dest dest' w w' hgrows'' hw hdest => ?_
      obtain ⟨rfl, -⟩ := hdest
      exact hw.pure (sameResult_new span
        (.native (hhead.operands.append (.cons ho .nil)) span .wrap [dest'])
        (htype.extend hgrows''.types))

theorem emptyBox_inStep {type : TypeId} (htype : s.types.IsValue type) (span : Span) :
    InStep r names s (SameResult r) (emptyBox type span s) (emptyBox (r.types type) span s') := by
  refine (newTyped_inStep h htype span).bind fun dest dest' t t' hgrows ht hdest => ?_
  obtain ⟨rfl, -⟩ := hdest
  exact ht.pure (sameResult_new span (.native .nil span .wrapEmpty [dest']) (htype.extend hgrows.types))

theorem resolve_inStep (type : TypeExpr) :
    InStep r names s (SameType r) (updateTypes (·.resolve type) s)
      (updateTypes (·.resolve type) s') := by
  have hgrown := TypeGraph.resolve_grown h.regular type
  obtain ⟨hid, hembeds⟩ := h.types.resolve (Nat.zero_le _) type
  exact updateTypes_inStep h hgrown hembeds ⟨hid, hgrown.values _ mem_cons_self⟩

theorem wrapNothing_inStep (payload : TypeExpr) (span : Span) :
    InStep r names s (SameResult r) (wrapNothing payload span s) (wrapNothing payload span s') := by
  refine (resolve_inStep h payload).bind fun id id' t t' _ ht hid => ?_
  obtain ⟨rfl, hvalue⟩ := hid
  simp only [types_eq_void]
  split
  · exact failAt_inStep _ _
  · refine (add_inStep ht (some span) (box_parts hvalue) rfl rfl).bind
      fun type type' u u' _ hu htype => ?_
    obtain ⟨rfl, htype⟩ := htype
    exact emptyBox_inStep hu htype span

theorem consNothing_inStep (item : TypeExpr) (span : Span) :
    InStep r names s (SameResult r) (consNothing item span s) (consNothing item span s') := by
  refine (resolve_inStep h item).bind fun id id' t t' _ ht hid => ?_
  obtain ⟨rfl, hvalue⟩ := hid
  have hgrown : t.types.Grown t.types [id] :=
    ⟨ht.regular, .refl _, fun _ hmem => mem_singleton.1 hmem ▸ hvalue⟩
  have hlist := hgrown.addList (some span)
  obtain ⟨hsame, hembeds⟩ := ht.types.addList (Nat.zero_le _) id (some span)
  have hadd : InStep r names t (SameType r) (updateTypes (·.addList id (some span)) t)
      (updateTypes (·.addList (r.types id) (some span)) t') :=
    updateTypes_inStep ht hlist hembeds ⟨hsame, hlist.values _ mem_cons_self⟩
  simp only [types_eq_void]
  split
  · exact failAt_inStep _ _
  · refine hadd.bind fun type type' u u' _ hu htype => ?_
    obtain ⟨rfl, htype⟩ := htype
    exact emptyBox_inStep hu htype span

theorem openBox_inStep (hv : SameValue r s v v') :
    InStep r names s (fun t a a' => SameType r t a.1 a'.1 ∧ SameOperand r a.2 a'.2) (openBox v s)
      (openBox v' s') := by
  obtain rfl := hv.eq
  obtain ⟨kind, hk⟩ := TypeGraph.exists_kind hv.value.lt_size
  have hk' : s'.types.kind (v.rename r.types).type = .ok (kind.rename r.types) := kind_twins h hk
  rw [openBox, openBox, askTypes_bind hk, askTypes_bind hk', TypeKind.payload?_rename]
  cases hpayload : kind.payload? with
  | none => exact text_inStep h hv.value.lt_size _
  | some payload =>
    have hpayloadValue := h.regular.parts v.type payload (.payload hk hpayload)
    refine (scalarOf_inStep h hv).bind fun o o' t t' hgrows ht ho => ?_
    exact ht.pure ⟨⟨rfl, hpayloadValue.extend hgrows.types⟩, ho⟩

end

/-! ## Calls -/

/-- The same function type. -/
def SameCallee (r : Renumbering) (s : Session) (c c' : Callee) : Prop :=
  c' = ⟨c.params.map r.types, r.types c.result, c.native⟩ ∧
    (∀ param ∈ c.params, s.types.IsValue param) ∧ s.types.IsValue c.result

section

variable (h : s.Twins r names s')

include h

theorem signature_inStep {name : String} (hname : name ∈ names) (span : Span) :
    InStep r names s (fun t type type' => type' = r.types type ∧ type < t.types.size)
      (search (·.signature name span) s) (search (·.signature name span) s') :=
  search_inStep h (fun _ _ => h.signature hname span) fun _ htype =>
    ⟨rfl, h.firm.signature htype⟩

/-- Both runs find the same parameters. -/
theorem callee_inStep {name : String} (hname : name ∈ names) (span : Span) :
    InStep r names s (SameCallee r) (callee name span s) (callee name span s') := by
  refine (signature_inStep h hname span).bind fun type type' t t' _ ht htype => ?_
  obtain ⟨rfl, hlt⟩ := htype
  obtain ⟨kind, hk⟩ := TypeGraph.exists_kind hlt
  rw [askTypes_bind hk, askTypes_bind (kind_twins ht hk)]
  cases kind with
  | function params result native =>
    have hparts : ∀ part ∈ params ++ [result], t.types.IsValue part := fun part hpart =>
      ht.regular.parts type part ⟨_, hk, hpart⟩
    obtain ⟨hparams, hresult⟩ := forall_mem_append.1 hparts
    have hvoid : params.map r.types = [.void] ↔ params = [.void] := by
      refine Iff.trans ?_ (map_injective_iff.2 r.types_inj).eq_iff
      rw [map_singleton, r.types_void]
    refine ht.pure ⟨?_, ?_, hresult result mem_cons_self⟩
    · simp only [hvoid]
      split <;> rfl
    · simp only
      split
      · exact forall_mem_nil _
      · exact hparams
  | _ => exact failAt_inStep _ _

theorem checkArity_inStep (name : String) {c c' : Callee} (hc : SameCallee r s c c') (args : List Expr)
    (span : Span) :
    InStep r names s (fun _ _ _ => True) (checkArity name c args span s)
      (checkArity name c' args span s') := by
  rw [hc.1, checkArity, checkArity, length_map]
  split
  · exact h.pure trivial
  · exact failAt_inStep _ _

theorem callResult_inStep {result : TypeId} {b : Bindings} (hresult : s.types.IsValue result)
    (hb : BindsValues s.types b) (span : Span) :
    InStep r names s (fun t a a' => a'.1 = a.1 ∧ SameValue r t a.2 a'.2) (callResult result b span s)
      (callResult (r.types result) (b.rename r.types) span s') := by
  rw [callResult, callResult]
  simp only [types_eq_void]
  split
  · exact h.pure ⟨rfl, sameValue_void h span⟩
  · refine (instantiate_inStep h hresult hb span).bind fun type type' t t' _ ht htype => ?_
    obtain ⟨rfl, htype⟩ := htype
    refine (newTemp_inStep ht span none).bind fun dest dest' u u' hgrows hu hdest => ?_
    obtain ⟨rfl, hdest⟩ := hdest
    have hids : ∀ id ∈ (Pattern.var dest' span).vars, id < u.scope.vars.size := fun id hid =>
      mem_vars_var hid ▸ hdest
    refine (expand_inStep hu span _ hids (htype.extend hgrows.types)).bind
      fun outputs outputs' w w' hgrows' hw houtputs => ?_
    obtain rfl : outputs' = outputs := houtputs
    refine (valueOf_inStep hw (Nat.lt_of_lt_of_le hdest hgrows'.vars) span).bind
      fun v v' x x' _ hx hv => ?_
    exact hx.pure ⟨rfl, hv⟩

theorem callCommand_inStep (name : String) (native : Bool) {inputs inputs' : List Operand}
    (hinputs : SameOperands r inputs inputs') (outputs : List VarId) (targetSpan span : Span) :
    InStep r names s (fun _ c c' => SameCode r [c] [c'])
      (callCommand name native inputs outputs targetSpan span s)
      (callCommand name native inputs' outputs targetSpan span s') := by
  rw [callCommand, callCommand]
  split
  · cases Primitive.ofName? name with
    | none => exact failAt_inStep _ _
    | some primitive => exact h.pure (.native hinputs span primitive outputs)
  · refine (report_inStep h _ _).bind fun _ _ t t' _ ht _ => ?_
    exact ht.pure (.cons (by rw [hinputs.eq, Command.rename]) hinputs.units .nil)

/-! ## Blocks, conditionals and loops -/

theorem keepValue_inStep (hv : SameValue r s v v') (span : Span) :
    InStep r names s (SameResult r) (keepValue v span s) (keepValue v' span s') := by
  rw [keepValue, keepValue, hv.isVoid]
  split
  · exact h.pure ⟨.nil, hv⟩
  · refine (newTemp_inStep h span none).bind fun dest dest' t t' hgrows ht hdest => ?_
    obtain ⟨rfl, hdest⟩ := hdest
    have hids : ∀ id ∈ (Pattern.var dest' span).vars, id < t.scope.vars.size := fun id hid =>
      mem_vars_var hid ▸ hdest
    refine (storeInto_inStep ht hids (hv.grows hgrows) span).bind fun code code' u u' hgrows' hu hcode => ?_
    refine (valueOf_inStep hu (Nat.lt_of_lt_of_le hdest hgrows'.vars) span).bind
      fun w w' x x' _ hx hw => ?_
    exact hx.pure ⟨hcode, hw⟩

end

/-- The same branch, or none. -/
def SameBranch (r : Renumbering) (s : Session) : Option (Code × Value) → Option (Code × Value) → Prop
  | some branch, some branch' => SameResult r s branch branch'
  | none, none => True
  | _, _ => False

theorem storeBranches_inStep (h : s.Twins r names s') {yes yes' no no' : Code × Value}
    (hyes : SameResult r s yes yes') (hno : SameResult r s no no') (span : Span) :
    InStep r names s (fun t a a' => SameCode r a.1 a'.1 ∧ SameResult r t a.2 a'.2)
      (storeBranches yes no span s) (storeBranches yes' no' span s') := by
  rw [storeBranches, storeBranches, hyes.2.span, hno.2.span]
  refine (newTemp_inStep h span none).bind fun dest dest' t t' hgrows ht hdest => ?_
  obtain ⟨rfl, hdest⟩ := hdest
  have hids : ∀ id ∈ (Pattern.var dest' span).vars, id < t.scope.vars.size := fun id hid =>
    mem_vars_var hid ▸ hdest
  refine (storeInto_inStep ht hids (hyes.2.grows hgrows) _).bind
    fun code code' u u' hgrows' hu hcode => ?_
  have hdest' := Nat.lt_of_lt_of_le hdest hgrows'.vars
  refine (storeInto_inStep hu (fun id hid => mem_vars_var hid ▸ hdest')
    (hno.2.grows (hgrows.trans hgrows')) _).bind fun other other' w w' hgrows'' hw hother => ?_
  refine (valueOf_inStep hw (Nat.lt_of_lt_of_le hdest' hgrows''.vars) span).bind
    fun v v' x x' _ hx hv => ?_
  exact hx.pure ⟨hyes.1.append hcode, hno.1.append hother, hv⟩

theorem joinBranches_inStep (h : s.Twins r names s') {yes yes' : Code × Value}
    {no no' : Option (Code × Value)} (hyes : SameResult r s yes yes') (hno : SameBranch r s no no')
    (span : Span) :
    InStep r names s (fun t a a' => SameCode r a.1 a'.1 ∧ SameResult r t a.2 a'.2)
      (joinBranches yes no span s) (joinBranches yes' no' span s') := by
  have htype : yes'.2.type = r.types yes.2.type := by rw [hyes.2.eq, Value.rename]
  cases no with
  | none =>
    cases no' with
    | some no' => exact False.elim hno
    | none =>
      rw [joinBranches_none, joinBranches_none, hyes.2.isVoid, hyes.2.span]
      split
      · exact h.pure ⟨hyes.1, .nil, sameValue_void h span⟩
      · exact failAt_inStep _ _
  | some no =>
    cases no' with
    | none => exact False.elim hno
    | some no' =>
      rw [joinBranches_some, joinBranches_some, hyes.2.isVoid, hyes.2.span, htype]
      refine (expectType_inStep h hyes.2.value hno.2 _).bind fun _ _ t t' hgrows ht _ => ?_
      split
      · exact ht.pure ⟨hyes.1, hno.1, sameValue_void ht span⟩
      · exact storeBranches_inStep ht (hyes.grows hgrows) (hno.grows hgrows) span

/-- The same loop. -/
def SameLoop (r : Renumbering) (s : Session) (ref ref' : LoopRef) : Prop :=
  ref' = ref.renumber r ∧ ref.var < s.scope.vars.size

theorem SameLoop.grows {t : Session} {ref ref' : LoopRef} (h : SameLoop r s ref ref')
    (hgrows : s.Grows t) : SameLoop r t ref ref' :=
  ⟨h.1, Nat.lt_of_lt_of_le h.2 hgrows.vars⟩

section

variable (h : s.Twins r names s')

include h

theorem newLoop_inStep (label : Option String) (span : Span) :
    InStep r names s (SameLoop r) (updateScope (·.newLoop label span) s)
      (updateScope (·.newLoop label span) s') := by
  obtain ⟨hfirm, hsize, hfunctions, hvar⟩ := h.firm.newLoop label span
  exact updateScope_inStep h hfirm hsize hfunctions
    (fun fs => s.scope.newLoop_renumber r fs label span) ⟨rfl, hvar⟩

/-- A `leave` means the same loop in both runs. -/
theorem targetLoop_inStep (label : Option String) (span : Span) :
    InStep r names s (SameLoop r) (targetLoop label span s) (targetLoop label span s') := by
  cases label with
  | some label =>
    change InStep r names s (SameLoop r) (search (·.findLoop label span) s)
      (search (·.findLoop label span) s')
    refine search_inStep h (q := LoopRef.renumber r) (fun fs hfs => ?_) fun ref href => ⟨rfl, ?_⟩
    · rw [hfs]
      exact s.scope.findLoop_renumber r fs label span
    · rw [Scope.findLoop] at href
      split at href
      · next hfound =>
        cases href
        exact h.firm.openLoops (mem_of_find?_eq_some hfound)
      · cases href
  | none =>
    change InStep r names s (SameLoop r) (search (·.innermostLoop span) s)
      (search (·.innermostLoop span) s')
    refine search_inStep h (q := LoopRef.renumber r) (fun fs hfs => ?_) fun ref href => ⟨rfl, ?_⟩
    · rw [hfs]
      exact s.scope.innermostLoop_renumber r fs span
    · rw [Scope.innermostLoop] at href
      split at href
      · next hfound =>
        cases href
        exact h.firm.openLoops (mem_of_mem_head? hfound)
      · cases href

theorem fixLoopType_inStep {ref ref' : LoopRef} (href : SameLoop r s ref ref') (hv : SameValue r s v v') :
    InStep r names s (fun _ _ _ => True) (fixLoopType ref v s) (fixLoopType ref' v' s') := by
  obtain ⟨rfl, hvar⟩ := href
  obtain ⟨rfl, hvalue, -⟩ := hv
  obtain ⟨var, -, hlook, hlook', -, -, htypes⟩ := var_twins h hvar
  obtain ⟨text, htext, htext'⟩ := h.types.text h.regular.toSound hvalue.lt_size
  rw [fixLoopType, fixLoopType, askScope_bind hlook,
    askScope_bind (show s'.scope.var (ref.renumber r).var = _ from hlook')]
  simp only [Var.rename]
  cases htype : var.type with
  | none =>
    simp only [Option.map_none]
    rw [askTypes_bind htext, askTypes_bind (show s'.types.text (v.rename r.types).type = _ from htext')]
    refine (report_inStep h _ _).bind fun _ _ t t' hgrows ht _ => ?_
    refine modifyVar_inStep ht ref.var (fun _ _ type ht => ?_) fun _ => rfl
    cases ht
    exact hvalue.extend hgrows.types
  | some type => exact requireMatch_inStep h (htype ▸ htypes) hvalue var.span v.span

theorem leaveWith_inStep (label : Option String) (hv : SameValue r s v v') (span : Span) :
    InStep r names s (SameResult r) (leaveWith label v span s) (leaveWith label v' span s') := by
  refine (targetLoop_inStep h label span).bind fun ref ref' t t' hgrows ht href => ?_
  refine (fixLoopType_inStep ht href (hv.grows hgrows)).bind fun _ _ u u' hgrows' hu _ => ?_
  obtain ⟨rfl, hvar⟩ := href
  have hids : ∀ id ∈ (Pattern.var ref.var span).vars, id < u.scope.vars.size := fun id hid =>
    mem_vars_var hid ▸ Nat.lt_of_lt_of_le hvar hgrows'.vars
  simp only [hv.isVoid]
  split
  · exact hu.pure ⟨.cons rfl .nil .nil, sameValue_void hu span⟩
  · refine (storeInto_inStep hu hids (hv.grows (hgrows.trans hgrows')) span).bind
      fun code code' w w' _ hw hcode => ?_
    exact hw.pure ⟨hcode.append (.cons rfl .nil .nil), sameValue_void hw span⟩

theorem loopValue_inStep {id : VarId} (hid : id < s.scope.vars.size) (span : Span) :
    InStep r names s (SameValue r) (loopValue id span s) (loopValue id span s') := by
  obtain ⟨v, -, hv, hv', -, -, -⟩ := var_twins h hid
  rw [loopValue, askScope_bind hv, askScope_bind hv']
  simp only [Var.rename]
  cases v.type with
  | none => exact h.pure (sameValue_void h span)
  | some type => exact valueOf_inStep h hid span

end

end Lower

end SlotCode
