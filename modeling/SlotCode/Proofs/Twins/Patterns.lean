import SlotCode.Proofs.Lowering.Calls
import SlotCode.Proofs.Lowering.Kept
import SlotCode.Proofs.Twins.Session

/-!
# Variables and patterns in twin sessions

What is done with variables, types and patterns ends in the same way in twin sessions.
-/

namespace SlotCode

open List

variable {v v' : Value} {o o' : Operand} {id : VarId} {type : TypeId}

/-! ## Results of steps -/

/-- Only the four unit types are mentioned. -/
def AllUnits (types : List TypeId) : Prop :=
  ∀ type ∈ types, type < 4

theorem AllUnits.nil : AllUnits [] :=
  forall_mem_nil _

theorem AllUnits.append {a b : List TypeId} (ha : AllUnits a) (hb : AllUnits b) : AllUnits (a ++ b) :=
  forall_mem_append.2 ⟨ha, hb⟩

theorem AllUnits.vars (ids : List VarId) : AllUnits (Operand.typesAll (ids.map .var)) := by
  induction ids with
  | nil => exact .nil
  | cons id ids ih => exact ih

section

variable (r : Renumbering) (s : Session)

/-- A result without numbers that differ. -/
def Equal {α : Type} (_ : Session) (a a' : α) : Prop :=
  a' = a

/-- The same type. -/
def SameType (t t' : TypeId) : Prop :=
  t' = r.types t ∧ s.types.IsValue t

/-- The same operand. -/
structure SameOperand (o o' : Operand) : Prop where
  eq : o' = o.rename r.types
  units : AllUnits o.types

/-- The same operands. -/
structure SameOperands (os os' : List Operand) : Prop where
  eq : os' = os.map (Operand.rename r.types)
  units : AllUnits (Operand.typesAll os)

/-- The same value. -/
structure SameValue (v v' : Value) : Prop where
  eq : v' = v.rename r.types
  value : s.types.IsValue v.type
  units : AllUnits (Operand.typesAll v.leaves)

/-- The same code. -/
structure SameCode (code code' : Code) : Prop where
  eq : code' = Command.renameAll r.types r.loops code
  units : AllUnits (Command.typesAll code)

/-- The same code and the same value. -/
def SameResult (result result' : Code × Value) : Prop :=
  SameCode r result.1 result'.1 ∧ SameValue r s result.2 result'.2

/-- A variable that is there. -/
def SameVar (id id' : VarId) : Prop :=
  id' = id ∧ id < s.scope.vars.size

/-- A pattern of variables that are there. -/
def SamePattern (p p' : Pattern) : Prop :=
  p' = p ∧ ∀ id ∈ p.vars, id < s.scope.vars.size

end

section

variable {r : Renumbering} {s t : Session}

theorem SameValue.grows (h : SameValue r s v v') (hgrows : s.Grows t) : SameValue r t v v' :=
  ⟨h.eq, h.value.extend hgrows.types, h.units⟩

theorem SameResult.grows {c c' : Code × Value} (h : SameResult r s c c') (hgrows : s.Grows t) :
    SameResult r t c c' :=
  ⟨h.1, h.2.grows hgrows⟩

theorem SameOperand.var (id : VarId) : SameOperand r (.var id) (.var id) :=
  ⟨rfl, .nil⟩

theorem SameOperands.nil : SameOperands r [] [] :=
  ⟨rfl, .nil⟩

theorem SameOperands.cons {os os' : List Operand} (ho : SameOperand r o o')
    (hos : SameOperands r os os') : SameOperands r (o :: os) (o' :: os') where
  eq := by rw [ho.eq, hos.eq, map_cons]
  units := ho.units.append hos.units

theorem SameOperands.append {a a' b b' : List Operand} (ha : SameOperands r a a')
    (hb : SameOperands r b b') : SameOperands r (a ++ b) (a' ++ b') where
  eq := by rw [ha.eq, hb.eq, map_append]
  units := Operand.typesAll_append a b ▸ ha.units.append hb.units

theorem SameCode.nil : SameCode r [] [] :=
  ⟨rfl, .nil⟩

theorem SameCode.cons {c c' : Command} {code code' : Code} (heq : c' = c.rename r.types r.loops)
    (hunits : AllUnits c.types) (hcode : SameCode r code code') :
    SameCode r (c :: code) (c' :: code') where
  eq := by rw [heq, hcode.eq, Command.renameAll]
  units := hunits.append hcode.units

theorem SameCode.append {a a' b b' : Code} (ha : SameCode r a a') (hb : SameCode r b b') :
    SameCode r (a ++ b) (a' ++ b') where
  eq := by rw [ha.eq, hb.eq, Command.renameAll_append]
  units := Command.typesAll_append a b ▸ ha.units.append hb.units

theorem SameCode.assign (ho : SameOperand r o o') (span : Span) (dest : VarId) :
    SameCode r [.assign span dest o] [.assign span dest o'] :=
  .cons (by rw [ho.eq, Command.rename]) ho.units .nil

theorem SameCode.native {os os' : List Operand} (hos : SameOperands r os os') (span : Span)
    (primitive : Primitive) (outputs : List VarId) :
    SameCode r [.native span primitive os outputs] [.native span primitive os' outputs] :=
  .cons (by rw [hos.eq, Command.rename]) hos.units .nil

theorem SameCode.branch {yes yes' no no' : Code} (ho : SameOperand r o o')
    (hyes : SameCode r yes yes') (hno : SameCode r no no') (span : Span) :
    SameCode r [.branch span o yes no] [.branch span o' yes' no'] :=
  .cons (by rw [ho.eq, hyes.eq, hno.eq, Command.rename])
    (ho.units.append (hyes.units.append hno.units)) .nil

/-- A value has the same leaves. -/
theorem SameValue.operands (h : SameValue r s v v') : SameOperands r v.leaves v'.leaves :=
  ⟨h.eq ▸ v.leaves_rename r.types, h.units⟩

theorem SameValue.isVoid (h : SameValue r s v v') : v'.isVoid = v.isVoid :=
  h.eq ▸ v.isVoid_rename r.types

theorem SameValue.span (h : SameValue r s v v') : v'.span = v.span := by
  rw [h.eq, Value.rename]

end

namespace Lower

variable {r : Renumbering} {names : List String} {s s' : Session}

theorem sameValue_void (h : s.Twins r names s') (span : Span) :
    SameValue r s (.void span) (.void span) :=
  ⟨congrArg (Value.mk · span .void) r.types_void.symm, ⟨_, h.regular.void, rfl⟩, .nil⟩

theorem types_eq_void {id : TypeId} : r.types id = .void ↔ id = .void :=
  ⟨fun heq => r.types_inj (heq.trans r.types_void.symm), fun heq => heq ▸ r.types_void⟩

/-! ## Variables -/

section

variable (h : s.Twins r names s')

include h

theorem newTemp_inStep (span : Span) (owner : Option ContextId) :
    InStep r names s SameVar (updateScope (·.newTemp span owner) s)
      (updateScope (·.newTemp span (owner.map r.contexts)) s') := by
  have hsize : (s.scope.newTemp span owner).2.vars.size = s.scope.vars.size + 1 := by
    rw [s.scope.newTemp_vars, Array.size_push]
  refine updateScope_inStep h (h.firm.newVar _ _ _) (hsize ▸ Nat.le_succ _) ?_
    (fun fs => s.scope.newTemp_renumber r fs span owner) ⟨rfl, ?_⟩
  · exact s.scope.functions_newVar _ _ _
  · change (s.scope.newTemp span owner).1 < (s.scope.newTemp span owner).2.vars.size
    rw [s.scope.newTemp_fst, hsize]
    exact Nat.lt_succ_self _

/-- The variable is changed in both sessions. -/
theorem modifyVar_inStep (id : VarId) {f f' : Var → Var}
    (hf : ∀ v : Var, (∀ type ∈ v.type, s.types.IsValue type) → ∀ type ∈ (f v).type, s.types.IsValue type)
    (hrename : ∀ v : Var, (f v).rename r.types = f' (v.rename r.types)) :
    InStep r names s (fun _ _ _ => True) (modifyScope (·.modifyVar id f) s)
      (modifyScope (·.modifyVar id f') s') := by
  refine ⟨h.withScope (h.firm.modifyVar id hf) ?_ rfl fun fs hfs => ?_, trivial⟩
  · exact Nat.le_of_eq Array.size_modify.symm
  · rw [hfs]
    exact Scope.modifyVar_renumber r fs s.scope id hrename

theorem setType_inStep (id : VarId) (htype : s.types.IsValue type) :
    InStep r names s (fun _ _ _ => True) (modifyScope (·.setType id (some type)) s)
      (modifyScope (·.setType id (some (r.types type))) s') := by
  refine modifyVar_inStep h id (fun v _ type' ht => ?_) fun _ => rfl
  cases ht
  exact htype

theorem setLeaves_inStep (id : VarId) (leaves : List VarId) :
    InStep r names s (fun _ _ _ => True) (modifyScope (·.setLeaves id leaves) s)
      (modifyScope (·.setLeaves id leaves) s') :=
  modifyVar_inStep h id (fun _ hv => hv) fun _ => rfl

theorem newTyped_inStep (htype : s.types.IsValue type) (span : Span) :
    InStep r names s SameVar (newTyped type span s) (newTyped (r.types type) span s') := by
  refine (newTemp_inStep h span none).bind fun x x' t t' hgrows ht hx => ?_
  obtain ⟨rfl, hlt⟩ := hx
  refine (setType_inStep ht x' (htype.extend hgrows.types)).bind fun _ _ u u' hgrows' hu _ => ?_
  exact hu.pure ⟨rfl, Nat.lt_of_lt_of_le hlt hgrows'.vars⟩

/-- What is known about a variable. -/
theorem var_twins (hid : id < s.scope.vars.size) :
    ∃ v owner, s.scope.var id = .ok v ∧ s'.scope.var id = .ok (v.rename r.types) ∧
      s.scope.owner id = .ok owner ∧ s'.scope.owner id = .ok (r.contexts owner) ∧
      ∀ type ∈ v.type, s.types.IsValue type := by
  obtain ⟨fs, hscope, -⟩ := h.scope
  have hentry := Array.getElem?_eq_getElem hid
  have hvar : s.scope.var id = .ok s.scope.vars[id].var := by
    rw [Scope.var, Scope.entry, hentry]
    rfl
  have howner := Scope.owner_of_mem hentry
  refine ⟨_, _, hvar, ?_, howner, ?_, h.firm.vars hentry⟩
  · rw [hscope, Scope.var_renumber, hvar]
    rfl
  · rw [hscope, Scope.owner_renumber, howner]
    rfl

theorem valueOf_inStep (hid : id < s.scope.vars.size) (span : Span) :
    InStep r names s (SameValue r) (valueOf id span s) (valueOf id span s') := by
  obtain ⟨v, -, hv, hv', -, -, htypes⟩ := var_twins h hid
  rw [valueOf, askScope_bind hv, askScope_bind hv']
  simp only [Var.rename]
  cases htype : v.type with
  | none => exact failAt_inStep _ _
  | some type =>
    simp only [Option.map_some, types_eq_void]
    split
    · exact h.pure (sameValue_void h span)
    · cases v.leaves with
      | none => exact h.pure ⟨rfl, htypes type htype, .nil⟩
      | some leaves =>
        refine h.pure ⟨?_, htypes type htype, .vars leaves⟩
        simp only [Value.tuple, Value.rename, Shape.rename, map_map]
        rfl

theorem scalarOf_inStep {t : Session} (hv : SameValue r t v v') :
    InStep r names s (fun _ => SameOperand r) (scalarOf v s) (scalarOf v' s') := by
  obtain ⟨rfl, -, hunits⟩ := hv
  simp only [scalarOf, Value.rename]
  rw [Value.leaves] at hunits
  cases hshape : v.shape with
  | scalar operand =>
    rw [hshape] at hunits
    exact h.pure ⟨rfl, (forall_mem_append.1 hunits).1⟩
  | void => exact failAt_inStep _ _
  | tuple leaves => exact failAt_inStep _ _

/-! ## Types -/

/-- Nodes have the same kind under both numberings. -/
theorem kind_twins {id : TypeId} {kind : TypeKind} (hk : s.types.kind id = .ok kind) :
    s'.types.kind (r.types id) = .ok (kind.rename r.types) :=
  h.types.kind (Nat.zero_le _) hk

/-- The message is the same in both sessions. -/
theorem text_inStep {α : Type} {V : Session → α → α → Prop} {id : TypeId} (hid : id < s.types.size)
    (error : String → LoweringError) :
    InStep r names s V ((askTypes (·.text id) >>= fun text => fail (error text) : Lower α) s)
      ((askTypes (·.text (r.types id)) >>= fun text => fail (error text) : Lower α) s') := by
  obtain ⟨text, htext, htext'⟩ := h.types.text h.regular.toSound hid
  rw [askTypes_bind htext, askTypes_bind htext']
  exact rfl

/-- Both runs match, or both fail with the same texts. -/
theorem requireMatch_inStep {expected : Option TypeId} {found : TypeId}
    (he : ∀ type ∈ expected, s.types.IsValue type) (hf : s.types.IsValue found) (sp sp' : Span) :
    InStep r names s (fun _ _ _ => True) (requireMatch expected found sp sp' s)
      (requireMatch (expected.map r.types) (r.types found) sp sp' s') := by
  cases expected with
  | none => exact h.pure trivial
  | some e =>
    have hrun := h.types.matchTypes h.regular.toSound (he e rfl).lt_size hf.lt_size sp sp' none
    rcases hrun.cases with ⟨_, b, _, b', hm, hm', -, -⟩ | ⟨e, b, b', hm, hm'⟩
    · simp only [requireMatch, Option.map_some, hm, show s'.types.matchTypes _ _ _ _ none = _ from hm']
      exact h.pure trivial
    · simp only [requireMatch, Option.map_some, hm, show s'.types.matchTypes _ _ _ _ none = _ from hm']
      exact rfl

theorem expectType_inStep {expected : TypeId} (he : s.types.IsValue expected) (hv : SameValue r s v v')
    (span : Span) :
    InStep r names s (fun _ _ _ => True) (expectType expected v span s)
      (expectType (r.types expected) v' span s') := by
  obtain ⟨rfl, hv, -⟩ := hv
  refine requireMatch_inStep h (fun type ht => ?_) hv span v.span
  cases ht
  exact he

theorem bindArgument_inStep {param : TypeId} {b : Bindings} (hparam : s.types.IsValue param)
    (hv : SameValue r s v v') (hb : BindsValues s.types b) (span : Span) :
    InStep r names s (fun t b b' => b' = b.rename r.types ∧ BindsValues t.types b)
      (bindArgument param v span b s) (bindArgument (r.types param) v' span (b.rename r.types) s') := by
  obtain ⟨rfl, hv, -⟩ := hv
  have hrun := h.types.matchTypes h.regular.toSound hparam.lt_size hv.lt_size span v.span (some b)
  rcases hrun.cases with ⟨_, after, _, after', hm, hm', hafter, -⟩ | ⟨e, after, after', hm, hm'⟩
  · simp only [bindArgument, hm, show s'.types.matchTypes _ (v.rename r.types).type _
      (v.rename r.types).span (some (b.rename r.types)) = _ from hm']
    refine h.pure ⟨?_, hb.matched h.regular hparam.lt_size hv.lt_size hm⟩
    rw [hafter]
    cases after <;> rfl
  · simp only [bindArgument, hm, show s'.types.matchTypes _ (v.rename r.types).type _
      (v.rename r.types).span (some (b.rename r.types)) = _ from hm']
    exact rfl

theorem instantiate_inStep {b : Bindings} (htype : s.types.IsValue type) (hb : BindsValues s.types b)
    (span : Span) :
    InStep r names s (SameType r) (instantiate type b span s)
      (instantiate (r.types type) (b.rename r.types) span s') := by
  rcases (h.types.instantiate h.regular htype b span).cases with
    ⟨c, g, c', g', hi, hi', hembeds, rfl⟩ | ⟨e, g, g', hi, hi'⟩
  · obtain ⟨hgrown, -⟩ := TypeGraph.instantiate_spec h.regular hb htype hi
    simp only [instantiate, hi, hi']
    exact ⟨h.withTypes hgrown.regular hgrown.ext hembeds, rfl, hgrown.values c mem_cons_self⟩
  · simp only [instantiate, hi, hi']
    exact rfl

/-! ## Patterns -/

/-- Names are bound to the same variables. -/
theorem bindName_inStep (name : String) (span : Span) (mode : BindMode) :
    InStep r names s (fun t a a' => a' = a ∧ a.1 < t.scope.vars.size) (bindName name span mode s)
      (bindName name span mode s') := by
  obtain ⟨fs, hfs, -⟩ := h.scope
  have hbind := s.scope.bind_renumber r fs name span mode
  rw [← hfs] at hbind
  rw [bindName, bindName, hbind]
  cases hb : s.scope.bind name span mode with
  | error e => exact rfl
  | ok bound =>
    obtain ⟨id, mode', scope⟩ := bound
    obtain ⟨hfirm, hsize, hfunctions, hid⟩ := h.firm.bind hb
    refine ⟨h.withScope hfirm hsize hfunctions fun fs' hfs' => ?_, rfl, hid⟩
    rw [hfs'] at hbind
    have hfunctions' : (scope.renumber r fs).functions = (scope.renumber r fs').functions := by
      have heq := congrArg Scope.functions (hfs.symm.trans hfs')
      exact heq
    obtain rfl : fs = fs' := hfunctions'
    rfl

end

mutual

theorem bindPattern_inStep {s s' : Session} (h : s.Twins r names s') (mode : BindMode) (target : Expr) :
    InStep r names s (fun t a a' => SamePattern t a.1 a'.1 ∧ a'.2 = a.2) (bindPattern mode target s)
      (bindPattern mode target s') := by
  cases target with
  | var span name =>
    rw [bindPattern]
    refine (bindName_inStep h name span mode).bind fun a a' t t' _ ht ha => ?_
    obtain ⟨rfl, hid⟩ := ha
    refine ht.pure ⟨⟨rfl, fun id hmem => ?_⟩, rfl⟩
    rw [mem_vars_var hmem]
    exact hid
  | tuple span items =>
    rw [bindPattern]
    refine (bindPatterns_inStep h mode items).bind fun a a' t t' _ ht ha => ?_
    obtain ⟨rfl, hids⟩ := ha
    exact ht.pure ⟨⟨rfl, hids⟩, rfl⟩
  | _ => exact failAt_inStep _ _

theorem bindPatterns_inStep {s s' : Session} (h : s.Twins r names s') (mode : BindMode)
    (targets : List Expr) :
    InStep r names s (fun t a a' => a' = a ∧ ∀ id ∈ Pattern.varsAll a.1, id < t.scope.vars.size)
      (bindPatterns mode targets s) (bindPatterns mode targets s') := by
  cases targets with
  | nil => exact h.pure ⟨rfl, forall_mem_nil _⟩
  | cons target targets =>
    rw [bindPatterns]
    refine (bindPattern_inStep h mode target).bind fun a a' t t' _ ht ha => ?_
    obtain ⟨item, mode₁⟩ := a
    obtain ⟨item', mode₁'⟩ := a'
    obtain ⟨⟨rfl, hitem⟩, rfl⟩ := ha
    refine (bindPatterns_inStep ht mode₁' targets).bind fun b b' u u' hgrows hu hb => ?_
    obtain ⟨rfl, hitems⟩ := hb
    refine hu.pure ⟨rfl, fun id hid => ?_⟩
    rcases mem_append.1 hid with hid | hid
    · exact Nat.lt_of_lt_of_le (hitem id hid) hgrows.vars
    · exact hitems id hid

end

section

variable (h : s.Twins r names s')

include h

theorem newLeaves_inStep (span : Span) (owner : ContextId) {types : List TypeId}
    (htypes : ∀ type ∈ types, s.types.IsValue type) :
    InStep r names s Equal (newLeaves span owner types s)
      (newLeaves span (r.contexts owner) (types.map r.types) s') := by
  induction types generalizing s s' with
  | nil => exact h.pure rfl
  | cons type types ih =>
    obtain ⟨htype, htypes⟩ := forall_mem_cons.1 htypes
    refine (newTemp_inStep h span (some owner)).bind fun id id' t t' hgrows ht hid => ?_
    obtain ⟨rfl, -⟩ := hid
    refine (setType_inStep ht id' (htype.extend hgrows.types)).bind fun _ _ u u' hgrows' hu _ => ?_
    refine (ih hu fun type hmem =>
      (htypes type hmem).extend (hgrows.trans hgrows').types).bind fun ids ids' w w' _ hw hids => ?_
    obtain rfl : ids' = ids := hids
    exact hw.pure rfl

/-- The leaves of a value are values. -/
theorem leaves_twins (htype : s.types.IsValue type) :
    ∃ leaves, s.types.leaves type = .ok leaves ∧
      s'.types.leaves (r.types type) = .ok (leaves.map r.types) ∧ ∀ l ∈ leaves, s.types.IsValue l :=
  ⟨_, TypeGraph.leaves_eq h.regular.toSound htype.lt_size,
    h.types.leaves h.regular.toSound htype.lt_size,
    fun _ hl => TypeGraph.isValue_of_mem_leafTypes h.regular htype hl⟩

theorem receivers_inStep (hid : id < s.scope.vars.size) (v : Var) (htype : s.types.IsValue type) :
    InStep r names s Equal (receivers id v type s)
      (receivers id (v.rename r.types) (r.types type) s') := by
  obtain ⟨kind, hk⟩ := TypeGraph.exists_kind htype.lt_size
  obtain ⟨-, owner, -, -, howner, howner', -⟩ := var_twins h hid
  obtain ⟨leaves, hleaves, hleaves', hvalues⟩ := leaves_twins h htype
  rw [receivers, receivers, askTypes_bind hk, askTypes_bind (kind_twins h hk), TypeKind.items?_rename]
  cases kind.items? with
  | none => exact h.pure rfl
  | some items =>
    simp only [Option.map_some, Var.rename]
    cases v.leaves with
    | some ids => exact h.pure rfl
    | none =>
      simp only
      rw [askScope_bind howner, askScope_bind howner', askTypes_bind hleaves, askTypes_bind hleaves']
      refine (newLeaves_inStep h v.span owner hvalues).bind fun ids ids' t t' _ ht hids => ?_
      obtain rfl : ids' = ids := hids
      refine (setLeaves_inStep ht id ids').bind fun _ _ u u' _ hu _ => ?_
      exact hu.pure rfl

/-- Both runs spread a variable over the same leaves. -/
theorem expandVar_inStep (hid : id < s.scope.vars.size) (htype : s.types.IsValue type) (span : Span) :
    InStep r names s Equal (expandVar id type span s) (expandVar id (r.types type) span s') := by
  obtain ⟨v, -, hv, hv', -, -, hvtype⟩ := var_twins h hid
  rw [expandVar_eq, expandVar_eq, askScope_bind hv, askScope_bind hv']
  refine (requireMatch_inStep h hvtype htype v.span span).bind fun _ _ t t' hgrows ht _ => ?_
  have hid₁ := Nat.lt_of_lt_of_le hid hgrows.vars
  have htype₁ := htype.extend hgrows.types
  rw [show (v.rename r.types).type.isNone = v.type.isNone from Option.isNone_map]
  split
  · refine (setType_inStep ht id htype₁).bind fun _ _ u u' hgrows' hu _ => ?_
    exact receivers_inStep hu (Nat.lt_of_lt_of_le hid₁ hgrows'.vars) v (htype₁.extend hgrows'.types)
  · exact receivers_inStep ht hid₁ v htype₁

end

mutual

theorem expand_inStep {s s' : Session} (h : s.Twins r names s') (span : Span) (pattern : Pattern)
    (hids : ∀ id ∈ pattern.vars, id < s.scope.vars.size) {type : TypeId}
    (htype : s.types.IsValue type) :
    InStep r names s Equal (expand span pattern type s) (expand span pattern (r.types type) s') := by
  cases pattern with
  | var id varSpan => exact expandVar_inStep h (hids id mem_cons_self) htype span
  | tuple items tupleSpan =>
    obtain ⟨kind, hk⟩ := TypeGraph.exists_kind htype.lt_size
    rw [expand, expand, askTypes_bind hk, askTypes_bind (kind_twins h hk), TypeKind.items?_rename]
    cases hitems : kind.items? with
    | none => exact text_inStep h htype.lt_size _
    | some types =>
      simp only [Option.map_some, length_map]
      split
      · refine expandEach_inStep h span items hids fun part hpart => ?_
        exact h.regular.parts type part ⟨kind, hk, TypeKind.parts_of_items hitems ▸ hpart⟩
      · exact text_inStep h htype.lt_size _

theorem expandEach_inStep {s s' : Session} (h : s.Twins r names s') (span : Span)
    (items : List Pattern) (hids : ∀ id ∈ Pattern.varsAll items, id < s.scope.vars.size)
    {types : List TypeId} (htypes : ∀ type ∈ types, s.types.IsValue type) :
    InStep r names s Equal (expandEach span items types s)
      (expandEach span items (types.map r.types) s') := by
  cases items with
  | nil => exact h.pure rfl
  | cons item items =>
    cases types with
    | nil => exact h.pure rfl
    | cons type types =>
      obtain ⟨htype, htypes⟩ := forall_mem_cons.1 htypes
      obtain ⟨hitem, hitems⟩ := forall_mem_append.1 hids
      rw [map_cons, expandEach, expandEach]
      refine (expand_inStep h span item hitem htype).bind fun a a' t t' hgrows ht ha => ?_
      obtain rfl : a' = a := ha
      refine (expandEach_inStep ht span items
        (fun id hid => Nat.lt_of_lt_of_le (hitems id hid) hgrows.vars)
        fun type hmem => (htypes type hmem).extend hgrows.types).bind fun b b' u u' _ hu hb => ?_
      obtain rfl : b' = b := hb
      exact hu.pure rfl

end

theorem assignments_rename (span : Span) (slots : List VarId) (operands : List Operand) :
    assignments span slots (operands.map (Operand.rename r.types)) =
      Command.renameAll r.types r.loops (assignments span slots operands) := by
  induction slots generalizing operands with
  | nil => rfl
  | cons slot slots ih =>
    cases operands with
    | nil => rfl
    | cons operand operands => exact congrArg (List.cons _) (ih operands)

theorem types_assignments (span : Span) (slots : List VarId) (operands : List Operand) :
    Command.typesAll (assignments span slots operands) ⊆ Operand.typesAll operands := by
  induction slots generalizing operands with
  | nil => exact nil_subset _
  | cons slot slots ih =>
    cases operands with
    | nil => exact nil_subset _
    | cons operand operands =>
      exact append_subset.2 ⟨subset_append_left _ _, subset_append_of_subset_right _ (ih operands)⟩

theorem storeInto_inStep (h : s.Twins r names s') {pattern : Pattern}
    (hids : ∀ id ∈ pattern.vars, id < s.scope.vars.size) (hv : SameValue r s v v') (span : Span) :
    InStep r names s (fun _ => SameCode r) (storeInto pattern v span s) (storeInto pattern v' span s') := by
  rw [storeInto, storeInto, hv.isVoid, hv.span]
  split
  · exact failAt_inStep _ _
  · have htype : v'.type = r.types v.type := by rw [hv.eq, Value.rename]
    have hexpand := expand_inStep h v.span pattern hids hv.value
    rw [← htype] at hexpand
    refine hexpand.bind fun slots slots' t t' _ ht hslots => ?_
    obtain rfl : slots' = slots := hslots
    refine ht.pure ⟨?_, fun type htype => hv.units type (types_assignments _ _ _ htype)⟩
    rw [hv.operands.eq, assignments_rename]

end Lower

end SlotCode
