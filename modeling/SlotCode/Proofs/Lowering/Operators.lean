import SlotCode.Proofs.Lowering.Results

/-!
# Tuples, operators and boxes

Steps that make a value out of values: their code is typed, and the value they give can be handed on.
All of them store into new temporaries only.
-/

namespace SlotCode

variable {g : TypeGraph} {type payload : TypeId} {v w : Value} {kind : TypeKind} {o : Outline}
  {span : Span} {cs : List Comparison} {code : Code}

open Outline List TypeGraph

/-! ## A value in a new temporary -/

/-- The type has one leaf and is not `void`. -/
structure TypeGraph.IsScalar (g : TypeGraph) (type : TypeId) : Prop where
  value : g.IsValue type
  nonvoid : type ≠ .void
  single : ∀ items, g.kind type ≠ .ok (.tuple items)

/-- A box is one word, whatever is in it. -/
theorem TypeGraph.isScalar_of_payload (hg : g.Regular) (hk : g.kind type = .ok kind)
    (hp : kind.payload? = some payload) : g.IsScalar type := by
  refine ⟨⟨kind, hk, ?_⟩, ?_, fun items hk' => ?_⟩
  · cases kind <;> cases hp <;> rfl
  · rintro rfl
    cases kind_unique hk hg.void
    cases hp
  · cases kind_unique hk hk'
    cases hp

theorem TypeGraph.isScalar_integer (hg : g.Regular) : g.IsScalar .integer :=
  ⟨⟨_, hg.integer, rfl⟩, by decide, fun _ hk => nomatch kind_unique hk hg.integer⟩

theorem TypeGraph.isScalar_boolean (hg : g.Regular) : g.IsScalar .boolean :=
  ⟨⟨_, hg.boolean, rfl⟩, by decide, fun _ hk => nomatch kind_unique hk hg.boolean⟩

theorem TypeGraph.isScalar_string (hg : g.Regular) : g.IsScalar .string :=
  ⟨⟨_, hg.string, rfl⟩, by decide, fun _ hk => nomatch kind_unique hk hg.string⟩

theorem TypeGraph.isScalar_opType (hg : g.Regular) (op : ArithOp) : g.IsScalar op.type := by
  cases op
  case concat => exact isScalar_string hg
  case and | or => exact isScalar_boolean hg
  case add | sub | mul | div => exact isScalar_integer hg

theorem TypeGraph.IsScalar.leafTypes (h : g.IsScalar type) : g.leafTypes type = [type] := by
  obtain ⟨kind, hk, -⟩ := h.value
  rcases kind.tuple_or_not with ⟨items, rfl⟩ | hi
  · exact absurd hk (h.single items)
  · exact leafTypes_of_not_tuple hk hi

namespace Outline

variable {o : Outline}

theorem Steps.retype (hg : o.Good) {ids : List TypeId} (h : Grown o.types g ids) :
    o.Steps { o with types := g } :=
  ⟨.retype h.ext, rfl, hg.retype h.regular h.ext⟩

/-- Temporaries of a scalar type may be added. -/
theorem Steps.temps (hg : o.Good) (h : o.types.IsScalar type) (count : Nat) :
    o.Steps (o.push (List.replicate count (.temp type))) := by
  refine ⟨.push o _, rfl, hg.push (fun i hi => ?_) fun i hi t ht => ?_⟩
  · rw [eq_of_mem_replicate hi]
    rfl
  · rw [eq_of_mem_replicate hi] at ht
    cases ht
    exact ⟨h.value, h.single⟩

theorem typeOf_temps {count k : Nat} (hk : k < count) :
    (o.push (List.replicate count (.temp type))).typeOf (o.vars.length + k) = some type := by
  simp [typeOf, info_push_new, hk, VarInfo.temp]

theorem plain_temps (hg : o.Good) (h : o.types.IsScalar type) {count k : Nat} (hk : k < count) :
    (o.push (List.replicate count (.temp type))).Plain (o.vars.length + k) := by
  refine (readable_pushed hg (fun i hi => ?_) (Steps.refl (Steps.temps hg h count).good).keeps
    (Nat.le_add_right _ _) (by simp [push, hk])).plain
  rw [eq_of_mem_replicate hi]
  rfl

/-- The value that a new temporary holds. -/
theorem ok_temp (hg : o.Good) (h : o.types.IsScalar type) (span : Span) :
    (Value.scalar type span (.var o.vars.length)).Ok (o.push [.temp type]) := by
  have ht : (o.push [.temp type]).typeOf o.vars.length = some type := typeOf_temps (k := 0) Nat.one_pos
  refine Value.ok_scalar (o := o.push [.temp type]) h.value h.nonvoid h.single (.var ht)
    (fun x hx => ?_) span
  rw [mem_singleton.1 hx]
  exact plain_temps (k := 0) hg h Nat.one_pos

end Outline

/-- One command that writes new variables only. -/
theorem Emits.singleton {free : Bool} {o' : Outline} {c : Command} (hc : c.WellTyped o'.typing)
    (hflat : c.nested = [c]) (hnew : ∀ x ∈ c.writes, o.vars.length ≤ x) : Emits free o o' [c] := by
  have hnested : Command.nestedAll [c] = [c] := by
    rw [Command.nestedAll, Command.nestedAll, append_nil, hflat]
  refine ⟨fun c' hc' => ?_, fun _ x hx => .inl (hnew x ?_)⟩
  · rw [hnested, mem_singleton] at hc'
    exact hc' ▸ hc
  · simpa [Code.writes, hnested] using hx

/-- A command with one output, which is new. -/
theorem new_of_mem_singleton {x : VarId} (hx : x ∈ [o.vars.length]) : o.vars.length ≤ x :=
  Nat.le_of_eq (mem_singleton.1 hx).symm

namespace Lower

variable {s s' : Session}

theorem newTyped_steps {x : VarId} (hg : s.outline.Good) (htype : s.types.IsScalar type)
    (h : newTyped type span s = .ok x s') : s.outline.Steps s'.outline := by
  rw [(newTyped_ok h).2]
  exact .temps hg htype 1

/-! ## Tuples and operators -/

/-- The leaves of a tuple are those of its items. -/
theorem tupleOf_value {values : List Value} (hg : s.outline.Good)
    (hvalues : ∀ w ∈ values, w.Ok s.outline) (h : tupleOf values span s = .ok v s') :
    s.outline.Steps s'.outline ∧ v.Ok s'.outline := by
  obtain ⟨hvoid, rfl, rfl⟩ := tupleOf_ok h
  have hgrown : Grown s.types s.types (values.map Value.type) := by
    refine ⟨hg.types, .refl _, fun id hid => ?_⟩
    obtain ⟨w, hw, rfl⟩ := mem_map.1 hid
    exact (hvalues w hw).value
  have hadd : Grown s.types (s.types.add (.tuple (values.map Value.type)) (some span)).2 [_] :=
    hgrown.add (some span) rfl rfl rfl
  have hsteps := Steps.retype hg hadd
  refine ⟨hsteps, Value.ok_tuple hsteps.good (fun w hw => (hvalues w hw).mono hg hsteps.keeps) hvoid
    ?_ span⟩
  exact (kind_add _ _ _ _).trans (if_pos rfl)

/-- Operands of an operator: they have its type and read no leaves. -/
structure Operands (o : Outline) (type : TypeId) (operands : List Operand) : Prop where
  typed : ∀ operand ∈ operands, operand.HasType o.typing type
  plain : ∀ x ∈ Operand.readsAll operands, o.Plain x

theorem Operands.nil : Operands o type [] :=
  ⟨nofun, nofun⟩

theorem Operands.cons {operand : Operand} {operands : List Operand}
    (htyped : operand.HasType o.typing type) (hplain : ∀ x ∈ operand.reads, o.Plain x)
    (h : Operands o type operands) : Operands o type (operand :: operands) := by
  refine ⟨?_, fun x hx => ?_⟩
  · simpa using ⟨htyped, h.typed⟩
  · rcases mem_append.1 (show x ∈ operand.reads ++ Operand.readsAll operands from hx) with hx | hx
    · exact hplain x hx
    · exact h.plain x hx

/-- A value with one operand has an operand of its type. -/
theorem operand_typed (hv : v.Ok o) {operand : Operand} (hs : v.shape = .scalar operand) :
    operand.HasType o.typing v.type := by
  have hvoid : v.shape ≠ .void := by
    rw [hs]
    nofun
  obtain ⟨kind, hk, -⟩ := hv.value
  have hleaf : o.types.leafTypes v.type = [v.type] := by
    rcases kind.tuple_or_not with ⟨items, rfl⟩ | hi
    · exact absurd hk (hv.not_tuple hs)
    · exact leafTypes_of_not_tuple hk hi
  have htyped := hv.typed hvoid
  rw [Value.leaves, hs, hleaf] at htyped
  cases htyped with
  | cons h => exact h

/-- A value of a type without parts that was asked for has exactly that type. -/
theorem eq_of_expectType {u : Unit} (hg : s.outline.Good) (hv : v.Ok s.outline)
    (hk : s.types.kind type = .ok kind) (hb : kind.isBase = true)
    (h : expectType type v span s = .ok u s') : s' = s ∧ v.type = type := by
  obtain ⟨rfl, after, hmatch⟩ := expectType_ok h
  refine ⟨rfl, (alike_of_matchTypes hg.types.toSound (lt_size_of_kind hk)
    hv.value.lt_size hmatch).eq_of_base hk hb⟩

theorem kind_opType (hg : g.Regular) (op : ArithOp) :
    ∃ kind, g.kind op.type = .ok kind ∧ kind.isBase = true := by
  cases op
  case concat => exact ⟨_, hg.string, rfl⟩
  case and | or => exact ⟨_, hg.boolean, rfl⟩
  case add | sub | mul | div => exact ⟨_, hg.integer, rfl⟩

theorem arith_value (hg : o.Good) (op : ArithOp) {operands : List Operand}
    (h : Operands o op.type operands) (span : Span) :
    (Value.scalar op.type span (.arith op op.type operands)).Ok o := by
  have hscalar := isScalar_opType hg.types op
  exact Value.ok_scalar hscalar.value hscalar.nonvoid hscalar.single (.arith op h.typed) h.plain span

/-! ## Comparisons -/

/-- The variable holds an integer, and no leaf. -/
structure HoldsInteger (o : Outline) (id : VarId) : Prop where
  type : o.typeOf id = some .integer
  plain : o.Plain id

theorem HoldsInteger.mono {o' : Outline} {id : VarId} (hg : o.Good) (hk : o.Keeps o')
    (h : HoldsInteger o id) : HoldsInteger o' id :=
  ⟨hk.grows.typeOf h.type, h.plain.mono hg hk (lt_of_typeOf h.type)⟩

/-- What is held is an integer. -/
theorem holdInteger_holds {id : VarId} (hg : s.outline.Good) (hv : v.Ok s.outline)
    (htype : v.type = .integer) (h : holdInteger v span s = .ok (code, id) s') :
    s.outline.Steps s'.outline ∧ Emits true s.outline s'.outline code ∧
      HoldsInteger s'.outline id := by
  rcases holdInteger_ok h with ⟨hs, rfl, rfl⟩ | ⟨operand, hs, rfl, rfl, hs'⟩
  · refine ⟨.refl hg, .nil, ?_, hv.plain hg hs mem_cons_self⟩
    cases operand_typed hv hs with
    | var h => rw [← htype]; exact h
  · have hscalar := isScalar_integer hg.types
    have hsteps : s.outline.Steps s'.outline := by
      rw [hs']
      exact .temps hg hscalar 1
    have hid : s'.outline.typeOf s.outline.vars.length = some .integer := by
      rw [hs']
      exact typeOf_temps (k := 0) Nat.one_pos
    refine ⟨hsteps, .singleton ?_ rfl fun x => new_of_mem_singleton, hid, ?_⟩
    · have htyped := operand_typed (hv.mono hg hsteps.keeps) hs
      rw [htype] at htyped
      exact .assign hid htyped (.refl _ _ _)
    · rw [hs']
      exact plain_temps (k := 0) hg hscalar Nat.one_pos

/-- Comparisons write booleans and read integers. -/
theorem comparisonCode_ok {n : VarId}
    (hcs : ∀ c ∈ cs, HoldsInteger o c.left ∧ HoldsInteger o c.right)
    (hdest : ∀ k, k < cs.length → o.typeOf (n + k) = some .boolean) :
    Code.Ok o (comparisonCode cs n) := by
  induction cs generalizing n with
  | nil => exact .nil
  | cons c cs ih =>
    obtain ⟨hl, hr⟩ := hcs c mem_cons_self
    have hrest := ih (n := n + 1) (fun c hc => hcs c (mem_cons_of_mem _ hc)) fun k hk => ?_
    · intro c' hc'
      rcases mem_cons.1 hc' with rfl | hc'
      · exact .assign (hdest 0 (Nat.succ_pos _)) (.compare c.op hl.type hr.type) (.refl _ _ _)
      · exact hrest c' hc'
    · rw [Nat.add_right_comm, Nat.add_assoc]
      exact hdest (k + 1) (Nat.succ_lt_succ hk)

theorem writes_comparisonCode {n x : VarId} (hx : x ∈ (comparisonCode cs n).writes) : n ≤ x := by
  induction cs generalizing n with
  | nil => cases hx
  | cons c cs ih =>
    rcases mem_cons.1 hx with rfl | hx
    · exact Nat.le_refl _
    · exact (Nat.le_succ n).trans (ih hx)

theorem runComparisons_tests {tests : List Operand} (hg : s.outline.Good)
    (hcs : ∀ c ∈ cs, HoldsInteger s.outline c.left ∧ HoldsInteger s.outline c.right)
    (h : runComparisons cs s = .ok (code, tests) s') :
    s.outline.Steps s'.outline ∧ Emits true s.outline s'.outline code ∧
      Operands s'.outline .boolean tests := by
  obtain ⟨hs', rfl, rfl⟩ := runComparisons_ok h
  have hscalar := isScalar_boolean hg.types
  have hsteps : s.outline.Steps s'.outline := by
    rw [hs']
    exact .temps hg hscalar _
  have hdest : ∀ k, k < cs.length →
      s'.outline.typeOf (s.outline.vars.length + k) = some .boolean := by
    rw [hs']
    exact fun k hk => typeOf_temps hk
  refine ⟨hsteps, ⟨?_, fun _ x hx => .inl (writes_comparisonCode hx)⟩, fun operand hmem => ?_,
    fun x hx => ?_⟩
  · exact comparisonCode_ok (fun c hc => (hcs c hc).imp (.mono hg hsteps.keeps) (.mono hg hsteps.keeps))
      hdest
  · obtain ⟨id, hid, rfl⟩ := mem_map.1 hmem
    obtain ⟨k, hk, rfl⟩ := mem_range'.1 hid
    rw [Nat.one_mul]
    exact .var (hdest k hk)
  · obtain ⟨operand, hmem, hx⟩ := Operand.mem_readsAll.1 hx
    obtain ⟨id, hid, rfl⟩ := mem_map.1 hmem
    obtain ⟨k, hk, rfl⟩ := mem_range'.1 hid
    rw [mem_singleton.1 hx, Nat.one_mul, hs']
    exact plain_temps hg hscalar hk

/-! ## Boxes -/

theorem spreads_leafTypes (hg : o.Good) (h : o.types.IsValue type) :
    o.typing.Spreads type (o.types.leafTypes type) :=
  ⟨_, leaves_eq hg.types.toSound h.lt_size, forall₂_same.2 fun _ _ => .refl _ _ _⟩

section

variable (hg : s.outline.Good)

include hg

/-- The outline after a temporary for a box or list, whose type may be new, has been made. -/
theorem box_temp (hgrown : Grown s.types g [type]) (hk : g.kind type = .ok kind)
    (hp : kind.payload? = some payload) (span : Span) :
    s.outline.Steps (withTemp s g type) ∧
      (Value.scalar type span (.var s.outline.vars.length)).Ok (withTemp s g type) ∧
      (withTemp s g type).typeOf s.outline.vars.length = some type ∧
      (withTemp s g type).typing.Boxes type payload := by
  have hsteps := Steps.retype hg hgrown
  have hscalar := isScalar_of_payload hgrown.regular hk hp
  refine ⟨hsteps.trans (.temps hsteps.good hscalar 1), ok_temp hsteps.good hscalar span, ?_,
    kind, hk, hp⟩
  exact typeOf_temps (o := ({ s.outline with types := g } : Outline)) (k := 0) Nat.one_pos

theorem wrapValue_value {payloadSpan : Span} (hv : v.Ok s.outline)
    (h : wrapValue v payloadSpan span s = .ok (code, w) s') :
    s.outline.Steps s'.outline ∧ Emits true s.outline s'.outline code ∧ w.Ok s'.outline := by
  obtain ⟨hvoid, hs', rfl, rfl⟩ := wrapValue_ok h
  have hpayload : Grown s.types s.types [v.type] :=
    ⟨hg.types, .refl _, fun id hid => mem_singleton.1 hid ▸ hv.value⟩
  have hadd : Grown s.types (s.types.add (.box v.type) (some span)).2 [s.types.size] :=
    hpayload.add (some span) rfl rfl rfl
  have hk : (s.types.add (.box v.type) (some span)).2.kind s.types.size = .ok (.box v.type) :=
    (kind_add _ _ _ _).trans (if_pos rfl)
  obtain ⟨hsteps, hw, hdest, hboxes⟩ := box_temp hg hadd hk rfl span
  rw [← hs'] at hsteps hw hdest hboxes
  have hv' := hv.mono hg hsteps.keeps
  refine ⟨hsteps, .singleton ?_ rfl fun x => new_of_mem_singleton, hw⟩
  exact .wrap (hv'.typed hvoid) hdest hboxes (spreads_leafTypes hsteps.good hv'.value)

theorem consValue_value {head tail : Value} (hhead : head.Ok s.outline) (htail : tail.Ok s.outline)
    (h : consValue head tail span s = .ok (code, w) s') :
    s.outline.Steps s'.outline ∧ Emits true s.outline s'.outline code ∧ w.Ok s'.outline := by
  obtain ⟨item, payload, operand, after, hk, hvoid, hmatch, hshape, hs', rfl, rfl⟩ := consValue_ok h
  obtain ⟨first, hpair, hfirst⟩ := hg.types.lists _ _ _ hk
  have hgrown : Grown s.types s.types [tail.type] :=
    ⟨hg.types, .refl _, fun id hid => mem_singleton.1 hid ▸ htail.value⟩
  obtain ⟨hsteps, hw, hdest, hboxes⟩ := box_temp hg hgrown hk rfl span
  have heq : withTemp s s.types tail.type = s'.outline := hs'.symm
  rw [heq] at hsteps hw hdest hboxes
  have hhead' := hhead.mono hg hsteps.keeps
  have htail' := htail.mono hg hsteps.keeps
  have hsound := hsteps.good.types.toSound
  have hscalar := isScalar_of_payload hsteps.good.types (hsteps.grows.types _ _ hk) rfl
  have halike : s'.outline.types.Alike false first head.type := by
    have hitem : item < s.types.size := hg.types.toSound.closed _ _ ⟨_, hk, mem_cons_self⟩
    have := alike_of_matchTypes hg.types.toSound hitem hhead.value.lt_size hmatch
    exact (hfirst.symm.trans this).extend hsteps.grows.types
  have hleaves : s'.outline.types.leafTypes payload =
      s'.outline.types.leafTypes first ++ s'.outline.types.leafTypes tail.type := by
    rw [leafTypes_tuple hsound (hsteps.grows.types _ _ hpair)]
    simp
  have hpayload : payload < s'.outline.types.size := lt_size_of_kind (hsteps.grows.types _ _ hpair)
  refine ⟨hsteps, .singleton ?_ rfl fun x => new_of_mem_singleton, hw⟩
  have hins := rel_append (hhead'.typed hvoid)
    (Forall₂.cons (operand_typed htail' hshape) .nil)
  refine .wrap hins hdest hboxes ⟨_, leaves_eq hsound hpayload, ?_⟩
  rw [hleaves, hscalar.leafTypes]
  exact rel_append (halike.leafTypes hsound) (.cons (.refl _ _ _) .nil)

theorem emptyBox_value (hgrown : Grown s.types g [type]) (hk : g.kind type = .ok kind)
    (hp : kind.payload? = some payload) (hs' : s'.outline = withTemp s g type) :
    s.outline.Steps s'.outline ∧
      Emits true s.outline s'.outline [.native span .wrapEmpty [] [s.outline.vars.length]] ∧
      (Value.scalar type span (.var s.outline.vars.length)).Ok s'.outline := by
  obtain ⟨hsteps, hw, hdest, hboxes⟩ := box_temp hg hgrown hk hp span
  rw [← hs'] at hsteps hw hdest hboxes
  exact ⟨hsteps, .singleton (.wrapEmpty hdest hboxes) rfl fun x => new_of_mem_singleton, hw⟩

theorem wrapNothing_value {payload : TypeExpr} (h : wrapNothing payload span s = .ok (code, w) s') :
    s.outline.Steps s'.outline ∧ Emits true s.outline s'.outline code ∧ w.Ok s'.outline := by
  obtain ⟨hs', rfl, rfl⟩ := wrapNothing_ok h
  exact emptyBox_value hg ((resolve_grown hg.types payload).add (some span) rfl rfl rfl)
    ((kind_add _ _ _ _).trans (if_pos rfl)) rfl hs'

theorem consNothing_value {item : TypeExpr} (h : consNothing item span s = .ok (code, w) s') :
    s.outline.Steps s'.outline ∧ Emits true s.outline s'.outline code ∧ w.Ok s'.outline := by
  obtain ⟨hs', rfl, rfl⟩ := consNothing_ok h
  exact emptyBox_value hg ((resolve_grown hg.types item).addList (some span))
    ((kind_addList _ _ _ _).trans (if_pos rfl)) rfl hs'

end

end Lower

end SlotCode
