import SlotCode.Proofs.Code.Typing
import SlotCode.Proofs.Lowering.Invariant
import SlotCode.Proofs.Types.Copying

/-!
# What values read

A value has as many operands as its type has leaves, of the types of those leaves (`Value.Ok`).  Its
operands are read after later code may have run, so it matters which variables they read:

- none that belongs to the value of an open loop, since only a `leave` writes those;
- a leaf of a virtual variable only together with all leaves of that variable.  The value is then
  what the variable holds, or a tuple around it.

Lowering an expression goes from a good outline to a good outline and leaves the open contexts as
they were (`Outline.Steps`).  What is known about values stays true as long as no further loop is
open (`Outline.Keeps`, `Value.Ok.mono`).
-/

namespace SlotCode

open List TypeGraph

variable {x id : VarId} {type : TypeId} {operand : Operand}

namespace Outline

/-- The variable is written when an open loop is left. -/
def Reserved (o : Outline) (x : VarId) : Prop :=
  ∃ label ref, (label, ref) ∈ o.loops ∧ (x = ref.var ∨ ∃ ls, o.leavesOf ref.var = some ls ∧ x ∈ ls)

/-- The outline `o'` comes after `o`, with no more open loops. -/
structure Keeps (o o' : Outline) : Prop where
  grows : o.Grows o'
  loops : o'.loops ⊆ o.loops
  good : o'.Good

/-- How lowering an expression changes an outline. -/
structure Steps (o o' : Outline) : Prop where
  grows : o.Grows o'
  frames : o'.frames = o.frames
  good : o'.Good

variable {o o' o'' : Outline}

theorem Keeps.trans (h : o.Keeps o') (h' : o'.Keeps o'') : o.Keeps o'' :=
  ⟨h.grows.trans h'.grows, Subset.trans h'.loops h.loops, h'.good⟩

theorem Steps.refl (h : o.Good) : o.Steps o :=
  ⟨.refl o, rfl, h⟩

theorem Steps.trans (h : o.Steps o') (h' : o'.Steps o'') : o.Steps o'' :=
  ⟨h.grows.trans h'.grows, h'.frames.trans h.frames, h'.good⟩

theorem Steps.loops (h : o.Steps o') : o'.loops = o.loops := by
  rw [Outline.loops, Outline.loops, h.frames]

theorem Steps.names (h : o.Steps o') : o'.names = o.names := by
  rw [Outline.names, Outline.names, h.frames]

theorem Steps.keeps (h : o.Steps o') : o.Keeps o' :=
  ⟨h.grows, by rw [h.loops]; exact Subset.refl _, h.good⟩

theorem Reserved.mono (h : o.Grows o') (hloops : o.loops ⊆ o'.loops) (hx : o.Reserved x) :
    o'.Reserved x := by
  obtain ⟨label, ref, hmem, hx⟩ := hx
  refine ⟨label, ref, hloops hmem, hx.imp_right fun ⟨ls, hls, hx⟩ => ⟨ls, h.leavesOf hls, hx⟩⟩

/-- A variable that was there becomes no part of the value of a loop. -/
theorem Reserved.of_grows (hg : o.Good) (h : o.Grows o') (hloops : o'.loops ⊆ o.loops)
    (hlt : x < o.vars.length) (hx : o'.Reserved x) : o.Reserved x := by
  obtain ⟨label, ref, hmem, hx⟩ := hx
  refine ⟨label, ref, hloops hmem, hx.imp_right fun ⟨ls, hls, hx⟩ => ⟨ls, ?_, hx⟩⟩
  obtain ⟨-, i, hi, -⟩ := hg.loops label ref (hloops hmem)
  rcases h.leaf_cases (lt_of_info hi) hls hx with hls | hge
  · exact hls
  · exact absurd hlt (Nat.not_lt_of_le hge)

/-- A variable that was there becomes no leaf. -/
theorem leavesOf_of_grows (hg' : o'.Good) (h : o.Grows o') {r : VarId} {ls : List VarId}
    (hlt : x < o.vars.length) (hls : o'.leavesOf r = some ls) (hx : x ∈ ls) :
    o.leavesOf r = some ls := by
  obtain ⟨i, hi, hil⟩ := leavesOf_eq_some_iff.1 hls
  have hok := hg'.vars r i hi
  rcases Nat.lt_or_ge r o.vars.length with hr | hr
  · exact (h.leaf_cases hr hls hx).resolve_right (Nat.not_le_of_lt hlt)
  · cases ht : i.type with
    | none => cases (hok.untyped ht).symm.trans hil
    | some t =>
      have hrx := (hok.leaves t ls ht hil).1 x hx
      exact absurd (Nat.lt_of_le_of_lt hr hrx) (Nat.not_lt_of_le (Nat.le_of_lt hlt))

/-! ## Typing -/

/-- The leaves of the parameters.  Nothing is passed for `void`. -/
def paramLeaves (g : TypeGraph) (params : List TypeId) : List TypeId :=
  (params.filter (· ≠ .void)).flatMap g.leafTypes

theorem paramLeaves_extend {g g' : TypeGraph} (hg : g.Sound) (hext : g.Extends g')
    {params : List TypeId} (hparams : ∀ p ∈ params, p < g.size) :
    paramLeaves g' params = paramLeaves g params :=
  flatMap_congr fun p hp => leafTypes_extend hg hext (hparams p (mem_of_mem_filter hp))

/-- No parameters at all are declared as one of type `void`. -/
theorem paramLeaves_declared (g : TypeGraph) (params : List TypeId) :
    paramLeaves g (if params = [] then [.void] else params) = paramLeaves g params := by
  split <;> simp_all [paramLeaves]

/-- The calls that are typed: inputs match the parameters, and the outputs are the leaves of an
instance of the result. -/
def Callable (o : Outline) (target : String) (ins outs : List TypeId) : Prop :=
  ∃ sig params result, o.functions.lookup target = some sig ∧
    o.types.kind sig.type = .ok (.function params result false) ∧
    List.Forall₂ (o.types.Alike true) (paramLeaves o.types params) ins ∧
    (result = .void ∧ outs = [] ∨ result ≠ .void ∧ ∃ bindings r,
      o.types.Instance bindings result r ∧ o.types.IsValue r ∧ outs = o.types.leafTypes r)

def typing (o : Outline) : Typing where
  types := o.types
  var := o.typeOf
  same := o.types.Alike false
  callable := o.Callable

theorem Callable.mono (hg : o.Good) (h : o.Grows o') {target : String} {ins outs : List TypeId}
    (hc : o.Callable target ins outs) : o'.Callable target ins outs := by
  obtain ⟨sig, params, result, hsig, hk, hins, houts⟩ := hc
  have hsound := hg.types.toSound
  have hparams : paramLeaves o'.types params = paramLeaves o.types params :=
    paramLeaves_extend hsound h.types fun p hp =>
      hsound.closed _ _ ⟨_, hk, mem_append_left _ hp⟩
  refine ⟨sig, params, result, by rw [h.functions]; exact hsig, h.types _ _ hk, ?_, ?_⟩
  · rw [hparams]
    exact hins.imp fun _ _ => Alike.extend h.types
  · refine houts.imp_right fun ⟨hresult, bindings, r, hr, hvalue, heq⟩ =>
      ⟨hresult, bindings, r, hr.extend h.types, hvalue.extend h.types, ?_⟩
    rw [leafTypes_extend hsound h.types hvalue.lt_size, heq]

theorem Grows.typing (hg : o.Good) (h : o.Grows o') : o.typing.Grows o'.typing :=
  ⟨h.types, fun _ _ => h.typeOf, fun _ _ => Alike.extend h.types,
    fun _ _ _ => Callable.mono hg h⟩

/-! ## Readable variables -/

/-- The variable is no leaf and takes no part in the value of an open loop. -/
def Plain (o : Outline) (x : VarId) : Prop :=
  ¬ o.Reserved x ∧ ∀ r ls, o.leavesOf r = some ls → x ∉ ls

theorem Plain.mono (hg : o.Good) (h : o.Keeps o') (hlt : x < o.vars.length) (hx : o.Plain x) :
    o'.Plain x :=
  ⟨fun hr => hx.1 (hr.of_grows hg h.grows h.loops hlt),
    fun r ls hls hmem => hx.2 r ls (leavesOf_of_grows h.good h.grows hlt hls hmem) hmem⟩

/-- The variable is no leaf and receives no value of an open loop. -/
def Readable (o : Outline) (id : VarId) : Prop :=
  (∀ r ls, o.leavesOf r = some ls → id ∉ ls) ∧ ∀ label ref, (label, ref) ∈ o.loops → ref.var ≠ id

theorem Readable.plain (h : o.Readable id) : o.Plain id := by
  refine ⟨?_, h.1⟩
  rintro ⟨label, ref, hmem, heq | ⟨ls, hls, hx⟩⟩
  · exact h.2 label ref hmem heq.symm
  · exact h.1 _ ls hls hx

theorem Readable.leaf_not_reserved (hg : o.Good) {l : VarId} (h : o.Readable id) {ls : List VarId}
    (hls : o.leavesOf id = some ls) (hl : l ∈ ls) : ¬ o.Reserved l := by
  rintro ⟨label, ref, hmem, heq | ⟨ls', hls', hl'⟩⟩
  · obtain ⟨-, -, -, -, hleaf⟩ := hg.loops label ref hmem
    exact hleaf id ls hls (heq ▸ hl)
  · exact hg.disjoint id ref.var ls ls' hls hls' (Ne.symm (h.2 label ref hmem)) hl hl'

theorem mem_names_of_lookup {name : String} (h : o.lookup name = some id) :
    (name, id) ∈ o.names := by
  obtain ⟨before, after, heq, -⟩ := lookup_eq_some_iff.1 h
  rw [heq]
  simp

/-- A variable with a name can be read. -/
theorem readable_of_name (hg : o.Good) {name : String} (h : (name, id) ∈ o.names) :
    o.Readable id := by
  obtain ⟨i, hi, hname⟩ := hg.names name id h
  constructor
  · intro r ls hls hmem
    obtain ⟨t, ht⟩ := hg.leaf_info hls hmem
    cases hi.symm.trans ht
    cases hname
  · rintro label ref hmem rfl
    obtain ⟨-, j, hj, hnone, -⟩ := hg.loops label ref hmem
    cases hi.symm.trans hj
    rw [hnone] at hname
    cases hname

/-- A new variable can be read, unless it is made a leaf. -/
theorem readable_of_new (hg : o.Good) (h : o.Keeps o') (hge : o.vars.length ≤ id)
    (hleaf : ∀ r ls, o'.leavesOf r = some ls → id ∉ ls) : o'.Readable id := by
  refine ⟨hleaf, fun label ref hmem heq => ?_⟩
  obtain ⟨-, i, hi, -⟩ := hg.loops label ref (h.loops hmem)
  exact Nat.not_lt_of_le hge (heq ▸ lt_of_info hi)

end Outline

open Outline

/-- A value that lowering may hand on in the outline. -/
structure Value.Ok (o : Outline) (v : Value) : Prop where
  value : o.types.IsValue v.type
  void : v.shape = .void ↔ v.type = .void
  tuple : (∃ operands, v.shape = .tuple operands) ↔
    ∃ items, o.types.kind v.type = .ok (.tuple items)
  typed : v.shape ≠ .void →
    List.Forall₂ (Operand.HasType o.typing) v.leaves (o.types.leafTypes v.type)
  reads : ∀ x, x ∈ Operand.readsAll v.leaves → ¬ o.Reserved x ∧
    ∀ r ls, o.leavesOf r = some ls → x ∈ ls → ∃ t, o.typeOf r = some t ∧
      (v.leaves = ls.map .var ∧ t = v.type ∨ Relation.TransGen o.types.Component v.type t)

namespace Value

variable {o o' : Outline} {v : Value}

theorem leaves_of_void (h : v.shape = .void) : v.leaves = [] := by
  simp [leaves, h]

/-- What a value reads has a type. -/
theorem Ok.lt_of_reads (h : v.Ok o) (hx : x ∈ Operand.readsAll v.leaves) : x < o.vars.length := by
  by_cases hvoid : v.shape = .void
  · rw [leaves_of_void hvoid] at hx
    cases hx
  · obtain ⟨operand, hmem, hx⟩ := Operand.mem_readsAll.1 hx
    obtain ⟨t, -, ht⟩ := exists_of_forall₂ (h.typed hvoid) hmem
    obtain ⟨t', ht'⟩ := ht.reads_typed hx
    exact lt_of_typeOf ht'

/-- A value keeps its meaning while later expressions are lowered. -/
theorem Ok.mono (hg : o.Good) (hs : o.Keeps o') (h : v.Ok o) : v.Ok o' := by
  have hleaf := leafTypes_extend hg.types.toSound hs.grows.types h.value.lt_size
  refine ⟨h.value.extend hs.grows.types, h.void, ?_, fun hvoid => ?_, fun x hx => ?_⟩
  · rw [h.tuple]
    constructor
    · rintro ⟨items, hk⟩
      exact ⟨items, hs.grows.types _ _ hk⟩
    · rintro ⟨items, hk⟩
      exact ⟨items, hs.grows.types.kind_of_lt h.value.lt_size hk⟩
  · rw [hleaf]
    exact (hs.grows.typing hg).operands (h.typed hvoid)
  · have hlt := h.lt_of_reads hx
    obtain ⟨hres, hgroup⟩ := h.reads x hx
    refine ⟨fun hr => hres ?_, fun r ls hls hmem => ?_⟩
    · exact hr.of_grows hg hs.grows hs.loops hlt
    · obtain ⟨t, ht, hcase⟩ := hgroup r ls (leavesOf_of_grows hs.good hs.grows hlt hls hmem) hmem
      refine ⟨t, hs.grows.typeOf ht, hcase.imp_right fun hc => ?_⟩
      exact hc.lift id fun _ _ => Component.extend hs.grows.types

theorem Ok.not_tuple (h : v.Ok o) (hs : v.shape = .scalar operand) {items : List TypeId} :
    o.types.kind v.type ≠ .ok (.tuple items) := by
  intro hk
  obtain ⟨operands, hshape⟩ := h.tuple.2 ⟨items, hk⟩
  rw [hs] at hshape
  cases hshape

/-- A scalar reads no leaves. -/
theorem Ok.plain (hg : o.Good) (h : v.Ok o) (hs : v.shape = .scalar operand)
    (hx : x ∈ operand.reads) : o.Plain x := by
  have hleaves : v.leaves = [operand] := by simp [leaves, hs]
  obtain ⟨hres, hgroup⟩ := h.reads x (by rw [hleaves]; simpa [Operand.readsAll] using hx)
  refine ⟨hres, fun r ls hls hmem => ?_⟩
  obtain ⟨t, ht, ⟨-, rfl⟩ | hc⟩ := hgroup r ls hls hmem
  · obtain ⟨i, hi, hit⟩ := typeOf_eq_some_iff.1 ht
    obtain ⟨j, hj, hjl⟩ := leavesOf_eq_some_iff.1 hls
    cases hi.symm.trans hj
    obtain ⟨items, hk⟩ := ((hg.vars r i hi).shaped _ hit).1 (by rw [hjl]; rfl)
    exact h.not_tuple hs hk
  · obtain ⟨_, ⟨items, hk, -⟩, -⟩ := Relation.TransGen.head'_iff.1 hc
    exact h.not_tuple hs hk

/-! ## Making values -/

theorem ok_void (hg : o.Good) (span : Span) : (Value.void span).Ok o := by
  refine ⟨⟨_, hg.types.void, rfl⟩, ⟨fun _ => rfl, fun _ => rfl⟩, ?_, fun h => absurd rfl h, nofun⟩
  constructor
  · rintro ⟨operands, h⟩
    cases h
  · rintro ⟨items, h⟩
    cases kind_unique h hg.types.void

theorem ok_scalar (hvalue : o.types.IsValue type) (hvoid : type ≠ .void)
    (htuple : ∀ items, o.types.kind type ≠ .ok (.tuple items))
    (htyped : operand.HasType o.typing type) (hplain : ∀ x ∈ operand.reads, o.Plain x) (span : Span) :
    (Value.scalar type span operand).Ok o := by
  obtain ⟨kind, hk, hf⟩ := hvalue
  have hleaf : o.types.leafTypes type = [type] := by
    rcases kind.tuple_or_not with ⟨items, rfl⟩ | hi
    · exact absurd hk (htuple items)
    · exact leafTypes_of_not_tuple hk hi
  refine ⟨⟨kind, hk, hf⟩, ⟨nofun, fun h => absurd h hvoid⟩, ⟨?_, ?_⟩, fun _ => ?_, fun x hx => ?_⟩
  · rintro ⟨operands, h⟩
    cases h
  · rintro ⟨items, h⟩
    exact absurd h (htuple items)
  · change Forall₂ _ [operand] (o.types.leafTypes type)
    rw [hleaf]
    exact .cons htyped .nil
  · have hx' : x ∈ operand.reads := by simpa [leaves, scalar, Operand.readsAll] using hx
    obtain ⟨hres, hleaf⟩ := hplain x hx'
    exact ⟨hres, fun r ls hls hmem => absurd hmem (hleaf r ls hls)⟩

/-- What a variable that can be read holds. -/
theorem ok_ofInfo (hg : o.Good) {i : VarInfo} (hi : o.info id = some i) (ht : i.type = some type)
    (hread : o.Readable id) (span : Span) :
    (if type = .void then Value.void span else
      match i.leaves with
      | none => .scalar type span (.var id)
      | some leaves => .tuple type span (leaves.map .var)).Ok o := by
  have hok := hg.vars id i hi
  have htype : o.typeOf id = some type := typeOf_eq_some_iff.2 ⟨i, hi, ht⟩
  by_cases hvoid : type = .void
  · rw [if_pos hvoid]
    exact ok_void hg span
  rw [if_neg hvoid]
  cases hl : i.leaves with
  | none =>
    refine ok_scalar (hok.value type ht) hvoid (fun items hk => ?_) (.var htype) ?_ span
    · have := (hok.shaped type ht).2 ⟨items, hk⟩
      rw [hl] at this
      cases this
    · intro x hx
      cases mem_singleton.1 hx
      exact hread.plain
  | some ls =>
    have hls : o.leavesOf id = some ls := leavesOf_eq_some_iff.2 ⟨i, hi, hl⟩
    obtain ⟨-, -, htypes⟩ := hok.leaves type ls ht hl
    have htuple := (hok.shaped type ht).1 (by rw [hl]; rfl)
    refine ⟨hok.value type ht, ⟨nofun, fun h => absurd h hvoid⟩, ⟨fun _ => htuple, fun _ => ⟨_, rfl⟩⟩,
      fun _ => ?_, fun x hx => ?_⟩
    · change Forall₂ _ (ls.map Operand.var) (o.types.leafTypes type)
      rw [forall₂_map_left_iff]
      exact htypes.imp fun l t hl => .var (typeOf_eq_some_iff.2 ⟨_, hl, rfl⟩)
    · have hx' : x ∈ ls := by
        obtain ⟨operand, hmem, hx⟩ := Operand.mem_readsAll.1 hx
        obtain ⟨l, hl, rfl⟩ := mem_map.1 hmem
        cases mem_singleton.1 hx
        exact hl
      refine ⟨hread.leaf_not_reserved hg hls hx', fun r ls' hls' hmem => ?_⟩
      have hr : r = id := by
        by_contra hne
        exact hg.disjoint r id ls' ls hls' hls hne hmem hx'
      subst hr
      cases hls.symm.trans hls'
      exact ⟨type, htype, .inl ⟨rfl, rfl⟩⟩

/-- Tuples of values whose types are the items of the type. -/
theorem ok_tuple (hg : o.Good) {values : List Value} (hvalues : ∀ v ∈ values, v.Ok o)
    (hvoid : ∀ v ∈ values, v.shape ≠ .void)
    (hk : o.types.kind type = .ok (.tuple (values.map Value.type))) (span : Span) :
    (Value.tuple type span (values.flatMap Value.leaves)).Ok o := by
  have hne : type ≠ .void := by
    rintro rfl
    cases kind_unique hk hg.types.void
  refine ⟨⟨_, hk, rfl⟩, ⟨nofun, fun h => absurd h hne⟩, ⟨fun _ => ⟨_, hk⟩, fun _ => ⟨_, rfl⟩⟩,
    fun _ => ?_, fun x hx => ?_⟩
  · change Forall₂ _ (values.flatMap Value.leaves) (o.types.leafTypes type)
    rw [leafTypes_tuple hg.types.toSound hk, flatMap_map]
    refine forall₂_flatMap (R := Eq) (forall₂_same.2 fun v _ => rfl) ?_
    rintro v hv _ rfl
    exact (hvalues v hv).typed (hvoid v hv)
  · obtain ⟨operand, hmem, hx⟩ := Operand.mem_readsAll.1 hx
    obtain ⟨v, hv, hop⟩ := mem_flatMap.1 hmem
    obtain ⟨hres, hgroup⟩ := (hvalues v hv).reads x (Operand.mem_readsAll.2 ⟨operand, hop, hx⟩)
    refine ⟨hres, fun r ls hls hmem => ?_⟩
    obtain ⟨t, ht, hcase⟩ := hgroup r ls hls hmem
    have hcomp : o.types.Component type v.type := ⟨_, hk, mem_map_of_mem hv⟩
    refine ⟨t, ht, .inr ?_⟩
    rcases hcase with ⟨-, rfl⟩ | hc
    · exact .single hcomp
    · exact .head hcomp hc

end Value

end SlotCode
