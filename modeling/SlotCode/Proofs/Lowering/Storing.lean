import SlotCode.Proofs.Lowering.Steps
import SlotCode.Proofs.Lowering.Values

/-!
# Storing values

A variable that a value is stored into has the type of the value, up to being alike, and is spread
over as many slots as the value has operands.  The assignments that store the value are therefore
well typed.
-/

namespace SlotCode

open List TypeGraph

variable {g : TypeGraph} {free : Bool} {e a t type : TypeId} {id : VarId} {o₀ : Outline}
  {i : VarInfo}

/-! ## Matching -/

theorem TypeGraph.alike_of_matchTypes (hg : g.Sound) (he : e < g.size) (ha : a < g.size)
    {sp sp' : Span} {b after : Option Bindings}
    (h : g.matchTypes (some e) a sp sp' b = .ok () after) : g.Alike b.isSome e a :=
  (accepts_iff_alike hg he ha sp sp' b).1 ⟨after, h⟩

theorem TypeGraph.Alike.tuple_of_tuple {as : List TypeId} (h : g.Alike free e a)
    (ha : g.kind a = .ok (.tuple as)) : ∃ es, g.kind e = .ok (.tuple es) := by
  cases h.agree with
  | same => exact ⟨as, ha⟩
  | tuple he => exact ⟨_, he⟩
  | box _ ha' _ hq =>
    cases kind_unique ha ha'
    cases hq
  | placeholder _ ha' => cases kind_unique ha ha'
  | bound _ _ ha' hq =>
    cases kind_unique ha ha'
    cases hq

theorem TypeGraph.Alike.tuple_iff (h : g.Alike false e a) :
    (∃ es, g.kind e = .ok (.tuple es)) ↔ ∃ as, g.kind a = .ok (.tuple as) :=
  ⟨fun ⟨_, he⟩ => h.symm.tuple_of_tuple he, fun ⟨_, ha⟩ => h.tuple_of_tuple ha⟩

/-- A type without parts is alike no other. -/
theorem TypeGraph.Alike.eq_of_base {kind : TypeKind} (h : g.Alike free e a)
    (he : g.kind e = .ok kind) (hb : kind.isBase = true) : a = e := by
  cases h.agree with
  | same => rfl
  | tuple he' => cases kind_unique he he'; cases hb
  | box he' _ hp =>
    cases kind_unique he he'
    cases kind <;> cases hb <;> cases hp
  | placeholder he' => cases kind_unique he he'; cases hb
  | bound _ he' => cases kind_unique he he'; cases hb

theorem TypeGraph.Alike.eq_of_base_right {kind : TypeKind} (h : g.Alike free e a)
    (ha : g.kind a = .ok kind) (hb : kind.isBase = true) : e = a := by
  cases h.agree with
  | same => rfl
  | tuple _ ha' => cases kind_unique ha ha'; cases hb
  | box _ ha' _ hq | bound _ _ ha' hq =>
    cases kind_unique ha ha'
    cases kind <;> cases hb <;> cases hq
  | placeholder _ ha' => cases kind_unique ha ha'; cases hb

/-! ## Code -/

/-- All commands of the code are typed. -/
def Code.Ok (o : Outline) (code : Code) : Prop :=
  ∀ c ∈ Command.nestedAll code, c.WellTyped o.typing

/-- The variables that code stores into at any depth. -/
def Code.writes (code : Code) : List VarId :=
  (Command.nestedAll code).flatMap Command.writes

/-- The code stores only into variables that are new since `o` and into values of open loops. -/
def Code.Spares (o o' : Outline) (code : Code) : Prop :=
  ∀ x ∈ code.writes, o.vars.length ≤ x ∨ o'.Reserved x

namespace Code

variable {o o' o'' : Outline} {a b : Code}

theorem Ok.nil : Code.Ok o [] :=
  nofun

theorem Ok.append (ha : Code.Ok o a) (hb : Code.Ok o b) : Code.Ok o (a ++ b) := by
  intro c hc
  rw [Command.nestedAll_append, mem_append] at hc
  exact hc.elim (ha c) (hb c)

theorem Ok.mono (hg : o.Good) (h : o.Grows o') (ha : Code.Ok o a) : Code.Ok o' a :=
  fun c hc => (ha c hc).mono (h.typing hg)

theorem writes_append (a b : Code) : Code.writes (a ++ b) = a.writes ++ b.writes := by
  simp [writes]

theorem mem_writes_cons {c : Command} {rest : Code} :
    id ∈ Code.writes (c :: rest) ↔ id ∈ Code.writes [c] ∨ id ∈ Code.writes rest := by
  rw [← mem_append, ← Code.writes_append]
  rfl

theorem mem_writes_branch {span : Span} {test : Operand} {yes no : Code} :
    id ∈ Code.writes [.branch span test yes no] ↔ id ∈ Code.writes yes ∨ id ∈ Code.writes no := by
  simp [Code.writes, Command.nestedAll, Command.nested, Command.writes]

theorem mem_writes_loop {span : Span} {loop : LoopId} {body : Code} :
    id ∈ Code.writes [.loop span loop body] ↔ id ∈ Code.writes body := by
  simp [Code.writes, Command.nestedAll, Command.nested, Command.writes]

theorem Spares.nil : Code.Spares o o' [] :=
  nofun

theorem Spares.append (ha : Code.Spares o o' a) (hb : Code.Spares o o' b) :
    Code.Spares o o' (a ++ b) := by
  intro x hx
  rw [writes_append, mem_append] at hx
  exact hx.elim (ha x) (hb x)

theorem Spares.mono (h₀ : o₀.Grows o) (h' : o'.Grows o'') (hloops : o'.loops ⊆ o''.loops)
    (h : Code.Spares o o' a) : Code.Spares o₀ o'' a :=
  fun x hx => (h x hx).imp (h₀.length_le.trans ·) (·.mono h' hloops)

end Code

/-- Code made between two outlines.  If it is `free`, it changes nothing that was there before. -/
structure Emits (free : Bool) (o o' : Outline) (code : Code) : Prop where
  ok : Code.Ok o' code
  spares : free = true → Code.Spares o o' code

namespace Emits

variable {free free' : Bool} {o o' : Outline} {a b : Code}

theorem nil : Emits free o o' [] :=
  ⟨.nil, fun _ => .nil⟩

theorem append (ha : Emits free o o' a) (hb : Emits free o o' b) : Emits free o o' (a ++ b) :=
  ⟨ha.ok.append hb.ok, fun h => (ha.spares h).append (hb.spares h)⟩

theorem imp (hfree : free' = true → free = true) (h : Emits free o o' a) : Emits free' o o' a :=
  ⟨h.ok, fun hf => h.spares (hfree hf)⟩

/-- The code may have been made in the middle. -/
theorem widen {o'' : Outline} (hg : o'.Good) (h₀ : o₀.Grows o) (h : Emits free o o' a)
    (h' : o'.Grows o'') (hloops : o''.loops = o'.loops) : Emits free o₀ o'' a :=
  ⟨h.ok.mono hg h', fun hf =>
    (h.spares hf).mono h₀ h' (by rw [hloops]; exact Subset.refl _)⟩

/-- Code that is made before further steps. -/
theorem before (h : Emits free o o' a) (hg : o'.Good) {o'' : Outline} (h' : o'.Steps o'') :
    Emits free o o'' a :=
  h.widen hg (.refl o) h'.grows h'.loops

/-- Code that is made after other steps. -/
theorem after (h₀ : o₀.Steps o) (h : Emits free o o' a) : Emits free o₀ o' a :=
  ⟨h.ok, fun hf => (h.spares hf).mono h₀.grows (.refl o') (Subset.refl _)⟩

/-- Code made one after the other. -/
theorem seq {f f₁ f₂ : Bool} {o₁ : Outline} (hs : o.Steps o₁) (h : Emits f₁ o o₁ a)
    (hs' : o₁.Steps o') (h' : Emits f₂ o₁ o' b) (hf : f = true → f₁ = true ∧ f₂ = true) :
    Emits f o o' (a ++ b) :=
  ((h.before hs.good hs').imp fun ht => (hf ht).1).append ((h'.after hs).imp fun ht => (hf ht).2)

end Emits

/-! ## Slots -/

namespace Outline

variable {o o' : Outline}

theorem slots_of_none (h : o.leavesOf id = none) : o.slots id = [id] := by
  simp [slots, h]

theorem slots_of_some {ls : List VarId} (h : o.leavesOf id = some ls) : o.slots id = ls := by
  simp [slots, h]

/-- The slots of a variable have the types of the leaves of its type. -/
theorem Good.slots_typed (h : o.Good) (ht : o.typeOf id = some t) :
    Forall₂ (fun l t => o.typeOf l = some t) (o.slots id) (o.types.leafTypes t) := by
  obtain ⟨i, hi, hit⟩ := typeOf_eq_some_iff.1 ht
  have hok := h.vars id i hi
  cases hl : i.leaves with
  | none =>
    have hnone : o.leavesOf id = none := (leavesOf_eq hi).trans hl
    obtain ⟨kind, hk, -⟩ := hok.value t hit
    rcases kind.tuple_or_not with ⟨items, rfl⟩ | hitems
    · have := (hok.shaped t hit).2 ⟨items, hk⟩
      rw [hl] at this
      cases this
    · rw [slots_of_none hnone, leafTypes_of_not_tuple hk hitems]
      exact .cons ht .nil
  | some ls =>
    have hsome : o.leavesOf id = some ls := (leavesOf_eq hi).trans hl
    rw [slots_of_some hsome]
    exact (hok.leaves t ls hit hl).2.2.imp fun l t hl => typeOf_eq_some_iff.2 ⟨_, hl, rfl⟩

/-- The slots of a variable stay the same once it has a type. -/
theorem Grows.slots (hg : o.Good) (hg' : o'.Good) (h : o.Grows o') (ht : o.typeOf id = some t) :
    o'.slots id = o.slots id := by
  obtain ⟨i, hi, hit⟩ := typeOf_eq_some_iff.1 ht
  obtain ⟨i', hi', hit'⟩ := typeOf_eq_some_iff.1 (h.typeOf ht)
  have hok := hg.vars id i hi
  have hok' := hg'.vars id i' hi'
  cases hl : i.leaves with
  | some ls =>
    have hls : o.leavesOf id = some ls := leavesOf_eq_some_iff.2 ⟨i, hi, hl⟩
    rw [slots_of_some hls, slots_of_some (h.leavesOf hls)]
  | none =>
    have hnone : o.leavesOf id = none := (leavesOf_eq hi).trans hl
    have hnone' : o'.leavesOf id = none := by
      rw [leavesOf_eq hi']
      cases hl' : i'.leaves with
      | none => rfl
      | some ls =>
        obtain ⟨items, hk⟩ := (hok'.shaped t hit').1 (by rw [hl']; rfl)
        have := (hok.shaped t hit).2 ⟨items, h.types.kind_of_lt (hok.value t hit).lt_size hk⟩
        rw [hl] at this
        cases this
    rw [slots_of_none hnone, slots_of_none hnone']

/-! ## Shaping a variable -/

theorem modify_append_modify {α : Type} (f f' : α → α) (l m : List α) {id : Nat}
    (hid : id < l.length) :
    (l.modify id f ++ m).modify id f' = (l ++ m).modify id fun a => f' (f a) := by
  apply ext_getElem?
  intro j
  simp only [getElem?_modify, getElem?_append, length_modify]
  by_cases hj : id = j
  · subst hj
    simp [hid]
  · simp [hj]

theorem typed_eq_settle (hi : o.info id = some i) (hun : i.type = none) (hreal : i.leaves = none)
    (type : TypeId) : Lower.typed o id i type = o.settle id type none := by
  rw [Lower.typed, if_pos hun, settle, modify, modify]
  congr 1
  apply ext_getElem?
  intro j
  simp only [getElem?_modify]
  by_cases hj : id = j
  · subst hj
    have hi' : o.vars[id]? = some i := hi
    rw [hi']
    simp [hreal]
  · simp [hj]

theorem spread_eq (hi : o.info id = some i) (hun : i.type = none) {types : List TypeId}
    (htypes : o.types.leafTypes type = types) :
    ((Lower.typed o id i type).push (types.map .temp)).modify id (fun j =>
      { j with leaves := some (List.range' o.vars.length types.length) }) = o.spread id type := by
  subst htypes
  rw [Lower.typed, if_pos hun, spread, settle, modify, push, modify, push, newLeaves, modify]
  congr 1
  exact modify_append_modify _ _ _ _ (lt_of_info hi)

/-- Values of the type can be stored into the variable: it has a type that is alike. -/
def Takes (o : Outline) (id : VarId) (type : TypeId) : Prop :=
  ∃ t, o.typeOf id = some t ∧ o.types.Alike false t type

/-- A variable that has been shaped after a type, and its slots. -/
structure Receives (o : Outline) (id : VarId) (type : TypeId) (slots : List VarId) : Prop where
  type : o.Takes id type
  slots : slots = o.slots id

/-- Shaping a variable without a type, or with the very type that it is shaped after. -/
theorem Expanded.fresh (hg : o.Good) (hi : o.info id = some i) (hun : i.type = none)
    (hvalue : o.types.IsValue type) {slots : List VarId} (h : Lower.Expanded o id i type slots o') :
    o.Steps o' ∧ o'.typeOf id = some type ∧ slots = o'.slots id := by
  have hreal := (hg.vars id i hi).untyped hun
  cases h with
  | @real kind hk hitems =>
    rw [typed_eq_settle hi hun hreal]
    have hgood := Good.settle hi type none hg hun hvalue
      ⟨nofun, fun ⟨items, hk'⟩ => by
        cases kind_unique hk hk'
        cases hitems⟩ nofun nofun
    refine ⟨⟨Grows.settle hi type none (.refl o) hun hreal nofun, rfl, hgood⟩, ?_, ?_⟩
    · exact typeOf_eq_some_iff.2 ⟨_, info_settle_self hi type none, rfl⟩
    · rw [slots_of_none (by rw [leavesOf_settle hi, if_pos rfl])]
  | virtual hk hl =>
    rw [hreal] at hl
    cases hl
  | @spread items types hk hl ht =>
    have htypes : o.types.leafTypes type = types := by
      rw [leafTypes, ht]
    rw [spread_eq hi hun htypes]
    refine ⟨⟨Grows.spread hi type hun hreal, rfl, hg.spread hi type hun hk⟩, ?_, ?_⟩
    · exact typeOf_eq_some_iff.2 ⟨_, info_settle_self (info_push _ hi) type _, rfl⟩
    · rw [slots_of_some (by rw [spread, leavesOf_settle (info_push _ hi), if_pos rfl]), newLeaves, htypes]

theorem Receives.mono (hg : o.Good) (h : o.Keeps o') {slots : List VarId}
    (hr : o.Receives id type slots) : o'.Receives id type slots := by
  obtain ⟨⟨t, ht, halike⟩, hslots⟩ := hr
  exact ⟨⟨t, h.grows.typeOf ht, halike.extend h.grows.types⟩,
    hslots.trans (h.grows.slots hg h.good ht).symm⟩

/-- Shaping a variable that has its type changes nothing. -/
theorem Expanded.known (hg : o.Good) (hi : o.info id = some i) (ht : i.type = some t)
    (halike : o.types.Alike false t type) {slots : List VarId}
    (h : Lower.Expanded o id i type slots o') : o' = o ∧ slots = o.slots id := by
  have hsame : Lower.typed o id i type = o := by
    rw [Lower.typed, if_neg (by simp [ht])]
  have hshaped := ((hg.vars id i hi).shaped t ht).trans halike.tuple_iff
  cases h with
  | real hk hitems =>
    refine ⟨hsame, ?_⟩
    cases hl : i.leaves with
    | none => rw [slots_of_none ((leavesOf_eq hi).trans hl)]
    | some ls =>
      obtain ⟨items, hk'⟩ := hshaped.1 (by rw [hl]; rfl)
      cases kind_unique hk hk'
      cases hitems
  | virtual hk hl => exact ⟨hsame, (slots_of_some ((leavesOf_eq hi).trans hl)).symm⟩
  | spread hk hl =>
    have := hshaped.2 ⟨_, hk⟩
    rw [hl] at this
    cases this

end Outline

namespace Lower

open Outline

variable {s s' : Session}

theorem expandVar_receives (hg : s.outline.Good) {valueSpan : Span} {slots : List VarId}
    (hvalue : s.types.IsValue type) (h : expandVar id type valueSpan s = .ok slots s') :
    s.outline.Steps s'.outline ∧ s'.outline.Receives id type slots := by
  obtain ⟨i, hi, ⟨span, after, hmatch⟩, h⟩ := expandVar_ok h
  have hok := hg.vars id i hi
  cases htype : i.type with
  | none =>
    obtain ⟨hsteps, ht, hslots⟩ := Expanded.fresh hg hi htype hvalue h
    exact ⟨hsteps, ⟨type, ht, .refl _ _ _⟩, hslots⟩
  | some t =>
    rw [htype] at hmatch
    have halike : s.types.Alike false t type :=
      alike_of_matchTypes hg.types.toSound (hok.value t htype).lt_size hvalue.lt_size hmatch
    obtain ⟨heq, hslots⟩ := Expanded.known hg hi htype halike h
    rw [heq]
    exact ⟨.refl hg, ⟨t, typeOf_eq_some_iff.2 ⟨i, hi, htype⟩, halike⟩, hslots⟩

end Lower

end SlotCode
