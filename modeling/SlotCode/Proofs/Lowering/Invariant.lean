import SlotCode.Proofs.Lowering.Outline
import SlotCode.Proofs.Types.Leaves

/-!
# What holds while code is lowered

Two facts carry everything that is proved about lowering.  Between two steps an outline only *grows*
(`Outline.Grows`): types and functions stay, and a variable keeps its name, its type once it has one
and its leaves once it has them.  Before and after each expression it is *good* (`Outline.Good`):

- the type graph is regular;
- a variable is virtual exactly if its type is a tuple, its leaves are temporaries of the types of
  the leaves of that tuple, and no two variables share a leaf;
- a name stands for a variable of that name, and no two names for the same variable;
- the variable of an open loop has no name and is no leaf.
-/

namespace SlotCode

open List

variable {id l : VarId} {i : VarInfo} {t : TypeId} {infos : List VarInfo} {ls : List VarId}
  {frame : Frame} {frames : List Frame}

/-! ## Growth -/

/-- What becomes of a variable of a table with `count` entries. -/
structure VarInfo.Grows (count : Nat) (i i' : VarInfo) : Prop where
  name : i'.name = i.name
  type : ∀ t, i.type = some t → i'.type = some t
  leaves : ∀ ls, i.leaves = some ls → i'.leaves = some ls
  /-- Leaves that it gets are new. -/
  fresh : i.leaves = none → ∀ ls, i'.leaves = some ls → ∀ l ∈ ls, count ≤ l

theorem VarInfo.Grows.refl (count : Nat) (i : VarInfo) : i.Grows count i where
  name := rfl
  type := fun _ h => h
  leaves := fun _ h => h
  fresh := fun h _ h' => nomatch h.symm.trans h'

theorem VarInfo.Grows.trans {count count' : Nat} {j k : VarInfo} (hcount : count ≤ count')
    (h : i.Grows count j) (h' : j.Grows count' k) : i.Grows count k where
  name := h'.name.trans h.name
  type := fun t ht => h'.type t (h.type t ht)
  leaves := fun ls hls => h'.leaves ls (h.leaves ls hls)
  fresh hnone ls hls l hl := by
    cases hj : j.leaves with
    | none => exact hcount.trans (h'.fresh hj ls hls l hl)
    | some ls' =>
      cases (h'.leaves ls' hj).symm.trans hls
      exact h.fresh hnone ls hj l hl

namespace Outline

/-- Nothing that is known of types, functions and variables is lost. -/
structure Grows (o o' : Outline) : Prop where
  types : o.types.Extends o'.types
  functions : o'.functions = o.functions
  nextLoop : o.nextLoop ≤ o'.nextLoop
  vars : ∀ id i, o.info id = some i → ∃ i', o'.info id = some i' ∧ i.Grows o.vars.length i'

variable {o o' o'' : Outline}

theorem Grows.refl (o : Outline) : o.Grows o :=
  ⟨.refl _, rfl, Nat.le_refl _, fun _ i h => ⟨i, h, .refl _ i⟩⟩

theorem Grows.length_le (h : o.Grows o') : o.vars.length ≤ o'.vars.length := by
  by_contra hlt
  obtain ⟨i', hi', -⟩ := h.vars o'.vars.length _ (getElem?_eq_getElem (Nat.lt_of_not_le hlt))
  exact Nat.lt_irrefl _ (List.getElem?_eq_some_iff.1 hi').1

theorem Grows.trans (h : o.Grows o') (h' : o'.Grows o'') : o.Grows o'' := by
  refine ⟨h.types.trans h'.types, h'.functions.trans h.functions, h.nextLoop.trans h'.nextLoop, ?_⟩
  intro id i hi
  obtain ⟨j, hj, hij⟩ := h.vars id i hi
  obtain ⟨k, hk, hjk⟩ := h'.vars id j hj
  exact ⟨k, hk, hij.trans h.length_le hjk⟩

theorem typeOf_eq_some_iff : o.typeOf id = some t ↔ ∃ i, o.info id = some i ∧ i.type = some t := by
  simp [typeOf, Option.bind_eq_some_iff]

theorem leavesOf_eq_some_iff :
    o.leavesOf id = some ls ↔ ∃ i, o.info id = some i ∧ i.leaves = some ls := by
  simp [leavesOf, Option.bind_eq_some_iff]

theorem leavesOf_eq (h : o.info id = some i) : o.leavesOf id = i.leaves := by
  rw [leavesOf, h]
  rfl

theorem lt_of_info (h : o.info id = some i) : id < o.vars.length :=
  (List.getElem?_eq_some_iff.1 h).1

theorem lt_of_typeOf (h : o.typeOf id = some t) : id < o.vars.length := by
  obtain ⟨i, hi, -⟩ := typeOf_eq_some_iff.1 h
  exact lt_of_info hi

theorem Grows.typeOf (h : o.Grows o') (ht : o.typeOf id = some t) : o'.typeOf id = some t := by
  obtain ⟨i, hi, hit⟩ := typeOf_eq_some_iff.1 ht
  obtain ⟨i', hi', hgrow⟩ := h.vars id i hi
  exact typeOf_eq_some_iff.2 ⟨i', hi', hgrow.type t hit⟩

theorem Grows.leavesOf (h : o.Grows o') (hl : o.leavesOf id = some ls) :
    o'.leavesOf id = some ls := by
  obtain ⟨i, hi, hil⟩ := leavesOf_eq_some_iff.1 hl
  obtain ⟨i', hi', hgrow⟩ := h.vars id i hi
  exact leavesOf_eq_some_iff.2 ⟨i', hi', hgrow.leaves ls hil⟩

/-- A leaf of a variable was one before, or is new. -/
theorem Grows.leaf_cases (h : o.Grows o') (hid : id < o.vars.length) (hl : o'.leavesOf id = some ls)
    (hmem : l ∈ ls) : o.leavesOf id = some ls ∨ o.vars.length ≤ l := by
  have hi := getElem?_eq_getElem hid
  obtain ⟨i', hi', hgrow⟩ := h.vars id _ hi
  obtain ⟨j, hj, hjl⟩ := leavesOf_eq_some_iff.1 hl
  cases hi'.symm.trans hj
  cases hleaves : (o.vars[id]).leaves with
  | none => exact .inr (hgrow.fresh hleaves ls hjl l hmem)
  | some ls' =>
    cases (hgrow.leaves ls' hleaves).symm.trans hjl
    exact .inl (leavesOf_eq_some_iff.2 ⟨_, hi, hleaves⟩)

/-! ## Good outlines -/

end Outline

/-- What a table says about the variable `id` is consistent. -/
structure VarInfo.Ok (g : TypeGraph) (vars : List VarInfo) (id : VarId) (i : VarInfo) : Prop where
  untyped : i.type = none → i.leaves = none
  value : ∀ t, i.type = some t → g.IsValue t
  shaped : ∀ t, i.type = some t → (i.leaves.isSome ↔ ∃ items, g.kind t = .ok (.tuple items))
  leaves : ∀ t ls, i.type = some t → i.leaves = some ls → (∀ l ∈ ls, id < l) ∧ ls.Nodup ∧
    List.Forall₂ (fun (l : Nat) t => vars[l]? = some (.temp t)) ls (g.leafTypes t)

namespace Outline

variable {o o' : Outline}

/-- The invariant of all steps. -/
structure Good (o : Outline) : Prop where
  types : o.types.Regular
  vars : ∀ id i, o.info id = some i → i.Ok o.types o.vars id
  disjoint : ∀ id id' ls ls', o.leavesOf id = some ls → o.leavesOf id' = some ls' → id ≠ id' →
    ls.Disjoint ls'
  functions : ∀ name sig, o.functions.lookup name = some sig → ∃ params result native,
    o.types.kind sig.type = .ok (.function params result native) ∧
      (native = true → name = "print" ∧ params = [.string] ∧ result = .void)
  names : ∀ name id, (name, id) ∈ o.names → ∃ i, o.info id = some i ∧ i.name = some name
  distinct : (o.names.map Prod.snd).Nodup
  loops : ∀ label ref, (label, ref) ∈ o.loops → ref.loop < o.nextLoop ∧
    ∃ i, o.info ref.var = some i ∧ i.name = none ∧ ∀ id ls, o.leavesOf id = some ls → ref.var ∉ ls

theorem Good.isValue (h : o.Good) (ht : o.typeOf id = some t) : o.types.IsValue t := by
  obtain ⟨i, hi, hit⟩ := typeOf_eq_some_iff.1 ht
  exact (h.vars id i hi).value t hit

/-- The leaves of a virtual variable, each with its type. -/
theorem Good.leaf_types (h : o.Good) (hls : o.leavesOf id = some ls) :
    ∃ t, o.typeOf id = some t ∧
      Forall₂ (fun l t => o.info l = some (.temp t)) ls (o.types.leafTypes t) := by
  obtain ⟨i, hi, hil⟩ := leavesOf_eq_some_iff.1 hls
  have hok := h.vars id i hi
  cases ht : i.type with
  | none =>
    rw [hok.untyped ht] at hil
    cases hil
  | some t => exact ⟨t, typeOf_eq_some_iff.2 ⟨i, hi, ht⟩, (hok.leaves t ls ht hil).2.2⟩

/-- Leaves are temporaries that have their type from the start. -/
theorem Good.leaf_info (h : o.Good) (hls : o.leavesOf id = some ls) (hl : l ∈ ls) :
    ∃ t, o.info l = some (.temp t) := by
  obtain ⟨_, -, htypes⟩ := h.leaf_types hls
  obtain ⟨t, -, hinfo⟩ := TypeGraph.exists_of_forall₂ htypes hl
  exact ⟨t, hinfo⟩

theorem Good.leaf_lt (h : o.Good) (hls : o.leavesOf id = some ls) (hl : l ∈ ls) :
    l < o.vars.length := by
  obtain ⟨t, hinfo⟩ := h.leaf_info hls hl
  exact lt_of_info hinfo

/-! ## Larger type graphs -/

theorem Grows.retype {g : TypeGraph} (h : o.types.Extends g) : o.Grows { o with types := g } :=
  ⟨h, rfl, Nat.le_refl _, fun _ i hi => ⟨i, hi, .refl _ i⟩⟩

/-- More types do no harm. -/
theorem Good.retype (h : o.Good) {g : TypeGraph} (hg : g.Regular) (hext : o.types.Extends g) :
    ({ o with types := g } : Outline).Good := by
  refine { h with types := hg, vars := fun id i hi => ?_, functions := fun name sig hsig => ?_ }
  · have hok := h.vars id i hi
    refine ⟨hok.untyped, fun t ht => (hok.value t ht).extend hext, fun t ht => ?_, ?_⟩
    · rw [hok.shaped t ht]
      constructor
      · rintro ⟨items, hk⟩
        exact ⟨items, hext _ _ hk⟩
      · rintro ⟨items, hk⟩
        exact ⟨items, hext.kind_of_lt (hok.value t ht).lt_size hk⟩
    · intro t ls ht hls
      rw [TypeGraph.leafTypes_extend h.types.toSound hext (hok.value t ht).lt_size]
      exact hok.leaves t ls ht hls
  · obtain ⟨params, result, native, hk, hnative⟩ := h.functions name sig hsig
    exact ⟨params, result, native, hext _ _ hk, hnative⟩

/-! ## New variables -/

theorem info_push (infos : List VarInfo) (h : o.info id = some i) :
    (o.push infos).info id = some i := by
  have hid := lt_of_info h
  simp only [info, push, getElem?_append_left hid]
  exact h

theorem info_push_new (infos : List VarInfo) (k : Nat) :
    (o.push infos).info (o.vars.length + k) = infos[k]? := by
  simp only [info, push, getElem?_append_right (Nat.le_add_right _ _), Nat.add_sub_cancel_left]

/-- A variable of the longer table was there before or is new. -/
theorem info_push_cases (h : (o.push infos).info id = some i) :
    o.info id = some i ∨ o.vars.length ≤ id ∧ i ∈ infos := by
  rcases Nat.lt_or_ge id o.vars.length with hid | hid
  · simp only [info, push, getElem?_append_left hid] at h
    exact .inl h
  · simp only [info, push, getElem?_append_right hid] at h
    exact .inr ⟨hid, mem_of_getElem? h⟩

theorem leavesOf_push (hnew : ∀ i ∈ infos, i.leaves = none)
    (h : (o.push infos).leavesOf id = some ls) : o.leavesOf id = some ls := by
  obtain ⟨i, hi, hls⟩ := leavesOf_eq_some_iff.1 h
  rcases info_push_cases hi with hi | ⟨-, hmem⟩
  · exact leavesOf_eq_some_iff.2 ⟨i, hi, hls⟩
  · rw [hnew i hmem] at hls
    cases hls

theorem Grows.push (o : Outline) (infos : List VarInfo) : o.Grows (o.push infos) :=
  ⟨.refl _, rfl, Nat.le_refl _, fun _ i hi => ⟨i, info_push infos hi, .refl _ i⟩⟩

/-- Real variables may be added. -/
theorem Good.push (h : o.Good) (hreal : ∀ i ∈ infos, i.leaves = none)
    (htyped : ∀ i ∈ infos, ∀ t, i.type = some t →
      o.types.IsValue t ∧ ∀ items, o.types.kind t ≠ .ok (.tuple items)) : (o.push infos).Good := by
  refine
    { types := h.types, functions := h.functions, distinct := h.distinct
      vars := fun id i hi => ?_
      disjoint := fun id id' ls ls' hls hls' =>
        h.disjoint id id' ls ls' (leavesOf_push hreal hls) (leavesOf_push hreal hls')
      names := fun name id hmem => ?_
      loops := fun label ref hmem => ?_ }
  · rcases info_push_cases hi with hi | ⟨-, hmem⟩
    · have hok := h.vars id i hi
      refine ⟨hok.untyped, hok.value, hok.shaped, fun t ls ht hls => ?_⟩
      obtain ⟨hlt, hnodup, htypes⟩ := hok.leaves t ls ht hls
      exact ⟨hlt, hnodup, htypes.imp fun _ _ hl => info_push infos hl⟩
    · refine ⟨fun _ => hreal i hmem, fun t ht => (htyped i hmem t ht).1, fun t ht => ?_, ?_⟩
      · rw [hreal i hmem]
        exact ⟨nofun, fun ⟨items, hk⟩ => absurd hk ((htyped i hmem t ht).2 items)⟩
      · intro t ls ht hls
        rw [hreal i hmem] at hls
        cases hls
  · obtain ⟨i, hi, hname⟩ := h.names name id hmem
    exact ⟨i, info_push infos hi, hname⟩
  · obtain ⟨hlt, i, hi, hname, hleaf⟩ := h.loops label ref hmem
    exact ⟨hlt, i, info_push infos hi, hname, fun id ls hls => hleaf id ls (leavesOf_push hreal hls)⟩

/-! ## Shaping a variable -/

theorem info_modify (id : VarId) (f : VarInfo → VarInfo) (other : VarId) :
    (o.modify id f).info other = if other = id then (o.info id).map f else o.info other := by
  simp only [info, modify, getElem?_modify]
  by_cases h : id = other
  · subst h
    simp
  · simp only [if_neg h, if_neg (Ne.symm h)]
    cases o.vars[other]? <;> rfl

/-- Fixes the type and the leaves of a variable. -/
def settle (o : Outline) (id : VarId) (type : TypeId) (leaves : Option (List VarId)) : Outline :=
  o.modify id fun i => { i with type := some type, leaves := leaves }

section

variable {id : VarId} {i : VarInfo} (hi : o.info id = some i) (type : TypeId)
  (leaves : Option (List VarId))

include hi

theorem info_settle_self :
    (o.settle id type leaves).info id = some { i with type := some type, leaves := leaves } := by
  rw [settle, info_modify, if_pos rfl, hi]
  rfl

omit hi in
theorem info_settle_of_ne {other : VarId} (h : other ≠ id) :
    (o.settle id type leaves).info other = o.info other := by
  rw [settle, info_modify, if_neg h]

theorem leavesOf_settle {other : VarId} :
    (o.settle id type leaves).leavesOf other = if other = id then leaves else o.leavesOf other := by
  by_cases h : other = id
  · subst h
    rw [leavesOf, info_settle_self hi, if_pos rfl]
    rfl
  · rw [leavesOf, info_settle_of_ne _ _ h, if_neg h]
    rfl

/-- A variable without a type may get one. -/
theorem Grows.settle {o₀ : Outline} (hgrow : o₀.Grows o) (hun : i.type = none)
    (hreal : i.leaves = none) (hnew : ∀ ls, leaves = some ls → ∀ l ∈ ls, o₀.vars.length ≤ l) :
    o₀.Grows (o.settle id type leaves) := by
  refine ⟨hgrow.types, hgrow.functions, hgrow.nextLoop, fun other j hj => ?_⟩
  obtain ⟨j', hj', hjj'⟩ := hgrow.vars other j hj
  by_cases h : other = id
  · subst h
    cases hi.symm.trans hj'
    refine ⟨_, info_settle_self hi type leaves, hjj'.name, fun t ht => ?_, fun ls hls => ?_,
      fun _ => hnew⟩
    · cases hun.symm.trans (hjj'.type t ht)
    · cases hreal.symm.trans (hjj'.leaves ls hls)
  · exact ⟨j', (info_settle_of_ne _ _ h).trans hj', hjj'⟩

/-- A variable without a type may be given one.  Leaves must be temporaries of the right types that
belong to no other variable. -/
theorem Good.settle (h : o.Good) (hun : i.type = none) (hvalue : o.types.IsValue type)
    (hshape : leaves.isSome ↔ ∃ items, o.types.kind type = .ok (.tuple items))
    (hleaves : ∀ ls, leaves = some ls → (∀ l ∈ ls, id < l) ∧ ls.Nodup ∧
      Forall₂ (fun l t => o.info l = some (.temp t)) ls (o.types.leafTypes type))
    (hfree : ∀ ls, leaves = some ls → ∀ l ∈ ls,
      (∀ other ls', o.leavesOf other = some ls' → l ∉ ls') ∧
      ∀ label ref, (label, ref) ∈ o.loops → ref.var ≠ l) :
    (o.settle id type leaves).Good := by
  -- A leaf has a type already, so it is not the variable that gets one now.
  have htemp : ∀ l t, o.info l = some (.temp t) →
      (o.settle id type leaves).info l = some (.temp t) := by
    intro l t hl
    have hne : l ≠ id := by
      rintro rfl
      cases hi.symm.trans hl
      cases hun
    rw [info_settle_of_ne _ _ hne]
    exact hl
  refine
    { types := h.types, functions := h.functions, distinct := h.distinct
      vars := fun other j hj => ?_
      disjoint := fun a b ls ls' hls hls' hab => ?_
      names := fun name other hmem => ?_
      loops := fun label ref hmem => ?_ }
  · by_cases hother : other = id
    · subst hother
      cases (info_settle_self hi type leaves).symm.trans hj
      refine ⟨nofun, fun t ht => ?_, fun t ht => ?_, fun t ls ht hls => ?_⟩
      · cases ht
        exact hvalue
      · cases ht
        exact hshape
      · cases ht
        obtain ⟨hlt, hnodup, htypes⟩ := hleaves ls hls
        exact ⟨hlt, hnodup, htypes.imp htemp⟩
    · rw [info_settle_of_ne _ _ hother] at hj
      have hok := h.vars other j hj
      refine ⟨hok.untyped, hok.value, hok.shaped, fun t ls ht hls => ?_⟩
      obtain ⟨hlt, hnodup, htypes⟩ := hok.leaves t ls ht hls
      exact ⟨hlt, hnodup, htypes.imp htemp⟩
  · rw [leavesOf_settle hi] at hls hls'
    by_cases ha : a = id <;> by_cases hb : b = id
    · exact absurd (ha.trans hb.symm) hab
    · rw [if_pos ha] at hls
      rw [if_neg hb] at hls'
      exact fun l hl hl' => (hfree ls hls l hl).1 b ls' hls' hl'
    · rw [if_neg ha] at hls
      rw [if_pos hb] at hls'
      exact fun l hl hl' => (hfree ls' hls' l hl').1 a ls hls hl
    · rw [if_neg ha] at hls
      rw [if_neg hb] at hls'
      exact h.disjoint a b ls ls' hls hls' hab
  · obtain ⟨j, hj, hname⟩ := h.names name other hmem
    by_cases hother : other = id
    · subst hother
      cases hi.symm.trans hj
      exact ⟨_, info_settle_self hi type leaves, hname⟩
    · exact ⟨j, (info_settle_of_ne _ _ hother).trans hj, hname⟩
  · obtain ⟨hlt, j, hj, hname, hleaf⟩ := h.loops label ref hmem
    have hleaf' : ∀ a ls, (o.settle id type leaves).leavesOf a = some ls → ref.var ∉ ls := by
      intro a ls hls hmem'
      rw [leavesOf_settle hi] at hls
      by_cases ha : a = id
      · rw [if_pos ha] at hls
        exact (hfree ls hls _ hmem').2 label ref hmem rfl
      · rw [if_neg ha] at hls
        exact hleaf a ls hls hmem'
    have hinfo : ∃ j', (o.settle id type leaves).info ref.var = some j' ∧ j'.name = none := by
      by_cases hother : ref.var = id
      · rw [hother] at hj ⊢
        cases hi.symm.trans hj
        exact ⟨_, info_settle_self hi type leaves, hname⟩
      · exact ⟨j, (info_settle_of_ne _ _ hother).trans hj, hname⟩
    obtain ⟨j', hj', hname'⟩ := hinfo
    exact ⟨hlt, j', hj', hname', hleaf'⟩

end

/-- Numbers of the leaves that a variable of that type gets. -/
def newLeaves (o : Outline) (type : TypeId) : List VarId :=
  List.range' o.vars.length (o.types.leafTypes type).length

/-- Gives a variable that has none the type of a tuple, and new leaves. -/
def spread (o : Outline) (id : VarId) (type : TypeId) : Outline :=
  (o.push ((o.types.leafTypes type).map .temp)).settle id type (some (o.newLeaves type))

theorem forall₂_range' {α : Type} {R : Nat → α → Prop} {n : Nat} {l : List α}
    (h : ∀ k a, l[k]? = some a → R (n + k) a) : Forall₂ R (List.range' n l.length) l := by
  induction l generalizing n with
  | nil => exact .nil
  | cons a l ih =>
    rw [length_cons, range'_succ]
    refine .cons (h 0 a rfl) (ih fun k b hb => ?_)
    have := h (k + 1) b hb
    rwa [Nat.add_comm k 1, ← Nat.add_assoc] at this

section

variable {id : VarId} {i : VarInfo} (hi : o.info id = some i) (type : TypeId)

theorem mem_newLeaves (hl : l ∈ o.newLeaves type) : o.vars.length ≤ l := by
  obtain ⟨k, -, rfl⟩ := mem_range'.1 hl
  omega

/-- The leaves of a type may be added as temporaries. -/
theorem Good.pushLeaves (h : o.Good) (hvalue : o.types.IsValue type) :
    (o.push ((o.types.leafTypes type).map .temp)).Good := by
  refine h.push ?_ ?_
  · intro j hj
    obtain ⟨t, -, rfl⟩ := mem_map.1 hj
    rfl
  · intro j hj t ht
    obtain ⟨t', ht', rfl⟩ := mem_map.1 hj
    cases ht
    obtain ⟨kind, hk, hitems⟩ := TypeGraph.not_tuple_of_mem_leafTypes h.types.toSound hvalue.lt_size ht'
    refine ⟨TypeGraph.isValue_of_mem_leafTypes h.types hvalue ht', fun items hk' => ?_⟩
    cases TypeGraph.kind_unique hk hk'
    cases hitems

include hi in
theorem Grows.spread (hun : i.type = none) (hreal : i.leaves = none) :
    o.Grows (o.spread id type) := by
  refine Grows.settle (info_push _ hi) type _ (Grows.push o _) hun hreal ?_
  rintro ls ⟨⟩ l hl
  exact mem_newLeaves type hl

include hi in
/-- A tuple is spread over new leaves. -/
theorem Good.spread (h : o.Good) (hun : i.type = none) {items : List TypeId}
    (hk : o.types.kind type = .ok (.tuple items)) : (o.spread id type).Good := by
  have hvalue : o.types.IsValue type := ⟨_, hk, rfl⟩
  have hid := lt_of_info hi
  refine Good.settle (info_push _ hi) type _ (h.pushLeaves type hvalue) hun hvalue ?_ ?_ ?_
  · exact ⟨fun _ => ⟨items, hk⟩, fun _ => rfl⟩
  · rintro ls ⟨⟩
    refine ⟨fun l hl => Nat.lt_of_lt_of_le hid (mem_newLeaves type hl), nodup_range', ?_⟩
    refine forall₂_range' fun k t ht => ?_
    rw [info_push_new, getElem?_map]
    exact congrArg (Option.map VarInfo.temp) ht
  · rintro ls ⟨⟩ l hl
    have hge := mem_newLeaves type hl
    refine ⟨fun other ls' hls' hmem => ?_, fun label ref hmem heq => ?_⟩
    · have hls := leavesOf_push (fun j hj => by obtain ⟨t, -, rfl⟩ := mem_map.1 hj; rfl) hls'
      exact Nat.not_lt_of_le hge (h.leaf_lt hls hmem)
    · obtain ⟨-, j, hj, -⟩ := h.loops label ref hmem
      exact Nat.not_lt_of_le hge (heq ▸ lt_of_info hj)

end

/-! ## Contexts -/

/-- Names and loops may be forgotten. -/
theorem Good.reframe (h : o.Good) (hnames : (frames.flatMap Frame.names).Sublist o.names)
    (hloops : frames.flatMap Frame.loops ⊆ o.loops) :
    ({ o with frames := frames } : Outline).Good :=
  { h with
    names := fun name id hmem => h.names name id (hnames.subset hmem)
    distinct := h.distinct.sublist (hnames.map Prod.snd)
    loops := fun label ref hmem => h.loops label ref (hloops hmem) }

theorem Good.enter (h : o.Good) : o.enter.Good :=
  h.reframe (List.Sublist.refl _) (Subset.refl _)

theorem Good.exit (h : o.Good) : o.exit.Good := by
  cases hf : o.frames with
  | nil =>
    refine h.reframe ?_ ?_
    · simp [hf]
    · simp [hf]
  | cons frame frames =>
    have hnames : o.names = frame.names ++ frames.flatMap Frame.names := by
      simp [Outline.names, hf]
    have hloops : o.loops = frame.loops ++ frames.flatMap Frame.loops := by
      simp [Outline.loops, hf]
    refine h.reframe ?_ ?_
    · rw [hf, hnames]
      exact sublist_append_right _ _
    · rw [hf, hloops]
      exact subset_append_right _ _

theorem Grows.reframe (o : Outline) (frames : List Frame) : o.Grows { o with frames := frames } :=
  ⟨.refl _, rfl, Nat.le_refl _, fun _ i hi => ⟨i, hi, .refl _ i⟩⟩

/-- The outline after a new name is declared. -/
def declare (o : Outline) (name : String) : Outline :=
  (o.push [.fresh (some name)]).modifyFrame fun f =>
    { f with names := (name, o.vars.length) :: f.names }

theorem frames_declare {name : String} (hf : o.frames = frame :: frames) :
    (o.declare name).frames = { frame with names := (name, o.vars.length) :: frame.names } :: frames := by
  simp [declare, modifyFrame, push, hf]

/-- A name may hide another one. -/
theorem Good.declare (h : o.Good) (hf : o.frames = frame :: frames) (name : String) :
    (o.declare name).Good := by
  have hpush : (o.push [.fresh (some name)]).Good := by
    refine h.push ?_ ?_
    · intro i hi
      cases mem_singleton.1 hi
      rfl
    · intro i hi t ht
      cases mem_singleton.1 hi
      cases ht
  have hnames : (o.declare name).names = (name, o.vars.length) :: o.names := by
    simp [Outline.names, frames_declare hf, hf]
  have hloops : (o.declare name).loops = o.loops := by
    simp [Outline.loops, frames_declare hf, hf]
  refine { hpush with names := fun other id hmem => ?_, distinct := ?_, loops := fun label ref hmem => ?_ }
  · rw [hnames] at hmem
    rcases mem_cons.1 hmem with heq | hmem
    · cases heq
      exact ⟨.fresh (some name), info_push_new [.fresh (some name)] 0, rfl⟩
    · exact hpush.names other id hmem
  · rw [hnames, map_cons, nodup_cons]
    refine ⟨fun hmem => ?_, h.distinct⟩
    obtain ⟨⟨other, id⟩, hother, heq⟩ := mem_map.1 hmem
    obtain ⟨i, hi, -⟩ := h.names other id hother
    exact Nat.ne_of_lt (lt_of_info hi) heq
  · rw [hloops] at hmem
    exact hpush.loops label ref hmem

theorem Grows.declare (o : Outline) (name : String) : o.Grows (o.declare name) :=
  (Grows.push o _).trans (Grows.reframe _ _)

/-- The outline after a new loop is opened. -/
def openLoop (o : Outline) (label : Option String) : Outline :=
  { (o.push [.fresh none]).modifyFrame fun f =>
      { f with loops := (label, ⟨o.nextLoop, o.vars.length⟩) :: f.loops } with
    nextLoop := o.nextLoop + 1 }

theorem frames_openLoop {label : Option String} (hf : o.frames = frame :: frames) :
    (o.openLoop label).frames =
      { frame with loops := (label, ⟨o.nextLoop, o.vars.length⟩) :: frame.loops } :: frames := by
  simp [openLoop, modifyFrame, push, hf]

/-- A loop declares no name. -/
theorem names_openLoop (o : Outline) (label : Option String) :
    (o.enter.openLoop label).names = o.names := by
  rw [names, frames_openLoop rfl]
  rfl

/-- The variable of a new loop is new. -/
theorem Good.openLoop (h : o.Good) (hf : o.frames = frame :: frames) (label : Option String) :
    (o.openLoop label).Good := by
  have hreal : ∀ i ∈ [VarInfo.fresh none], i.leaves = none := by
    intro i hi
    cases mem_singleton.1 hi
    rfl
  have hpush : (o.push [.fresh none]).Good := by
    refine h.push hreal ?_
    intro i hi t ht
    cases mem_singleton.1 hi
    cases ht
  have hnames : (o.openLoop label).names = o.names := by
    simp [Outline.names, frames_openLoop hf, hf]
  have hloops : (o.openLoop label).loops = (label, ⟨o.nextLoop, o.vars.length⟩) :: o.loops := by
    simp [Outline.loops, frames_openLoop hf, hf]
  refine { hpush with
    names := fun other id hmem => ?_, distinct := ?_, loops := fun label' ref hmem => ?_ }
  · rw [hnames] at hmem
    exact hpush.names other id hmem
  · rw [hnames]
    exact h.distinct
  · rw [hloops] at hmem
    rcases mem_cons.1 hmem with heq | hmem
    · cases heq
      refine ⟨Nat.lt_succ_self _, .fresh none, info_push_new [.fresh none] 0, rfl, fun id ls hls hmem => ?_⟩
      exact Nat.lt_irrefl _ (h.leaf_lt (leavesOf_push hreal hls) hmem)
    · obtain ⟨hlt, hrest⟩ := hpush.loops label' ref hmem
      exact ⟨Nat.lt_succ_of_lt hlt, hrest⟩

theorem Grows.openLoop (o : Outline) (label : Option String) : o.Grows (o.openLoop label) := by
  have h := Grows.push o [.fresh none]
  exact ⟨h.types, h.functions, Nat.le_succ _, h.vars⟩

end Outline

end SlotCode
