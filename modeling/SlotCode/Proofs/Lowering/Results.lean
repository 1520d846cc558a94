import SlotCode.Proofs.Lowering.Patterns

/-!
# Results of expressions

A block, a conditional and a loop leave their result in a variable of its own, and their value reads
that variable (`Value.IsRead`).  The variable is new, or belongs to a loop that has just been
closed, so the value can be handed on.
-/

namespace SlotCode

variable {o o' : Outline} {id : VarId} {label : Option String} {v w : Value} {span : Span}
  {code : Code}

open Outline List

/-- The value reads a variable. -/
structure Value.IsRead (o : Outline) (id : VarId) (w : Value) : Prop where
  type : o.typeOf id = some w.type
  leaves : w.type ≠ .void → w.leaves = (o.slots id).map .var

namespace Lower

variable {s s' : Session}

theorem valueOf_isRead (hg : s.outline.Good) (hread : s.outline.Readable id)
    (h : valueOf id span s = .ok w s') : s' = s ∧ w.Ok s.outline ∧ w.IsRead s.outline id := by
  obtain ⟨rfl, i, type, hi, ht, rfl⟩ := valueOf_ok h
  refine ⟨rfl, Value.ok_ofInfo hg hi ht hread span, ?_⟩
  have htype : s'.outline.typeOf id = some type := typeOf_eq_some_iff.2 ⟨i, hi, ht⟩
  by_cases hvoid : type = .void
  · rw [if_pos hvoid]
    exact ⟨by rw [htype, hvoid]; rfl, fun hne => absurd rfl hne⟩
  · rw [if_neg hvoid]
    have hleaves := leavesOf_eq hi
    cases hl : i.leaves with
    | none => exact ⟨htype, fun _ => by rw [slots_of_none (hleaves.trans hl)]; rfl⟩
    | some ls => exact ⟨htype, fun _ => by rw [slots_of_some (hleaves.trans hl)]; rfl⟩

end Lower

/-! ## A new destination -/

namespace Outline

variable {o o' : Outline}

theorem Steps.pushFresh (hg : o.Good) : o.Steps (o.push [.fresh none]) := by
  refine ⟨.push o _, rfl, hg.push (fun i hi => ?_) fun i hi t ht => ?_⟩
  · rw [mem_singleton.1 hi]
    rfl
  · rw [mem_singleton.1 hi] at ht
    cases ht

/-- A variable that was just made is readable until it is handed on. -/
theorem readable_pushed (hg : o.Good) {infos : List VarInfo} (hreal : ∀ i ∈ infos, i.leaves = none)
    (h : (o.push infos).Keeps o') (hge : o.vars.length ≤ id) (hlt : id < (o.push infos).vars.length) :
    o'.Readable id := by
  refine readable_of_new hg ⟨(Grows.push o infos).trans h.grows, h.loops, h.good⟩ hge ?_
  intro r ls hls hmem
  have hold := leavesOf_push hreal (leavesOf_of_grows h.good h.grows hlt hls hmem)
  exact absurd (hg.leaf_lt hold hmem) (Nat.not_lt_of_le hge)

theorem readable_fresh (hg : o.Good) (h : (o.push [.fresh none]).Keeps o') :
    o'.Readable o.vars.length := by
  refine readable_pushed hg (fun i hi => ?_) h (Nat.le_refl _) (by simp [push])
  rw [mem_singleton.1 hi]
  rfl

end Outline

/-! ## Stored results -/

namespace Outline

variable {o o' : Outline}

theorem Good.slots_nodup (hg : o.Good) (id : VarId) : (o.slots id).Nodup := by
  cases hls : o.leavesOf id with
  | none =>
    rw [slots_of_none hls]
    exact nodup_singleton id
  | some ls =>
    rw [slots_of_some hls]
    obtain ⟨i, hi, hil⟩ := leavesOf_eq_some_iff.1 hls
    have hok := hg.vars id i hi
    cases ht : i.type with
    | none => cases (hok.untyped ht).symm.trans hil
    | some t => exact (hok.leaves t ls ht hil).2.1

end Outline

/-- The code stores the value `v` into slots that are new since `o`, and `w` reads them. -/
structure Stored (o o' : Outline) (code : Code) (v w : Value) : Prop where
  type : o'.types.Alike false w.type v.type
  slots : ∃ span slots, code = Lower.assignments span slots v.leaves ∧
    w.leaves = slots.map .var ∧ slots.Nodup ∧ ∀ l ∈ slots, o.vars.length ≤ l

theorem Stored.spares {o'' : Outline} (h : Stored o o' code v w) : Code.Spares o o'' code := by
  obtain ⟨span, slots, rfl, -, -, hnew⟩ := h.slots
  exact fun x hx => .inl (hnew x (Lower.writes_assignments span slots v.leaves hx))

/-- A value that is stored into one variable is read from it later. -/
theorem Stored.of_receives {o₁ : Outline} {dest : VarId} {slots : List VarId}
    (hnew : o.vars.length ≤ dest) (hg : o₁.Good) (hr : o₁.Receives dest v.type slots)
    (hkeeps : o₁.Keeps o') (hv : v.Ok o₁) (hvoid : v.shape ≠ .void) (hw : w.IsRead o' dest)
    (span : Span) : Stored o o' (Lower.assignments span slots v.leaves) v w := by
  obtain ⟨⟨t, ht, halike⟩, rfl⟩ := hr.mono hg hkeeps
  cases ht.symm.trans hw.type
  have hne : w.type ≠ .void := fun heq =>
    hvoid (hv.void.2 ((halike.eq_of_base (heq ▸ hkeeps.good.types.void) rfl).trans heq))
  refine ⟨halike, span, _, rfl, hw.leaves hne, hkeeps.good.slots_nodup dest, fun l hl => ?_⟩
  exact hnew.trans (hkeeps.good.le_of_mem_slots hl)

/-- Storing is typed if both values are. -/
theorem Stored.ok (h : Stored o o' code v w) (hg : o'.Good) (hv : v.Ok o') (hw : w.Ok o')
    (hvoid : v.shape ≠ .void) : Code.Ok o' code := by
  obtain ⟨span, slots, rfl, hleaves, -⟩ := h.slots
  have hvoid' : w.shape ≠ .void := fun heq =>
    hvoid (hv.void.2 ((h.type.eq_of_base (hw.void.1 heq ▸ hg.types.void) rfl).trans (hw.void.1 heq)))
  have htyped := hw.typed hvoid'
  rw [hleaves, forall₂_map_left_iff] at htyped
  refine Lower.assignments_ok span ?_ (hv.typed hvoid)
  refine TypeGraph.forall₂_trans (fun l a b hl hab => ?_) htyped (h.type.leafTypes hg.types.toSound)
  cases hl with
  | var hl => exact ⟨a, hl, hab⟩

theorem Stored.emits {free : Bool} (h : Stored o o' code v w) (hg : o'.Good) (hv : v.Ok o')
    (hw : w.Ok o') (hvoid : v.shape ≠ .void) : Emits free o o' code :=
  ⟨h.ok hg hv hw hvoid, fun _ => h.spares⟩

namespace Lower

variable {s s' : Session}

/-- The value of a block is kept in a variable outside it. -/
theorem keepValue_stored (hg : s.outline.Good) (hv : v.Ok s.outline)
    (h : keepValue v span s = .ok (code, w) s') :
    s.outline.Steps s'.outline ∧ w.Ok s'.outline ∧
      (v.shape = .void ∧ code = [] ∧ w = v ∨
        v.shape ≠ .void ∧ Stored s.outline s'.outline code v w) := by
  rcases keepValue_ok h with ⟨hvoid, rfl, rfl, rfl⟩ | ⟨dest, s₁, s₂, hdest, hstore, hvalue⟩
  · exact ⟨.refl hg, hv, .inl ⟨hvoid, rfl, rfl⟩⟩
  · obtain ⟨rfl, hs₁⟩ := newTemp_ok hdest
    have hnew : s.outline.Steps s₁.outline := by
      rw [hs₁]
      exact .pushFresh hg
    have hv₁ := hv.mono hg hnew.keeps
    obtain ⟨hsteps, -, hvoid, slots, hfills, rfl⟩ := storeInto_fills hnew.good hv₁ hstore
    have hread : s₂.outline.Readable s.outline.vars.length := readable_fresh hg (hs₁ ▸ hsteps.keeps)
    obtain ⟨rfl, hw, hisRead⟩ := valueOf_isRead hsteps.good hread hvalue
    cases hfills with
    | var _ hr =>
      refine ⟨hnew.trans hsteps, hw, .inr ⟨hvoid, ?_⟩⟩
      exact .of_receives (Nat.le_refl _) hsteps.good hr (Steps.refl hsteps.good).keeps
        (hv₁.mono hnew.good hsteps.keeps) hvoid hisRead span

/-- Both branches of a conditional with a value store it into the same variable. -/
theorem joinBranches_stored {yesCode noCode yesCode' : Code} {yes : Value}
    {no : Option (Code × Value)} (hg : s.outline.Good) (hyes : yes.Ok s.outline)
    (hno : ∀ c w, no = some (c, w) → w.Ok s.outline)
    (h : joinBranches (yesCode, yes) no span s = .ok (yesCode', noCode, v) s') :
    s.outline.Steps s'.outline ∧ v.Ok s'.outline ∧
      (yes.shape = .void ∧ yesCode' = yesCode ∧ noCode = (no.map Prod.fst).getD [] ∧
          v = .void span ∧ (∀ c w, no = some (c, w) → w.shape = .void) ∨
        yes.shape ≠ .void ∧ ∃ c w a b, no = some (c, w) ∧ w.shape ≠ .void ∧
          yesCode' = yesCode ++ a ∧ noCode = c ++ b ∧
          Stored s.outline s'.outline a yes v ∧ Stored s.outline s'.outline b w v) := by
  rcases joinBranches_ok h with ⟨hvoid, rfl, rfl, rfl, rfl, hmatch⟩ |
    ⟨c, w, dest, s₁, s₂, s₃, a, b, rfl, -, hdest, hyesStore, hnoStore, hvalue, rfl, rfl⟩
  · refine ⟨.refl hg, Value.ok_void hg span, .inl ⟨hvoid, rfl, rfl, rfl, fun c w hcw => ?_⟩⟩
    obtain ⟨after, hmatch⟩ := hmatch c w hcw
    have hw := hno c w hcw
    have halike : s'.types.Alike false yes.type w.type :=
      TypeGraph.alike_of_matchTypes hg.types.toSound hyes.value.lt_size hw.value.lt_size hmatch
    have htype := hyes.void.1 hvoid
    rw [htype] at halike
    exact hw.void.2 (halike.eq_of_base hg.types.void rfl)
  · obtain ⟨rfl, hs₁⟩ := newTemp_ok hdest
    have hw := hno c w rfl
    have hnew : s.outline.Steps s₁.outline := by
      rw [hs₁]
      exact .pushFresh hg
    have hyes₁ := hyes.mono hg hnew.keeps
    obtain ⟨hsteps, -, hvoid, slots, hfills, rfl⟩ := storeInto_fills hnew.good hyes₁ hyesStore
    have hw₂ := hw.mono hg (hnew.trans hsteps).keeps
    obtain ⟨hsteps', -, hvoid', slots', hfills', rfl⟩ := storeInto_fills hsteps.good hw₂ hnoStore
    have hread : s₃.outline.Readable s.outline.vars.length :=
      readable_fresh hg (hs₁ ▸ (hsteps.trans hsteps').keeps)
    obtain ⟨rfl, hv, hisRead⟩ := valueOf_isRead hsteps'.good hread hvalue
    cases hfills with
    | var _ hr =>
      cases hfills' with
      | var _ hr' =>
        refine ⟨(hnew.trans hsteps).trans hsteps', hv, .inr ⟨hvoid, c, w, _, _, rfl, hvoid', rfl,
          rfl, ?_, ?_⟩⟩
        · exact .of_receives (Nat.le_refl _) hsteps.good hr hsteps'.keeps
            (hyes₁.mono hnew.good hsteps.keeps) hvoid hisRead yes.span
        · exact .of_receives (Nat.le_refl _) hsteps'.good hr' (Steps.refl hsteps'.good).keeps
            (hw₂.mono hsteps.good hsteps'.keeps) hvoid' hisRead w.span

/-! ## Loops -/

theorem Expanded.of_typed {i : VarInfo} (hun : i.type = none) {type : TypeId} {slots : List VarId}
    (h : Expanded (o.modify id fun j => { j with type := some type }) id
      { i with type := some type } type slots o') : Expanded o id i type slots o' := by
  have htyped : typed (o.modify id fun j => { j with type := some type }) id
      { i with type := some type } type = typed o id i type := by
    rw [typed, if_neg (by simp), typed, if_pos hun]
  have hlen : (o.modify id fun j => { j with type := some type }).vars.length = o.vars.length :=
    length_modify _ _ _
  cases h with
  | real hk hitems =>
    rw [htyped]
    exact .real hk hitems
  | virtual hk hl =>
    rw [htyped]
    exact .virtual hk hl
  | spread hk hl ht =>
    rw [htyped, hlen]
    exact .spread hk hl ht

theorem mem_loops_of_target {ref : LoopRef} (h : o.target label = some ref) :
    ∃ l, (l, ref) ∈ o.loops := by
  cases label with
  | none =>
    obtain ⟨⟨l, ref'⟩, hl, rfl⟩ := Option.map_eq_some_iff.1 h
    exact ⟨l, mem_of_mem_head? hl⟩
  | some label =>
    obtain ⟨⟨l, ref'⟩, hl, rfl⟩ := Option.map_eq_some_iff.1 h
    exact ⟨l, mem_of_find?_eq_some hl⟩

/-- The slots of the variable of an open loop are reserved for its value. -/
theorem reserved_of_mem_slots {ref : LoopRef} (h : (label, ref) ∈ o.loops) {l : VarId}
    (hl : l ∈ o.slots ref.var) : o.Reserved l := by
  refine ⟨label, ref, h, ?_⟩
  cases hls : o.leavesOf ref.var with
  | none =>
    rw [slots_of_none hls] at hl
    exact .inl (mem_singleton.1 hl)
  | some ls =>
    rw [slots_of_some hls] at hl
    exact .inr ⟨ls, rfl, hl⟩

/-- The variable of a loop is shaped after a value that has fixed its type just now. -/
theorem fixed_receives {ref : LoopRef} {s₁ : Session} {valueSpan : Span} {slots : List VarId}
    {type : TypeId} {i : VarInfo} (hg : s.outline.Good) (hvalue : s.types.IsValue type)
    (hi : s.outline.info ref.var = some i) (hun : i.type = none)
    (hs₁ : s₁.outline = s.outline.modify ref.var fun j => { j with type := some type })
    (h : expandVar ref.var type valueSpan s₁ = .ok slots s') :
    s.outline.Steps s'.outline ∧ s'.outline.Receives ref.var type slots := by
  obtain ⟨j, hj, -, hexpanded⟩ := expandVar_ok h
  rw [hs₁, info_modify, if_pos rfl, hi] at hj
  cases hj
  rw [hs₁] at hexpanded
  obtain ⟨hsteps, ht, hslots⟩ :=
    Outline.Expanded.fresh hg hi hun hvalue (Expanded.of_typed hun hexpanded)
  exact ⟨hsteps, ⟨_, ht, .refl _ _ _⟩, hslots⟩

/-- The variable of a loop takes the value that the loop is left with. -/
theorem leaveWith_takes (hg : s.outline.Good) (hv : v.Ok s.outline)
    (h : leaveWith label v span s = .ok (code, w) s') :
    s.outline.Steps s'.outline ∧ w = .void span ∧ ∃ ref stores,
      s.outline.target label = some ref ∧ s'.outline.Takes ref.var v.type ∧
      code = stores ++ [.leave span ref.loop] ∧
      (v.shape = .void ∧ stores = [] ∨
        v.shape ≠ .void ∧ stores = assignments span (s'.outline.slots ref.var) v.leaves) := by
  obtain ⟨rfl, ref, i, s₁, stores, htarget, hi, htypes, htyped, hstores, rfl⟩ := leaveWith_ok h
  suffices hall : s.outline.Steps s'.outline ∧ s'.outline.Takes ref.var v.type ∧
      (v.shape = .void ∧ stores = [] ∨
        v.shape ≠ .void ∧ stores = assignments span (s'.outline.slots ref.var) v.leaves) from
    ⟨hall.1, rfl, ref, stores, htarget, hall.2.1, rfl, hall.2.2⟩
  rcases htyped with ⟨hun, hs₁⟩ | ⟨t, sp, after, ht, rfl, hmatch⟩
  · rcases hstores with ⟨hvoid, rfl, rfl⟩ | ⟨hvoid, slots, hexpand, rfl⟩
    · have hreal := (hg.vars _ i hi).untyped hun
      have heq : s'.outline = typed s.outline ref.var i v.type := by
        rw [hs₁, typed, if_pos hun]
      have hk : s.outline.types.kind v.type = .ok .void := by
        rw [hv.void.1 hvoid]
        exact hg.types.void
      obtain ⟨hsteps, ht, -⟩ := Outline.Expanded.fresh hg hi hun hv.value
        (heq ▸ .real hk rfl : Expanded s.outline ref.var i v.type [ref.var] s'.outline)
      exact ⟨hsteps, ⟨_, ht, .refl _ _ _⟩, .inl ⟨hvoid, rfl⟩⟩
    · obtain ⟨hsteps, hr⟩ := fixed_receives hg hv.value hi hun hs₁ hexpand
      exact ⟨hsteps, hr.type, .inr ⟨hvoid, by rw [hr.slots]⟩⟩
  · rcases hstores with ⟨hvoid, rfl, rfl⟩ | ⟨hvoid, slots, hexpand, rfl⟩
    · have halike : s'.types.Alike false t v.type := TypeGraph.alike_of_matchTypes hg.types.toSound
        ((hg.vars _ i hi).value t ht).lt_size hv.value.lt_size hmatch
      exact ⟨.refl hg, ⟨t, typeOf_eq_some_iff.2 ⟨i, hi, ht⟩, halike⟩, .inl ⟨hvoid, rfl⟩⟩
    · obtain ⟨hsteps, hr⟩ := expandVar_receives hg hv.value hexpand
      exact ⟨hsteps, hr.type, .inr ⟨hvoid, by rw [hr.slots]⟩⟩

theorem loopValue_isRead (hg : s.outline.Good) (hread : s.outline.Readable id)
    (h : loopValue id span s = .ok v s') :
    s' = s ∧ v.Ok s.outline ∧ (s.outline.typeOf id = none ∧ v = .void span ∨ v.IsRead s.outline id) := by
  obtain ⟨i, hi, ⟨hun, rfl, rfl⟩ | ⟨-, hvalue⟩⟩ := loopValue_ok h
  · refine ⟨rfl, Value.ok_void hg span, .inl ⟨?_, rfl⟩⟩
    simp [typeOf, hi, hun]
  · obtain ⟨rfl, hv, hisRead⟩ := valueOf_isRead hg hread hvalue
    exact ⟨rfl, hv, .inr hisRead⟩

end Lower

end SlotCode
