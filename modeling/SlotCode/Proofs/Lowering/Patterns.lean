import SlotCode.Proofs.Lowering.Storing
import SlotCode.Proofs.Source.Overwrites

/-!
# Targets of assignments

Binding the names of a target declares one variable after the other (`Outline.Declared`), so its
variables are new and successive.  Shaping the target after the type of a value gives slots for the
leaves of the value (`Outline.Fills`), and storing the value writes those slots and no others.
-/

namespace SlotCode

open List

variable {pattern : Pattern} {type : TypeId} {slots : List VarId} {l : VarId}

namespace Pattern

mutual

/-- The variables of a pattern from left to right. -/
def vars : Pattern → List VarId
  | .var id _ => [id]
  | .tuple items _ => varsAll items

def varsAll : List Pattern → List VarId
  | [] => []
  | item :: items => vars item ++ varsAll items

end

end Pattern

namespace Outline

variable {o o' o'' : Outline}

/-! ## Names -/

/-- The outline `o'` comes after `o`, and the innermost context has got the new names. -/
structure Adds (o o' : Outline) (new : List (String × VarId)) : Prop where
  grows : o.Grows o'
  good : o'.Good
  frames : ∃ frame rest, o.frames = frame :: rest ∧
    o'.frames = { frame with names := new ++ frame.names } :: rest

theorem Adds.refl (hg : o.Good) (hf : o.frames ≠ []) : o.Adds o [] := by
  obtain ⟨frame, rest, heq⟩ := exists_cons_of_ne_nil hf
  exact ⟨.refl o, hg, frame, rest, heq, heq⟩

theorem Steps.adds (h : o.Steps o') (hf : o.frames ≠ []) : o.Adds o' [] := by
  obtain ⟨frame, rest, heq⟩ := exists_cons_of_ne_nil hf
  exact ⟨h.grows, h.good, frame, rest, heq, h.frames.trans heq⟩

theorem Adds.trans {new new' : List (String × VarId)} (h : o.Adds o' new) (h' : o'.Adds o'' new') :
    o.Adds o'' (new' ++ new) := by
  obtain ⟨frame, rest, hf, hf'⟩ := h.frames
  obtain ⟨frame', rest', hf₁, hf''⟩ := h'.frames
  cases hf'.symm.trans hf₁
  refine ⟨h.grows.trans h'.grows, h'.good, frame, rest, hf, ?_⟩
  rw [hf'', append_assoc]

theorem Adds.names {new : List (String × VarId)} (h : o.Adds o' new) :
    o'.names = new ++ o.names := by
  obtain ⟨frame, rest, hf, hf'⟩ := h.frames
  rw [Outline.names, Outline.names, hf, hf']
  simp

theorem Adds.loops {new : List (String × VarId)} (h : o.Adds o' new) : o'.loops = o.loops := by
  obtain ⟨frame, rest, hf, hf'⟩ := h.frames
  rw [Outline.loops, Outline.loops, hf, hf']
  rfl

theorem Adds.keeps {new : List (String × VarId)} (h : o.Adds o' new) : o.Keeps o' :=
  ⟨h.grows, by rw [h.loops]; exact Subset.refl _, h.good⟩

theorem Adds.frames_ne {new : List (String × VarId)} (h : o.Adds o' new) : o'.frames ≠ [] := by
  obtain ⟨_, _, -, hf'⟩ := h.frames
  rw [hf']
  nofun

theorem Adds.declare (hg : o.Good) (hf : o.frames ≠ []) (name : String) :
    o.Adds (o.declare name) [(name, o.vars.length)] := by
  obtain ⟨frame, rest, heq⟩ := exists_cons_of_ne_nil hf
  exact ⟨.declare o name, hg.declare heq name, frame, rest, heq, frames_declare heq⟩

mutual

/-- The names of the target have been declared as the variables of the pattern. -/
inductive Declared : Expr → Pattern → Outline → Outline → Prop where
  | var (span : Span) (name : String) (o : Outline) :
      Declared (.var span name) (.var o.vars.length span) o (o.declare name)
  | tuple {targets : List Expr} {items : List Pattern} {o o' : Outline} (span : Span)
      (h : DeclaredEach targets items o o') : Declared (.tuple span targets) (.tuple items span) o o'

/-- The same for targets one after the other. -/
inductive DeclaredEach : List Expr → List Pattern → Outline → Outline → Prop where
  | nil (o : Outline) : DeclaredEach [] [] o o
  | cons {target : Expr} {targets : List Expr} {item : Pattern} {items : List Pattern}
      {o o₁ o' : Outline} (h : Declared target item o o₁) (hs : DeclaredEach targets items o₁ o') :
      DeclaredEach (target :: targets) (item :: items) o o'

end

mutual

theorem Declared.adds {target : Expr} {pattern : Pattern} {o o' : Outline}
    (h : Declared target pattern o o') (hg : o.Good) (hf : o.frames ≠ []) :
    ∃ new, o.Adds o' new ∧ ∃ count, pattern.vars = List.range' o.vars.length count ∧
      o'.vars.length = o.vars.length + count := by
  cases h with
  | var span name =>
    exact ⟨_, .declare hg hf name, 1, rfl, by simp [declare, modifyFrame, push]⟩
  | tuple span h => exact DeclaredEach.adds h hg hf
termination_by sizeOf pattern

theorem DeclaredEach.adds {targets : List Expr} {items : List Pattern} {o o' : Outline}
    (h : DeclaredEach targets items o o') (hg : o.Good) (hf : o.frames ≠ []) :
    ∃ new, o.Adds o' new ∧ ∃ count, Pattern.varsAll items = List.range' o.vars.length count ∧
      o'.vars.length = o.vars.length + count := by
  cases h with
  | nil => exact ⟨[], .refl hg hf, 0, rfl, rfl⟩
  | cons h hs =>
    obtain ⟨new, hadd, count, hvars, hlen⟩ := Declared.adds h hg hf
    obtain ⟨new', hadd', count', hvars', hlen'⟩ := DeclaredEach.adds hs hadd.good hadd.frames_ne
    refine ⟨_, hadd.trans hadd', count + count', ?_, by rw [hlen', hlen, Nat.add_assoc]⟩
    rw [Pattern.varsAll, hvars, hvars', hlen, range'_append_1]
termination_by sizeOf items

end

mutual

/-- The names that a target declares are those of the variables of its pattern. -/
theorem Declared.name_cases {o o' : Outline} {target : Expr} {pattern : Pattern}
    (h : Declared target pattern o o') {name : String} {id : VarId} (hmem : (name, id) ∈ o'.names) :
    (name, id) ∈ o.names ∨ id ∈ pattern.vars := by
  cases h with
  | var span declared =>
    cases hf : o.frames with
    | nil =>
      simp [names, declare, modifyFrame, push, hf] at hmem
    | cons frame frames =>
      rw [names, frames_declare hf] at hmem
      rw [names, hf]
      rcases mem_cons.1 hmem with heq | hmem
      · cases heq
        exact .inr mem_cons_self
      · exact .inl hmem
  | tuple span h => exact DeclaredEach.name_cases h hmem
termination_by sizeOf pattern

theorem DeclaredEach.name_cases {o o' : Outline} {targets : List Expr} {items : List Pattern}
    (h : DeclaredEach targets items o o') {name : String} {id : VarId}
    (hmem : (name, id) ∈ o'.names) : (name, id) ∈ o.names ∨ id ∈ Pattern.varsAll items := by
  cases h with
  | nil => exact .inl hmem
  | cons h hs =>
    rw [Pattern.varsAll, mem_append]
    rcases DeclaredEach.name_cases hs hmem with hmem | hmem
    · exact (Declared.name_cases h hmem).imp_right .inl
    · exact .inr (.inr hmem)
termination_by sizeOf items

end

/-! ## Slots -/

mutual

/-- The pattern has been shaped after the type, and the slots receive the leaves. -/
inductive Fills (o : Outline) : Pattern → TypeId → List VarId → Prop where
  | var {id : VarId} {type : TypeId} {slots : List VarId} (span : Span)
      (h : o.Receives id type slots) : Fills o (.var id span) type slots
  | tuple {items : List Pattern} {type : TypeId} {types : List TypeId} {slots : List VarId}
      (span : Span) (hk : o.types.kind type = .ok (.tuple types))
      (h : FillsEach o items types slots) : Fills o (.tuple items span) type slots

/-- The same for the items of a tuple. -/
inductive FillsEach (o : Outline) : List Pattern → List TypeId → List VarId → Prop where
  | nil : FillsEach o [] [] []
  | cons {item : Pattern} {items : List Pattern} {type : TypeId} {types : List TypeId}
      {head rest : List VarId} (h : Fills o item type head) (hs : FillsEach o items types rest) :
      FillsEach o (item :: items) (type :: types) (head ++ rest)

end

mutual

theorem Fills.mono {pattern : Pattern} {type : TypeId} {slots : List VarId} (hg : o.Good)
    (hkeeps : o.Keeps o') (h : o.Fills pattern type slots) : o'.Fills pattern type slots := by
  cases h with
  | var span h => exact .var span (h.mono hg hkeeps)
  | tuple span hk h => exact .tuple span (hkeeps.grows.types _ _ hk) (FillsEach.mono hg hkeeps h)
termination_by sizeOf pattern

theorem FillsEach.mono {items : List Pattern} {types : List TypeId} {slots : List VarId}
    (hg : o.Good) (hkeeps : o.Keeps o') (h : o.FillsEach items types slots) :
    o'.FillsEach items types slots := by
  cases h with
  | nil => exact .nil
  | cons h hs => exact .cons (Fills.mono hg hkeeps h) (FillsEach.mono hg hkeeps hs)
termination_by sizeOf items

end

mutual

/-- The slots are those of the variables, from left to right. -/
theorem Fills.slots_eq {pattern : Pattern} {type : TypeId} {slots : List VarId}
    (h : o.Fills pattern type slots) : slots = pattern.vars.flatMap o.slots := by
  cases h with
  | var span h => simp [Pattern.vars, h.slots]
  | tuple span hk h => exact FillsEach.slots_eq h
termination_by sizeOf pattern

theorem FillsEach.slots_eq {items : List Pattern} {types : List TypeId} {slots : List VarId}
    (h : o.FillsEach items types slots) : slots = (Pattern.varsAll items).flatMap o.slots := by
  cases h with
  | nil => rfl
  | cons h hs =>
    rw [Pattern.varsAll, flatMap_append, ← Fills.slots_eq h, ← FillsEach.slots_eq hs]
termination_by sizeOf items

end

mutual

/-- The variables of a pattern that has been shaped have types. -/
theorem Fills.typed {o : Outline} {pattern : Pattern} {type : TypeId} {slots : List VarId}
    (h : o.Fills pattern type slots) : ∀ id ∈ pattern.vars, ∃ t, o.typeOf id = some t := by
  cases h with
  | var span h =>
    intro id hid
    obtain ⟨t, ht, -⟩ := h.type
    rw [mem_singleton.1 hid]
    exact ⟨t, ht⟩
  | tuple span _ h => exact FillsEach.typed h
termination_by sizeOf pattern

theorem FillsEach.typed {o : Outline} {items : List Pattern} {types : List TypeId}
    {slots : List VarId} (h : o.FillsEach items types slots) :
    ∀ id ∈ Pattern.varsAll items, ∃ t, o.typeOf id = some t := by
  cases h with
  | nil => exact forall_mem_nil _
  | cons h hs =>
    rw [Pattern.varsAll, forall_mem_append]
    exact ⟨Fills.typed h, FillsEach.typed hs⟩
termination_by sizeOf items

end

theorem Receives.takes (hg : o.Good) {id : VarId} (h : o.Receives id type slots) :
    Forall₂ o.Takes slots (o.types.leafTypes type) := by
  obtain ⟨⟨t, ht, halike⟩, rfl⟩ := h
  exact TypeGraph.forall₂_trans (fun l a b hl hab => ⟨a, hl, hab⟩) (hg.slots_typed ht)
    (halike.leafTypes hg.types.toSound)

mutual

/-- Each slot takes a leaf of its type. -/
theorem Fills.takes (hg : o.Good) {pattern : Pattern} {type : TypeId} {slots : List VarId}
    (h : o.Fills pattern type slots) : Forall₂ o.Takes slots (o.types.leafTypes type) := by
  cases h with
  | var span h => exact h.takes hg
  | tuple span hk h =>
    rw [TypeGraph.leafTypes_tuple hg.types.toSound hk]
    exact FillsEach.takes hg h
termination_by sizeOf pattern

theorem FillsEach.takes (hg : o.Good) {items : List Pattern} {types : List TypeId}
    {slots : List VarId} (h : o.FillsEach items types slots) :
    Forall₂ o.Takes slots (types.flatMap o.types.leafTypes) := by
  cases h with
  | nil => exact .nil
  | cons h hs => exact rel_append (Fills.takes hg h) (FillsEach.takes hg hs)
termination_by sizeOf items

end

end Outline

namespace Lower

open Outline

variable {s s' : Session}

section

variable {mode mode' : BindMode} {pattern : Pattern} {target : Expr} {targets : List Expr}
  {items : List Pattern}

theorem bindPattern_var {span : Span} {name : String}
    (h : bindPattern mode (.var span name) s = .ok (pattern, mode') s') :
    ∃ id, bindName name span mode s = .ok (id, mode') s' ∧ pattern = .var id span := by
  simp only [bindPattern, bind_eq_ok_iff, pure_eq_ok_iff, Prod.exists, Prod.mk.injEq] at h
  obtain ⟨id, _, _, hname, ⟨rfl, rfl⟩, rfl⟩ := h
  exact ⟨id, hname, rfl⟩

theorem bindPattern_tuple {span : Span}
    (h : bindPattern mode (.tuple span targets) s = .ok (pattern, mode') s') :
    ∃ items, bindPatterns mode targets s = .ok (items, mode') s' ∧ pattern = .tuple items span := by
  simp only [bindPattern, bind_eq_ok_iff, pure_eq_ok_iff, Prod.exists, Prod.mk.injEq] at h
  obtain ⟨items, _, _, hitems, ⟨rfl, rfl⟩, rfl⟩ := h
  exact ⟨items, hitems, rfl⟩

theorem bindPatterns_cons (h : bindPatterns mode (target :: targets) s = .ok (items, mode') s') :
    ∃ item mode₁ s₁ rest, bindPattern mode target s = .ok (item, mode₁) s₁ ∧
      bindPatterns mode₁ targets s₁ = .ok (rest, mode') s' ∧ items = item :: rest := by
  simp only [bindPatterns, bind_eq_ok_iff, pure_eq_ok_iff, Prod.exists, Prod.mk.injEq] at h
  obtain ⟨item, mode₁, s₁, hitem, rest, _, _, hrest, ⟨rfl, rfl⟩, rfl⟩ := h
  exact ⟨item, mode₁, s₁, rest, hitem, hrest, rfl⟩

end

mutual

/-- The names of the target are declared. -/
theorem bindPattern_declared {bound : List (String × Span)} {target : Expr} {pattern : Pattern}
    {mode : BindMode} {s s' : Session}
    (h : bindPattern (.declare bound) target s = .ok (pattern, mode) s') :
    (∃ bound', mode = .declare bound') ∧ Declared target pattern s.outline s'.outline := by
  cases target with
  | var span name =>
    obtain ⟨id, hname, rfl⟩ := bindPattern_var h
    obtain ⟨hmode, rfl, hs₁⟩ := bindName_declare_ok hname
    refine ⟨hmode, ?_⟩
    rw [hs₁]
    exact .var span name s.outline
  | tuple span targets =>
    obtain ⟨items, hitems, rfl⟩ := bindPattern_tuple h
    obtain ⟨hmode, hd⟩ := bindPatterns_declared hitems
    exact ⟨hmode, .tuple span hd⟩
  | _ => exact absurd h unsupported_ne_ok
termination_by sizeOf target

theorem bindPatterns_declared {bound : List (String × Span)} {targets : List Expr}
    {items : List Pattern} {mode : BindMode} {s s' : Session}
    (h : bindPatterns (.declare bound) targets s = .ok (items, mode) s') :
    (∃ bound', mode = .declare bound') ∧ DeclaredEach targets items s.outline s'.outline := by
  cases targets with
  | nil =>
    cases h
    exact ⟨⟨_, rfl⟩, .nil _⟩
  | cons target targets =>
    obtain ⟨item, _, s₁, rest, hitem, hrest, rfl⟩ := bindPatterns_cons h
    obtain ⟨⟨bound', rfl⟩, hd⟩ := bindPattern_declared hitem
    obtain ⟨hmode, hds⟩ := bindPatterns_declared hrest
    exact ⟨hmode, .cons hd hds⟩
termination_by sizeOf targets

end

mutual

/-- A target of names in scope stands for their variables. -/
theorem bindPattern_resolve_ok {target : Expr} {pattern : Pattern} {mode : BindMode} {s s' : Session}
    (h : bindPattern .resolve target s = .ok (pattern, mode) s') :
    s' = s ∧ mode = .resolve ∧
      ∀ id ∈ pattern.vars, ∃ name, target.targets name = true ∧ s.outline.lookup name = some id := by
  cases target with
  | var span name =>
    obtain ⟨id, hname, rfl⟩ := bindPattern_var h
    obtain ⟨rfl, hmode, hid⟩ := bindName_resolve_ok hname
    refine ⟨rfl, hmode, fun id' hid' => ?_⟩
    cases mem_singleton.1 hid'
    exact ⟨name, beq_self_eq_true name, hid⟩
  | tuple span targets =>
    obtain ⟨items, hitems, rfl⟩ := bindPattern_tuple h
    exact bindPatterns_resolve_ok hitems
  | _ => exact absurd h unsupported_ne_ok
termination_by sizeOf target

theorem bindPatterns_resolve_ok {targets : List Expr} {items : List Pattern} {mode : BindMode}
    {s s' : Session} (h : bindPatterns .resolve targets s = .ok (items, mode) s') :
    s' = s ∧ mode = .resolve ∧ ∀ id ∈ Pattern.varsAll items,
      ∃ name, Expr.targetsAny name targets = true ∧ s.outline.lookup name = some id := by
  cases targets with
  | nil =>
    cases h
    exact ⟨rfl, rfl, forall_mem_nil _⟩
  | cons target targets =>
    obtain ⟨item, _, s₁, rest, hitem, hrest, rfl⟩ := bindPatterns_cons h
    obtain ⟨rfl, rfl, hfirst⟩ := bindPattern_resolve_ok hitem
    obtain ⟨rfl, hmode, hothers⟩ := bindPatterns_resolve_ok hrest
    refine ⟨rfl, hmode, fun id hid => ?_⟩
    rcases mem_append.1 hid with hid | hid
    · obtain ⟨name, hname, hlookup⟩ := hfirst id hid
      exact ⟨name, by rw [Expr.targetsAny, hname, Bool.true_or], hlookup⟩
    · obtain ⟨name, hname, hlookup⟩ := hothers id hid
      exact ⟨name, by rw [Expr.targetsAny, hname, Bool.or_true], hlookup⟩
termination_by sizeOf targets

end

mutual

/-- Shaping a pattern after the type of a value gives it slots. -/
theorem expand_fills {pattern : Pattern} {type : TypeId} {valueSpan : Span} {slots : List VarId}
    {s s' : Session} (hg : s.outline.Good) (hvalue : s.types.IsValue type)
    (h : expand valueSpan pattern type s = .ok slots s') :
    s.outline.Steps s'.outline ∧ s'.outline.Fills pattern type slots := by
  cases pattern with
  | var id span =>
    obtain ⟨hsteps, hr⟩ := expandVar_receives hg hvalue h
    exact ⟨hsteps, .var span hr⟩
  | tuple items span =>
    simp only [expand, bind_eq_ok_iff, askTypes_eq_ok_iff] at h
    obtain ⟨kind, s₁, ⟨hk, rfl⟩, h⟩ := h
    rcases kind.tuple_or_not with ⟨types, rfl⟩ | hitems
    · simp only [TypeKind.items?] at h
      split at h
      · next hlen =>
        obtain ⟨hsteps, hf⟩ := expandEach_fills hg hlen
          (fun t ht => hg.types.parts _ t ⟨_, hk, ht⟩) h
        exact ⟨hsteps, .tuple span (hsteps.grows.types _ _ hk) hf⟩
      · simp only [bind_eq_ok_iff] at h
        obtain ⟨_, _, -, h⟩ := h
        exact absurd h fail_ne_ok
    · simp only [hitems, bind_eq_ok_iff] at h
      obtain ⟨_, _, -, h⟩ := h
      exact absurd h fail_ne_ok
termination_by sizeOf pattern

theorem expandEach_fills {items : List Pattern} {types : List TypeId} {valueSpan : Span}
    {slots : List VarId} {s s' : Session} (hg : s.outline.Good)
    (hlen : types.length = items.length) (hvalue : ∀ t ∈ types, s.types.IsValue t)
    (h : expandEach valueSpan items types s = .ok slots s') :
    s.outline.Steps s'.outline ∧ s'.outline.FillsEach items types slots := by
  cases items with
  | nil =>
    obtain rfl := eq_nil_of_length_eq_zero hlen
    cases h
    exact ⟨.refl hg, .nil⟩
  | cons item items =>
    cases types with
    | nil => cases hlen
    | cons type types =>
      simp only [expandEach, bind_eq_ok_iff, pure_eq_ok_iff] at h
      obtain ⟨head, s₁, hhead, rest, s₂, hrest, rfl, rfl⟩ := h
      obtain ⟨hsteps, hf⟩ := expand_fills hg (hvalue type mem_cons_self) hhead
      obtain ⟨hsteps', hfs⟩ := expandEach_fills hsteps.good (Nat.succ.inj hlen)
        (fun t ht => (hvalue t (mem_cons_of_mem _ ht)).extend hsteps.grows.types) hrest
      exact ⟨hsteps.trans hsteps', .cons (hf.mono hsteps.good hsteps'.keeps) hfs⟩
termination_by sizeOf items

end

/-! ## Storing -/

theorem assignments_ok {o : Outline} {operands : List Operand} {types : List TypeId} (span : Span)
    (hslots : Forall₂ o.Takes slots types)
    (hoperands : Forall₂ (Operand.HasType o.typing) operands types) :
    Code.Ok o (assignments span slots operands) := by
  induction hslots generalizing operands with
  | nil =>
    cases hoperands
    exact .nil
  | cons hslot _ ih =>
    cases hoperands with
    | cons hoperand hoperands =>
      obtain ⟨t, ht, halike⟩ := hslot
      intro c hc
      rcases mem_cons.1 hc with rfl | hc
      · exact .assign ht hoperand halike
      · exact ih hoperands c hc

/-- Only slots are written. -/
theorem writes_assignments (span : Span) (slots : List VarId) (operands : List Operand) :
    (assignments span slots operands).writes ⊆ slots := by
  induction slots generalizing operands with
  | nil => simp [assignments, Code.writes, Command.nestedAll]
  | cons slot slots ih =>
    cases operands with
    | nil => simp [assignments, Code.writes, Command.nestedAll]
    | cons operand operands =>
      intro x hx
      rcases mem_cons.1 hx with rfl | hx
      · exact mem_cons_self
      · exact mem_cons_of_mem _ (ih operands hx)

/-- What storing a value does. -/
theorem storeInto_fills {v : Value} {span : Span} {code : Code} (hg : s.outline.Good)
    (hv : v.Ok s.outline) (h : storeInto pattern v span s = .ok code s') :
    s.outline.Steps s'.outline ∧ Code.Ok s'.outline code ∧ v.shape ≠ .void ∧
      ∃ slots, s'.outline.Fills pattern v.type slots ∧ code = assignments span slots v.leaves := by
  obtain ⟨hvoid, slots, hexpand, rfl⟩ := storeInto_ok h
  obtain ⟨hsteps, hfills⟩ := expand_fills hg hv.value hexpand
  refine ⟨hsteps, ?_, hvoid, slots, hfills, rfl⟩
  exact assignments_ok span (hfills.takes hsteps.good) ((hv.mono hg hsteps.keeps).typed hvoid)

end Lower

/-! ## New variables -/

namespace Outline

variable {o o' : Outline}

/-- Leaves are newer than their variable. -/
theorem Good.le_of_mem_slots (hg : o.Good) {id : VarId} (hl : l ∈ o.slots id) : id ≤ l := by
  cases hls : o.leavesOf id with
  | none =>
    rw [slots_of_none hls] at hl
    exact Nat.le_of_eq (mem_singleton.1 hl).symm
  | some ls =>
    rw [slots_of_some hls] at hl
    obtain ⟨i, hi, hil⟩ := leavesOf_eq_some_iff.1 hls
    have hok := hg.vars id i hi
    cases ht : i.type with
    | none => cases (hok.untyped ht).symm.trans hil
    | some t => exact Nat.le_of_lt ((hok.leaves t ls ht hil).1 l hl)

/-- A pattern of new variables has new slots. -/
theorem Fills.new (hg : o.Good) {n : Nat} (h : o.Fills pattern type slots)
    (hnew : ∀ x ∈ pattern.vars, n ≤ x) (hl : l ∈ slots) : n ≤ l := by
  rw [h.slots_eq] at hl
  obtain ⟨x, hx, hl⟩ := mem_flatMap.1 hl
  exact (hnew x hx).trans (hg.le_of_mem_slots hl)

/-- The slots of new names are new. -/
theorem Declared.le_of_mem_slots {target : Expr} {o₁ : Outline}
    (hdeclared : Declared target pattern o o₁) (hg : o.Good) (hf : o.frames ≠ []) (hg' : o'.Good)
    (hfills : o'.Fills pattern type slots) (hl : l ∈ slots) : o.vars.length ≤ l := by
  obtain ⟨new, -, count, hvars, -⟩ := hdeclared.adds hg hf
  refine hfills.new hg' (fun x hx => ?_) hl
  rw [hvars] at hx
  exact (mem_range'_1.1 hx).1

end Outline

end SlotCode
