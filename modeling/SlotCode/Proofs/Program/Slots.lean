import SlotCode.Proofs.Lowering.Idle
import SlotCode.Proofs.Program.Assigned

/-!
# Slots of programs

The slots of a lowered function are numbered from `0`, each holds one variable, and exactly the real
variables with a type other than `void` have one; all that its code mentions is among the real
variables (`lowerProgram_allots_slots`).
-/

namespace SlotCode

variable {decl : FnDecl} {type : TypeId} {decls : List FnDecl} {f : Function} {s s' : Session}

open Outline Lower Scope List

/-! ## Functions -/

/-- Slots and stored variables belong together. -/
structure Function.Slotted (f : Function) : Prop where
  numbered : ∀ {i : Nat} {l : Local}, f.locals[i]? = some l → l.slot = i
  slot : ∀ {id : VarId} {v : Var} {i : Nat}, f.vars[id]? = some v → (v.slot = some i ↔
    ∃ l, f.locals[i]? = some l ∧ l.var = id ∧ v.type = some l.type)
  needed : ∀ {id : VarId} {v : Var}, f.vars[id]? = some v → (v.slot.isSome ↔ v.stored?.isSome)
  stored : ∀ {i : Nat} {l : Local}, f.locals[i]? = some l →
    ∃ v, f.vars[l.var]? = some v ∧ v.type = some l.type

theorem Var.stored?_eq_some_iff {v : Var} :
    v.stored? = some type ↔ v.isReal = true ∧ v.type = some type ∧ type ≠ .void := by
  unfold stored?
  split
  · next h => simp [h, Option.filter_eq_some_iff]
  · next h => simp [h]

theorem Scope.Tidy.slotted {root : ContextId} {s : Scope} (h : Tidy root s)
    (hids : s.openIds = [root]) (hvars : f.vars = s.table) (hlocals : f.locals = s.locals.toList) :
    f.Slotted := by
  have hentries : ∀ {id : VarId} {v : Var}, f.vars[id]? = some v →
      ∃ entry : OwnedVar, s.vars[id]? = some entry ∧ entry.var = v := by
    intro id v hv
    rw [hvars, table, Array.getElem?_map] at hv
    exact Option.map_eq_some_iff.1 hv
  have hlocal : ∀ i, f.locals[i]? = s.locals[i]? := fun i => by rw [hlocals, Array.getElem?_toList]
  refine ⟨fun hl => (h.stored (hlocal _ ▸ hl)).1, fun {id v i} hv => ?_, fun hv => ?_,
    fun {i l} hl => ?_⟩
  · obtain ⟨entry, hentry, rfl⟩ := hentries hv
    rw [hlocal]
    constructor
    · intro hi
      obtain ⟨type, htype, hl⟩ := h.slot hentry hi
      exact ⟨_, hl, rfl, (Var.stored?_eq_some_iff.1 htype).2.1⟩
    · rintro ⟨l, hl, rfl, -⟩
      obtain ⟨-, entry', hentry', hi⟩ := h.stored hl
      rw [hentry] at hentry'
      cases hentry'
      exact hi
  · obtain ⟨entry, hentry, rfl⟩ := hentries hv
    constructor
    · intro hsome
      obtain ⟨i, hi⟩ := Option.isSome_iff_exists.1 hsome
      obtain ⟨type, htype, -⟩ := h.slot hentry hi
      rw [htype]
      rfl
    · refine h.done hentry ?_
      rw [hids, mem_singleton]
      exact (h.owners hentry).2
  · rw [hlocal] at hl
    obtain ⟨-, entry, hentry, hi⟩ := h.stored hl
    obtain ⟨type, htype, hl'⟩ := h.slot hentry hi
    obtain rfl : type = l.type := congrArg Local.type (Option.some.inj (hl'.symm.trans hl))
    refine ⟨entry.var, ?_, (Var.stored?_eq_some_iff.1 htype).2.1⟩
    rw [hvars, table, Array.getElem?_map, hentry]
    rfl

theorem lowerFunction_slotted (hidle : s.scope.Idle) (h : lowerFunction decl s = .ok f s') :
    s'.scope.Idle ∧ f.Slotted := by
  obtain ⟨s₀, c, s₁, s₂, v, -, hscope, hl⟩ := lowerFunction_cases h
  rw [← hscope] at hidle
  have hparams : Trace true s₀.scope.push s₁.scope :=
    ((declareParams_traces _ _ _).anyTypes hl.params).scope
  have hbody : Trace false s₁.scope s₂.scope :=
    ((tracing.blockOn decl.body fun _ _ _ => trivial).anyTypes hl.body).scope
  have htrace := hparams.trans hbody.weaken
  have htidy := hidle.tidy
  obtain ⟨htidy₂, hids₂⟩ := htrace.tidy htidy.push htidy.root_lt.ne'
  have hids : s₀.scope.openIds = [s₀.scope.current.id] := by
    rw [openIds, hidle.contexts]
    rfl
  have hexit : s₂.exit.scope.openIds = [s₀.scope.current.id] :=
    openIds_pop (hids₂.trans (congrArg (_ :: ·) hids))
  refine ⟨?_, htidy₂.pop.slotted hexit hl.vars hl.locals⟩
  rw [hl.scope]
  exact htidy₂.pop.drain hexit

theorem lowerFunctions_slotted {fs : List Function} (hidle : s.scope.Idle)
    (h : lowerFunctions decls s = .ok fs s') : ∀ f ∈ fs, f.Slotted := by
  induction decls generalizing s fs with
  | nil =>
    cases h
    exact forall_mem_nil _
  | cons decl decls ih =>
    simp only [lowerFunctions, bind_eq_ok_iff, pure_eq_ok_iff] at h
    obtain ⟨f, s₁, hf, fs, s₂, hfs, rfl, rfl⟩ := h
    obtain ⟨hidle₁, hslotted⟩ := lowerFunction_slotted hidle hf
    exact forall_mem_cons.2 ⟨hslotted, ih hidle₁ hfs⟩

/-! ## Programs -/

theorem Scope.register_ok {name : String} {span : Span} {s s' : Scope}
    (h : s.register name type span = .ok s') :
    s' = { s with functions := (name, ⟨type, some span⟩) :: s.functions } := by
  unfold register at h
  split at h
  · cases h
  · exact (Except.ok.inj h).symm

theorem declare_scope (h : Lower.declare decl s = .ok type s') :
    ∃ fs, s'.scope = { s.scope with functions := fs } := by
  simp only [Lower.declare] at h
  split at h <;> simp only [bind_eq_ok_iff, updateTypes_eq_ok_iff, search_eq_ok_iff,
    modifyScope_eq_ok_iff, pure_eq_ok_iff] at h
  · obtain ⟨_, _, ⟨rfl, rfl⟩, _, _, ⟨rfl, rfl⟩, _, _, ⟨rfl, rfl⟩, scope, _, ⟨hscope, rfl⟩, _, _, rfl, rfl,
      rfl⟩ := h
    exact ⟨_, Scope.register_ok hscope⟩
  · obtain ⟨_, _, ⟨rfl, rfl⟩, _, _, ⟨rfl, rfl⟩, _, _, ⟨rfl, rfl⟩, scope, _, ⟨hscope, rfl⟩, _, _, rfl, rfl,
      rfl⟩ := h
    exact ⟨_, Scope.register_ok hscope⟩

theorem declareAll_idle {u : Unit} (hidle : s.scope.Idle) (h : declareAll decls s = .ok u s') :
    s'.scope.Idle := by
  induction decls generalizing s with
  | nil =>
    cases h
    exact hidle
  | cons decl decls ih =>
    simp only [declareAll, bind_eq_ok_iff] at h
    obtain ⟨type, s₁, hdecl, h⟩ := h
    obtain ⟨fs, hscope⟩ := declare_scope hdecl
    exact ih (hscope ▸ hidle.setFunctions fs) h

theorem lowerProgram_slotted {config : Config} {p : Program}
    (h : lowerProgram config decls .initial = .ok p s) : ∀ f ∈ p.functions, f.Slotted := by
  obtain ⟨s₁, s₂, s₃, fs, hstart, hdeclare, hlower, rfl⟩ := lowerProgram_cases h
  have hidle : s₁.scope.Idle := by
    rcases hstart with hn | rfl
    · cases hn
      exact Scope.initial_idle.setFunctions _
    · exact Scope.initial_idle
  exact lowerFunctions_slotted (declareAll_idle hidle hdeclare) hlower

/-- Variables that are real in the outline are so in the table. -/
theorem Compiled.var_of_real {params : List TypeId} {s₁ s₂ : Session} {v : Value}
    (hc : Compiled decls decl f params s s₁ s₂ v) {id : VarId} (h : s₂.outline.Real id) :
    ∃ var type, f.vars[id]? = some var ∧ var.isReal = true ∧
      var.type = some type := by
  obtain ⟨⟨type, htype⟩, hslots⟩ := h
  obtain ⟨i, hi, hit⟩ := typeOf_eq_some_iff.1 htype
  have hmem := hi
  rw [Outline.info, hc.vars, getElem?_map, Array.getElem?_toList] at hmem
  obtain ⟨var, hvar, rfl⟩ := Option.map_eq_some_iff.1 hmem
  refine ⟨var, type, hvar, ?_, hit⟩
  -- A virtual variable is not a leaf of its own.
  cases hl : var.leaves with
  | none => rw [Var.isReal, hl]; rfl
  | some ls =>
    have hleaves : s₂.outline.leavesOf id = some ls := (leavesOf_eq hi).trans hl
    rw [slots, hleaves, Option.getD_some] at hslots
    obtain ⟨t, hinfo⟩ := hc.lowered.1.good.leaf_info hleaves (hslots ▸ mem_singleton_self id)
    rw [hi] at hinfo
    rw [show var.leaves = none from congrArg VarInfo.leaves (Option.some.inj hinfo)] at hl
    cases hl

/-- The variables that receive the arguments are real. -/
theorem Outline.Bound.real {params : List Param} {types : List TypeId} {slots : List VarId}
    {o o' : Outline} (h : Bound params types slots o o') (hg : o.Good) (hf : o.frames ≠ []) :
    ∀ id ∈ slots, o'.Real id := by
  induction h with
  | nil o => exact forall_mem_nil _
  | @cons param params type types rest o o₁ o' hsteps htype h ih =>
    have hadds := Adds.shaped hg hf hsteps
    obtain ⟨new, hrest⟩ := h.adds hsteps.good hadds.frames_ne
    refine forall_mem_append.2 ⟨fun id hid => ?_, ih hsteps.good hadds.frames_ne⟩
    obtain ⟨t, ht, hid⟩ := TypeGraph.exists_of_forall₂ (hsteps.good.slots_typed htype) hid
    exact Real.mono hsteps.good hrest.good hrest.grows (hsteps.good.real_of_type hid
      (hsteps.good.leaf_not_tuple (hsteps.good.isValue htype) ht))

/-- The variables that the function mentions. -/
def Function.mentions (f : Function) : List VarId :=
  f.args ++ Operand.readsAll f.value ++ (Command.nestedAll f.code).flatMap fun c => c.reads ++ c.writes

/-- All that the function mentions is real. -/
theorem Compiled.mentions_real {params : List TypeId} {s₁ s₂ : Session} {v : Value}
    (hc : Compiled decls decl f params s s₁ s₂ v) : ∀ id ∈ f.mentions, s₂.outline.Real id := by
  obtain ⟨new, hadds⟩ := hc.adds
  obtain ⟨hsteps, -, -⟩ := hc.lowered
  have hargs : ∀ id ∈ f.args, s₂.outline.Real id := fun id hid =>
    Real.mono hadds.good hsteps.good hsteps.grows
      (hc.bound.real hc.prepared.good.enter s.enter.frames_ne id hid)
  obtain ⟨hvalue, hcode⟩ := hc.assigns.mentions hargs
  rw [Function.mentions, forall_mem_append, forall_mem_append, forall_mem_flatMap]
  exact ⟨⟨hargs, hvalue⟩, hcode⟩

/-- Slots are numbered in order, a variable has a slot exactly if it is stored there with its type, the
variables that have one are the real ones with a type other than `void`, and no other variable is
mentioned in a function, but for those of type `void`. -/
theorem lowerProgram_allots_slots (config : Config) (decls : List FnDecl) (p : Program) (s : Session)
    (h : lowerProgram config decls .initial = .ok p s) :
    ∀ f ∈ p.functions,
      (∀ (i : Nat) (l : Local), f.locals[i]? = some l → l.slot = i) ∧
      (∀ (id : VarId) (v : Var), f.vars[id]? = some v →
        (∀ i, v.slot = some i ↔ ∃ l, f.locals[i]? = some l ∧ l.var = id ∧ v.type = some l.type) ∧
        (v.slot.isSome ↔ v.isReal = true ∧ ∃ type, v.type = some type ∧ type ≠ .void)) ∧
      (∀ (id id' : VarId) (v v' : Var) (i : Nat), f.vars[id]? = some v → f.vars[id']? = some v' →
        v.slot = some i → v'.slot = some i → id = id') ∧
      ∀ id ∈ f.mentions, ∃ (v : Var) (type : TypeId), f.vars[id]? = some v ∧ v.isReal = true ∧
        v.type = some type ∧ (type ≠ .void → v.slot.isSome) := by
  obtain ⟨d, hb⟩ := built_of_lowerProgram h
  intro f hf
  have hslotted := lowerProgram_slotted h f hf
  obtain ⟨decl, -, params, t, t₁, t₂, v, hc, -⟩ := TypeGraph.exists_of_forall₂ hb.functions.flip hf
  refine ⟨fun i l => hslotted.numbered, fun id v hv => ⟨fun i => hslotted.slot hv, ?_⟩, ?_, ?_⟩
  · simp only [hslotted.needed hv, Option.isSome_iff_exists, Var.stored?_eq_some_iff, exists_and_left]
  · intro id id' v v' i hv hv' hi hi'
    obtain ⟨l, hl, rfl, -⟩ := (hslotted.slot hv).1 hi
    obtain ⟨l', hl', rfl, -⟩ := (hslotted.slot hv').1 hi'
    rw [Option.some.inj (hl.symm.trans hl')]
  · intro id hid
    obtain ⟨v, type, hv, hreal, htype⟩ := hc.var_of_real (hc.mentions_real id hid)
    refine ⟨v, type, hv, hreal, htype, fun hvoid => ?_⟩
    rw [hslotted.needed hv, Var.stored?_eq_some_iff.2 ⟨hreal, htype, hvoid⟩]
    rfl

/-- A function with a virtual parameter and one of type `void`. -/
def mixedDecls : List FnDecl :=
  let at0 : Span := ⟨0, 0⟩
  [{  name := "mixed"
      params := [⟨"pair", at0, .tuple at0 [.integer at0, .boolean at0]⟩, ⟨"unit", at0, .void at0⟩]
      result := .integer at0
      body := .mk at0
        [.bind at0 (.tuple at0 [.var at0 "number", .var at0 "truth"]) (.var at0 "pair"),
          .yield at0 (.cond at0 (.var at0 "truth") (.var at0 "number") (some (.int at0 0)))]
      span := at0 }]

theorem lowerProgram_allots_slots_mixed :
    ∃ p s f, lowerProgram .library mixedDecls .initial = .ok p s ∧ f ∈ p.functions ∧
      f.args = [1, 2, 3] ∧ f.vars.map Var.slot = #[none, some 3, some 4, none, some 0, some 1, some 2] ∧
      (∀ (i : Nat) (l : Local), f.locals[i]? = some l → l.slot = i) ∧
      ∀ id ∈ f.mentions, ∃ (v : Var) (type : TypeId), f.vars[id]? = some v ∧ v.isReal = true ∧
        v.type = some type ∧ (type ≠ .void → v.slot.isSome) := by
  have hrun : succeeds (fun p : Program => decide (p.functions.map Function.args = [[1, 2, 3]] ∧
      p.functions.map (fun f => f.vars.map Var.slot) =
        [#[none, some 3, some 4, none, some 0, some 1, some 2]]))
      (lowerProgram .library mixedDecls .initial) = true := by
    decide +kernel
  obtain ⟨p, s, h, hcheck⟩ := exists_ok_of_succeeds hrun
  obtain ⟨hargs, hslots⟩ := of_decide_eq_true hcheck
  obtain ⟨f, hf⟩ := List.length_eq_one_iff.1 ((List.length_map _).symm.trans (congrArg List.length hargs))
  rw [hf, List.map_singleton, List.cons_eq_cons] at hargs hslots
  have hmem : f ∈ p.functions := hf ▸ List.mem_cons_self
  obtain ⟨hnumbered, -, -, hmentions⟩ := lowerProgram_allots_slots .library mixedDecls p s h f hmem
  exact ⟨p, s, f, h, hmem, hargs.1, hslots.1, hnumbered, hmentions⟩

end SlotCode
