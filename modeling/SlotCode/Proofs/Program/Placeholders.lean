import SlotCode.Proofs.Lowering.Annotations
import SlotCode.Proofs.Program.Whole

/-!
# Placeholders in bodies

Placeholders are meant for the types of functions.  A variable of a lowered function has a type with a
placeholder exactly if one is written in the type of a parameter or in the body
(`lowerProgram_concrete_iff`): calls fill in those of the function that is called, and nothing else makes
any.

A placeholder in the body is not rejected, so the types of the parameters and of the result alone say
nothing about the variables (`lowerProgram_keeps_stray_placeholder`).
-/

namespace SlotCode

open Outline Lower

theorem TypeExpr.allConcrete_iff {types : List TypeExpr} :
    TypeExpr.allConcrete types = true ↔ ∀ type ∈ types, type.isConcrete = true := by
  induction types with
  | nil => simp [allConcrete]
  | cons type types ih => simp [allConcrete, ih]

/-- Each parameter has a variable of its type. -/
theorem Outline.Bound.shows {params : List Param} {types : List TypeId} {slots : List VarId}
    {o o' : Outline} (h : Bound params types slots o o') (hg : o.Good) (hf : o.frames ≠ []) :
    ∀ type ∈ types, ∃ id, o'.typeOf id = some type := by
  induction h with
  | nil => exact List.forall_mem_nil _
  | cons hsteps htype hrest ih =>
    have hadds := Adds.shaped hg hf hsteps
    obtain ⟨new, hadds'⟩ := hrest.adds hadds.good hadds.frames_ne
    exact List.forall_mem_cons.2 ⟨⟨_, hadds'.grows.typeOf htype⟩, ih hadds.good hadds.frames_ne⟩

/-- The names of parameters stand for variables with types. -/
theorem Outline.Bound.settled {params : List Param} {types : List TypeId} {slots : List VarId}
    {o o' : Outline} (h : Bound params types slots o o') (hs : o.Settled) (hf : o.frames ≠ []) :
    o'.Settled := by
  induction h with
  | nil => exact hs
  | cons hsteps htype _ ih =>
    have hadds := Adds.shaped hs.good hf hsteps
    refine ih ⟨hadds.good, fun name id hmem => ?_⟩ hadds.frames_ne
    rw [hadds.names, List.singleton_append, List.mem_cons] at hmem
    rcases hmem with heq | hmem
    · cases heq
      exact ⟨_, htype⟩
    · obtain ⟨t, ht⟩ := hs.typed name id hmem
      exact ⟨t, hadds.grows.typeOf ht⟩

/-- The types that are written in a declaration, but for its result. -/
def FnDecl.annotations (decl : FnDecl) : List TypeExpr :=
  decl.params.map Param.type ++ decl.body.annotations

/-- No placeholder can be reached from the type of any variable of the function. -/
def Function.ConcreteVars (g : TypeGraph) (f : Function) : Prop :=
  ∀ (id : VarId) (v : Var) (type : TypeId), f.vars[id]? = some v → v.type = some type → g.Concrete type

section

variable {decls : List FnDecl} {g : TypeGraph} {decl : FnDecl} {f : Function}

/-- Where no placeholder is written, no variable has one in its type. -/
theorem LoweredAtRest.concreteVars (h : LoweredAtRest decls g decl f) (hdecl : decl ∈ decls)
    (hc : ∀ type ∈ decl.annotations, type.isConcrete = true) : f.ConcreteVars g := by
  obtain ⟨s, s', hs, hp, hrun, hext⟩ := h
  obtain ⟨hparams, hbody⟩ := List.forall_mem_append.1 hc
  obtain ⟨s₀, c, s₁, s₂, v, htypes, hscope, hl⟩ := lowerFunction_cases hrun
  have houtline := Session.outline_congr htypes hscope
  have hs₀ : s₀.outline.Whole false := houtline ▸ hs.whole false
  obtain ⟨-, hdenotes⟩ := callee_signs (houtline ▸ hp) hdecl hl.callee hl.named
  have hcparams : ∀ p ∈ c.params, s₀.types.Whole false p :=
    hdenotes.whole hs₀.good.types _ fun _ => TypeExpr.allConcrete_iff.2 hparams
  obtain ⟨-, hs₂⟩ := hl.whole hs₀ hcparams fun type htype _ => hbody type htype
  rw [hl.types] at hext
  intro id w type hw htype
  obtain ⟨hlt, hwhole⟩ := hl.var_whole hs₂ hw htype
  exact hwhole.concrete.extend hs₂.good.types.toSound hext hlt

/-- A placeholder that is written can be reached from the type of some variable. -/
theorem LoweredAtRest.isConcrete (h : LoweredAtRest decls g decl f) (hdecl : decl ∈ decls)
    (hf : f.ConcreteVars g) : ∀ type ∈ decl.annotations, type.isConcrete = true := by
  obtain ⟨s, s', hs, hp, hrun, hext⟩ := h
  obtain ⟨-, -, -, params, s₀, s₁, s₂, v, hc, houtline, htypes⟩ := lowerFunction_compiled hp hdecl hrun
  rw [← htypes] at hext
  obtain ⟨new, hadds⟩ := hc.adds
  have hconcrete : ∀ id t, s₂.outline.typeOf id = some t → g.Concrete t := by
    intro id t ht
    rw [hc.typeOf_eq] at ht
    obtain ⟨w, hw, ht⟩ := Option.bind_eq_some_iff.1 ht
    exact hf id w t hw ht
  refine List.forall_mem_append.2 ⟨TypeExpr.allConcrete_iff.1 ?_, fun type htype => ?_⟩
  · -- The types of the parameters are those of their variables.
    have hbefore : s₀.types.Extends g := (hadds.grows.types.trans hc.lowered.1.grows.types).trans hext
    refine (hc.denoted.extend hbefore _).allConcrete _ fun t ht => ?_
    obtain ⟨id, hid⟩ := hc.bound.shows hc.prepared.good.enter s₀.enter.frames_ne t ht
    exact hconcrete id t (hc.lowered.1.grows.typeOf hid)
  · -- Those in the body are parts of types of variables.
    have hs₀ : s₀.outline.Settled := houtline ▸ hs.settled
    obtain ⟨id, t, part, ht, ⟨kind, hk, hpart⟩, hdenotes⟩ := exhibits.forall_block decl.body
      (hc.bound.settled hs₀.enter s₀.enter.frames_ne) hc.body type htype
    exact (hdenotes.extend hext type).isConcrete type
      ((hconcrete id t ht).part ⟨kind, hext _ _ hk, hpart⟩)

end

/-- In a lowered program the variables of a function have no placeholders in their types exactly if
none is written in the types of its parameters or in its body. -/
theorem lowerProgram_concrete_iff (config : Config) (decls : List FnDecl) (p : Program) (s : Session)
    (h : lowerProgram config decls .initial = .ok p s) :
    ∀ decl ∈ decls, ∀ f ∈ p.functions, f.name = decl.name →
      (f.ConcreteVars p.types ↔ ∀ type ∈ decl.annotations, type.isConcrete = true) := by
  intro decl hdecl f hf hname
  obtain ⟨hnodup, hfunctions⟩ := lowerProgram_atRest h
  obtain ⟨decl', hdecl', (hlowered : LoweredAtRest decls p.types decl' f)⟩ :=
    TypeGraph.exists_of_forall₂ hfunctions.flip hf
  have hname' : f.name = decl'.name := by
    obtain ⟨s, s', -, -, hrun, -⟩ := hlowered
    obtain ⟨s₀, c, s₁, s₂, v, -, -, hl⟩ := lowerFunction_cases hrun
    exact hl.name
  obtain rfl : decl' = decl := List.inj_on_of_nodup_map hnodup hdecl' hdecl (hname'.symm.trans hname)
  exact ⟨hlowered.isConcrete hdecl, hlowered.concreteVars hdecl⟩

/-- A function with a placeholder in its type, and one that calls it with a box of an integer. -/
def openDecls : List FnDecl :=
  let at0 : Span := ⟨0, 0⟩
  [{  name := "same"
      params := [⟨"b", at0, .placeholder at0 "T"⟩]
      result := .placeholder at0 "T"
      body := .mk at0 [.yield at0 (.var at0 "b")]
      span := at0 },
    { name := "caller"
      params := []
      result := .void at0
      body := .mk at0
        [.bind at0 (.var at0 "x") (.call at0 (.var at0 "same") [.wrap at0 (.int at0 1)])]
      span := at0 }]

theorem lowerProgram_concrete_iff_open :
    ∃ p s, lowerProgram .library openDecls .initial = .ok p s ∧
      p.functions.map Function.name = ["same", "caller"] ∧
      ∀ f ∈ p.functions, f.ConcreteVars p.types ↔ f.name = "caller" := by
  have hrun : succeeds (fun p : Program => decide (p.functions.map Function.name = ["same", "caller"]))
      (lowerProgram .library openDecls .initial) = true := by
    decide +kernel
  obtain ⟨p, s, h, hnames⟩ := exists_ok_of_succeeds hrun
  have hnames := of_decide_eq_true hnames
  refine ⟨p, s, h, hnames, fun f hf => ?_⟩
  have hmem : f.name ∈ p.functions.map Function.name := List.mem_map_of_mem hf
  rw [hnames, show ["same", "caller"] = openDecls.map FnDecl.name from rfl] at hmem
  obtain ⟨decl, hdecl, hname⟩ := List.mem_map.1 hmem
  have hwritten : ∀ decl ∈ openDecls,
      ((∀ type ∈ decl.annotations, type.isConcrete = true) ↔ decl.name = "caller") := by
    decide
  rw [lowerProgram_concrete_iff .library openDecls p s h decl hdecl f hf hname.symm, ← hname]
  exact hwritten decl hdecl

/-- A function whose parameters and result have no placeholders, with an empty box in its body that has
one. -/
def strayPlaceholderDecl : FnDecl :=
  let at0 : Span := ⟨0, 0⟩
  { name := "f"
    params := []
    result := .void at0
    body := .mk at0 [.bind at0 (.var at0 "x") (.wrapEmpty at0 (.placeholder at0 "T"))]
    span := at0 }

/-- The declared types are concrete, and the box is lowered all the same. -/
theorem lowerProgram_keeps_stray_placeholder :
    ∃ p s, lowerProgram .library [strayPlaceholderDecl] .initial = .ok p s ∧
      strayPlaceholderDecl.isConcrete = true ∧
      ∃ f ∈ p.functions, f.name = strayPlaceholderDecl.name ∧
        ∃ (id : VarId) (v : Var) (type target : TypeId) (name : String), f.vars[id]? = some v ∧
          v.type = some type ∧ p.types.Reaches type target ∧
          p.types.kind target = .ok (.placeholder name) := by
  have hrun : succeeds (fun p : Program => decide (p.functions.map Function.name = ["f"] ∧
        p.functions.map (fun f => f.vars[0]?.bind Var.type) = [some 7] ∧
        p.types.kind 7 = .ok (.box 6) ∧ p.types.kind 6 = .ok (.placeholder "T")))
      (lowerProgram .library [strayPlaceholderDecl] .initial) = true := by
    decide +kernel
  obtain ⟨p, s, h, hcheck⟩ := exists_ok_of_succeeds hrun
  obtain ⟨hnames, hvars, hbox, hplaceholder⟩ := of_decide_eq_true hcheck
  obtain ⟨f, hf⟩ := List.map_eq_singleton_iff.1 hnames
  rw [hf.1, List.map_singleton] at hvars
  obtain ⟨v, hv, htype⟩ := Option.bind_eq_some_iff.1 (List.singleton_inj.1 hvars)
  refine ⟨p, s, h, by decide, f, hf.1 ▸ List.mem_cons_self, hf.2, 0, v, 7, 6, "T", hv, htype, ?_,
    hplaceholder⟩
  exact .single ⟨_, hbox, List.mem_cons_self⟩

end SlotCode
