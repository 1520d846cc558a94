import SlotCode.Proofs.Program.Resting

/-!
# Virtual variables and their leaves

A virtual variable groups the leaves of a tuple.  It becomes virtual once, when a value, a `leave` or the
result of a call fixes its type; whatever is stored into it later goes to the same leaves.  So in the table
of a lowered function the leaves of virtual variables are lists of temporaries that do not overlap
(`Function.Grouped`).  Types that are added to the graph after the function has been lowered make no
difference to that.
-/

namespace SlotCode

variable {f : Function} {s : Session}

open Outline Lower

/-- How the virtual variables of a function group its real ones.  The types are those of the graph. -/
structure Function.Grouped (f : Function) (g : TypeGraph) : Prop where
  /-- A variable is virtual exactly if its type is a tuple. -/
  virtual_iff : ∀ (id : VarId) (v : Var), f.vars[id]? = some v →
    (v.isReal = false ↔ ∃ type items, v.type = some type ∧ g.kind type = .ok (.tuple items))
  /-- For each leaf of its type it has one of its own: a real temporary of that very type, made after
  it. -/
  leaves : ∀ (id : VarId) (v : Var) (ls : List VarId), f.vars[id]? = some v → v.leaves = some ls →
    ∃ type types, v.type = some type ∧ g.leaves type = .ok types ∧ ls.length = types.length ∧
      List.Forall₂ (fun (l : VarId) t => id < l ∧ ∃ leaf : Var, f.vars[l]? = some leaf ∧
        leaf.isReal = true ∧ leaf.name = none ∧ leaf.type = some t) ls types
  nodup : ∀ (id : VarId) (v : Var) (ls : List VarId), f.vars[id]? = some v → v.leaves = some ls →
    ls.Nodup
  /-- No two variables share a leaf. -/
  disjoint : ∀ (id id' : VarId) (v v' : Var) (ls ls' : List VarId), f.vars[id]? = some v →
    f.vars[id']? = some v' → v.leaves = some ls → v'.leaves = some ls' → id ≠ id' → ls.Disjoint ls'

/-- The table of a function and an outline that shows it. -/
theorem Outline.info_of_table {o : Outline} (hvars : o.vars = f.vars.toList.map VarInfo.ofVar)
    (id : VarId) : o.info id = f.vars[id]?.map VarInfo.ofVar := by
  rw [info, hvars, List.getElem?_map, Array.getElem?_toList]

/-- A good outline groups the variables that it shows. -/
theorem Outline.Good.grouped {o : Outline} (h : o.Good)
    (hvars : o.vars = f.vars.toList.map VarInfo.ofVar) : f.Grouped o.types := by
  have hinfo : ∀ {id : VarId} {v : Var}, f.vars[id]? = some v → o.info id = some (.ofVar v) := by
    intro id v hv
    rw [info_of_table hvars, hv]
    rfl
  have hleaves : ∀ {id : VarId} {v : Var} {ls : List VarId}, f.vars[id]? = some v → v.leaves = some ls →
      o.leavesOf id = some ls := fun hv hls => leavesOf_eq_some_iff.2 ⟨_, hinfo hv, hls⟩
  -- A variable that has leaves has a type.
  have htyped : ∀ {id : VarId} {v : Var} {ls : List VarId}, f.vars[id]? = some v → v.leaves = some ls →
      ∃ type, v.type = some type := by
    intro id v ls hv hls
    cases htype : v.type with
    | some type => exact ⟨type, rfl⟩
    | none => cases ((h.vars id _ (hinfo hv)).untyped htype).symm.trans hls
  refine ⟨fun id v hv => ?_, fun id v ls hv hls => ?_, fun id v ls hv hls => ?_,
    fun id id' v v' ls ls' hv hv' hls hls' => h.disjoint id id' ls ls' (hleaves hv hls) (hleaves hv' hls')⟩
  · have hok := h.vars id _ (hinfo hv)
    have hvirtual : v.isReal = false ↔ v.leaves.isSome := by cases hl : v.leaves <;> simp [Var.isReal, hl]
    rw [hvirtual]
    constructor
    · intro hsome
      obtain ⟨ls, hls⟩ := Option.isSome_iff_exists.1 hsome
      obtain ⟨type, htype⟩ := htyped hv hls
      obtain ⟨items, hk⟩ := (hok.shaped type htype).1 hsome
      exact ⟨type, items, htype, hk⟩
    · rintro ⟨type, items, htype, hk⟩
      exact (hok.shaped type htype).2 ⟨items, hk⟩
  · obtain ⟨type, htype⟩ := htyped hv hls
    have hok := h.vars id _ (hinfo hv)
    obtain ⟨hlater, -, htypes⟩ := hok.leaves type ls htype hls
    refine ⟨type, o.types.leafTypes type, htype,
      TypeGraph.leaves_eq h.types.toSound (hok.value type htype).lt_size, htypes.length_eq, ?_⟩
    refine List.forall₂_iff_zip.2 ⟨htypes.length_eq, fun {l t} hmem => ?_⟩
    have hleaf : o.info l = some (.temp t) := (List.forall₂_iff_zip.1 htypes).2 hmem
    rw [info_of_table hvars] at hleaf
    obtain ⟨leaf, hl, heq⟩ := Option.map_eq_some_iff.1 hleaf
    refine ⟨hlater l (List.of_mem_zip hmem).1, leaf, hl, ?_, congrArg VarInfo.name heq,
      congrArg VarInfo.type heq⟩
    rw [Var.isReal, show leaf.leaves = none from congrArg VarInfo.leaves heq]
    rfl
  · obtain ⟨type, htype⟩ := htyped hv hls
    exact ((h.vars id _ (hinfo hv)).leaves type ls htype hls).2.1

/-! ## Functions -/

/-- The table of a lowered function belongs to a good outline. -/
theorem lowerFunction_table {decl : FnDecl} {s' : Session} (hs : s.outline.Settled)
    (h : lowerFunction decl s = .ok f s') :
    ∃ o : Outline, o.Good ∧ o.types = s'.types ∧ o.vars = f.vars.toList.map VarInfo.ofVar := by
  obtain ⟨s₀, c, s₁, s₂, v, htypes, hscope, hlowered⟩ := lowerFunction_cases h
  have hs₀ : s₀.outline.Settled := Session.outline_congr htypes hscope ▸ hs
  obtain ⟨-, hparams, -⟩ := callee_values hs₀.good hlowered.callee
  obtain ⟨⟨new, hadds⟩, hsettled⟩ :=
    declareParams_settles (s := s₀.enter) hs₀.enter hparams hlowered.params
  obtain ⟨hsteps, -⟩ := decl.body.lowers hsettled.good hlowered.body
  obtain ⟨hout, -⟩ := exit_adds (hadds.trans (hsteps.adds hadds.frames_ne))
  refine ⟨s₂.exit.outline, hout.good, hlowered.types.symm, ?_⟩
  rw [hlowered.vars]
  simp [Session.outline, Scope.infos, Scope.table]

/-- A function that is lowered at rest groups its variables, also in a graph with more types. -/
theorem lowerFunction_grouped {decl : FnDecl} {s' : Session} {g : TypeGraph} (hs : s.Resting)
    (h : lowerFunction decl s = .ok f s') (hg : g.Regular) (hext : s'.types.Extends g) :
    f.Grouped g := by
  obtain ⟨o, hgood, htypes, hvars⟩ := lowerFunction_table hs.settled h
  exact (hgood.retype hg (htypes ▸ hext)).grouped hvars

/-! ## Later graphs -/

theorem Session.Resting.extends_run (h : s.Resting) (request : Request) :
    s.types.Extends (request.run s).types := by
  cases request with
  | natives => exact (Registration.native.keptIn_lay none s.types).extends
  | declare decl =>
    rw [Request.run, stateAfter_declare]
    exact (decl.registration.keptIn_lay (some decl.span) s.types).extends
  | lower decl => exact (lowerFunction_rests decl s h.idle).1.extends

/-- Requests only add types. -/
theorem Session.extends_after (requests more : List Request) :
    (Session.after requests).types.Extends (Session.after (requests ++ more)).types := by
  induction more using List.reverseRecOn with
  | nil =>
    rw [List.append_nil]
    exact .refl _
  | append_singleton more request ih =>
    have hafter : Session.after (requests ++ (more ++ [request])) =
        request.run (Session.after (requests ++ more)) := by
      rw [← List.append_assoc]
      exact List.foldl_concat ..
    rw [hafter]
    exact ih.trans ((resting_after _).extends_run request)

/-- Every function that is lowered groups its variables, whatever is requested before and after it, and so
does every function of a program. -/
theorem lowering_groups_leaves :
    (∀ (requests more : List Request) (decl : FnDecl) (f : Function) (s' : Session),
      lowerFunction decl (Session.after requests) = .ok f s' →
        f.Grouped (Session.after (requests ++ .lower decl :: more)).types) ∧
    ∀ (config : Config) (decls : List FnDecl) (p : Program) (s : Session),
      lowerProgram config decls .initial = .ok p s → ∀ f ∈ p.functions, f.Grouped p.types := by
  refine ⟨fun requests more decl f s' h => ?_, fun config decls p s h f hf => ?_⟩
  · have hafter : Session.after (requests ++ [.lower decl]) = s' := by
      rw [Session.after, List.foldl_concat]
      change stateAfter (lowerFunction decl (Session.after requests)) = s'
      rw [h]
      rfl
    have hext := Session.extends_after (requests ++ [.lower decl]) more
    rw [hafter, List.append_assoc] at hext
    exact lowerFunction_grouped (resting_after requests) h (resting_after _).types hext
  · obtain ⟨d, hb⟩ := built_of_lowerProgram h
    obtain ⟨-, hfunctions⟩ := lowerProgram_atRest h
    obtain ⟨decl, -, s, s', hs, -, hlower, hext⟩ := TypeGraph.exists_of_forall₂ hfunctions.flip hf
    exact lowerFunction_grouped hs hlower hb.regular hext

/-- A function that leaves a loop with its parameter, a pair in a pair. -/
def nestedPairDecl : FnDecl :=
  let at0 : Span := ⟨0, 0⟩
  let pair : TypeExpr := .tuple at0 [.tuple at0 [.integer at0, .boolean at0], .string at0]
  { name := "nested"
    params := [⟨"pair", at0, pair⟩]
    result := pair
    body := .mk at0
      [.bind at0 (.tuple at0 [.var at0 "inner", .var at0 "text"]) (.var at0 "pair"),
        .yield at0 (.loop at0 none (.mk at0 [.eval at0 (.leave at0 none (some (.var at0 "pair")))]))]
    span := at0 }

theorem lowering_groups_leaves_nestedPair :
    ∃ f s', lowerFunction nestedPairDecl (Session.after [.declare nestedPairDecl]) = .ok f s' ∧
      f.vars.toList.filterMap Var.leaves = [[1, 2, 3], [6, 7], [9, 10, 11]] ∧
      f.Grouped (Session.after [.declare nestedPairDecl, .lower nestedPairDecl, .natives]).types := by
  have hrun : succeeds (fun f : Function => decide (f.vars.toList.filterMap Var.leaves =
      [[1, 2, 3], [6, 7], [9, 10, 11]]))
      (lowerFunction nestedPairDecl (Session.after [.declare nestedPairDecl])) = true := by
    decide +kernel
  obtain ⟨f, s', h, hcheck⟩ := exists_ok_of_succeeds hrun
  exact ⟨f, s', h, of_decide_eq_true hcheck,
    lowering_groups_leaves.1 [.declare nestedPairDecl] [.natives] nestedPairDecl f s' h⟩

end SlotCode
