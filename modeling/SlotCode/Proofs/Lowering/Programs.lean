import SlotCode.Proofs.Lowering.Expressions
import SlotCode.Proofs.Types.Written

/-!
# Lowering programs

All functions are declared first.  Then each is lowered from an outline without variables, in which
every function of the program can be called (`Prepared`), and what lowering it gives is typed
(`Compiled`).
-/

namespace SlotCode

variable {o : Outline} {decls : List FnDecl} {decl : FnDecl} {type : TypeId} {g : TypeGraph}
  {c : Callee} {u : Unit} {f : Function} {s : Session}

open Outline Lower List TypeGraph

def FnDecl.isConcrete (decl : FnDecl) : Bool :=
  TypeExpr.allConcrete (decl.params.map Param.type) && decl.result.isConcrete

def Param.isVoid (param : Param) : Bool :=
  param.type.isVoid

/-! ## Declaring -/

/-- The declared types of a function.  An empty list of parameters is declared as `void`. -/
structure Outline.Signs (o : Outline) (decl : FnDecl) (params : List TypeId) (result : TypeId) :
    Prop where
  lookup : ∃ sig, o.functions.lookup decl.name = some sig ∧
    o.types.kind sig.type = .ok (.function params result false)
  params : decl.params = [] ∧ params = [.void] ∨ decl.params ≠ [] ∧
    o.types.DenotesEach (decl.params.map Param.type) params

theorem Outline.Signs.extend {o' : Outline} {params : List TypeId} {result : TypeId}
    (h : o.Signs decl params result) (hext : o.types.Extends o'.types)
    (hf : o'.functions.lookup decl.name = o.functions.lookup decl.name) :
    o'.Signs decl params result := by
  obtain ⟨⟨sig, hsig, hk⟩, hparams⟩ := h
  exact ⟨⟨sig, hf.trans hsig, hext _ _ hk⟩,
    hparams.imp_right (And.imp_right (DenotesEach.extend hext _))⟩

/-- The outline in which the bodies of functions are lowered. -/
structure Outline.Prepared (o : Outline) (decls : List FnDecl) : Prop where
  good : o.Good
  vars : o.vars = []
  frames : o.frames = [.empty]
  names : (decls.map FnDecl.name).Nodup
  signs : ∀ decl ∈ decls, ∃ params result, o.Signs decl params result
  declared : ∀ name sig params result, o.functions.lookup name = some sig →
    o.types.kind sig.type = .ok (.function params result false) → ∃ decl ∈ decls, decl.name = name

namespace Lower

variable {s s' : Session}

/-- The parameters that a function is declared with, and the graph that holds them. -/
def declaredParams (g : TypeGraph) (decl : FnDecl) : List TypeId × TypeGraph :=
  if decl.params.isEmpty then ([.void], g) else g.resolveAll (decl.params.map Param.type)

/-- The graph with the type of a function added. -/
def declaredTypes (g : TypeGraph) (decl : FnDecl) : TypeGraph :=
  let params := declaredParams g decl
  let result := params.2.resolve decl.result
  (result.2.add (.function params.1 result.1 false) (some decl.span)).2

theorem registerFunction_ok {params : List TypeId} (h : (do
      let result ← updateTypes (·.resolve decl.result)
      let type ← updateTypes (·.add (.function params result false) (some decl.span))
      let scope ← search (·.register decl.name type decl.span)
      modifyScope fun _ => scope
      return type : Lower TypeId) s = .ok type s') : let result := s.types.resolve decl.result
    s.outline.functions.lookup decl.name = none ∧ type = result.2.size ∧
      s'.outline = { s.outline with
        types := (result.2.add (.function params result.1 false) (some decl.span)).2
        functions := (decl.name, ⟨type, some decl.span⟩) :: s.outline.functions } := by
  simp only [bind_eq_ok_iff, updateTypes_eq_ok_iff, search_eq_ok_iff, modifyScope_eq_ok_iff,
    pure_eq_ok_iff] at h
  obtain ⟨_, s₁, ⟨rfl, rfl⟩, _, s₂, ⟨rfl, rfl⟩, scope, s₃, ⟨hscope, rfl⟩, _, s₄, rfl, rfl, rfl⟩ := h
  simp only [Scope.register] at hscope
  cases hl : s.scope.functions.lookup decl.name with
  | some previous =>
    rw [hl] at hscope
    cases hscope
  | none =>
    rw [hl] at hscope
    cases hscope
    exact ⟨hl, rfl, rfl⟩

theorem declare_ok (h : declare decl s = .ok type s') : let params := declaredParams s.types decl
    let result := params.2.resolve decl.result
    s.outline.functions.lookup decl.name = none ∧ type = result.2.size ∧
      s'.outline = { s.outline with
        types := declaredTypes s.types decl
        functions := (decl.name, ⟨type, some decl.span⟩) :: s.outline.functions } := by
  simp only [declare] at h
  split at h
  · next hempty =>
    simp only [declaredTypes, declaredParams, hempty, if_true]
    exact registerFunction_ok h
  · next hempty =>
    simp only [declaredTypes, declaredParams, hempty]
    obtain ⟨_, s₁, hids, h⟩ := bind_eq_ok_iff.1 h
    obtain ⟨rfl, rfl⟩ := updateTypes_eq_ok_iff.1 hids
    exact registerFunction_ok h

theorem declaredParams_grown (hg : g.Regular) (decl : FnDecl) :
    Grown g (declaredParams g decl).2 (declaredParams g decl).1 := by
  unfold declaredParams
  split
  · exact .unit hg hg.void rfl
  · exact resolveAll_grown hg _

/-- What declaring a function adds to the type graph. -/
theorem declaredTypes_grown (hg : g.Regular) (decl : FnDecl) :
    (declaredTypes g decl).Regular ∧ g.Extends (declaredTypes g decl) := by
  have hparams := declaredParams_grown hg decl
  have hresult := resolve_grown hparams.regular decl.result
  refine ⟨hresult.regular.add _ (fun part hpart => ?_) rfl,
    (hparams.ext.trans hresult.ext).trans (extends_add _ _ _)⟩
  rcases mem_append.1 hpart with hpart | hpart
  · exact (hparams.values part hpart).extend hresult.ext
  · exact hresult.values part hpart

theorem declaredParams_denotes (hg : g.Regular) (decl : FnDecl) :
    decl.params = [] ∧ (declaredParams g decl).1 = [.void] ∨ decl.params ≠ [] ∧
      (declaredTypes g decl).DenotesEach (decl.params.map Param.type) (declaredParams g decl).1 := by
  have hgrown := declaredParams_grown hg decl
  have hext : (declaredParams g decl).2.Extends (declaredTypes g decl) :=
    (resolve_grown hgrown.regular decl.result).ext.trans (extends_add _ _ _)
  by_cases hempty : decl.params.isEmpty
  · exact .inl ⟨List.isEmpty_iff.1 hempty, by rw [declaredParams, if_pos hempty]⟩
  · refine .inr ⟨fun h => hempty (List.isEmpty_iff.2 h), .extend hext _ ?_⟩
    rw [declaredParams, if_neg hempty]
    exact resolveAll_denotes hg _

theorem declaredTypes_noPlaceholders (hg : g.NoPlaceholders) (hc : decl.isConcrete = true) :
    (declaredTypes g decl).NoPlaceholders := by
  obtain ⟨hparams, hresult⟩ := Bool.and_eq_true_iff.1 hc
  refine NoPlaceholders.add (.resolve ?_ _ hresult) (by nofun) _
  unfold declaredParams
  split
  · exact hg
  · exact hg.resolveAll _ hparams

end Lower

namespace Outline

variable {o : Outline}

theorem Good.refunction (h : o.Good) {functions : List (String × Signature)}
    (hf : ∀ name sig, functions.lookup name = some sig → ∃ params result native,
      o.types.kind sig.type = .ok (.function params result native) ∧
        (native = true → name = "print" ∧ params = [.string] ∧ result = .void)) :
    ({ o with functions := functions } : Outline).Good :=
  { h with functions := hf }

end Outline

namespace Lower

variable {s s' : Session}

theorem declare_prepared (h : s.outline.Prepared decls) (hrun : declare decl s = .ok type s') :
    s'.outline.Prepared (decl :: decls) := by
  obtain ⟨hfresh, htype, hs'⟩ := declare_ok hrun
  obtain ⟨hregular, hext⟩ := declaredTypes_grown h.good.types decl
  have hkind : (declaredTypes s.types decl).kind type = .ok _ := (kind_add _ _ _ _).trans (if_pos htype)
  have hlookup : ∀ name sig, s'.outline.functions.lookup name = some sig →
      name = decl.name ∧ sig = ⟨type, some decl.span⟩ ∨
        name ≠ decl.name ∧ s.outline.functions.lookup name = some sig := by
    intro name sig hsig
    rw [hs', lookup_cons] at hsig
    split at hsig
    · next heq =>
      cases hsig
      exact .inl ⟨eq_of_beq heq, rfl⟩
    · next hne => exact .inr ⟨fun heq => by simp [heq] at hne, hsig⟩
  have hself : s'.outline.functions.lookup decl.name = some ⟨type, some decl.span⟩ := by
    rw [hs', lookup_cons_self]
  have hother : ∀ name, name ≠ decl.name →
      s'.outline.functions.lookup name = s.outline.functions.lookup name := by
    intro name hne
    rw [hs', lookup_cons, beq_eq_false_iff_ne.2 hne]
  have hnotin : ∀ d ∈ decls, d.name ≠ decl.name := by
    intro d hd heq
    obtain ⟨params, result, ⟨sig, hsig, -⟩, -⟩ := h.signs d hd
    rw [heq, hfresh] at hsig
    cases hsig
  have htypes : s'.outline.types = declaredTypes s.types decl := by rw [hs']
  refine ⟨?_, by rw [hs']; exact h.vars, by rw [hs']; exact h.frames, ?_, ?_, ?_⟩
  · rw [hs']
    refine (h.good.retype hregular hext).refunction fun name sig hsig => ?_
    rcases hlookup name sig (by rw [hs']; exact hsig) with ⟨-, rfl⟩ | ⟨-, hsig⟩
    · exact ⟨_, _, false, hkind, nofun⟩
    · obtain ⟨params, result, native, hk, hnative⟩ := h.good.functions name sig hsig
      exact ⟨params, result, native, hext _ _ hk, hnative⟩
  · refine nodup_cons.2 ⟨fun hmem => ?_, h.names⟩
    obtain ⟨d, hd, heq⟩ := mem_map.1 hmem
    exact hnotin d hd heq
  · intro d hd
    rcases mem_cons.1 hd with rfl | hd
    · exact ⟨_, _, ⟨_, hself, htypes ▸ hkind⟩, htypes ▸ declaredParams_denotes h.good.types d⟩
    · obtain ⟨params, result, hsigns⟩ := h.signs d hd
      exact ⟨params, result, hsigns.extend (htypes ▸ hext) (hother _ (hnotin d hd))⟩
  · intro name sig params result hsig hk
    rcases hlookup name sig hsig with ⟨rfl, -⟩ | ⟨-, hsig⟩
    · exact ⟨decl, mem_cons_self, rfl⟩
    · obtain ⟨params', result', native, hk', -⟩ := h.good.functions name sig hsig
      have hk'' := hext _ _ hk'
      rw [htypes] at hk
      cases kind_unique hk hk''
      obtain ⟨d, hd, heq⟩ := h.declared name sig params result hsig hk'
      exact ⟨d, mem_cons_of_mem _ hd, heq⟩

theorem declareAll_prepared {done : List FnDecl} (h : s.outline.Prepared done)
    (hrun : declareAll decls s = .ok u s') : s'.outline.Prepared (decls.reverse ++ done) := by
  induction decls generalizing s done with
  | nil =>
    cases hrun
    exact h
  | cons decl decls ih =>
    simp only [declareAll, bind_eq_ok_iff] at hrun
    obtain ⟨type, s₁, hdecl, hrun⟩ := hrun
    have := ih (declare_prepared h hdecl) hrun
    rwa [reverse_cons, append_assoc]

theorem declareAll_noPlaceholders (h : s.types.NoPlaceholders)
    (hc : ∀ decl ∈ decls, decl.isConcrete = true) (hrun : declareAll decls s = .ok u s') :
    s'.types.NoPlaceholders := by
  induction decls generalizing s with
  | nil =>
    cases hrun
    exact h
  | cons decl decls ih =>
    simp only [declareAll, bind_eq_ok_iff] at hrun
    obtain ⟨type, s₁, hdecl, hrun⟩ := hrun
    obtain ⟨-, -, hs₁⟩ := declare_ok hdecl
    refine ih ?_ (fun d hd => hc d (mem_cons_of_mem _ hd)) hrun
    have htypes : s₁.types = declaredTypes s.types decl := congrArg Outline.types hs₁
    rw [htypes]
    exact declaredTypes_noPlaceholders h (hc decl mem_cons_self)

theorem prepared_initial : Session.initial.outline.Prepared [] where
  good :=
    { types := regular_initial
      vars := nofun
      disjoint := fun _ _ _ _ h => nomatch h
      functions := nofun
      names := nofun
      distinct := .nil
      loops := nofun }
  vars := rfl
  frames := rfl
  names := .nil
  signs := nofun
  declared := nofun

/-- The built-in function is there, and it is not one of the program. -/
theorem registerNatives_prepared (h : registerNatives .initial = .ok u s') :
    s'.outline.Prepared [] ∧ s'.types.NoPlaceholders := by
  simp only [registerNatives, bind_eq_ok_iff, updateTypes_eq_ok_iff, modifyScope_eq_ok_iff] at h
  obtain ⟨_, s₁, ⟨rfl, rfl⟩, rfl⟩ := h
  have hregular := regular_initial
  have hinitial := prepared_initial
  have hparts : ∀ part ∈ (TypeKind.function [.string] .void true).parts,
      initial.IsValue part := by
    intro part hpart
    rcases mem_pair.1 hpart with rfl | rfl
    · exact ⟨_, hregular.string, rfl⟩
    · exact ⟨_, hregular.void, rfl⟩
  have hkind : (initial.addNative [.string] .void).2.kind
      initial.size = .ok (.function [.string] .void true) :=
    (kind_add _ _ _ _).trans (if_pos rfl)
  have hlookup : ∀ name sig, List.lookup name [("print", (⟨initial.size, none⟩ : Signature))] =
      some sig → name = "print" ∧ sig = ⟨initial.size, none⟩ := by
    intro name sig hsig
    rw [lookup_cons] at hsig
    split at hsig
    · next heq =>
      cases hsig
      exact ⟨eq_of_beq heq, rfl⟩
    · cases hsig
  refine ⟨⟨?_, rfl, rfl, .nil, forall_mem_nil _, fun name sig params result hsig hk => ?_⟩, ?_⟩
  · refine (hinitial.good.retype (hregular.add none hparts rfl)
      (extends_add _ _ none)).refunction fun name sig hsig => ?_
    obtain ⟨rfl, rfl⟩ := hlookup name sig hsig
    exact ⟨_, _, true, hkind, fun _ => ⟨rfl, rfl, rfl⟩⟩
  · obtain ⟨rfl, rfl⟩ := hlookup name sig hsig
    cases kind_unique hk hkind
  · exact noPlaceholders_initial.add (by simp) none

/-! ## Parameters -/

end Lower

/-- The parameters have been declared and shaped after the types, and the slots are those that
receive the arguments. -/
inductive Outline.Bound : List Param → List TypeId → List VarId → Outline → Outline → Prop where
  | nil (o : Outline) : Bound [] [] [] o o
  | cons {param : Param} {params : List Param} {type : TypeId} {types : List TypeId}
      {rest : List VarId} {o o₁ o' : Outline} (hsteps : (o.declare param.name).Steps o₁)
      (htype : o₁.typeOf o.vars.length = some type) (h : Bound params types rest o₁ o') :
      Bound (param :: params) (type :: types) (o₁.slots o.vars.length ++ rest) o o'

namespace Lower

variable {s s' : Session}

theorem declareParams_bound {params : List Param} {types : List TypeId} {slots : List VarId}
    {bound : List (String × Span)} (hlen : types.length = params.length) (hg : s.outline.Good)
    (hvalue : ∀ t ∈ types, s.types.IsValue t)
    (h : declareParams (.declare bound) params types s = .ok slots s') :
    Bound params types slots s.outline s'.outline := by
  induction params generalizing types s slots bound with
  | nil =>
    obtain rfl := eq_nil_of_length_eq_zero hlen
    cases h
    exact .nil _
  | cons param params ih =>
    cases types with
    | nil => cases hlen
    | cons type types =>
      simp only [declareParams, bind_eq_ok_iff, pure_eq_ok_iff, Prod.exists] at h
      obtain ⟨id, mode, s₁, hname, head, s₂, hexpand, rest, s₃, hrest, rfl, rfl⟩ := h
      obtain ⟨⟨bound', rfl⟩, rfl, hs₁⟩ := bindName_declare_ok hname
      have hdeclare : s₁.outline = s.outline.declare param.name := hs₁
      have hadds : s.outline.Adds s₁.outline _ := hdeclare ▸ Adds.declare hg s.frames_ne param.name
      obtain ⟨i, hi, -, hexpanded⟩ := expandVar_ok hexpand
      have hfresh : s₁.outline.info s.outline.vars.length = some (.fresh (some param.name)) := by
        rw [hs₁]
        exact info_push_new [.fresh (some param.name)] 0
      cases hi.symm.trans hfresh
      obtain ⟨hsteps, htype, rfl⟩ := Outline.Expanded.fresh hadds.good hfresh rfl
        ((hvalue type mem_cons_self).extend hadds.grows.types) hexpanded
      have hext := hadds.grows.types.trans hsteps.grows.types
      exact (.cons (hdeclare ▸ hsteps) htype (ih (Nat.succ.inj hlen) hsteps.good
        (fun t ht => (hvalue t (mem_cons_of_mem _ ht)).extend hext) hrest))

end Lower

namespace Outline

variable {params : List Param} {types : List TypeId} {slots : List VarId} {o o' : Outline}

/-- A parameter is declared and shaped. -/
theorem Adds.shaped (hg : o.Good) (hf : o.frames ≠ []) {name : String} {o₁ : Outline}
    (hsteps : (o.declare name).Steps o₁) : o.Adds o₁ [(name, o.vars.length)] :=
  (Adds.declare hg hf name).trans (hsteps.adds (Adds.declare hg hf name).frames_ne)

theorem Bound.adds (h : Bound params types slots o o') (hg : o.Good) (hf : o.frames ≠ []) :
    ∃ new, o.Adds o' new := by
  induction h with
  | nil o => exact ⟨[], .refl hg hf⟩
  | cons hsteps htype h ih =>
    have hadds := Adds.shaped hg hf hsteps
    obtain ⟨new, hrest⟩ := ih hsteps.good hadds.frames_ne
    exact ⟨_, hadds.trans hrest⟩

/-- Arguments have the types of the leaves of the parameters. -/
theorem Bound.typed (h : Bound params types slots o o') (hg : o.Good) (hf : o.frames ≠ []) :
    Forall₂ (fun id type => o'.typeOf id = some type) slots (types.flatMap o'.types.leafTypes) := by
  induction h with
  | nil o => exact .nil
  | @cons param params type types rest o o₁ o' hsteps htype h ih =>
    have hadds := Adds.shaped hg hf hsteps
    obtain ⟨new, hrest⟩ := h.adds hsteps.good hadds.frames_ne
    rw [flatMap_cons]
    refine rel_append ?_ (ih hsteps.good hadds.frames_ne)
    rw [leafTypes_extend hsteps.good.types.toSound hrest.grows.types
      (hsteps.good.isValue htype).lt_size]
    exact (hsteps.good.slots_typed htype).imp fun _ _ => hrest.grows.typeOf

/-- Arguments are new variables, all different. -/
theorem Bound.nodup (h : Bound params types slots o o') (hg : o.Good) (hf : o.frames ≠ []) :
    slots.Nodup ∧ ∀ l ∈ slots, o.vars.length ≤ l := by
  induction h with
  | nil o => exact ⟨.nil, nofun⟩
  | @cons param params type types rest o o₁ o' hsteps htype h ih =>
    have hadds := Adds.shaped hg hf hsteps
    obtain ⟨hnodup, hnew⟩ := ih hsteps.good hadds.frames_ne
    have hlt : ∀ l ∈ o₁.slots o.vars.length, l < o₁.vars.length := fun l hl => by
      obtain ⟨t, -, ht⟩ := exists_of_forall₂ (hsteps.good.slots_typed htype) hl
      exact lt_of_typeOf ht
    refine ⟨nodup_append.2 ⟨hsteps.good.slots_nodup _, hnodup, fun a ha b hb heq => ?_⟩, fun l hl => ?_⟩
    · exact Nat.not_lt_of_le (hnew b hb) (heq ▸ hlt a ha)
    · rcases mem_append.1 hl with hl | hl
      · exact hsteps.good.le_of_mem_slots hl
      · exact hadds.grows.length_le.trans (hnew l hl)

end Outline

/-! ## Functions -/

/-- A run that lowers a function: from the session `s` between functions, through `s₁` where the
parameters are declared, to `s₂` where the body has been lowered to the value `v`. -/
structure Compiled (decls : List FnDecl) (decl : FnDecl) (f : Function) (params : List TypeId)
    (s s₁ s₂ : Session) (v : Value) : Prop where
  name : f.name = decl.name
  prepared : s.outline.Prepared decls
  signs : s.outline.Signs decl (if params = [] then [.void] else params) f.result
  denoted : s.types.DenotesEach (decl.params.map Param.type) params
  bound : Bound decl.params params f.args s.outline.enter s₁.outline
  body : lowerBlock decl.body s₁ = .ok (f.code, v) s₂
  result : s₂.types.Alike false f.result v.type
  value : f.value = v.leaves
  vars : s₂.outline.vars = f.vars.toList.map VarInfo.ofVar

namespace Compiled

variable {decls : List FnDecl} {decl : FnDecl} {f : Function} {params : List TypeId}
  {s s₁ s₂ : Session} {v : Value} {g : TypeGraph}

section

variable (hc : Compiled decls decl f params s s₁ s₂ v)

include hc

/-- The parameters are declared in a context of their own. -/
theorem adds : ∃ new, s.outline.enter.Adds s₁.outline new :=
  hc.bound.adds hc.prepared.good.enter s.enter.frames_ne

theorem lowered : s₁.outline.Steps s₂.outline ∧
    Emits decl.body.setFree s₁.outline s₂.outline f.code ∧ v.Ok s₂.outline := by
  obtain ⟨new, hadds⟩ := hc.adds
  exact Block.lowers decl.body hadds.good hc.body

theorem functions : s₂.outline.functions = s.outline.functions := by
  obtain ⟨new, hadds⟩ := hc.adds
  exact hc.lowered.1.grows.functions.trans hadds.grows.functions

theorem result_lt : f.result < s₂.types.size := by
  obtain ⟨new, hadds⟩ := hc.adds
  obtain ⟨⟨sig, -, hk⟩, -⟩ := hc.signs
  have hvalue := hc.prepared.good.types.parts _ f.result ⟨_, hk, mem_append_right _ mem_cons_self⟩
  exact (hvalue.extend (hadds.grows.types.trans hc.lowered.1.grows.types)).lt_size

/-- The function returns nothing exactly if its result is `void`. -/
theorem result_void_iff : v.shape = .void ↔ f.result = .void := by
  obtain ⟨hsteps, -, hv⟩ := hc.lowered
  have hvoid := hsteps.good.types.void
  rw [hv.void]
  constructor
  · intro h
    exact (hc.result.eq_of_base_right (h ▸ hvoid) rfl).trans h
  · intro h
    exact (hc.result.eq_of_base (h ▸ hvoid) rfl).trans h

theorem typeOf_eq (id : VarId) : s₂.outline.typeOf id = f.vars[id]?.bind Var.type := by
  rw [typeOf, info, hc.vars, getElem?_map, Array.getElem?_toList]
  cases f.vars[id]? <;> rfl

/-- A function has an argument for each leaf of its parameters, of that type. -/
theorem args_typed (hg : s₂.types.Extends g) :
    Forall₂ (fun id type => f.vars[id]?.bind Var.type = some type) f.args
      (params.flatMap g.leafTypes) := by
  obtain ⟨new, hadds⟩ := hc.adds
  have hgrows := hc.lowered.1.grows
  have hext : s₁.types.Extends g := hgrows.types.trans hg
  have hparams : ∀ p ∈ params, p < s₁.outline.types.size := by
    intro p hp
    obtain ⟨⟨sig, -, hk⟩, -⟩ := hc.signs
    rw [if_neg (ne_nil_of_mem hp)] at hk
    have hpart : s.outline.types.Part sig.type p := ⟨_, hk, mem_append_left _ hp⟩
    exact hadds.grows.types.lt_size (hc.prepared.good.types.toSound.closed _ _ hpart)
  have hleaves : params.flatMap g.leafTypes = params.flatMap s₁.outline.types.leafTypes :=
    flatMap_congr fun p hp =>
      leafTypes_extend hadds.good.types.toSound hext (hparams p hp)
  rw [hleaves]
  refine (hc.bound.typed hc.prepared.good.enter s.enter.frames_ne).imp fun id type htype => ?_
  exact (hc.typeOf_eq id).symm.trans (hgrows.typeOf htype)

/-- A function returns an operand for each leaf of its result. -/
theorem length_value (hg : s₂.types.Extends g) :
    f.value.length = if f.result = .void then 0 else (g.leafTypes f.result).length := by
  obtain ⟨hsteps, -, hv⟩ := hc.lowered
  have hsound := hsteps.good.types.toSound
  rw [hc.value]
  split
  · next hvoid => rw [Value.leaves_of_void (hc.result_void_iff.2 hvoid)]; rfl
  · next hvoid =>
    have hshape : v.shape ≠ .void := fun hs => hvoid (hc.result_void_iff.1 hs)
    rw [leafTypes_extend hsound hg hc.result_lt, (hv.typed hshape).length_eq,
      (hc.result.leafTypes hsound).length_eq]

end

end Compiled

namespace Lower

variable {s s' : Session}

theorem lowerBody_ok {body : Body} (h : lowerBody decl c s = .ok body s') :
    ∃ s₁ s₂ v, declareParams (.declare []) decl.params c.params s.enter = .ok body.args s₁ ∧
      lowerBlock decl.body s₁ = .ok (body.code, v) s₂ ∧
      (∃ sp sp' after, s₂.types.matchTypes (some c.result) v.type sp sp' none = .ok () after) ∧
      body.value = v.leaves ∧ s' = s₂.exit := by
  simp only [lowerBody, inContext_eq_ok_iff, bind_eq_ok_iff, pure_eq_ok_iff, Prod.exists] at h
  obtain ⟨s₁, ⟨args, s₂, hparams, code, v, s₃, hblock, _, s₄, hmatch, rfl, rfl⟩, rfl⟩ := h
  obtain ⟨rfl, after, hmatch⟩ := requireMatch_ok hmatch
  exact ⟨s₂, s₄, v, hparams, hblock, ⟨_, _, after, hmatch⟩, rfl, rfl⟩

theorem draining_ok {α : Type} {step : Lower α} {a : α} {table : VarTable} {locals : List Local}
    (h : draining step s = .ok (a, table, locals) s') :
    ∃ s₁, step s = .ok a s₁ ∧ table = s₁.scope.table ∧ locals = s₁.scope.locals.toList ∧
      s' = { s₁ with scope := s₁.scope.drain } := by
  simp only [draining] at h
  cases hstep : step s with
  | error e s₁ =>
    rw [hstep] at h
    cases h
  | ok b s₁ =>
    rw [hstep] at h
    cases h
    exact ⟨s₁, rfl, rfl, rfl, rfl⟩

theorem outline_drain (s : Session) : ({ s with scope := s.scope.drain } : Session).outline =
    { s.outline with vars := [], frames := s.outline.frames.map fun _ => .empty } := by
  simp [Session.outline, Scope.drain, Scope.infos, Scope.contexts, Context.frame, Context.new,
    Frame.empty, Function.comp_def]

theorem checkParams_ok (h : checkParams decl c s = .ok u s') :
    s' = s ∧ (c.params = [] → decl.params.length ≠ 1) := by
  rw [checkParams] at h
  revert h
  generalize decl.params = params
  generalize c.params = types
  intro h
  match params, types with
  | [param], [] => exact absurd h unsupported_ne_ok
  | [], _ | _ :: _ :: _, _ =>
    cases h
    exact ⟨rfl, fun _ => by simp⟩
  | [param], _ :: _ =>
    cases h
    exact ⟨rfl, nofun⟩

end Lower

/-- What has happened if lowering a function succeeds.  The session is `s₁` after the parameters have been
declared and `s₂` after the body has been lowered, both in the context of the function. -/
structure LoweredFunction (decl : FnDecl) (s : Session) (f : Function) (c : Callee) (s₁ s₂ : Session)
    (v : Value) (s' : Session) : Prop where
  name : f.name = decl.name
  callee : Lower.callee decl.name decl.span s = .ok c s
  named : c.params = [] → decl.params.length ≠ 1
  params : declareParams (.declare []) decl.params c.params s.enter = .ok f.args s₁
  body : lowerBlock decl.body s₁ = .ok (f.code, v) s₂
  matched : ∃ sp sp' after, s₂.types.matchTypes (some c.result) v.type sp sp' none = .ok () after
  result : f.result = c.result
  value : f.value = v.leaves
  vars : f.vars = s₂.exit.scope.table
  locals : f.locals = s₂.exit.scope.locals.toList
  types : s'.types = s₂.types
  scope : s'.scope = s₂.exit.scope.drain

theorem lowerFunction_cases {s' : Session} (h : lowerFunction decl s = .ok f s') :
    ∃ s₀ c s₁ s₂ v, s₀.types = s.types ∧ s₀.scope = s.scope ∧
      LoweredFunction decl s₀ f c s₁ s₂ v s' := by
  simp only [lowerFunction, bind_eq_ok_iff, report_eq_ok_iff, pure_eq_ok_iff, Prod.exists] at h
  obtain ⟨_, s₀, hs₀, c, s₁, hcallee, _, s₂, hcheck, body, table, locals, s₃, hdrain, _, s₄, rfl, rfl,
    rfl⟩ := h
  obtain ⟨rfl, -⟩ := callee_ok hcallee
  obtain ⟨rfl, harity⟩ := checkParams_ok hcheck
  obtain ⟨s₅, hbody, rfl, rfl, rfl⟩ := draining_ok hdrain
  obtain ⟨s₆, s₇, v, hparams, hblock, hmatch, hvalue, rfl⟩ := lowerBody_ok hbody
  exact ⟨s₂, c, s₆, s₇, v, by rw [hs₀], by rw [hs₀],
    rfl, hcallee, harity, hparams, hblock, hmatch, rfl, hvalue, rfl, rfl, rfl, rfl⟩

theorem Outline.Good.drain (h : o.Good) :
    ({ o with vars := [], frames := o.frames.map fun _ => .empty } : Outline).Good := by
  have hnames : (o.frames.map fun _ => Frame.empty).flatMap Frame.names = [] := by
    simp [Frame.empty]
  have hloops : (o.frames.map fun _ => Frame.empty).flatMap Frame.loops = [] := by
    simp [Frame.empty]
  refine ⟨h.types, nofun, (fun _ _ _ _ h => nomatch h), h.functions, ?_, ?_, ?_⟩
  · intro name id hmem
    rw [Outline.names, hnames] at hmem
    cases hmem
  · rw [Outline.names, hnames]
    exact .nil
  · intro label ref hmem
    rw [Outline.loops, hloops] at hmem
    cases hmem

/-- The next function is lowered with more types. -/
theorem Outline.Prepared.next {o' : Outline} (h : o.Prepared decls) (hsteps : o.Steps o') :
    ({ o' with vars := [], frames := o'.frames.map fun _ => .empty } : Outline).Prepared decls where
  good := hsteps.good.drain
  vars := rfl
  frames := by
    rw [hsteps.frames, h.frames]
    rfl
  names := h.names
  signs decl hdecl := by
    obtain ⟨params, result, hsigns⟩ := h.signs decl hdecl
    exact ⟨params, result, hsigns.extend hsteps.grows.types (congrArg _ hsteps.grows.functions)⟩
  declared name sig params result hsig hk := by
    have hsig' : o.functions.lookup name = some sig := hsteps.grows.functions ▸ hsig
    obtain ⟨params', result', native, hk', -⟩ := h.good.functions name sig hsig'
    cases kind_unique hk (hsteps.grows.types _ _ hk')
    exact h.declared name sig params result hsig' hk'

namespace Lower

variable {s s' : Session}

/-- What is called when the function is called. -/
theorem callee_signs {span : Span} (h : s.outline.Prepared decls) (hdecl : decl ∈ decls)
    (hrun : callee decl.name span s = .ok c s') (harity : c.params = [] → decl.params.length ≠ 1) :
    s.outline.Signs decl (if c.params = [] then [.void] else c.params) c.result ∧
      s.types.DenotesEach (decl.params.map Param.type) c.params := by
  obtain ⟨-, sig, params, hsig, hk, hparams⟩ := callee_ok hrun
  obtain ⟨params', result, ⟨sig', hsig', hk'⟩, hdenotes⟩ := h.signs decl hdecl
  cases hsig.symm.trans hsig'
  obtain ⟨rfl, rfl, -⟩ : params = params' ∧ c.result = result ∧ c.native = false := by
    simpa using kind_unique hk hk'
  rcases hdenotes with ⟨hnil, rfl⟩ | ⟨hne, hdenotes⟩
  · rw [if_pos rfl] at hparams
    rw [hparams, hnil]
    exact ⟨⟨⟨sig, hsig, hk'⟩, .inl ⟨hnil, rfl⟩⟩, trivial⟩
  · have hlen : decl.params.length = params.length := by
      simpa using (denotesEach_iff.1 hdenotes).length_eq
    have hone : params ≠ [.void] := by
      rintro rfl
      exact harity hparams hlen
    rw [if_neg hone] at hparams
    have hsome : params ≠ [] := by
      rintro rfl
      exact hne (eq_nil_of_length_eq_zero hlen)
    rw [hparams, if_neg hsome]
    exact ⟨⟨⟨sig, hsig, hk'⟩, .inr ⟨hne, hdenotes⟩⟩, hdenotes⟩

theorem lowerFunction_compiled (h : s.outline.Prepared decls) (hdecl : decl ∈ decls)
    (hrun : lowerFunction decl s = .ok f s') :
    s'.outline.Prepared decls ∧ s.types.Extends s'.types ∧
      s'.outline.functions = s.outline.functions ∧
      ∃ params s₀ s₁ s₂ v, Compiled decls decl f params s₀ s₁ s₂ v ∧ s₀.outline = s.outline ∧
        s₂.types = s'.types := by
  obtain ⟨s₀, c, s₁, s₂, v, htypes, hscope, hl⟩ := lowerFunction_cases hrun
  have houtline := Session.outline_congr htypes hscope
  have houtline' : s'.outline =
      { s₂.exit.outline with vars := [], frames := s₂.exit.outline.frames.map fun _ => .empty } := by
    rw [← outline_drain, Session.outline, Session.outline, hl.types, hl.scope]
    rfl
  have hp : s₀.outline.Prepared decls := houtline ▸ h
  obtain ⟨-, sig, params, -, hk, hcparams⟩ := callee_ok hl.callee
  obtain ⟨hsigns, hdenotes⟩ := callee_signs hp hdecl hl.callee hl.named
  have hlen : c.params.length = decl.params.length := by
    simpa using (denotesEach_iff.1 hdenotes).length_eq.symm
  have hpart : ∀ p, p ∈ params ++ [c.result] → s₀.types.IsValue p :=
    fun p hmem => hp.good.types.parts sig.type p ⟨_, hk, hmem⟩
  have hvalues : ∀ t ∈ c.params, s₀.types.IsValue t := by
    intro t ht
    rw [hcparams] at ht
    split at ht
    · cases ht
    · exact hpart t (mem_append_left _ ht)
  have hbound := declareParams_bound (s := s₀.enter) hlen hp.good.enter hvalues hl.params
  obtain ⟨new, hadds⟩ := hbound.adds hp.good.enter s₀.enter.frames_ne
  obtain ⟨hsteps, hemits, hv⟩ := Block.lowers decl.body hadds.good hl.body
  have hinner := hadds.trans (hsteps.adds hadds.frames_ne)
  obtain ⟨hout, -, -⟩ := exit_adds hinner
  obtain ⟨sp, sp', after, hmatch⟩ := hl.matched
  have hresult := alike_of_matchTypes hsteps.good.types.toSound
    ((hpart c.result (by simp)).extend hinner.grows.types).lt_size hv.value.lt_size hmatch
  have hvars : s₂.exit.outline.vars = s₂.outline.vars := by
    obtain ⟨_, _, hf, hf'⟩ := hinner.frames
    cases hf
    rw [(exit_steps hsteps.good hinner.grows (by rw [hf']; rfl)).1]
    rfl
  refine ⟨?_, ?_, ?_, c.params, s₀, s₁, s₂, v, ⟨hl.name, hp, hl.result ▸ hsigns, hdenotes, hbound, hl.body,
    hl.result ▸ hresult, hl.value, ?_⟩, houtline, hl.types.symm⟩
  · rw [houtline']
    exact hp.next hout
  · rw [← htypes, hl.types]
    exact hout.grows.types
  · rw [houtline', ← houtline]
    exact hout.grows.functions
  · rw [← hvars, hl.vars]
    simp [Session.outline, Scope.infos, Scope.table]

end Lower

/-! ## Programs -/

/-- The function has been lowered after the declarations that `d` outlines, and its types are in `g`. -/
def Compiles (decls : List FnDecl) (d : Outline) (g : TypeGraph) (decl : FnDecl) (f : Function) : Prop :=
  ∃ params s s₁ s₂ v, Compiled decls decl f params s s₁ s₂ v ∧ s.outline.functions = d.functions ∧
    d.types.Extends s.types ∧ s₂.types.Extends g

theorem Compiles.mono {d d' : Outline} {g' : TypeGraph} (hf : d'.functions = d.functions)
    (hd : d.types.Extends d'.types) (hext : g.Extends g') (h : Compiles decls d' g decl f) :
    Compiles decls d g' decl f := by
  obtain ⟨params, s, s₁, s₂, v, hc, hsig, hbefore, hafter⟩ := h
  exact ⟨params, s, s₁, s₂, v, hc, hsig.trans hf, hd.trans hbefore, hafter.trans hext⟩

namespace Lower

variable {s s' : Session}

theorem lowerFunctions_compiles {todo : List FnDecl} {fs : List Function}
    (h : s.outline.Prepared decls) (hsub : todo ⊆ decls) (hrun : lowerFunctions todo s = .ok fs s') :
    s.types.Extends s'.types ∧ s'.types.Regular ∧
      Forall₂ (Compiles decls s.outline s'.types) todo fs := by
  induction todo generalizing s fs with
  | nil =>
    cases hrun
    exact ⟨.refl _, h.good.types, .nil⟩
  | cons decl todo ih =>
    simp only [lowerFunctions, bind_eq_ok_iff, pure_eq_ok_iff] at hrun
    obtain ⟨f, s₁, hf, fs', s₂, hfs, rfl, rfl⟩ := hrun
    obtain ⟨hp, hext, hfunctions, params, s₀, s₃, s₄, v, hc, houtline, htypes⟩ :=
      lowerFunction_compiled h (hsub mem_cons_self) hf
    obtain ⟨hext', hregular, hrest⟩ := ih hp (fun d hd => hsub (mem_cons_of_mem _ hd)) hfs
    refine ⟨hext.trans hext', hregular, .cons ?_ (hrest.imp fun d f => .mono hfunctions hext (.refl _))⟩
    refine ⟨params, s₀, s₃, s₄, v, hc, congrArg Outline.functions houtline, ?_, htypes ▸ hext'⟩
    rw [← houtline]
    exact .refl _

theorem checkEntryPoint_ok {name : String} (h : checkEntryPoint name s = .ok u s') : s' = s := by
  simp only [checkEntryPoint, bind_eq_ok_iff, search_eq_ok_iff, askTypes_eq_ok_iff] at h
  obtain ⟨type, s₁, ⟨-, rfl⟩, node, s₂, ⟨-, rfl⟩, h⟩ := h
  split at h
  · cases h
    rfl
  · simp only [bind_eq_ok_iff] at h
    obtain ⟨_, _, -, h⟩ := h
    exact absurd h failAt_ne_ok

end Lower

/-- What lowering a program has done, in terms of the outline `d` after the declarations. -/
structure Built (decls : List FnDecl) (p : Program) (d : Outline) : Prop where
  prepared : d.Prepared decls
  concrete : (∀ decl ∈ decls, decl.isConcrete = true) → d.types.NoPlaceholders
  types : d.types.Extends p.types
  regular : p.types.Regular
  functions : List.Forall₂ (Compiles decls d p.types) decls p.functions

theorem Outline.Prepared.reverse (h : o.Prepared decls.reverse) : o.Prepared decls :=
  { h with
    names := by
      have := h.names
      rwa [map_reverse, nodup_reverse] at this
    signs := fun decl hdecl => h.signs decl (mem_reverse.2 hdecl)
    declared := by
      intro name sig params result hsig hk
      obtain ⟨decl, hdecl, heq⟩ := h.declared name sig params result hsig hk
      exact ⟨decl, mem_reverse.1 hdecl, heq⟩ }

/-- What has happened if lowering a program succeeds: all functions were declared, and then lowered. -/
theorem lowerProgram_cases {config : Config} {p : Program}
    (h : lowerProgram config decls .initial = .ok p s) :
    ∃ s₁ s₂ s₃ fs, (registerNatives .initial = .ok () s₁ ∨ s₁ = .initial) ∧
      declareAll decls s₁ = .ok () s₂ ∧ lowerFunctions decls s₂ = .ok fs s₃ ∧ p = ⟨s₃.types, fs⟩ := by
  rw [lowerProgram, ite_bind_eq_ok_iff] at h
  obtain ⟨s₁, hnatives, h⟩ := h
  have hstart : registerNatives .initial = .ok () s₁ ∨ s₁ = .initial := by
    rcases hnatives with ⟨-, hn⟩ | ⟨-, rfl⟩
    · exact .inl hn
    · exact .inr rfl
  obtain ⟨_, s₂, hdeclare, h⟩ := bind_eq_ok_iff.1 h
  refine ⟨s₁, s₂, ?_⟩
  cases hentry : config.entryPoint with
  | none =>
    simp only [hentry, bind_eq_ok_iff, report_eq_ok_iff, finish] at h
    obtain ⟨fs, s₃, hlower, _, s₄, rfl, h⟩ := h
    cases h
    exact ⟨s₃, fs, hstart, hdeclare, hlower, rfl⟩
  | some name =>
    simp only [hentry, bind_eq_ok_iff, report_eq_ok_iff, finish] at h
    obtain ⟨_, s₃, hcheck, fs, s₄, hlower, _, s₅, rfl, h⟩ := h
    cases checkEntryPoint_ok hcheck
    cases h
    exact ⟨s₄, fs, hstart, hdeclare, hlower, rfl⟩

/-- After the declarations all functions can be lowered. -/
theorem declarations_prepared {s₁ s₂ : Session}
    (hstart : registerNatives .initial = .ok () s₁ ∨ s₁ = .initial)
    (hdeclare : declareAll decls s₁ = .ok () s₂) :
    s₂.outline.Prepared decls ∧
      ((∀ decl ∈ decls, decl.isConcrete = true) → s₂.types.NoPlaceholders) := by
  have hstart : s₁.outline.Prepared [] ∧ s₁.types.NoPlaceholders := by
    rcases hstart with hn | rfl
    · exact registerNatives_prepared hn
    · exact ⟨prepared_initial, noPlaceholders_initial⟩
  have hprepared := declareAll_prepared hstart.1 hdeclare
  rw [append_nil] at hprepared
  exact ⟨hprepared.reverse, fun hc => declareAll_noPlaceholders hstart.2 hc hdeclare⟩

/-- Lowering a program that succeeds has declared and lowered all its functions. -/
theorem built_of_lowerProgram {config : Config} {p : Program}
    (h : lowerProgram config decls .initial = .ok p s) : ∃ d, Built decls p d := by
  obtain ⟨s₁, s₂, s₃, fs, hstart, hdeclare, hlower, rfl⟩ := lowerProgram_cases h
  obtain ⟨hprepared, hconcrete⟩ := declarations_prepared hstart hdeclare
  obtain ⟨hext, hregular, hfs⟩ := lowerFunctions_compiles hprepared (Subset.refl _) hlower
  exact ⟨s₂.outline, hprepared, hconcrete, hext, hregular, hfs⟩

namespace Built

variable {decls : List FnDecl} {p : Program} {d : Outline}

section

variable (hb : Built decls p d)

include hb

/-- The function that a name stands for in a typed call. -/
theorem callee (hg : g.Extends p.types) {target : String} {sig : Signature} {raw : List TypeId}
    {result : TypeId} (hsig : d.functions.lookup target = some sig)
    (hk : g.kind sig.type = .ok (.function raw result false)) :
    ∃ decl ∈ decls, ∃ f ∈ p.functions, decl.name = target ∧ f.result = result ∧
      ∃ params s s₁ s₂ v, Compiled decls decl f params s s₁ s₂ v ∧
        s.outline.functions = d.functions ∧ s₂.types.Extends p.types ∧
        raw = if params = [] then [.void] else params := by
  have hk' := hg _ _ hk
  obtain ⟨raw', result', native, hkd, -⟩ := hb.prepared.good.functions target sig hsig
  cases kind_unique hk' (hb.types _ _ hkd)
  obtain ⟨decl, hdecl, rfl⟩ := hb.prepared.declared target sig raw result hsig hkd
  obtain ⟨f, hf, params, s, s₁, s₂, v, hc, hfunctions, hbefore, hafter⟩ :=
    exists_of_forall₂ hb.functions hdecl
  obtain ⟨⟨sig', hsig', hks⟩, -⟩ := hc.signs
  rw [hfunctions] at hsig'
  cases hsig.symm.trans hsig'
  obtain ⟨hraw, hresult⟩ : raw = (if params = [] then [.void] else params) ∧ result = f.result := by
    simpa using kind_unique (hbefore _ _ hkd) hks
  exact ⟨decl, hdecl, f, hf, rfl, hresult.symm, params, s, s₁, s₂, v, hc, hfunctions, hafter, hraw⟩

/-- The types in a signature are those of its declaration, where nothing is left open. -/
theorem concrete_parts (hdecls : ∀ decl ∈ decls, decl.isConcrete = true) {target : String}
    {sig : Signature} (hsig : d.functions.lookup target = some sig) {part : TypeId}
    (hpart : p.types.Part sig.type part) : p.types.Concrete part := by
  obtain ⟨params, result, native, hkd, -⟩ := hb.prepared.good.functions target sig hsig
  obtain ⟨kind, hk, hmem⟩ := hpart
  cases kind_unique hk (hb.types _ _ hkd)
  have hsound := hb.prepared.good.types.toSound
  exact ((hb.concrete hdecls).concrete part).extend hsound hb.types (hsound.closed _ _ ⟨_, hkd, hmem⟩)

theorem map_name : p.functions.map Function.name = decls.map FnDecl.name := by
  have hnames : ∀ {ds : List FnDecl} {fs : List Function},
      Forall₂ (Compiles decls d p.types) ds fs → fs.map Function.name = ds.map FnDecl.name := by
    intro ds fs h
    induction h with
    | nil => rfl
    | cons h _ ih =>
      obtain ⟨_, _, _, _, _, hc, -⟩ := h
      rw [map_cons, map_cons, ih, hc.name]
  exact hnames hb.functions

/-- There is one function of each name. -/
theorem filter_name (hf : f ∈ p.functions) : p.functions.filter (fun g => g.name = f.name) = [f] := by
  have hnodup : (p.functions.map Function.name).Nodup := hb.map_name ▸ hb.prepared.names
  generalize p.functions = fs at hf hnodup
  induction fs with
  | nil => cases hf
  | cons g fs ih =>
    rw [map_cons, nodup_cons] at hnodup
    have hother : ∀ {g : Function} {fs : List Function}, g.name ∉ fs.map Function.name →
        fs.filter (fun h => h.name = g.name) = [] := by
      intro g fs hg
      rw [filter_eq_nil_iff]
      intro h hh heq
      exact hg (mem_map.2 ⟨h, hh, of_decide_eq_true heq⟩)
    rcases mem_cons.1 hf with rfl | hf
    · rw [filter_cons_of_pos (by simp), hother hnodup.1]
    · have hne : g.name ≠ f.name := fun heq => hnodup.1 (heq ▸ mem_map_of_mem hf)
      rw [filter_cons_of_neg (by simpa using hne), ih hf hnodup.2]

theorem function?_eq (hf : f ∈ p.functions) : p.function? f.name = some f := by
  rw [Program.function?, ← head?_filter, hb.filter_name hf]
  rfl

/-- There is one declaration of each name. -/
theorem find?_decl (hdecl : decl ∈ decls) :
    decls.find? (fun other => other.name = decl.name) = some decl := by
  obtain ⟨other, hother⟩ : ∃ other, decls.find? (fun other => other.name = decl.name) = some other :=
    Option.isSome_iff_exists.1 (find?_isSome.2 ⟨decl, hdecl, decide_eq_true rfl⟩)
  have hname : other.name = decl.name := by simpa using find?_some hother
  rw [hother, inj_on_of_nodup_map hb.prepared.names (mem_of_find?_eq_some hother) hdecl hname]

end

end Built

end SlotCode
