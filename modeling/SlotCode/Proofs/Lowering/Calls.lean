import SlotCode.Proofs.Lowering.Operators

/-!
# Calls

The arguments of a call are matched with the parameters one after the other, and bind placeholders on
the way.  The inputs of the call are the leaves of the arguments, with nothing for `void`; its outputs
are the leaves of the result with the placeholders replaced.
-/

namespace SlotCode

open TypeGraph

variable {span : Span} {g : TypeGraph} {o : Outline} {param : TypeId} {outputs : List VarId}
  {v : Value} {b : Bindings} {params : List TypeId} {inputs : List Operand}

namespace Lower

open Outline

variable {s s' : Session}

/-! ## Callees -/

/-- What is known about a function that can be called. -/
theorem callee_values {name : String} {c : Callee} (hg : s.outline.Good)
    (h : callee name span s = .ok c s') :
    s' = s ∧ (∀ p ∈ c.params, s.types.IsValue p) ∧ s.types.IsValue c.result ∧
      (c.native = true → name = "print") := by
  obtain ⟨rfl, sig, params, hsig, hk, hcparams⟩ := callee_ok h
  have hpart : ∀ p, p ∈ params ++ [c.result] → s'.types.IsValue p :=
    fun p hp => hg.types.parts sig.type p ⟨_, hk, hp⟩
  refine ⟨rfl, fun p hp => ?_, hpart c.result (by simp), fun hnative => ?_⟩
  · rw [hcparams] at hp
    split at hp
    · cases hp
    · exact hpart p (List.mem_append_left _ hp)
  · obtain ⟨_, _, native, hk', hprint⟩ := hg.functions name sig hsig
    cases kind_unique hk hk'
    exact (hprint hnative).1

/-! ## Arguments -/

/-- All placeholders are bound to types of values. -/
def BindsValues (g : TypeGraph) (b : Bindings) : Prop :=
  ∀ name bound, b.get? name = some bound → g.IsValue bound

theorem BindsValues.nil : BindsValues g [] := by
  intro name bound hb
  cases hb

theorem BindsValues.mono {g' : TypeGraph} (hext : g.Extends g') (h : BindsValues g b) :
    BindsValues g' b :=
  fun name bound hb => (h name bound hb).extend hext

/-- Matching binds placeholders to payloads of boxes. -/
theorem BindsValues.matched {found : TypeId} {sp sp' : Span} {after : Option Bindings}
    (hb : BindsValues g b) (hg : g.Regular) (hparam : param < g.size) (hfound : found < g.size)
    (hmatch : g.matchTypes (some param) found sp sp' (some b) = .ok () after) :
    BindsValues g (after.getD b) := by
  intro name bound hbound
  rcases binds_of_matchTypes hg.toSound hparam hfound hmatch hbound with hold | ⟨-, hnew⟩
  · exact hb name bound hold
  · obtain ⟨q, kind, -, hk, hp⟩ := hnew
    exact hg.parts q bound (.payload hk hp)

theorem bindArgument_binds {b' : Bindings} (hg : s.outline.Good) (hparam : s.types.IsValue param)
    (hv : v.Ok s.outline) (hb : BindsValues s.types b)
    (h : bindArgument param v span b s = .ok b' s') :
    s' = s ∧ s.types.Alike true param v.type ∧ BindsValues s.types b' := by
  obtain ⟨rfl, after, hmatch, rfl⟩ := bindArgument_ok h
  exact ⟨rfl, alike_of_matchTypes hg.types.toSound hparam.lt_size hv.value.lt_size hmatch,
    hb.matched hg.types hparam.lt_size hv.value.lt_size hmatch⟩

/-- The inputs are typed and match the parameters. -/
def Passes (o : Outline) (params : List TypeId) (inputs : List Operand) : Prop :=
  ∃ ins, List.Forall₂ (Operand.HasType o.typing) inputs ins ∧
    List.Forall₂ (o.types.Alike true) (paramLeaves o.types params) ins

theorem Passes.nil : Passes o [] [] :=
  ⟨[], .nil, .nil⟩

/-- A value is passed for a parameter other than `void`, and only there. -/
theorem Passes.cons (hg : o.Good) (hv : v.Ok o) (halike : o.types.Alike true param v.type)
    (h : Passes o params inputs) : Passes o (param :: params) (v.leaves ++ inputs) := by
  obtain ⟨ins, htyped, hins⟩ := h
  by_cases hvoid : param = .void
  · subst hvoid
    have hshape := hv.void.2 (halike.eq_of_base hg.types.void rfl)
    rw [Value.leaves_of_void hshape]
    exact ⟨ins, htyped, by simpa [paramLeaves] using hins⟩
  · have hshape : v.shape ≠ .void := fun hs => by
      have htype := hv.void.1 hs
      exact hvoid ((halike.eq_of_base_right (htype ▸ hg.types.void) rfl).trans htype)
    refine ⟨_, List.rel_append (hv.typed hshape) htyped, ?_⟩
    have hleaves : paramLeaves o.types (param :: params) =
        o.types.leafTypes param ++ paramLeaves o.types params := by
      simp [paramLeaves, hvoid]
    rw [hleaves]
    exact List.rel_append (halike.leafTypes hg.types.toSound) hins

theorem Passes.mono {o' : Outline} (hg : o.Good) (hgrows : o.Grows o')
    (hparams : ∀ p ∈ params, o.types.IsValue p) (h : Passes o params inputs) :
    Passes o' params inputs := by
  obtain ⟨ins, htyped, hins⟩ := h
  refine ⟨ins, (hgrows.typing hg).operands htyped, ?_⟩
  rw [paramLeaves_extend hg.types.toSound hgrows.types fun p hp => (hparams p hp).lt_size]
  exact hins.imp fun _ _ => Alike.extend hgrows.types

/-- A single `void` stands for an empty list of parameters. -/
theorem Passes.of_callee (h : Passes o (if params = [.void] then [] else params) inputs) :
    Passes o params inputs := by
  split at h
  · next hvoid =>
    subst hvoid
    exact h
  · exact h

/-- The outputs have the types of the leaves of the result. -/
def Returns (o : Outline) (result : TypeId) (outputs : List VarId) : Prop :=
  result = .void ∧ outputs = [] ∨ result ≠ .void ∧ ∃ b r,
    o.types.Instance b result r ∧ o.types.IsValue r ∧
      List.Forall₂ (fun id type => o.typeOf id = some type) outputs (o.types.leafTypes r)

/-- The value of a call reads its outputs. -/
theorem Returns.of_reads {result : TypeId} (hne : result ≠ .void) (hv : v.Ok o)
    (hvoid : v.shape ≠ .void) (hinst : o.types.Instance b result v.type)
    (hleaves : v.leaves = outputs.map .var) : Returns o result outputs := by
  have htyped := hv.typed hvoid
  rw [hleaves, List.forall₂_map_left_iff] at htyped
  refine .inr ⟨hne, b, v.type, hinst, hv.value, htyped.imp fun id type h => ?_⟩
  cases h with
  | var h => exact h

theorem callCommand_typed {name : String} {c : Callee} {targetSpan : Span} {command : Command}
    {sig : Signature} (hg : s.outline.Good) (hsig : s.outline.functions.lookup name = some sig)
    (hk : s.types.kind sig.type = .ok (.function params c.result c.native))
    (hins : Passes s.outline params inputs) (houts : Returns s.outline c.result outputs)
    (h : callCommand name c.native inputs outputs targetSpan span s = .ok command s') :
    s'.outline = s.outline ∧ command.WellTyped s.outline.typing ∧ command.nested = [command] ∧
      command.writes = outputs := by
  obtain ⟨hs', hcommand⟩ := callCommand_ok h
  refine ⟨hs', ?_⟩
  obtain ⟨ins, htyped, hins⟩ := hins
  rcases hcommand with ⟨hnative, rfl⟩ | ⟨hnative, primitive, hname, rfl⟩
  · refine ⟨?_, rfl, rfl⟩
    rw [hnative] at hk
    rcases houts with ⟨hvoid, rfl⟩ | ⟨hne, b, r, hinst, hvalue, houts⟩
    · exact .call htyped .nil ⟨sig, params, _, hsig, hk, hins, .inl ⟨hvoid, rfl⟩⟩
    · exact .call htyped houts ⟨sig, params, _, hsig, hk, hins, .inr ⟨hne, b, r, hinst, hvalue, rfl⟩⟩
  · obtain ⟨params', result, native, hk', hprint⟩ := hg.functions name sig hsig
    cases kind_unique hk hk'
    obtain ⟨rfl, rfl, hresult⟩ := hprint hnative
    obtain rfl : primitive = .print := by
      have : Primitive.ofName? "print" = some .print := by decide
      exact Option.some.inj (hname.symm.trans this)
    refine ⟨?_, rfl, rfl⟩
    obtain rfl : outputs = [] := (houts.resolve_right fun hne => hne.1 hresult).2
    have hstring : paramLeaves s.outline.types [.string] = [.string] := by
      rw [paramLeaves]
      simp [leafTypes_of_not_tuple hg.types.string rfl, TypeId.string, TypeId.void]
    rw [hstring] at hins
    cases hins with
    | cons halike hnil =>
      cases hnil
      cases halike.eq_of_base hg.types.string rfl
      cases htyped with
      | cons htyped hnil =>
        cases hnil
        exact .print htyped

/-! ## Results -/

theorem instance_eq_of_base {a c : TypeId} {kind : TypeKind} (h : g.Instance b a c)
    (hc : g.kind c = .ok kind) (hb : kind.isBase = true) : a = c := by
  obtain ⟨R, hR, hac⟩ := h
  cases hR a c hac with
  | base => rfl
  | tuple _ hc' | box _ hc' | list _ hc' | placeholder _ _ hc' =>
    cases kind_unique hc hc'
    cases hb

/-- The outputs of a call are new variables, which its value reads. -/
theorem callResult_reads {result : TypeId} (hg : s.outline.Good) (hresult : s.types.IsValue result)
    (hb : ∀ name bound, b.get? name = some bound → s.types.IsValue bound)
    (h : callResult result b span s = .ok (outputs, v) s') :
    s.outline.Steps s'.outline ∧ v.Ok s'.outline ∧
      (result = .void ∧ outputs = [] ∧ v = .void span ∨
        result ≠ .void ∧ v.shape ≠ .void ∧ s'.types.Instance b result v.type ∧
          v.leaves = outputs.map .var ∧ outputs.Nodup ∧ ∀ l ∈ outputs, s.outline.vars.length ≤ l) := by
  rcases callResult_ok h with ⟨rfl, rfl, rfl, rfl⟩ |
    ⟨hne, r, g, dest, s₁, s₂, hinst, hdest, hexpand, hvalue⟩
  · exact ⟨.refl hg, Value.ok_void hg span, .inl ⟨rfl, rfl, rfl⟩⟩
  · obtain ⟨hgrown, hinstance⟩ := instantiate_spec hg.types hb hresult hinst
    have hr : g.IsValue r := hgrown.values r List.mem_cons_self
    have htypes : s.outline.Steps ({ s with types := g } : Session).outline :=
      ⟨.retype hgrown.ext, rfl, hg.retype hgrown.regular hgrown.ext⟩
    obtain ⟨rfl, hs₁⟩ := newTemp_ok hdest
    have hnew : ({ s with types := g } : Session).outline.Steps s₁.outline := by
      rw [hs₁]
      exact .pushFresh htypes.good
    obtain ⟨i, hi, -, hexpanded⟩ := expandVar_ok hexpand
    have hfresh : s₁.outline.info s.outline.vars.length = some (.fresh none) := by
      rw [hs₁]
      exact info_push_new [.fresh none] 0
    cases hi.symm.trans hfresh
    obtain ⟨hsteps, htype, rfl⟩ :=
      Outline.Expanded.fresh hnew.good hfresh rfl (hr.extend hnew.grows.types) hexpanded
    have hread : s₂.outline.Readable s.outline.vars.length :=
      readable_fresh (o := ({ s with types := g } : Session).outline) htypes.good (hs₁ ▸ hsteps.keeps)
    obtain ⟨rfl, hv, hisRead⟩ := valueOf_isRead hsteps.good hread hvalue
    cases htype.symm.trans hisRead.type
    have hinstance' := hinstance.extend (hnew.grows.types.trans hsteps.grows.types)
    have hvoid : v.type ≠ .void := fun heq =>
      hne ((instance_eq_of_base hinstance' (heq ▸ hsteps.good.types.void) rfl).trans heq)
    refine ⟨(htypes.trans hnew).trans hsteps, hv, .inr ⟨hne, fun hs => hvoid (hv.void.1 hs),
      hinstance', hisRead.leaves hvoid, hsteps.good.slots_nodup _, fun l hl => ?_⟩⟩
    exact hsteps.good.le_of_mem_slots hl

end Lower

end SlotCode
