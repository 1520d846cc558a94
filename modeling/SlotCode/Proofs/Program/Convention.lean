import SlotCode.Proofs.Lowering.Programs

/-!
# Calling convention

A call in a lowered program names exactly one function, and it has one output for each operand that
the function returns.  It has one input for each variable that receives an argument, except that a
parameter of type `void` has a variable and gets no input (`lowerProgram_calls_agree`).
-/

namespace SlotCode

open Outline

/-- A parameter of type `void` has one leaf, which is not passed. -/
theorem length_paramLeaves {g : TypeGraph} (hg : g.Regular) (params : List TypeId) :
    (paramLeaves g params).length + params.countP (· = .void) =
      (params.flatMap g.leafTypes).length := by
  induction params with
  | nil => rfl
  | cons param params ih =>
    by_cases hvoid : param = .void
    · subst hvoid
      have hleaf : g.leafTypes .void = [.void] :=
        TypeGraph.leafTypes_of_not_tuple hg.void rfl
      simp [paramLeaves, hleaf] at ih ⊢
      omega
    · simp [paramLeaves, hvoid] at ih ⊢
      omega

theorem countP_void {g : TypeGraph} (hg : g.Regular) {params : List Param} {ids : List TypeId}
    (h : g.DenotesEach (params.map Param.type) ids) :
    ids.countP (· = .void) = params.countP Param.isVoid := by
  replace h := List.forall₂_map_left_iff.1 (TypeGraph.denotesEach_iff.1 h)
  induction h with
  | nil => rfl
  | @cons param id _ _ h _ ih =>
    have hdec : decide (id = .void) = param.isVoid := by
      rw [Bool.eq_iff_iff, decide_eq_true_iff]
      exact h.void_iff hg
    rw [List.countP_cons, List.countP_cons, ih, hdec]

/-- A call names exactly one function.  It has an output for each operand that the function returns,
and an input for each argument but those of parameters of type `void`. -/
theorem lowerProgram_calls_agree (config : Config) (decls : List FnDecl) (p : Program) (s : Session)
    (h : lowerProgram config decls .initial = .ok p s) :
    ∀ f ∈ p.functions, ∀ span target inputs outputs,
      .call span target inputs outputs ∈ Command.nestedAll f.code →
      ∃ decl ∈ decls, decl.name = target ∧
        ∃ g, p.functions.filter (fun g => g.name = target) = [g] ∧
          inputs.length + decl.params.countP Param.isVoid = g.args.length ∧
          outputs.length = g.value.length := by
  obtain ⟨d, hb⟩ := built_of_lowerProgram h
  intro f hf span target inputs outputs hmem
  obtain ⟨decl, -, params, s, s₁, s₂, v, hc, hfunctions, -, hext⟩ :=
    TypeGraph.exists_of_forall₂ hb.functions.flip hf
  obtain ⟨hsteps, hemits, -⟩ := hc.lowered
  have hsound := hsteps.good.types.toSound
  cases hemits.ok _ hmem with
  | call hi ho hcall =>
    obtain ⟨sig, raw, result, hsig, hk, hins, houts⟩ := hcall
    rw [hc.functions, hfunctions] at hsig
    obtain ⟨decl', hdecl', g, hg, hname, hresult, params', t, t₁, t₂, w, hc', -, hext', hraw⟩ :=
      hb.callee hext hsig hk
    have htarget : g.name = target := hc'.name.trans hname
    refine ⟨decl', hdecl', hname, g, htarget ▸ hb.filter_name hg, ?_, ?_⟩
    · have hraws : ∀ q ∈ raw, q < s₂.outline.types.size := fun q hq =>
        hsound.closed _ _ ⟨_, hk, List.mem_append_left _ hq⟩
      have hleaves : paramLeaves s₂.outline.types raw = paramLeaves p.types params' := by
        rw [← paramLeaves_extend hsound hext hraws, hraw, paramLeaves_declared]
      rw [(hc'.args_typed hext').length_eq, ← length_paramLeaves hb.regular,
        countP_void hc'.prepared.good.types hc'.denoted, ← hleaves, hins.length_eq, hi.length_eq]
    · rw [hc'.length_value hext', hresult, ho.length_eq]
      rcases houts with ⟨hvoid, rfl⟩ | ⟨hvoid, bindings, r, hr, hvalue, rfl⟩
      · rw [if_pos hvoid, List.length_nil]
      · have hlt : result < s₂.outline.types.size :=
          hsound.closed _ _ ⟨_, hk, List.mem_append_right _ List.mem_cons_self⟩
        rw [if_neg hvoid, TypeGraph.leafTypes_extend hsound hext hlt, (hr.leafTypes hsound).length_eq]

/-- A function with a parameter of type `void`, and a call that gives it an argument. -/
def voidParamDecls : List FnDecl :=
  let at0 : Span := ⟨0, 0⟩
  [{  name := "second"
      params := [⟨"x", at0, .void at0⟩, ⟨"y", at0, .integer at0⟩]
      result := .integer at0
      body := .mk at0 [.yield at0 (.var at0 "y")]
      span := at0 },
    { name := "nothing"
      params := []
      result := .void at0
      body := .mk at0 []
      span := at0 },
    { name := "three"
      params := []
      result := .integer at0
      body := .mk at0
        [.yield at0 (.call at0 (.var at0 "second")
          [.call at0 (.var at0 "nothing") [], .int at0 3])]
      span := at0 }]

theorem lowerProgram_calls_agree_voidParam :
    ∃ p s, lowerProgram .library voidParamDecls .initial = .ok p s ∧ p.functions.length = 3 ∧
      ∀ f ∈ p.functions, ∀ span target inputs outputs,
        .call span target inputs outputs ∈ Command.nestedAll f.code →
        ∃ decl ∈ voidParamDecls, decl.name = target ∧
          ∃ g, p.functions.filter (fun g => g.name = target) = [g] ∧
            inputs.length + decl.params.countP Param.isVoid = g.args.length ∧
            outputs.length = g.value.length := by
  have hrun : succeeds (fun p : Program => p.functions.length == 3)
      (lowerProgram .library voidParamDecls .initial) = true := by
    decide +kernel
  obtain ⟨p, s, h, hlen⟩ := exists_ok_of_succeeds hrun
  exact ⟨p, s, h, beq_iff_eq.1 hlen, lowerProgram_calls_agree .library voidParamDecls p s h⟩

/-- The command calls the function with another number of inputs than it has arguments. -/
def Command.miscalls (g : Function) : Command → Bool
  | .call _ target inputs _ => target == g.name && inputs.length != g.args.length
  | _ => false

theorem Command.miscalls_iff {g : Function} {c : Command} : c.miscalls g = true ↔
    ∃ span inputs outputs, c = .call span g.name inputs outputs ∧ inputs.length ≠ g.args.length := by
  cases c with
  | call span target inputs outputs =>
    simp only [miscalls, Bool.and_eq_true, beq_iff_eq, bne_iff_ne, Command.call.injEq]
    constructor
    · rintro ⟨rfl, hlen⟩
      exact ⟨span, inputs, outputs, ⟨rfl, rfl, rfl, rfl⟩, hlen⟩
    · rintro ⟨_, _, _, ⟨rfl, rfl, rfl, rfl⟩, hlen⟩
      exact ⟨rfl, hlen⟩
  | _ => simp [miscalls]

/-- The call has one input, and the function has two arguments. -/
theorem lowerProgram_voidParam_miscalls :
    ∃ p s, lowerProgram .library voidParamDecls .initial = .ok p s ∧
      ∃ f ∈ p.functions, ∃ g ∈ p.functions, ∃ span inputs outputs,
        .call span g.name inputs outputs ∈ Command.nestedAll f.code ∧
          inputs.length ≠ g.args.length := by
  have hrun : succeeds
      (fun p : Program => p.functions.any fun f => p.functions.any fun g =>
        (Command.nestedAll f.code).any (Command.miscalls g))
      (lowerProgram .library voidParamDecls .initial) = true := by
    decide +kernel
  obtain ⟨p, s, h, hcall⟩ := exists_ok_of_succeeds hrun
  obtain ⟨f, hf, hcall⟩ := List.any_eq_true.1 hcall
  obtain ⟨g, hg, hcall⟩ := List.any_eq_true.1 hcall
  obtain ⟨c, hc, hcall⟩ := List.any_eq_true.1 hcall
  obtain ⟨span, inputs, outputs, rfl, hlen⟩ := Command.miscalls_iff.1 hcall
  exact ⟨p, s, h, f, hf, g, hg, span, inputs, outputs, hc, hlen⟩

end SlotCode
