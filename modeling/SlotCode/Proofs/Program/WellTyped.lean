import SlotCode.Proofs.Lowering.Programs

/-!
# Programs are well typed

Every command of a lowered program is well typed, at any depth, against the tables that the program
itself carries (`Program.typing`).  Types count as equal if matching accepts them without bindings.
-/

namespace SlotCode

open Outline

/-- The outputs of a call have the types of the leaves of the result, after placeholders have been
replaced; a call without a result has no outputs. -/
def Program.Delivers (p : Program) (result : TypeId) (outs : List TypeId) : Prop :=
  result = .void ∧ outs = [] ∨ result ≠ .void ∧ ∃ bindings r leaves,
    p.types.Instance bindings result r ∧ p.types.leaves r = .ok leaves ∧
      List.Forall₂ (fun a b => ∀ sp sp', p.types.Accepts a b sp sp' none) leaves outs

/-- The inputs of a call match the leaves of the parameters, up to placeholders; nothing is passed for a
parameter of type `void`.  The arguments of the function are the leaves of all its parameters. -/
def Program.Receives (p : Program) (f : Function) (ins : List TypeId) : Prop :=
  ∃ params, List.Forall₂ (fun id type => f.vars[id]?.bind Var.type = some type) f.args
      (params.flatMap p.types.leafTypes) ∧
    List.Forall₂ (p.types.Alike true) (paramLeaves p.types params) ins

/-- What the code of a function of the program is typed against. -/
def Program.typing (p : Program) (f : Function) : Typing where
  types := p.types
  var := fun id => f.vars[id]?.bind Var.type
  same := fun a b => ∀ sp sp', p.types.Accepts a b sp sp' none
  callable := fun target ins outs => ∃ g ∈ p.functions, g.name = target ∧ p.Receives g ins ∧
    p.Delivers g.result outs

theorem TypeGraph.accepts_self (g : TypeGraph) (a : TypeId) (sp sp' : Span) :
    g.Accepts a a sp sp' none := by
  refine ⟨none, ?_⟩
  simp only [matchTypes, matchDepth, Nat.succ_mul, matchWithin, if_true]
  rfl

theorem TypeGraph.Alike.accepts {g : TypeGraph} (hg : g.Sound) {a b : TypeId}
    (h : g.Alike false a b) (sp sp' : Span) : g.Accepts a b sp sp' none := by
  by_cases heq : a = b
  · exact heq ▸ g.accepts_self a sp sp'
  · have hlt : a < g.size ∧ b < g.size := by
      cases h.agree with
      | same => exact absurd rfl heq
      | tuple ha hb | box ha hb | placeholder ha hb =>
        exact ⟨lt_size_of_kind ha, lt_size_of_kind hb⟩
      | bound hfree => cases hfree
    exact (accepts_iff_alike hg hlt.1 hlt.2 sp sp' none).2 h

namespace Built

variable {decls : List FnDecl} {p : Program} {d : Outline}

/-- The typing of the outline in which a function was lowered is part of the typing of the function. -/
theorem typing_grows (hb : Built decls p d) {decl : FnDecl} {f : Function} {params : List TypeId}
    {s s₁ s₂ : Session} {v : Value} (hc : Compiled decls decl f params s s₁ s₂ v)
    (hfunctions : s.outline.functions = d.functions) (hext : s₂.types.Extends p.types) :
    s₂.outline.typing.Grows (p.typing f) where
  types := hext
  var := fun id type h => (hc.typeOf_eq id).symm.trans h
  same := fun a b h sp sp' => (h.extend hext).accepts hb.regular.toSound sp sp'
  callable := by
    rintro target ins outs ⟨sig, raw, result, hsig, hk, hins, houts⟩
    have hsound := hc.lowered.1.good.types.toSound
    have hraws : ∀ q ∈ raw, q < s₂.outline.types.size := fun q hq =>
      hsound.closed _ _ ⟨_, hk, List.mem_append_left _ hq⟩
    rw [hc.functions, hfunctions] at hsig
    obtain ⟨decl', -, g, hg, hname, hresult, params', t, t₁, t₂, w, hc', -, hext', rfl⟩ :=
      hb.callee hext hsig hk
    rw [← paramLeaves_extend hsound hext hraws, paramLeaves_declared] at hins
    refine ⟨g, hg, hc'.name.trans hname,
      ⟨params', hc'.args_typed hext', hins.imp fun _ _ => TypeGraph.Alike.extend hext⟩, ?_⟩
    rw [hresult]
    refine houts.imp_right fun ⟨hne, bindings, r, hinst, hvalue, heq⟩ =>
      ⟨hne, bindings, r, outs, hinst.extend hext, ?_, List.forall₂_same.2 fun a _ => p.types.accepts_self a⟩
    rw [heq]
    exact TypeGraph.leaves_extend hext (TypeGraph.leaves_eq hsound hvalue.lt_size)

end Built

/-- Every command of a lowered program is well typed, and so is what each function receives and
returns. -/
theorem lowerProgram_wellTyped (config : Config) (decls : List FnDecl) (p : Program) (s : Session)
    (h : lowerProgram config decls .initial = .ok p s) : ∀ f ∈ p.functions,
      (∀ c ∈ Command.nestedAll f.code, c.WellTyped (p.typing f)) ∧
      (∀ id ∈ f.args, ∃ type, (p.typing f).var id = some type) ∧
      (f.result = .void ∧ f.value = [] ∨ f.result ≠ .void ∧ ∃ types,
        List.Forall₂ (Operand.HasType (p.typing f)) f.value types ∧
          (p.typing f).Spreads f.result types) := by
  obtain ⟨d, hb⟩ := built_of_lowerProgram h
  intro f hf
  obtain ⟨decl, -, params, s, s₁, s₂, v, hc, hfunctions, -, hext⟩ :=
    TypeGraph.exists_of_forall₂ hb.functions.flip hf
  have hgrows := hb.typing_grows hc hfunctions hext
  obtain ⟨hsteps, hemits, hv⟩ := hc.lowered
  refine ⟨fun c hmem => (hemits.ok c hmem).mono hgrows, fun id hid => ?_, ?_⟩
  · obtain ⟨type, -, htype⟩ := TypeGraph.exists_of_forall₂ (hc.args_typed hext) hid
    exact ⟨type, htype⟩
  · rw [hc.value]
    by_cases hvoid : f.result = .void
    · exact .inl ⟨hvoid, Value.leaves_of_void (hc.result_void_iff.2 hvoid)⟩
    · have hshape : v.shape ≠ .void := fun hs => hvoid (hc.result_void_iff.1 hs)
      refine .inr ⟨hvoid, _, hgrows.operands (hv.typed hshape), hgrows.spreads ?_⟩
      exact ⟨_, TypeGraph.leaves_eq hsteps.good.types.toSound hc.result_lt,
        hc.result.leafTypes hsteps.good.types.toSound⟩

/-- Two functions: one takes a pair apart, and the other calls it. -/
def swapDecls : List FnDecl :=
  let at0 : Span := ⟨0, 0⟩
  [{  name := "swap"
      params := [⟨"p", at0, .tuple at0 [.integer at0, .boolean at0]⟩]
      result := .tuple at0 [.boolean at0, .integer at0]
      body := .mk at0
        [.bind at0 (.tuple at0 [.var at0 "a", .var at0 "b"]) (.var at0 "p"),
          .yield at0 (.tuple at0 [.var at0 "b", .var at0 "a"])]
      span := at0 },
    { name := "main"
      params := []
      result := .void at0
      body := .mk at0
        [.eval at0 (.call at0 (.var at0 "swap") [.tuple at0 [.int at0 1, .bool at0 true]])]
      span := at0 }]

theorem lowerProgram_wellTyped_swap : ∃ p s, lowerProgram .standard swapDecls .initial = .ok p s ∧
    p.functions.length = 2 ∧ ∀ f ∈ p.functions,
      (∀ c ∈ Command.nestedAll f.code, c.WellTyped (p.typing f)) ∧
      (∀ id ∈ f.args, ∃ type, (p.typing f).var id = some type) ∧
      (f.result = .void ∧ f.value = [] ∨ f.result ≠ .void ∧ ∃ types,
        List.Forall₂ (Operand.HasType (p.typing f)) f.value types ∧
          (p.typing f).Spreads f.result types) := by
  have hrun : succeeds (fun p : Program => p.functions.length == 2)
      (lowerProgram .standard swapDecls .initial) = true := by
    decide +kernel
  obtain ⟨p, s, h, hlen⟩ := exists_ok_of_succeeds hrun
  exact ⟨p, s, h, beq_iff_eq.1 hlen, lowerProgram_wellTyped .standard swapDecls p s h⟩

end SlotCode
