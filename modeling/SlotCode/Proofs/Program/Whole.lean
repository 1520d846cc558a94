import SlotCode.Proofs.Code.Renamed
import SlotCode.Proofs.Lowering.Whole
import SlotCode.Proofs.Program.Resting
import SlotCode.Proofs.Program.Slots

/-!
# Types that a lowered function mentions

All of them are whole: the type of its result, those of its variables and slots, and the types in its
code, which are types of operators and so among `integer`, `boolean` and `string`.
-/

namespace SlotCode

open Outline Lower List

/-! ## Code -/

/-- The types in an operand are types of operators. -/
theorem Operand.HasType.types_lt {t : Typing} {operand : Operand} {type : TypeId}
    (h : operand.HasType t type) : ∀ x ∈ operand.types, x < 4 := by
  induction h with
  | var | int | bool | str | compare => exact forall_mem_nil _
  | arith op _ ih =>
    refine forall_mem_cons.2 ⟨by cases op <;> decide, fun x hx => ?_⟩
    obtain ⟨operand, hmem, hx⟩ := mem_typesAll.1 hx
    exact ih operand hmem x hx

theorem Operand.typesAll_lt {t : Typing} {operands : List Operand} {types : List TypeId}
    (h : Forall₂ (Operand.HasType t) operands types) : ∀ x ∈ Operand.typesAll operands, x < 4 := by
  induction h with
  | nil => exact forall_mem_nil _
  | cons hhead _ ih => exact forall_mem_append.2 ⟨hhead.types_lt, ih⟩

namespace Command

mutual

theorem types_lt {t : Typing} (c : Command) (h : ∀ d ∈ c.nested, d.WellTyped t) :
    ∀ x ∈ c.types, x < 4 := by
  cases c with
  | assign span dest value =>
    cases h _ mem_cons_self with
    | assign _ hv _ => exact hv.types_lt
  | call span target inputs outputs =>
    cases h _ mem_cons_self with
    | call hi _ _ => exact Operand.typesAll_lt hi
  | native span primitive inputs outputs =>
    cases h _ mem_cons_self with
    | wrap hi _ _ _ => exact Operand.typesAll_lt hi
    | wrapEmpty _ _ => exact forall_mem_nil _
    | unwrap hi _ _ _ => exact Operand.typesAll_lt (.cons hi .nil)
    | full hi _ _ => exact Operand.typesAll_lt (.cons hi .nil)
    | print hi => exact Operand.typesAll_lt (.cons hi .nil)
  | branch span test yes no =>
    obtain ⟨hself, hinner⟩ := forall_mem_cons.1 h
    obtain ⟨hyes, hno⟩ := forall_mem_append.1 hinner
    cases hself with
    | branch ht =>
      exact forall_mem_append.2
        ⟨ht.types_lt, forall_mem_append.2 ⟨typesAll_lt yes hyes, typesAll_lt no hno⟩⟩
  | loop span id body => exact typesAll_lt body (forall_mem_cons.1 h).2
  | leave span id => exact forall_mem_nil _

/-- The types in typed code are types of operators. -/
theorem typesAll_lt {t : Typing} (code : List Command) (h : ∀ d ∈ nestedAll code, d.WellTyped t) :
    ∀ x ∈ typesAll code, x < 4 := by
  cases code with
  | nil => exact forall_mem_nil _
  | cons c code =>
    obtain ⟨hc, hcode⟩ := forall_mem_append.1 h
    exact forall_mem_append.2 ⟨types_lt c hc, typesAll_lt code hcode⟩

end

end Command

/-! ## Functions -/

/-- At rest there are no variables, and functions have whole types. -/
theorem Session.Resting.whole {s : Session} (hs : s.Resting) (free : Bool) : s.outline.Whole free where
  good := hs.settled.good
  functions name sig hsig := (hs.functions name sig hsig).whole
  vars id t ht := by
    rw [Outline.typeOf, Outline.info, Session.outline, Scope.infos, hs.idle.vars] at ht
    cases ht

/-- The types that a lowered function mentions are in the graph, and whole. -/
theorem lowerFunction_types_whole {decl : FnDecl} {f : Function} {s s' : Session} (hs : s.Resting)
    (h : lowerFunction decl s = .ok f s') :
    ∀ type ∈ f.types, type < s'.types.size ∧ s'.types.Whole true type := by
  obtain ⟨-, hslotted⟩ := lowerFunction_slotted hs.idle h
  obtain ⟨s₀, c, s₁, s₂, v, htypes, hscope, hl⟩ := lowerFunction_cases h
  have houtline := Session.outline_congr htypes hscope
  have hs₀ : s₀.outline.Whole true := houtline ▸ hs.whole true
  obtain ⟨-, sig, params, hsig, hk, hparams⟩ := callee_ok hl.callee
  have hparts : ∀ part ∈ params ++ [c.result], s₀.types.Whole true part := fun part hpart =>
    (hs₀.functions decl.name sig hsig).part ⟨_, hk, hpart⟩
  obtain ⟨hparts, hresult⟩ := forall_mem_append.1 hparts
  obtain ⟨-, hvalues, hvalue, -⟩ := callee_values hs₀.good hl.callee
  have hcparams : ∀ p ∈ c.params, s₀.types.Whole true p := by
    rw [hparams]
    split
    · exact forall_mem_nil _
    · exact hparts
  obtain ⟨hs₁, hs₂⟩ := hl.whole hs₀ hcparams (by rintro type - ⟨⟩)
  obtain ⟨hsteps, hemits, hv⟩ := Block.lowers decl.body hs₁.good hl.body
  have hext : s₀.types.Extends s₂.types := by
    have hkept := (lowerFunction_rests decl s hs.idle).1
    rw [h, show stateAfter (EStateM.Result.ok f s') = s' from rfl, hl.types, ← htypes] at hkept
    exact hkept.extends
  have hunits : ∀ x : TypeId, x < 4 → x < s₂.types.size ∧ s₂.types.Whole true x := fun x hx =>
    ⟨Nat.lt_of_lt_of_le hx (TypeGraph.lt_size_of_kind hs₂.good.types.string), hs₂.good.types.unit_whole hx⟩
  rw [hl.types, Function.types]
  intro type htype
  simp only [mem_append, mem_cons, mem_filterMap, mem_map, Array.mem_toList_iff, or_assoc] at htype
  rcases htype with rfl | ⟨v, hmem, hv⟩ | ⟨l, hmem, rfl⟩ | hcode | hvalue
  · rw [hl.result]
    exact ⟨(hvalue.extend hext).lt_size,
      (hresult _ mem_cons_self).extend hs₀.good.types.toSound hext hvalue.lt_size⟩
  · obtain ⟨id, hid⟩ := Array.mem_iff_getElem?.1 hmem
    exact hl.var_whole hs₂ hid hv
  · obtain ⟨i, hi⟩ := mem_iff_getElem?.1 hmem
    obtain ⟨v, hv, htype⟩ := hslotted.stored hi
    exact hl.var_whole hs₂ hv htype
  · exact hunits type (Command.typesAll_lt f.code hemits.ok type hcode)
  · rw [hl.value] at hvalue
    by_cases hvoid : v.shape = .void
    · rw [Value.leaves_of_void hvoid] at hvalue
      cases hvalue
    · exact hunits type (Operand.typesAll_lt (hv.typed hvoid) type hvalue)

end SlotCode
