import SlotCode.Proofs.Lowering.Expressions

/-!
# Operands in turn

The operands of an expression are lowered from left to right, each in the session that the one before it
leaves (`InTurn`).  Whatever puts their values together, a tuple, an operator, a call or a list, comes
after the code of all of them (`lowerExpr_inTurn`).

What an operand has made so far stays as it is: a value that is handed on, or, in a comparison, a variable
that holds it.
-/

namespace SlotCode

open Outline Lower List

/-- An operand, its code, and what the rest of the expression uses in its place. -/
structure Part where
  expr : Expr
  before : Session
  code : Code
  operands : List Operand
  after : Session

/-- How an operand is lowered: its value is handed on, or it is `held` in a variable. -/
inductive Part.Lowered : Bool → Part → Prop where
  | value {e : Expr} {s s' : Session} {code : Code} {v : Value} (h : lowerExpr e s = .ok (code, v) s') :
      Part.Lowered false ⟨e, s, code, v.leaves, s'⟩
  | held {e : Expr} {s s₁ s' : Session} {code holding : Code} {v : Value} {id : VarId} {span : Span}
      (h : lowerExpr e s = .ok (code, v) s₁)
      (htype : expectType .integer v span s₁ = .ok () s₁)
      (hhold : holdInteger v e.span s₁ = .ok (holding, id) s') :
      Part.Lowered true ⟨e, s, code ++ holding, [.var id], s'⟩

/-- The expressions are lowered one after the other. -/
inductive InTurn (held : Bool) : List Expr → Session → Code → Session → List Part → Prop where
  | nil {s : Session} : InTurn held [] s [] s []
  | cons {part : Part} {es : List Expr} {code : Code} {s' : Session} {parts : List Part}
      (h : part.Lowered held) (hs : InTurn held es part.after code s' parts) :
      InTurn held (part.expr :: es) part.before (part.code ++ code) s' (part :: parts)

section

variable {held : Bool} {es es' : List Expr} {s s₁ s' : Session} {code code' : Code}
  {parts parts' : List Part}

theorem InTurn.append (h : InTurn held es s code s₁ parts) (h' : InTurn held es' s₁ code' s' parts') :
    InTurn held (es ++ es') s (code ++ code') s' (parts ++ parts') := by
  induction h with
  | nil => exact h'
  | cons hpart _ ih =>
    rw [append_assoc]
    exact .cons hpart (ih h')

/-- There is one part for each expression. -/
theorem InTurn.map_expr (h : InTurn held es s code s' parts) : parts.map Part.expr = es := by
  induction h with
  | nil => rfl
  | cons _ _ ih => rw [map_cons, ih]

theorem InTurn.single {part : Part} (h : part.Lowered held) :
    InTurn held [part.expr] part.before part.code part.after [part] := by
  have hturn := InTurn.cons h .nil
  rwa [append_nil] at hturn

/-! ## Lists of operands -/

theorem lowerItems_inTurn {values : List Value} (h : lowerItems es s = .ok (code, values) s') :
    ∃ parts, InTurn false es s code s' parts ∧
      parts.flatMap Part.operands = values.flatMap Value.leaves := by
  induction es generalizing s code values with
  | nil =>
    cases h
    exact ⟨[], .nil, rfl⟩
  | cons e es ih =>
    obtain ⟨c, v, s₁, cs, vs, hhead, htail, rfl, rfl⟩ := lowerItems_cons h
    obtain ⟨parts, hparts, hoperands⟩ := ih htail
    exact ⟨_, .cons (.value hhead) hparts, congrArg (v.leaves ++ ·) hoperands⟩

theorem lowerOperands_inTurn {type : TypeId} {span : Span} {operands : List Operand}
    (h : lowerOperands type span es s = .ok (code, operands) s') :
    ∃ parts, InTurn false es s code s' parts ∧ parts.flatMap Part.operands = operands := by
  induction es generalizing s code operands with
  | nil =>
    cases h
    exact ⟨[], .nil, rfl⟩
  | cons e es ih =>
    obtain ⟨c, v, s₁, operand, cs, ops, hhead, -, hshape, htail, rfl, rfl⟩ := lowerOperands_cons h
    obtain ⟨parts, hparts, rfl⟩ := ih htail
    exact ⟨_, .cons (.value hhead) hparts, by simp [Value.leaves, hshape]⟩

theorem lowerGroup_inTurn {span : Span} {ids : List VarId}
    (h : lowerGroup span es s = .ok (code, ids) s') :
    ∃ parts, InTurn true es s code s' parts ∧ parts.flatMap Part.operands = ids.map .var := by
  induction es generalizing s code ids with
  | nil =>
    cases h
    exact ⟨[], .nil, rfl⟩
  | cons e es ih =>
    obtain ⟨c, v, s₁, holding, id, s₂, cs, rest, hhead, htype, hhold, htail, rfl, rfl⟩ := lowerGroup_cons h
    obtain ⟨parts, hparts, hoperands⟩ := ih htail
    exact ⟨_, .cons (.held hhead htype hhold) hparts, congrArg (Operand.var id :: ·) hoperands⟩

/-- Variables are compared that hold an operand, of this chain or of what came before it. -/
theorem lowerLinks_inTurn {span : Span} {left : List VarId} {before cs : List Comparison}
    {links : List Link} (h : lowerLinks span left before links s = .ok (code, cs) s') :
    ∃ parts, InTurn true (Link.allOperands links) s code s' parts ∧
      ∀ S : Set VarId, (∀ x ∈ left, x ∈ S) → (∀ c ∈ before, c.left ∈ S ∧ c.right ∈ S) →
        (∀ x ∈ Operand.readsAll (parts.flatMap Part.operands), x ∈ S) →
        ∀ c ∈ cs, c.left ∈ S ∧ c.right ∈ S := by
  induction lowerLinks_lowered h with
  | nil => exact ⟨[], .nil, fun S _ hbefore _ => hbefore⟩
  | @pair left right before opSpan op _ _ _ _ _ _ hgroup hrest _ ih =>
    obtain ⟨parts, hparts, hids⟩ := lowerGroup_inTurn hgroup
    obtain ⟨parts', hparts', hcs⟩ := ih hrest
    refine ⟨_, hparts.append hparts', fun S hleft hbefore hreads => ?_⟩
    rw [flatMap_append, hids] at hreads
    have hright : ∀ x ∈ right, x ∈ S := fun x hx => hreads x (Operand.mem_readsAll.2
      ⟨.var x, mem_append_left _ (mem_map_of_mem hx), mem_singleton_self x⟩)
    refine hcs S hright (fun c hc => ?_) fun x hx => hreads x ?_
    · rcases mem_append.1 hc with hc | hc
      · exact hbefore c hc
      · obtain ⟨l, hl, hc⟩ := mem_flatMap.1 hc
        obtain ⟨r, hr, rfl⟩ := mem_map.1 hc
        exact ⟨hleft l hl, hright r hr⟩
    · obtain ⟨operand, hmem, hx⟩ := Operand.mem_readsAll.1 hx
      exact Operand.mem_readsAll.2 ⟨operand, mem_append_right _ hmem, hx⟩

theorem lowerArgs_inTurn {targetSpan : Span} {params : List TypeId} {b b' : Bindings}
    {inputs : List Operand} (hlen : params.length = es.length)
    (h : lowerArgs targetSpan b es params s = .ok (code, inputs, b') s') :
    ∃ parts, InTurn false es s code s' parts ∧ parts.flatMap Part.operands = inputs := by
  induction es generalizing params s b code inputs with
  | nil =>
    obtain rfl := eq_nil_of_length_eq_zero hlen
    cases h
    exact ⟨[], .nil, rfl⟩
  | cons e es ih =>
    cases params with
    | nil => cases hlen
    | cons param params =>
      obtain ⟨c, v, s₁, _, b₁, cs, ins, hhead, -, htail, rfl, rfl⟩ := lowerArgs_cons h
      obtain ⟨parts, hparts, rfl⟩ := ih (Nat.succ.inj hlen) htail
      exact ⟨_, .cons (.value hhead) hparts, rfl⟩

/-- The operands of an expression come first. -/
theorem lowerExpr_inTurn {e : Expr} {v : Value} (h : lowerExpr e s = .ok (code, v) s') :
    ∃ first last s₁ parts, code = first ++ last ∧ InTurn e.isCompare e.operands s first s₁ parts := by
  cases lowerExpr_cases h with
  | tuple hitems =>
    obtain ⟨parts, hparts, -⟩ := lowerItems_inTurn hitems
    exact ⟨_, [], _, parts, (append_nil _).symm, hparts⟩
  | arith hoperands =>
    obtain ⟨parts, hparts, -⟩ := lowerOperands_inTurn hoperands
    exact ⟨_, [], _, parts, (append_nil _).symm, hparts⟩
  | compare hgroup hlinks =>
    obtain ⟨parts, hparts, -⟩ := lowerGroup_inTurn hgroup
    obtain ⟨parts', hparts', -⟩ := lowerLinks_inTurn hlinks
    exact ⟨_, _, _, _, rfl, hparts.append hparts'⟩
  | call _ hlen hargs =>
    obtain ⟨parts, hparts, -⟩ := lowerArgs_inTurn hlen hargs
    exact ⟨_, _, _, parts, rfl, hparts⟩
  | cons hhead htail =>
    exact ⟨_, _, _, _, rfl, (InTurn.single (.value hhead)).append (.single (.value htail))⟩
  | var | int | bool | str | block | cond | ifFull | loop | leave | leaveWith | wrap | wrapEmpty
  | consEmpty =>
    exact ⟨[], _, s, [], rfl, .nil⟩

/-! ## What operands read -/

/-- The operands read variables that exist, and none that a `leave` will write. -/
theorem Part.Lowered.reads {part : Part} (h : part.Lowered held) (hg : part.before.outline.Good) :
    part.before.outline.Steps part.after.outline ∧ ∀ x ∈ Operand.readsAll part.operands,
      x < part.after.outline.vars.length ∧ ¬ part.after.outline.Reserved x := by
  cases h with
  | value h =>
    obtain ⟨hsteps, -, hv⟩ := Expr.lowers _ hg h
    exact ⟨hsteps, fun x hx => ⟨hv.lt_of_reads hx, (hv.reads x hx).1⟩⟩
  | held h htype hhold =>
    obtain ⟨hsteps, -, hv⟩ := Expr.lowers _ hg h
    obtain ⟨-, htype⟩ := eq_of_expectType hsteps.good hv hsteps.good.types.integer rfl htype
    obtain ⟨hsteps', -, hid⟩ := holdInteger_holds hsteps.good hv htype hhold
    refine ⟨hsteps.trans hsteps', fun x hx => ?_⟩
    cases mem_singleton.1 hx
    exact ⟨lt_of_typeOf hid.type, hid.plain.1⟩

theorem InTurn.steps (h : InTurn held es s code s' parts) (hg : s.outline.Good) :
    s.outline.Steps s'.outline := by
  induction h with
  | nil => exact .refl hg
  | cons hpart _ ih =>
    have hsteps := (hpart.reads hg).1
    exact hsteps.trans (ih hsteps.good)

end

end SlotCode
