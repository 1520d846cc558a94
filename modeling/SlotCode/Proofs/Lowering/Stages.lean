import SlotCode.Proofs.Lowering.Blame
import SlotCode.Proofs.Lowering.Jumps

/-!
# Stages of lowering

A tree is lowered part by part.  After each part there is an outline that comes `Later` than the one
before it, and what puts the parts together is code that stores into new variables only (`Code.Fresh`).
-/

namespace SlotCode

variable {yes target : Expr} {v value w : Value} {s s₁ s₂ s₃ s₄ s₅ s' : Session} {payload : TypeId}
  {operand : Operand} {span : Span} {id : VarId} {pattern : Pattern} {mode : BindMode}
  {slots : List VarId} {label : Option String} {held : Bool} {code yesCode noCode yesCode' : Code}

open Outline Lower List

/-! ## Later outlines -/

namespace Outline

variable {o o₁ o' : Outline} {x : VarId}

/-- A slot of a variable with a name. -/
def Named (o : Outline) (x : VarId) : Prop :=
  ∃ name id, (name, id) ∈ o.names ∧ x ∈ o.slots id

/-- The outline `o'` comes after `o`.  Names are given to new variables only. -/
structure Precedes (o o' : Outline) : Prop where
  grows : o.Grows o'
  good : o'.Good
  names : ∀ name id, (name, id) ∈ o'.names → (name, id) ∈ o.names ∨ o.vars.length ≤ id

/-- The outline `o'` comes after `o`, with the same open loops. -/
structure Later (o o' : Outline) : Prop extends Precedes o o' where
  loops : o'.loops = o.loops

theorem Steps.later (h : o.Steps o') : o.Later o' where
  grows := h.grows
  good := h.good
  names := fun _ _ hmem => .inl (h.names ▸ hmem)
  loops := h.loops

theorem Later.refl (hg : o.Good) : o.Later o :=
  (Steps.refl hg).later

theorem Precedes.trans (h : o.Precedes o₁) (h' : o₁.Precedes o') : o.Precedes o' where
  grows := h.grows.trans h'.grows
  good := h'.good
  names name id hmem := by
    rcases h'.names name id hmem with hmem | hnew
    · exact h.names name id hmem
    · exact .inr (h.grows.length_le.trans hnew)

theorem Later.trans (h : o.Later o₁) (h' : o₁.Later o') : o.Later o' :=
  ⟨h.toPrecedes.trans h'.toPrecedes, h'.loops.trans h.loops⟩

theorem Good.later_enter (hg : o.Good) : o.Later o.enter :=
  ⟨⟨.reframe _ _, hg.enter, fun _ _ hmem => .inl hmem⟩, rfl⟩

theorem Declared.later (h : Declared target pattern o o') (hg : o.Good) (hf : o.frames ≠ []) :
    o.Later o' := by
  obtain ⟨new, hadds, count, hvars, -⟩ := h.adds hg hf
  refine ⟨⟨hadds.grows, hadds.good, fun name id hmem => ?_⟩, hadds.loops⟩
  refine h.name_cases hmem |>.imp_right fun hid => ?_
  rw [hvars] at hid
  exact (mem_range'_1.1 hid).1

/-- Variables of names keep their slots. -/
theorem Precedes.named (h : o.Precedes o') (hs : o.Settled) (hx : o'.Named x) :
    o.vars.length ≤ x ∨ o.Named x := by
  obtain ⟨name, id, hmem, hslot⟩ := hx
  rcases h.names name id hmem with hmem | hnew
  · obtain ⟨t, ht⟩ := hs.typed name id hmem
    rw [h.grows.slots hs.good h.good ht] at hslot
    exact .inr ⟨name, id, hmem, hslot⟩
  · exact .inl (hnew.trans (h.good.le_of_mem_slots hslot))

end Outline

/-! ## Code that stores into new variables -/

/-- The code only moves data, into variables that are new since `o`. -/
structure Code.Fresh (o : Outline) (code : Code) : Prop where
  plain : ∀ c ∈ code, c.isPlain = true
  new : ∀ x ∈ code.writes, o.vars.length ≤ x

namespace Code.Fresh

variable {o o' : Outline} {a : Code}

theorem nil : Code.Fresh o [] :=
  ⟨forall_mem_nil _, forall_mem_nil _⟩

theorem after (h : o.Grows o') (ha : Code.Fresh o' a) : Code.Fresh o a :=
  ⟨ha.plain, fun x hx => h.length_le.trans (ha.new x hx)⟩

theorem native (span : Span) (primitive : Primitive) (inputs : List Operand) {outputs : List VarId}
    (h : ∀ x ∈ outputs, o.vars.length ≤ x) : Code.Fresh o [.native span primitive inputs outputs] :=
  ⟨plain_singleton rfl, fun x hx => h x (append_nil outputs ▸ hx)⟩

theorem box (o : Outline) (span : Span) (primitive : Primitive) (inputs : List Operand) :
    Code.Fresh o [.native span primitive inputs [o.vars.length]] :=
  .native span primitive inputs fun _ hx => new_of_mem_singleton hx

end Code.Fresh

theorem Stored.fresh {o o' : Outline} (h : Stored o o' code v w) : code.Fresh o := by
  obtain ⟨span, slots, rfl, -, -, hnew⟩ := h.slots
  exact ⟨plain_assignments _ _ _, fun x hx => hnew x (writes_assignments _ _ _ hx)⟩

section

variable {s s' : Session} {code : Code}

theorem holdInteger_fresh (h : holdInteger v span s = .ok (code, id) s') :
    code.Fresh s.outline := by
  rcases holdInteger_ok h with ⟨-, rfl, -⟩ | ⟨operand, -, rfl, rfl, -⟩
  · exact .nil
  · exact ⟨plain_singleton rfl, fun x hx => new_of_mem_singleton hx⟩

theorem keepValue_fresh (hg : s.outline.Good) (hv : v.Ok s.outline)
    (h : keepValue v span s = .ok (code, w) s') :
    s.outline.Steps s'.outline ∧ code.Fresh s.outline := by
  obtain ⟨hsteps, -, hcopy⟩ := keepValue_stored hg hv h
  rcases hcopy with ⟨-, rfl, -⟩ | ⟨-, hstored⟩
  · exact ⟨hsteps, .nil⟩
  · exact ⟨hsteps, hstored.fresh⟩

/-- A call stores into new temporaries. -/
theorem callCommand_fresh {result : TypeId} {b : Bindings} {targetSpan : Span}
    {outputs : List VarId} {name : String} {native : Bool} {inputs : List Operand}
    {command : Command} (hg : s.outline.Good) (hvalue : s.types.IsValue result)
    (hb : BindsValues s.types b) (hresult : callResult result b span s = .ok (outputs, v) s₁)
    (hcommand : callCommand name native inputs outputs targetSpan span s₁ = .ok command s') :
    s.outline.Steps s'.outline ∧ Code.Fresh s.outline [command] := by
  obtain ⟨hsteps, -, hreads⟩ := callResult_reads hg hvalue hb hresult
  have hnew : ∀ x ∈ outputs, s.outline.vars.length ≤ x := by
    rcases hreads with ⟨-, rfl, -⟩ | ⟨-, -, -, -, -, hnew⟩
    · exact forall_mem_nil _
    · exact hnew
  obtain ⟨hs', hform⟩ := callCommand_ok hcommand
  refine ⟨hs' ▸ hsteps, ?_⟩
  rcases hform with ⟨-, rfl⟩ | ⟨-, primitive, -, rfl⟩
  · exact ⟨plain_singleton rfl, fun x hx => hnew x (append_nil outputs ▸ hx)⟩
  · exact .native _ _ _ hnew

end

/-! ## Operands -/

/-- The code of an operand, and then that of the variable in which it is held. -/
theorem Part.Lowered.begins {part : Part} (h : part.Lowered held) (hg : part.before.outline.Good) :
    ∃ code v s₁ holding, lowerExpr part.expr part.before = .ok (code, v) s₁ ∧
      part.code = code ++ holding ∧ s₁.outline.Steps part.after.outline ∧
      Code.Ok part.after.outline holding ∧ holding.Fresh s₁.outline := by
  cases h with
  | value h =>
    exact ⟨_, _, _, [], h, (append_nil _).symm, .refl (Expr.lowers _ hg h).1.good, .nil, .nil⟩
  | held h htype hhold =>
    obtain ⟨hsteps, -, hv⟩ := Expr.lowers _ hg h
    obtain ⟨-, htype⟩ := eq_of_expectType hsteps.good hv hsteps.good.types.integer rfl htype
    obtain ⟨hsteps', hemits, -⟩ := holdInteger_holds hsteps.good hv htype hhold
    exact ⟨_, _, _, _, h, rfl, hsteps', hemits.ok, holdInteger_fresh hhold⟩

/-- The operands of the expression are lowered in turn, and then put together by code that stores into new
variables. -/
def Combined (e : Expr) (s : Session) (code : Code) (s' : Session) : Prop :=
  ∃ first last s₁ parts, code = first ++ last ∧ InTurn e.isCompare e.operands s first s₁ parts ∧
    s₁.outline.Steps s'.outline ∧ last.Fresh s₁.outline

namespace Combined

variable {s s' : Session} {code : Code} {v : Value}

section

variable (hg : s.outline.Good)

include hg

theorem tuple {span : Span} {items : List Expr} (h : lowerExpr (.tuple span items) s = .ok (code, v) s') :
    Combined (.tuple span items) s code s' := by
  cases lowerExpr_cases h with
  | tuple hlower htuple =>
    obtain ⟨parts, hparts, -⟩ := lowerItems_inTurn hlower
    obtain ⟨hsteps, -, hvalues⟩ := lowerItems_emits (Expr.lowersAll items) hg hlower
    obtain ⟨hsteps', -⟩ := tupleOf_value hsteps.good hvalues htuple
    exact ⟨_, [], _, parts, (append_nil _).symm, hparts, hsteps', .nil⟩

theorem arith {span : Span} {op : ArithOp} {operands : List Expr}
    (h : lowerExpr (.arith span op operands) s = .ok (code, v) s') :
    Combined (.arith span op operands) s code s' := by
  cases lowerExpr_cases h with
  | arith hlower =>
    obtain ⟨parts, hparts, -⟩ := lowerOperands_inTurn hlower
    obtain ⟨hsteps, -⟩ := lowerOperands_emits (Expr.lowersAll operands) hg hlower
    exact ⟨_, [], _, parts, (append_nil _).symm, hparts, .refl hsteps.good, .nil⟩

theorem compare {span : Span} {chain : List Link}
    (h : lowerExpr (.compare span chain) s = .ok (code, v) s') :
    Combined (.compare span chain) s code s' := by
  cases lowerExpr_cases h with
  | compare hgroup hlinks hrun =>
    obtain ⟨parts, hparts, -⟩ := lowerGroup_inTurn hgroup
    obtain ⟨parts', hparts', -⟩ := lowerLinks_inTurn hlinks
    have hsteps := lowerLinks_steps (lowerGroup_steps hg hgroup).good hlinks
    have hsteps' := runComparisons_steps hsteps.good hrun
    obtain ⟨-, rfl, -⟩ := runComparisons_ok hrun
    exact ⟨_, _, _, _, rfl, hparts.append hparts', hsteps', plain_comparisonCode _ _,
      fun x hx => writes_comparisonCode hx⟩

theorem call {span : Span} {target : Expr} {args : List Expr}
    (h : lowerExpr (.call span target args) s = .ok (code, v) s') :
    Combined (.call span target args) s code s' := by
  cases lowerExpr_cases h with
  | call hcallee hlen hlower hresult hcommand =>
    obtain ⟨parts, hparts, -⟩ := lowerArgs_inTurn hlen hlower
    obtain ⟨-, hparams, hresultValue, -⟩ := callee_values hg hcallee
    obtain ⟨hsteps, -, -, hb⟩ := lowerArgs_emits (Expr.lowersAll args) hlen hg hparams .nil hlower
    have hvalue := hresultValue.extend hsteps.grows.types
    obtain ⟨hsteps', hfresh⟩ := callCommand_fresh hsteps.good hvalue hb hresult hcommand
    exact ⟨_, _, _, parts, rfl, hparts, hsteps', hfresh⟩

theorem cons {span : Span} {head tail : Expr} (h : lowerExpr (.cons span head tail) s = .ok (code, v) s') :
    Combined (.cons span head tail) s code s' := by
  cases lowerExpr_cases h with
  | cons hhead htail hcons =>
    obtain ⟨hsteps, -, hv⟩ := head.lowers hg hhead
    obtain ⟨hsteps', -, hv'⟩ := tail.lowers hsteps.good htail
    obtain ⟨hsteps'', -⟩ := consValue_value hsteps'.good (hv.mono hsteps.good hsteps'.keeps) hv' hcons
    obtain ⟨_, _, _, _, -, -, -, -, -, rfl, -⟩ := consValue_ok hcons
    exact ⟨_, _, _, _, rfl, (InTurn.single (.value hhead)).append (.single (.value htail)), hsteps'',
      .box _ _ _ _⟩

end

/-- Every expression that has operands. -/
theorem of_operand {e operand : Expr} (hmem : operand ∈ e.operands) (hg : s.outline.Good)
    (h : lowerExpr e s = .ok (code, v) s') : Combined e s code s' := by
  cases e with
  | tuple => exact .tuple hg h
  | arith => exact .arith hg h
  | compare => exact .compare hg h
  | call => exact .call hg h
  | cons => exact .cons hg h
  | _ => cases hmem

end Combined

/-! ## Blocks and branches -/

theorem exit_later {new : List (String × VarId)} (h : s.outline.enter.Adds s₁.outline new) :
    s₁.outline.Later s₁.exit.outline := by
  obtain ⟨hsteps, hkeeps, hloops⟩ := exit_adds h
  refine ⟨⟨hkeeps.grows, hkeeps.good, fun name id hmem => .inl ?_⟩, hloops⟩
  rw [hsteps.names] at hmem
  rw [h.names]
  exact mem_append_right _ hmem

/-- The branch for a full box has been lowered. -/
theorem Unboxed.exits {box : Value}
    (hunboxed : Unboxed span box target payload operand id pattern mode slots s₁ s₂ s₃ s₄)
    (hs₁ : s₁.outline.Settled)
    (hyes : lowerExpr yes s₄ = .ok (code, v) s₅) :
    s₂.outline.Steps s₅.exit.outline ∧ s₅.outline.Settled ∧ s₅.outline.Later s₅.exit.outline ∧
      s₅.exit.outline.Settled ∧ v.Ok s₅.exit.outline := by
  obtain ⟨hs₂, hs₄, new, hadds⟩ := hunboxed.settles hs₁
  obtain ⟨hsteps, -, hv⟩ := yes.lowers hs₄.good hyes
  have hall := hadds.trans (hsteps.adds hadds.frames_ne)
  obtain ⟨hout, hkeeps, -⟩ := exit_adds hall
  exact ⟨hout, hs₄.step hsteps, exit_later hall, hs₂.step hout, hv.mono hsteps.good hkeeps⟩

/-- Branches that are joined are followed by code that stores their values into new variables. -/
theorem joinBranches_appends {yes : Value} {no : Option (Code × Value)} (hg : s.outline.Good)
    (hyes : yes.Ok s.outline) (hno : ∀ c w, no = some (c, w) → w.Ok s.outline)
    (h : joinBranches (yesCode, yes) no span s = .ok (yesCode', noCode, v) s') :
    s.outline.Steps s'.outline ∧ ∃ a b, yesCode' = yesCode ++ a ∧
      noCode = (no.map Prod.fst).getD [] ++ b ∧ a.Fresh s.outline ∧ b.Fresh s.outline := by
  obtain ⟨hsteps, -, hjoin⟩ := joinBranches_stored hg hyes hno h
  refine ⟨hsteps, ?_⟩
  rcases hjoin with ⟨-, rfl, rfl, -⟩ | ⟨-, c, w, a, b, rfl, -, rfl, rfl, ha, hb⟩
  · exact ⟨[], [], (append_nil _).symm, (append_nil _).symm, .nil, .nil⟩
  · exact ⟨a, b, rfl, rfl, ha.fresh, hb.fresh⟩

/-- The session in which the body of a loop is lowered. -/
theorem newLoop_settles {ref : LoopRef} (hs : s.outline.Settled)
    (h : updateScope (·.newLoop label span) s.enter = .ok ref s₁) : s₁.outline.Settled := by
  obtain ⟨rfl, hs₁⟩ := newLoop_ok h
  have hopen : s₁.outline = s.outline.enter.openLoop label := hs₁
  rw [hopen]
  exact Settled.openLoop hs.enter (cons_ne_nil _ _) label

end SlotCode
