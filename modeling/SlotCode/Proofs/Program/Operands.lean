import SlotCode.Proofs.Lowering.Effects
import SlotCode.Proofs.Meaning.Runs
import SlotCode.Proofs.Program.Sites

/-!
# Operands that keep their values

The operands of an expression are evaluated from left to right, but what an operand gives is often a
variable, and a variable is read when the whole expression is: after the code of all later operands has
run.  An operand keeps its value through the code of a later one if that one overwrites no variable that
it reads (`Part.Apart`, `Part.Outlasts`).  Otherwise it may change: in `(x, { set x = 2; x })` both items
are 2.

`operands_outlast` says this of every expression that lowering gets to.
-/

namespace SlotCode

open Outline Lower

/-- The operands of `part` read no variable of a name that `later` overwrites. -/
def Part.Apart (part later : Part) : Prop :=
  ∀ name id, later.expr.overwrites name = true → later.before.outline.lookup name = some id →
    ∀ x ∈ later.before.outline.slots id, x ∉ Operand.readsAll part.operands

/-- The operands of `part` have the same values before and after the code of `later`, whatever state of the
machine it runs from. -/
def Part.Outlasts (part later : Part) : Prop :=
  ∀ (A : Arithmetic) (p : Program) (fuel : Nat) (m : Machine) (exit : Exit) (m' : Machine),
    exec A p fuel later.code m = some (exit, m') →
      ∀ operand ∈ part.operands, operand.eval A m'.store = operand.eval A m.store

theorem Part.Lowered.outlasts {held : Bool} {part later : Part} (hpart : part.Lowered held)
    (hlater : later.Lowered held) (hg : part.before.outline.Good) (hs : later.before.outline.Settled)
    (hsteps : part.after.outline.Steps later.before.outline) (hapart : part.Apart later) :
    part.Outlasts later := by
  intro A p fuel m exit m' hexec operand hmem
  obtain ⟨hpartSteps, hreads⟩ := hpart.reads hg
  obtain ⟨hlaterSteps, -⟩ := hlater.reads hs.good
  have htouches := (hlater.respects (respecting.forall_expr _) hs).touches
  refine Operand.eval_congr operand fun x hx => (runs_of_exec hexec).frame fun hwritten => ?_
  have hread : x ∈ Operand.readsAll part.operands := Operand.mem_readsAll.2 ⟨operand, hmem, hx⟩
  obtain ⟨hlt, hreserved⟩ := hreads x hread
  rcases htouches x hwritten with hnew | hres | ⟨name, id, hname, hid, hslot⟩
  · exact absurd (Nat.lt_of_lt_of_le hlt hsteps.grows.length_le) (Nat.not_lt_of_le hnew)
  · have hkeeps := hsteps.keeps.trans hlaterSteps.keeps
    exact hreserved (hres.of_grows hpartSteps.good hkeeps.grows hkeeps.loops hlt)
  · exact hapart name id hname hid x hslot hread

section

variable {held : Bool} {es : List Expr} {s s' : Session} {code : Code} {parts : List Part}

/-- Each operand is lowered in a session that comes after the first. -/
theorem InTurn.lowered (h : InTurn held es s code s' parts) (hs : s.outline.Settled) :
    ∀ part ∈ parts, part.Lowered held ∧ s.outline.Steps part.before.outline := by
  induction h with
  | nil => exact List.forall_mem_nil _
  | cons hpart _ ih =>
    obtain ⟨hsteps, -⟩ := hpart.reads hs.good
    refine List.forall_mem_cons.2 ⟨⟨hpart, .refl hs.good⟩, fun later hlater => ?_⟩
    obtain ⟨hlowered, hsteps'⟩ := ih (hs.step hsteps) later hlater
    exact ⟨hlowered, hsteps.trans hsteps'⟩

theorem InTurn.outlast (h : InTurn held es s code s' parts) (hs : s.outline.Settled) :
    parts.Pairwise fun part later => part.Apart later → part.Outlasts later := by
  induction h with
  | nil => exact .nil
  | cons hpart hrest ih =>
    obtain ⟨hsteps, -⟩ := hpart.reads hs.good
    have hs₁ := hs.step hsteps
    refine .cons (fun later hlater hapart => ?_) (ih hs₁)
    obtain ⟨hlowered, hsteps'⟩ := hrest.lowered hs₁ later hlater
    exact hpart.outlasts hlowered hs.good (hs₁.step hsteps') hsteps' hapart

end

/-- Whatever expression lowering gets to: its operands are lowered from left to right, and each keeps its
value through the code of every later one that overwrites no variable it reads. -/
theorem operands_outlast {e : Expr} {s s' : Session} {code : Code} {v : Value}
    (hsite : Visited (.expr e s)) (h : lowerExpr e s = .ok (code, v) s') :
    ∃ first last s₁ parts, code = first ++ last ∧ InTurn e.isCompare e.operands s first s₁ parts ∧
      parts.Pairwise fun part later => part.Apart later → part.Outlasts later := by
  obtain ⟨first, last, s₁, parts, hcode, hturn⟩ := lowerExpr_inTurn h
  exact ⟨first, last, s₁, parts, hcode, hturn, hturn.outlast hsite.settled⟩

/-! ## A name that is stored into by a later item -/

/-- `(x, { … x })`, with statements in the block. -/
def pairAfter (stmts : List Stmt) : Expr :=
  let at0 : Span := ⟨0, 0⟩
  .tuple at0 [.var at0 "x", .block at0 (.mk at0 (stmts ++ [.yield at0 (.var at0 "x")]))]

/-- A function of an integer `x` that returns the pair. -/
def pairAfterDecl (stmts : List Stmt) : FnDecl :=
  let at0 : Span := ⟨0, 0⟩
  { name := "pair"
    params := [⟨"x", at0, .integer at0⟩]
    result := .tuple at0 [.integer at0, .integer at0]
    body := .mk at0 [.yield at0 (pairAfter stmts)]
    span := at0 }

/-- `set x = 2` -/
def setTwo : Stmt :=
  .set ⟨0, 0⟩ (.var ⟨0, 0⟩ "x") (.int ⟨0, 0⟩ 2)

/-- `let x = 1` -/
def declareOne : Stmt :=
  .bind ⟨0, 0⟩ (.var ⟨0, 0⟩ "x") (.int ⟨0, 0⟩ 1)

/-- The pair is lowered on the way through its function. -/
theorem visited_pairAfter {requests : List Request} {stmts : List Stmt} {f : Function} {s' : Session}
    (h : lowerFunction (pairAfterDecl stmts) (Session.after requests) = .ok f s') :
    ∃ s v s₁, Visited (.expr (pairAfter stmts) s) ∧ lowerExpr (pairAfter stmts) s = .ok (f.code, v) s₁ ∧
      f.value = v.leaves := by
  obtain ⟨s, v, s₁, hbody, hblock, hvalue⟩ := visited_of_lowerFunction h
  obtain ⟨s₂, hstmts, -⟩ := lowerBlock_cases hblock
  obtain ⟨code, w, s₃, codes, hyield, hnone, hcode⟩ := lowerStmts_cons hstmts
  cases hnone
  rw [List.append_nil] at hcode
  cases lowerStmt_cases hyield with
  | yield hexpr => exact ⟨s.enter, v, s₂, .yield hbody.head_stmt, hcode ▸ hexpr, hvalue⟩

/-- The items of the pair. -/
theorem InTurn.pairAfter {stmts : List Stmt} {s s' : Session} {code : Code} {parts : List Part}
    (h : InTurn false (pairAfter stmts).operands s code s' parts) :
    ∃ part later, parts = [part, later] ∧ part.expr = .var ⟨0, 0⟩ "x" ∧
      later.expr = .block ⟨0, 0⟩ (.mk ⟨0, 0⟩ (stmts ++ [.yield ⟨0, 0⟩ (.var ⟨0, 0⟩ "x")])) := by
  obtain ⟨part, rest, rfl, hpart, hrest⟩ := List.map_eq_cons_iff.1 h.map_expr
  obtain ⟨later, rfl, hlater⟩ := List.map_eq_singleton_iff.1 hrest
  exact ⟨part, later, rfl, hpart, hlater⟩

/-- In `(x, { let x = 1; set x = 2; x })` the first item keeps its value. -/
theorem operands_outlast_declareOne :
    ∃ s code v s' first s₁ part later, Visited (.expr (pairAfter [declareOne, setTwo]) s) ∧
      lowerExpr (pairAfter [declareOne, setTwo]) s = .ok (code, v) s' ∧
      InTurn false (pairAfter [declareOne, setTwo]).operands s first s₁ [part, later] ∧
      part.Apart later ∧ part.Outlasts later := by
  have hrun : succeeds (fun _ => true) (lowerFunction (pairAfterDecl [declareOne, setTwo])
      (Session.after [.declare (pairAfterDecl [declareOne, setTwo])])) = true := by
    decide +kernel
  obtain ⟨f, _, hf, -⟩ := exists_ok_of_succeeds hrun
  obtain ⟨s, v, s', hsite, hlower, -⟩ := visited_pairAfter hf
  obtain ⟨first, last, s₁, parts, -, hturn, hpairs⟩ := operands_outlast hsite hlower
  obtain ⟨part, later, rfl, -, hlater⟩ := hturn.pairAfter
  have hapart : part.Apart later := by
    intro name id hname
    rw [hlater] at hname
    by_cases hx : "x" = name <;>
      simp [Expr.overwrites, Block.overwrites, Stmt.overwritesAny, Stmt.overwrites, Stmt.declares,
        Expr.targets, declareOne, setTwo, hx] at hname
  exact ⟨s, f.code, v, s', first, s₁, part, later, hsite, hlower, hturn, hapart,
    List.pairwise_pair.1 hpairs hapart⟩

/-- Lowers the items of the pair, and the pair of them, where the body of its function does. -/
def lowerPairAfter (stmts : List Stmt) : Lower ((Code × List Value) × Value) := do
  let c ← callee "pair" ⟨0, 0⟩
  inContext do
    let _ ← declareParams (.declare []) (pairAfterDecl stmts).params c.params
    inContext do
      let items ← lowerItems (pairAfter stmts).operands
      let v ← tupleOf items.2 ⟨0, 0⟩
      return (items, v)

/-- In `(x, { set x = 2; x })` it does not. -/
theorem pairAfter_setTwo_changes :
    ∃ s code v s' s₁ part later, Visited (.expr (pairAfter [setTwo]) s) ∧
      lowerExpr (pairAfter [setTwo]) s = .ok (code, v) s' ∧
      InTurn false (pairAfter [setTwo]).operands s code s₁ [part, later] ∧
      part.operands = [.var 0] ∧ ∀ (A : Arithmetic) (p : Program), ∃ m m',
        exec A p 3 later.code m = some (.done, m') ∧
        (Operand.var 0).eval A m.store = some (.datum (.int 1)) ∧
        (Operand.var 0).eval A m'.store = some (.datum (.int 2)) := by
  have hrun : succeeds (fun r : (Code × List Value) × Value =>
      r.1.1 == [.assign ⟨0, 0⟩ 0 (.int 2), .assign ⟨0, 0⟩ 1 (.var 0)] &&
        r.1.2.map Value.leaves == [[.var 0], [.var 1]])
      (lowerPairAfter [setTwo] (Session.after [.declare (pairAfterDecl [setTwo])])) = true := by
    decide +kernel
  obtain ⟨r, _, h, hcheck⟩ := exists_ok_of_succeeds hrun
  simp only [lowerPairAfter, bind_eq_ok_iff, inContext_eq_ok_iff, pure_eq_ok_iff, Prod.exists] at h
  obtain ⟨c, s₀, hcallee, _, ⟨args, s₁, hparams, _, ⟨code, values, s₂, hitems, v, s₃, htuple, rfl, rfl⟩, rfl⟩,
    rfl⟩ := h
  obtain ⟨rfl, -⟩ := callee_ok hcallee
  have hbody : Visited (.block (pairAfterDecl [setTwo]).body s₁) := .body rfl rfl hcallee hparams
  have hlower : lowerExpr (pairAfter [setTwo]) s₁.enter = .ok (code, v) s₃ := by
    simp only [pairAfter, lowerExpr, bind_eq_ok_iff, pure_eq_ok_iff, Prod.exists, Prod.mk.injEq]
    exact ⟨code, values, s₂, hitems, v, s₃, htuple, ⟨rfl, rfl⟩, rfl⟩
  obtain ⟨c₁, v₁, s₄, _, _, hx, hrest, rfl, rfl⟩ := lowerItems_cons hitems
  obtain ⟨c₂, v₂, s₅, _, _, hblock, hnone, rfl, rfl⟩ := lowerItems_cons hrest
  cases hnone
  cases lowerExpr_cases hx with
  | var =>
    simp only [Bool.and_eq_true, beq_iff_eq, List.map_cons, List.cons.injEq, List.nil_append,
      List.append_nil] at hcheck
    obtain ⟨rfl, hleaves, -⟩ := hcheck
    refine ⟨_, _, _, _, _, _, _, hbody.head_stmt.yield, hlower,
      .cons (.value hx) (.cons (.value hblock) .nil), hleaves, fun A p => ?_⟩
    exact ⟨⟨fun _ => some (.datum (.int 1)), []⟩, _, rfl, rfl, rfl⟩

end SlotCode
