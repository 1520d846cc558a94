import SlotCode.Proofs.Meaning.Patterns
import SlotCode.Proofs.Program.Sites

/-!
# Storing at once

A `let` or a `set` stores the leaves of a value one after the other, and each operand is evaluated when
its turn comes.  That is the same as evaluating all operands first and storing them at once
(`Store.assignAll`) as long as no operand reads what was stored before it (`Undisturbed`).

- A `let` stores into new variables, which its value cannot read.
- A `set` of one name stores a value that reads all slots of that name in order, or none.
- A `set` of several names may be disturbed: `set (a, b) = (b, a)` stores `b` into both.

`stores_at_once` says this of every statement that lowering gets to.
-/

namespace SlotCode

open Outline Lower

variable {A : Arithmetic} {p : Program} {slots : List VarId} {operands : List Operand}

/-! ## Assignments one after the other -/

/-- Evaluates all operands, and then writes all slots. -/
def Store.assignAll (A : Arithmetic) (σ : Store) (slots : List VarId) (operands : List Operand) :
    Option Store :=
  (Operand.evalAll A σ operands).bind fun words => σ.writeAll slots words

/-- No operand reads a slot that was assigned before it, unless the slot was assigned what it held. -/
def Undisturbed : List VarId → List Operand → Prop
  | slot :: slots, operand :: operands =>
    (slot ∈ Operand.readsAll operands → operand = .var slot) ∧ Undisturbed slots operands
  | _, _ => True

theorem Parallel.undisturbed (h : Parallel slots operands) : Undisturbed slots operands := by
  induction slots generalizing operands with
  | nil => trivial
  | cons slot slots ih =>
    cases operands with
    | nil => trivial
    | cons operand operands => exact ⟨fun hmem => absurd hmem h.1, ih h.2⟩

/-- The machine evaluates the operands in stores that agree, as far as they are read, with the store `σ`
before the first assignment. -/
theorem exec_assignments_of_agree {σ : Store} {m : Machine} {fuel : Nat} (span : Span)
    (h : Undisturbed slots operands) (hlen : slots.length = operands.length)
    (hfuel : operands.length < fuel) (hagree : ∀ x ∈ Operand.readsAll operands, m.store x = σ x) :
    exec A p fuel (assignments span slots operands) m =
      (Operand.evalAll A σ operands).bind fun words =>
        (m.store.writeAll slots words).map fun τ => (.done, { m with store := τ }) := by
  induction slots generalizing operands m fuel with
  | nil =>
    obtain rfl := List.eq_nil_of_length_eq_zero hlen.symm
    obtain ⟨n, rfl⟩ := Nat.exists_eq_add_of_lt hfuel
    rfl
  | cons slot slots ih =>
    cases operands with
    | nil => cases hlen
    | cons operand operands =>
      obtain ⟨n, rfl⟩ := Nat.exists_eq_add_of_lt (Nat.zero_lt_of_lt hfuel)
      have hoperand : operand.eval A m.store = operand.eval A σ :=
        Operand.eval_congr operand fun x hx => hagree x (List.mem_append_left _ hx)
      change ((operand.eval A m.store).bind fun word => exec A p _ (assignments span slots operands)
        { m with store := m.store.write slot word }) = _
      rw [hoperand, Operand.evalAll]
      cases hword : operand.eval A σ with
      | none => rfl
      | some word =>
        have hagree' : ∀ x ∈ Operand.readsAll operands, m.store.write slot word x = σ x := by
          intro x hx
          by_cases hxs : x = slot
          · subst hxs
            rw [h.1 hx] at hword
            exact (Store.write_self _ _ _).trans hword.symm
          · rw [Store.write_of_ne _ _ hxs]
            exact hagree x (List.mem_append_right _ hx)
        have hrest := ih (m := { m with store := m.store.write slot word }) h.2 (Nat.succ.inj hlen)
          (Nat.lt_of_succ_lt_succ hfuel) hagree'
        rw [Option.bind_some]
        refine (hrest.trans ?_)
        cases Operand.evalAll A σ operands <;> rfl

/-- Undisturbed assignments store at once. -/
theorem exec_assignments {fuel : Nat} (span : Span) (h : Undisturbed slots operands)
    (hlen : slots.length = operands.length) (hfuel : operands.length < fuel) (m : Machine) :
    exec A p fuel (assignments span slots operands) m =
      (m.store.assignAll A slots operands).map fun τ => (.done, { m with store := τ }) := by
  rw [exec_assignments_of_agree span h hlen hfuel fun _ _ => rfl, Store.assignAll]
  cases Operand.evalAll A m.store operands <;> rfl

/-! ## Statements -/

section

variable {s₁ s₂ s' : Session} {stored : Value} {pattern : Pattern} {span : Span} {stores : Code}

/-- A pattern has a slot for each leaf of a value that is stored into it. -/
theorem storeInto_length (hg : s₂.outline.Good) (hv : stored.Ok s₂.outline)
    (h : storeInto pattern stored span s₂ = .ok stores s') :
    s'.outline.Good ∧ stored.Ok s'.outline ∧ stored.shape ≠ .void ∧ ∃ slots,
      s'.outline.Fills pattern stored.type slots ∧ stores = assignments span slots stored.leaves ∧
        slots.length = stored.leaves.length := by
  obtain ⟨hsteps, -, hvoid, slots, hfills, rfl⟩ := storeInto_fills hg hv h
  have hv' := hv.mono hg hsteps.keeps
  refine ⟨hsteps.good, hv', hvoid, slots, hfills, rfl, ?_⟩
  rw [(hfills.takes hsteps.good).length_eq, (hv'.typed hvoid).length_eq]

/-- A value does not read what is declared after it. -/
theorem undisturbed_of_declared {target : Expr} {bound : List (String × Span)} {mode : BindMode}
    (hg : s₁.outline.Good) (hv : stored.Ok s₁.outline)
    (hbind : bindPattern (.declare bound) target s₁ = .ok (pattern, mode) s₂)
    (hg' : s'.outline.Good) (hfills : s'.outline.Fills pattern stored.type slots) :
    Undisturbed slots stored.leaves := by
  obtain ⟨-, hdeclared⟩ := bindPattern_declared hbind
  refine (parallel_of_disjoint fun x hx hread => ?_).undisturbed
  have hnew := hdeclared.le_of_mem_slots hg s₁.frames_ne hg' hfills hx
  exact Nat.not_lt_of_le hnew (hv.lt_of_reads hread)

/-- A value that is stored into one variable. -/
theorem undisturbed_of_name {name : String} {nameSpan : Span} {mode mode' : BindMode}
    (hbind : bindPattern mode (.var nameSpan name) s₁ = .ok (pattern, mode') s₂)
    (hg : s'.outline.Good) (hv : stored.Ok s'.outline) (hvoid : stored.shape ≠ .void)
    (hfills : s'.outline.Fills pattern stored.type slots) : Undisturbed slots stored.leaves := by
  obtain ⟨id, -, rfl⟩ := bindPattern_var hbind
  cases hfills with
  | var _ hreceives =>
    obtain ⟨htakes, rfl⟩ := hreceives
    exact (hv.parallel hg htakes hvoid).undisturbed

end

/-- Whatever statement lowering gets to: after the code of its value, a `let` or a `set` has one
assignment for each leaf of the value.  These store all leaves at once, from any state of the machine, if
the statement is a `let`, if its target is one name, or if no leaf reads a slot that an earlier one has
changed. -/
theorem stores_at_once {value v : Value} {stmt : Stmt} {span : Span} {target e : Expr} {s s' : Session}
    {code : Code} (hsite : Visited (.stmt value stmt s))
    (hstmt : stmt = .bind span target e ∨ stmt = .set span target e)
    (h : lowerStmt value stmt s = .ok (code, v) s') :
    ∃ first stored s₁ mode pattern mode' s₂ slots, lowerExpr e s = .ok (first, stored) s₁ ∧
      bindPattern mode target s₁ = .ok (pattern, mode') s₂ ∧
      storeInto pattern stored span s₂ = .ok (assignments span slots stored.leaves) s' ∧
      code = first ++ assignments span slots stored.leaves ∧
      slots.length = stored.leaves.length ∧
      (stmt = .bind span target e ∨ (∃ nameSpan name, target = .var nameSpan name) ∨
          Undisturbed slots stored.leaves →
        ∀ (A : Arithmetic) (p : Program) (m : Machine) (fuel : Nat), stored.leaves.length < fuel →
          exec A p fuel (assignments span slots stored.leaves) m =
            (m.store.assignAll A slots stored.leaves).map fun τ => (.done, { m with store := τ })) := by
  obtain ⟨hs, -⟩ := hsite.settled
  rcases hstmt with rfl | rfl
  · cases lowerStmt_cases h with
    | bind hexpr hbind hstore =>
      obtain ⟨hsteps, -, hv⟩ := e.lowers hs.good hexpr
      obtain ⟨hgood, hkeeps, -⟩ := declared_vars hsteps.good hbind
      obtain ⟨hg', hv', hvoid, slots, hfills, rfl, hlen⟩ :=
        storeInto_length hgood (hv.mono hsteps.good hkeeps) hstore
      refine ⟨_, _, _, _, _, _, _, slots, hexpr, hbind, hstore, rfl, hlen, fun _ A p m fuel hfuel => ?_⟩
      exact exec_assignments span (undisturbed_of_declared hsteps.good hv hbind hg' hfills) hlen hfuel m
  · cases lowerStmt_cases h with
    | set hexpr hbind hstore =>
      obtain ⟨hsteps, -, hv⟩ := e.lowers hs.good hexpr
      obtain ⟨rfl, -⟩ := bindPattern_resolve_ok hbind
      obtain ⟨hg', hv', hvoid, slots, hfills, rfl, hlen⟩ := storeInto_length hsteps.good hv hstore
      refine ⟨_, _, _, _, _, _, _, slots, hexpr, hbind, hstore, rfl, hlen, ?_⟩
      rintro (hbind' | ⟨nameSpan, name, rfl⟩ | hundisturbed) A p m fuel hfuel
      · cases hbind'
      · exact exec_assignments span (undisturbed_of_name hbind hg' hv' hvoid hfills) hlen hfuel m
      · exact exec_assignments span hundisturbed hlen hfuel m

/-! ## Exchanging two variables -/

/-- `(first, second)` -/
def pairOf (first second : String) : Expr :=
  .tuple ⟨0, 0⟩ [.var ⟨0, 0⟩ first, .var ⟨0, 0⟩ second]

/-- A function of two integers `a` and `b` that runs the statement and returns `(a, b)`. -/
def pairDecl (stmt : Stmt) : FnDecl :=
  let at0 : Span := ⟨0, 0⟩
  { name := "exchange"
    params := [⟨"a", at0, .integer at0⟩, ⟨"b", at0, .integer at0⟩]
    result := .tuple at0 [.integer at0, .integer at0]
    body := .mk at0 [stmt, .yield at0 (pairOf "a" "b")]
    span := at0 }

/-- `let (a, b) = (b, a)` -/
def declareExchanged : Stmt :=
  .bind ⟨0, 0⟩ (pairOf "a" "b") (pairOf "b" "a")

/-- `set (a, b) = (b, a)` -/
def setExchanged : Stmt :=
  .set ⟨0, 0⟩ (pairOf "a" "b") (pairOf "b" "a")

/-- New variables of the same names receive the old ones at once. -/
theorem stores_at_once_declareExchanged :
    ∃ value s code v s', Visited (.stmt value declareExchanged s) ∧
      lowerStmt value declareExchanged s = .ok (code, v) s' ∧
      ∃ (first : Code) (stored : Value) (slots : List VarId),
        code = first ++ assignments ⟨0, 0⟩ slots stored.leaves ∧
        ∀ (A : Arithmetic) (p : Program) (m : Machine) (fuel : Nat), stored.leaves.length < fuel →
          exec A p fuel (assignments ⟨0, 0⟩ slots stored.leaves) m =
            (m.store.assignAll A slots stored.leaves).map fun τ => (.done, { m with store := τ }) := by
  have hrun : succeeds (fun _ => true) (lowerFunction (pairDecl declareExchanged)
      (Session.after [.declare (pairDecl declareExchanged)])) = true := by
    decide +kernel
  obtain ⟨f, _, hf, -⟩ := exists_ok_of_succeeds hrun
  obtain ⟨s, v, s₁, hbody, hblock, -⟩ := visited_of_lowerFunction hf
  obtain ⟨s₂, hstmts, -⟩ := lowerBlock_cases hblock
  obtain ⟨code, w, s₃, codes, hstmt, -⟩ := lowerStmts_cons hstmts
  have hsite := hbody.head_stmt
  obtain ⟨first, stored, _, _, _, _, _, slots, -, -, -, hcode, -, hexec⟩ :=
    stores_at_once hsite (.inl rfl) hstmt
  exact ⟨_, _, code, w, s₃, hsite, hstmt, first, stored, slots, hcode, hexec (.inl rfl)⟩

/-- Variables that exist do not: both get what `b` held. -/
theorem setExchanged_loses :
    ∃ p s f, lowerProgram .library [pairDecl setExchanged] .initial = .ok p s ∧ p.functions = [f] ∧
      f.args = [0, 1] ∧ f.code = assignments ⟨0, 0⟩ [0, 1] [.var 1, .var 0] ∧
      ∀ A : Arithmetic, ∃ σ τ τ' : Store,
        exec A p 3 f.code ⟨σ, []⟩ = some (.done, ⟨τ, []⟩) ∧
        σ.assignAll A [0, 1] [.var 1, .var 0] = some τ' ∧ τ ≠ τ' := by
  have hrun : succeeds (fun p : Program => p.functions.map (fun f => (f.args, f.code)) ==
      [([0, 1], assignments ⟨0, 0⟩ [0, 1] [.var 1, .var 0])])
      (lowerProgram .library [pairDecl setExchanged] .initial) = true := by
    decide +kernel
  obtain ⟨p, s, h, hfunctions⟩ := exists_ok_of_succeeds hrun
  obtain ⟨f, hf, hparts⟩ := List.map_eq_singleton_iff.1 (beq_iff_eq.1 hfunctions)
  obtain ⟨hargs, hcode⟩ := Prod.mk.inj hparts
  refine ⟨p, s, f, h, hf, hargs, hcode, fun A => ?_⟩
  -- Each variable holds its own number before.
  refine ⟨fun id => some (.datum (.int id)), _, _, by rw [hcode]; rfl, rfl, fun heq => ?_⟩
  cases congrFun heq 1

end SlotCode
