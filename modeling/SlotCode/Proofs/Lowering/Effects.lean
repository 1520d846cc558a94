import SlotCode.Proofs.Lowering.Delivery
import SlotCode.Proofs.Lowering.Overwrites

/-!
# What the code of a tree does to variables

The code of a tree stores into what is new, into the variables of the names that the tree overwrites, and
into the values of loops that it leaves (`Code.Respects`).
-/

namespace SlotCode

variable {yes target : Expr} {no : Option Expr} {v value : Value} {s s₁ s₂ s₃ s₄ s₅ s' : Session}
  {payload : TypeId} {operand : Operand} {span : Span} {id : VarId} {pattern : Pattern}
  {mode : BindMode} {slots : List VarId} {held : Bool} {stmts : List Stmt}
  {code yesCode noCode yesCode' : Code} {stmt : Stmt}

open Outline Lower Code

/-- The code is made between the outlines `o` and `o'` for a tree that overwrites the names. -/
structure Code.Respects (names : String → Bool) (o o' : Outline) (code : Code) : Prop where
  touches : code.Touches names o o'
  honours : code.Honours o o'

namespace Code.Respects

variable {names names' all shadowed : String → Bool} {o o₁ o' : Outline} {a b : Code}

theorem of_fresh (h : a.Fresh o) : Respects names o o' a :=
  ⟨fun x hx => .inl (h.new x hx), .of_fresh h⟩

theorem nil : Respects names o o' [] :=
  of_fresh .nil

theorem append (ha : Respects names o o' a) (hb : Respects names o o' b) :
    Respects names o o' (a ++ b) :=
  ⟨ha.touches.append hb.touches, ha.honours.append hb.honours⟩

theorem imp (himp : ∀ name, names name = true → names' name = true) (h : Respects names o o' a) :
    Respects names' o o' a :=
  ⟨h.touches.imp himp, h.honours⟩

/-- Code that is made before further steps. -/
theorem before (hg : o₁.Good) (h : o₁.Later o') (ha : Respects names o o₁ a) :
    Respects names o o' a :=
  ⟨ha.touches.before h.grows h.loops, ha.honours.before hg h⟩

/-- Code that is made after other steps. -/
theorem after (hs : o.Settled) (hshadows : o.Shadows o₁ shadowed) (h : o.Precedes o₁)
    (ha : Respects names o₁ o' a) :
    Respects (fun name => !shadowed name && names name) o o' a :=
  ⟨ha.touches.after hs hshadows, ha.honours.after hs h⟩

/-- One tree after the other. -/
theorem seq (hs : o.Settled) (hshadows : o.Shadows o₁ shadowed) (h : o.Later o₁) (h' : o₁.Later o')
    (ha : Respects names o o₁ a) (hb : Respects names' o₁ o' b) :
    Respects (fun name => names name || (!shadowed name && names' name)) o o' (a ++ b) :=
  ((ha.before h.good h').imp fun _ hname => by simp [hname]).append
    ((hb.after hs hshadows h.toPrecedes).imp fun _ hname => by rw [hname, Bool.or_true])

/-- An expression, and then other code. -/
theorem seq_steps (hs : o.Settled) (hsteps : o.Steps o₁) (h : o₁.Later o')
    (ha : Respects names o o₁ a) (hb : Respects names' o₁ o' b)
    (hall : ∀ name, names name = true ∨ names' name = true → all name = true) :
    Respects all o o' (a ++ b) := by
  refine (ha.seq hs hsteps.shadows hsteps.later h hb).imp fun name hname => ?_
  exact hall name (by simpa using hname)

/-- An expression, and then code that puts its value elsewhere. -/
theorem seq_fresh (hsteps : o.Steps o₁) (h : o₁.Later o') (ha : Respects names o o₁ a)
    (hb : b.Fresh o₁) : Respects names o o' (a ++ b) :=
  (ha.before hsteps.good h).append (.of_fresh (hb.after hsteps.grows))

theorem branch (ha : Respects names o o' a) (hb : Respects names o o' b) (span : Span)
    (test : Operand) : Respects names o o' [.branch span test a b] :=
  ⟨ha.touches.branch hb.touches span test, ha.honours.branch hb.honours span test⟩

end Code.Respects

/-! ## Operands and branches -/

def Expr.Respecting (e : Expr) : Prop :=
  ∀ ⦃s s' : Session⦄ ⦃code : Code⦄ ⦃v : Value⦄, s.outline.Settled → lowerExpr e s = .ok (code, v) s' →
    code.Respects (e.overwrites ·) s.outline s'.outline

def Block.Respecting (b : Block) : Prop :=
  ∀ ⦃s s' : Session⦄ ⦃code : Code⦄ ⦃v : Value⦄, s.outline.Settled → lowerBlock b s = .ok (code, v) s' →
    code.Respects (b.overwrites ·) s.outline s'.outline

def Stmt.Respecting (stmt : Stmt) : Prop :=
  ∀ ⦃s s' : Session⦄ ⦃code : Code⦄ ⦃value v : Value⦄, s.outline.Settled →
    lowerStmt value stmt s = .ok (code, v) s' → code.Respects (stmt.overwrites ·) s.outline s'.outline

theorem Part.Lowered.respects {part : Part} (h : part.Lowered held) (hpart : part.expr.Respecting)
    (hs : part.before.outline.Settled) :
    part.code.Respects (part.expr.overwrites ·) part.before.outline part.after.outline := by
  obtain ⟨code, v, s₁, holding, hlower, hcode, hsteps', -, hholding⟩ := h.begins hs.good
  rw [hcode]
  exact (hpart hs hlower).seq_fresh (Expr.lowers _ hs.good hlower).1 hsteps'.later hholding

theorem InTurn.respects {es : List Expr} {parts : List Part} (h : InTurn held es s code s' parts)
    (hes : ∀ e ∈ es, e.Respecting) (hs : s.outline.Settled) :
    s.outline.Steps s'.outline ∧ code.Respects (Expr.overwritesAny · es) s.outline s'.outline := by
  induction h with
  | nil => exact ⟨.refl hs.good, .nil⟩
  | cons hpart _ ih =>
    obtain ⟨he, hes⟩ := List.forall_mem_cons.1 hes
    obtain ⟨hsteps, -⟩ := hpart.reads hs.good
    obtain ⟨hsteps', hrest⟩ := ih hes (hs.step hsteps)
    refine ⟨hsteps.trans hsteps', (hpart.respects he hs).seq_steps hs hsteps hsteps'.later hrest ?_⟩
    simp [Expr.overwritesAny]

theorem Combined.respects {e : Expr} (h : Combined e s code s')
    (hes : ∀ operand ∈ e.operands, operand.Respecting) (hs : s.outline.Settled) :
    code.Respects (e.overwrites ·) s.outline s'.outline := by
  obtain ⟨first, last, s₁, parts, rfl, hparts, hsteps', hlast⟩ := h
  obtain ⟨hsteps, hfirst⟩ := hparts.respects hes hs
  exact (hfirst.imp fun _ => Expr.overwrites_of_operands).seq_fresh hsteps hsteps'.later hlast

theorem lowerElse_respects (hno : ∀ e ∈ no, e.Respecting) {r : Option (Code × Value)}
    (hs : s.outline.Settled) (h : lowerElse no s = .ok r s') :
    Respects (Expr.overwritesIn · no) s.outline s'.outline ((r.map Prod.fst).getD []) := by
  rcases lowerElse_cases h with ⟨rfl, rfl, rfl⟩ | ⟨e, c, v, rfl, rfl, hlower⟩
  · exact .nil
  · exact hno e rfl hs hlower

/-- The second branch is lowered, and then the two are joined. -/
theorem joinBranches_respects {names : String → Bool} {o : Outline} {yesValue : Value}
    {lowered : Option (Code × Value)} (ho : o.Settled) (hsteps : o.Steps s.outline)
    (hyesCode : yesCode.Respects names o s.outline) (hyes : yesValue.Ok s.outline)
    (hno : ∀ e ∈ no, e.Respecting) (hlowerNo : lowerElse no s = .ok lowered s₁)
    (hjoin : joinBranches (yesCode, yesValue) lowered span s₁ = .ok (yesCode', noCode, v) s')
    (test : Operand) :
    o.Steps s'.outline ∧ Respects (fun name => names name || Expr.overwritesIn name no) o s'.outline
      [.branch span test yesCode' noCode] := by
  obtain ⟨hsteps₁, -, hv₁⟩ := lowerElse_emits (Expr.lowersIn no) hsteps.good hlowerNo
  obtain ⟨hsteps', a, b, rfl, rfl, ha, hb⟩ :=
    joinBranches_appends hsteps₁.good (hyes.mono hsteps.good hsteps₁.keeps) hv₁ hjoin
  have hnoCode := (lowerElse_respects hno (ho.step hsteps) hlowerNo).after ho hsteps.shadows
    hsteps.later.toPrecedes
  have hboth := hsteps.trans hsteps₁
  refine ⟨hboth.trans hsteps', .branch ?_ ?_ span test⟩
  · exact ((hyesCode.before hsteps.good hsteps₁.later).seq_fresh hboth hsteps'.later ha).imp
      fun _ hname => Bool.or_eq_true_iff.2 (.inl hname)
  · exact (hnoCode.seq_fresh hboth hsteps'.later hb).imp
      fun _ hname => Bool.or_eq_true_iff.2 (.inr hname)

/-! ## Expressions -/

namespace Expr.Respecting

theorem block {body : Block} (hbody : body.Respecting) (span : Span) :
    (Expr.block span body).Respecting := by
  intro s s' code v hs h
  cases lowerExpr_cases h with
  | block hlower hkeep =>
    obtain ⟨hsteps, -, hv⟩ := body.lowers hs.good hlower
    obtain ⟨hsteps', hcopy⟩ := keepValue_fresh hsteps.good hv hkeep
    exact (hbody hs hlower).seq_fresh hsteps hsteps'.later hcopy

/-- The branches after a test. -/
theorem branches (hyes : yes.Respecting) (hno : ∀ e ∈ no, e.Respecting) {yesValue : Value}
    {lowered : Option (Code × Value)} (hs : s.outline.Settled)
    (hlowerYes : lowerExpr yes s = .ok (yesCode, yesValue) s₁)
    (hlowerNo : lowerElse no s₁ = .ok lowered s₂)
    (hjoin : joinBranches (yesCode, yesValue) lowered span s₂ = .ok (yesCode', noCode, v) s')
    (test : Operand) :
    s.outline.Steps s'.outline ∧
      Respects (fun name => yes.overwrites name || Expr.overwritesIn name no) s.outline s'.outline
        [.branch span test yesCode' noCode] := by
  obtain ⟨hsteps, -, hv⟩ := yes.lowers hs.good hlowerYes
  exact joinBranches_respects hs hsteps (hyes hs hlowerYes) hv hno hlowerNo hjoin test

theorem cond {test yes : Expr} {no : Option Expr} (htest : test.Respecting) (hyes : yes.Respecting)
    (hno : ∀ e ∈ no, e.Respecting) (span : Span) : (Expr.cond span test yes no).Respecting := by
  intro s s' code v hs h
  cases lowerExpr_cases h with
  | cond hlower _ _ hlowerYes hlowerNo hjoin =>
    obtain ⟨hsteps, -⟩ := test.lowers hs.good hlower
    obtain ⟨hsteps', hbranch⟩ := branches hyes hno (hs.step hsteps) hlowerYes hlowerNo hjoin _
    refine (htest hs hlower).seq_steps hs hsteps hsteps'.later hbranch fun name => ?_
    simp [Expr.overwrites, or_assoc]

/-- The branch that is taken with the payload of a full box. -/
theorem fullBranch (hyes : yes.Respecting) {box : Value} (hs₁ : s₁.outline.Settled)
    (hunboxed : Unboxed span box target payload operand id pattern mode slots s₁ s₂ s₃ s₄)
    (hlower : lowerExpr yes s₄ = .ok (code, v) s₅) :
    Respects (fun name => !target.targets name && yes.overwrites name) s₂.outline s₅.exit.outline
      (.native pattern.span .unwrap [operand] slots :: code) := by
  obtain ⟨-, hdeclared, hsteps, hfills⟩ := hunboxed.fills hs₁.good
  obtain ⟨hs₂, hs₄, -⟩ := hunboxed.settles hs₁
  obtain ⟨hsteps', -⟩ := yes.lowers hs₄.good hlower
  obtain ⟨-, -, hexit, -⟩ := hunboxed.exits hs₁ hlower
  have hframes := s₂.enter.frames_ne
  have hlater : s₂.outline.Later s₄.outline :=
    hs₂.good.later_enter.trans ((hdeclared.later hs₂.good.enter hframes).trans hsteps.later)
  have hshadows : s₂.outline.Shadows s₄.outline _ :=
    hs₂.good.shadows_enter.trans ((hdeclared.shadows hs₂.good.enter hframes).trans hsteps.shadows)
  have hunwrap : Code.Fresh s₂.outline [.native pattern.span .unwrap [operand] slots] :=
    .native _ _ _ fun x hx => hdeclared.le_of_mem_slots hs₂.good.enter hframes hsteps.good hfills hx
  have hbody := ((hyes hs₄ hlower).after hs₂ hshadows hlater.toPrecedes).before hsteps'.good hexit
  simp only [Bool.false_or, Bool.or_false] at hbody
  exact .append (a := [_]) (.of_fresh hunwrap) hbody

/-- A box is tested, and then there are the branches. -/
theorem fullBranches (hyes : yes.Respecting) (hno : ∀ e ∈ no, e.Respecting) {box yesValue : Value}
    {s₆ : Session} {full : VarId} {lowered : Option (Code × Value)} (hs₁ : s₁.outline.Settled)
    (hunboxed : Unboxed span box target payload operand full pattern mode slots s₁ s₂ s₃ s₄)
    (hlowerYes : lowerExpr yes s₄ = .ok (yesCode, yesValue) s₅)
    (hlowerNo : lowerElse no s₅.exit = .ok lowered s₆)
    (hjoin : joinBranches (.native pattern.span .unwrap [operand] slots :: yesCode, yesValue)
      lowered span s₆ = .ok (yesCode', noCode, v) s') :
    s₁.outline.Steps s'.outline ∧
      Respects
        (fun name => !target.targets name && yes.overwrites name || Expr.overwritesIn name no)
        s₁.outline s'.outline
        [.native span .full [operand] [full], .branch span (.var full) yesCode' noCode] := by
  obtain ⟨hsteps₂, -⟩ := hunboxed.fills hs₁.good
  have hyesCode := fullBranch hyes hs₁ hunboxed hlowerYes
  obtain ⟨hsteps₅, -, -, -, hv₅⟩ := hunboxed.exits hs₁ hlowerYes
  obtain ⟨hsteps', hbranch⟩ := joinBranches_respects (hs₁.step hsteps₂) hsteps₅ hyesCode hv₅ hno
    hlowerNo hjoin (.var full)
  obtain ⟨rfl, -⟩ := newTyped_ok hunboxed.tests
  have hafter := hbranch.after hs₁ hsteps₂.shadows hsteps₂.later.toPrecedes
  exact ⟨hsteps₂.trans hsteps', .append (a := [_]) (.of_fresh (.box _ _ _ _)) hafter⟩

theorem ifFull {boxed yes : Expr} {no : Option Expr} (hboxed : boxed.Respecting) (hyes : yes.Respecting)
    (hno : ∀ e ∈ no, e.Respecting) (span : Span) (target : Expr) :
    (Expr.ifFull span boxed target yes no).Respecting := by
  intro s s' code v hs h
  cases lowerExpr_cases h with
  | ifFull hlower hunboxed hlowerYes hlowerNo hjoin =>
    obtain ⟨hsteps, -⟩ := boxed.lowers hs.good hlower
    obtain ⟨hsteps', hbranches⟩ :=
      fullBranches hyes hno (hs.step hsteps) hunboxed hlowerYes hlowerNo hjoin
    refine (hboxed hs hlower).seq_steps hs hsteps hsteps'.later hbranches fun name => ?_
    simp [Expr.overwrites, or_assoc]

theorem loop {body : Block} (hbody : body.Respecting) (span : Span) (label : Option String) :
    (Expr.loop span label body).Respecting := by
  intro s s' code v hs h
  cases lowerExpr_cases h with
  | loop hloop hlower _ =>
    obtain ⟨rfl, hopen, hgood, -, -, hkeeps, hloops⟩ := loopBody_opens body.lowers hs.good hloop hlower
    have hgrows : s.outline.Grows _ := hopen ▸ (Grows.reframe _ _).trans (.openLoop _ _)
    have hnames : Outline.names _ = s.outline.names := hopen ▸ names_openLoop s.outline label
    obtain ⟨hsteps, -⟩ := body.lowers hgood hlower
    obtain ⟨htouches, hhonours⟩ := (hbody (newLoop_settles hs hloop) hlower).after hs
      (.of_names hgrows hgood hnames) ⟨hgrows, hgood, fun _ _ hmem => .inl (hnames ▸ hmem)⟩
    refine ⟨fun x hx => ?_, hhonours.loop hsteps.good hkeeps.grows hkeeps.good hloops (Nat.le_refl _)
      (Nat.le_refl _) span⟩
    rcases htouches x (mem_writes_loop.1 hx) with hnew | hreserved | hnamed
    · exact .inl hnew
    -- the value of this very loop is new
    · exact (reserved_of_loop hsteps.good hkeeps.grows hloops hreserved).imp_right .inl
    · exact .inr (.inr hnamed)

/-- A `leave` stores into the value of its loop. -/
theorem leaveWith {label : Option String} {w : Value} (hg : s.outline.Good) (hv : v.Ok s.outline)
    (h : leaveWith label v span s = .ok (code, w) s') (names : String → Bool) :
    s.outline.Steps s'.outline ∧ code.Respects names s.outline s'.outline := by
  obtain ⟨hsteps, hemits, -⟩ := leaveWith_emits hg hv h
  exact ⟨hsteps, .of_spares (hemits.spares rfl), leaveWith_honours hg hv h⟩

theorem leave {value : Option Expr} (hvalue : ∀ e ∈ value, e.Respecting) (span : Span)
    (label : Option String) : (Expr.leave span label value).Respecting := by
  intro s s' code v hs h
  cases lowerExpr_cases h with
  | leave hleave => exact (leaveWith hs.good (Value.ok_void hs.good span) hleave _).2
  | leaveWith hlower hleave =>
    obtain ⟨hsteps, -, hv⟩ := Expr.lowers _ hs.good hlower
    obtain ⟨hsteps', hstores⟩ := leaveWith hsteps.good hv hleave fun _ => false
    refine (hvalue _ rfl hs hlower).seq_steps hs hsteps hsteps'.later hstores fun name => ?_
    simp [Expr.overwrites, Expr.overwritesIn]

theorem wrap {payload : Expr} (hpayload : payload.Respecting) (span : Span) :
    (Expr.wrap span payload).Respecting := by
  intro s s' code v hs h
  cases lowerExpr_cases h with
  | wrap hlower hwrap =>
    obtain ⟨hsteps, -, hv⟩ := payload.lowers hs.good hlower
    obtain ⟨hsteps', -⟩ := wrapValue_value hsteps.good hv hwrap
    obtain ⟨-, -, rfl, -⟩ := wrapValue_ok hwrap
    exact (hpayload hs hlower).seq_fresh hsteps hsteps'.later (.box _ _ _ _)

end Expr.Respecting

/-! ## Statements -/

/-- The expression of a statement. -/
def Stmt.expr : Stmt → Expr
  | .bind _ _ e | .set _ _ e | .yield _ e | .ret _ e | .eval _ e => e

/-- After the code of its expression, a statement stores into new variables or into those of names. -/
theorem lowerStmt_stores (hs : s.outline.Settled) (h : lowerStmt value stmt s = .ok (code, v) s') :
    ∃ first stored s₁ stores, lowerExpr stmt.expr s = .ok (first, stored) s₁ ∧ code = first ++ stores ∧
      s₁.outline.Later s'.outline ∧ s₁.outline.Shadows s'.outline (stmt.declares ·) ∧
      (∀ c ∈ stores, c.isPlain = true) ∧
      stores.Respects (stmt.overwrites ·) s₁.outline s'.outline := by
  cases lowerStmt_cases h with
  | bind hexpr hbind hstore =>
    obtain ⟨hsteps, -, hv⟩ := Expr.lowers _ hs.good hexpr
    obtain ⟨-, hkeeps, -⟩ := declared_vars hsteps.good hbind
    obtain ⟨-, hdeclared⟩ := bindPattern_declared hbind
    have hlater := hdeclared.later hsteps.good (Session.frames_ne _)
    obtain ⟨hsteps', -, -, slots, hfills, rfl⟩ :=
      storeInto_fills hlater.good (hv.mono hsteps.good hkeeps) hstore
    have hshadows := (hdeclared.shadows hsteps.good (Session.frames_ne _)).trans hsteps'.shadows
    simp only [Bool.or_false] at hshadows
    refine ⟨_, _, _, _, hexpr, rfl, hlater.trans hsteps'.later, hshadows, plain_assignments _ _ _,
      .of_fresh ⟨plain_assignments _ _ _, fun x hx => ?_⟩⟩
    exact hdeclared.le_of_mem_slots hsteps.good (Session.frames_ne _) hsteps'.good hfills
      (writes_assignments _ _ _ hx)
  | set hexpr hbind hstore =>
    have hs₁ := lowerExpr_settles hs hexpr
    obtain ⟨-, -, hv⟩ := Expr.lowers _ hs.good hexpr
    obtain ⟨rfl, -⟩ := bindPattern_resolve_ok hbind
    have hnames := storeInto_names hs₁ hv hbind hstore
    obtain ⟨hsteps, -, -, slots, -, rfl⟩ := storeInto_fills hs₁.good hv hstore
    refine ⟨_, _, _, _, hexpr, rfl, hsteps.later, hsteps.shadows, plain_assignments _ _ _,
      fun x hx => ?_, fun x hx => ?_, .of_plain (plain_assignments _ _ _)⟩
    · obtain ⟨name, id, hname, hid⟩ := hnames x hx
      exact .inr (.inr ⟨name, id, by simp [Stmt.overwrites, hname], hid⟩)
    · obtain ⟨name, id, -, hid, hslot⟩ := hnames x hx
      exact .inr (.inl ⟨name, id, mem_names_of_lookup hid, hslot⟩)
  | yield hexpr | eval hexpr =>
    have hrefl := Steps.refl (Expr.lowers _ hs.good hexpr).1.good
    exact ⟨_, _, _, [], hexpr, (List.append_nil _).symm, hrefl.later, hrefl.shadows,
      List.forall_mem_nil _, .nil⟩

theorem Stmt.later (hs : s.outline.Settled) (h : lowerStmt value stmt s = .ok (code, v) s') :
    s.outline.Later s'.outline ∧ s.outline.Shadows s'.outline (stmt.declares ·) := by
  obtain ⟨first, stored, s₁, stores, hexpr, -, hlater, hshadows, -⟩ := lowerStmt_stores hs h
  obtain ⟨hsteps, -⟩ := Expr.lowers _ hs.good hexpr
  exact ⟨hsteps.later.trans hlater, hsteps.shadows.trans hshadows⟩

theorem Stmt.Respecting.of_expr (he : stmt.expr.Respecting) : stmt.Respecting := by
  intro s s' code value v hs h
  obtain ⟨first, stored, s₁, stores, hexpr, rfl, hlater, -, -, hstores⟩ := lowerStmt_stores hs h
  refine (he hs hexpr).seq_steps hs (Expr.lowers _ hs.good hexpr).1 hlater hstores fun name => ?_
  cases stmt <;> simp [Stmt.overwrites, Stmt.expr]

theorem lowerStmts_later (hs : s.outline.Settled) (h : lowerStmts value stmts s = .ok (code, v) s') :
    s.outline.Later s'.outline := by
  induction stmts generalizing s value code with
  | nil =>
    cases h
    exact .refl hs.good
  | cons stmt stmts ih =>
    obtain ⟨c, w, s₁, cs, hhead, htail, rfl⟩ := lowerStmts_cons h
    exact (Stmt.later hs hhead).1.trans (ih (Stmt.settles hs hhead) htail)

theorem lowerStmts_respects (hstmts : ∀ stmt ∈ stmts, stmt.Respecting) (hs : s.outline.Settled)
    (h : lowerStmts value stmts s = .ok (code, v) s') :
    code.Respects (Stmt.overwritesAny · stmts) s.outline s'.outline := by
  induction stmts generalizing s value code with
  | nil =>
    cases h
    exact .nil
  | cons stmt stmts ih =>
    obtain ⟨c, w, s₁, cs, hhead, htail, rfl⟩ := lowerStmts_cons h
    obtain ⟨hstmt, hstmts⟩ := List.forall_mem_cons.1 hstmts
    have hs₁ := Stmt.settles hs hhead
    obtain ⟨hlater, hshadows⟩ := Stmt.later hs hhead
    exact (hstmt hs hhead).seq hs hshadows hlater (lowerStmts_later hs₁ htail) (ih hstmts hs₁ htail)

theorem Block.Respecting.mk (hstmts : ∀ stmt ∈ stmts, stmt.Respecting) (span : Span) :
    (Block.mk span stmts).Respecting := by
  intro s s' code v hs h
  obtain ⟨s₁, hlower, rfl⟩ := lowerBlock_cases h
  obtain ⟨⟨new, hadds⟩, -⟩ := lowerStmts_emits (s := s.enter) (Stmt.lowersAll stmts) hs.enter.good
    (Value.ok_void hs.enter.good span) hlower
  have hbody := lowerStmts_respects (s := s.enter) hstmts hs.enter hlower
  exact (hbody.after hs hs.good.shadows_enter hs.good.later_enter.toPrecedes).before hadds.good
    (exit_later hadds)

/-! ## All trees -/

theorem respecting : Hereditary Expr.Respecting Block.Respecting Stmt.Respecting where
  var _ _ s s' code v hs h := by
    cases lowerExpr_cases h
    exact .nil
  int _ _ s s' code v hs h := by
    cases lowerExpr_cases h
    exact .nil
  bool _ _ s s' code v hs h := by
    cases lowerExpr_cases h
    exact .nil
  str _ _ s s' code v hs h := by
    cases lowerExpr_cases h
    exact .nil
  tuple _ _ hitems := fun _ _ _ _ hs h => (Combined.tuple hs.good h).respects hitems hs
  arith _ _ _ hoperands := fun _ _ _ _ hs h => (Combined.arith hs.good h).respects hoperands hs
  compare _ _ hchain := fun _ _ _ _ hs h =>
    (Combined.compare hs.good h).respects (Link.forall_allOperands hchain) hs
  not _ _ _ := fun _ _ _ _ _ h => absurd h unsupported_ne_ok
  call _ _ _ hargs := fun _ _ _ _ hs h => (Combined.call hs.good h).respects hargs hs
  block span _ hbody := Expr.Respecting.block hbody span
  cond span _ _ _ htest hyes hno := Expr.Respecting.cond htest hyes hno span
  ifFull span _ target _ _ hboxed hyes hno := Expr.Respecting.ifFull hboxed hyes hno span target
  loop span label _ hbody := Expr.Respecting.loop hbody span label
  leave span label _ hvalue := Expr.Respecting.leave hvalue span label
  wrap span _ hpayload := Expr.Respecting.wrap hpayload span
  wrapEmpty span payload _ s s' code v hs h := by
    obtain ⟨-, rfl, -⟩ := wrapNothing_ok h
    exact .of_fresh (.box _ _ _ _)
  cons _ _ _ hhead htail := fun _ _ _ _ hs h =>
    (Combined.cons hs.good h).respects (by simpa [Expr.operands] using ⟨hhead, htail⟩) hs
  consEmpty span item _ s s' code v hs h := by
    obtain ⟨-, rfl, -⟩ := consNothing_ok h
    exact .of_fresh (.box _ _ _ _)
  body span _ hstmts := Block.Respecting.mk hstmts span
  bind _ _ _ hvalue := .of_expr hvalue
  set _ _ _ hvalue := .of_expr hvalue
  yield _ _ hvalue := .of_expr hvalue
  ret _ _ hvalue := .of_expr hvalue
  eval _ _ hvalue := .of_expr hvalue

end SlotCode
