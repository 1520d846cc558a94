import SlotCode.Proofs.Program.Nesting

/-!
# Where loops and branches come from

Loops and branches are made for expressions only.  Each of those in the code of a function is the last
command of an expression that lowering gets to (`lowerFunction_origin`).
-/

namespace SlotCode

variable {span : Span} {s s' : Session} {code : Code} {c : Command}

open Outline Lower List

/-- The command has code inside it. -/
def Command.isControl : Command → Bool
  | .branch _ _ _ _ | .loop _ _ _ => true
  | _ => false

def Expr.isConditional : Expr → Bool
  | .cond _ _ _ _ | .ifFull _ _ _ _ _ => true
  | _ => false

/-- The expression is a loop or a conditional. -/
def Expr.isControl : Expr → Bool
  | .loop _ _ _ => true
  | e => e.isConditional

theorem Command.isControl_of_plain (h : c.isPlain = true) : c.isControl = false := by
  cases c with
  | assign | call | native => rfl
  | branch | loop | leave => cases h

theorem Command.mem_of_mem_nestedAll (h : ∀ c ∈ code, c.isControl = false) (hc : c ∈ nestedAll code) :
    c ∈ code := by
  induction code with
  | nil => exact hc
  | cons d code ih =>
    obtain ⟨hd, hrest⟩ := forall_mem_cons.1 h
    rw [nestedAll, mem_append] at hc
    rcases hc with hc | hc
    · cases d with
      | assign | call | native | leave => exact mem_cons.2 (.inl (mem_singleton.1 hc))
      | branch | loop => cases hd
    · exact mem_cons_of_mem _ (ih hrest hc)

/-- From the site, lowering gets to the loop or conditional for which the command is made. -/
def Site.Makes (site : Site) (c : Command) : Prop :=
  ∃ e s first v s', Relation.ReflTransGen Site.Leads site (.expr e s) ∧ e.isControl = true ∧
    lowerExpr e s = .ok (first ++ [c], v) s'

/-- The loops and branches of the code are made for expressions that lowering gets to from the site. -/
def Site.MakesIn (site : Site) (code : Code) : Prop :=
  ∀ c ∈ Command.nestedAll code, c.isControl = true → site.Makes c

namespace Site.MakesIn

variable {site part : Site} {a b : Code}

theorem of_simple (h : ∀ c ∈ a, c.isControl = false) : site.MakesIn a := by
  intro c hc hcontrol
  rw [h c (Command.mem_of_mem_nestedAll h hc)] at hcontrol
  cases hcontrol

theorem of_plain (h : ∀ c ∈ a, c.isPlain = true) : site.MakesIn a :=
  of_simple fun c hc => Command.isControl_of_plain (h c hc)

theorem append (ha : site.MakesIn a) (hb : site.MakesIn b) : site.MakesIn (a ++ b) := by
  intro c hc
  rw [Command.nestedAll_append, mem_append] at hc
  exact hc.elim (ha c) (hb c)

theorem lead (h : site.Leads part) (ha : part.MakesIn a) : site.MakesIn a := by
  intro c hc hcontrol
  obtain ⟨e, s, first, v, s', hreach, he, hlower⟩ := ha c hc hcontrol
  exact ⟨e, s, first, v, s', .head h hreach, he, hlower⟩

variable {e : Expr} {s s' : Session} {first : Code} {v : Value}

/-- A conditional that has been lowered. -/
theorem branch {test : Operand} (he : e.isControl = true)
    (h : lowerExpr e s = .ok (first ++ [.branch span test a b], v) s')
    (hfirst : (Site.expr e s).MakesIn first) (ha : (Site.expr e s).MakesIn a)
    (hb : (Site.expr e s).MakesIn b) :
    (Site.expr e s).MakesIn (first ++ [.branch span test a b]) := by
  refine hfirst.append fun c hc hcontrol => ?_
  rw [Command.nestedAll, Command.nested, Command.nestedAll, append_nil, mem_cons, mem_append] at hc
  rcases hc with rfl | hc | hc
  · exact ⟨e, s, first, v, s', .refl, he, h⟩
  · exact ha c hc hcontrol
  · exact hb c hc hcontrol

/-- A loop that has been lowered. -/
theorem loop {id : LoopId} (he : e.isControl = true)
    (h : lowerExpr e s = .ok ([.loop span id a], v) s') (ha : (Site.expr e s).MakesIn a) :
    (Site.expr e s).MakesIn [.loop span id a] := by
  intro c hc hcontrol
  rw [Command.nestedAll, Command.nested, Command.nestedAll, append_nil, mem_cons] at hc
  rcases hc with rfl | hc
  · exact ⟨e, s, [], v, s', .refl, he, h⟩
  · exact ha c hc hcontrol

end Site.MakesIn

/-! ## Trees -/

def Expr.Sourced (e : Expr) : Prop :=
  ∀ ⦃s s' : Session⦄ ⦃code : Code⦄ ⦃v : Value⦄, s.outline.Settled → lowerExpr e s = .ok (code, v) s' →
    (Site.expr e s).MakesIn code

def Block.Sourced (b : Block) : Prop :=
  ∀ ⦃s s' : Session⦄ ⦃code : Code⦄ ⦃v : Value⦄, s.outline.Settled → lowerBlock b s = .ok (code, v) s' →
    (Site.block b s).MakesIn code

def Stmt.Sourced (stmt : Stmt) : Prop :=
  ∀ ⦃s s' : Session⦄ ⦃code : Code⦄ ⦃value v : Value⦄, s.outline.Settled →
    lowerStmt value stmt s = .ok (code, v) s' → (Site.stmt value stmt s).MakesIn code

/-- The operands from some place on.  Those before it say in which session they are lowered. -/
theorem InTurn.makes {e : Expr} {before es : List Expr} {s₁ : Session} {first : Code}
    {parts parts' : List Part} (he : e.operands = before ++ es)
    (hbefore : InTurn e.isCompare before s first s₁ parts)
    (h : InTurn e.isCompare es s₁ code s' parts') (hes : ∀ operand ∈ es, operand.Sourced)
    (hs : s₁.outline.Settled) : (Site.expr e s).MakesIn code := by
  induction es generalizing before s₁ first parts code parts' with
  | nil =>
    cases h
    exact .of_plain (forall_mem_nil _)
  | cons operand es ih =>
    obtain ⟨part, rest, _, rfl, rfl, hpart, hrest, rfl⟩ := h.cons_inv
    obtain ⟨hoperand, hes⟩ := forall_mem_cons.1 hes
    obtain ⟨inner, v, s₂, holding, hlower, hcode, hsteps', -, hholding⟩ := hpart.begins hs.good
    have hinner := (hoperand hs hlower).lead (.operand he hbefore)
    have hs₃ := (lowerExpr_settles hs hlower).step hsteps'
    rw [hcode]
    refine (hinner.append (.of_plain hholding.plain)).append ?_
    exact ih (by rw [he, append_cons]) (hbefore.append (.single hpart)) hrest hes hs₃

theorem Combined.makes {e : Expr} (h : Combined e s code s')
    (hes : ∀ operand ∈ e.operands, operand.Sourced) (hs : s.outline.Settled) :
    (Site.expr e s).MakesIn code := by
  obtain ⟨first, last, s₁, parts, rfl, hparts, -, hlast⟩ := h
  exact (InTurn.makes rfl .nil hparts hes hs).append (.of_plain hlast.plain)

theorem leaveWith_simple {label : Option String} {v w : Value} (hg : s.outline.Good)
    (hv : v.Ok s.outline) (h : leaveWith label v span s = .ok (code, w) s') :
    ∀ c ∈ code, c.isControl = false := by
  obtain ⟨-, -, ref, stores, -, -, rfl, hstores⟩ := leaveWith_takes hg hv h
  intro c hc
  rcases mem_append.1 hc with hc | hc
  · rcases hstores with ⟨-, rfl⟩ | ⟨-, rfl⟩
    · cases hc
    · exact Command.isControl_of_plain (plain_assignments _ _ _ c hc)
  · cases mem_singleton.1 hc
    rfl

namespace Expr.Sourced

theorem block {body : Block} (hbody : body.Sourced) (span : Span) : (Expr.block span body).Sourced := by
  intro s s' code v hs h
  cases lowerExpr_cases h with
  | block hlower hkeep =>
    obtain ⟨hsteps, -, hv⟩ := body.lowers hs.good hlower
    obtain ⟨-, hcopy⟩ := keepValue_fresh hsteps.good hv hkeep
    exact ((hbody hs hlower).lead .nested).append (.of_plain hcopy.plain)

theorem cond {test yes : Expr} {no : Option Expr} (htest : test.Sourced) (hyes : yes.Sourced)
    (hno : ∀ e ∈ no, e.Sourced) (span : Span) : (Expr.cond span test yes no).Sourced := by
  intro s s' code v hs h
  cases lowerExpr_cases h with
  | cond hlower _ _ hlowerYes hlowerNo hjoin =>
    have hs₁ := lowerExpr_settles hs hlower
    obtain ⟨hsteps₂, -, hv₂⟩ := yes.lowers hs₁.good hlowerYes
    have hs₂ := hs₁.step hsteps₂
    obtain ⟨hsteps₃, -, hv₃⟩ := lowerElse_emits (Expr.lowersIn no) hsteps₂.good hlowerNo
    obtain ⟨-, a, b, rfl, rfl, ha, hb⟩ :=
      joinBranches_appends hsteps₃.good (hv₂.mono hsteps₂.good hsteps₃.keeps) hv₃ hjoin
    refine .branch rfl h ((htest hs hlower).lead .test)
      (((hyes hs₁ hlowerYes).lead (.yes hlower)).append (.of_plain ha.plain))
      (.append ?_ (.of_plain hb.plain))
    rcases lowerElse_cases hlowerNo with ⟨rfl, rfl, -⟩ | ⟨e, c, w, rfl, rfl, hlowerElse⟩
    · exact .of_plain (forall_mem_nil _)
    · exact (hno e rfl hs₂ hlowerElse).lead (.no hlower hlowerYes)

theorem ifFull {boxed yes : Expr} {no : Option Expr} (hboxed : boxed.Sourced) (hyes : yes.Sourced)
    (hno : ∀ e ∈ no, e.Sourced) (span : Span) (target : Expr) :
    (Expr.ifFull span boxed target yes no).Sourced := by
  intro s s' code v hs h
  cases lowerExpr_cases h with
  | ifFull hlower hunboxed hlowerYes hlowerNo hjoin =>
    have hs₁ := lowerExpr_settles hs hlower
    obtain ⟨-, hs₄, -⟩ := hunboxed.settles hs₁
    obtain ⟨-, -, -, hs₅, hv⟩ := hunboxed.exits hs₁ hlowerYes
    obtain ⟨hsteps₆, -, hv₆⟩ := lowerElse_emits (Expr.lowersIn no) hs₅.good hlowerNo
    obtain ⟨-, a, b, rfl, rfl, ha, hb⟩ :=
      joinBranches_appends hsteps₆.good (hv.mono hs₅.good hsteps₆.keeps) hv₆ hjoin
    rw [append_cons] at h ⊢
    refine .branch rfl h (((hboxed hs hlower).lead .boxed).append (.of_plain (plain_singleton rfl)))
      (.append (.append (a := [_]) (.of_plain (plain_singleton rfl)) ?_) (.of_plain ha.plain))
      (.append ?_ (.of_plain hb.plain))
    · exact (hyes hs₄ hlowerYes).lead (.full hlower hunboxed)
    · rcases lowerElse_cases hlowerNo with ⟨rfl, rfl, -⟩ | ⟨e, c, w, rfl, rfl, hlowerElse⟩
      · exact .of_plain (forall_mem_nil _)
      · exact (hno e rfl hs₅ hlowerElse).lead (.empty hlower hunboxed hlowerYes)

theorem loop {body : Block} (hbody : body.Sourced) (span : Span) (label : Option String) :
    (Expr.loop span label body).Sourced := by
  intro s s' code v hs h
  cases lowerExpr_cases h with
  | loop hloop hlower _ =>
    exact .loop rfl h ((hbody (newLoop_settles hs hloop) hlower).lead (.loop hloop))

theorem leave {value : Option Expr} (hvalue : ∀ e ∈ value, e.Sourced) (span : Span)
    (label : Option String) : (Expr.leave span label value).Sourced := by
  intro s s' code v hs h
  cases lowerExpr_cases h with
  | leave hleave => exact .of_simple (leaveWith_simple hs.good (Value.ok_void hs.good span) hleave)
  | leaveWith hlower hleave =>
    obtain ⟨hsteps, -, hv⟩ := Expr.lowers _ hs.good hlower
    exact ((hvalue _ rfl hs hlower).lead .left).append
      (.of_simple (leaveWith_simple hsteps.good hv hleave))

theorem wrap {payload : Expr} (hpayload : payload.Sourced) (span : Span) :
    (Expr.wrap span payload).Sourced := by
  intro s s' code v hs h
  cases lowerExpr_cases h with
  | wrap hlower hwrap =>
    obtain ⟨-, -, rfl, -⟩ := wrapValue_ok hwrap
    exact ((hpayload hs hlower).lead .payload).append (.of_plain (plain_singleton rfl))

end Expr.Sourced

theorem Stmt.Sourced.of_expr {stmt : Stmt} (he : stmt.expr.Sourced) : stmt.Sourced := by
  intro s s' code value v hs h
  obtain ⟨first, stored, s₁, stores, hexpr, rfl, -, -, hplain, -⟩ := lowerStmt_stores hs h
  exact ((he hs hexpr).lead .expr).append (.of_plain hplain)

theorem lowerStmts_makes {before after : List Stmt} {s₁ : Session} {first : Code} {w v : Value}
    (hbefore : lowerStmts (.void span) before s.enter = .ok (first, w) s₁)
    (h : lowerStmts w after s₁ = .ok (code, v) s') (hstmts : ∀ stmt ∈ after, stmt.Sourced)
    (hs : s₁.outline.Settled) : (Site.block (.mk span (before ++ after)) s).MakesIn code := by
  induction after generalizing before s₁ first w code with
  | nil =>
    cases h
    exact .of_plain (forall_mem_nil _)
  | cons stmt after ih =>
    obtain ⟨c, u, s₂, cs, hhead, htail, rfl⟩ := lowerStmts_cons h
    obtain ⟨hstmt, hstmts⟩ := forall_mem_cons.1 hstmts
    have hone : lowerStmts w [stmt] s₁ = .ok (c ++ [], u) s₂ := bind_eq_ok_iff.2 ⟨(c, u), s₂, hhead, rfl⟩
    refine ((hstmt hs hhead).lead (.stmt hbefore)).append ?_
    rw [append_cons]
    exact ih (lowerStmts_concat hbefore hone) htail hstmts (Stmt.settles hs hhead)

theorem Block.Sourced.mk {stmts : List Stmt} (hstmts : ∀ stmt ∈ stmts, stmt.Sourced) (span : Span) :
    (Block.mk span stmts).Sourced := by
  intro s s' code v hs h
  obtain ⟨s₁, hlower, -⟩ := lowerBlock_cases h
  have hstart : lowerStmts (.void span) [] s.enter = .ok ([], .void span) s.enter := rfl
  exact lowerStmts_makes hstart hlower hstmts hs.enter

theorem sourced : Hereditary Expr.Sourced Block.Sourced Stmt.Sourced where
  var _ _ s s' code v hs h := by
    cases lowerExpr_cases h
    exact .of_plain (forall_mem_nil _)
  int _ _ s s' code v hs h := by
    cases lowerExpr_cases h
    exact .of_plain (forall_mem_nil _)
  bool _ _ s s' code v hs h := by
    cases lowerExpr_cases h
    exact .of_plain (forall_mem_nil _)
  str _ _ s s' code v hs h := by
    cases lowerExpr_cases h
    exact .of_plain (forall_mem_nil _)
  tuple _ _ hitems := fun _ _ _ _ hs h => (Combined.tuple hs.good h).makes hitems hs
  arith _ _ _ hoperands := fun _ _ _ _ hs h => (Combined.arith hs.good h).makes hoperands hs
  compare _ _ hchain := fun _ _ _ _ hs h =>
    (Combined.compare hs.good h).makes (Link.forall_allOperands hchain) hs
  not _ _ _ := fun _ _ _ _ _ h => absurd h unsupported_ne_ok
  call _ _ _ hargs := fun _ _ _ _ hs h => (Combined.call hs.good h).makes hargs hs
  block span _ hbody := Expr.Sourced.block hbody span
  cond span _ _ _ htest hyes hno := Expr.Sourced.cond htest hyes hno span
  ifFull span _ target _ _ hboxed hyes hno := Expr.Sourced.ifFull hboxed hyes hno span target
  loop span label _ hbody := Expr.Sourced.loop hbody span label
  leave span label _ hvalue := Expr.Sourced.leave hvalue span label
  wrap span _ hpayload := Expr.Sourced.wrap hpayload span
  wrapEmpty span payload _ s s' code v hs h := by
    obtain ⟨-, rfl, -⟩ := wrapNothing_ok h
    exact .of_plain (plain_singleton rfl)
  cons _ _ _ hhead htail := fun _ _ _ _ hs h =>
    (Combined.cons hs.good h).makes (by simpa [Expr.operands] using ⟨hhead, htail⟩) hs
  consEmpty span item _ s s' code v hs h := by
    obtain ⟨-, rfl, -⟩ := consNothing_ok h
    exact .of_plain (plain_singleton rfl)
  body span _ hstmts := Block.Sourced.mk hstmts span
  bind _ _ _ hvalue := .of_expr hvalue
  set _ _ _ hvalue := .of_expr hvalue
  yield _ _ hvalue := .of_expr hvalue
  ret _ _ hvalue := .of_expr hvalue
  eval _ _ hvalue := .of_expr hvalue

/-! ## Functions -/

theorem FnDecl.Leads.reaches {decl : FnDecl} {site part : Site} (h : decl.Leads s site)
    (hreach : Relation.ReflTransGen Site.Leads site part) : decl.Leads s part := by
  induction hreach with
  | refl => exact h
  | tail _ hpart ih => exact ih.part hpart

/-- The loops and branches of a function are made for loops and conditionals that lowering gets to. -/
theorem lowerFunction_origin {decl : FnDecl} {f : Function} (hs : s.outline.Settled)
    (hf : lowerFunction decl s = .ok f s') (hc : c ∈ Command.nestedAll f.code)
    (hcontrol : c.isControl = true) :
    ∃ e t first v t', decl.Leads s (.expr e t) ∧ e.isControl = true ∧
      lowerExpr e t = .ok (first ++ [c], v) t' := by
  obtain ⟨s₀, c', s₁, v, s₂, hbegun, hcallee, hparams, hblock, -⟩ := lowerFunction_begins hf
  have hs₁ := FnDecl.Leads.settled hs hbegun hcallee hparams
  have hbody := sourced.forall_block decl.body hs₁ hblock
  obtain ⟨e, t, first, w, t', hreach, he, hlower⟩ := hbody c hc hcontrol
  exact ⟨e, t, first, w, t', .reaches (.body hbegun hcallee hparams) hreach, he, hlower⟩

end SlotCode
