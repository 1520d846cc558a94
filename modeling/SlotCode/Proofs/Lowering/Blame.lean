import SlotCode.Proofs.Lowering.Failures
import SlotCode.Proofs.Lowering.Programs

/-!
# Why trees cannot be lowered

A tree that cannot be lowered is itself to blame (`Lower.Blames`), provided that lowering starts in a
*settled* outline: it is good, and every name in scope stands for a variable that has a type.  A name
is in scope as soon as it is declared, but no tree is lowered between that and the moment its variable
gets a type.
-/

namespace SlotCode

variable {slots : List VarId} {bound : List (String × Span)} {β : Type} {es : List Expr}
  {s : Session} {v : Value}

open Outline Lower List

-- Their equations are made here, once, and not by the first of the lemmas below that gets to them.
attribute [local simp] lowerExpr lowerStmt

/-! ## Settled outlines -/

namespace Outline

variable {o o' o₁ : Outline}

structure Settled (o : Outline) : Prop where
  good : o.Good
  typed : ∀ name id, (name, id) ∈ o.names → ∃ t, o.typeOf id = some t

theorem Settled.step (h : o.Settled) (hs : o.Steps o') : o'.Settled where
  good := hs.good
  typed name id hmem := by
    rw [hs.names] at hmem
    obtain ⟨t, ht⟩ := h.typed name id hmem
    exact ⟨t, hs.grows.typeOf ht⟩

theorem Settled.enter (h : o.Settled) : o.enter.Settled :=
  ⟨h.good.enter, h.typed⟩

theorem Settled.openLoop (h : o.Settled) (hf : o.frames ≠ []) (label : Option String) :
    (o.openLoop label).Settled := by
  obtain ⟨frame, frames, hframes⟩ := exists_cons_of_ne_nil hf
  refine ⟨h.good.openLoop hframes label, fun name id hmem => ?_⟩
  have hnames : (o.openLoop label).names = o.names := by
    rw [Outline.names, Outline.names, frames_openLoop hframes, hframes]
    rfl
  rw [hnames] at hmem
  obtain ⟨t, ht⟩ := h.typed name id hmem
  exact ⟨t, (Grows.openLoop o label).typeOf ht⟩

/-- The names of a target are declared, and their variables get types. -/
theorem Settled.fill (h : o.Settled) (hf : o.frames ≠ []) {target : Expr} {pattern : Pattern}
    (hdeclared : Declared target pattern o o₁) (hsteps : o₁.Steps o') {type : TypeId}
    (hfills : o'.Fills pattern type slots) : o'.Settled := by
  refine ⟨hsteps.good, fun name id hmem => ?_⟩
  rw [hsteps.names] at hmem
  rcases hdeclared.name_cases hmem with hold | hnew
  · obtain ⟨t, ht⟩ := h.typed name id hold
    obtain ⟨new, hadds, -⟩ := hdeclared.adds h.good hf
    exact ⟨t, hsteps.grows.typeOf (hadds.grows.typeOf ht)⟩
  · exact hfills.typed id hnew

end Outline

namespace Lower

variable {s s' : Session}

/-- A pattern that has been declared consists of variables of the table. -/
theorem declared_vars (hg : s.outline.Good) {target : Expr} {pattern : Pattern} {mode : BindMode}
    (h : bindPattern (.declare bound) target s = .ok (pattern, mode) s') :
    s'.outline.Good ∧ s.outline.Keeps s'.outline ∧ ∀ id ∈ pattern.vars, id < s'.outline.vars.length := by
  obtain ⟨-, hdeclared⟩ := bindPattern_declared h
  obtain ⟨new, hadds, count, hvars, hlen⟩ := hdeclared.adds hg s.frames_ne
  refine ⟨hadds.good, hadds.keeps, fun id hid => ?_⟩
  rw [hvars, mem_range'_1] at hid
  exact hlen ▸ hid.2

/-- A pattern of names that are in scope consists of variables of the table. -/
theorem resolved_vars {target : Expr} {pattern : Pattern} {mode : BindMode} (hg : s.outline.Good)
    (h : bindPattern .resolve target s = .ok (pattern, mode) s') :
    ∀ id ∈ pattern.vars, id < s.outline.vars.length := by
  obtain ⟨-, -, hnames⟩ := bindPattern_resolve_ok h
  intro id hid
  obtain ⟨name, -, hlookup⟩ := hnames id hid
  obtain ⟨i, hi, -⟩ := hg.names name id (mem_names_of_lookup hlookup)
  exact lt_of_info hi

end Lower

/-! ## Lists of trees -/

/-- The expression is to blame if it cannot be lowered. -/
def Expr.Blamed (e : Expr) : Prop :=
  ∀ s : Session, s.outline.Settled → Blames (lowerExpr e) s

def Block.Blamed (b : Block) : Prop :=
  ∀ s : Session, s.outline.Settled → Blames (lowerBlock b) s

def Stmt.Blamed (stmt : Stmt) : Prop :=
  ∀ (s : Session) (v : Value), s.outline.Settled → v.Ok s.outline → Blames (lowerStmt v stmt) s

/-- The rest is lowered after an expression. -/
theorem Expr.Blamed.bind {e : Expr} (he : e.Blamed) {f : Code × Value → Lower β}
    (hs : s.outline.Settled)
    (hf : ∀ code v t, s.outline.Steps t.outline → t.outline.Settled → v.Ok t.outline →
      Blames (f (code, v)) t) : Blames (lowerExpr e >>= f) s := by
  refine .bind (he s hs) fun lowered t ht => ?_
  obtain ⟨code, v⟩ := lowered
  obtain ⟨hsteps, -, hv⟩ := e.lowers hs.good ht
  exact hf code v t hsteps (hs.step hsteps) hv

section

variable (hes : ∀ e ∈ es, e.Blamed)

include hes

theorem lowerItems_blames (hs : s.outline.Settled) : Blames (lowerItems es) s := by
  induction es generalizing s with
  | nil => exact .pure _
  | cons e es ih =>
    obtain ⟨he, hes⟩ := forall_mem_cons.1 hes
    rw [lowerItems]
    exact he.bind hs fun _ _ t _ ht _ => .bind (ih hes ht) fun _ _ _ => .pure _

theorem lowerOperands_blames (hs : s.outline.Settled) (op : ArithOp) (span : Span) :
    Blames (lowerOperands op.type span es) s := by
  induction es generalizing s with
  | nil => exact .pure _
  | cons e es ih =>
    obtain ⟨he, hes⟩ := forall_mem_cons.1 hes
    rw [lowerOperands]
    refine he.bind hs fun code v t _ ht hv => ?_
    obtain ⟨kind, hk, hb⟩ := kind_opType ht.good.types op
    have hoperand := TypeGraph.isScalar_opType ht.good.types op
    refine .bind (expectType_blames ht.good.types hoperand.value hv.value span) fun _ u hu => ?_
    obtain ⟨rfl, htype⟩ := eq_of_expectType ht.good hv hk hb hu
    refine .bind (scalarOf_blames hv (htype ▸ hoperand)) fun operand u hu => ?_
    obtain ⟨rfl, -⟩ := scalarOf_ok hu
    exact .bind (ih hes ht) fun _ _ _ => .pure _

theorem lowerGroup_blames (hs : s.outline.Settled) (span : Span) : Blames (lowerGroup span es) s := by
  induction es generalizing s with
  | nil => exact .pure _
  | cons e es ih =>
    obtain ⟨he, hes⟩ := forall_mem_cons.1 hes
    rw [lowerGroup]
    refine he.bind hs fun code v t _ ht hv => ?_
    have hk := ht.good.types.integer
    refine .bind (expectType_blames ht.good.types ⟨_, hk, rfl⟩ hv.value span) fun _ u hu => ?_
    obtain ⟨rfl, htype⟩ := eq_of_expectType ht.good hv hk rfl hu
    refine .bind (holdInteger_blames ht.good hv htype e.span) fun held u hu => ?_
    obtain ⟨hsteps, -⟩ := holdInteger_holds ht.good hv htype hu
    exact .bind (ih hes (ht.step hsteps)) fun _ _ _ => .pure _

/-- The rest is lowered after a group of operands. -/
theorem lowerGroup_blames_bind {f : Code × List VarId → Lower β} (hs : s.outline.Settled) (span : Span)
    (hf : ∀ group t, t.outline.Settled → Blames (f group) t) : Blames (lowerGroup span es >>= f) s := by
  refine .bind (lowerGroup_blames hes hs span) fun group t ht => ?_
  obtain ⟨hsteps, -⟩ := lowerGroup_emits (fun e _ => e.lowers) hs.good ht
  exact hf group t (hs.step hsteps)

end

theorem lowerLinks_blames {links : List Link}
    (hlinks : ∀ group, .operands group ∈ links → ∀ e ∈ group, e.Blamed) (hs : s.outline.Settled)
    (span : Span) (left : List VarId) (before : List Comparison) :
    Blames (lowerLinks span left before links) s := by
  induction links using Link.induction generalizing s left before with
  | nil =>
    rw [lowerLinks]
    split
    · exact .failAt hs.good.types trivial
    · exact .pure _
  | operands | last | twice => exact .failAt hs.good.types trivial
  | pair opSpan op group links ih =>
    rw [lowerLinks]
    refine lowerGroup_blames_bind (hlinks group (by simp)) hs span fun right t ht => ?_
    exact .bind (ih (fun g hmem => hlinks g (by simp [hmem])) ht _ _) fun _ _ _ => .pure _

theorem lowerChain_blames {chain : List Link}
    (hchain : ∀ group, .operands group ∈ chain → ∀ e ∈ group, e.Blamed) (hs : s.outline.Settled)
    (span : Span) : Blames (lowerChain span chain) s := by
  cases chain with
  | nil => exact .failAt hs.good.types trivial
  | cons link links =>
    cases link with
    | operator opSpan op => exact .failAt hs.good.types trivial
    | operands group =>
      rw [lowerChain]
      refine lowerGroup_blames_bind (hchain group mem_cons_self) hs span fun left t ht => ?_
      exact .bind (lowerLinks_blames (fun g hmem => hchain g (mem_cons_of_mem _ hmem)) ht span _ _)
        fun _ _ _ => .pure _

theorem lowerArgs_blames (hes : ∀ e ∈ es, e.Blamed) {params : List TypeId} (hs : s.outline.Settled)
    (hparams : ∀ p ∈ params, s.types.IsValue p) (targetSpan : Span) (b : Bindings) :
    Blames (lowerArgs targetSpan b es params) s := by
  induction es generalizing params s b with
  | nil => exact .pure _
  | cons e es ih =>
    cases params with
    | nil => exact .pure _
    | cons param params =>
      obtain ⟨he, hes⟩ := forall_mem_cons.1 hes
      rw [lowerArgs]
      refine he.bind hs fun code v t hsteps ht hv => ?_
      have hparams' : ∀ p ∈ param :: params, t.types.IsValue p :=
        fun p hp => (hparams p hp).extend hsteps.grows.types
      obtain ⟨hparam, hrest⟩ := forall_mem_cons.1 hparams'
      obtain ⟨node, hnode⟩ := TypeGraph.exists_node hparam.lt_size
      have horigin : t.types.origin param = .ok node.origin := by
        rw [TypeGraph.origin, hnode]
        rfl
      refine .after (askTypes_of_ok horigin)
        (.bind (bindArgument_blames ht.good.types hparam hv.value _ b) fun b' u hbind => ?_)
      obtain ⟨rfl, -⟩ := bindArgument_ok hbind
      exact .bind (ih hes ht hrest b') fun _ _ _ => .pure _

theorem lowerElse_blames {no : Option Expr} (hno : ∀ e ∈ no, e.Blamed) (hs : s.outline.Settled) :
    Blames (lowerElse no) s := by
  cases no with
  | none => exact .pure _
  | some e =>
    rw [lowerElse]
    exact .bind (hno e rfl s hs) fun _ _ _ => .pure _

/-- Two branches are joined after the second one has been lowered. -/
theorem joinElse_blames {no : Option Expr} (hno : ∀ e ∈ no, e.Blamed) (hs : s.outline.Settled)
    {yes : Code × Value} (hyes : yes.2.Ok s.outline) (span : Span) (f : Code × Code × Value → β) :
    Blames (do
      let no ← lowerElse no
      let joined ← joinBranches yes no span
      return f joined) s := by
  refine .bind (lowerElse_blames hno hs) fun lowered t ht => ?_
  obtain ⟨hsteps, -, hvalue⟩ := lowerElse_emits (fun e _ => e.lowers) hs.good ht
  exact .bind (joinBranches_blames hsteps.good (hyes.mono hs.good hsteps.keeps) hvalue span)
    fun _ _ _ => .pure _

/-! ## Calls -/

theorem Expr.Blamed.call {args : List Expr} (hargs : ∀ e ∈ args, e.Blamed) (span : Span) (target : Expr) :
    (Expr.call span target args).Blamed := by
  intro s hs
  cases target with
  | var targetSpan name =>
    rw [lowerExpr]
    refine .bind (callee_blames hs.good name targetSpan) fun c t hcallee => ?_
    obtain ⟨rfl, hparams, hresult, hnative⟩ := callee_values hs.good hcallee
    refine .bind (checkArity_blames hs.good.types name c args span) fun _ t harity => ?_
    obtain ⟨rfl, hlen⟩ := checkArity_ok harity
    refine .bind (lowerArgs_blames hargs hs hparams targetSpan []) fun lowered t ht => ?_
    obtain ⟨code, inputs, b⟩ := lowered
    obtain ⟨hsteps, -, -, hb⟩ := lowerArgs_emits (fun e _ => e.lowers) hlen hs.good hparams .nil ht
    refine .bind (callResult_blames hsteps.good (hresult.extend hsteps.grows.types) hb span)
      fun returned u _ => ?_
    exact .bind (callCommand_completes hnative _ _ _ _).blames fun _ _ _ => .pure _
  | _ => exact .unsupported hs.good.types (by decide)

/-! ## Boxes that are opened -/

/-- The branch that is taken with the payload of a full box, in a context of its own. -/
theorem fullBranch_blames {yes : Expr} (hyes : yes.Blamed) (hs : s.outline.Settled)
    {payload : TypeId} (hpayload : s.types.IsValue payload) (target : Expr) (valueSpan : Span)
    (f : Pattern → List VarId → Code × Value → β) :
    Blames (inContext do
      let (pattern, _) ← bindPattern (.declare []) target
      let slots ← expand valueSpan pattern payload
      let lowered ← lowerExpr yes
      return f pattern slots lowered) s := by
  refine .inContext (.bind (bindPattern_blames hs.good.types) fun bound t hbind => ?_)
  obtain ⟨pattern, mode⟩ := bound
  obtain ⟨hgood, hkeeps, hvars⟩ := declared_vars (s := s.enter) hs.enter.good hbind
  have hvalue : t.types.IsValue payload := hpayload.extend hkeeps.grows.types
  refine .bind (expand_blames hgood hvalue hvars valueSpan) fun slots u hexpand => ?_
  obtain ⟨hsteps, hfills⟩ := expand_fills hgood hvalue hexpand
  have hsettled : u.outline.Settled :=
    .fill (o := s.enter.outline) hs.enter s.enter.frames_ne (bindPattern_declared hbind).2 hsteps hfills
  exact .bind (hyes u hsettled) fun _ _ _ => .pure _

/-! ## Statements -/

/-- A statement types the names that it adds. -/
theorem Stmt.settles {stmt : Stmt} {value : Value} {s' : Session} {code : Code}
    (hs : s.outline.Settled) (h : lowerStmt value stmt s = .ok (code, v) s') :
    s'.outline.Settled := by
  cases lowerStmt_cases h with
  | bind hexpr hbind hstore =>
    obtain ⟨hsteps, -, hv⟩ := Expr.lowers _ hs.good hexpr
    obtain ⟨hgood, hkeeps, -⟩ := declared_vars hsteps.good hbind
    obtain ⟨hsteps', -, -, slots, hfills, -⟩ := storeInto_fills hgood (hv.mono hsteps.good hkeeps) hstore
    exact (hs.step hsteps).fill (Session.frames_ne _) (bindPattern_declared hbind).2 hsteps' hfills
  | set hexpr hbind hstore =>
    obtain ⟨hsteps, -, hv⟩ := Expr.lowers _ hs.good hexpr
    obtain ⟨rfl, -⟩ := bindPattern_resolve_ok hbind
    obtain ⟨hsteps', -⟩ := storeInto_fills hsteps.good hv hstore
    exact hs.step (hsteps.trans hsteps')
  | yield hexpr | eval hexpr => exact hs.step (Expr.lowers _ hs.good hexpr).1

section

variable {s s' : Session} {code : Code}

theorem lowerExpr_settles {e : Expr} {r : Code × Value} (hs : s.outline.Settled)
    (h : lowerExpr e s = .ok r s') : s'.outline.Settled :=
  hs.step (e.lowers hs.good h).1

theorem lowerGroup_settles {span : Span} {r : Code × List VarId} (hs : s.outline.Settled)
    (h : lowerGroup span es s = .ok r s') : s'.outline.Settled :=
  hs.step (lowerGroup_steps hs.good h)

theorem lowerStmts_settles {stmts : List Stmt} {value : Value} (hs : s.outline.Settled)
    (h : lowerStmts value stmts s = .ok (code, v) s') : s'.outline.Settled := by
  induction stmts generalizing s value code with
  | nil =>
    cases h
    exact hs
  | cons stmt stmts ih =>
    obtain ⟨c, w, s₁, cs, hhead, htail, -⟩ := lowerStmts_cons h
    exact ih (Stmt.settles hs hhead) htail

/-- The session in which the branch for a full box is lowered. -/
theorem Unboxed.settles {target : Expr} {box : Value} {payload : TypeId} {operand : Operand}
    {span : Span} {s₁ s₂ s₃ s₄ : Session} {id : VarId} {pattern : Pattern} {mode : BindMode}
    {slots : List VarId}
    (h : Unboxed span box target payload operand id pattern mode slots s₁ s₂ s₃ s₄)
    (hs : s₁.outline.Settled) :
    s₂.outline.Settled ∧ s₄.outline.Settled ∧ ∃ new, s₂.outline.enter.Adds s₄.outline new := by
  obtain ⟨hsteps, hdeclared, hsteps', hfills⟩ := h.fills hs.good
  have hs₂ := hs.step hsteps
  exact ⟨hs₂, .fill hs₂.enter s₂.enter.frames_ne hdeclared hsteps' hfills, h.adds hs.good⟩

end

theorem lowerStmts_blames {stmts : List Stmt} (hstmts : ∀ stmt ∈ stmts, stmt.Blamed)
    (hs : s.outline.Settled) (hv : v.Ok s.outline) : Blames (lowerStmts v stmts) s := by
  induction stmts generalizing s v with
  | nil => exact .pure _
  | cons stmt stmts ih =>
    obtain ⟨hstmt, hstmts⟩ := forall_mem_cons.1 hstmts
    rw [lowerStmts]
    refine .bind (hstmt s v hs hv) fun lowered t ht => ?_
    obtain ⟨code, w⟩ := lowered
    obtain ⟨-, -, hw⟩ := stmt.lowers hs.good hv ht
    exact .bind (ih hstmts (Stmt.settles hs ht) hw) fun _ _ _ => .pure _

/-! ## All trees -/

theorem blamed : Hereditary Expr.Blamed Block.Blamed Stmt.Blamed where
  var span name s hs := by
    rw [lowerExpr]
    refine .bind (.search hs.good.types fun e he => ?_) fun id t hsearch => ?_
    · rw [Scope.lookup] at he
      split at he <;> cases he
      trivial
    · obtain ⟨hid, rfl⟩ := search_eq_ok_iff.1 hsearch
      obtain ⟨type, htype⟩ := hs.typed name id (mem_names_of_lookup (lookup_ok hid))
      exact .bind (valueOf_completes htype span).blames fun _ _ _ => .pure _
  int span value s hs := .pure _
  bool span value s hs := .pure _
  str span value s hs := .pure _
  tuple span items hitems s hs := by
    rw [lowerExpr]
    refine .bind (lowerItems_blames hitems hs) fun lowered t ht => ?_
    obtain ⟨hsteps, -, hvalues⟩ := lowerItems_emits (fun e _ => e.lowers) hs.good ht
    exact .bind (tupleOf_blames hsteps.good.types (fun v hv => (hvalues v hv).value) span)
      fun _ _ _ => .pure _
  arith span op operands hoperands s hs := by
    rw [lowerExpr]
    exact .bind (lowerOperands_blames hoperands hs op span) fun _ _ _ => .pure _
  compare span chain hchain s hs := by
    rw [lowerExpr]
    exact .bind (lowerChain_blames hchain hs span) fun _ t _ =>
      .bind (runComparisons_completes _ t).blames fun _ _ _ => .pure _
  not span operand _ s hs := .unsupported hs.good.types (by decide)
  call span target args hargs := .call hargs span target
  block span body hbody s hs := by
    rw [lowerExpr]
    refine .bind (hbody s hs) fun lowered t ht => ?_
    obtain ⟨hsteps, -, hv⟩ := body.lowers hs.good ht
    exact .bind (keepValue_blames hsteps.good hv body.span) fun _ _ _ => .pure _
  cond span test yes no htest hyes hno s hs := by
    rw [lowerExpr]
    refine htest.bind hs fun testCode v t _ ht hv => ?_
    have hk := ht.good.types.boolean
    refine .bind (expectType_blames ht.good.types ⟨_, hk, rfl⟩ hv.value _) fun _ u hu => ?_
    obtain ⟨rfl, htype⟩ := eq_of_expectType ht.good hv hk rfl hu
    have hscalar := htype ▸ TypeGraph.isScalar_boolean ht.good.types
    refine .bind (scalarOf_blames hv hscalar) fun operand w hw => ?_
    obtain ⟨rfl, -⟩ := scalarOf_ok hw
    exact hyes.bind ht fun yesCode yesValue u _ hu hyesValue =>
      joinElse_blames hno hu hyesValue span fun joined =>
        (testCode ++ [.branch span operand joined.1 joined.2.1], joined.2.2)
  ifFull span boxed target yes no hboxed hyes hno s hs := by
    rw [lowerExpr]
    refine hboxed.bind hs fun boxCode box t _ ht hbox => ?_
    refine .bind (openBox_blames ht.good hbox) fun opened u hopen => ?_
    obtain ⟨payload, operand⟩ := opened
    obtain ⟨rfl, -, kind, hk, hp⟩ := openBox_ok hopen
    have hpayload := ht.good.types.parts _ _ (.payload hk hp)
    refine .bind (.of_ok rfl) fun full w hfull => ?_
    have hsteps := newTyped_steps ht.good (TypeGraph.isScalar_boolean ht.good.types) hfull
    have hsettled := ht.step hsteps
    have hpayload' : w.types.IsValue payload := hpayload.extend hsteps.grows.types
    refine .bind (fullBranch_blames hyes hsettled hpayload' target box.span fun pattern slots lowered =>
      (.native pattern.span .unwrap [operand] slots :: lowered.1, lowered.2)) fun lowered x hx => ?_
    simp only [inContext_eq_ok_iff, bind_eq_ok_iff, pure_eq_ok_iff, Prod.exists] at hx
    obtain ⟨_, ⟨pattern, mode, s₁, hbind, slots, s₂, hexpand, yesCode, v, s₃, hlower, rfl, rfl⟩, rfl⟩ := hx
    have hunboxed : Unboxed span box target .. := ⟨hopen, hfull, hbind, hexpand⟩
    obtain ⟨hsteps', hv, -⟩ := hunboxed.emits yes.lowers ht.good hbox hlower
    refine joinElse_blames hno (hsettled.step hsteps') ?_ span fun joined =>
      (boxCode ++ [.native span .full [operand] [full], .branch span (.var full) joined.1 joined.2.1],
        joined.2.2)
    exact hv
  loop span label body hbody s hs := by
    rw [lowerExpr]
    refine .bind (.inContext (.bind (.of_ok rfl) fun ref t ht => ?_)) fun lowered t ht => ?_
    · obtain ⟨rfl, hopened⟩ := newLoop_ok ht
      have hsettled : t.outline.Settled := by
        rw [hopened]
        exact hs.enter.openLoop s.enter.frames_ne label
      exact .bind (hbody t hsettled) fun _ _ _ => .pure _
    · simp only [inContext_eq_ok_iff, bind_eq_ok_iff, pure_eq_ok_iff, Prod.exists] at ht
      obtain ⟨_, ⟨ref, s₁, hloop, code, v, s₂, hlower, rfl, rfl⟩, rfl⟩ := ht
      obtain ⟨-, -, hgood, hexit, -, -, hloops⟩ := loopBody_opens body.lowers hs.good hloop hlower
      obtain ⟨hsteps, -⟩ := body.lowers hgood hlower
      obtain ⟨-, i, hi, -⟩ := hsteps.good.loops label ref (hloops ▸ mem_cons_self)
      refine .bind (loopValue_blames ?_ span) fun _ _ _ => .pure _
      rw [hexit]
      exact lt_of_info hi
  leave span label value hvalue s hs := by
    cases value with
    | none => exact leaveWith_blames hs.good (Value.ok_void hs.good span) span
    | some value =>
      rw [lowerExpr]
      exact (hvalue value rfl).bind hs fun _ v t _ ht hv =>
        .bind (leaveWith_blames ht.good hv span) fun _ _ _ => .pure _
  wrap span payload hpayload s hs := by
    rw [lowerExpr]
    exact hpayload.bind hs fun _ v t _ ht _ =>
      .bind (wrapValue_blames ht.good.types v payload.span span) fun _ _ _ => .pure _
  wrapEmpty span payload _ s hs := wrapNothing_blames hs.good.types payload span
  cons span head tail hhead htail s hs := by
    rw [lowerExpr]
    refine hhead.bind hs fun _ v t _ ht hv => htail.bind ht fun _ w u hsteps hu hw => ?_
    exact .bind (consValue_blames hu.good (hv.mono ht.good hsteps.keeps) hw span) fun _ _ _ => .pure _
  consEmpty span item _ s hs := consNothing_blames hs.good.types item span
  body span stmts hstmts s hs :=
    .inContext (lowerStmts_blames hstmts hs.enter (Value.ok_void hs.enter.good span))
  bind span target value hvalue s v hs hv := by
    rw [lowerStmt]
    refine hvalue.bind hs fun _ w t _ ht hw => ?_
    refine .bind (bindPattern_blames ht.good.types) fun bound u hbind => ?_
    obtain ⟨hgood, hkeeps, hvars⟩ := declared_vars ht.good hbind
    exact .bind (storeInto_blames hgood (hw.mono ht.good hkeeps) hvars span) fun _ _ _ => .pure _
  set span target value hvalue s v hs hv := by
    rw [lowerStmt]
    refine hvalue.bind hs fun _ w t _ ht hw => ?_
    refine .bind (bindPattern_blames ht.good.types) fun bound u hbind => ?_
    have hvars := resolved_vars ht.good hbind
    obtain ⟨rfl, -⟩ := bindPattern_resolve_ok hbind
    exact .bind (storeInto_blames ht.good hw hvars span) fun _ _ _ => .pure _
  yield span value hvalue s v hs hv := hvalue s hs
  ret span value _ s v hs hv := .unsupported hs.good.types (by decide)
  eval span value hvalue s v hs hv := by
    rw [lowerStmt]
    exact .bind (hvalue s hs) fun _ _ _ => .pure _

/-! ## Functions -/

namespace Lower

variable {s s' : Session}

section

variable (hs : s.outline.Settled)

include hs

/-- A parameter is declared and shaped after its type. -/
theorem declareParam_settles {name : String} {span span' : Span} {id : VarId} {mode : BindMode}
    {type : TypeId} {s₁ : Session} (hvalue : s.types.IsValue type)
    (hbind : bindName name span (.declare bound) s = .ok (id, mode) s₁)
    (hexpand : expand span' (.var id span) type s₁ = .ok slots s') :
    s.outline.Adds s'.outline [(name, id)] ∧ s'.outline.Settled ∧ ∃ bound', mode = .declare bound' := by
  obtain ⟨hmode, rfl, hs₁⟩ := bindName_declare_ok hbind
  have hdeclare : s₁.outline = s.outline.declare name := hs₁
  have hadds := Adds.declare hs.good s.frames_ne name
  rw [← hdeclare] at hadds
  obtain ⟨hsteps, hfills⟩ := expand_fills hadds.good (hvalue.extend hadds.grows.types) hexpand
  have hdeclared : Declared (.var span name) (.var s.outline.vars.length span) s.outline s₁.outline :=
    hdeclare ▸ .var span name s.outline
  exact ⟨hadds.trans (hsteps.adds hadds.frames_ne), hs.fill s.frames_ne hdeclared hsteps hfills, hmode⟩

theorem declareParams_settles {params : List Param} {types : List TypeId}
    (hvalues : ∀ t ∈ types, s.types.IsValue t)
    (h : declareParams (.declare bound) params types s = .ok slots s') :
    (∃ new, s.outline.Adds s'.outline new) ∧ s'.outline.Settled := by
  induction params generalizing types s bound slots with
  | nil =>
    obtain ⟨-, rfl⟩ := pure_eq_ok_iff.1 h
    exact ⟨⟨[], .refl hs.good s.frames_ne⟩, hs⟩
  | cons param params ih =>
    cases types with
    | nil =>
      obtain ⟨-, rfl⟩ := pure_eq_ok_iff.1 h
      exact ⟨⟨[], .refl hs.good s.frames_ne⟩, hs⟩
    | cons type types =>
      simp only [declareParams, bind_eq_ok_iff, pure_eq_ok_iff, Prod.exists] at h
      obtain ⟨id, mode, s₁, hbind, head, s₂, hexpand, rest, s₃, hrest, -, rfl⟩ := h
      obtain ⟨hvalue, hvalues⟩ := forall_mem_cons.1 hvalues
      obtain ⟨hadds, hs₂, bound', rfl⟩ := declareParam_settles hs hvalue hbind hexpand
      obtain ⟨⟨new, hadds'⟩, hs₃⟩ := ih hs₂ (fun t ht => (hvalues t ht).extend hadds.grows.types) hrest
      exact ⟨⟨_, hadds.trans hadds'⟩, hs₃⟩

theorem declareParams_blames {params : List Param} {types : List TypeId}
    (hvalues : ∀ t ∈ types, s.types.IsValue t) :
    Blames (declareParams (.declare bound) params types) s := by
  induction params generalizing types s bound with
  | nil => exact .pure _
  | cons param params ih =>
    cases types with
    | nil => exact .pure _
    | cons type types =>
      obtain ⟨hvalue, hvalues⟩ := forall_mem_cons.1 hvalues
      refine .bind (bindName_blames hs.good.types param.name param.span _) fun named t hbind => ?_
      obtain ⟨id, mode⟩ := named
      obtain ⟨-, rfl, ht⟩ := bindName_declare_ok hbind
      have hadds := Adds.declare hs.good s.frames_ne param.name
      rw [show s.outline.declare param.name = t.outline from ht.symm] at hadds
      have hvalue' : t.types.IsValue type := hvalue.extend hadds.grows.types
      refine .bind (expand_blames hadds.good hvalue' (fun id hid => ?_) _) fun head u hexpand => ?_
      · cases mem_singleton.1 hid
        rw [ht]
        simp [Outline.push, Outline.modifyFrame]
      · obtain ⟨hadds', hu, bound', rfl⟩ := declareParam_settles hs hvalue hbind hexpand
        exact .bind (ih hu fun t ht => (hvalues t ht).extend hadds'.grows.types) fun _ _ _ => .pure _

theorem lowerBody_blames {decl : FnDecl} {c : Callee} (hparams : ∀ p ∈ c.params, s.types.IsValue p)
    (hresult : s.types.IsValue c.result) : Blames (lowerBody decl c) s := by
  refine .inContext (.bind (declareParams_blames (s := s.enter) hs.enter hparams) fun args t ht => ?_)
  obtain ⟨⟨new, hadds⟩, hsettled⟩ := declareParams_settles (s := s.enter) hs.enter hparams ht
  refine .bind (blamed.forall_block decl.body t hsettled) fun lowered u hu => ?_
  obtain ⟨hsteps, -, hv⟩ := decl.body.lowers hsettled.good hu
  have hresult' := (hresult.extend hadds.grows.types).extend hsteps.grows.types
  refine .bind (requireMatch_blames hsteps.good.types (fun e he => ?_) hv.value _ _) fun _ _ _ => .pure _
  exact Option.some.inj he ▸ hresult'

end

/-- Variables are taken out of the scope, which leaves the types. -/
theorem Blames.draining {α : Type} {x : Lower α} (h : Blames x s) : Blames (draining x) s := by
  rw [Blames] at h
  rw [Blames, Lower.draining]
  cases hx : x s with
  | ok a t => trivial
  | error e t =>
    rw [hx] at h
    cases e with
    | error cause => exact h
    | fault what => exact h

theorem lowerFunction_blames (hs : s.outline.Settled) (decl : FnDecl) :
    Blames (lowerFunction decl) s := by
  refine .bind (.of_ok rfl) fun _ s₁ hreport => ?_
  have hs₁ : s₁.outline.Settled := by
    rw [report_eq_ok_iff.1 hreport]
    exact hs
  refine .bind (callee_blames hs₁.good decl.name decl.span) fun c t hcallee => ?_
  obtain ⟨rfl, hparams, hresult, -⟩ := callee_values hs₁.good hcallee
  refine .bind ?_ fun _ u hcheck => ?_
  · rw [checkParams]
    split
    · exact .unsupported hs₁.good.types (by decide)
    · exact .pure _
  · obtain ⟨rfl, -⟩ := checkParams_ok hcheck
    exact .bind (.draining (lowerBody_blames hs₁ hparams hresult)) fun _ _ _ => .of_ok rfl

theorem lowerFunction_regular (hs : s.outline.Settled) {decl : FnDecl} {f : Function}
    (h : lowerFunction decl s = .ok f s') : s'.types.Regular := by
  obtain ⟨s₀, c, s₁, s₂, v, htypes, hscope, hlowered⟩ := lowerFunction_cases h
  have hs₀ : s₀.outline.Settled := Session.outline_congr htypes hscope ▸ hs
  obtain ⟨-, hparams, -⟩ := callee_values hs₀.good hlowered.callee
  obtain ⟨-, hsettled⟩ := declareParams_settles (s := s₀.enter) hs₀.enter hparams hlowered.params
  obtain ⟨hsteps, -⟩ := decl.body.lowers hsettled.good hlowered.body
  rw [hlowered.types]
  exact hsteps.good.types

end Lower

end SlotCode
