import SlotCode.Proofs.Source.Callees
import SlotCode.Proofs.Twins.Operations

/-!
# Trees in twin sessions

Lowering a tree ends in the same way in twin sessions, if these know the same about the functions that
the tree calls (`Expr.inStep`, `Block.inStep`).  That is shown for one form of tree after the other.
-/

namespace SlotCode

open Lower List

section

variable (r : Renumbering) (names : List String)

/-- The expression is lowered in the same way in all sessions that are twins. -/
def Expr.Alike (e : Expr) : Prop :=
  ∀ ⦃s s' : Session⦄, s.Twins r names s' →
    InStep r names s (SameResult r) (lowerExpr e s) (lowerExpr e s')

def Block.Alike (b : Block) : Prop :=
  ∀ ⦃s s' : Session⦄, s.Twins r names s' →
    InStep r names s (SameResult r) (lowerBlock b s) (lowerBlock b s')

def Stmt.Alike (stmt : Stmt) : Prop :=
  ∀ ⦃s s' : Session⦄ ⦃v v' : Value⦄, s.Twins r names s' → SameValue r s v v' →
    InStep r names s (SameResult r) (lowerStmt v stmt s) (lowerStmt v' stmt s')

end

variable {r : Renumbering} {names : List String} {s s' : Session} {es : List Expr} {yes : Expr}
  {no : Option Expr}

/-! ## Lists of trees -/

theorem lowerItems_inStep (hes : ∀ e ∈ es, e.Alike r names) (h : s.Twins r names s') :
    InStep r names s (fun t a a' => SameCode r a.1 a'.1 ∧ SameValues r t a.2 a'.2)
      (lowerItems es s) (lowerItems es s') := by
  induction es generalizing s s' with
  | nil => exact h.pure ⟨.nil, .nil⟩
  | cons e es ih =>
    obtain ⟨he, hes⟩ := forall_mem_cons.1 hes
    rw [lowerItems]
    refine (he h).bind fun a a' t t' _ ht ha => ?_
    refine (ih hes ht).bind fun b b' u u' hgrows hu hb => ?_
    exact hu.pure ⟨ha.1.append hb.1, .cons (ha.2.grows hgrows) hb.2⟩

theorem lowerOperands_inStep {type : TypeId} (htype : type < 4) (hes : ∀ e ∈ es, e.Alike r names)
    (span : Span) (h : s.Twins r names s') :
    InStep r names s (fun _ a a' => SameCode r a.1 a'.1 ∧ SameOperands r a.2 a'.2)
      (lowerOperands type span es s) (lowerOperands type span es s') := by
  induction es generalizing s s' with
  | nil => exact h.pure ⟨.nil, .nil⟩
  | cons e es ih =>
    obtain ⟨he, hes⟩ := forall_mem_cons.1 hes
    rw [lowerOperands]
    refine (he h).bind fun a a' t t' _ ht ha => ?_
    obtain ⟨hcode, hv⟩ := ha
    have hexpect := expectType_inStep ht (ht.regular.unit htype) hv span
    rw [ht.types.unit htype] at hexpect
    refine hexpect.bind fun _ _ u u' _ hu _ => ?_
    refine (scalarOf_inStep hu hv).bind fun o o' w w' _ hw ho => ?_
    refine (ih hes hw).bind fun b b' x x' _ hx hb => ?_
    exact hx.pure ⟨hcode.append hb.1, .cons ho hb.2⟩

theorem lowerGroup_inStep (hes : ∀ e ∈ es, e.Alike r names) (span : Span) (h : s.Twins r names s') :
    InStep r names s (fun _ a a' => SameCode r a.1 a'.1 ∧ a'.2 = a.2) (lowerGroup span es s)
      (lowerGroup span es s') := by
  induction es generalizing s s' with
  | nil => exact h.pure ⟨.nil, rfl⟩
  | cons e es ih =>
    obtain ⟨he, hes⟩ := forall_mem_cons.1 hes
    rw [lowerGroup]
    refine (he h).bind fun a a' t t' _ ht ha => ?_
    obtain ⟨hcode, hv⟩ := ha
    have hinteger : TypeId.integer < 4 := by decide
    have hexpect := expectType_inStep ht (ht.regular.unit hinteger) hv span
    rw [ht.types.unit hinteger] at hexpect
    refine hexpect.bind fun _ _ u u' hgrows hu _ => ?_
    refine (holdInteger_inStep hu (hv.grows hgrows) e.span).bind fun b b' w w' _ hw hb => ?_
    obtain ⟨holding, hid⟩ := hb
    refine (ih hes hw).bind fun c c' x x' _ hx hc => ?_
    obtain ⟨hcodes, hids⟩ := hc
    refine hx.pure ⟨(hcode.append holding).append hcodes, ?_⟩
    rw [hid, hids]

theorem lowerLinks_inStep {links : List Link}
    (hlinks : ∀ group, .operands group ∈ links → ∀ e ∈ group, e.Alike r names) (span : Span)
    (left : List VarId) (before : List Comparison) (h : s.Twins r names s') :
    InStep r names s (fun _ a a' => SameCode r a.1 a'.1 ∧ a'.2 = a.2)
      (lowerLinks span left before links s) (lowerLinks span left before links s') := by
  induction links using Link.induction generalizing s s' left before with
  | nil =>
    rw [lowerLinks]
    split
    · exact failAt_inStep _ _
    · exact h.pure ⟨.nil, rfl⟩
  | operands | last | twice => exact failAt_inStep _ _
  | pair opSpan op group links ih =>
    rw [lowerLinks]
    refine (lowerGroup_inStep (hlinks group (by simp)) span h).bind fun a a' t t' _ ht ha => ?_
    obtain ⟨code, right⟩ := a
    obtain ⟨code', right'⟩ := a'
    obtain ⟨hcode, hright⟩ := ha
    obtain rfl : right' = right := hright
    refine (ih (fun g hg => hlinks g (by simp [hg])) right' _ ht).bind fun b b' u u' _ hu hb => ?_
    obtain ⟨hcodes, hcs⟩ := hb
    exact hu.pure ⟨hcode.append hcodes, hcs⟩

theorem lowerChain_inStep {chain : List Link}
    (hchain : ∀ group, .operands group ∈ chain → ∀ e ∈ group, e.Alike r names) (span : Span)
    (h : s.Twins r names s') :
    InStep r names s (fun _ a a' => SameCode r a.1 a'.1 ∧ a'.2 = a.2) (lowerChain span chain s)
      (lowerChain span chain s') := by
  cases chain with
  | nil => exact failAt_inStep _ _
  | cons link links =>
    cases link with
    | operator _ _ => exact failAt_inStep _ _
    | operands group =>
      rw [lowerChain]
      refine (lowerGroup_inStep (hchain group mem_cons_self) span h).bind fun a a' t t' _ ht ha => ?_
      obtain ⟨code, left⟩ := a
      obtain ⟨code', left'⟩ := a'
      obtain ⟨hcode, hleft⟩ := ha
      obtain rfl : left' = left := hleft
      refine (lowerLinks_inStep (fun g hg => hchain g (mem_cons_of_mem _ hg)) span left' [] ht).bind
        fun b b' u u' _ hu hb => ?_
      obtain ⟨hcodes, hcs⟩ := hb
      exact hu.pure ⟨hcode.append hcodes, hcs⟩

theorem lowerArgs_inStep (hes : ∀ e ∈ es, e.Alike r names) (targetSpan : Span)
    {params : List TypeId} (hparams : ∀ param ∈ params, s.types.IsValue param) {b : Bindings}
    (hb : BindsValues s.types b) (h : s.Twins r names s') :
    InStep r names s (fun t a a' => SameCode r a.1 a'.1 ∧ SameOperands r a.2.1 a'.2.1 ∧
        a'.2.2 = a.2.2.rename r.types ∧ BindsValues t.types a.2.2)
      (lowerArgs targetSpan b es params s)
      (lowerArgs targetSpan (b.rename r.types) es (params.map r.types) s') := by
  induction es generalizing params b s s' with
  | nil => exact h.pure ⟨.nil, .nil, rfl, hb⟩
  | cons e es ih =>
    obtain ⟨he, hes⟩ := forall_mem_cons.1 hes
    cases params with
    | nil => exact h.pure ⟨.nil, .nil, rfl, hb⟩
    | cons param params =>
      obtain ⟨hparam, hparams⟩ := forall_mem_cons.1 hparams
      rw [map_cons, lowerArgs, lowerArgs]
      refine (he h).bind fun a a' t t' hgrows ht ha => ?_
      obtain ⟨hcode, hv⟩ := ha
      have hparam := hparam.extend hgrows.types
      obtain ⟨kind, hk, hvalue⟩ := hparam
      obtain ⟨node, hn, rfl⟩ := TypeGraph.kind_eq_ok_iff.1 hk
      have horigin : t.types.origin param = .ok node.origin := by rw [TypeGraph.origin, hn]; rfl
      have horigin' : t'.types.origin (r.types param) = .ok node.origin := by
        rw [TypeGraph.origin, ht.types.node_value (Nat.zero_le _) hn hvalue]
        rfl
      simp only
      rw [askTypes_bind horigin, askTypes_bind horigin']
      refine (bindArgument_inStep ht ⟨_, hk, hvalue⟩ hv (hb.mono hgrows.types) _).bind
        fun c c' u u' hgrows' hu hc => ?_
      obtain ⟨rfl, hc⟩ := hc
      refine (ih hes (fun param hmem =>
        (hparams param hmem).extend (hgrows.trans hgrows').types) hc hu).bind
        fun d d' w w' _ hw hd => ?_
      obtain ⟨hcodes, hinputs, hbindings, hvalues⟩ := hd
      exact hw.pure ⟨hcode.append hcodes, hv.operands.append hinputs, hbindings, hvalues⟩

theorem lowerElse_inStep (hno : ∀ e ∈ no, e.Alike r names) (h : s.Twins r names s') :
    InStep r names s (SameBranch r) (lowerElse no s) (lowerElse no s') := by
  cases no with
  | none => exact h.pure trivial
  | some e =>
    rw [lowerElse]
    refine (hno e rfl h).bind fun a a' t t' _ ht ha => ?_
    exact ht.pure ha

theorem lowerStmts_inStep {stmts : List Stmt} (hstmts : ∀ stmt ∈ stmts, stmt.Alike r names)
    {v v' : Value} (hv : SameValue r s v v') (h : s.Twins r names s') :
    InStep r names s (SameResult r) (lowerStmts v stmts s) (lowerStmts v' stmts s') := by
  induction stmts generalizing v v' s s' with
  | nil => exact h.pure ⟨.nil, hv⟩
  | cons stmt stmts ih =>
    obtain ⟨hstmt, hstmts⟩ := forall_mem_cons.1 hstmts
    rw [lowerStmts, lowerStmts]
    refine (hstmt h hv).bind fun a a' t t' _ ht ha => ?_
    refine (ih hstmts ha.2 ht).bind fun b b' u u' _ hu hb => ?_
    exact hu.pure ⟨ha.1.append hb.1, hb.2⟩

/-- A value is stored into the target of a statement. -/
theorem bindTarget_inStep {mode : BindMode} {target : Expr} {v v' kept kept' : Value}
    {code code' : Code} (hcode : SameCode r code code') (hv : SameValue r s v v')
    (hkept : SameValue r s kept kept') (span : Span) (h : s.Twins r names s') :
    InStep r names s (SameResult r)
      ((do
        let (pattern, _) ← bindPattern mode target
        let stores ← storeInto pattern v span
        return (code ++ stores, kept) : Lower (Code × Value)) s)
      ((do
        let (pattern, _) ← bindPattern mode target
        let stores ← storeInto pattern v' span
        return (code' ++ stores, kept') : Lower (Code × Value)) s') := by
  refine (bindPattern_inStep h mode target).bind fun a a' t t' hgrows ht ha => ?_
  obtain ⟨⟨hpattern, hids⟩, -⟩ := ha
  simp only [hpattern]
  refine (storeInto_inStep ht hids (hv.grows hgrows) span).bind fun c c' u u' hgrows' hu hc => ?_
  exact hu.pure ⟨hcode.append hc, hkept.grows (hgrows.trans hgrows')⟩

/-! ## Forms of trees -/

theorem Expr.Alike.var (span : Span) (name : String) : (Expr.var span name).Alike r names := by
  intro s s' h
  rw [lowerExpr]
  have hlookup : InStep r names s SameVar (search (·.lookup name span) s)
      (search (·.lookup name span) s') := by
    refine search_inStep h (q := fun id => id) (fun fs hfs => ?_) fun id hid => ⟨rfl, ?_⟩
    · rw [hfs]
      refine (s.scope.lookup_renumber r fs name span).trans ?_
      cases s.scope.lookup name span <;> rfl
    · exact h.firm.lookup hid
  refine hlookup.bind fun id id' t t' _ ht hid => ?_
  obtain ⟨rfl, hid⟩ := hid
  refine (valueOf_inStep ht hid span).bind fun v v' u u' _ hu hv => ?_
  exact hu.pure ⟨.nil, hv⟩

theorem ArithOp.type_lt (op : ArithOp) : op.type < 4 := by
  cases op <;> decide

/-- An operand of a unit type is the same value. -/
theorem sameValue_unit (h : s.Twins r names s') {type : TypeId} (htype : type < 4) (span : Span)
    {operand operand' : Operand} (hoperand : SameOperand r operand operand') :
    SameValue r s (.scalar type span operand) (.scalar type span operand') := by
  refine ⟨?_, h.regular.unit htype, hoperand.units.append .nil⟩
  rw [hoperand.eq, Value.scalar, Value.scalar, Value.rename, h.types.unit htype]
  rfl

/-- An operator on the same operands. -/
theorem sameOperand_arith (h : s.Twins r names s') (op : ArithOp) {os os' : List Operand}
    (hos : SameOperands r os os') :
    SameOperand r (.arith op op.type os) (.arith op op.type os') where
  eq := by rw [hos.eq, Operand.rename, h.types.unit op.type_lt, Operand.renameAll_eq_map]
  units := forall_mem_cons.2 ⟨op.type_lt, hos.units⟩

theorem Expr.Alike.tuple (span : Span) {items : List Expr} (hitems : ∀ e ∈ items, e.Alike r names) :
    (Expr.tuple span items).Alike r names := by
  intro s s' h
  rw [lowerExpr]
  refine (lowerItems_inStep hitems h).bind fun a a' t t' _ ht ha => ?_
  refine (tupleOf_inStep ht ha.2 span).bind fun v v' u u' _ hu hv => ?_
  exact hu.pure ⟨ha.1, hv⟩

theorem Expr.Alike.arith (span : Span) (op : ArithOp) {operands : List Expr}
    (hoperands : ∀ e ∈ operands, e.Alike r names) : (Expr.arith span op operands).Alike r names := by
  intro s s' h
  rw [lowerExpr]
  refine (lowerOperands_inStep op.type_lt hoperands span h).bind fun a a' t t' _ ht ha => ?_
  exact ht.pure ⟨ha.1, sameValue_unit ht op.type_lt span (sameOperand_arith ht op ha.2)⟩

theorem Expr.Alike.compare (span : Span) {chain : List Link}
    (hchain : ∀ group, .operands group ∈ chain → ∀ e ∈ group, e.Alike r names) :
    (Expr.compare span chain).Alike r names := by
  intro s s' h
  rw [lowerExpr]
  refine (lowerChain_inStep hchain span h).bind fun a a' t t' _ ht ha => ?_
  obtain ⟨code, cs⟩ := a
  obtain ⟨code', cs'⟩ := a'
  obtain ⟨hcode, hcs⟩ := ha
  obtain rfl : cs' = cs := hcs
  refine (runComparisons_inStep ht cs').bind fun b b' u u' _ hu hb => ?_
  exact hu.pure ⟨hcode.append hb.1, sameValue_unit hu (by decide) span (sameOperand_arith hu .and hb.2)⟩

theorem Expr.Alike.call (span targetSpan : Span) {name : String} (hname : name ∈ names)
    {args : List Expr} (hargs : ∀ e ∈ args, e.Alike r names) :
    (Expr.call span (.var targetSpan name) args).Alike r names := by
  intro s s' h
  rw [lowerExpr]
  refine (callee_inStep h hname targetSpan).bind fun c c' t t' _ ht hc => ?_
  refine (checkArity_inStep ht name hc args span).bind fun _ _ u u' hgrows hu _ => ?_
  obtain ⟨rfl, hparams, hresult⟩ := hc
  refine (lowerArgs_inStep hargs targetSpan (fun p hp => (hparams p hp).extend hgrows.types)
    BindsValues.nil hu).bind fun a a' w w' hgrows' hw ha => ?_
  obtain ⟨code, inputs, bindings⟩ := a
  obtain ⟨code', inputs', bindings'⟩ := a'
  obtain ⟨hcode, hinputs, hbindings, hvalues⟩ := ha
  obtain rfl : bindings' = bindings.rename r.types := hbindings
  refine (callResult_inStep hw (hresult.extend (hgrows.trans hgrows').types) hvalues span).bind
    fun b b' x x' _ hx hb => ?_
  obtain ⟨outputs, v⟩ := b
  obtain ⟨outputs', v'⟩ := b'
  obtain ⟨houtputs, hv⟩ := hb
  obtain rfl : outputs' = outputs := houtputs
  refine (callCommand_inStep hx name c.native hinputs outputs' targetSpan span).bind
    fun command command' y y' hgrows'' hy hcommand => ?_
  exact hy.pure ⟨hcode.append hcommand, hv.grows hgrows''⟩

theorem Expr.Alike.block (span : Span) {body : Block} (hbody : body.Alike r names) :
    (Expr.block span body).Alike r names := by
  intro s s' h
  rw [lowerExpr]
  refine (hbody h).bind fun a a' t t' _ ht ha => ?_
  refine (keepValue_inStep ht ha.2 body.span).bind fun b b' u u' _ hu hb => ?_
  exact hu.pure ⟨ha.1.append hb.1, hb.2⟩

theorem Expr.Alike.cond (span : Span) {test : Expr} (htest : test.Alike r names)
    (hyes : yes.Alike r names) (hno : ∀ e ∈ no, e.Alike r names) :
    (Expr.cond span test yes no).Alike r names := by
  intro s s' h
  have hboolean : TypeId.boolean < 4 := by decide
  rw [lowerExpr]
  refine (htest h).bind fun a a' t t' _ ht ha => ?_
  have hexpect := expectType_inStep ht (ht.regular.unit hboolean) ha.2 test.span
  rw [ht.types.unit hboolean] at hexpect
  refine hexpect.bind fun _ _ u u' _ hu _ => ?_
  refine (scalarOf_inStep hu ha.2).bind fun o o' w w' _ hw ho => ?_
  refine (hyes hw).bind fun b b' x x' _ hx hb => ?_
  refine (lowerElse_inStep hno hx).bind fun c c' y y' hgrows hy hc => ?_
  refine (joinBranches_inStep hy (hb.grows hgrows) hc span).bind fun d d' z z' _ hz hd => ?_
  obtain ⟨hyesCode, hnoCode, hv⟩ := hd
  exact hz.pure ⟨ha.1.append (.branch ho hyesCode hnoCode span), hv⟩

/-- The branch for a full box, in a context of its own. -/
def lowerFull (operand : Operand) (payload : TypeId) (boxSpan : Span) (pattern yes : Expr) :
    Lower (Code × Value) := inContext do
  let (pattern, _) ← bindPattern (.declare []) pattern
  let slots ← expand boxSpan pattern payload
  let (code, value) ← lowerExpr yes
  return (.native pattern.span .unwrap [operand] slots :: code, value)

theorem lowerFull_inStep {operand operand' : Operand} (hoperand : SameOperand r operand operand')
    {payload : TypeId} (boxSpan : Span) (pattern : Expr) (hyes : yes.Alike r names)
    (h : s.Twins r names s') (hpayload : s.types.IsValue payload) :
    InStep r names s (SameResult r) (lowerFull operand payload boxSpan pattern yes s)
      (lowerFull operand' (r.types payload) boxSpan pattern yes s') := by
  refine inContext_inStep h (fun _ _ _ _ hgrows ha => SameResult.grows ha hgrows)
    fun t t' hgrows ht => ?_
  refine (bindPattern_inStep ht (.declare []) pattern).bind fun a a' u u' hgrows' hu ha => ?_
  obtain ⟨p, mode⟩ := a
  obtain ⟨p', mode'⟩ := a'
  obtain ⟨⟨hp, hids⟩, -⟩ := ha
  obtain rfl : p' = p := hp
  refine (expand_inStep hu boxSpan p' hids
    (hpayload.extend (hgrows.trans hgrows').types)).bind fun slots slots' w w' _ hw hslots => ?_
  obtain rfl : slots' = slots := hslots
  refine (hyes hw).bind fun b b' x x' _ hx hb => ?_
  exact hx.pure ⟨SameCode.append (.native (.cons hoperand .nil) _ .unwrap slots') hb.1, hb.2⟩

theorem Expr.Alike.ifFull (span : Span) {boxed : Expr} (pattern : Expr)
    (hboxed : boxed.Alike r names) (hyes : yes.Alike r names) (hno : ∀ e ∈ no, e.Alike r names) :
    (Expr.ifFull span boxed pattern yes no).Alike r names := by
  intro s s' h
  have hboolean : TypeId.boolean < 4 := by decide
  rw [lowerExpr]
  refine (hboxed h).bind fun a a' t t' _ ht ha => ?_
  obtain ⟨boxCode, box⟩ := a
  obtain ⟨boxCode', box'⟩ := a'
  obtain ⟨hboxCode, hbox⟩ := ha
  obtain rfl : box' = box.rename r.types := hbox.eq
  refine (openBox_inStep ht hbox).bind fun b b' u u' _ hu hb => ?_
  obtain ⟨payload, operand⟩ := b
  obtain ⟨payload', operand'⟩ := b'
  obtain ⟨⟨hpayload, hvalue⟩, hoperand⟩ := hb
  obtain rfl : payload' = r.types payload := hpayload
  have hnew := newTyped_inStep hu (hu.regular.unit hboolean) span
  rw [hu.types.unit hboolean] at hnew
  refine hnew.bind fun full full' w w' hgrows hw hfull => ?_
  obtain ⟨rfl, -⟩ := hfull
  refine (lowerFull_inStep hoperand box.span pattern hyes hw
    (hvalue.extend hgrows.types)).bind fun c c' x x' _ hx hc => ?_
  refine (lowerElse_inStep hno hx).bind fun d d' y y' hgrows' hy hd => ?_
  refine (joinBranches_inStep hy (hc.grows hgrows') hd span).bind fun e e' z z' _ hz he => ?_
  obtain ⟨hyesCode, hnoCode, hv⟩ := he
  exact hz.pure ⟨hboxCode.append (SameCode.append (.native (.cons hoperand .nil) span .full [full'])
    (.branch (.var full') hyesCode hnoCode span)), hv⟩

theorem Expr.Alike.loop (span : Span) (label : Option String) {body : Block}
    (hbody : body.Alike r names) : (Expr.loop span label body).Alike r names := by
  intro s s' h
  rw [lowerExpr]
  have hloop : InStep r names s (fun t a a' => SameLoop r t a.1 a'.1 ∧ SameCode r a.2 a'.2)
      (inContext (do
        let ref ← updateScope (·.newLoop label span)
        let (code, _) ← lowerBlock body
        return (ref, code)) s)
      (inContext (do
        let ref ← updateScope (·.newLoop label span)
        let (code, _) ← lowerBlock body
        return (ref, code)) s') := by
    refine inContext_inStep h (fun _ _ _ _ hgrows ha => ⟨ha.1.grows hgrows, ha.2⟩) fun t t' _ ht => ?_
    refine (newLoop_inStep ht label span).bind fun ref ref' u u' _ hu href => ?_
    refine (hbody hu).bind fun a a' w w' hgrows hw ha => ?_
    exact hw.pure ⟨href.grows hgrows, ha.1⟩
  refine hloop.bind fun a a' t t' _ ht ha => ?_
  obtain ⟨ref, code⟩ := a
  obtain ⟨ref', code'⟩ := a'
  obtain ⟨⟨href, hvar⟩, hcode⟩ := ha
  obtain rfl : ref' = ref.renumber r := href
  obtain ⟨rfl, hunits⟩ : SameCode r code code' := hcode
  refine (loopValue_inStep ht hvar span).bind fun v v' u u' _ hu hv => ?_
  exact hu.pure ⟨.cons rfl hunits .nil, hv⟩

theorem Expr.Alike.leave (span : Span) (label : Option String) {value : Option Expr}
    (hvalue : ∀ e ∈ value, e.Alike r names) : (Expr.leave span label value).Alike r names := by
  intro s s' h
  cases value with
  | none =>
    rw [lowerExpr]
    exact leaveWith_inStep h label (sameValue_void h span) span
  | some value =>
    rw [lowerExpr]
    refine (hvalue value rfl h).bind fun a a' t t' _ ht ha => ?_
    refine (leaveWith_inStep ht label ha.2 span).bind fun b b' u u' _ hu hb => ?_
    exact hu.pure ⟨ha.1.append hb.1, hb.2⟩

theorem Expr.Alike.wrap (span : Span) {payload : Expr} (hpayload : payload.Alike r names) :
    (Expr.wrap span payload).Alike r names := by
  intro s s' h
  rw [lowerExpr]
  refine (hpayload h).bind fun a a' t t' _ ht ha => ?_
  refine (wrapValue_inStep ht ha.2 payload.span span).bind fun b b' u u' _ hu hb => ?_
  exact hu.pure ⟨ha.1.append hb.1, hb.2⟩

theorem Expr.Alike.cons (span : Span) {head tail : Expr} (hhead : head.Alike r names)
    (htail : tail.Alike r names) : (Expr.cons span head tail).Alike r names := by
  intro s s' h
  rw [lowerExpr]
  refine (hhead h).bind fun a a' t t' _ ht ha => ?_
  refine (htail ht).bind fun b b' u u' hgrows hu hb => ?_
  refine (consValue_inStep hu (ha.2.grows hgrows) hb.2 span).bind fun c c' w w' _ hw hc => ?_
  exact hw.pure ⟨(ha.1.append hb.1).append hc.1, hc.2⟩

theorem Block.Alike.mk (span : Span) {stmts : List Stmt} (hstmts : ∀ stmt ∈ stmts, stmt.Alike r names) :
    (Block.mk span stmts).Alike r names := by
  intro s s' h
  rw [lowerBlock]
  exact inContext_inStep h (fun _ _ _ _ hgrows ha => SameResult.grows ha hgrows)
    fun t t' _ ht => lowerStmts_inStep hstmts (sameValue_void ht span) ht

/-! ## All trees -/

theorem alike : Hereditary (fun e => e.callees ⊆ names → e.Alike r names)
    (fun b => b.callees ⊆ names → b.Alike r names)
    (fun stmt => stmt.callees ⊆ names → stmt.Alike r names) where
  var span name _ := .var span name
  int span value _ := fun s s' h => h.pure ⟨.nil, sameValue_unit h (by decide) span ⟨rfl, .nil⟩⟩
  bool span value _ := fun s s' h => h.pure ⟨.nil, sameValue_unit h (by decide) span ⟨rfl, .nil⟩⟩
  str span value _ := fun s s' h => h.pure ⟨.nil, sameValue_unit h (by decide) span ⟨rfl, .nil⟩⟩
  tuple span items hitems hnames :=
    .tuple span fun e he => hitems e he (Subset.trans (Expr.callees_subset_all he) hnames)
  arith span op operands hoperands hnames :=
    .arith span op fun e he => hoperands e he (Subset.trans (Expr.callees_subset_all he) hnames)
  compare span chain hchain hnames :=
    .compare span fun g hg e he => hchain g hg e he (Subset.trans (Link.callees_subset_all hg he) hnames)
  not span operand _ _ := fun s s' h => failAt_inStep _ _
  call span target args hargs hnames := by
    cases target with
    | var targetSpan name =>
      rw [Expr.callees, cons_subset] at hnames
      exact .call span targetSpan hnames.1 fun e he =>
        hargs e he (Subset.trans (Expr.callees_subset_all he) hnames.2)
    | _ => exact fun s s' h => failAt_inStep _ _
  block span body hbody hnames := .block span (hbody hnames)
  cond span test yes no htest hyes hno hnames := by
    rw [Expr.callees, append_subset, append_subset] at hnames
    refine .cond span (htest hnames.1.1) (hyes hnames.1.2) fun e he => hno e he ?_
    cases he
    exact hnames.2
  ifFull span boxed pattern yes no hboxed hyes hno hnames := by
    rw [Expr.callees, append_subset, append_subset] at hnames
    refine .ifFull span pattern (hboxed hnames.1.1) (hyes hnames.1.2) fun e he => hno e he ?_
    cases he
    exact hnames.2
  loop span label body hbody hnames := .loop span label (hbody hnames)
  leave span label value hvalue hnames := by
    refine .leave span label fun e he => hvalue e he ?_
    cases he
    exact hnames
  wrap span payload hpayload hnames := .wrap span (hpayload hnames)
  wrapEmpty span payload _ _ := fun s s' h => wrapNothing_inStep h payload span
  cons span head tail hhead htail hnames := by
    rw [Expr.callees, append_subset] at hnames
    exact .cons span (hhead hnames.1) (htail hnames.2)
  consEmpty span item _ _ := fun s s' h => consNothing_inStep h item span
  body span stmts hstmts hnames :=
    .mk span fun stmt hst => hstmts stmt hst (Subset.trans (Stmt.callees_subset_all hst) hnames)
  bind span target value hvalue hnames s s' v v' h hv := by
    rw [lowerStmt, lowerStmt]
    refine (hvalue hnames h).bind fun a a' t t' hgrows ht ha => ?_
    exact bindTarget_inStep ha.1 ha.2 (hv.grows hgrows) span ht
  set span target value hvalue hnames s s' v v' h hv := by
    rw [lowerStmt, lowerStmt]
    refine (hvalue hnames h).bind fun a a' t t' hgrows ht ha => ?_
    exact bindTarget_inStep ha.1 ha.2 (hv.grows hgrows) span ht
  yield span value hvalue hnames := fun s s' v v' h _ => hvalue hnames h
  ret span value _ _ := fun s s' v v' h _ => failAt_inStep _ _
  eval span value hvalue hnames s s' v v' h hv := by
    rw [lowerStmt, lowerStmt]
    refine (hvalue hnames h).bind fun a a' t t' hgrows ht ha => ?_
    exact ht.pure ⟨ha.1, hv.grows hgrows⟩

/-- A block is lowered in the same way in twin sessions that know the functions it calls. -/
theorem Block.inStep {b : Block} (hnames : b.callees ⊆ names) (h : s.Twins r names s') :
    InStep r names s (SameResult r) (lowerBlock b s) (lowerBlock b s') :=
  alike.forall_block b hnames h

end SlotCode
