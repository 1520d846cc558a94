import SlotCode.Proofs.Lowering.Edits
import SlotCode.Proofs.Lowering.Results
import SlotCode.Proofs.Source.Induction

/-!
# What lowering does to a session

Lowering a tree edits the scope, declares names and loops, and opens contexts that it closes again
(`Scope.Trace`), whether or not it succeeds.  Only variables that have names or that belong to open loops
are edited, besides those that were just made.  Names and loops are new only in contexts that `bind` them:
an expression has none for the context it stands in.  What each of these keeps is kept by lowering any
tree.
-/

namespace SlotCode

open List

variable {name : String} {span : Span} {id : VarId} {mode : BindMode} {s : Session} {es : List Expr}

/-- The variables that names and loops of the context stand for. -/
def Context.known (c : Context) : List VarId :=
  c.names.map Prod.snd ++ c.loops.map fun l => l.2.var

namespace Scope

/-- A name or an open loop stands for the variable. -/
def InScope (s : Scope) (id : VarId) : Prop :=
  ∃ c ∈ s.contexts, id ∈ c.known

/-- Declares a name in the current context. -/
def declare (s : Scope) (name : String) (span : Span) : Scope :=
  let (id, s) := s.newVar (some name) span s.current.id
  { s with current := { s.current with names := (name, id) :: s.current.names } }

/-- What is done to a scope.  Names and loops of the current context are new only if it `binds`. -/
inductive Trace : Bool → Scope → Scope → Prop where
  | refl (binds : Bool) (s : Scope) : Trace binds s s
  | edit {binds : Bool} {s s₁ s' : Scope} (h : Edits s.InScope s s₁) (rest : Trace binds s₁ s') :
      Trace binds s s'
  | declare {s s' : Scope} (name : String) (span : Span) (rest : Trace true (s.declare name span) s') :
      Trace true s s'
  | loop {s s' : Scope} (label : Option String) (span : Span)
      (rest : Trace true (s.newLoop label span).2 s') : Trace true s s'
  | context {binds : Bool} {s s₁ s' : Scope} (h : Trace true s.push s₁) (rest : Trace binds s₁.pop s') :
      Trace binds s s'

namespace Trace

variable {binds : Bool} {s s₁ s' : Scope}

theorem trans (h : Trace binds s s₁) (h' : Trace binds s₁ s') : Trace binds s s' := by
  induction h with
  | refl => exact h'
  | edit h _ ih => exact .edit h (ih h')
  | declare name span _ ih => exact .declare name span (ih h')
  | loop label span _ ih => exact .loop label span (ih h')
  | context h _ _ ih => exact .context h (ih h')

theorem weaken (h : Trace binds s s') : Trace true s s' := by
  induction h with
  | refl => exact .refl _ _
  | edit h _ ih => exact .edit h ih
  | declare name span _ ih => exact .declare name span ih
  | loop label span _ ih => exact .loop label span ih
  | context h _ _ ih => exact .context h ih

end Trace

/-! ## Targets -/

theorem inScope_declare_self (s : Scope) (name : String) (span : Span) :
    (s.declare name span).InScope s.vars.size := by
  refine ⟨_, mem_cons_self, ?_⟩
  simp [declare, newVar, Context.known]

theorem InScope.declare {s : Scope} (h : s.InScope id) (name : String) (span : Span) :
    (s.declare name span).InScope id := by
  obtain ⟨c, hc, hid⟩ := h
  have hcurrent : (s.declare name span).contexts = { s.current with
      owned := s.vars.size :: s.current.owned
      names := (name, s.vars.size) :: s.current.names } :: s.outer := by
    simp [Scope.declare, newVar, contexts]
  rw [InScope, hcurrent]
  rcases mem_cons.1 hc with rfl | hc
  · refine ⟨_, mem_cons_self, ?_⟩
    exact mem_cons_of_mem _ hid
  · exact ⟨c, mem_cons_of_mem _ hc, hid⟩

end Scope

open Scope Lower

theorem inScope_of_name (h : (name, id) ∈ s.outline.names) : s.scope.InScope id := by
  obtain ⟨frame, hframe, hmem⟩ := mem_flatMap.1 h
  obtain ⟨c, hc, rfl⟩ := mem_map.1 hframe
  exact ⟨c, hc, mem_append_left _ (mem_map_of_mem hmem)⟩

theorem inScope_of_loop {label : Option String} {ref : LoopRef} (h : (label, ref) ∈ s.outline.loops) :
    s.scope.InScope ref.var := by
  obtain ⟨frame, hframe, hmem⟩ := mem_flatMap.1 h
  obtain ⟨c, hc, rfl⟩ := mem_map.1 hframe
  refine ⟨c, hc, mem_append_right _ ?_⟩
  exact mem_map_of_mem (f := fun l : Option String × LoopRef => l.2.var) hmem

/-- A name is bound to a variable in scope, and what was in scope remains so. -/
theorem bind_inScope {mode' : BindMode} {scope : Scope}
    (h : s.scope.bind name span mode = .ok (id, mode', scope)) :
    Trace true s.scope scope ∧ scope.InScope id ∧ ∀ x, s.scope.InScope x → scope.InScope x := by
  cases mode with
  | resolve =>
    rw [Scope.bind] at h
    cases hid : s.scope.lookup name span with
    | error e =>
      rw [hid] at h
      cases h
    | ok id =>
      rw [hid] at h
      cases h
      exact ⟨.refl _ _, inScope_of_name (Outline.mem_names_of_lookup (lookup_ok hid)), fun _ hx => hx⟩
  | declare bound =>
    rw [Scope.bind] at h
    split at h
    · cases h
    · cases h
      refine ⟨.declare name span (.refl _ _), ?_, fun x hx => hx.declare name span⟩
      change (s.scope.declare name span).InScope (s.scope.newVar (some name) span s.scope.current.id).1
      rw [newVar_fst]
      exact inScope_declare_self _ _ _

/-! ## Sessions -/

structure Session.Traces (T : TypeGraph → TypeGraph → Prop) (binds : Bool) (s t : Session) : Prop where
  types : T s.types t.types
  scope : s.scope.Trace binds t.scope

section

variable {T : TypeGraph → TypeGraph → Prop} {binds : Bool}

instance [Std.Refl T] : Std.Refl (Session.Traces T binds) where
  refl s := ⟨refl_of T s.types, .refl _ _⟩

instance [IsTrans TypeGraph T] : IsTrans Session (Session.Traces T binds) where
  trans _ _ _ h h' := ⟨trans_of T h.types h'.types, h.scope.trans h'.scope⟩

end

namespace Lower

/-- The step leaves such a trace, and the type graph changes as `T` says. -/
abbrev Tracing (E : Failure LoweringError → Prop) (T : TypeGraph → TypeGraph → Prop) (binds : Bool)
    {α : Type} (x : Lower α) : Prop :=
  EitherWay E (Session.Traces T binds) x

end Lower

section

variable {E : Failure LoweringError → Prop} {T : TypeGraph → TypeGraph → Prop} {binds : Bool} {α : Type}
  {x : Lower α}

theorem EitherWay.weaken (hx : Tracing E T false x) : Tracing E T true x :=
  fun s => (hx s).via (fun _ ht => ⟨ht.types, ht.scope.weaken⟩) rfl

theorem EitherWayAt.of_edits (hx : EitherWayAt E (Session.Edits T s.scope.InScope) s x) :
    EitherWayAt E (Session.Traces T binds) s x :=
  hx.via (fun _ ht => ⟨ht.types, .edit ht.scope (.refl _ _)⟩) rfl

theorem EitherWay.of_edits (hx : ∀ p, Editing E T p x) : Tracing E T binds x :=
  fun s => .of_edits (hx s.scope.InScope s)

/-- A step that succeeds, with nothing said of the types. -/
theorem EitherWay.anyTypes (hx : Tracing (fun _ => True) TypeGraph.Any binds x) {a : α} {s' : Session}
    (h : x s = .ok a s') : s.Traces TypeGraph.Any binds s' :=
  (hx s).ok h

/-- The context is closed again. -/
theorem EitherWay.inContext (hx : Tracing E T true x) : Tracing E T binds (inContext x) := by
  intro s
  have hs := hx s.enter
  have hwithin : ∀ {t : Session}, Session.Traces T true s.enter t → Session.Traces T binds s t.exit :=
    fun ht => ⟨ht.types, .context ht.scope (.refl _ _)⟩
  rw [EitherWayAt, Lower.inContext]
  rw [EitherWayAt] at hs
  cases hrun : x s.enter with
  | ok a t =>
    rw [hrun] at hs
    exact hwithin hs
  | error e t =>
    rw [hrun] at hs
    exact hs.imp_right hwithin

end

namespace Lower

variable {E : Failure LoweringError → Prop} {T : TypeGraph → TypeGraph → Prop} {binds : Bool} {α : Type}

section

variable [Std.Refl T]

theorem newLoop_traces (label : Option String) (span : Span) :
    Tracing E T true (updateScope (·.newLoop label span)) :=
  fun s => ⟨refl_of T s.types, .loop label span (.refl _ _)⟩

theorem bindName_traces (name : String) (span : Span) (mode : BindMode) :
    Tracing E T true (bindName name span mode) := by
  intro s
  rw [EitherWayAt, bindName]
  cases hbind : s.scope.bind name span mode with
  | error e => exact .inr (refl_of _ s)
  | ok bound => exact ⟨refl_of T s.types, (bind_inScope hbind).1⟩

variable [IsTrans TypeGraph T]

mutual

theorem bindPattern_traces (mode : BindMode) (target : Expr) :
    Tracing E T true (bindPattern mode target) := by
  cases target with
  | var span name => exact .bind (bindName_traces name span mode) fun _ => .pure _
  | tuple span items => exact .bind (bindPatterns_traces mode items) fun _ => .pure _
  | _ => exact .failAt _ _

theorem bindPatterns_traces (mode : BindMode) (targets : List Expr) :
    Tracing E T true (bindPatterns mode targets) := by
  cases targets with
  | nil => exact .pure _
  | cons target targets =>
    exact .bind (bindPattern_traces mode target) fun a =>
      .bind (bindPatterns_traces a.2 targets) fun _ => .pure _

end

end

theorem bindName_inScope {mode' : BindMode} {s' : Session}
    (h : bindName name span mode s = .ok (id, mode') s') :
    s'.scope.InScope id ∧ ∀ x, s.scope.InScope x → s'.scope.InScope x := by
  rw [bindName] at h
  cases hbind : s.scope.bind name span mode with
  | error e =>
    rw [hbind] at h
    cases h
  | ok bound =>
    rw [hbind] at h
    cases h
    exact (bind_inScope hbind).2

mutual

theorem bindPattern_inScope {mode mode' : BindMode} {pattern : Pattern} {s s' : Session} (target : Expr)
    (h : bindPattern mode target s = .ok (pattern, mode') s') :
    (∀ id ∈ pattern.vars, s'.scope.InScope id) ∧ ∀ x, s.scope.InScope x → s'.scope.InScope x := by
  cases target with
  | var span name =>
    obtain ⟨id, hname, rfl⟩ := bindPattern_var h
    obtain ⟨hid, hkept⟩ := bindName_inScope hname
    exact ⟨fun x hx => mem_vars_var hx ▸ hid, hkept⟩
  | tuple span targets =>
    obtain ⟨items, hitems, rfl⟩ := bindPattern_tuple h
    exact bindPatterns_inScope targets hitems
  | _ => exact absurd h unsupported_ne_ok

theorem bindPatterns_inScope {mode mode' : BindMode} {items : List Pattern} {s s' : Session}
    (targets : List Expr) (h : bindPatterns mode targets s = .ok (items, mode') s') :
    (∀ id ∈ Pattern.varsAll items, s'.scope.InScope id) ∧ ∀ x, s.scope.InScope x → s'.scope.InScope x := by
  cases targets with
  | nil =>
    cases h
    exact ⟨forall_mem_nil _, fun _ hx => hx⟩
  | cons target targets =>
    obtain ⟨item, _, s₁, rest, hitem, hitems, rfl⟩ := bindPatterns_cons h
    obtain ⟨hvars, hkept⟩ := bindPattern_inScope target hitem
    obtain ⟨hvars', hkept'⟩ := bindPatterns_inScope targets hitems
    refine ⟨?_, fun x hx => hkept' x (hkept x hx)⟩
    rw [Pattern.varsAll, forall_mem_append]
    exact ⟨fun id hid => hkept' id (hvars id hid), hvars'⟩

end

/-! ## Trees -/

section

variable [Std.Refl T] [IsTrans TypeGraph T]

theorem lowerItems_traces (hes : ∀ e ∈ es, Tracing E T false (lowerExpr e)) :
    Tracing E T false (lowerItems es) := by
  induction es with
  | nil => exact .pure _
  | cons e es ih =>
    obtain ⟨he, hes⟩ := forall_mem_cons.1 hes
    rw [lowerItems]
    exact .bind he fun _ => .bind (ih hes) fun _ => .pure _

theorem lowerOperands_traces (type : TypeId) (span : Span)
    (hes : ∀ e ∈ es, Tracing E T false (lowerExpr e)) : Tracing E T false (lowerOperands type span es) := by
  induction es with
  | nil => exact .pure _
  | cons e es ih =>
    obtain ⟨he, hes⟩ := forall_mem_cons.1 hes
    rw [lowerOperands]
    exact .bind he fun _ => .bind (.of_edits fun _ => requireMatch_edits _ _ _ _) fun _ =>
      .bind (.of_edits fun _ => scalarOf_edits _) fun _ => .bind (ih hes) fun _ => .pure _

theorem lowerGroup_traces (span : Span) (hes : ∀ e ∈ es, Tracing E T false (lowerExpr e)) :
    Tracing E T false (lowerGroup span es) := by
  induction es with
  | nil => exact .pure _
  | cons e es ih =>
    obtain ⟨he, hes⟩ := forall_mem_cons.1 hes
    rw [lowerGroup]
    exact .bind he fun _ => .bind (.of_edits fun _ => requireMatch_edits _ _ _ _) fun _ =>
      .bind (.of_edits fun _ => holdInteger_edits _ _) fun _ => .bind (ih hes) fun _ => .pure _

theorem lowerLinks_traces (span : Span) {links : List Link}
    (hlinks : ∀ group, .operands group ∈ links → ∀ e ∈ group, Tracing E T false (lowerExpr e))
    (left : List VarId) (before : List Comparison) :
    Tracing E T false (lowerLinks span left before links) := by
  induction links using Link.induction generalizing left before with
  | nil =>
    rw [lowerLinks]
    split
    · exact .failAt _ _
    · exact .pure _
  | operands | last | twice => exact .failAt _ _
  | pair opSpan op group links ih =>
    rw [lowerLinks]
    exact .bind (lowerGroup_traces span (hlinks group (by simp))) fun a =>
      .bind (ih (fun g hg => hlinks g (by simp [hg])) a.2 _) fun _ => .pure _

theorem lowerChain_traces (span : Span) {chain : List Link}
    (hchain : ∀ group, .operands group ∈ chain → ∀ e ∈ group, Tracing E T false (lowerExpr e)) :
    Tracing E T false (lowerChain span chain) := by
  cases chain with
  | nil => exact .failAt _ _
  | cons link links =>
    cases link with
    | operator _ _ => exact .failAt _ _
    | operands group =>
      rw [lowerChain]
      exact .bind (lowerGroup_traces span (hchain group mem_cons_self)) fun a =>
        .bind (lowerLinks_traces span (fun g hg => hchain g (mem_cons_of_mem _ hg)) a.2 []) fun _ =>
          .pure _

theorem lowerArgs_traces (targetSpan : Span) (hes : ∀ e ∈ es, Tracing E T false (lowerExpr e))
    (b : Bindings) (params : List TypeId) : Tracing E T false (lowerArgs targetSpan b es params) := by
  induction es generalizing b params with
  | nil => exact .pure _
  | cons e es ih =>
    obtain ⟨he, hes⟩ := forall_mem_cons.1 hes
    cases params with
    | nil => exact .pure _
    | cons param params =>
      rw [lowerArgs]
      exact .bind he fun _ => .bind (.askTypes _) fun _ =>
        .bind (.of_edits fun _ => bindArgument_edits _ _ _ _) fun b =>
          .bind (ih hes b params) fun _ => .pure _

theorem lowerElse_traces {no : Option Expr} (hno : ∀ e ∈ no, Tracing E T false (lowerExpr e)) :
    Tracing E T false (lowerElse no) := by
  cases no with
  | none => exact .pure _
  | some e =>
    rw [lowerElse]
    exact .bind (hno e rfl) fun _ => .pure _

theorem lowerStmts_traces {stmts : List Stmt}
    (hstmts : ∀ stmt ∈ stmts, ∀ v, Tracing E T true (lowerStmt v stmt)) (v : Value) :
    Tracing E T true (lowerStmts v stmts) := by
  induction stmts generalizing v with
  | nil => exact .pure _
  | cons stmt stmts ih =>
    obtain ⟨hstmt, hstmts⟩ := forall_mem_cons.1 hstmts
    rw [lowerStmts]
    exact .bind (hstmt v) fun a => .bind (ih hstmts a.2) fun _ => .pure _

theorem leaveWith_traces (label : Option String) (v : Value) (span : Span) :
    Tracing E T binds (leaveWith label v span) := by
  refine fun s => .of_edits (leaveWith_edits (fun ref href => ?_) v span)
  obtain ⟨l, hmem⟩ := mem_loops_of_target href
  exact inScope_of_loop hmem

/-- Something is done with a target that is bound first. -/
theorem bindPattern_then {rest : Pattern × BindMode → Lower α} (mode : BindMode) (target : Expr)
    (hrest : ∀ (a : Pattern × BindMode) (t : Session), (∀ id ∈ a.1.vars, t.scope.InScope id) →
      EitherWayAt E (Session.Traces T true) t (rest a)) :
    Tracing E T true (bindPattern mode target >>= rest) :=
  fun s => .bind (bindPattern_traces mode target s) fun a t h => hrest a t (bindPattern_inScope target h).1

end

/-- Every tree is lowered by such a trace, if the types written in it may be added to the graph. -/
theorem tracing [Std.Refl T] [IsTrans TypeGraph T] [TypeGraph.Upheld E T] :
    Hereditary (fun e => Tracing E T false (lowerExpr e)) (fun b => Tracing E T false (lowerBlock b))
      (fun stmt => ∀ v, Tracing E T true (lowerStmt v stmt)) (TypeGraph.Admits T) where
  var span name := by
    rw [lowerExpr]
    exact .bind (.search _) fun _ => .bind (.of_edits fun _ => valueOf_edits _ _) fun _ => .pure _
  int span value := .pure _
  bool span value := .pure _
  str span value := .pure _
  tuple span items hitems := by
    rw [lowerExpr]
    exact .bind (lowerItems_traces hitems) fun _ => .bind (.of_edits fun _ => tupleOf_edits _ _) fun _ =>
      .pure _
  arith span op operands hoperands := by
    rw [lowerExpr]
    exact .bind (lowerOperands_traces _ _ hoperands) fun _ => .pure _
  compare span chain hchain := by
    rw [lowerExpr]
    exact .bind (lowerChain_traces _ hchain) fun _ =>
      .bind (.of_edits fun _ => runComparisons_edits _) fun _ => .pure _
  not span operand _ := .failAt _ _
  call span target args hargs := by
    cases target with
    | var targetSpan name =>
      rw [lowerExpr]
      exact .bind (callee_eitherWay _ _) fun _ => .bind (.of_edits fun _ => checkArity_edits _ _ _ _) fun _ =>
        .bind (lowerArgs_traces _ hargs _ _) fun _ =>
          .bind (.of_edits fun _ => callResult_edits _ _ _) fun _ =>
            .bind (.of_edits fun _ => callCommand_edits _ _ _ _ _ _) fun _ => .pure _
    | _ => exact .failAt _ _
  block span body hbody := by
    rw [lowerExpr]
    exact .bind hbody fun _ => .bind (.of_edits fun _ => keepValue_edits _ _) fun _ => .pure _
  cond span test yes no htest hyes hno := by
    rw [lowerExpr]
    exact .bind htest fun _ => .bind (.of_edits fun _ => requireMatch_edits _ _ _ _) fun _ =>
      .bind (.of_edits fun _ => scalarOf_edits _) fun _ => .bind hyes fun _ =>
        .bind (lowerElse_traces hno) fun _ => .bind (.of_edits fun _ => joinBranches_edits _ _ _) fun _ =>
          .pure _
  ifFull span boxed pattern yes no hboxed hyes hno := by
    rw [lowerExpr]
    refine .bind hboxed fun _ => .bind (.of_edits fun _ => openBox_edits _) fun _ =>
      .bind (.of_edits fun _ => newTyped_edits _ _) fun _ =>
        .bind (.inContext (bindPattern_then _ _ fun a t hvars => ?_)) fun _ =>
          .bind (lowerElse_traces hno) fun _ => .bind (.of_edits fun _ => joinBranches_edits _ _ _) fun _ =>
            .pure _
    exact .bind (.of_edits (expand_edits _ _ hvars _ t)) fun _ t _ =>
      EitherWay.bind hyes.weaken (fun _ => .pure _) t
  loop span label body hbody := by
    rw [lowerExpr]
    exact .bind (.inContext (.bind (newLoop_traces _ _) fun _ => .bind hbody.weaken fun _ => .pure _))
      fun _ => .bind (.of_edits fun _ => loopValue_edits _ _) fun _ => .pure _
  leave span label value hvalue := by
    cases value with
    | none => exact leaveWith_traces _ _ _
    | some value =>
      rw [lowerExpr]
      exact .bind (hvalue value rfl) fun _ => .bind (leaveWith_traces _ _ _) fun _ => .pure _
  wrap span payload hpayload := by
    rw [lowerExpr]
    exact .bind hpayload fun _ => .bind (.of_edits fun _ => wrapValue_edits _ _ _) fun _ => .pure _
  wrapEmpty span payload h := .of_edits fun _ => wrapNothing_edits h _
  cons span head tail hhead htail := by
    rw [lowerExpr]
    exact .bind hhead fun _ => .bind htail fun _ => .bind (.of_edits fun _ => consValue_edits _ _ _) fun _ =>
      .pure _
  consEmpty span item h := .of_edits fun _ => consNothing_edits h _
  body span stmts hstmts := .inContext (lowerStmts_traces hstmts _)
  bind span target value hvalue v := by
    rw [lowerStmt]
    exact .bind hvalue.weaken fun _ => bindPattern_then _ _ fun _ t hvars =>
      .bind (.of_edits (storeInto_edits hvars _ _ t)) fun _ _ _ => EitherWay.pure _ _
  set span target value hvalue v := by
    rw [lowerStmt]
    exact .bind hvalue.weaken fun _ => bindPattern_then _ _ fun _ t hvars =>
      .bind (.of_edits (storeInto_edits hvars _ _ t)) fun _ _ _ => EitherWay.pure _ _
  yield span value hvalue v := hvalue.weaken
  ret span value _ v := .failAt _ _
  eval span value hvalue v := by
    rw [lowerStmt]
    exact .bind hvalue.weaken fun _ => .pure _

end Lower

end SlotCode
