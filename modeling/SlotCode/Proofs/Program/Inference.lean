import SlotCode.Proofs.Program.Sites
import SlotCode.Proofs.Types.Inverse

/-!
# What a call infers

The result of a call is the declared result with its placeholders filled in.  Once the arguments have been
lowered and match, nothing else can go wrong: the call is lowered, or a placeholder of the result is not
bound (`lowerCall_cases`).

A placeholder is bound exactly if it faces a box between some parameter and its argument
(`lowerArgs_infers`).  That it occurs in a parameter is not enough: where the argument has the placeholder
itself in that place, the two match and nothing is bound.
-/

namespace SlotCode

variable {g : TypeGraph} {params : List TypeId} {name : String} {v : Value}

open Outline Lower List

/-! ## Steps that succeed -/

namespace Lower

variable {s : Session}

/-- A variable that has no type takes any. -/
theorem expandVar_completes {id : VarId} {i : VarInfo} {type : TypeId} (hg : s.types.Sound)
    (htype : type < s.types.size) (hi : s.outline.info id = some i) (huntyped : i.type = none)
    (span : Span) : Completes (expandVar id type span) s := by
  obtain ⟨var, hvar, rfl⟩ := exists_var hi
  rw [expandVar_eq]
  refine .after (askScope_of_ok hvar) ?_
  rw [show var.type = none from huntyped]
  exact .after rfl (setType_receivers_completes hg htype (lt_of_info hi) var)

/-- An instance of the result can be stored. -/
theorem callResult_completes {result r : TypeId} {b : Bindings} {span : Span} (hg : s.outline.Good)
    (hresult : s.types.IsValue result) (hb : BindsValues s.types b)
    (hinst : TypeGraph.instantiate result b span s.types = .ok r g) :
    Completes (callResult result b span) s := by
  rw [callResult]
  split
  · exact .pure _
  obtain ⟨hgrown, -⟩ := TypeGraph.instantiate_spec hg.types hb hresult hinst
  have hgood : ({ s with types := g } : Session).outline.Good := hg.retype hgrown.regular hgrown.ext
  have hrun : instantiate result b span s = .ok r { s with types := g } := by
    simp only [instantiate, hinst]
  refine .after hrun (.bind ⟨_, _, rfl⟩ fun dest s₂ hdest => ?_)
  obtain ⟨rfl, hs₂⟩ := newTemp_ok hdest
  have hnew : ({ s with types := g } : Session).outline.Steps s₂.outline := hs₂ ▸ .pushFresh hgood
  have hvalue : s₂.types.IsValue r := (hgrown.values r mem_cons_self).extend hnew.grows.types
  have hfresh : s₂.outline.info s.outline.vars.length = some (.fresh none) := by
    rw [hs₂]
    exact info_push_new [.fresh none] 0
  refine .bind (expandVar_completes hnew.good.types.toSound hvalue.lt_size hfresh rfl span)
    fun outputs s₃ hexpand => ?_
  have hexpand : expand span (.var s.outline.vars.length span) r s₂ = .ok outputs s₃ := hexpand
  obtain ⟨-, hfills⟩ := expand_fills hnew.good hvalue hexpand
  obtain ⟨t, ht⟩ := hfills.typed _ mem_cons_self
  exact .bind (valueOf_completes ht span) fun _ _ _ => .pure _

end Lower

/-! ## Calls whose arguments are lowered -/

section

variable {span targetSpan : Span} {name : String} {args : List Expr} {c : Callee} {s s₁ s₂ s₃ : Session}
  {code : Code} {inputs : List Operand} {b : Bindings} (hcallee : callee name targetSpan s = .ok c s)
  (hargs : lowerArgs targetSpan [] args c.params s = .ok (code, inputs, b) s₁)
  (hlen : c.params.length = args.length)

include hcallee hargs hlen

theorem lowerCall_ok {outputs : List VarId} {command : Command}
    (hresult : callResult c.result b span s₁ = .ok (outputs, v) s₂)
    (hcommand : callCommand name c.native inputs outputs targetSpan span s₂ = .ok command s₃) :
    lowerExpr (.call span (.var targetSpan name) args) s = .ok (code ++ [command], v) s₃ := by
  simp only [lowerExpr, bind_eq_ok_iff, pure_eq_ok_iff, Prod.exists, Prod.mk.injEq]
  refine ⟨c, s, hcallee, (), s, ?_, code, inputs, b, s₁, hargs, outputs, v, s₂, hresult, command, s₃,
    hcommand, ⟨rfl, rfl⟩, rfl⟩
  rw [checkArity, if_pos hlen]
  rfl

theorem lowerCall_error {failure : Failure LoweringError}
    (hresult : callResult c.result b span s₁ = .error failure s₂) :
    lowerExpr (.call span (.var targetSpan name) args) s = .error failure s₂ := by
  have harity : checkArity name c args span s = .ok () s := by
    rw [checkArity, if_pos hlen]
    rfl
  simp only [lowerExpr, bind, EStateM.bind, hcallee, harity, hargs, hresult]

/-- The call is lowered, or a placeholder of its result is not bound. -/
theorem lowerCall_cases (hg : s.outline.Good) (span : Span) :
    (∃ r s', lowerExpr (.call span (.var targetSpan name) args) s = .ok r s') ∧
        (∀ n, s.types.Mentions c.result n → ∃ bound, b.get? n = some bound) ∨
      ∃ n s', lowerExpr (.call span (.var targetSpan name) args) s =
          .error (.error ⟨.unboundPlaceholder n, span⟩) s' ∧
        s.types.Mentions c.result n ∧ b.get? n = none := by
  obtain ⟨-, hparams, hvalue, hnative⟩ := callee_values hg hcallee
  obtain ⟨hsteps, -, -, hb⟩ := lowerArgs_emits (Expr.lowersAll args) hlen hg hparams .nil hargs
  have hext := hsteps.grows.types
  have hvalue₁ : s₁.types.IsValue c.result := hvalue.extend hext
  have hknotted : s₁.types.Knotted := hsteps.good.types.knotted
  have hmentions : ∀ n, s₁.types.Mentions c.result n → s.types.Mentions c.result n := by
    rintro n ⟨target, hr, hk⟩
    obtain ⟨hr, hlt⟩ := hext.reaches_of_lt hg.types.toSound hvalue.lt_size hr
    exact ⟨target, hr, hext.kind_of_lt hlt hk⟩
  rcases TypeGraph.instantiate_fills_or_fails hknotted b hvalue₁.lt_size span with
    ⟨r, g, hinst, hext', hfilled⟩ | ⟨n, g, hinst, hname, hunbound⟩
  · obtain ⟨⟨outputs, v⟩, s₂, hresult⟩ := callResult_completes hsteps.good hvalue₁ hb hinst
    obtain ⟨command, s₃, hcommand⟩ := callCommand_completes (s := s₂) hnative inputs outputs targetSpan span
    refine .inl ⟨⟨_, _, lowerCall_ok hcallee hargs hlen hresult hcommand⟩, fun n hn => ?_⟩
    exact hfilled.bound ((hn.extend hext).extend hext')
  · have hne : c.result ≠ .void := by
      intro hvoid
      obtain ⟨target, hr, hk⟩ := hname
      rw [hvoid] at hr
      rcases Relation.ReflTransGen.cases_head hr with rfl | ⟨part, ⟨kind, hk', hpart⟩, -⟩
      · cases TypeGraph.kind_unique hk hsteps.good.types.void
      · cases TypeGraph.kind_unique hk' hsteps.good.types.void
        cases hpart
    have hrun : instantiate c.result b span s₁ =
        .error (.error ⟨.unboundPlaceholder n, span⟩) { s₁ with types := g } := by
      simp only [instantiate, hinst]
      rfl
    have hresult : callResult c.result b span s₁ =
        .error (.error ⟨.unboundPlaceholder n, span⟩) { s₁ with types := g } := by
      rw [callResult, if_neg hne]
      simp only [bind, EStateM.bind, hrun]
    exact .inr ⟨n, _, lowerCall_error hcallee hargs hlen hresult, hmentions n hname, hunbound⟩

end

/-! ## What arguments bind -/

/-- The placeholder faces a box between some parameter and its argument. -/
def Fixes (g : TypeGraph) (params : List TypeId) (values : List Value) (name : String) : Prop :=
  ∃ p v bound, (p, v) ∈ params.zip values ∧ g.Infers p v.type name bound

theorem fixes_cons {p : TypeId} {values : List Value} : Fixes g (p :: params) (v :: values) name ↔
      (∃ bound, g.Infers p v.type name bound) ∨ Fixes g params values name := by
  constructor
  · rintro ⟨q, w, bound, hmem, hinfers⟩
    rcases mem_cons.1 hmem with heq | hmem
    · cases heq
      exact .inl ⟨bound, hinfers⟩
    · exact .inr ⟨q, w, bound, hmem, hinfers⟩
  · rintro (⟨bound, hinfers⟩ | ⟨q, w, bound, hmem, hinfers⟩)
    · exact ⟨p, v, bound, mem_cons_self, hinfers⟩
    · exact ⟨q, w, bound, mem_cons_of_mem _ hmem, hinfers⟩

/-- Arguments are lowered like the items of a tuple.  Each is accepted by its parameter, and together they
bind the placeholders that face a box. -/
theorem lowerArgs_infers {targetSpan : Span} {es : List Expr} {b b' : Bindings} {s s' : Session}
    {code : Code} {inputs : List Operand} (hlen : params.length = es.length) (hg : s.outline.Good)
    (hparams : ∀ p ∈ params, s.types.IsValue p)
    (h : lowerArgs targetSpan b es params s = .ok (code, inputs, b') s') :
    ∃ values, lowerItems es s = .ok (code, values) s' ∧
      Forall₂ (fun p v => s'.types.Alike true p v.type) params values ∧
      ∀ name, (∃ bound, b'.get? name = some bound) ↔
        (∃ bound, b.get? name = some bound) ∨ Fixes s'.types params values name := by
  induction es generalizing params s b code inputs with
  | nil =>
    obtain rfl := eq_nil_of_length_eq_zero hlen
    cases h
    refine ⟨[], rfl, .nil, fun name => ⟨.inl, ?_⟩⟩
    rintro (hbound | ⟨p, v, bound, hmem, -⟩)
    · exact hbound
    · cases hmem
  | cons e es ih =>
    cases params with
    | nil => cases hlen
    | cons param params =>
      obtain ⟨hparam, hrest⟩ := forall_mem_cons.1 hparams
      obtain ⟨c, v, s₁, sp, b₁, cs, ins, hhead, hbind, htail, rfl, rfl⟩ := lowerArgs_cons h
      obtain ⟨hsteps, -, hv⟩ := Expr.lowers e hg hhead
      have hext := hsteps.grows.types
      have hsound : s₁.types.Sound := hsteps.good.types.toSound
      have hparam₁ := (hparam.extend hext).lt_size
      have hext' : s₁.types.Extends s'.types :=
        (lowerArgs_steps (Nat.succ.inj hlen) hsteps.good htail).grows.types
      obtain ⟨values, hitems, halike, hbound⟩ := ih (Nat.succ.inj hlen) hsteps.good
        (fun p hp => (hrest p hp).extend hext) htail
      obtain ⟨-, after, hmatch, rfl⟩ := bindArgument_ok hbind
      have haccepts := TypeGraph.alike_of_matchTypes hsound hparam₁ hv.value.lt_size hmatch
      obtain ⟨b₂, rfl, hkeeps, hinfers, hbinds⟩ :=
        TypeGraph.matchTypes_infers hsound hparam₁ hv.value.lt_size hmatch
      have hmatched : ∀ name, (∃ bound, b₂.get? name = some bound) ↔
          (∃ bound, b.get? name = some bound) ∨ ∃ bound, s'.types.Infers param v.type name bound := by
        intro name
        simp only [TypeGraph.infers_extend_iff hsound hext' hparam₁ hv.value.lt_size]
        constructor
        · rintro ⟨bound, hget⟩
          exact (hinfers name bound hget).imp (fun hold => ⟨bound, hold⟩) fun hnew => ⟨bound, hnew⟩
        · rintro (⟨bound, hold⟩ | ⟨bound, hnew⟩)
          · exact ⟨bound, hkeeps name bound hold⟩
          · exact hbinds name bound hnew
      refine ⟨v :: values, ?_, .cons (haccepts.extend hext') halike, fun name => ?_⟩
      · simp only [lowerItems, bind_eq_ok_iff, pure_eq_ok_iff, Prod.exists, Prod.mk.injEq]
        exact ⟨c, v, s₁, hhead, cs, values, s', hitems, ⟨rfl, rfl⟩, rfl⟩
      · rw [hbound name, fixes_cons, Option.getD_some, hmatched name, or_assoc]

/-- A placeholder of a parameter that faces no box stands in the argument itself. -/
theorem mentions_of_not_fixes (hg : g.Regular) {values : List Value}
    (hparams : ∀ p ∈ params, g.IsValue p)
    (halike : Forall₂ (fun p v => g.Alike true p v.type) params values)
    (h : ¬ Fixes g params values name) {p : TypeId} (hpv : (p, v) ∈ params.zip values)
    (hname : g.Mentions p name) : g.Mentions v.type name := by
  have hfree := hg.functionFree (hparams p (of_mem_zip hpv).1)
  have haccepts : g.Alike true p v.type := forall₂_zip halike hpv
  rcases haccepts.infers_or_mentions hg.knotted hfree hname with ⟨bound, hinfers⟩ | hmentions
  · exact absurd ⟨p, v, bound, hpv, hinfers⟩ h
  · exact hmentions

/-- Whatever call lowering gets to, once its arguments have been lowered and match their parameters:

- it is lowered exactly if each placeholder of the result faces a box in some argument;
- if it fails, it names a placeholder of the result that faces none, and wherever that one occurs in a
  parameter, it occurs in the argument as well;
- so it is lowered if each placeholder of the result occurs in some parameter, and none of them in an
  argument. -/
theorem call_lowered_iff_fixes {span targetSpan : Span} {name : String} {args : List Expr}
    {s s₁ : Session} (hsite : Visited (.expr (.call span (.var targetSpan name) args) s)) {c : Callee}
    (hcallee : callee name targetSpan s = .ok c s) (hlen : c.params.length = args.length) {code : Code}
    {inputs : List Operand} {b : Bindings}
    (hargs : lowerArgs targetSpan [] args c.params s = .ok (code, inputs, b) s₁) :
    ∃ values, lowerItems args s = .ok (code, values) s₁ ∧
      ((∃ r s', lowerExpr (.call span (.var targetSpan name) args) s = .ok r s') ↔
        ∀ n, s.types.Mentions c.result n → Fixes s₁.types c.params values n) ∧
      (∀ failure s', lowerExpr (.call span (.var targetSpan name) args) s = .error failure s' →
        ∃ n, failure = .error ⟨.unboundPlaceholder n, span⟩ ∧ s.types.Mentions c.result n ∧
          ¬ Fixes s₁.types c.params values n ∧ ∀ p v, (p, v) ∈ c.params.zip values →
            s₁.types.Mentions p n → s₁.types.Mentions v.type n) ∧
      ((∀ n, s.types.Mentions c.result n → (∃ p ∈ c.params, s.types.Mentions p n) ∧
        ∀ v ∈ values, ¬ s₁.types.Mentions v.type n) →
        ∃ r s', lowerExpr (.call span (.var targetSpan name) args) s = .ok r s') := by
  have hg : s.outline.Good := hsite.settled.good
  obtain ⟨-, hparams, -⟩ := callee_values hg hcallee
  obtain ⟨values, hitems, halike, hbound⟩ := lowerArgs_infers hlen hg hparams hargs
  have hfixes : ∀ n, (∃ bound, b.get? n = some bound) ↔ Fixes s₁.types c.params values n := by
    intro n
    refine (hbound n).trans (or_iff_right ?_)
    rintro ⟨bound, hnil⟩
    cases hnil
  have hsteps := lowerArgs_steps hlen hg hargs
  have hext : s.types.Extends s₁.types := hsteps.grows.types
  have hmentions : ∀ n, ¬ Fixes s₁.types c.params values n → ∀ p v, (p, v) ∈ c.params.zip values →
      s₁.types.Mentions p n → s₁.types.Mentions v.type n := fun n hn p v hpv =>
    mentions_of_not_fixes hsteps.good.types (fun p hp => (hparams p hp).extend hext) halike hn hpv
  rcases lowerCall_cases hcallee hargs hlen hg span with ⟨hok, hall⟩ | ⟨n, s', herr, hname, hnone⟩
  · refine ⟨values, hitems, ⟨fun _ n hn => (hfixes n).1 (hall n hn), fun _ => hok⟩, ?_, fun _ => hok⟩
    obtain ⟨r, s', hrun⟩ := hok
    intro failure s'' herr
    cases hrun.symm.trans herr
  · have hunfixed : ¬ Fixes s₁.types c.params values n := fun hfix => by
      obtain ⟨bound, hget⟩ := (hfixes n).2 hfix
      cases hnone.symm.trans hget
    refine ⟨values, hitems, ⟨?_, fun hall => absurd (hall n hname) hunfixed⟩, ?_, fun hall => ?_⟩
    · rintro ⟨r, s'', hrun⟩
      cases herr.symm.trans hrun
    · intro failure s'' hrun
      cases herr.symm.trans hrun
      exact ⟨n, rfl, hname, hunfixed, hmentions n hunfixed⟩
    · obtain ⟨⟨p, hp, hpn⟩, hfree⟩ := hall n hname
      obtain ⟨v, hpv⟩ := TypeGraph.exists_mem_zip halike hp
      exact absurd (hmentions n hunfixed p v hpv (hpn.extend hext)) (hfree v (List.of_mem_zip hpv).2)

/-! ## Passing a box on -/

/-- `keep(arg)` -/
def keepCall (arg : Expr) : Expr :=
  .call ⟨0, 0⟩ (.var ⟨0, 0⟩ "keep") [arg]

/-- A function of any box that returns it. -/
def keepDecl : FnDecl :=
  let at0 : Span := ⟨0, 0⟩
  { name := "keep"
    params := [⟨"b", at0, .placeholder at0 "T"⟩]
    result := .placeholder at0 "T"
    body := .mk at0 [.yield at0 (.var at0 "b")]
    span := at0 }

/-- A function that returns what `keep` returns. -/
def callerDecl (params : List Param) (result : TypeExpr) (arg : Expr) : FnDecl :=
  let at0 : Span := ⟨0, 0⟩
  { name := "caller"
    params := params
    result := result
    body := .mk at0 [.yield at0 (keepCall arg)]
    span := at0 }

/-- Lowers the argument of `keep` where the body of the caller does, and looks up what `keep` takes and
returns. -/
def lowerKept (decl : FnDecl) (arg : Expr) :
    Lower (Callee × TypeKind × TypeKind × Code × List Operand × Bindings) := do
  let c ← callee decl.name ⟨0, 0⟩
  inContext do
    let _ ← declareParams (.declare []) decl.params c.params
    inContext do
      let keep ← callee "keep" ⟨0, 0⟩
      let param ← askTypes (·.kind (keep.params.headD 0))
      let result ← askTypes (·.kind keep.result)
      let lowered ← lowerArgs ⟨0, 0⟩ [] [arg] keep.params
      return (keep, param, result, lowered)

/-- The argument is accepted, and `keep` takes a placeholder and returns one. -/
theorem visited_keepCall (params : List Param) (result : TypeExpr) (arg : Expr) (bound : List String)
    (h : succeeds (fun r => decide (r.1.params.length = 1 ∧ r.2.1 = .placeholder "T" ∧
        r.2.2.1 = .placeholder "T" ∧ r.2.2.2.2.2.map Prod.fst = bound))
      (lowerKept (callerDecl params result arg) arg
        (Session.after [.declare keepDecl, .declare (callerDecl params result arg)])) = true) :
    ∃ s c p code inputs b s₁, Visited (.expr (keepCall arg) s) ∧ callee "keep" ⟨0, 0⟩ s = .ok c s ∧
      c.params = [p] ∧ lowerArgs ⟨0, 0⟩ [] [arg] c.params s = .ok (code, inputs, b) s₁ ∧
      s.types.kind p = .ok (.placeholder "T") ∧ s.types.kind c.result = .ok (.placeholder "T") ∧
      b.map Prod.fst = bound := by
  obtain ⟨r, _, hrun, hcheck⟩ := exists_ok_of_succeeds h
  simp only [lowerKept, bind_eq_ok_iff, inContext_eq_ok_iff, pure_eq_ok_iff, askTypes_eq_ok_iff] at hrun
  obtain ⟨c, s₀, hcallee, _, ⟨args, s₁, hparams, _, ⟨keep, s₂, hkeep, param, s₃, ⟨hparam, rfl⟩, kind, s₄,
    ⟨hresult, rfl⟩, lowered, s₅, hargs, rfl, rfl⟩, rfl⟩, rfl⟩ := hrun
  obtain ⟨rfl, -⟩ := callee_ok hcallee
  obtain ⟨rfl, -⟩ := callee_ok hkeep
  obtain ⟨hlen, rfl, rfl, hbound⟩ := of_decide_eq_true hcheck
  obtain ⟨p, hp⟩ := length_eq_one_iff.1 hlen
  have hbody : Visited (.block (callerDecl params result arg).body s₁) := .body rfl rfl hcallee hparams
  rw [hp] at hparam
  exact ⟨s₁.enter, keep, p, _, _, _, _, hbody.head_stmt.yield, hkeep, hp, hargs, hparam, hresult, hbound⟩

/-- From a placeholder nothing else can be reached. -/
theorem TypeGraph.mentions_placeholder {id : TypeId} {n : String}
    (hk : g.kind id = .ok (.placeholder name)) (h : g.Mentions id n) : n = name := by
  obtain ⟨target, hr, hk'⟩ := h
  rcases Relation.ReflTransGen.cases_head hr with rfl | ⟨part, ⟨kind, hk', hpart⟩, -⟩
  · cases TypeGraph.kind_unique hk hk'
    rfl
  · cases TypeGraph.kind_unique hk hk'
    cases hpart

/-- A box around an integer fixes the placeholder. -/
theorem call_lowered_iff_fixes_wrapped :
    ∃ s c code inputs b s₁ values,
      let wrapOne : Expr := .wrap ⟨0, 0⟩ (.int ⟨0, 0⟩ 1)
      Visited (.expr (keepCall wrapOne) s) ∧ callee "keep" ⟨0, 0⟩ s = .ok c s ∧ c.params.length = 1 ∧
      lowerArgs ⟨0, 0⟩ [] [wrapOne] c.params s = .ok (code, inputs, b) s₁ ∧
      lowerItems [wrapOne] s = .ok (code, values) s₁ ∧ s.types.Mentions c.result "T" ∧
      Fixes s₁.types c.params values "T" ∧ ∃ r s', lowerExpr (keepCall wrapOne) s = .ok r s' := by
  obtain ⟨s, c, p, code, inputs, b, s₁, hsite, hcallee, hparams, hargs, -, hresult, hbound⟩ :=
    visited_keepCall [] (.box ⟨0, 0⟩ (.integer ⟨0, 0⟩)) (.wrap ⟨0, 0⟩ (.int ⟨0, 0⟩ 1)) ["T"]
      (by decide +kernel)
  have hlen : c.params.length = 1 := by rw [hparams]; rfl
  have hmentions : s.types.Mentions c.result "T" := ⟨c.result, .refl, hresult⟩
  obtain ⟨values, hitems, hiff, -⟩ := call_lowered_iff_fixes hsite hcallee hlen hargs
  rcases lowerCall_cases hcallee hargs hlen hsite.settled.good ⟨0, 0⟩ with
    ⟨hok, -⟩ | ⟨n, s', -, hname, hnone⟩
  · exact ⟨s, c, code, inputs, b, s₁, values, hsite, hcallee, hlen, hargs, hitems, hmentions,
      hiff.1 hok "T" hmentions, hok⟩
  · obtain ⟨entry, rfl, hentry⟩ := List.map_eq_singleton_iff.1 hbound
    obtain ⟨name, bound⟩ := entry
    cases hentry
    cases TypeGraph.mentions_placeholder hresult hname
    cases hnone

/-- A box of the caller that is a placeholder itself does not.  The placeholder of the result occurs in the
parameter, and the argument is accepted. -/
theorem keepCall_of_placeholder_fails :
    ∃ s c code inputs b s₁ s', Visited (.expr (keepCall (.var ⟨0, 0⟩ "c")) s) ∧
      callee "keep" ⟨0, 0⟩ s = .ok c s ∧ c.params.length = 1 ∧
      lowerArgs ⟨0, 0⟩ [] [.var ⟨0, 0⟩ "c"] c.params s = .ok (code, inputs, b) s₁ ∧
      (∀ n, s.types.Mentions c.result n → ∃ p ∈ c.params, s.types.Mentions p n) ∧
      lowerExpr (keepCall (.var ⟨0, 0⟩ "c")) s =
        .error (.error ⟨.unboundPlaceholder "T", ⟨0, 0⟩⟩) s' := by
  obtain ⟨s, c, p, code, inputs, b, s₁, hsite, hcallee, hparams, hargs, hparam, hresult, hbound⟩ :=
    visited_keepCall [⟨"c", ⟨0, 0⟩, .placeholder ⟨0, 0⟩ "T"⟩] (.placeholder ⟨0, 0⟩ "T") (.var ⟨0, 0⟩ "c") []
      (by decide +kernel)
  have hlen : c.params.length = 1 := by rw [hparams]; rfl
  have hnames : ∀ n, s.types.Mentions c.result n → ∃ p ∈ c.params, s.types.Mentions p n := by
    intro n hn
    cases TypeGraph.mentions_placeholder hresult hn
    exact ⟨p, hparams ▸ List.mem_cons_self, p, .refl, hparam⟩
  rcases lowerCall_cases hcallee hargs hlen hsite.settled.good ⟨0, 0⟩ with
    ⟨-, hall⟩ | ⟨n, s', herr, hname, -⟩
  · obtain ⟨bound, hget⟩ := hall "T" ⟨c.result, .refl, hresult⟩
    rw [List.map_eq_nil_iff.1 hbound] at hget
    cases hget
  · cases TypeGraph.mentions_placeholder hresult hname
    exact ⟨s, c, code, inputs, b, s₁, s', hsite, hcallee, hlen, hargs, hnames, herr⟩

end SlotCode
