import SlotCode.Proofs.Lowering.Programs
import SlotCode.Proofs.Meaning.Control

/-!
# Calls and functions follow their evaluation

A function is entered with its arguments in the slots of its parameters, and what it returns goes to
the slots of the call (`Compiled.computes`, `Expr.Faithful.call`).  With that, every expression is
faithful (`Expr.faithful`), by induction on the bound of the evaluation.
-/

namespace SlotCode

open Outline Lower List TypeGraph

variable {A : Arithmetic} {decls : List FnDecl} {p : Program} {d : Outline} {n : Nat}
  {params : List TypeId} {o o' : Outline} {σ : Store} {decl : FnDecl} {f : Function} {v : Value}
  {args : List Content} {result : TypeId} {b : Bindings} {content : Content} {inputs : List Operand}
  {span : Span} {name : String}

/-! ## Parameters -/

/-- The parameters are in scope, the last one first. -/
theorem Outline.Bound.scoped {g : TypeGraph} (hr : g.Regular) {params : List Param}
    {types : List TypeId} {slots : List VarId} (h : Bound params types slots o o') (hg : o.Good)
    (hf : o.frames ≠ []) (hext : o'.types.Extends g) {env : Env}
    (hfits : Forall₂ g.Fits args types) (hhas : σ.Has slots (Content.wordsAll args))
    (hs : Scoped g o σ o.names env) :
    Scoped g o' σ o'.names (((params.map Param.name).zip args).reverse ++ env) := by
  induction h generalizing args env with
  | nil o => exact hs
  | @cons param params type types rest o o₁ o' hsteps htype h ih =>
    cases hfits with
    | @cons arg _ args _ harg hargs =>
      have hadds := Adds.shaped hg hf hsteps
      obtain ⟨new, hrest⟩ := h.adds hsteps.good hadds.frames_ne
      have hlt := (hsteps.good.isValue htype).lt_size
      have hlen : (o₁.slots o.vars.length).length = arg.words.length := by
        rw [harg.length_words hr, (hsteps.good.slots_typed htype).length_eq,
          leafTypes_extend hsteps.good.types.toSound (hrest.grows.types.trans hext) hlt]
      obtain ⟨hhead, htail⟩ := hhas.split hlen
      have hscoped : Scoped g o₁ σ o₁.names ((param.name, arg) :: env) := by
        rw [hadds.names]
        exact .cons ⟨rfl, type, htype, harg, .inr hhead⟩ (hs.mono hg hadds.grows hadds.good)
      have hall := ih hsteps.good hadds.frames_ne hext hargs htail hscoped
      rw [map_cons, zip_cons_cons, reverse_cons, append_assoc]
      exact hall

/-! ## Functions -/

/-- A function returns the words of its value. -/
theorem Means.returned (hr : p.types.Regular) (hm : Means A p.types σ v content) (hv : v.Ok o) :
    Operand.evalAll A σ v.leaves = some content.returned := by
  by_cases hvoid : v.type = .void
  · rw [(means_void hr hvoid).1 hm, Value.leaves_of_void (hv.void.2 hvoid)]
    rfl
  · rw [hm.words hvoid]
    cases content with
    | nothing => exact absurd hm.fits hvoid
    | _ => rfl

theorem Eval.apart_eq_some {α : Type} {env : Env} {e : Eval α} {w w' : World} {ending : Ending α}
    (h : apart env e w = some (ending, w')) :
    ∃ a w₁, e { w with env := env } = some (.value a, w₁) ∧ ending = .value a ∧
      w' = { w₁ with env := w.env } := by
  unfold apart at h
  split at h
  · next a w₁ he =>
    cases h
    exact ⟨a, w₁, he, rfl, rfl⟩
  · cases h

theorem Outline.Prepared.names_enter (h : o.Prepared decls) : o.enter.names = [] := by
  rw [Outline.names, Outline.enter, h.frames]
  rfl

/-- What running a function does: it is entered with the arguments in its slots, and what it returns
are the words of the content. -/
structure Function.Computes (A : Arithmetic) (p : Program) (f : Function) (args : List Content)
    (printed : List String) (content : Content) (printed' : List String) : Prop where
  fits : p.types.Fits content f.result
  runs : ∃ σ m, Store.empty.writeAll f.args (Content.wordsAll args) = some σ ∧
    Runs A p f.code ⟨σ, printed⟩ .done m ∧ m.printed = printed' ∧
    Operand.evalAll A m.store f.value = some content.returned

/-- A function that has been lowered computes what its declaration is evaluated to. -/
theorem Compiled.computes (hr : p.types.Regular)
    (ih : ∀ k < n, ∀ e : Expr, e.Faithful A decls p d k) {s s₁ s₂ : Session}
    (hc : Compiled decls decl f params s s₁ s₂ v) (hfunctions : s.outline.functions = d.functions)
    (hext : s₂.types.Extends p.types) (hseq : decl.body.sequenced = true)
    (hargs : Forall₂ p.types.Fits args params) {w w' : World} {ending : Ending Content}
    (he : evalFunction A decls n decl args w = some (ending, w')) :
    ∃ content, ending = .value content ∧ w'.env = w.env ∧
      f.Computes A p args w.printed content w'.printed := by
  obtain ⟨new, hadds⟩ := hc.adds
  obtain ⟨hsteps, -, hv⟩ := hc.lowered
  have henter := hc.prepared.good.enter
  cases n with
  | zero => rw [evalFunction] at he; cases he
  | succ n =>
    rw [evalFunction] at he
    split at he
    · obtain ⟨content, w₁, heval, rfl, rfl⟩ := Eval.apart_eq_some he
      have hready : Ready d s₁.outline := ⟨hadds.good, hadds.grows.functions.trans hfunctions⟩
      have hbody := Block.faithful hr (fun k hk => ih k (Nat.lt_succ_of_lt hk)) decl.body hready hseq
        hc.body hext
      obtain ⟨hnodup, -⟩ := hc.bound.nodup henter s.enter.frames_ne
      have hlen : f.args.length = (Content.wordsAll args).length := by
        rw [(fitsEach_iff.2 hargs).length_words hr, (hc.args_typed hext).length_eq]
      obtain ⟨σ, hwrite⟩ := Store.exists_writeAll .empty hlen
      have hnames : Scoped p.types s.outline.enter σ s.outline.enter.names [] := by
        rw [hc.prepared.names_enter]
        exact .nil
      have hscoped := hc.bound.scoped hr henter s.enter.frames_ne
        (hsteps.grows.types.trans hext) hargs (Store.writeAll_has hwrite hnodup) hnames
      rw [append_nil] at hscoped
      obtain ⟨_, m, hruns, rfl, htracks, hmeans⟩ :=
        hbody ⟨_, w.printed⟩ ⟨σ, w.printed⟩ ⟨rfl, hscoped⟩ trivial (.value content) w₁ heval
      refine ⟨content, rfl, rfl, hmeans.fits.alike hr (hc.result.symm.extend hext), σ, m, hwrite, hruns,
        htracks.printed, ?_⟩
      rw [hc.value]
      exact hmeans.returned hr hv
    · cases he

/-! ## Arguments -/

/-- An argument is passed as its words. -/
theorem Means.passed (hr : p.types.Regular) {param : TypeId} (hm : Means A p.types σ v content)
    (halike : p.types.Alike true param v.type) (hconcrete : p.types.Concrete param)
    (hne : param ≠ .void) :
    p.types.Fits content param ∧ Operand.evalAll A σ v.leaves = some content.words := by
  have hsame := hconcrete.alike halike
  refine ⟨hm.fits.alike hr hsame.symm, hm.words fun hvoid => hne ?_⟩
  exact (hsame.eq_of_base_right (hvoid ▸ hr.void) rfl).trans hvoid

theorem lowerArgs_follows (hr : p.types.Regular) {targetSpan : Span} {es : List Expr}
    (ih : ∀ k < n, ∀ e : Expr, e.Faithful A decls p d k) (hlen : params.length = es.length)
    {s s' : Session} {b' : Bindings} {code : Code} (hready : Ready d s.outline)
    (hparams : ∀ q ∈ params, s.types.IsValue q)
    (hpassed : ∀ q ∈ params, p.types.Concrete q ∧ q ≠ .void) (hb : BindsValues s.types b)
    (hfree : Expr.setFreeAll es = true) (hseq : Expr.sequencedAll es = true)
    (h : lowerArgs targetSpan b es params s = .ok (code, inputs, b') s')
    (hext : s'.types.Extends p.types) :
    Follows A p p.types (fun _ => True) (evalAll A decls n es) code s.outline s'.outline
      (fun contents σ => Forall₂ p.types.Fits contents params ∧
        Operand.evalAll A σ inputs = some (Content.wordsAll contents)) := by
  induction es generalizing n params s b code inputs with
  | nil =>
    obtain rfl := eq_nil_of_length_eq_zero hlen
    cases h
    exact .nil hready.good fun σ => ⟨.nil, rfl⟩
  | cons e es ihes =>
    cases params with
    | nil => cases hlen
    | cons param params =>
      obtain ⟨c, v, s₁, _, b₁, cs, ins, hhead, hbind, htail, rfl, rfl⟩ := lowerArgs_cons h
      obtain ⟨hsteps, -, hv⟩ := Expr.lowers e hready.good hhead
      have hgrows := hsteps.grows.types
      obtain ⟨-, halike, hb₁⟩ := bindArgument_binds hsteps.good
        ((hparams param mem_cons_self).extend hgrows) hv (hb.mono hgrows) hbind
      have hparams' : ∀ q ∈ params, s₁.types.IsValue q := fun q hq =>
        (hparams q (mem_cons_of_mem _ hq)).extend hgrows
      obtain ⟨hsteps', hemits', -⟩ := lowerArgs_emits (fun e _ => Expr.lowers e) (Nat.succ.inj hlen)
        hsteps.good hparams' hb₁ htail
      have hext₁ := hsteps'.grows.types.trans hext
      refine .cons (hsteps.adds s.frames_ne) hsteps'
        (fun k hk => ih k hk e hready (and_of_sequencedAll hseq).1 hhead hext₁)
        (fun k hk => ihes (fun j hj => ih j (hj.trans hk)) (Nat.succ.inj hlen) (hready.steps hsteps)
          hparams' (fun q hq => hpassed q (mem_cons_of_mem _ hq)) hb₁
          (and_of_setFreeAll hfree).2 (and_of_sequencedAll hseq).2 htail)
        (hemits'.spares (and_of_setFreeAll hfree).2) ?_ fun c cs σ hc hcs => ?_
      · exact fun c σ σ' hp hm => hm.preserved hsteps.good hv hsteps'.keeps hp
      · obtain ⟨hconcrete, hne⟩ := hpassed param mem_cons_self
        obtain ⟨hfit, hword⟩ := hc.passed hr (halike.extend hext₁) hconcrete hne
        exact ⟨.cons hfit hcs.1, Operand.evalAll_append hword hcs.2⟩

/-! ## Calls -/

theorem Content.returned_of_ne (h : content ≠ .nothing) : content.returned = content.words := by
  cases content with
  | nothing => exact absurd rfl h
  | _ => rfl

/-- What a function returns fits into the outputs of a call, and the value of the call reads it
there. -/
theorem exists_received (hr : p.types.Regular) {outputs : List VarId}
    (hfits : p.types.Fits content result) (hconcrete : p.types.Concrete result) (hg : o'.Good)
    (hv : v.Ok o') (hext : o'.types.Extends p.types)
    (hreads : result = .void ∧ outputs = [] ∧ v = .void span ∨
      result ≠ .void ∧ v.shape ≠ .void ∧ o'.types.Instance b result v.type ∧
        v.leaves = outputs.map .var ∧ outputs.Nodup ∧ ∀ l ∈ outputs, o.vars.length ≤ l) (σ : Store) :
    ∃ σ', σ.writeAll outputs content.returned = some σ' ∧ Means A p.types σ' v content ∧
      Preserved o o' σ σ' := by
  rcases hreads with ⟨rfl, rfl, rfl⟩ | ⟨hne, hshape, hinst, hleaves, hnodup, hnew⟩
  · obtain rfl := (fits_void_iff hr).1 hfits
    exact ⟨σ, rfl, means_nothing hr σ span, .refl _ _ _⟩
  · have hsome : content ≠ .nothing := by
      rintro rfl
      exact hne hfits
    have hfits' := hfits.alike hr (hconcrete.alike_instance (hinst.extend hext))
    have hlen : outputs.length = content.words.length := by
      rw [hfits'.length_words hr, leafTypes_extend hg.types.toSound hext hv.value.lt_size,
        ← (hv.typed hshape).length_eq, hleaves, length_map]
    obtain ⟨σ', hwrite⟩ := σ.exists_writeAll hlen
    rw [Content.returned_of_ne hsome]
    refine ⟨σ', hwrite, ⟨hfits', fun _ => ?_⟩, preserved_of_writeAll hwrite hnew⟩
    rw [hleaves, Operand.evalAll_vars]
    exact Store.writeAll_has hwrite hnodup

/-- What is asked of the declarations of a program for its meaning to be kept. -/
structure Orderly (decls : List FnDecl) : Prop where
  /-- No placeholder is written in a signature. -/
  concrete : ∀ decl ∈ decls, decl.isConcrete = true
  /-- Every parameter is passed. -/
  passed : ∀ decl ∈ decls, ∀ param ∈ decl.params, param.isVoid = false
  sequenced : ∀ decl ∈ decls, decl.body.sequenced = true

/-- Parameters of types other than `void` are what a call passes. -/
theorem Orderly.params_ne_void (horderly : Orderly decls) (hdecl : decl ∈ decls) {s s₁ s₂ : Session}
    (hc : Compiled decls decl f params s s₁ s₂ v) {q : TypeId} (hq : q ∈ params) :
    q ≠ .void := by
  have hdenotes := forall₂_map_left_iff.1 (denotesEach_iff.1 hc.denoted)
  obtain ⟨param, hparam, hden⟩ := exists_of_forall₂ hdenotes.flip hq
  intro hvoid
  have := horderly.passed decl hdecl param hparam
  rw [Param.isVoid, (hden.void_iff hc.prepared.good.types).1 hvoid] at this
  cases this

/-- A call of a function of the program, with its arguments in the inputs. -/
theorem call_follows (hr : p.types.Regular) (ih : ∀ k < n, ∀ e : Expr, e.Faithful A decls p d k)
    {t t₁ t₂ : Session} {w : Value} (hc : Compiled decls decl f params t t₁ t₂ w)
    (hfunctions : t.outline.functions = d.functions) (htypes : t₂.types.Extends p.types)
    (hf : p.function? f.name = some f) (hseq : decl.body.sequenced = true)
    (hconcrete : p.types.Concrete f.result) {outputs : List VarId} (hg : o.Good)
    (hsteps : o.Steps o') (hext : o'.types.Extends p.types) (hv : v.Ok o')
    (hreads : f.result = .void ∧ outputs = [] ∧ v = .void span ∨
      f.result ≠ .void ∧ v.shape ≠ .void ∧ o'.types.Instance b f.result v.type ∧
        v.leaves = outputs.map .var ∧ outputs.Nodup ∧ ∀ l ∈ outputs, o.vars.length ≤ l)
    (contents : List Content) :
    Follows A p p.types
      (fun σ => Forall₂ p.types.Fits contents params ∧
        Operand.evalAll A σ inputs = some (Content.wordsAll contents))
      (evalFunction A decls n decl contents) [.call span f.name inputs outputs] o o'
      (fun content σ => Means A p.types σ v content) := by
  intro world m ht hpre ending world' he
  obtain ⟨hfits, hinputs⟩ := hpre
  obtain ⟨content, rfl, henv, hresult, σ, m₁, hargs, hbody, hprinted, hvalue⟩ :=
    hc.computes hr ih hfunctions htypes hseq hfits he
  rw [← ht.printed] at hbody
  obtain ⟨σ', hwrite, hmeans, hpreserved⟩ :=
    exists_received (A := A) (o := o) hr hresult hconcrete hsteps.good hv hext hreads m.store
  refine ⟨.done, ⟨σ', m₁.printed⟩, .call hf hinputs hargs hbody hvalue hwrite (.nil _), rfl,
    ⟨hprinted, ?_⟩, hmeans⟩
  rw [hsteps.names, henv]
  exact ht.names.preserved hg hsteps.keeps hpreserved

/-- A call of `print`. -/
theorem print_follows (hr : p.types.Regular) (hg : o.Good) (hsteps : o.Steps o') {line : String} :
    Follows A p p.types (fun σ => Operand.evalAll A σ inputs = some [.datum (.str line)])
      (Eval.print line) [.native span .print inputs []] o o'
      (fun content σ => Means A p.types σ (.void span) content) := by
  intro world m ht hinputs ending world' he
  cases he
  refine ⟨.done, ⟨m.store, m.printed ++ [line]⟩, .native hinputs rfl rfl (.nil _), rfl, ⟨?_, ?_⟩,
    means_nothing hr _ span⟩
  · rw [ht.printed]
  · exact (ht.mono hg hsteps).names

/-- No declaration has the name of a built-in function. -/
theorem Built.find?_native (hb : Built decls p d) {sig : Signature}
    (hsig : d.functions.lookup name = some sig)
    (hk : p.types.kind sig.type = .ok (.function params result true)) :
    decls.find? (fun decl => decl.name = name) = none := by
  rw [find?_eq_none]
  intro decl hdecl hname
  obtain rfl : decl.name = name := of_decide_eq_true hname
  obtain ⟨params', result', ⟨sig', hsig', hk'⟩, -⟩ := hb.prepared.signs decl hdecl
  cases hsig.symm.trans hsig'
  cases kind_unique hk (hb.types _ _ hk')

theorem evalCall_declared (h : decls.find? (fun decl => decl.name = name) = some decl) :
    evalCall A decls (n + 1) name args = evalFunction A decls n decl args := by
  simp only [evalCall, h]

/-- Without a declaration of that name, `print` prints a string and does nothing else. -/
theorem evalCall_print (h : decls.find? (fun decl => decl.name = "print") = none)
    (args : List Content) : evalCall A decls (n + 1) "print" args = Eval.stuck ∨
      ∃ line, args = [.datum (.str line)] ∧
        evalCall A decls (n + 1) "print" args = Eval.print line := by
  unfold evalCall
  simp only [h]
  split
  · next line => exact .inr ⟨line, rfl, if_pos trivial⟩
  · exact .inl rfl

/-- What is known of the function that a call names. -/
theorem Built.passes (hb : Built decls p d) (horderly : Orderly decls) {sig : Signature}
    {raw : List TypeId} {native : Bool} {g : TypeGraph} (hext : g.Extends p.types)
    (hsig : d.functions.lookup name = some sig)
    (hk : g.kind sig.type = .ok (.function raw result native)) :
    ∀ q ∈ (if raw = [.void] then [] else raw), p.types.Concrete q ∧ q ≠ .void := by
  intro q hq
  have hmem : q ∈ raw := by
    split at hq
    · cases hq
    · exact hq
  refine ⟨hb.concrete_parts horderly.concrete hsig ⟨_, hext _ _ hk, mem_append_left _ hmem⟩, ?_⟩
  cases native with
  | true =>
    obtain ⟨raw', result', native', hk', hprint⟩ := hb.prepared.good.functions name sig hsig
    cases kind_unique (hext _ _ hk) (hb.types _ _ hk')
    obtain ⟨-, rfl, -⟩ := hprint rfl
    cases mem_singleton.1 hmem
    exact nofun
  | false =>
    obtain ⟨decl, hdecl, f, -, -, -, params, t, t₁, t₂, w, hc, -, -, rfl⟩ := hb.callee hext hsig hk
    refine horderly.params_ne_void hdecl hc ?_
    split at hmem
    · next hnil =>
      rw [if_pos hnil, if_pos rfl] at hq
      cases hq
    · exact hmem

theorem Expr.Faithful.call (hb : Built decls p d) (horderly : Orderly decls) {args : List Expr}
    (ih : ∀ k ≤ n, ∀ e : Expr, e.Faithful A decls p d k) (span : Span) (target : Expr) :
    (Expr.call span target args).Faithful A decls p d (n + 1) := by
  intro s s' code v hready hseq h hext
  have hg := hready.good
  have hr := hb.regular
  obtain ⟨hfree, hargsSeq⟩ : Expr.setFreeAll args = true ∧ Expr.sequencedAll args = true := by
    simpa [Expr.sequenced] using hseq
  cases lowerExpr_cases h with
  | @call _ targetSpan name _ _ _ s₂ _ c _ _ _ _ _ _ hcallee hlen hlower hresult hcommand =>
    obtain ⟨-, hvalues, hresultValue, -⟩ := callee_values hg hcallee
    obtain ⟨-, sig, raw, hsig, hk, hparams⟩ := callee_ok hcallee
    obtain ⟨hs', hcommand⟩ := callCommand_ok hcommand
    rw [hready.functions] at hsig
    obtain ⟨hsteps, -, -, hbinds⟩ :=
      lowerArgs_emits (fun e _ => Expr.lowers e) hlen hg hvalues .nil hlower
    obtain ⟨hsteps', hv, hreads⟩ :=
      callResult_reads hsteps.good (hresultValue.extend hsteps.grows.types) hbinds hresult
    have hext₄ : s₂.types.Extends p.types := by
      have htypes : s'.types = s₂.types := congrArg Outline.types hs'
      exact htypes ▸ hext
    have hext₃ := hsteps'.grows.types.trans hext₄
    have hext₂ := hsteps.grows.types.trans hext₃
    have hpassed := hb.passes horderly hext₂ hsig hk
    rw [← hparams] at hpassed
    have hargs := lowerArgs_follows hr (fun k hk => ih k hk.le) hlen hready hvalues hpassed .nil hfree
      hargsSeq hlower hext₃
    rw [evalExpr, hs']
    refine hargs.bind (hsteps.adds s.frames_ne) hsteps'.keeps fun contents => ?_
    cases n with
    | zero => rw [evalCall]; exact .stuck
    | succ n =>
      rcases hcommand with ⟨hnative, rfl⟩ | ⟨hnative, primitive, hname, rfl⟩
      · rw [hnative] at hk
        obtain ⟨decl, hdecl, f, hf, rfl, hres, params, t, t₁, t₂, w, hc, hfunctions, hafter, hraw⟩ :=
          hb.callee hext₂ hsig hk
        -- No parameters are kept as one void parameter, which no declaration has.
        have hsame : c.params = params := by
          rw [hparams, hraw]
          by_cases hnil : params = []
          · rw [if_pos hnil, if_pos rfl, hnil]
          · rw [if_neg hnil, if_neg]
            rintro rfl
            exact horderly.params_ne_void hdecl hc (mem_singleton_self _) rfl
        rw [evalCall_declared (hb.find?_decl hdecl), hsame, ← hc.name]
        rw [← hres] at hreads
        have hconcrete : p.types.Concrete f.result := hres ▸
          hb.concrete_parts horderly.concrete hsig
            ⟨_, hext₂ _ _ hk, mem_append_right _ mem_cons_self⟩
        exact call_follows hr (fun k hk => ih k (by omega)) hc hfunctions hafter (hb.function?_eq hf)
          (horderly.sequenced decl hdecl) hconcrete hsteps.good hsteps' hext₄ hv hreads contents
      · rw [hnative] at hk
        have hnone := hb.find?_native hsig (hext₂ _ _ hk)
        obtain ⟨raw', result', native', hk', hprint⟩ := hg.functions name sig (hready.functions ▸ hsig)
        cases kind_unique hk hk'
        obtain ⟨rfl, -, hvoid⟩ := hprint rfl
        obtain rfl : primitive = .print :=
          Option.some.inj (hname.symm.trans (by decide : Primitive.ofName? "print" = some .print))
        obtain ⟨-, rfl, rfl⟩ := hreads.resolve_right fun hne => hne.1 hvoid
        rcases evalCall_print hnone contents with hstuck | ⟨line, rfl, hprints⟩
        · rw [hstuck]
          exact .stuck
        · rw [hprints]
          exact (print_follows hr hsteps.good hsteps').imp (fun σ hpre => hpre.2) fun _ _ hm => hm

/-- Every expression follows its evaluation. -/
theorem Expr.faithful (hb : Built decls p d) (horderly : Orderly decls) (n : Nat) (e : Expr) :
    e.Faithful A decls p d n := by
  have hr := hb.regular
  induction n using Nat.strong_induction_on generalizing e with
  | _ n ih =>
    cases n with
    | zero =>
      intro s s' code v _ _ _ _
      rw [evalExpr]
      exact .stuck
    | succ n =>
      have hsmaller : ∀ k ≤ n, ∀ e : Expr, e.Faithful A decls p d k :=
        fun k hk => ih k (Nat.lt_succ_of_le hk)
      have hbelow : ∀ k < n, ∀ e : Expr, e.Faithful A decls p d k :=
        fun k hk => hsmaller k hk.le
      cases e with
      | var span name => exact .var span name
      | int span value => exact .int span value
      | bool span value => exact .bool span value
      | str span value => exact .str span value
      | tuple span items => exact .tuple hsmaller span
      | arith span op operands => exact .arith hr hsmaller span op
      | compare span chain => exact .compare hr hsmaller span
      | not span operand =>
        intro s s' code v _ _ _ _
        rw [evalExpr]
        exact .stuck
      | call span target args => exact .call hb horderly hsmaller span target
      | block span body => exact .block hr (Block.faithful hr hbelow body) span
      | cond span test yes no => exact .cond hr hsmaller span
      | ifFull span boxed pattern yes no => exact .ifFull hr hsmaller span pattern
      | loop span label body => exact .loop (Block.faithful hr hbelow body) (hsmaller n le_rfl _)
      | leave span label value => exact .leave hr hbelow span label
      | wrap span payload => exact .wrap (hsmaller n le_rfl payload) span
      | wrapEmpty span payload => exact .wrapEmpty span payload
      | cons span head tail =>
        exact .cons hr (hsmaller n le_rfl head) (hsmaller n le_rfl tail) span
      | consEmpty span item => exact .consEmpty span item

end SlotCode
