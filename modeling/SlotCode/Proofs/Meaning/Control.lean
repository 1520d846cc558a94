import SlotCode.Proofs.Meaning.Operators
import SlotCode.Proofs.Meaning.Patterns

/-!
# Statements and control follow their evaluation

Blocks with their statements, conditionals and loops.  A branch ends by storing its value into the
variable that both branches share; a `leave` stores into the variable of the loop that it means.
-/

namespace SlotCode

open Outline Lower List

variable {A : Arithmetic} {decls : List FnDecl} {p : Program} {d : Outline} {n : Nat} {o : Outline}
  {v : Value} {code : Code} {value yes : Expr} {span : Span} {no : Option Expr} {s s' : Session}

/-! ## Values kept -/

theorem Stored.follows (hr : p.types.Regular) {o' : Outline} {w : Value} (h : Stored o o' code v w)
    (hg : o.Good) (hsteps : o.Steps o') (hext : o'.types.Extends p.types) (hv : v.Ok o)
    (hw : w.Ok o') (hvoid : v.shape ≠ .void) (content : Content) :
    Follows A p p.types (fun σ => Means A p.types σ v content) (pure content) code o o'
      (fun content σ => Means A p.types σ w content) := by
  have hspares : Code.Spares o o' code := h.spares
  obtain ⟨span, slots, rfl, hleaves, hnodup, hnew⟩ := h.slots
  have htype : w.type ≠ .void := by
    intro hw
    have halike := h.type
    rw [hw] at halike
    exact hvoid (hv.void.2 (halike.eq_of_base hsteps.good.types.void rfl))
  have hlen : slots.length = v.leaves.length := by
    have hw' := (hw.typed fun hs => htype (hw.void.1 hs)).length_eq
    rw [hleaves, length_map] at hw'
    rw [hw', (h.type.leafTypes hsteps.good.types.toSound).length_eq,
      ((hv.mono hg hsteps.keeps).typed hvoid).length_eq]
  have hparallel : Parallel slots v.leaves := parallel_of_disjoint fun l hl hread =>
    Nat.not_lt.2 (hnew l hl) (hv.lt_of_reads hread)
  refine .fresh hg hsteps hspares fun m hm => ?_
  obtain ⟨σ, hwrite, hruns⟩ := runs_assignments (p := p) span hparallel hlen
    (hm.words fun ht => hvoid (hv.void.2 ht))
  refine ⟨_, hruns, rfl, hm.fits.alike hr (h.type.symm.extend hext), fun _ => ?_⟩
  rw [hleaves, Operand.evalAll_vars]
  exact Store.writeAll_has hwrite hnodup

/-! ## Statements -/

section

variable (A : Arithmetic) (decls : List FnDecl) (p : Program) (d : Outline) (n : Nat)

def Block.Faithful (b : Block) : Prop :=
  ∀ ⦃s s' : Session⦄ ⦃code : Code⦄ ⦃v : Value⦄, Ready d s.outline → b.sequenced = true →
    lowerBlock b s = .ok (code, v) s' → s'.types.Extends p.types →
    Follows A p p.types (fun _ => True) (evalBlock A decls n b) code s.outline s'.outline
      (fun content σ => Means A p.types σ v content)

/-- A statement of a block that has no value yet. -/
def Stmt.Faithful (stmt : Stmt) : Prop :=
  ∀ ⦃s s' : Session⦄ ⦃span : Span⦄ ⦃v : Value⦄ ⦃code : Code⦄, Ready d s.outline →
    stmt.sequenced = true → lowerStmt (.void span) stmt s = .ok (code, v) s' →
    s'.types.Extends p.types →
    Follows A p p.types (fun _ => True) (evalStmt A decls n .nothing stmt) code s.outline s'.outline
      (fun content σ => Means A p.types σ v content)

end

theorem means_nothing (hr : p.types.Regular) (σ : Store) (span : Span) :
    Means A p.types σ (.void span) .nothing :=
  (means_void hr rfl).2 rfl

theorem Stmt.Faithful.bind (hr : p.types.Regular) (hvalue : value.Faithful A decls p d n)
    (span : Span) (target : Expr) : (Stmt.bind span target value).Faithful A decls p d (n + 1) := by
  intro s s' sp v code hready hseq h hext
  simp only [lowerStmt, bind_eq_ok_iff, pure_eq_ok_iff, Prod.exists, Prod.mk.injEq] at h
  obtain ⟨code₁, stored, s₁, hlower, pattern, mode, s₂, hbind, stores, s₃, hstore, ⟨rfl, rfl⟩, rfl⟩ := h
  obtain ⟨hsteps, -, hstored⟩ := Expr.lowers value hready.good hlower
  obtain ⟨-, hdeclared⟩ := bindPattern_declared hbind
  obtain ⟨new, hadds, -⟩ := hdeclared.adds hsteps.good s₁.frames_ne
  have hstored₂ := hstored.mono hsteps.good hadds.keeps
  obtain ⟨hsteps', hok, hvoid, slots, hfills, rfl⟩ := storeInto_fills hadds.good hstored₂ hstore
  have hrest := hadds.trans (hsteps'.adds hadds.frames_ne)
  have hstored₃ := hstored₂.mono hadds.good hsteps'.keeps
  have hfirst := hvalue hready hseq hlower (hrest.grows.types.trans hext)
  rw [evalStmt]
  refine hfirst.bind (hsteps.adds s.frames_ne) hrest.keeps fun content => ?_
  rw [← append_nil (assignments span slots stored.leaves)]
  refine (follows_declare hr hsteps.good s₁.frames_ne hdeclared hsteps' hext hfills
    fun m hm => ⟨hm.fits, ?_⟩).bind hrest (Steps.refl hsteps'.good).keeps fun _ => ?_
  · have hwords := hm.words fun ht => hvoid (hstored.void.2 ht)
    have hlen : slots.length = stored.leaves.length := by
      rw [(hfills.takes hsteps'.good).length_eq, (hstored₃.typed hvoid).length_eq]
    have hparallel : Parallel slots stored.leaves := parallel_of_disjoint fun l hl hread =>
      Nat.not_lt.2 (hdeclared.le_of_mem_slots hsteps.good s₁.frames_ne hsteps'.good hfills hl)
        (hstored.lt_of_reads hread)
    obtain ⟨σ, hwrite, hruns⟩ := runs_assignments (p := p) span hparallel hlen hwords
    exact ⟨_, hruns, rfl, hwrite⟩
  · exact .done hsteps'.good (.refl hsteps'.good) fun σ _ => means_nothing hr σ sp

theorem Stmt.Faithful.set (hr : p.types.Regular) (hvalue : value.Faithful A decls p d n)
    (span : Span) (target : Expr) : (Stmt.set span target value).Faithful A decls p d (n + 1) := by
  intro s s' sp v code hready hseq h hext
  cases target with
  | var targetSpan name =>
    cases lowerStmt_cases h with
    | @set stored _ _ _ _ s₁ _ _ _ _ _ _ hlower hbind hstore =>
      obtain ⟨hsteps, -, hstored⟩ := Expr.lowers value hready.good hlower
      obtain ⟨id, hname, rfl⟩ := bindPattern_var hbind
      obtain ⟨rfl, rfl, hid⟩ := bindName_resolve_ok hname
      obtain ⟨hsteps', -, hvoid, slots, hfills, rfl⟩ := storeInto_fills hsteps.good hstored hstore
      cases hfills with
      | var _ hreceives =>
        have hfirst := hvalue hready hseq hlower (hsteps'.grows.types.trans hext)
        rw [evalStmt]
        refine hfirst.bind (hsteps.adds s.frames_ne) hsteps'.keeps fun content => ?_
        rw [← append_nil (assignments span slots stored.leaves)]
        refine (follows_update hr hsteps.good hsteps' hext hid hreceives
          (hstored.mono hsteps.good hsteps'.keeps) hvoid).bind (hsteps'.adds (Session.frames_ne _))
          (Steps.refl hsteps'.good).keeps fun _ => ?_
        exact .done hsteps'.good (.refl hsteps'.good) fun σ _ => means_nothing hr σ sp
  | _ => cases hseq

theorem Stmt.Faithful.yield (hvalue : value.Faithful A decls p d n) (span : Span) :
    (Stmt.yield span value).Faithful A decls p d (n + 1) := by
  intro s s' sp v code hready hseq h hext
  rw [evalStmt]
  exact hvalue hready hseq h hext

theorem Stmt.Faithful.eval (hr : p.types.Regular) (hvalue : value.Faithful A decls p d n)
    (span : Span) : (Stmt.eval span value).Faithful A decls p d (n + 1) := by
  intro s s' sp v code hready hseq h hext
  simp only [lowerStmt, bind_eq_ok_iff, pure_eq_ok_iff, Prod.exists, Prod.mk.injEq] at h
  obtain ⟨code₁, _, s₁, hlower, ⟨rfl, rfl⟩, rfl⟩ := h
  obtain ⟨hsteps, -⟩ := Expr.lowers value hready.good hlower
  have hrefl : s₁.outline.Steps s₁.outline := .refl hsteps.good
  rw [evalStmt, ← append_nil code₁]
  refine (hvalue hready hseq hlower hext).bind (hsteps.adds s.frames_ne) hrefl.keeps fun _ => ?_
  exact .done hsteps.good hrefl fun σ _ => means_nothing hr σ sp

theorem Stmt.faithful (hr : p.types.Regular) (ih : ∀ k < n, ∀ e : Expr, e.Faithful A decls p d k)
    (stmt : Stmt) : stmt.Faithful A decls p d n := by
  cases n with
  | zero =>
    intro s s' sp v code _ _ _ _
    rw [evalStmt]
    exact .stuck
  | succ n =>
    have hbelow := ih n (Nat.lt_succ_self n)
    cases stmt with
    | bind span target value => exact Stmt.Faithful.bind hr (hbelow value) span target
    | set span target value => exact Stmt.Faithful.set hr (hbelow value) span target
    | yield span value => exact Stmt.Faithful.yield (hbelow value) span
    | ret span value => exact fun _ _ _ _ _ _ _ h => absurd h unsupported_ne_ok
    | eval span value => exact Stmt.Faithful.eval hr (hbelow value) span

/-- Only a `yield` gives the block a value. -/
theorem eq_of_not_yield {stmt : Stmt} {value : Value} (hy : stmt.isYield = false)
    (h : lowerStmt value stmt s = .ok (code, v) s') : v = value := by
  cases lowerStmt_cases h with
  | yield => cases hy
  | _ => rfl

theorem lowerStmts_follows (hr : p.types.Regular)
    (ih : ∀ k < n, ∀ e : Expr, e.Faithful A decls p d k) {stmts : List Stmt}
    (hready : Ready d s.outline) (hseq : Stmt.sequencedAll stmts = true)
    (h : lowerStmts (.void span) stmts s = .ok (code, v) s') (hext : s'.types.Extends p.types) :
    Follows A p p.types (fun _ => True) (evalStmts A decls n .nothing stmts) code s.outline s'.outline
      (fun content σ => Means A p.types σ v content) := by
  have hnil : ∀ {n : Nat} {o : Outline} {v : Value} {content : Content}, o.Good →
      Follows A p p.types (fun σ => Means A p.types σ v content) (evalStmts A decls n content [])
        [] o o (fun content σ => Means A p.types σ v content) := by
    intro n o v content hg
    cases n with
    | zero => rw [evalStmts]; exact .stuck
    | succ n => rw [evalStmts]; exact .done hg (.refl hg) fun σ hσ => hσ
  induction stmts generalizing n s code with
  | nil =>
    cases h
    exact (hnil hready.good).imp (fun σ _ => means_nothing hr σ span) fun _ _ h => h
  | cons stmt stmts ihs =>
    cases n with
    | zero => rw [evalStmts]; exact .stuck
    | succ n =>
      obtain ⟨c, v₁, s₁, cs, hhead, htail, rfl⟩ := lowerStmts_cons h
      simp only [Stmt.sequencedAll, Bool.and_eq_true_iff, Bool.or_eq_true_iff] at hseq
      obtain ⟨⟨hlast, hseqHead⟩, hseqTail⟩ := hseq
      obtain ⟨⟨new, hadds⟩, -, hv₁⟩ :=
        Stmt.lowers stmt hready.good (Value.ok_void hready.good span) hhead
      obtain ⟨⟨new', hadds'⟩, -⟩ :=
        lowerStmts_emits (fun stmt _ => Stmt.lowers stmt) hadds.good hv₁ htail
      have hbelow : ∀ k < n, ∀ e : Expr, e.Faithful A decls p d k :=
        fun k hk => ih k (Nat.lt_succ_of_lt hk)
      have hfirst := Stmt.faithful hr hbelow stmt hready hseqHead hhead
        (hadds'.grows.types.trans hext)
      rw [evalStmts]
      refine hfirst.bind hadds hadds'.keeps fun content => ?_
      rcases hlast with hempty | hyield
      · cases List.isEmpty_iff.1 hempty
        cases htail
        exact hnil hadds.good
      · obtain rfl := eq_of_not_yield (by simpa using hyield) hhead
        have hready₁ := hready.grow hadds.grows hadds.good
        -- Without a `yield` there is no value yet.
        by_cases hcontent : content = .nothing
        · subst hcontent
          exact (ihs hbelow hready₁ hseqTail htail).imp (fun _ _ => trivial) fun _ _ h => h
        · intro w m _ hm
          exact absurd ((means_void hr rfl).1 hm) hcontent

theorem Block.faithful (hr : p.types.Regular) (ih : ∀ k < n, ∀ e : Expr, e.Faithful A decls p d k)
    (b : Block) : b.Faithful A decls p d n := by
  intro s s' code v hready hseq h hext
  cases n with
  | zero => rw [evalBlock]; exact .stuck
  | succ n =>
    cases b with
    | mk span stmts =>
      obtain ⟨s₁, hlower, rfl⟩ := lowerBlock_cases h
      obtain ⟨⟨new, hadds⟩, -⟩ := lowerStmts_emits (s := s.enter) (fun stmt _ => Stmt.lowers stmt)
        hready.good.enter (Value.ok_void hready.good.enter span) hlower
      obtain ⟨hsteps, hkeeps, -⟩ := exit_adds hadds
      have hinner : Ready d s.enter.outline := ⟨hready.good.enter, hready.functions⟩
      have hstmts := lowerStmts_follows hr (fun k hk => ih k (Nat.lt_succ_of_lt hk)) hinner hseq hlower
        (hkeeps.grows.types.trans hext)
      rw [evalBlock]
      exact .within hadds hsteps hkeeps hstmts

theorem Expr.Faithful.block (hr : p.types.Regular) {body : Block}
    (hbody : body.Faithful A decls p d n) (span : Span) :
    (Expr.block span body).Faithful A decls p d (n + 1) := by
  intro s s' code v hready hseq h hext
  simp only [lowerExpr, bind_eq_ok_iff, pure_eq_ok_iff, Prod.exists, Prod.mk.injEq] at h
  obtain ⟨code₁, v₁, s₁, hlower, copy, v₂, s₂, hkeep, ⟨rfl, rfl⟩, rfl⟩ := h
  obtain ⟨hsteps, -, hv₁⟩ := Block.lowers body hready.good hlower
  obtain ⟨hsteps', hv, hcopy⟩ := keepValue_stored hsteps.good hv₁ hkeep
  rw [evalExpr]
  refine (hbody hready hseq hlower (hsteps'.grows.types.trans hext)).andThen (hsteps.adds s.frames_ne)
    hsteps'.keeps fun content => ?_
  rcases hcopy with ⟨-, rfl, rfl⟩ | ⟨hvoid, hstored⟩
  · exact .done hsteps.good hsteps' fun σ hσ => hσ
  · exact hstored.follows hr hsteps.good hsteps' hext hv₁ hv hvoid content

/-! ## Conditionals -/

/-- What a branch that may be missing means. -/
def MeansIn (A : Arithmetic) (g : TypeGraph) (σ : Store) : Option (Code × Value) → Content → Prop
  | none, content => content = .nothing
  | some (_, v), content => Means A g σ v content

theorem lowerElse_follows (ih : ∀ k < n, ∀ e : Expr, e.Faithful A decls p d k)
    {r : Option (Code × Value)} (hready : Ready d s.outline) (hseq : Expr.sequencedIn no = true)
    (h : lowerElse no s = .ok r s') (hext : s'.types.Extends p.types) :
    Follows A p p.types (fun _ => True) (evalIn A decls n no) ((r.map Prod.fst).getD []) s.outline
      s'.outline (fun content σ => MeansIn A p.types σ r content) := by
  cases n with
  | zero => rw [evalIn]; exact .stuck
  | succ n =>
    rcases lowerElse_cases h with ⟨rfl, rfl, rfl⟩ | ⟨e, c, w, rfl, rfl, hlower⟩ <;> rw [evalIn]
    · exact .done hready.good (.refl hready.good) fun σ _ => rfl
    · exact ih n (Nat.lt_succ_self n) e hready hseq hlower hext

/-- What follows an evaluation as a branch still does so when the branches are joined, and it means the
joined value. -/
theorem joinBranches_follows (hr : p.types.Regular) {yesCode noCode yesCode' : Code} {yes : Value}
    {no : Option (Code × Value)} (ho : o.frames ≠ []) (hs : o.Steps s.outline)
    (hyes : yes.Ok s.outline) (hno : ∀ c w, no = some (c, w) → w.Ok s.outline)
    (h : joinBranches (yesCode, yes) no span s = .ok (yesCode', noCode, v) s')
    (hext : s'.types.Extends p.types) {pre : Store → Prop} {e : Eval Content} :
    (Follows A p p.types pre e yesCode o s.outline (fun content σ => Means A p.types σ yes content) →
      Follows A p p.types pre e yesCode' o s'.outline (fun content σ => Means A p.types σ v content)) ∧
    (Follows A p p.types pre e ((no.map Prod.fst).getD []) o s.outline
        (fun content σ => MeansIn A p.types σ no content) →
      Follows A p p.types pre e noCode o s'.outline
        (fun content σ => Means A p.types σ v content)) := by
  obtain ⟨hsteps, hv, hjoin⟩ := joinBranches_stored hs.good hyes hno h
  rcases hjoin with ⟨hvoid, rfl, rfl, rfl, hvoids⟩ | ⟨hvoid, c, w, a, b, rfl, hvoid', rfl, rfl, ha, hb⟩
  · have hnothing : ∀ (w : Value) content σ, w.shape = .void → w.Ok s.outline →
        Means A p.types σ w content → Means A p.types σ (.void span) content := by
      intro w content σ hshape hw hm
      rw [(means_void hr (hw.void.1 hshape)).1 hm]
      exact means_nothing hr σ span
    refine ⟨fun hf => (hf.before hs.good hsteps).imp (fun _ h => h) fun content σ hm => ?_,
      fun hf => (hf.before hs.good hsteps).imp (fun _ h => h) fun content σ hm => ?_⟩
    · exact hnothing yes content σ hvoid hyes hm
    · match no with
      | none => exact (show content = .nothing from hm) ▸ means_nothing hr σ span
      | some (c, w) => exact hnothing w content σ (hvoids c w rfl) (hno c w rfl) hm
  · have hadds := hs.adds ho
    exact ⟨fun hf => hf.andThen hadds hsteps.keeps
        fun content => ha.follows hr hs.good hsteps hext hyes hv hvoid content,
      fun hf => hf.andThen hadds hsteps.keeps
        fun content => hb.follows hr hs.good hsteps hext (hno c w rfl) hv hvoid' content⟩

theorem Follows.branch {g : TypeGraph} {pre : Store → Prop} {α : Type} {e : Eval α}
    {post : α → Store → Prop} {o' : Outline} {test : Operand} {yes no : Code} {b : Bool}
    (span : Span) (htest : ∀ σ, pre σ → test.eval A σ = some (.datum (.bool b)))
    (h : Follows A p g pre e (if b then yes else no) o o' post) :
    Follows A p g pre e [.branch span test yes no] o o' post := by
  intro w m ht hp ending w' he
  obtain ⟨x, m', hruns, harrives⟩ := h w m ht hp ending w' he
  refine ⟨x, m', ?_, harrives⟩
  cases x with
  | done => exact .branch (htest _ hp) hruns (.nil m')
  | leave loop => exact .branchLeave (htest _ hp) hruns

section

variable (hr : p.types.Regular)

include hr

theorem Expr.Faithful.cond {test : Expr} (ih : ∀ k ≤ n, ∀ e : Expr, e.Faithful A decls p d k)
    (span : Span) : (Expr.cond span test yes no).Faithful A decls p d (n + 1) := by
  intro s s' code v hready hseq h hext
  simp only [Expr.sequenced, Bool.and_eq_true_iff] at hseq
  obtain ⟨⟨hseqTest, hseqYes⟩, hseqNo⟩ := hseq
  simp only [lowerExpr, bind_eq_ok_iff, pure_eq_ok_iff, Prod.exists, Prod.mk.injEq] at h
  obtain ⟨testCode, testValue, s₁, hlower, _, s₂, hmatch, operand, s₃, hscalar, yesCode, yesValue, s₄,
    hlowerYes, noResult, s₅, hlowerNo, yesCode', noCode, v', s₆, hjoin, ⟨rfl, rfl⟩, rfl⟩ := h
  obtain ⟨hsteps₁, -, hv₁⟩ := Expr.lowers test hready.good hlower
  obtain ⟨rfl, htype⟩ := eq_of_expectType hsteps₁.good hv₁ hsteps₁.good.types.boolean rfl hmatch
  obtain ⟨rfl, hshape⟩ := scalarOf_ok hscalar
  obtain ⟨hsteps₂, -, hv₂⟩ := Expr.lowers yes hsteps₁.good hlowerYes
  obtain ⟨hsteps₃, -, hv₃⟩ := lowerElse_emits (Expr.lowersIn no) hsteps₂.good hlowerNo
  have hv₂' := hv₂.mono hsteps₂.good hsteps₃.keeps
  obtain ⟨hsteps₄, -⟩ := joinBranches_stored hsteps₃.good hv₂' hv₃ hjoin
  have hext₅ := hsteps₄.grows.types.trans hext
  have hext₄ := hsteps₃.grows.types.trans hext₅
  have hready₃ := hready.steps hsteps₁
  have hyes := (ih n (Nat.le_refl n) yes hready₃ hseqYes hlowerYes hext₄).before hsteps₂.good hsteps₃
  have hno := (lowerElse_follows (fun k hk => ih k (Nat.le_of_lt hk)) (hready₃.steps hsteps₂) hseqNo
    hlowerNo hext₅).after hsteps₁.good hsteps₂
  have hbranches := hsteps₂.trans hsteps₃
  have hyes := (joinBranches_follows hr s₃.frames_ne hbranches hv₂' hv₃ hjoin hext).1 hyes
  have hno := (joinBranches_follows hr s₃.frames_ne hbranches hv₂' hv₃ hjoin hext).2 hno
  have hlast := hbranches.trans hsteps₄
  rw [evalExpr]
  refine (ih n (Nat.le_refl n) test hready hseqTest hlower (hsteps₂.grows.types.trans hext₄)).bind
    (hsteps₁.adds s.frames_ne) hlast.keeps fun content => ?_
  have htest : ∀ b σ, Means A p.types σ testValue (.datum (.bool b)) →
      operand.eval A σ = some (.datum (.bool b)) := by
    intro b σ hm
    obtain ⟨value, heq, heval⟩ := hm.datum hshape (htype ▸ hr.boolean) rfl (by rw [htype]; decide)
    cases heq
    exact heval
  split
  · exact .branch span (htest true) (hyes.imp (fun _ _ => trivial) fun _ _ h => h)
  · exact .branch span (htest false) (hno.imp (fun _ _ => trivial) fun _ _ h => h)
  · exact .stuck

/-- The branch that is taken with the payload of a full box. -/
theorem Unboxed.follows {target : Expr} {box : Value} {operand : Operand} {payload : TypeId}
    {id : VarId} {pattern : Pattern} {mode : BindMode} {slots : List VarId} {s₁ s₂ s₃ : Session}
    (h : Unboxed span box target payload operand id pattern mode slots s s₁ s₂ s₃)
    (hyes : yes.Faithful A decls p d n) (hready : Ready d s.outline) (hseq : yes.sequenced = true)
    (hlower : lowerExpr yes s₃ = .ok (code, v) s') (hext : s'.exit.types.Extends p.types)
    (content : Content) :
    Follows A p p.types
      (fun σ => operand.eval A σ = some (.box (some content.words)) ∧ p.types.Fits content payload)
      (Eval.within do
        Eval.modifyEnv (bindContent Env.declare target content)
        evalExpr A decls n yes)
      (.native pattern.span .unwrap [operand] slots :: code) s₁.outline s'.exit.outline
      (fun content σ => Means A p.types σ v content) := by
  obtain ⟨hsteps₁, hdeclared, hsteps, hfills⟩ := h.fills hready.good
  obtain ⟨new, hadds⟩ := h.adds hready.good
  have hready' : Ready d s₁.enter.outline := ⟨hsteps₁.good.enter, (hready.steps hsteps₁).functions⟩
  obtain ⟨hsteps', -⟩ := Expr.lowers yes hsteps.good hlower
  have hinner := hadds.trans (hsteps'.adds hadds.frames_ne)
  obtain ⟨hout, hkeeps, -⟩ := exit_adds hinner
  have hext₄ := hkeeps.grows.types.trans hext
  have hext₃ := hsteps'.grows.types.trans hext₄
  refine .within hinner hout hkeeps ?_
  rw [← singleton_append]
  refine (follows_declare hr hready'.good s₁.enter.frames_ne hdeclared hsteps hext₃ hfills
    fun m hm => ⟨hm.2, ?_⟩).bind hadds hsteps'.keeps fun _ => ?_
  · have hpayload := (h.isValue hready.good).extend (hsteps₁.grows.types.trans hadds.grows.types)
    obtain ⟨σ, hwrite⟩ := m.store.exists_writeAll
      (hfills.length_words hr hsteps.good hext₃ hpayload hm.2)
    have heval := Operand.evalAll_eq_some_iff.2 (.cons hm.1 .nil)
    exact ⟨_, .native heval rfl hwrite (.nil _), append_nil _, hwrite⟩
  · exact hyes (hready'.grow hadds.grows hsteps.good) hseq hlower hext₄

/-- Whether a box is full gets into a new variable. -/
theorem full_follows {box : Value} {operand : Operand} {payload : TypeId} {kind : TypeKind}
    (hg : s.outline.Good) (hsteps : s.outline.Steps s'.outline) (hv : box.Ok s.outline)
    (hshape : box.shape = .scalar operand) (hk : p.types.kind box.type = .ok kind)
    (hp : kind.payload? = some payload) (span : Span) (content : Option Content) :
    Follows A p p.types (fun σ => Means A p.types σ box (.box content)) (pure ())
      [.native span .full [operand] [s.outline.vars.length]] s.outline s'.outline
      (fun _ σ => σ s.outline.vars.length = some (.datum (.bool content.isSome)) ∧
        operand.eval A σ = some (.box (Content.wordsIn content)) ∧ p.types.FitsIn content payload) := by
  have hspares : Code.Spares s.outline s'.outline
      [.native span .full [operand] [s.outline.vars.length]] :=
    fun x hx => .inl (new_of_mem_singleton hx)
  refine .fresh hg hsteps hspares fun m hm => ?_
  have hwords := hm.words (TypeGraph.isScalar_of_payload hr hk hp).nonvoid
  rw [Value.leaves, hshape] at hwords
  have hfull : Primitive.run .full [.box (Content.wordsIn content)] =
      some ([.datum (.bool content.isSome)], []) := by
    cases content <;> rfl
  obtain ⟨m', hruns, hprinted, hdest⟩ :=
    runs_native (p := p) .full hwords hfull span s.outline.vars.length
  have hm' := hm.preserved hg hv hsteps.keeps (hruns.preserved hspares)
  obtain ⟨payload', heq, hfits⟩ := hm.fits.exists_box hr hk hp
  cases heq
  have heval := hm'.words (TypeGraph.isScalar_of_payload hr hk hp).nonvoid
  rw [Value.leaves, hshape, Operand.evalAll_eq_some_iff] at heval
  obtain _ | ⟨heval, -⟩ := heval
  exact ⟨m', hruns, hprinted, hdest, heval, hfits⟩

theorem Expr.Faithful.ifFull {boxed : Expr} (ih : ∀ k ≤ n, ∀ e : Expr, e.Faithful A decls p d k)
    (span : Span) (pattern : Expr) :
    (Expr.ifFull span boxed pattern yes no).Faithful A decls p d (n + 1) := by
  intro s s' code v hready hseq h hext
  simp only [Expr.sequenced, Bool.and_eq_true_iff] at hseq
  obtain ⟨⟨hseqBoxed, hseqYes⟩, hseqNo⟩ := hseq
  cases lowerExpr_cases h with
  | @ifFull _ _ _ _ _ _ s₂ s₃ _ _ _ _ _ _ _ yesCode' noCode box _ _ payload operand _ _ _ _ _ hlower
      hunboxed hlowerYes hlowerNo hjoin =>
    obtain ⟨hsteps₁, -, hv₁⟩ := Expr.lowers boxed hready.good hlower
    obtain ⟨-, hshape, kind, hk, hp⟩ := openBox_ok hunboxed.opens
    obtain ⟨hsteps₂, -⟩ := hunboxed.fills hsteps₁.good
    obtain ⟨hsteps₃, hv₃, -⟩ := hunboxed.emits (Expr.lowers yes) hsteps₁.good hv₁ hlowerYes
    obtain ⟨rfl, -⟩ := newTyped_ok hunboxed.tests
    obtain ⟨hsteps₄, -, hv₄⟩ := lowerElse_emits (Expr.lowersIn no) hsteps₃.good hlowerNo
    have hv₃' := hv₃.mono hsteps₃.good hsteps₄.keeps
    obtain ⟨hsteps₅, -⟩ := joinBranches_stored hsteps₄.good hv₃' hv₄ hjoin
    have hext₅ := hsteps₅.grows.types.trans hext
    have hext₄ := hsteps₄.grows.types.trans hext₅
    have hext₃ := hsteps₃.grows.types.trans hext₄
    have hready₂ := hready.steps hsteps₁
    have hready₃ := hready₂.steps hsteps₂
    have hlast := (hsteps₃.trans hsteps₄).trans hsteps₅
    have hkind : p.types.kind box.type = .ok kind := hext₃ _ _ (hsteps₂.grows.types _ _ hk)
    rw [evalExpr]
    refine (ih n (Nat.le_refl n) boxed hready hseqBoxed hlower (hsteps₂.grows.types.trans hext₃)).bind
      (hsteps₁.adds s.frames_ne) (hsteps₂.trans hlast).keeps fun content => ?_
    have hbranches := hsteps₃.trans hsteps₄
    have hfull := fun content =>
      full_follows (A := A) hr hsteps₁.good hsteps₂ hv₁ hshape hkind hp span content
    -- Either branch runs after the test was stored.
    have hthen : ∀ {content : Option Content} {e : Eval Content},
        Follows A p p.types (fun σ => σ s₂.outline.vars.length = some (.datum (.bool content.isSome)) ∧
            operand.eval A σ = some (.box (Content.wordsIn content)) ∧ p.types.FitsIn content payload)
          e [.branch span (.var s₂.outline.vars.length) yesCode' noCode] s₃.outline s'.outline
          (fun content σ => Means A p.types σ v content) →
        Follows A p p.types (fun σ => Means A p.types σ box (.box content)) e
          [.native span .full [operand] [s₂.outline.vars.length],
            .branch span (.var s₂.outline.vars.length) yesCode' noCode] s₂.outline s'.outline
          (fun content σ => Means A p.types σ v content) :=
      fun h => (hfull _).bind (hsteps₂.adds s₂.frames_ne) hlast.keeps fun _ => h
    split
    · next payload' =>
      refine hthen (.branch span (b := true) (fun σ hσ => hσ.1) ?_)
      refine (joinBranches_follows hr s₃.frames_ne hbranches hv₃' hv₄ hjoin hext).1 ?_
      refine .before (.imp (hunboxed.follows hr (ih n (Nat.le_refl n) yes) hready₂ hseqYes hlowerYes
        hext₄ payload') ?_ fun _ _ h => h) hsteps₃.good hsteps₄
      exact fun σ hσ => hσ.2
    · refine hthen (.branch span (b := false) (fun σ hσ => hσ.1) ?_)
      refine (joinBranches_follows hr s₃.frames_ne hbranches hv₃' hv₄ hjoin hext).2 ?_
      refine .after hsteps₂.good hsteps₃ (.imp (lowerElse_follows (fun k hk => ih k (Nat.le_of_lt hk))
        (hready₃.steps hsteps₃) hseqNo hlowerNo hext₅) (fun _ _ => trivial) fun _ _ h => h)
    · exact .stuck

/-! ## Loops -/

theorem leaveWith_follows {label : Option String} {w : Value} (hg : s.outline.Good) (hv : v.Ok s.outline)
    (h : leaveWith label v span s = .ok (code, w) s') (hext : s'.types.Extends p.types)
    (content : Content) {post : Content → Store → Prop} :
    Follows A p p.types (fun σ => Means A p.types σ v content)
      (fun w => some (.leave label content, w)) code s.outline s'.outline post := by
  intro world m ht hm ending w' he
  cases he
  obtain ⟨-, hemits, -⟩ := leaveWith_emits hg hv h
  obtain ⟨hsteps, -, ref, stores, htarget, ⟨t, htype, halike⟩, rfl, hstores⟩ := leaveWith_takes hg hv h
  have hfits : p.types.Fits content t := hm.fits.alike hr (halike.symm.extend hext)
  have hv' := hv.mono hg hsteps.keeps
  obtain ⟨m', hruns, hprinted, hholds⟩ : ∃ m', Runs A p stores m .done m' ∧
      m'.printed = m.printed ∧ Holds p.types s'.outline m'.store ref.var content := by
    rcases hstores with ⟨hvoid, rfl⟩ | ⟨hvoid, rfl⟩
    · rw [hv'.void.1 hvoid] at halike
      exact ⟨m, .nil m, rfl, t, htype, hfits,
        .inl (halike.eq_of_base_right hsteps.good.types.void rfl)⟩
    · have hreceives : s'.outline.Receives ref.var v.type (s'.outline.slots ref.var) :=
        ⟨⟨t, htype, halike⟩, rfl⟩
      obtain ⟨l, hmem⟩ := mem_loops_of_target htarget
      have hparallel := parallel_of_disjoint fun x hx hread =>
        (hv'.reads x hread).1 (reserved_of_mem_slots (hsteps.loops ▸ hmem) hx)
      have hlen := (hreceives.takes hsteps.good).length_eq.trans (hv'.typed hvoid).length_eq.symm
      obtain ⟨σ, hwrite, hruns⟩ := runs_assignments (p := p) span hparallel hlen
        (hm.words fun ht => hvoid (hv.void.2 ht))
      exact ⟨_, hruns, rfl, t, htype, hfits,
        .inr (Store.writeAll_has hwrite (hsteps.good.slots_nodup _))⟩
  have hall := hruns.append (.leave span ref.loop [] m')
  have hscoped := ht.names.preserved hg hsteps.keeps (hall.preserved (hemits.spares rfl))
  exact ⟨.leave ref.loop, m', hall, hprinted.trans ht.printed, ⟨_, suffix_refl _, hscoped⟩, ref,
    htarget, rfl, hholds⟩

theorem Expr.Faithful.leave {value : Option Expr} (ih : ∀ k < n, ∀ e : Expr, e.Faithful A decls p d k)
    (span : Span) (label : Option String) :
    (Expr.leave span label value).Faithful A decls p d (n + 1) := by
  intro s s' code v hready hseq h hext
  cases n with
  | zero =>
    rw [evalExpr, evalIn]
    exact .stuck
  | succ n =>
    rw [evalExpr]
    cases lowerExpr_cases h with
    | leave hleave =>
      rw [evalIn]
      exact (leaveWith_follows hr hready.good (Value.ok_void hready.good span) hleave hext .nothing).imp
        (fun σ _ => means_nothing hr σ span) fun _ _ h => h
    | @leaveWith _ _ e _ _ _ _ _ _ _ hlower hleave =>
      rw [evalIn]
      obtain ⟨hsteps, -, hv₁⟩ := Expr.lowers e hready.good hlower
      obtain ⟨hsteps', -⟩ := leaveWith_emits hsteps.good hv₁ hleave
      exact (ih n (Nat.lt_succ_self n) e hready hseq hlower (hsteps'.grows.types.trans hext)).bind
        (hsteps.adds s.frames_ne) hsteps'.keeps
        fun content => leaveWith_follows hr hsteps.good hv₁ hleave hext content

end

/-- A block leaves no names behind, however it ends. -/
theorem length_env_evalBlock {b : Block} {w w' : World} {ending : Ending Content}
    (h : evalBlock A decls n b w = some (ending, w')) : w'.env.length ≤ w.env.length := by
  cases n with
  | zero => rw [evalBlock] at h; cases h
  | succ n =>
    cases b with
    | mk span stmts =>
      rw [evalBlock] at h
      obtain ⟨⟨_, w₁⟩, -, heq⟩ := Option.map_eq_some_iff.1 h
      cases heq
      simp only [length_drop]
      omega

namespace Outline

variable {o : Outline} {label target : Option String}

theorem loops_openLoop (o : Outline) (label : Option String) :
    (o.enter.openLoop label).loops = (label, ⟨o.nextLoop, o.vars.length⟩) :: o.loops := by
  rw [loops, frames_openLoop rfl]
  rfl

/-- What a loop catches is meant for it. -/
theorem target_of_catches (h : catches label target = true) :
    (o.enter.openLoop label).target target = some ⟨o.nextLoop, o.vars.length⟩ := by
  cases target with
  | none => rw [Outline.target, loops_openLoop]; rfl
  | some l =>
    have hl : label = some l := by simpa [catches, eq_comm] using h
    rw [Outline.target, loops_openLoop, find?_cons_of_pos (by simpa using hl)]
    rfl

/-- What a loop does not catch is meant for a loop around it. -/
theorem target_of_not_catches (h : catches label target = false) :
    (o.enter.openLoop label).target target = o.target target := by
  cases target with
  | none => simp [catches] at h
  | some l =>
    have hl : label ≠ some l := by simpa [catches, eq_comm] using h
    rw [Outline.target, loops_openLoop, find?_cons_of_neg (by simpa using hl)]
    rfl

end Outline

theorem Expr.Faithful.loop {body : Block} (hbody : body.Faithful A decls p d n)
    {label : Option String} (hself : (Expr.loop span label body).Faithful A decls p d n) :
    (Expr.loop span label body).Faithful A decls p d (n + 1) := by
  intro s s' code v hready hseq h hext
  have hagain := hself hready hseq h hext
  have hg := hready.good
  cases lowerExpr_cases h with
  | @loop _ _ _ _ s₁ _ _ _ _ _ hloop hlower hvalue =>
    obtain ⟨-, hread⟩ := loopBody_emits (Block.lowers body) hg hloop hlower
    obtain ⟨rfl, hopen, hgood, -, hsteps, hkeeps, -⟩ :=
      loopBody_opens (Block.lowers body) hg hloop hlower
    obtain ⟨-, -, hread⟩ := loopValue_isRead hsteps.good hread hvalue
    obtain ⟨hstepsBody, -⟩ := Block.lowers body hgood hlower
    have hgrows : s.outline.Grows s₁.outline := by
      rw [hopen]
      exact (Grows.reframe _ _).trans (.openLoop _ _)
    have hnames : s₁.outline.names = s.outline.names := by
      rw [hopen]
      exact names_openLoop _ _
    have hbody := hbody (hready.grow hgrows hgood) hseq hlower (hkeeps.grows.types.trans hext)
    rw [evalExpr]
    intro w m ht _ ending w' he
    have ht' : Tracks p.types s₁.outline w m := ⟨ht.printed, hnames ▸ ht.names.mono hg hgrows hgood⟩
    cases hb : evalBlock A decls n body w with
    | none => simp only [hb] at he; cases he
    | some result =>
      obtain ⟨ending₁, w₁⟩ := result
      obtain ⟨x, m₁, hruns, harrives⟩ := hbody w m ht' trivial ending₁ w₁ hb
      cases ending₁ with
      | value content =>
        simp only [hb] at he
        -- The body came to its end: the loop goes on from there.
        obtain ⟨rfl, ht₁, -⟩ := harrives
        have hscoped := ht₁.names
        rw [hstepsBody.names, hnames] at hscoped
        have hback := ht.names.back hg (hgrows.trans hstepsBody.grows) hstepsBody.good hscoped
        obtain ⟨x, m', hruns', harrives⟩ := hagain w₁ m₁ ⟨ht₁.printed, hback⟩ trivial ending w' he
        exact ⟨x, m', .again hruns hruns', harrives⟩
      | leave target content =>
        simp only [hb] at he
        obtain ⟨hprinted, ⟨env, hsuffix, hscoped⟩, ref, htarget, rfl, hholds⟩ := harrives
        rw [hnames] at hscoped
        -- The body leaves as many variables in scope as it found.
        have henv : env = w₁.env := by
          refine hsuffix.eq_of_length_le ?_
          rw [← hscoped.length_eq, ht.names.length_eq]
          exact length_env_evalBlock hb
        subst henv
        have hscoped' := hscoped.mono hstepsBody.good hkeeps.grows hkeeps.good
        have hholds' := hholds.mono hstepsBody.good hkeeps.grows hkeeps.good
        rw [hopen] at htarget
        -- The jump ends here, or it goes to a loop further out.
        split at he
        · next hcatch =>
          cases he
          cases (target_of_catches hcatch).symm.trans htarget
          refine ⟨.done, m₁, .loopDone hruns (.nil m₁), rfl, ⟨hprinted, ?_⟩, ?_⟩
          · rw [hsteps.names]
            exact hscoped'
          · rcases hread with ⟨huntyped, -⟩ | hread
            · obtain ⟨type, htype, -⟩ := hholds'
              cases huntyped.symm.trans htype
            · exact hread.means hholds'
        · next hcatch =>
          cases he
          rw [target_of_not_catches (by simpa using hcatch)] at htarget
          obtain ⟨l, hmem⟩ := mem_loops_of_target htarget
          have hne : ref.loop ≠ s.outline.nextLoop := Nat.ne_of_lt (hg.loops l ref hmem).1
          exact ⟨.leave ref.loop, m₁, .loopLeave hruns hne, hprinted,
            ⟨_, suffix_refl _, hscoped'⟩, ref, htarget, rfl, hholds'⟩

end SlotCode
