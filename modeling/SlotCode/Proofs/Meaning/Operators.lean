import SlotCode.Proofs.Lowering.Expressions
import SlotCode.Proofs.Meaning.Follows

/-!
# Operators follow their evaluation

The code of an expression follows its evaluation if it does so wherever the expression is lowered
(`Expr.Faithful`).  This module has the expressions that compute from their parts: literals, tuples,
operators, comparisons and boxes.  The parts are evaluated with a smaller bound, so they may be taken
to be faithful.
-/

namespace SlotCode

variable {o o' : Outline} {g : TypeGraph} {σ σ' : Store} {s' s : Session} {type : TypeId}
  {span : Span} {es : List Expr} {code : Code} {operands : List Operand} {ids : List VarId}
  {contents : List Content} {cs : List Comparison} {data : List Datum} {id : VarId}

open Outline Lower List TypeGraph

/-- The outline is one in which the bodies of functions are lowered. -/
structure Ready (d o : Outline) : Prop where
  good : o.Good
  functions : o.functions = d.functions

theorem Ready.grow {d : Outline} (h : Ready d o) (hgrows : o.Grows o') (hg : o'.Good) :
    Ready d o' :=
  ⟨hg, hgrows.functions.trans h.functions⟩

theorem Ready.steps {d : Outline} (h : Ready d o) (hs : o.Steps o') : Ready d o' :=
  h.grow hs.grows hs.good

section

variable (A : Arithmetic) (decls : List FnDecl) (p : Program) (d : Outline) (n : Nat)

def Expr.Faithful (e : Expr) : Prop :=
  ∀ ⦃s s' : Session⦄ ⦃code : Code⦄ ⦃v : Value⦄, Ready d s.outline → e.sequenced = true →
    lowerExpr e s = .ok (code, v) s' → s'.types.Extends p.types →
    Follows A p p.types (fun _ => True) (evalExpr A decls n e) code s.outline s'.outline
      (fun content σ => Means A p.types σ v content)

end

variable {A : Arithmetic} {decls : List FnDecl} {p : Program} {d : Outline} {n : Nat}

/-! ## Names and literals -/

theorem Expr.Faithful.var (span : Span) (name : String) :
    (Expr.var span name).Faithful A decls p d (n + 1) := by
  intro s s' code v hr _ h _
  have hg := hr.good
  cases lowerExpr_cases h with
  | var hid hvalue =>
    obtain ⟨-, -, hread⟩ := valueOf_isRead hg (readable_of_name hg (mem_names_of_lookup hid)) hvalue
    intro w m ht _ ending w' he
    rw [evalExpr] at he
    obtain ⟨content, hcontent, heq⟩ := Option.map_eq_some_iff.1 he
    cases heq
    exact ⟨.done, m, .nil m, rfl, ht, hread.means (ht.names.lookup hid hcontent)⟩

theorem means_scalar {operand : Operand} {value : Datum}
    (htype : type = .integer ∨ type = .boolean ∨ type = .string)
    (h : operand.eval A σ = some (.datum value)) (span : Span) :
    Means A g σ (.scalar type span operand) (.datum value) where
  fits := htype
  words _ := Operand.evalAll_eq_some_iff.2 (.cons h .nil)

theorem Expr.Faithful.int (span : Span) (value : Int) :
    (Expr.int span value).Faithful A decls p d (n + 1) := by
  intro s s' code v hr _ h _
  cases h
  exact .done hr.good (.refl hr.good) fun σ _ => means_scalar (.inl rfl) rfl span

theorem Expr.Faithful.bool (span : Span) (value : Bool) :
    (Expr.bool span value).Faithful A decls p d (n + 1) := by
  intro s s' code v hr _ h _
  cases h
  exact .done hr.good (.refl hr.good) fun σ _ => means_scalar (.inr (.inl rfl)) rfl span

theorem Expr.Faithful.str (span : Span) (value : String) :
    (Expr.str span value).Faithful A decls p d (n + 1) := by
  intro s s' code v hr _ h _
  cases h
  exact .done hr.good (.refl hr.good) fun σ _ => means_scalar (.inr (.inr rfl)) rfl span

/-! ## Lists of expressions -/

theorem evalAll_zero (es : List Expr) : evalAll A decls 0 es = Eval.stuck := by
  rw [evalAll]

theorem Follows.nil {post : List Content → Store → Prop} (hg : o.Good) (hpost : ∀ σ, post [] σ) :
    Follows A p p.types (fun _ => True) (evalAll A decls n []) [] o o post := by
  cases n with
  | zero => exact evalAll_zero (A := A) _ ▸ .stuck
  | succ n =>
    rw [evalAll]
    exact .done hg (.refl hg) fun σ _ => hpost σ

/-- An expression before others: what is said of it is not touched by their code. -/
theorem Follows.cons {e : Expr} {codes : Code} {o₁ : Outline} {new : List (String × VarId)}
    {head : Content → Store → Prop} {tail post : List Content → Store → Prop} (hadds : o.Adds o₁ new)
    (hk : o₁.Steps o')
    (h : ∀ k < n, Follows A p p.types (fun _ => True) (evalExpr A decls k e) code o o₁ head)
    (hs : ∀ k < n, Follows A p p.types (fun _ => True) (evalAll A decls k es) codes o₁ o' tail)
    (hspares : Code.Spares o₁ o' codes)
    (hhead : ∀ c σ σ', Preserved o₁ o' σ σ' → head c σ → head c σ')
    (hpost : ∀ c cs σ, head c σ → tail cs σ → post (c :: cs) σ) :
    Follows A p p.types (fun _ => True) (evalAll A decls n (e :: es)) (code ++ codes) o o' post := by
  cases n with
  | zero => exact evalAll_zero (A := A) _ ▸ .stuck
  | succ n =>
    rw [evalAll]
    refine (h n n.lt_succ_self).bind hadds hk.keeps fun c => ?_
    rw [← append_nil codes]
    have hboth := ((hs n n.lt_succ_self).frame hspares (hhead c)).imp (fun σ hσ => ⟨trivial, hσ⟩)
      fun _ _ h => h
    refine hboth.bind (hk.adds hadds.frames_ne) (Steps.refl hk.good).keeps fun cs => ?_
    exact .done hk.good (.refl hk.good) fun σ hσ => hpost c cs σ hσ.2 hσ.1

theorem and_of_sequencedAll {e : Expr} (h : Expr.sequencedAll (e :: es) = true) :
    e.sequenced = true ∧ Expr.sequencedAll es = true := by
  simpa [Expr.sequencedAll] using h

theorem lowerItems_follows (ih : ∀ k < n, ∀ e : Expr, e.Faithful A decls p d k)
    {values : List Value} (hr : Ready d s.outline) (hfree : Expr.setFreeAll es = true)
    (hseq : Expr.sequencedAll es = true) (h : lowerItems es s = .ok (code, values) s')
    (hext : s'.types.Extends p.types) :
    Follows A p p.types (fun _ => True) (evalAll A decls n es) code s.outline s'.outline
      (fun contents σ => Forall₂ (Means A p.types σ) values contents) := by
  induction es generalizing n s code values with
  | nil =>
    cases h
    exact .nil hr.good fun σ => .nil
  | cons e es ihes =>
    obtain ⟨c, v, s₁, cs, vs, hhead, htail, rfl, rfl⟩ := lowerItems_cons h
    obtain ⟨hsteps, -, hv⟩ := Expr.lowers e hr.good hhead
    obtain ⟨hsteps', hemits', -⟩ := lowerItems_emits (fun e _ => Expr.lowers e) hsteps.good htail
    refine .cons (hsteps.adds s.frames_ne) hsteps' (fun k hk => ih k hk e hr
        (and_of_sequencedAll hseq).1 hhead (hsteps'.grows.types.trans hext))
      (fun k hk => ihes (fun j hj => ih j (hj.trans hk)) (hr.steps hsteps) (and_of_setFreeAll hfree).2
        (and_of_sequencedAll hseq).2 htail)
      (hemits'.spares (and_of_setFreeAll hfree).2) ?_ fun c cs σ hc hcs => .cons hc hcs
    exact fun c σ σ' hp hm => hm.preserved hsteps.good hv hsteps'.keeps hp

/-! ## Tuples -/

/-- The words of a tuple are those of its items, one after the other. -/
theorem means_tuple {values : List Value} (h : Forall₂ (Means A g σ) values contents)
    (hvoid : ∀ v ∈ values, v.type ≠ .void)
    (hk : g.kind type = .ok (.tuple (values.map Value.type))) (span : Span) :
    Means A g σ (.tuple type span (values.flatMap Value.leaves)) (.tuple contents) where
  fits := by
    refine ⟨_, hk, fitsEach_iff.2 ?_⟩
    rw [forall₂_map_right_iff]
    exact h.flip.imp fun _ _ hm => hm.fits
  words := by
    rintro -
    clear hk
    show Operand.evalAll A σ (values.flatMap Value.leaves) = some (Content.wordsAll contents)
    induction h with
    | nil => rfl
    | cons hm _ ih =>
      rw [flatMap_cons, Content.wordsAll]
      exact Operand.evalAll_append (hm.words (hvoid _ mem_cons_self))
        (ih fun v hv => hvoid v (mem_cons_of_mem _ hv))

/-- The items keep their values until all have been computed. -/
theorem Expr.Faithful.tuple {items : List Expr} (ih : ∀ k ≤ n, ∀ e : Expr, e.Faithful A decls p d k)
    (span : Span) : (Expr.tuple span items).Faithful A decls p d (n + 1) := by
  intro s s' code v hr hseq h hext
  rw [Expr.sequenced, Bool.and_eq_true_iff] at hseq
  cases lowerExpr_cases h with
  | @tuple _ _ _ s₁ _ _ values _ hlower htuple =>
    obtain ⟨hsteps, -, hvalues⟩ := lowerItems_emits (fun e _ => Expr.lowers e) hr.good hlower
    obtain ⟨hsteps', -⟩ := tupleOf_value hsteps.good hvalues htuple
    obtain ⟨hvoid, hs₂, rfl⟩ := tupleOf_ok htuple
    have hkind : p.types.kind s₁.types.size = .ok (.tuple (values.map Value.type)) := by
      apply hext
      rw [hs₂]
      exact (kind_add _ _ _ _).trans (if_pos rfl)
    have hitems := lowerItems_follows (fun k hk => ih k (Nat.le_of_lt hk)) hr hseq.1 hseq.2 hlower
      (hsteps'.grows.types.trans hext)
    rw [evalExpr, ← append_nil code]
    refine hitems.bind (hsteps.adds s.frames_ne) hsteps'.keeps fun contents => ?_
    refine .done hsteps.good hsteps' fun σ hm => means_tuple hm (fun w hw => ?_) hkind span
    exact fun htype => hvoid w hw ((hvalues w hw).void.2 htype)

/-! ## Arithmetic -/

/-- The operands stand for contents that are data. -/
def StandFor (A : Arithmetic) (σ : Store) (operands : List Operand) (contents : List Content) : Prop :=
  ∃ data : List Datum, contents = data.map .datum ∧
    Operand.evalAll A σ operands = some (data.map .datum)

theorem StandFor.cons {operand : Operand} {value : Datum}
    (h : operand.eval A σ = some (.datum value)) (hs : StandFor A σ operands contents) :
    StandFor A σ (operand :: operands) (.datum value :: contents) := by
  obtain ⟨data, rfl, hdata⟩ := hs
  refine ⟨value :: data, rfl, ?_⟩
  rw [Operand.evalAll_eq_some_iff] at hdata ⊢
  exact .cons h hdata

theorem mapM_map_of_inverse {α β : Type} (f : β → Option α) (f' : α → β)
    (h : ∀ a, f (f' a) = some a) (as : List α) : (as.map f').mapM f = some as := by
  induction as with
  | nil => rfl
  | cons a as ih => simp [h, ih]

/-- Arithmetic on operands is arithmetic on what they stand for. -/
theorem StandFor.eval_arith (h : StandFor A σ operands contents)
    (hd : contents.mapM Content.datum? = some data) (op : ArithOp) (type : TypeId) :
    (Operand.arith op type operands).eval A σ = some (.datum (A op data)) := by
  obtain ⟨data', rfl, heval⟩ := h
  cases (mapM_map_of_inverse Content.datum? .datum (fun _ => rfl) data').symm.trans hd
  have hwords := mapM_map_of_inverse Word.datum? .datum (fun _ => rfl) data
  rw [Operand.eval, heval]
  simp only [Option.bind_eq_bind, Option.bind_some, hwords]
  rfl

theorem lowerOperands_follows (hp : p.types.Regular) {op : ArithOp}
    (ih : ∀ k < n, ∀ e : Expr, e.Faithful A decls p d k) (hr : Ready d s.outline)
    (hfree : Expr.setFreeAll es = true) (hseq : Expr.sequencedAll es = true)
    (h : lowerOperands op.type span es s = .ok (code, operands) s')
    (hext : s'.types.Extends p.types) :
    Follows A p p.types (fun _ => True) (evalAll A decls n es) code s.outline s'.outline
      (fun contents σ => StandFor A σ operands contents) := by
  induction es generalizing n s code operands with
  | nil =>
    cases h
    exact .nil hr.good fun σ => ⟨[], rfl, rfl⟩
  | cons e es ihes =>
    obtain ⟨c, v, s₁, operand, cs, rest, hhead, hmatch, hshape, htail, rfl, rfl⟩ := lowerOperands_cons h
    obtain ⟨hsteps, -, hv⟩ := Expr.lowers e hr.good hhead
    obtain ⟨kind, hk, hb⟩ := kind_opType hsteps.good.types op
    obtain ⟨-, htype⟩ := eq_of_expectType hsteps.good hv hk hb hmatch
    obtain ⟨hsteps', hemits', -⟩ := lowerOperands_emits (fun e _ => Expr.lowers e) hsteps.good htail
    refine .cons (hsteps.adds s.frames_ne) hsteps' (fun k hk => ih k hk e hr
        (and_of_sequencedAll hseq).1 hhead (hsteps'.grows.types.trans hext))
      (fun k hk => ihes (fun j hj => ih j (hj.trans hk)) (hr.steps hsteps) (and_of_setFreeAll hfree).2
        (and_of_sequencedAll hseq).2 htail)
      (hemits'.spares (and_of_setFreeAll hfree).2) ?_ fun c cs σ hc hcs => ?_
    · exact fun c σ σ' hpres hm => hm.preserved hsteps.good hv hsteps'.keeps hpres
    · obtain ⟨kind, hk, hb⟩ := kind_opType hp op
      obtain ⟨value, rfl, heval⟩ := hc.datum hshape (htype ▸ hk) hb
        (htype ▸ (isScalar_opType hp op).nonvoid)
      exact hcs.cons heval

theorem Expr.Faithful.arith (hp : p.types.Regular) {operands : List Expr}
    (ih : ∀ k ≤ n, ∀ e : Expr, e.Faithful A decls p d k) (span : Span) (op : ArithOp) :
    (Expr.arith span op operands).Faithful A decls p d (n + 1) := by
  intro s s' code v hr hseq h hext
  rw [Expr.sequenced, Bool.and_eq_true_iff] at hseq
  cases lowerExpr_cases h with
  | arith hlower =>
    obtain ⟨hsteps, -⟩ := lowerOperands_emits (fun e _ => Expr.lowers e) hr.good hlower
    have hrefl : s'.outline.Steps s'.outline := .refl hsteps.good
    have hoperands := lowerOperands_follows hp (fun k hk => ih k (Nat.le_of_lt hk)) hr hseq.1 hseq.2
      hlower hext
    rw [evalExpr, ← append_nil code]
    refine hoperands.bind (hsteps.adds s.frames_ne) hrefl.keeps fun contents => ?_
    refine .bind_ofOption fun data hdata => .done hsteps.good hrefl fun σ hσ => ?_
    exact means_scalar (by cases op <;> simp [ArithOp.type]) (hσ.eval_arith hdata op _) span

/-! ## Comparisons -/

/-- The variables hold the integers. -/
def HoldInts (σ : Store) (ids : List VarId) (ints : List Int) : Prop :=
  σ.Has ids (ints.map fun i => .datum (.int i))

/-- Only the variables that hold them matter. -/
theorem HoldInts.congr {ints : List Int} (h : HoldInts σ ids ints) (heq : ∀ id ∈ ids, σ' id = σ id) :
    HoldInts σ' ids ints :=
  Store.Has.congr h heq

theorem StandFor.holdInts {ints : List Int} (h : StandFor A σ (ids.map .var) contents)
    (hints : contents.mapM Content.int? = some ints) : HoldInts σ ids ints := by
  obtain ⟨data, rfl, heval⟩ := h
  rw [Operand.evalAll_vars] at heval
  have hdata : data = ints.map .int := by
    clear heval
    induction data generalizing ints with
    | nil => cases hints; rfl
    | cons value data ih =>
      simp only [map_cons, mapM_cons, Option.bind_eq_bind, Option.bind_eq_some_iff,
        Option.pure_def, Option.some.injEq] at hints
      obtain ⟨i, hi, is, his, rfl⟩ := hints
      cases value <;> cases hi
      rw [ih his, map_cons]
  rw [hdata, map_map] at heval
  exact heval

theorem Lower.HoldsInteger.preserved (h : HoldsInteger o id) (hg : o.Good) (hk : o.Keeps o')
    (hp : Preserved o o' σ σ') : σ' id = σ id := by
  have hlt := lt_of_typeOf h.type
  exact hp id hlt fun hres => h.plain.1 (hres.of_grows hg hk.grows hk.loops hlt)

theorem holdInteger_follows (hp : p.types.Regular) {v : Value} {content : Content}
    (hg : s.outline.Good) (htype : v.type = .integer) (hsteps : s.outline.Steps s'.outline)
    (hemits : Emits true s.outline s'.outline code) (h : holdInteger v span s = .ok (code, id) s') :
    Follows A p p.types (fun σ => Means A p.types σ v content) (pure content) code s.outline s'.outline
      (fun content σ => ∃ value, content = .datum value ∧ σ id = some (.datum value)) := by
  have hdatum : ∀ {σ operand}, v.shape = .scalar operand → Means A p.types σ v content →
      ∃ value, content = .datum value ∧ operand.eval A σ = some (.datum value) :=
    fun hshape hm => hm.datum hshape (htype ▸ hp.integer) rfl (htype ▸ nofun)
  refine .fresh hg hsteps (hemits.spares rfl) fun m hm => ?_
  rcases holdInteger_ok h with ⟨hshape, rfl, -⟩ | ⟨operand, hshape, -, rfl, -⟩
  · exact ⟨m, .nil m, rfl, hdatum hshape hm⟩
  · obtain ⟨value, rfl, heval⟩ := hdatum hshape hm
    exact ⟨_, .assign heval (.nil _), rfl, value, rfl, Store.write_self _ _ _⟩

theorem lowerGroup_follows (hp : p.types.Regular)
    (ih : ∀ k < n, ∀ e : Expr, e.Faithful A decls p d k) (hr : Ready d s.outline)
    (hfree : Expr.setFreeAll es = true) (hseq : Expr.sequencedAll es = true)
    (h : lowerGroup span es s = .ok (code, ids) s') (hext : s'.types.Extends p.types) :
    Follows A p p.types (fun _ => True) (evalAll A decls n es) code s.outline s'.outline
      (fun contents σ => StandFor A σ (ids.map .var) contents) := by
  induction es generalizing n s code ids with
  | nil =>
    cases h
    exact .nil hr.good fun σ => ⟨[], rfl, rfl⟩
  | cons e es ihes =>
    obtain ⟨c, v, s₁, holding, id, s₂, cs, rest, hhead, hmatch, hhold, htail, rfl, rfl⟩ :=
      lowerGroup_cons h
    obtain ⟨hsteps, -, hv⟩ := Expr.lowers e hr.good hhead
    obtain ⟨-, htype⟩ := eq_of_expectType hsteps.good hv hsteps.good.types.integer rfl hmatch
    obtain ⟨hsteps₁, hemits₁, hid⟩ := holdInteger_holds hsteps.good hv htype hhold
    obtain ⟨hsteps', hemits', -⟩ := lowerGroup_emits (fun e _ => Expr.lowers e) hsteps₁.good htail
    have hheld := fun k (hk : k < n) => (ih k hk e hr (and_of_sequencedAll hseq).1 hhead
      ((hsteps₁.trans hsteps').grows.types.trans hext)).andThen (hsteps.adds s.frames_ne) hsteps₁.keeps
        fun c => holdInteger_follows hp hsteps.good htype hsteps₁ hemits₁ hhold
    refine .cons ((hsteps.trans hsteps₁).adds s.frames_ne) hsteps' hheld
      (fun k hk => ihes (fun j hj => ih j (hj.trans hk)) (hr.steps (hsteps.trans hsteps₁))
        (and_of_setFreeAll hfree).2 (and_of_sequencedAll hseq).2 htail)
      (hemits'.spares (and_of_setFreeAll hfree).2) ?_ ?_
    · rintro c σ σ' hpres ⟨value, rfl, hσ⟩
      exact ⟨value, rfl, (hid.preserved hsteps₁.good hsteps'.keeps hpres).trans hσ⟩
    · rintro _ cs σ ⟨value, rfl, hσ⟩ hcs
      exact hcs.cons hσ

/-- In the store, the comparisons have these outcomes. -/
def Compare (σ : Store) (cs : List Comparison) (data : List Datum) : Prop :=
  List.Forall₂ (fun c value => ∃ a b, σ c.left = some (.datum (.int a)) ∧
    σ c.right = some (.datum (.int b)) ∧ value = .bool (c.op.holds a b)) cs data

theorem Compare.pairs {left right : List VarId} {as bs : List Int} (op : CmpOp) (span : Span)
    (hl : HoldInts σ left as) (hr : HoldInts σ right bs) :
    Compare σ (comparePairs left op span right)
      (as.flatMap fun a => bs.map fun b => .bool (op.holds a b)) := by
  unfold HoldInts Store.Has at hl hr
  rw [forall₂_map_right_iff] at hl hr
  refine forall₂_flatMap hl fun l _ a ha => ?_
  rw [forall₂_map_left_iff, forall₂_map_right_iff]
  exact hr.imp fun r b hb => ⟨a, b, ha, hb, rfl⟩

theorem Compare.congr (h : Compare σ cs data)
    (heq : ∀ c ∈ cs, σ' c.left = σ c.left ∧ σ' c.right = σ c.right) : Compare σ' cs data := by
  induction h with
  | nil => exact .nil
  | cons hc _ ih =>
    obtain ⟨a, b, ha, hb, hvalue⟩ := hc
    have hsame := heq _ mem_cons_self
    exact .cons ⟨a, b, hsame.1.trans ha, hsame.2.trans hb, hvalue⟩
      (ih fun c hc => heq c (mem_cons_of_mem _ hc))

/-- The comparisons of a chain are run after all groups. -/
theorem lowerLinks_follows (hp : p.types.Regular) {left : List VarId} {before : List Comparison}
    {links : List Link} (ih : ∀ k < n, ∀ e : Expr, e.Faithful A decls p d k) {as : List Int}
    {bs : List Datum} (hr : Ready d s.outline) (hleft : ∀ id ∈ left, HoldsInteger s.outline id)
    (hbefore : ComparesIntegers s.outline before) (hfree : Link.setFreeAll links = true)
    (hseq : Link.sequencedAll links = true)
    (h : lowerLinks span left before links s = .ok (code, cs) s') (hext : s'.types.Extends p.types) :
    Follows A p p.types (fun σ => HoldInts σ left as ∧ Compare σ before bs)
      (evalLinks A decls n links) code s.outline s'.outline
      (fun rest σ => Compare σ cs (bs ++ outcomes as rest)) := by
  induction n generalizing links s left before code cs as bs with
  | zero =>
    rw [evalLinks]
    exact .stuck
  | succ n ihn =>
    rcases lowerLinks_cases h with ⟨rfl, rfl, rfl, rfl⟩ |
      ⟨opSpan, op, group, rest, codeGroup, right, s₁, codeRest, rfl, hgroup, hrest, rfl⟩
    · rw [evalLinks]
      refine .done hr.good (.refl hr.good) fun σ hσ => ?_
      rw [outcomes, append_nil]
      exact hσ.2
    · simp only [Link.setFreeAll, Link.sequencedAll, Bool.and_eq_true_iff] at hfree hseq
      have hlowers : ∀ e ∈ group, e.Lowers := fun e _ => Expr.lowers e
      obtain ⟨hsteps, hemits, hright⟩ := lowerGroup_emits hlowers hr.good hgroup
      have hpairs : ComparesIntegers s₁.outline (before ++ comparePairs left op opSpan right) :=
        hbefore.next hr.good hsteps.keeps hleft hright
      obtain ⟨hsteps', -⟩ := lowerLinks_emits (Link.lowersAll rest) hsteps.good hright hpairs hrest
      have hfirst := lowerGroup_follows hp (fun k hk => ih k (Nat.lt_succ_of_lt hk)) hr hfree.1 hseq.1
        hgroup (hsteps'.grows.types.trans hext)
      -- The group does not touch what came before it.
      have hframed := (hfirst.frame (R := fun σ => HoldInts σ left as ∧ Compare σ before bs)
        (hemits.spares hfree.1) fun σ σ' hpres hσ =>
          ⟨hσ.1.congr fun id hid => (hleft id hid).preserved hr.good hsteps.keeps hpres,
            hσ.2.congr fun c hc => ⟨(hbefore c hc).1.preserved hr.good hsteps.keeps hpres,
              (hbefore c hc).2.preserved hr.good hsteps.keeps hpres⟩⟩).imp
        (fun σ hσ => ⟨trivial, hσ⟩) fun _ _ h => h
      rw [evalLinks]
      refine hframed.bind (hsteps.adds s.frames_ne) hsteps'.keeps fun contents => ?_
      refine .bind_ofOption fun ints hints => ?_
      rw [← append_nil codeRest]
      have hlinks : Follows A p p.types
          (fun σ => HoldInts σ right ints ∧ Compare σ (before ++ comparePairs left op opSpan right)
            (bs ++ as.flatMap fun a => ints.map fun b => .bool (op.holds a b))) _ _ _ _ _ :=
        ihn (fun k hk => ih k (Nat.lt_succ_of_lt hk)) (hr.steps hsteps) hright hpairs hfree.2 hseq.2
          hrest
      refine (hlinks.imp ?_ fun _ _ h => h).bind (hsteps'.adds s₁.frames_ne)
        (Steps.refl hsteps'.good).keeps fun outs => ?_
      · rintro σ ⟨hstand, hl, hb⟩
        have hints := hstand.holdInts hints
        exact ⟨hints, rel_append hb (Compare.pairs op opSpan hl hints)⟩
      · refine .done hsteps'.good (.refl hsteps'.good) fun σ hσ => ?_
        rw [outcomes, ← append_assoc]
        exact hσ

/-- The outcomes get into variables of their own. -/
theorem runs_comparisonCode {k : VarId} {m : Machine} (h : Compare m.store cs data)
    (hlt : ∀ c ∈ cs, c.left < k ∧ c.right < k) :
    ∃ σ, Runs A p (comparisonCode cs k) m .done { m with store := σ } ∧
      (∀ x < k, σ x = m.store x) ∧ σ.Has (List.range' k cs.length) (data.map .datum) := by
  induction cs generalizing data k m with
  | nil =>
    cases h
    exact ⟨m.store, .nil m, fun _ _ => rfl, .nil⟩
  | cons c cs ih =>
    obtain _ | ⟨⟨a, b, ha, hb, rfl⟩, hcs⟩ := h
    rename_i data
    have hcs : Compare m.store cs data := hcs
    have hothers : ∀ x < k, m.store.write k (.datum (.bool (c.op.holds a b))) x = m.store x :=
      fun x hx => Store.write_of_ne _ _ (Nat.ne_of_lt hx)
    have heval : (Operand.compare c.left c.op c.right).eval A m.store =
        some (.datum (.bool (c.op.holds a b))) := by
      rw [Operand.eval, ha, hb]
    have hlt' := fun c' hc' => hlt c' (mem_cons_of_mem c hc')
    obtain ⟨σ, hruns, hold, hnew⟩ :=
      ih (k := k + 1) (m := { m with store := m.store.write k (.datum (.bool (c.op.holds a b))) })
        (hcs.congr fun c' hc' => (hlt' c' hc').imp (hothers _) (hothers _))
        fun c' hc' => (hlt' c' hc').imp Nat.lt_succ_of_lt Nat.lt_succ_of_lt
    refine ⟨σ, .assign heval hruns, fun x hx => ?_, .cons ?_ hnew⟩
    · exact (hold x (Nat.lt_succ_of_lt hx)).trans (hothers x hx)
    · exact (hold k (Nat.lt_succ_self k)).trans (Store.write_self _ _ _)

theorem Expr.Faithful.compare (hp : p.types.Regular) {chain : List Link}
    (ih : ∀ k ≤ n, ∀ e : Expr, e.Faithful A decls p d k) (span : Span) :
    (Expr.compare span chain).Faithful A decls p d (n + 1) := by
  intro s s' code v hr hseq h hext
  rw [Expr.sequenced, Bool.and_eq_true_iff] at hseq
  cases lowerExpr_cases h with
  | @compare _ group links _ s₁ _ _ _ _ _ left _ _ hgroup hlinks hrun =>
    simp only [Link.setFreeAll, Link.sequencedAll, Bool.and_eq_true_iff] at hseq
    obtain ⟨⟨hfreeGroup, hfreeLinks⟩, hseqGroup, hseqLinks⟩ := hseq
    have hlowers : ∀ e ∈ group, e.Lowers := fun e _ => Expr.lowers e
    obtain ⟨hsteps, -, hleft⟩ := lowerGroup_emits hlowers hr.good hgroup
    obtain ⟨hsteps₁, -, hcs⟩ :=
      lowerLinks_emits (Link.lowersAll links) hsteps.good hleft (forall_mem_nil _) hlinks
    obtain ⟨hsteps₂, hemits₂, -⟩ := runComparisons_tests hsteps₁.good hcs hrun
    have hbelow : ∀ k < n, ∀ e : Expr, e.Faithful A decls p d k := fun k hk => ih k (Nat.le_of_lt hk)
    have hfirst := lowerGroup_follows hp hbelow hr hfreeGroup hseqGroup hgroup
      ((hsteps₁.trans hsteps₂).grows.types.trans hext)
    rw [evalExpr, append_assoc]
    refine hfirst.bind (hsteps.adds s.frames_ne) (hsteps₁.trans hsteps₂).keeps fun contents => ?_
    refine .bind_ofOption fun ints hints => ?_
    have hrest : Follows A p p.types (fun σ => HoldInts σ left ints ∧ Compare σ [] []) _ _ _ _ _ :=
      lowerLinks_follows hp hbelow (hr.steps hsteps) hleft (forall_mem_nil _) hfreeLinks hseqLinks
        hlinks (hsteps₂.grows.types.trans hext)
    refine (hrest.imp (fun σ hσ => ⟨hσ.holdInts hints, .nil⟩) fun _ _ h => h).bind
      (hsteps₁.adds s₁.frames_ne) hsteps₂.keeps fun rest => ?_
    refine .fresh hsteps₁.good hsteps₂ (hemits₂.spares rfl) fun m hm => ?_
    obtain ⟨-, rfl, rfl⟩ := runComparisons_ok hrun
    obtain ⟨σ, hruns, -, hhas⟩ := runs_comparisonCode hm
      fun c hc => ⟨lt_of_typeOf (hcs c hc).1.type, lt_of_typeOf (hcs c hc).2.type⟩
    refine ⟨_, hruns, rfl, means_scalar (.inr (.inl rfl)) ?_ span⟩
    have hstand : StandFor A σ _ _ := ⟨_, rfl, Operand.evalAll_vars.2 hhas⟩
    exact hstand.eval_arith (mapM_map_of_inverse Content.datum? .datum (fun _ => rfl) _) .and _

/-! ## Boxes -/

theorem means_box {inner : TypeId} {kind : TypeKind} {payload : Option Content}
    (hk : g.kind type = .ok kind) (hp : kind.payload? = some inner) (hfits : g.FitsIn payload inner)
    (h : σ id = some (.box (Content.wordsIn payload))) (span : Span) :
    Means A g σ (.scalar type span (.var id)) (.box payload) where
  fits := ⟨kind, inner, hk, hp, hfits⟩
  words _ := Operand.evalAll_eq_some_iff.2 (.cons h .nil)

/-- A primitive with one output and nothing to print. -/
theorem runs_native (primitive : Primitive) {inputs : List Operand} {m : Machine} {args : List Word}
    {word : Word} (hi : Operand.evalAll A m.store inputs = some args)
    (hp : primitive.run args = some ([word], [])) (span : Span) (dest : VarId) :
    ∃ m', Runs A p [.native span primitive inputs [dest]] m .done m' ∧ m'.printed = m.printed ∧
      m'.store dest = some word :=
  ⟨_, .native hi hp rfl (.nil _), append_nil _, Store.write_self _ _ _⟩

theorem Expr.Faithful.wrap {payload : Expr} (hpayload : payload.Faithful A decls p d n) (span : Span) :
    (Expr.wrap span payload).Faithful A decls p d (n + 1) := by
  intro s s' code v hr hseq h hext
  cases lowerExpr_cases h with
  | @wrap _ _ _ s₁ _ _ _ v₁ _ hlower hwrap =>
    obtain ⟨hsteps, -, hv⟩ := Expr.lowers payload hr.good hlower
    obtain ⟨hsteps', hemits', -⟩ := wrapValue_value hsteps.good hv hwrap
    obtain ⟨hvoid, hs₂, rfl, rfl⟩ := wrapValue_ok hwrap
    have hkind : p.types.kind s₁.types.size = .ok (.box v₁.type) := by
      apply hext
      have htypes : s'.types = (s₁.types.add (.box v₁.type) (some span)).2 := congrArg Outline.types hs₂
      rw [htypes]
      exact (kind_add _ _ _ _).trans (if_pos rfl)
    rw [evalExpr]
    refine (hpayload hr hseq hlower (hsteps'.grows.types.trans hext)).bind (hsteps.adds s.frames_ne)
      hsteps'.keeps fun content => ?_
    refine .fresh hsteps.good hsteps' (hemits'.spares rfl) fun m hm => ?_
    have hwords := hm.words fun htype => hvoid (hv.void.2 htype)
    obtain ⟨m', hruns, hprinted, hdest⟩ :=
      runs_native (p := p) .wrap hwords rfl span s₁.outline.vars.length
    have hfits : p.types.FitsIn (some content) v₁.type := hm.fits
    exact ⟨m', hruns, hprinted, means_box hkind rfl hfits hdest span⟩

/-- An empty box in a new variable. -/
theorem emptyBox_follows {inner : TypeId} {kind : TypeKind} (hg : s.outline.Good)
    (hsteps : s.outline.Steps s'.outline) (hk : p.types.kind type = .ok kind)
    (hp : kind.payload? = some inner) :
    Follows A p p.types (fun _ => True) (pure (.box none))
      [.native span .wrapEmpty [] [s.outline.vars.length]] s.outline s'.outline
      (fun content σ => Means A p.types σ (.scalar type span (.var s.outline.vars.length)) content) := by
  have hspares : Code.Spares s.outline s'.outline
      [.native span .wrapEmpty [] [s.outline.vars.length]] := by
    intro x hx
    exact .inl (new_of_mem_singleton hx)
  refine .fresh hg hsteps hspares fun m _ => ?_
  have hnone : Operand.evalAll A m.store [] = some [] := rfl
  obtain ⟨m', hruns, hprinted, hdest⟩ :=
    runs_native (p := p) .wrapEmpty hnone rfl span s.outline.vars.length
  have hfits : p.types.FitsIn none inner := trivial
  exact ⟨m', hruns, hprinted, means_box hk hp hfits hdest span⟩

theorem Expr.Faithful.wrapEmpty (span : Span) (payload : TypeExpr) :
    (Expr.wrapEmpty span payload).Faithful A decls p d (n + 1) := by
  intro s s' code v hr _ h hext
  obtain ⟨hsteps, -⟩ := wrapNothing_value hr.good h
  obtain ⟨hs', rfl, rfl⟩ := wrapNothing_ok h
  have htypes : s'.types = _ := congrArg Outline.types hs'
  have hkind : s'.types.kind (s.types.resolve payload).2.size =
      .ok (.box (s.types.resolve payload).1) := by
    rw [htypes]
    exact (kind_add _ _ _ _).trans (if_pos rfl)
  rw [evalExpr]
  exact emptyBox_follows hr.good hsteps (hext _ _ hkind) rfl

theorem Expr.Faithful.consEmpty (span : Span) (item : TypeExpr) :
    (Expr.consEmpty span item).Faithful A decls p d (n + 1) := by
  intro s s' code v hr _ h hext
  obtain ⟨hsteps, -⟩ := consNothing_value hr.good h
  obtain ⟨hs', rfl, rfl⟩ := consNothing_ok h
  have htypes : s'.types = _ := congrArg Outline.types hs'
  have hkind : s'.types.kind (s.types.resolve item).2.size =
      .ok (.list (s.types.resolve item).1 ((s.types.resolve item).2.size + 1)) := by
    rw [htypes]
    exact (kind_addList _ _ _ _).trans (if_pos rfl)
  rw [evalExpr]
  exact emptyBox_follows hr.good hsteps (hext _ _ hkind) rfl

/-- An item before a list. -/
theorem fits_cons (hg : g.Regular) {item payload headType : TypeId} {head tail : Content}
    (hk : g.kind type = .ok (.list item payload)) (hitem : g.Alike false item headType)
    (hhead : g.Fits head headType) (htail : g.Fits tail type) :
    g.FitsIn (some (.tuple [head, tail])) payload := by
  obtain ⟨first, hpair, hfirst⟩ := hg.lists _ _ _ hk
  exact ⟨_, hpair, hhead.alike hg (hitem.symm.trans hfirst), htail, trivial⟩

theorem Expr.Faithful.cons (hp : p.types.Regular) {head tail : Expr}
    (hhead : head.Faithful A decls p d n) (htail : tail.Faithful A decls p d n) (span : Span) :
    (Expr.cons span head tail).Faithful A decls p d (n + 1) := by
  intro s s' code v hr hseq h hext
  simp only [Expr.sequenced, Bool.and_eq_true_iff] at hseq
  obtain ⟨⟨⟨-, hfree⟩, hseqHead⟩, hseqTail⟩ := hseq
  cases lowerExpr_cases h with
  | @cons _ _ _ _ s₁ s₂ _ _ _ _ v₁ v₂ _ hlower₁ hlower₂ hcons =>
    obtain ⟨hsteps₁, -, hv₁⟩ := Expr.lowers head hr.good hlower₁
    obtain ⟨hsteps₂, hemits₂, hv₂⟩ := Expr.lowers tail hsteps₁.good hlower₂
    have hv₁' := hv₁.mono hsteps₁.good hsteps₂.keeps
    obtain ⟨hsteps₃, hemits₃, -⟩ := consValue_value hsteps₂.good hv₁' hv₂ hcons
    obtain ⟨item, payload, operand, after, hk, hvoid, hmatch, hshape, -, rfl, rfl⟩ := consValue_ok hcons
    have hext₂ := hsteps₃.grows.types.trans hext
    have hkind : p.types.kind v₂.type = .ok (.list item payload) := hext₂ _ _ hk
    have hitem : p.types.Alike false item v₁.type := by
      have hlt := hsteps₂.good.types.toSound.closed _ _ ⟨_, hk, mem_cons_self⟩
      exact (alike_of_matchTypes hsteps₂.good.types.toSound hlt hv₁'.value.lt_size hmatch).extend hext₂
    rw [evalExpr, append_assoc]
    refine (hhead hr hseqHead hlower₁ (hsteps₂.grows.types.trans hext₂)).bind (hsteps₁.adds s.frames_ne)
      (hsteps₂.trans hsteps₃).keeps fun c => ?_
    have hboth := (htail (hr.steps hsteps₁) hseqTail hlower₂ hext₂).frame (hemits₂.spares hfree)
      fun σ σ' hpres (hm : Means A p.types σ v₁ c) => hm.preserved hsteps₁.good hv₁ hsteps₂.keeps hpres
    refine (hboth.imp (fun σ hσ => ⟨trivial, hσ⟩) fun _ _ h => h).bind (hsteps₂.adds s₁.frames_ne)
      hsteps₃.keeps fun c' => ?_
    refine .fresh hsteps₂.good hsteps₃ (hemits₃.spares rfl) fun m hboth => ?_
    obtain ⟨hm', hm⟩ := hboth
    have hleaves : v₂.leaves = [operand] := by rw [Value.leaves, hshape]
    have hnonvoid : v₂.type ≠ .void := (isScalar_of_payload hp hkind rfl).nonvoid
    have hwords := Operand.evalAll_append (hm.words fun htype => hvoid (hv₁.void.2 htype))
      (hleaves ▸ hm'.words hnonvoid)
    obtain ⟨m', hruns, hprinted, hdest⟩ :=
      runs_native (p := p) .wrap hwords rfl span s₂.outline.vars.length
    refine ⟨m', hruns, hprinted, means_box hkind rfl (fits_cons hp hkind hitem hm.fits hm'.fits) ?_ span⟩
    rw [hdest, Content.wordsIn, Content.words, Content.wordsAll, Content.wordsAll, Content.wordsAll,
      append_nil]

end SlotCode
