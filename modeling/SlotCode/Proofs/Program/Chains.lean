import SlotCode.Proofs.Program.Inference

/-!
# Comparison chains

How chains of literals and integer variables are lowered.  Their members are put into variables (`Held`):
a literal into one of its own, while a variable is used as it is.  The comparisons (`Compared`) read these
variables, so a group that is compared with both of its neighbours is not loaded twice.

Such a chain is lowered exactly if its links alternate and it compares something; otherwise it is refused
as malformed (`lowerExpr_compared`).
-/

namespace SlotCode

variable {find : String → Option VarId} {k : VarId} {es : List Expr} {code : Code}
  {ids : List VarId} {α β : Type} {span : Span}

open Outline Lower List

/-! ## Chains -/

namespace Link

/-- The members of all groups of a chain, from left to right. -/
def members : List Link → List Expr
  | [] => []
  | .operands group :: links => group ++ members links
  | .operator _ _ :: links => members links

/-- A group, and after it any number of operators with one group each. -/
inductive Alternates : List Link → Prop where
  | last (group : List Expr) : Alternates [.operands group]
  | more (group : List Expr) (span : Span) (op : CmpOp) {links : List Link} (h : Alternates links) :
      Alternates (.operands group :: .operator span op :: links)

/-- The operator stands in the chain with one group to its left and one to its right. -/
def Between (chain : List Link) (left : List Expr) (op : CmpOp) (right : List Expr) : Prop :=
  ∃ before span after, chain = before ++ .operands left :: .operator span op :: .operands right :: after

/-- The chain alternates, and it compares something. -/
def Compares (chain : List Link) : Prop :=
  Alternates chain ∧ ∃ left op right, Between chain left op right ∧ left ≠ [] ∧ right ≠ []

variable {group next left right : List Expr} {span : Span} {op op' : CmpOp} {links : List Link}

theorem not_between_last : ¬ Between [.operands group] left op right := by
  rintro ⟨before, span, after, heq⟩
  cases before with
  | nil => cases heq
  | cons link before =>
    obtain ⟨-, heq⟩ := cons_eq_cons.1 heq
    cases before <;> cases heq

theorem between_cons :
    Between (.operands group :: .operator span op :: .operands next :: links) left op' right ↔
      left = group ∧ op' = op ∧ right = next ∨ Between (.operands next :: links) left op' right := by
  constructor
  · rintro ⟨before, span', after, heq⟩
    rcases before with _ | ⟨link, _ | ⟨link', before⟩⟩
    · cases heq
      exact .inl ⟨rfl, rfl, rfl⟩
    · cases heq
    · exact .inr ⟨before, span', after, (cons_eq_cons.1 (cons_eq_cons.1 heq).2).2⟩
  · rintro (⟨rfl, rfl, rfl⟩ | ⟨before, span', after, heq⟩)
    · exact ⟨[], span, links, rfl⟩
    · exact ⟨.operands group :: .operator span op :: before, span', after, by rw [heq]; rfl⟩

theorem alternates_cons :
    Alternates (.operands group :: .operator span op :: links) ↔ Alternates links := by
  refine ⟨fun h => ?_, .more group span op⟩
  cases h with
  | more _ _ _ h => exact h

end Link

/-! ## Members -/

/-- A literal, or the name of a variable that holds an integer. -/
inductive Expr.IsInteger (o : Outline) : Expr → Prop where
  | int (span : Span) (value : Int) : IsInteger o (.int span value)
  | var (span : Span) {name : String} {id : VarId} (hname : o.lookup name = some id)
      (htype : o.typeOf id = some .integer) : IsInteger o (.var span name)

theorem Expr.IsInteger.push {o : Outline} {e : Expr} (h : e.IsInteger o) (infos : List VarInfo) :
    e.IsInteger (o.push infos) := by
  cases h with
  | int span value => exact .int span value
  | var span hname htype => exact .var span hname ((Grows.push o infos).typeOf htype)

/-- The members of a group and the variables that hold them.  The code loads each literal into a variable
of its own, with numbers from `k` on; a name stands for its variable, which needs no code. -/
inductive Held (find : String → Option VarId) : VarId → List Expr → Code → List VarId → Prop where
  | nil (k : VarId) : Held find k [] [] []
  | int {k : VarId} {es : List Expr} {code : Code} {ids : List VarId} (span : Span) (value : Int)
      (h : Held find (k + 1) es code ids) :
      Held find k (.int span value :: es) (.assign span k (.int value) :: code) (k :: ids)
  | var {k id : VarId} {es : List Expr} {code : Code} {ids : List VarId} (span : Span) {name : String}
      (hname : find name = some id) (h : Held find k es code ids) :
      Held find k (.var span name :: es) code (id :: ids)

theorem Held.append {es' : List Expr} {code' : Code} {ids' : List VarId}
    (h : Held find k es code ids) (h' : Held find (k + code.length) es' code' ids') :
    Held find k (es ++ es') (code ++ code') (ids ++ ids') := by
  induction h with
  | nil k => exact h'
  | int span value _ ih =>
    refine .int span value (ih ?_)
    rw [Nat.add_assoc, Nat.add_comm 1]
    exact h'
  | var span hname _ ih => exact .var span hname (ih h')

/-- The links after a group that `left` holds: the code that loads them, the variables that hold them,
and all comparisons between neighbours. -/
inductive Compared (find : String → Option VarId) :
    VarId → List VarId → List Link → Code → List VarId → List Comparison → Prop where
  | nil (k : VarId) (left : List VarId) : Compared find k left [] [] [] []
  | cons {k : VarId} {left right ids : List VarId} {group : List Expr} {links : List Link}
      {code codes : Code} {cs : List Comparison} (span : Span) (op : CmpOp)
      (hgroup : Held find k group code right)
      (h : Compared find (k + code.length) right links codes ids cs) :
      Compared find k left (.operator span op :: .operands group :: links) (code ++ codes) (right ++ ids)
        (comparePairs left op span right ++ cs)

/-! ## Lowering -/

namespace Lower

variable {s : Session}

theorem expectType_same {type : TypeId} (hg : s.outline.Good) (htype : type < s.types.size)
    {v : Value} (hv : v.type = type) (span : Span) : expectType type v span s = .ok () s := by
  have haccepts := (TypeGraph.accepts_iff_alike hg.types.toSound htype htype span v.span none).2
    (.refl _ _ _)
  obtain ⟨after, hmatch⟩ := haccepts
  have hmatch : s.types.matchTypes (some type) type span v.span none = .ok () after := hmatch
  simp only [expectType, requireMatch, hv, hmatch]

theorem valueOf_integer (hg : s.outline.Good) {id : VarId}
    (htype : s.outline.typeOf id = some .integer) (span : Span) :
    valueOf id span s = .ok (.scalar .integer span (.var id)) s := by
  obtain ⟨v, s', h⟩ := valueOf_completes htype span
  obtain ⟨rfl, info, type, hinfo, hinfoType, rfl⟩ := valueOf_ok h
  obtain ⟨info', hinfo', htype'⟩ := typeOf_eq_some_iff.1 htype
  cases hinfo.symm.trans hinfo'
  cases hinfoType.symm.trans htype'
  have hreal : info.leaves = none := by
    cases hleaves : info.leaves with
    | none => rfl
    | some ls =>
      obtain ⟨items, hk⟩ := ((hg.vars id info hinfo).shaped _ htype').1 (by rw [hleaves]; rfl)
      cases hg.types.integer.symm.trans hk
  rw [h, hreal]
  rfl

theorem lowerGroup_cons_ok {e : Expr} {s₁ s₂ s' : Session} {c holding cs : Code} {v : Value}
    {id : VarId} {rest : List VarId} (hhead : lowerExpr e s = .ok (c, v) s₁)
    (htype : expectType .integer v span s₁ = .ok () s₁)
    (hhold : holdInteger v e.span s₁ = .ok (holding, id) s₂)
    (htail : lowerGroup span es s₂ = .ok (cs, rest) s') :
    lowerGroup span (e :: es) s = .ok (c ++ holding ++ cs, id :: rest) s' := by
  rw [lowerGroup]
  simp only [bind_eq_ok_iff, pure_eq_ok_iff]
  exact ⟨_, s₁, hhead, (), s₁, htype, _, s₂, hhold, _, s', htail, rfl, rfl⟩

/-- Groups of literals and variables are lowered, and a literal gets a new variable. -/
theorem lowerGroup_held (hg : s.outline.Good) (hes : ∀ e ∈ es, e.IsInteger s.outline) (span : Span) :
    ∃ code ids s', lowerGroup span es s = .ok (code, ids) s' ∧
      Held s.outline.lookup s.outline.vars.length es code ids ∧
      s'.outline = s.outline.push (List.replicate code.length (.temp .integer)) := by
  induction es generalizing s with
  | nil => exact ⟨[], [], s, rfl, .nil _, by simp [Outline.push]⟩
  | cons e es ih =>
    have hsize : TypeId.integer < s.types.size := TypeGraph.lt_size_of_kind hg.types.integer
    have hrest := fun e he => hes e (mem_cons_of_mem _ he)
    cases hes e mem_cons_self with
    | int sp value =>
      obtain ⟨id, s₁, hnew⟩ : ∃ id s₁, newTyped .integer sp s = .ok id s₁ := ⟨_, _, rfl⟩
      obtain ⟨rfl, hs₁⟩ := newTyped_ok hnew
      have hhold : holdInteger (.scalar .integer sp (.int value)) sp s =
          .ok ([.assign sp s.outline.vars.length (.int value)], s.outline.vars.length) s₁ :=
        bind_eq_ok_iff.2 ⟨_, _, hnew, rfl⟩
      have hg₁ : s₁.outline.Good := hs₁ ▸ (Steps.temps hg (TypeGraph.isScalar_integer hg.types) 1).good
      obtain ⟨code, ids, s', hlower, hheld, hs'⟩ :=
        ih hg₁ fun e he => hs₁ ▸ (hrest e he).push [.temp .integer]
      have hlen : s₁.outline.vars.length = s.outline.vars.length + 1 := by
        rw [hs₁]
        simp [Outline.push]
      have hhead : lowerExpr (.int sp value) s = .ok ([], .scalar .integer sp (.int value)) s := rfl
      have hcons := lowerGroup_cons_ok hhead (expectType_same hg hsize rfl span) hhold hlower
      refine ⟨.assign sp s.outline.vars.length (.int value) :: code, s.outline.vars.length :: ids, s',
        hcons, .int sp value ?_, ?_⟩
      · rw [hlen, hs₁] at hheld
        exact hheld
      · rw [hs', hs₁]
        simp [Outline.push, replicate_succ]
    | @var sp name id hname htype =>
      have hlookup : s.scope.lookup name sp = .ok id := by
        rw [Scope.lookup, lookup_eq, hname]
      have hhead : lowerExpr (.var sp name) s = .ok ([], .scalar .integer sp (.var id)) s := by
        rw [lowerExpr]
        simp only [bind_eq_ok_iff, search_eq_ok_iff, pure_eq_ok_iff]
        exact ⟨id, s, ⟨hlookup, rfl⟩, _, s, valueOf_integer hg htype sp, rfl, rfl⟩
      obtain ⟨code, ids, s', hlower, hheld, hs'⟩ := ih hg hrest
      exact ⟨code, id :: ids, s',
        lowerGroup_cons_ok hhead (expectType_same hg hsize rfl span) rfl hlower,
        .var sp hname hheld, hs'⟩

/-- The step refuses a chain that is not well formed. -/
def Malformed {α : Type} (span : Span) (x : Lower α) (s : Session) : Prop :=
  ∃ reason s', x s = .error (.error ⟨.malformedComparison reason, span⟩) s'

theorem Malformed.bind {x : Lower α} {f : α → Lower β} {a : α} {s₁ : Session} (hx : x s = .ok a s₁)
    (h : Malformed span (f a) s₁) : Malformed span (x >>= f) s := by
  obtain ⟨reason, s', h⟩ := h
  exact ⟨reason, s', bind_eq_error_iff.2 (.inr ⟨a, s₁, hx, h⟩)⟩

theorem Malformed.bind_left {x : Lower α} {f : α → Lower β} (h : Malformed span x s) :
    Malformed span (x >>= f) s := by
  obtain ⟨reason, s', h⟩ := h
  exact ⟨reason, s', bind_eq_error_iff.2 (.inl h)⟩

/-- The links after a group.  They are lowered if they go on with the alternation and if there is anything
to compare, before them or in them. -/
theorem lowerLinks_compared {links : List Link} (hg : s.outline.Good)
    (hlinks : ∀ e ∈ Link.members links, e.IsInteger s.outline) (span : Span) (left : List VarId)
    (before : List Comparison) (group : List Expr) :
    ¬ Link.Alternates (.operands group :: links) ∧ Malformed span (lowerLinks span left before links) s ∨
      Link.Alternates (.operands group :: links) ∧ ∃ code ids cs,
        Compared s.outline.lookup s.outline.vars.length left links code ids cs ∧
        (before ++ cs = [] ∧ Malformed span (lowerLinks span left before links) s ∨
          before ++ cs ≠ [] ∧ ∃ s', lowerLinks span left before links s = .ok (code, before ++ cs) s' ∧
            s'.outline = s.outline.push (List.replicate code.length (.temp .integer))) := by
  induction links using Link.induction generalizing s left before group with
  | nil =>
    refine .inr ⟨.last group, [], [], [], .nil _ _, ?_⟩
    rw [lowerLinks, append_nil]
    cases before with
    | nil => exact .inl ⟨rfl, _, _, rfl⟩
    | cons c cs => exact .inr ⟨cons_ne_nil c cs, s, rfl, by simp [Outline.push]⟩
  | operands next links =>
    refine .inl ⟨fun h => ?_, _, _, rfl⟩
    cases h
  | last sp op =>
    refine .inl ⟨fun h => ?_, _, _, rfl⟩
    cases Link.alternates_cons.1 h
  | twice sp op sp' op' links =>
    refine .inl ⟨fun h => ?_, _, _, rfl⟩
    cases Link.alternates_cons.1 h
  | pair sp op next links ih =>
    obtain ⟨code, right, s₁, hlower, hheld, hs₁⟩ :=
      lowerGroup_held hg (fun e he => hlinks e (mem_append_left _ he)) span
    have hg₁ : s₁.outline.Good :=
      hs₁ ▸ (Steps.temps hg (TypeGraph.isScalar_integer hg.types) code.length).good
    have hlinks₁ : ∀ e ∈ Link.members links, e.IsInteger s₁.outline := fun e he =>
      hs₁ ▸ (hlinks e (mem_append_right _ he)).push _
    have hlen : s₁.outline.vars.length = s.outline.vars.length + code.length := by
      rw [hs₁]
      simp [Outline.push]
    have hrest := ih hg₁ hlinks₁ right (before ++ comparePairs left op sp right) next
    rw [Link.alternates_cons, lowerLinks]
    rcases hrest with ⟨hnot, hbad⟩ | ⟨halt, codes, ids, cs, hcompared, hcases⟩
    · exact .inl ⟨hnot, .bind hlower (.bind_left hbad)⟩
    · rw [hlen, hs₁] at hcompared
      refine .inr ⟨halt, code ++ codes, right ++ ids, comparePairs left op sp right ++ cs,
        .cons sp op hheld hcompared, ?_⟩
      rw [← append_assoc]
      rcases hcases with ⟨hempty, hbad⟩ | ⟨hsome, s', hok, hs'⟩
      · exact .inl ⟨hempty, .bind hlower (.bind_left hbad)⟩
      · refine .inr ⟨hsome, s', ?_, ?_⟩
        · simp only [bind_eq_ok_iff, pure_eq_ok_iff]
          exact ⟨_, s₁, hlower, _, s', hok, rfl, rfl⟩
        · rw [hs', hs₁]
          simp [Outline.push]

end Lower

/-! ## What there is to compare -/

theorem Held.length_eq (h : Held find k es code ids) : ids.length = es.length := by
  induction h with
  | nil => rfl
  | int _ _ _ ih => exact congrArg (· + 1) ih
  | var _ _ _ ih => exact congrArg (· + 1) ih

theorem comparePairs_ne_nil {left right : List VarId} {op : CmpOp} :
    comparePairs left op span right ≠ [] ↔ left ≠ [] ∧ right ≠ [] := by
  cases left <;> cases right <;> simp [comparePairs]

theorem ne_nil_of_length_eq {as : List α} {bs : List β} (h : as.length = bs.length) :
    as ≠ [] ↔ bs ≠ [] := by
  rw [← length_pos_iff, ← length_pos_iff, h]

/-- There are comparisons exactly if some operator has a group with members on both sides. -/
theorem Compared.ne_nil_iff {left : List VarId} {links : List Link} {cs : List Comparison}
    (h : Compared find k left links code ids cs) {group : List Expr}
    (hlen : left.length = group.length) :
    cs ≠ [] ↔ ∃ l op r, Link.Between (.operands group :: links) l op r ∧ l ≠ [] ∧ r ≠ [] := by
  induction h generalizing group with
  | nil =>
    refine ⟨fun h => absurd rfl h, ?_⟩
    rintro ⟨l, op, r, hbetween, -⟩
    exact absurd hbetween Link.not_between_last
  | @cons k left right ids next links code codes cs span op hgroup _ ih =>
    have hfirst : comparePairs left op span right ≠ [] ↔ group ≠ [] ∧ next ≠ [] := by
      rw [comparePairs_ne_nil, ne_nil_of_length_eq hlen, ne_nil_of_length_eq hgroup.length_eq]
    rw [ne_eq, append_eq_nil_iff, not_and_or, ← ne_eq, ← ne_eq, hfirst, ih hgroup.length_eq]
    constructor
    · rintro (hboth | ⟨l, op', r, hbetween, hboth⟩)
      · exact ⟨group, op, next, Link.between_cons.2 (.inl ⟨rfl, rfl, rfl⟩), hboth⟩
      · exact ⟨l, op', r, Link.between_cons.2 (.inr hbetween), hboth⟩
    · rintro ⟨l, op', r, hbetween, hboth⟩
      rcases Link.between_cons.1 hbetween with ⟨rfl, rfl, rfl⟩ | hbetween
      · exact .inl hboth
      · exact .inr ⟨l, op', r, hbetween, hboth⟩

/-- A chain of literals and variables is lowered exactly if it compares something.  Otherwise it is
refused as malformed. -/
theorem lowerExpr_compared {s : Session} {chain : List Link} (hg : s.outline.Good)
    (hchain : ∀ e ∈ Link.members chain, e.IsInteger s.outline) (span : Span) :
    ¬ Link.Compares chain ∧ Malformed span (lowerExpr (.compare span chain)) s ∨
      Link.Compares chain ∧ ∃ group links loads left more ids cs s',
        chain = .operands group :: links ∧
        Held s.outline.lookup s.outline.vars.length group loads left ∧
        Compared s.outline.lookup (s.outline.vars.length + loads.length) left links more ids cs ∧
        lowerExpr (.compare span chain) s =
          .ok (loads ++ more ++ comparisonCode cs (s.outline.vars.length + loads.length + more.length),
            .scalar .boolean span (.arith .and .boolean
              ((List.range' (s.outline.vars.length + loads.length + more.length) cs.length).map .var)))
            s' := by
  rw [lowerExpr]
  rcases chain with _ | ⟨group | ⟨opSpan, op⟩, links⟩
  case nil =>
    refine .inl ⟨fun h => ?_, .bind_left ⟨_, _, rfl⟩⟩
    cases h.1
  case cons.operator =>
    refine .inl ⟨fun h => ?_, .bind_left ⟨_, _, rfl⟩⟩
    cases h.1
  case cons.operands =>
    obtain ⟨loads, left, s₁, hlower, hheld, hs₁⟩ :=
      lowerGroup_held hg (fun e he => hchain e (mem_append_left _ he)) span
    have hg₁ : s₁.outline.Good :=
      hs₁ ▸ (Steps.temps hg (TypeGraph.isScalar_integer hg.types) loads.length).good
    have hlinks : ∀ e ∈ Link.members links, e.IsInteger s₁.outline := fun e he =>
      hs₁ ▸ (hchain e (mem_append_right _ he)).push _
    have hlen : s₁.outline.vars.length = s.outline.vars.length + loads.length := by
      rw [hs₁]
      simp [Outline.push]
    rw [lowerChain]
    rcases lowerLinks_compared hg₁ hlinks span left [] group with
      ⟨hnot, hbad⟩ | ⟨halternates, more, ids, cs, hcompared, hcases⟩
    · exact .inl ⟨fun h => hnot h.1, .bind_left (.bind hlower (.bind_left hbad))⟩
    rw [hlen, hs₁] at hcompared
    have hsome := hcompared.ne_nil_iff hheld.length_eq
    rw [nil_append] at hcases
    rcases hcases with ⟨hnil, hbad⟩ | ⟨hne, s₂, hok, hs₂⟩
    · exact .inl ⟨fun h => hsome.2 h.2 hnil, .bind_left (.bind hlower (.bind_left hbad))⟩
    · obtain ⟨r, s', hrun⟩ := runComparisons_completes cs s₂
      obtain ⟨-, hcode, houtcomes⟩ := runComparisons_ok hrun
      have hlen₂ : s₂.outline.vars.length = s.outline.vars.length + loads.length + more.length := by
        rw [hs₂, ← hlen]
        simp [Outline.push]
      rw [hlen₂] at hcode houtcomes
      refine .inr ⟨⟨halternates, hsome.1 hne⟩, group, links, loads, left, more, ids, cs, s', rfl, hheld,
        hcompared, ?_⟩
      simp only [bind_eq_ok_iff, pure_eq_ok_iff]
      refine ⟨_, s₂, ⟨_, s₁, hlower, _, s₂, hok, rfl, rfl⟩, r, s', hrun, ?_, rfl⟩
      rw [hcode, houtcomes]

end SlotCode
