import SlotCode.Proofs.Meaning.Operators
import SlotCode.Proofs.Program.Chains

/-!
# What comparisons mean

A comparison chain means the conjunction of all comparisons between neighbouring groups.  The code of a
chain of literals and integer variables leaves every variable that there was before as it is, and its
operand is then true exactly if each member of a group compares with each member of the next one, in the
store that the code started from, as the operator between the two says.
-/

namespace SlotCode

variable {find : String → Option VarId} {k : VarId} {es group : List Expr} {left ids : List VarId}
  {code : Code} {value : Expr → Option Int} {links : List Link} {cs : List Comparison}
  {ints : List Int}

open Outline Lower List

/-! ## What the code does -/

def Word.int? : Word → Option Int
  | .datum (.int value) => some value
  | _ => none

theorem Word.eq_of_int? {word : Word} {i : Int} (h : word.int? = some i) : word = .datum (.int i) := by
  cases word with
  | nothing => cases h
  | box payload => cases h
  | datum value =>
    cases value <;> cases h
    rfl

/-- The integer that a member stands for in a store. -/
def Expr.integer? (find : String → Option VarId) (σ : Store) : Expr → Option Int
  | .int _ value => some value
  | .var _ name => (find name).bind fun id => (σ id).bind Word.int?
  | _ => none

/-- Every comparison between neighbouring groups holds. -/
def Link.HoldsIn (value : Expr → Option Int) (chain : List Link) : Prop :=
  ∀ left op right, Between chain left op right → ∀ l ∈ left, ∀ r ∈ right, ∀ a b,
    value l = some a → value r = some b → op.holds a b = true

section

variable {A : Arithmetic} {p : Program} {o : Outline} {σ : Store}

/-- The members have values. -/
theorem exists_integers (h : ∀ e ∈ es, (e.integer? find σ).isSome) :
    ∃ ints, Forall₂ (fun e i => e.integer? find σ = some i) es ints := by
  induction es with
  | nil => exact ⟨[], .nil⟩
  | cons e es ih =>
    obtain ⟨i, hi⟩ := Option.isSome_iff_exists.1 (h e mem_cons_self)
    obtain ⟨ints, hints⟩ := ih fun e he => h e (mem_cons_of_mem _ he)
    exact ⟨i :: ints, .cons hi hints⟩

theorem Expr.IsInteger.lt_length {span : Span} {name : String} {id : VarId}
    (h : (Expr.var span name).IsInteger o) (hid : o.lookup name = some id) : id < o.vars.length := by
  cases h with
  | var _ hname htype =>
    cases hname.symm.trans hid
    exact lt_of_typeOf htype

theorem Held.lt (h : Held o.lookup k es code ids) (hes : ∀ e ∈ es, e.IsInteger o)
    (hk : o.vars.length ≤ k) : ∀ id ∈ ids, id < k + code.length := by
  induction h with
  | nil => exact forall_mem_nil _
  | int span value _ ih =>
    refine forall_mem_cons.2 ⟨Nat.lt_add_of_pos_right (Nat.succ_pos _), fun id hid => ?_⟩
    have hlt := ih (fun e he => hes e (mem_cons_of_mem _ he)) (Nat.le_succ_of_le hk) id hid
    rw [Nat.succ_add_eq_add_succ] at hlt
    exact hlt
  | var span hname _ ih =>
    refine forall_mem_cons.2 ⟨?_, ih (fun e he => hes e (mem_cons_of_mem _ he)) hk⟩
    have hlt := (hes _ mem_cons_self).lt_length hname
    exact Nat.lt_of_lt_of_le hlt (Nat.le_trans hk (Nat.le_add_right _ _))

/-- After the loads the variables hold the members. -/
theorem Held.runs {m : Machine} (h : Held o.lookup k es code ids) (hes : ∀ e ∈ es, e.IsInteger o)
    (hk : o.vars.length ≤ k) (hm : ∀ x < o.vars.length, m.store x = σ x)
    (hints : Forall₂ (fun e i => e.integer? o.lookup σ = some i) es ints) :
    ∃ τ, Runs A p code m .done { m with store := τ } ∧ (∀ x < k, τ x = m.store x) ∧
      HoldInts τ ids ints := by
  induction h generalizing m ints with
  | nil =>
    cases hints
    exact ⟨m.store, .nil m, fun _ _ => rfl, .nil⟩
  | @int k es code ids span value _ ih =>
    obtain _ | ⟨hvalue, hrest⟩ := hints
    cases hvalue
    have hothers : ∀ x < k, m.store.write k (.datum (.int value)) x = m.store x :=
      fun x hx => Store.write_of_ne _ _ (Nat.ne_of_lt hx)
    obtain ⟨τ, hruns, hsame, hheld⟩ :=
      ih (m := { m with store := m.store.write k (.datum (.int value)) })
        (fun e he => hes e (mem_cons_of_mem _ he)) (Nat.le_succ_of_le hk)
        (fun x hx => (hothers x (Nat.lt_of_lt_of_le hx hk)).trans (hm x hx)) hrest
    refine ⟨τ, .assign rfl hruns, fun x hx => ?_, .cons ?_ hheld⟩
    · exact (hsame x (Nat.lt_succ_of_lt hx)).trans (hothers x hx)
    · exact (hsame k (Nat.lt_succ_self k)).trans (Store.write_self _ _ _)
  | @var k id es code ids span name hname _ ih =>
    obtain _ | ⟨hvalue, hrest⟩ := hints
    obtain ⟨τ, hruns, hsame, hheld⟩ := ih (fun e he => hes e (mem_cons_of_mem _ he)) hk hm hrest
    have hlt := (hes _ mem_cons_self).lt_length hname
    refine ⟨τ, hruns, hsame, .cons ?_ hheld⟩
    rw [Expr.integer?, hname, Option.bind_some] at hvalue
    obtain ⟨word, hword, hint⟩ := Option.bind_eq_some_iff.1 hvalue
    rw [hsame id (Nat.lt_of_lt_of_le hlt hk), hm id hlt, hword, Word.eq_of_int? hint]

theorem mem_iff_of_values {i : Int} (h : Forall₂ (fun e i => value e = some i) es ints) :
    i ∈ ints ↔ ∃ e ∈ es, value e = some i := by
  induction h with
  | nil => simp
  | @cons e j es ints he _ ih =>
    rw [mem_cons, ih, exists_mem_cons_iff, he, Option.some.injEq, eq_comm]

/-- One operator: all its comparisons hold exactly if all their outcomes are true. -/
theorem all_pairs_iff {left right : List Expr} {as bs : List Int}
    (hl : Forall₂ (fun e i => value e = some i) left as)
    (hr : Forall₂ (fun e i => value e = some i) right bs) (op : CmpOp) :
    (as.flatMap fun a => bs.map fun b => op.holds a b).all id = true ↔
      ∀ l ∈ left, ∀ r ∈ right, ∀ a b, value l = some a → value r = some b → op.holds a b = true := by
  have hleft : ∀ a, a ∈ as ↔ ∃ l ∈ left, value l = some a := fun a => mem_iff_of_values hl
  have hright : ∀ b, b ∈ bs ↔ ∃ r ∈ right, value r = some b := fun b => mem_iff_of_values hr
  simp only [all_eq_true, mem_flatMap, mem_map, id_eq]
  constructor
  · intro h l hl r hr a b ha hb
    exact h _ ⟨a, (hleft a).2 ⟨l, hl, ha⟩, b, (hright b).2 ⟨r, hr, hb⟩, rfl⟩
  · rintro h _ ⟨a, ha, b, hb, rfl⟩
    obtain ⟨l, hl, hla⟩ := (hleft a).1 ha
    obtain ⟨r, hr, hrb⟩ := (hright b).1 hb
    exact h l hl r hr a b hla hrb

theorem Link.holdsIn_cons {next : List Expr} {span : Span} {op : CmpOp} :
    HoldsIn value (.operands group :: .operator span op :: .operands next :: links) ↔
      (∀ l ∈ group, ∀ r ∈ next, ∀ a b, value l = some a → value r = some b → op.holds a b = true) ∧
        HoldsIn value (.operands next :: links) := by
  constructor
  · intro h
    refine ⟨h group op next (between_cons.2 (.inl ⟨rfl, rfl, rfl⟩)), fun left op' right hbetween => ?_⟩
    exact h left op' right (between_cons.2 (.inr hbetween))
  · rintro ⟨hfirst, hrest⟩ left op' right hbetween
    rcases between_cons.1 hbetween with ⟨rfl, rfl, rfl⟩ | hbetween
    · exact hfirst
    · exact hrest left op' right hbetween

/-- After the loads of the links, the comparisons have outcomes that are all true exactly if the chain
holds. -/
theorem Compared.runs {m : Machine} (h : Compared o.lookup k left links code ids cs)
    (hlinks : ∀ e ∈ Link.members links, e.IsInteger o) (hk : o.vars.length ≤ k)
    (hm : ∀ x < o.vars.length, m.store x = σ x)
    (hvalues : ∀ e ∈ Link.members links, (e.integer? o.lookup σ).isSome)
    (hgroup : Forall₂ (fun e i => e.integer? o.lookup σ = some i) group ints)
    (hleft : HoldInts m.store left ints) (hlt : ∀ id ∈ left, id < k) :
    ∃ (τ : Store) (outs : List Bool), Runs A p code m .done { m with store := τ } ∧
      (∀ x < k, τ x = m.store x) ∧ Compare τ cs (outs.map Datum.bool) ∧
      (outs.all id = true ↔ Link.HoldsIn (Expr.integer? o.lookup σ) (.operands group :: links)) := by
  induction h generalizing m group ints with
  | nil =>
    refine ⟨m.store, [], .nil m, fun _ _ => rfl, .nil, fun _ => ?_, fun _ => rfl⟩
    intro l op r hbetween
    exact absurd hbetween Link.not_between_last
  | @cons k left right ids next links code codes cs span op hheld _ ih =>
    obtain ⟨ints', hnext⟩ := exists_integers fun e he => hvalues e (mem_append_left _ he)
    have hplain : ∀ e ∈ next, e.IsInteger o := fun e he => hlinks e (mem_append_left _ he)
    obtain ⟨τ₁, hruns₁, hsame₁, hright⟩ := hheld.runs (A := A) (p := p) hplain hk hm hnext
    have hlt' := hheld.lt hplain hk
    obtain ⟨τ, outs, hruns, hsame, hcompare, hall⟩ :=
      ih (m := { m with store := τ₁ }) (fun e he => hlinks e (mem_append_right _ he))
        (Nat.le_trans hk (Nat.le_add_right _ _))
        (fun x hx => (hsame₁ x (Nat.lt_of_lt_of_le hx hk)).trans (hm x hx))
        (fun e he => hvalues e (mem_append_right _ he)) hnext hright hlt'
    -- The loads of this group and of later ones do not touch what is compared.
    have hkept : ∀ x < k, τ x = m.store x := fun x hx =>
      (hsame x (Nat.lt_of_lt_of_le hx (Nat.le_add_right _ _))).trans (hsame₁ x hx)
    have hpairs := Compare.pairs op span (hleft.congr fun id hid => hkept id (hlt id hid))
      (hright.congr fun id hid => hsame id (hlt' id hid))
    refine ⟨τ, (ints.flatMap fun a => ints'.map fun b => op.holds a b) ++ outs, hruns₁.append hruns, hkept,
      ?_, ?_⟩
    · rw [map_append]
      refine rel_append ?_ hcompare
      simpa [Compare, map_flatMap, Function.comp_def] using hpairs
    · rw [all_append, Bool.and_eq_true_iff, hall, all_pairs_iff hgroup hnext, Link.holdsIn_cons]

end

/-! ## Every chain -/

theorem Compared.held (h : Compared find k left links code ids cs) :
    Held find k (Link.members links) code ids := by
  induction h with
  | nil k left => exact .nil k
  | cons span op hgroup _ ih => exact hgroup.append ih

/-- The comparisons read what holds the members. -/
theorem Compared.mem (h : Compared find k left links code ids cs) :
    ∀ c ∈ cs, c.left ∈ left ++ ids ∧ c.right ∈ left ++ ids := by
  induction h with
  | nil => exact forall_mem_nil _
  | @cons k left right ids group links code codes cs span op _ _ ih =>
    refine forall_mem_append.2 ⟨fun c hc => ?_, fun c hc => ?_⟩
    · obtain ⟨l, hl, hc⟩ := mem_flatMap.1 hc
      obtain ⟨r, hr, rfl⟩ := mem_map.1 hc
      exact ⟨mem_append_left _ hl, mem_append_right _ (mem_append_left _ hr)⟩
    · exact (ih c hc).imp (mem_append_right left) (mem_append_right left)

theorem mem_comparisonCode {command : Command} (h : command ∈ comparisonCode cs k) :
    ∃ c ∈ cs, ∃ dest, command = .assign c.span dest (.compare c.left c.op c.right) := by
  induction cs generalizing k with
  | nil => cases h
  | cons c cs ih =>
    rcases mem_cons.1 h with rfl | h
    · exact ⟨c, mem_cons_self, k, rfl⟩
    · obtain ⟨c', hc', hcommand⟩ := ih h
      exact ⟨c', mem_cons_of_mem c hc', hcommand⟩

/-- The code and the operand of a chain that is lowered in the session. -/
structure Session.Conjoins (s : Session) (chain : List Link) (code : Code) (operand : Operand) : Prop where
  /-- Each member is loaded once, or it is a variable.  All else are comparisons of what holds members. -/
  once : ∃ loads ids tests, code = loads ++ tests ∧
    Held s.outline.lookup s.scope.vars.size (Link.members chain) loads ids ∧
    ∀ command ∈ tests, ∃ span dest l op r,
      command = .assign span dest (.compare l op r) ∧ l ∈ ids ∧ r ∈ ids
  /-- From a store in which the members have values, the code runs to its end and changes no variable that
  there was before.  Then the operand is true exactly if all neighbours compared as the operators between
  them say. -/
  runs : ∀ (A : Arithmetic) (p : Program) (m : Machine),
    (∀ bs : List Bool, A .and (bs.map .bool) = .bool (bs.all id)) →
    (∀ e ∈ Link.members chain, (e.integer? s.outline.lookup m.store).isSome) →
    ∃ fuel m' b, exec A p fuel code m = some (.done, m') ∧ m'.printed = m.printed ∧
      (∀ id < s.scope.vars.size, m'.store id = m.store id) ∧
      operand.eval A m'.store = some (.datum (.bool b)) ∧
      (b = true ↔ Link.HoldsIn (Expr.integer? s.outline.lookup m.store) chain)

theorem conjoins_of_compared {s : Session} {loads more : Code}
    (hchain : ∀ e ∈ Link.members (.operands group :: links), e.IsInteger s.outline)
    (hheld : Held s.outline.lookup s.outline.vars.length group loads left)
    (hcompared : Compared s.outline.lookup (s.outline.vars.length + loads.length) left links more ids cs) :
    s.Conjoins (.operands group :: links)
      (loads ++ more ++ comparisonCode cs (s.outline.vars.length + loads.length + more.length))
      (.arith .and .boolean
        ((List.range' (s.outline.vars.length + loads.length + more.length) cs.length).map .var)) := by
  have hsize : s.outline.vars.length = s.scope.vars.size := by simp [Session.outline, Scope.infos]
  have hall : Held s.outline.lookup s.outline.vars.length (Link.members (.operands group :: links))
      (loads ++ more) (left ++ ids) := hheld.append hcompared.held
  have hmem := hcompared.mem
  refine ⟨⟨loads ++ more, left ++ ids, _, rfl, hsize ▸ hall, fun command hcommand => ?_⟩, ?_⟩
  · obtain ⟨c, hc, dest, rfl⟩ := mem_comparisonCode hcommand
    exact ⟨c.span, dest, c.left, c.op, c.right, rfl, hmem c hc⟩
  intro A p m hand hvalues
  have hplain : ∀ e ∈ group, e.IsInteger s.outline := fun e he => hchain e (mem_append_left _ he)
  obtain ⟨ints, hints⟩ := exists_integers fun e he => hvalues e (mem_append_left _ he)
  obtain ⟨τ₁, hruns₁, hsame₁, hleft⟩ :=
    hheld.runs (A := A) (p := p) hplain (Nat.le_refl _) (fun _ _ => rfl) hints
  obtain ⟨τ₂, outs, hruns₂, hsame₂, hcompare, hiff⟩ :=
    hcompared.runs (A := A) (p := p) (m := { m with store := τ₁ })
      (fun e he => hchain e (mem_append_right _ he)) (Nat.le_add_right _ _) hsame₁
      (fun e he => hvalues e (mem_append_right _ he)) hints hleft
      (hheld.lt hplain (Nat.le_refl _))
  -- The outcomes go to variables after those that hold the members.
  have hbelow : ∀ id ∈ left ++ ids, id < s.outline.vars.length + loads.length + more.length := by
    intro id hid
    have hlt := hall.lt hchain (Nat.le_refl _) id hid
    rw [length_append, ← Nat.add_assoc] at hlt
    exact hlt
  obtain ⟨τ, hruns, hsame, hhas⟩ := runs_comparisonCode (A := A) (p := p)
    (m := { m with store := τ₂ }) hcompare fun c hc => (hmem c hc).imp (hbelow _) (hbelow _)
  obtain ⟨fuel, hexec⟩ := ((hruns₁.append hruns₂).append hruns).exec
  refine ⟨fuel, _, outs.all id, hexec, rfl, fun id hid => ?_, ?_, hiff⟩
  · rw [← hsize] at hid
    have hid₁ := Nat.lt_of_lt_of_le hid (Nat.le_add_right _ loads.length)
    have hid₂ := Nat.lt_of_lt_of_le hid₁ (Nat.le_add_right _ more.length)
    exact (hsame id hid₂).trans ((hsame₂ id hid₁).trans (hsame₁ id hid))
  · have hstand : StandFor A τ _ _ := ⟨_, rfl, Operand.evalAll_vars.2 hhas⟩
    rw [← hand]
    exact hstand.eval_arith (mapM_map_of_inverse Content.datum? .datum (fun _ => rfl) _) .and _

/-- Whatever comparison of literals and integer variables lowering gets to: it is lowered exactly if its
links alternate and some operator has a group with members on both sides, and it is refused as malformed
otherwise.  If it is lowered, it means the conjunction of the comparisons of all neighbours. -/
theorem comparison_conjoins_neighbours {span : Span} {chain : List Link} {s : Session}
    (hsite : Visited (.expr (.compare span chain) s))
    (hchain : ∀ e ∈ Link.members chain, e.IsInteger s.outline) :
    ((∃ r s', lowerExpr (.compare span chain) s = .ok r s') ↔ Link.Compares chain) ∧
    (¬ Link.Compares chain → Malformed span (lowerExpr (.compare span chain)) s) ∧
    ∀ code v s', lowerExpr (.compare span chain) s = .ok (code, v) s' →
      ∃ outcomes : List VarId,
        v = .scalar .boolean span (.arith .and .boolean (outcomes.map .var)) ∧
        s.Conjoins chain code (.arith .and .boolean (outcomes.map .var)) := by
  rcases lowerExpr_compared hsite.settled.good hchain span with ⟨hnot, reason, s₁, hbad⟩ |
    ⟨hcompares, group, links, loads, left, more, ids, cs, s₁, rfl, hheld, hcompared, hok⟩
  · have hfails : ∀ r s', lowerExpr (.compare span chain) s ≠ .ok r s' := by
      intro r s' hr
      cases hbad.symm.trans hr
    refine ⟨⟨?_, fun h => absurd h hnot⟩, fun _ => ⟨reason, s₁, hbad⟩, ?_⟩
    · rintro ⟨r, s', hr⟩
      exact absurd hr (hfails r s')
    · intro code v s' hr
      exact absurd hr (hfails (code, v) s')
  · refine ⟨⟨fun _ => hcompares, fun _ => ⟨_, s₁, hok⟩⟩, fun hnot => absurd hcompares hnot, ?_⟩
    intro code v s' hr
    cases hok.symm.trans hr
    exact ⟨_, rfl, conjoins_of_compared hchain hheld hcompared⟩

/-- `x < 3, y <= 5 >` and nothing: the middle group takes part in two comparisons, the empty one in none. -/
def orderedChain : List Link :=
  let at0 : Span := ⟨0, 0⟩
  [.operands [.var at0 "x"], .operator at0 .lt, .operands [.int at0 3, .var at0 "y"], .operator at0 .le,
    .operands [.int at0 5], .operator at0 .gt, .operands []]

/-- A function of two integers that returns whether they are ordered so. -/
def orderedDecl : FnDecl :=
  let at0 : Span := ⟨0, 0⟩
  { name := "ordered"
    params := [⟨"x", at0, .integer at0⟩, ⟨"y", at0, .integer at0⟩]
    result := .boolean at0
    body := .mk at0 [.yield at0 (.compare at0 orderedChain)]
    span := at0 }

/-- Goes to where the body of the function is lowered, and looks at its parameters. -/
def orderedNames : Lower (List (Option VarId × Option TypeId)) := do
  let c ← callee "ordered" ⟨0, 0⟩
  modifyScope Scope.push
  let _ ← declareParams (.declare []) orderedDecl.params c.params
  modifyScope Scope.push
  let s ← get
  return ["x", "y"].map fun name => (s.outline.lookup name, (s.outline.lookup name).bind s.outline.typeOf)

/-- Conjunction as it should be. -/
def conjunction : Arithmetic := fun _ data => .bool (data.all (· = .bool true))

theorem conjunction_and (bs : List Bool) : conjunction .and (bs.map .bool) = .bool (bs.all id) := by
  simp [conjunction, all_map, Function.comp_def]
  rfl

/-- `x` is 1 and `y` is 5. -/
def orderedStart : Machine :=
  { store := fun id => some (.datum (.int (id * 4 + 1))), printed := [] }

theorem comparison_conjoins_neighbours_ordered :
    ∃ s code v s' fuel m', Visited (.expr (.compare ⟨0, 0⟩ orderedChain) s) ∧
      (∀ e ∈ Link.members orderedChain, e.IsInteger s.outline) ∧ Link.Compares orderedChain ∧
      lowerExpr (.compare ⟨0, 0⟩ orderedChain) s = .ok (code, v) s' ∧
      exec conjunction ⟨.initial, []⟩ fuel code orderedStart = some (.done, m') ∧
      Operand.evalAll conjunction m'.store v.leaves = some [.datum (.bool true)] := by
  have hrun : succeeds (fun r => decide (r = [(some 0, some .integer), (some 1, some .integer)]))
      (orderedNames (Session.after [.declare orderedDecl])) = true := by
    decide +kernel
  obtain ⟨r, s, h, hcheck⟩ := exists_ok_of_succeeds hrun
  simp only [orderedNames, bind_eq_ok_iff, modifyScope_eq_ok_iff, pure_eq_ok_iff] at h
  obtain ⟨c, s₀, hcallee, _, s₁, rfl, args, s₂, hparams, _, s₃, rfl, _, s₄, hget, rfl, rfl⟩ := h
  cases hget
  obtain ⟨rfl, -⟩ := callee_ok hcallee
  have hbody : Visited (.block orderedDecl.body s₂) := .body rfl rfl hcallee hparams
  have hsite : Visited (.expr (.compare ⟨0, 0⟩ orderedChain) s₂.enter) := .yield hbody.head_stmt
  have hnames := of_decide_eq_true hcheck
  simp only [List.map_cons, List.map_nil, List.cons.injEq, Prod.mk.injEq, and_true] at hnames
  obtain ⟨⟨hx, hxtype⟩, hy, hytype⟩ := hnames
  rw [hx] at hxtype
  rw [hy] at hytype
  have hx : s₂.enter.outline.lookup "x" = some 0 := hx
  have hy : s₂.enter.outline.lookup "y" = some 1 := hy
  have hchain : ∀ e ∈ Link.members orderedChain, e.IsInteger s₂.enter.outline := by
    simp only [orderedChain, Link.members, List.cons_append, List.nil_append, List.forall_mem_cons]
    exact ⟨.var _ hx hxtype, .int _ 3, .var _ hy hytype, .int _ 5, List.forall_mem_nil _⟩
  have hcompares : Link.Compares orderedChain := by
    refine ⟨.more _ _ _ (.more _ _ _ (.more _ _ _ (.last _))), _, _, _,
      Link.between_cons.2 (.inl ⟨rfl, rfl, rfl⟩), List.cons_ne_nil _ _, List.cons_ne_nil _ _⟩
  have hholds :
      Link.HoldsIn (Expr.integer? s₂.enter.outline.lookup orderedStart.store) orderedChain := by
    refine Link.holdsIn_cons.2 ⟨?_, Link.holdsIn_cons.2 ⟨?_, Link.holdsIn_cons.2 ⟨?_, ?_⟩⟩⟩
    · simp [Expr.integer?, hx, hy, Word.int?, CmpOp.holds, orderedStart]
    · simp [Expr.integer?, hy, Word.int?, CmpOp.holds, orderedStart]
    · simp
    · intro l op r hbetween
      exact absurd hbetween Link.not_between_last
  obtain ⟨hiff, -, hmeans⟩ := comparison_conjoins_neighbours hsite hchain
  obtain ⟨r, s', hlower⟩ := hiff.2 hcompares
  obtain ⟨outcomes, hv, hconjoins⟩ := hmeans r.1 r.2 s' hlower
  have hvalues : ∀ e ∈ Link.members orderedChain,
      (e.integer? s₂.enter.outline.lookup orderedStart.store).isSome := by
    simp [orderedChain, Link.members, Expr.integer?, hx, hy, Word.int?, orderedStart]
  obtain ⟨fuel, m', b, hexec, -, -, heval, hb⟩ :=
    hconjoins.runs conjunction ⟨.initial, []⟩ orderedStart conjunction_and hvalues
  rw [hb.2 hholds] at heval
  refine ⟨s₂.enter, r.1, r.2, s', fuel, m', hsite, hchain, hcompares, hlower, hexec, ?_⟩
  rw [hv]
  exact Operand.evalAll_eq_some_iff.2 (.cons heval .nil)

end SlotCode
