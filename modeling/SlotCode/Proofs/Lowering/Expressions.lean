import SlotCode.Proofs.Lowering.Calls
import SlotCode.Proofs.Lowering.Cases
import SlotCode.Proofs.Source.Sequenced

/-!
# Lowering expressions

Whatever is lowered, the code is typed, the value can be handed on, and code without `set` spares the
variables that were there before (`Expr.lowers`).  One lemma for each form of tree assumes this of the
parts; the recursion over trees comes last.
-/

namespace SlotCode

variable {f : Bool} {s s₁ s' : Session} {operand : Operand} {o' o : Outline} {left : List VarId}
  {code : Code} {new : List (String × VarId)} {span : Span} {es : List Expr}
  {before cs : List Comparison} {value yes : Expr} {body : Block} {label : Option String}
  {ref : LoopRef} {v : Value} {no : Option Expr}

open Outline Lower List

/-- Lowering the expression, if it succeeds, goes from good outlines to good ones. -/
def Expr.Lowers (e : Expr) : Prop :=
  ∀ {s s' : Session} {code : Code} {v : Value}, s.outline.Good → lowerExpr e s = .ok (code, v) s' →
    s.outline.Steps s'.outline ∧ Emits e.setFree s.outline s'.outline code ∧ v.Ok s'.outline

def Block.Lowers (b : Block) : Prop :=
  ∀ {s s' : Session} {code : Code} {v : Value}, s.outline.Good → lowerBlock b s = .ok (code, v) s' →
    s.outline.Steps s'.outline ∧ Emits b.setFree s.outline s'.outline code ∧ v.Ok s'.outline

/-- A statement may add names to the innermost context. -/
def Stmt.Lowers (stmt : Stmt) : Prop :=
  ∀ {s s' : Session} {value v : Value} {code : Code}, s.outline.Good → value.Ok s.outline →
    lowerStmt value stmt s = .ok (code, v) s' →
    (∃ new, s.outline.Adds s'.outline new) ∧ Emits stmt.setFree s.outline s'.outline code ∧
      v.Ok s'.outline

/-- There is always a context. -/
theorem Session.frames_ne (s : Session) : s.outline.frames ≠ [] :=
  nofun

/-! ## Contexts -/

/-- Leaving the context that was entered. -/
theorem exit_steps (hg : s₁.outline.Good) (hgrows : s.outline.enter.Grows s₁.outline)
    (hf : s₁.outline.frames.tail = s.outline.frames) :
    s₁.exit.outline = s₁.outline.exit ∧ s.outline.Steps s₁.exit.outline ∧
      s₁.outline.Keeps s₁.exit.outline := by
  have hframes : s₁.outline.frames = s₁.outline.frames.head s₁.frames_ne :: s.outline.frames := by
    rw [← hf, cons_head_tail]
  have hexit : s₁.exit.outline = s₁.outline.exit := by
    apply Session.outline_exit
    rw [hframes, length_cons]
    exact Nat.succ_lt_succ (length_pos_iff.2 s.frames_ne)
  have hout : s₁.outline.Grows s₁.outline.exit := .reframe _ _
  rw [hexit]
  refine ⟨rfl, ⟨((Grows.reframe _ _).trans hgrows).trans hout, hf, hg.exit⟩, hout, ?_, hg.exit⟩
  rw [Outline.loops, Outline.loops, hframes, Outline.exit, hf, flatMap_cons]
  exact subset_append_right _ _

/-- Closing a context takes away the names that were added to it, and no loop. -/
theorem exit_adds (h : s.outline.enter.Adds s₁.outline new) :
    s.outline.Steps s₁.exit.outline ∧ s₁.outline.Keeps s₁.exit.outline ∧
      s₁.exit.outline.loops = s₁.outline.loops := by
  obtain ⟨frame, rest, hf, hf'⟩ := h.frames
  cases hf
  obtain ⟨-, hsteps, hkeeps⟩ := exit_steps h.good h.grows (by rw [hf']; rfl)
  refine ⟨hsteps, hkeeps, ?_⟩
  rw [hsteps.loops, h.loops]
  rfl

theorem Emits.exit (h : s.outline.enter.Adds s₁.outline new)
    (hemits : Emits f s.outline.enter s₁.outline code) :
    Emits f s.outline s₁.exit.outline code := by
  obtain ⟨-, hkeeps, hloops⟩ := exit_adds h
  exact hemits.widen h.good (.reframe _ _) hkeeps.grows hloops

/-! ## Names and literals -/

theorem Expr.Lowers.var (span : Span) (name : String) : (Expr.var span name).Lowers := by
  intro s s' code v hg h
  cases lowerExpr_cases h with
  | var hid hvalue =>
    obtain ⟨-, hv, -⟩ := valueOf_isRead hg (readable_of_name hg (mem_names_of_lookup hid)) hvalue
    exact ⟨.refl hg, .nil, hv⟩

/-- A literal has a type with one leaf and reads nothing. -/
theorem literal_value {type : TypeId} (h : o.types.IsScalar type)
    (htyped : operand.HasType o.typing type) (hreads : operand.reads = []) (span : Span) :
    (Value.scalar type span operand).Ok o :=
  Value.ok_scalar h.value h.nonvoid h.single htyped (by rw [hreads]; nofun) span

theorem Expr.Lowers.int (span : Span) (value : Int) : (Expr.int span value).Lowers := by
  intro s s' code v hg h
  cases h
  exact ⟨.refl hg, .nil, literal_value (TypeGraph.isScalar_integer hg.types) (.int value) rfl span⟩

theorem Expr.Lowers.bool (span : Span) (value : Bool) : (Expr.bool span value).Lowers := by
  intro s s' code v hg h
  cases h
  exact ⟨.refl hg, .nil, literal_value (TypeGraph.isScalar_boolean hg.types) (.bool value) rfl span⟩

theorem Expr.Lowers.str (span : Span) (value : String) : (Expr.str span value).Lowers := by
  intro s s' code v hg h
  cases h
  exact ⟨.refl hg, .nil, literal_value (TypeGraph.isScalar_string hg.types) (.str value) rfl span⟩

/-! ## Lists of expressions -/

theorem and_of_setFreeAll {e : Expr} (h : Expr.setFreeAll (e :: es) = true) :
    e.setFree = true ∧ Expr.setFreeAll es = true := by
  simpa [Expr.setFreeAll] using h

theorem lowerItems_emits (hes : ∀ e ∈ es, e.Lowers) {values : List Value} (hg : s.outline.Good)
    (h : lowerItems es s = .ok (code, values) s') :
    s.outline.Steps s'.outline ∧ Emits (Expr.setFreeAll es) s.outline s'.outline code ∧
      ∀ v ∈ values, v.Ok s'.outline := by
  induction es generalizing s code values with
  | nil =>
    cases h
    exact ⟨.refl hg, .nil, nofun⟩
  | cons e es ih =>
    obtain ⟨c, v, s₁, cs, vs, hhead, htail, rfl, rfl⟩ := lowerItems_cons h
    obtain ⟨hsteps, hemits, hv⟩ := hes e mem_cons_self hg hhead
    obtain ⟨hsteps', hemits', hvs⟩ := ih (fun e he => hes e (mem_cons_of_mem _ he)) hsteps.good htail
    refine ⟨hsteps.trans hsteps', ?_, fun w hw => ?_⟩
    · exact hemits.seq hsteps hsteps' hemits' and_of_setFreeAll
    · rcases mem_cons.1 hw with rfl | hw
      · exact hv.mono hsteps.good hsteps'.keeps
      · exact hvs w hw

/-- The operands have the type of the operator. -/
theorem lowerOperands_emits {op : ArithOp} (hes : ∀ e ∈ es, e.Lowers) {operands : List Operand}
    (hg : s.outline.Good) (h : lowerOperands op.type span es s = .ok (code, operands) s') :
    s.outline.Steps s'.outline ∧ Emits (Expr.setFreeAll es) s.outline s'.outline code ∧
      Operands s'.outline op.type operands := by
  induction es generalizing s code operands with
  | nil =>
    cases h
    exact ⟨.refl hg, .nil, .nil⟩
  | cons e es ih =>
    obtain ⟨c, v, s₁, operand, cs, rest, hhead, hmatch, hshape, htail, rfl, rfl⟩ := lowerOperands_cons h
    obtain ⟨hsteps, hemits, hv⟩ := hes e mem_cons_self hg hhead
    obtain ⟨kind, hk, hb⟩ := kind_opType hsteps.good.types op
    obtain ⟨-, htype⟩ := eq_of_expectType hsteps.good hv hk hb hmatch
    obtain ⟨hsteps', hemits', hrest⟩ := ih (fun e he => hes e (mem_cons_of_mem _ he)) hsteps.good htail
    have hv' := hv.mono hsteps.good hsteps'.keeps
    refine ⟨hsteps.trans hsteps', ?_, ?_⟩
    · exact hemits.seq hsteps hsteps' hemits' and_of_setFreeAll
    · exact .cons (htype ▸ operand_typed hv' hshape) (fun x hx => hv'.plain hsteps'.good hshape hx) hrest

/-- The members of a group are held in variables. -/
theorem lowerGroup_emits (hes : ∀ e ∈ es, e.Lowers) {ids : List VarId} (hg : s.outline.Good)
    (h : lowerGroup span es s = .ok (code, ids) s') :
    s.outline.Steps s'.outline ∧ Emits (Expr.setFreeAll es) s.outline s'.outline code ∧
      ∀ id ∈ ids, HoldsInteger s'.outline id := by
  induction es generalizing s code ids with
  | nil =>
    cases h
    exact ⟨.refl hg, .nil, nofun⟩
  | cons e es ih =>
    obtain ⟨c, v, s₁, holding, id, s₂, cs, rest, hhead, hmatch, hhold, htail, rfl, rfl⟩ :=
      lowerGroup_cons h
    obtain ⟨hsteps, hemits, hv⟩ := hes e mem_cons_self hg hhead
    obtain ⟨-, htype⟩ := eq_of_expectType hsteps.good hv hsteps.good.types.integer rfl hmatch
    obtain ⟨hsteps₁, hemits₁, hid⟩ := holdInteger_holds hsteps.good hv htype hhold
    obtain ⟨hsteps', hemits', hrest⟩ := ih (fun e he => hes e (mem_cons_of_mem _ he)) hsteps₁.good htail
    refine ⟨(hsteps.trans hsteps₁).trans hsteps', ?_, fun x hx => ?_⟩
    · have hboth := hemits.seq hsteps hsteps₁ hemits₁ fun hf => ⟨hf, rfl⟩
      exact hboth.seq (hsteps.trans hsteps₁) hsteps' hemits' and_of_setFreeAll
    · rcases mem_cons.1 hx with rfl | hx
      · exact hid.mono hsteps₁.good hsteps'.keeps
      · exact hrest x hx

/-- The comparisons compare integers. -/
def ComparesIntegers (o : Outline) (cs : List Comparison) : Prop :=
  ∀ c ∈ cs, HoldsInteger o c.left ∧ HoldsInteger o c.right

theorem ComparesIntegers.pairs {right : List VarId} {op : CmpOp}
    (hleft : ∀ id ∈ left, HoldsInteger o id) (hright : ∀ id ∈ right, HoldsInteger o id) :
    ComparesIntegers o (comparePairs left op span right) := by
  intro c hc
  obtain ⟨l, hl, hc⟩ := mem_flatMap.1 hc
  obtain ⟨r, hr, rfl⟩ := mem_map.1 hc
  exact ⟨hleft l hl, hright r hr⟩

/-- The comparisons so far stay, and those with the next group are added. -/
theorem ComparesIntegers.next {right : List VarId} {op : CmpOp} (h : ComparesIntegers o before)
    (hg : o.Good) (hk : o.Keeps o') (hleft : ∀ id ∈ left, HoldsInteger o id)
    (hright : ∀ id ∈ right, HoldsInteger o' id) :
    ComparesIntegers o' (before ++ comparePairs left op span right) := by
  refine forall_mem_append.2 ⟨fun c hc => ?_, ?_⟩
  · exact (h c hc).imp (.mono hg hk) (.mono hg hk)
  · exact ComparesIntegers.pairs (fun id hid => (hleft id hid).mono hg hk) hright

/-- Every expression of the links can be lowered. -/
def Link.LowersAll (links : List Link) : Prop :=
  ∀ group, .operands group ∈ links → ∀ e ∈ group, e.Lowers

/-- A chain compares only variables that hold integers. -/
theorem lowerLinks_emits {links : List Link} (hlinks : Link.LowersAll links) (hg : s.outline.Good)
    (hleft : ∀ id ∈ left, HoldsInteger s.outline id) (hbefore : ComparesIntegers s.outline before)
    (h : lowerLinks span left before links s = .ok (code, cs) s') :
    s.outline.Steps s'.outline ∧ Emits (Link.setFreeAll links) s.outline s'.outline code ∧
      ComparesIntegers s'.outline cs := by
  induction lowerLinks_lowered h with
  | nil => exact ⟨.refl hg, .nil, hbefore⟩
  | pair hgroup hrest _ ih =>
    obtain ⟨hsteps, hemits, hright⟩ := lowerGroup_emits (hlinks _ (by simp)) hg hgroup
    obtain ⟨hsteps', hemits', hcs⟩ := ih (fun g hmem => hlinks g (by simp [hmem])) hsteps.good hright
      (hbefore.next hg hsteps.keeps hleft hright) hrest
    refine ⟨hsteps.trans hsteps', hemits.seq hsteps hsteps' hemits' fun hf => ?_, hcs⟩
    simpa [Link.setFreeAll] using hf

theorem Expr.Lowers.compare {chain : List Link} (hchain : Link.LowersAll chain) (span : Span) :
    (Expr.compare span chain).Lowers := by
  intro s s' code v hg h
  cases lowerExpr_cases h with
  | @compare _ group links _ _ _ _ _ _ _ _ _ _ hgroup hlinks hrun =>
    obtain ⟨hsteps, hemits, hleft⟩ := lowerGroup_emits (hchain group (by simp)) hg hgroup
    obtain ⟨hsteps₁, hemits₁, hcs⟩ := lowerLinks_emits (fun g hmem => hchain g (by simp [hmem]))
      hsteps.good hleft (forall_mem_nil _) hlinks
    obtain ⟨hsteps₂, hemits₂, htests⟩ := runComparisons_tests hsteps₁.good hcs hrun
    refine ⟨(hsteps.trans hsteps₁).trans hsteps₂, ?_, arith_value hsteps₂.good .and htests span⟩
    have hboth := hemits.seq (f := Link.setFreeAll (.operands group :: links)) hsteps hsteps₁ hemits₁
      fun hf => by simpa [Link.setFreeAll] using hf
    exact hboth.seq (hsteps.trans hsteps₁) hsteps₂ hemits₂ fun hf => ⟨hf, rfl⟩

theorem Expr.Lowers.tuple {items : List Expr} (hitems : ∀ e ∈ items, e.Lowers) (span : Span) :
    (Expr.tuple span items).Lowers := by
  intro s s' code v hg h
  cases lowerExpr_cases h with
  | tuple hlower htuple =>
    obtain ⟨hsteps, hemits, hvalues⟩ := lowerItems_emits hitems hg hlower
    obtain ⟨hsteps', hv⟩ := tupleOf_value hsteps.good hvalues htuple
    exact ⟨hsteps.trans hsteps', hemits.before hsteps.good hsteps', hv⟩

theorem Expr.Lowers.arith {operands : List Expr} (hoperands : ∀ e ∈ operands, e.Lowers) (span : Span)
    (op : ArithOp) : (Expr.arith span op operands).Lowers := by
  intro s s' code v hg h
  cases lowerExpr_cases h with
  | arith hlower =>
    obtain ⟨hsteps, hemits, hops⟩ := lowerOperands_emits hoperands hg hlower
    exact ⟨hsteps, hemits, arith_value hsteps.good op hops span⟩

/-! ## Boxes -/

theorem Expr.Lowers.wrap {payload : Expr} (hpayload : payload.Lowers) (span : Span) :
    (Expr.wrap span payload).Lowers := by
  intro s s' code v hg h
  cases lowerExpr_cases h with
  | wrap hlower hwrap =>
    obtain ⟨hsteps, hemits, hv⟩ := hpayload hg hlower
    obtain ⟨hsteps', hemits', hw⟩ := wrapValue_value hsteps.good hv hwrap
    exact ⟨hsteps.trans hsteps', hemits.seq hsteps hsteps' hemits' fun hf => ⟨hf, rfl⟩, hw⟩

theorem Expr.Lowers.cons {head tail : Expr} (hhead : head.Lowers) (htail : tail.Lowers)
    (span : Span) : (Expr.cons span head tail).Lowers := by
  intro s s' code v hg h
  cases lowerExpr_cases h with
  | cons hlower₁ hlower₂ hcons =>
    obtain ⟨hsteps₁, hemits₁, hv₁⟩ := hhead hg hlower₁
    obtain ⟨hsteps₂, hemits₂, hv₂⟩ := htail hsteps₁.good hlower₂
    obtain ⟨hsteps₃, hemits₃, hw⟩ :=
      consValue_value hsteps₂.good (hv₁.mono hsteps₁.good hsteps₂.keeps) hv₂ hcons
    have hboth := hemits₁.seq (f := (Expr.cons span head tail).setFree) hsteps₁ hsteps₂ hemits₂
      fun hf => by simpa [Expr.setFree] using hf
    exact ⟨(hsteps₁.trans hsteps₂).trans hsteps₃,
      hboth.seq (hsteps₁.trans hsteps₂) hsteps₃ hemits₃ fun hf => ⟨hf, rfl⟩, hw⟩

/-! ## Calls -/

/-- The arguments fit the parameters under the bindings, which bind types of values. -/
theorem lowerArgs_emits {targetSpan : Span} (hes : ∀ e ∈ es, e.Lowers) {params : List TypeId}
    (hlen : params.length = es.length) {b b' : Bindings} {inputs : List Operand}
    (hg : s.outline.Good) (hparams : ∀ p ∈ params, s.types.IsValue p) (hb : BindsValues s.types b)
    (h : lowerArgs targetSpan b es params s = .ok (code, inputs, b') s') :
    s.outline.Steps s'.outline ∧ Emits (Expr.setFreeAll es) s.outline s'.outline code ∧
      Passes s'.outline params inputs ∧ BindsValues s'.types b' := by
  induction es generalizing params s b code inputs with
  | nil =>
    obtain rfl := eq_nil_of_length_eq_zero hlen
    cases h
    exact ⟨.refl hg, .nil, .nil, hb⟩
  | cons e es ih =>
    cases params with
    | nil => cases hlen
    | cons param params =>
      obtain ⟨c, v, s₁, _, b₁, cs, ins, hhead, hbind, htail, rfl, rfl⟩ := lowerArgs_cons h
      obtain ⟨hsteps, hemits, hv⟩ := hes e mem_cons_self hg hhead
      have hext := hsteps.grows.types
      obtain ⟨-, halike, hb₁⟩ := bindArgument_binds hsteps.good
        ((hparams param mem_cons_self).extend hext) hv (hb.mono hext) hbind
      obtain ⟨hsteps', hemits', hpasses, hb'⟩ :=
        ih (fun e he => hes e (mem_cons_of_mem _ he)) (Nat.succ.inj hlen) hsteps.good
          (fun p hp => (hparams p (mem_cons_of_mem _ hp)).extend hext) hb₁ htail
      exact ⟨hsteps.trans hsteps', hemits.seq hsteps hsteps' hemits' and_of_setFreeAll,
        .cons hsteps'.good (hv.mono hsteps.good hsteps'.keeps) (halike.extend hsteps'.grows.types)
          hpasses, hb'⟩

theorem Expr.Lowers.call {args : List Expr} (hargs : ∀ e ∈ args, e.Lowers) (span : Span)
    (target : Expr) : (Expr.call span target args).Lowers := by
  intro s s' code v hg h
  cases lowerExpr_cases h with
  | @call _ _ name _ _ s₁ s₂ _ c _ inputs b outputs _ command hcallee hlen hlower hresult hcommand =>
    obtain ⟨-, hparams, hresultValue, -⟩ := callee_values hg hcallee
    obtain ⟨-, sig, params, hsig, hk, hcparams⟩ := callee_ok hcallee
    obtain ⟨hsteps, hemits, hpasses, hb⟩ := lowerArgs_emits hargs hlen hg hparams .nil hlower
    have hvalue : s₁.types.IsValue c.result := hresultValue.extend hsteps.grows.types
    obtain ⟨hsteps', hv, hreads⟩ := callResult_reads hsteps.good hvalue hb hresult
    have hall := hsteps.trans hsteps'
    have hpasses' : Passes s₂.outline params inputs :=
      .of_callee (hcparams ▸ hpasses.mono hsteps.good hsteps'.grows
        fun p hp => (hparams p hp).extend hsteps.grows.types)
    have hreturns : Returns s₂.outline c.result outputs := by
      rcases hreads with ⟨hvoid, rfl, -⟩ | ⟨hne, hshape, hinst, hleaves, -⟩
      · exact .inl ⟨hvoid, rfl⟩
      · exact .of_reads hne hv hshape hinst hleaves
    have hnew : ∀ l ∈ outputs, s₁.outline.vars.length ≤ l := by
      rcases hreads with ⟨-, rfl, -⟩ | ⟨-, -, -, -, -, hnew⟩
      · exact forall_mem_nil _
      · exact hnew
    obtain ⟨hs', htyped, hflat, hwrites⟩ := callCommand_typed hall.good
      (by rw [hall.grows.functions]; exact hsig) (hall.grows.types _ _ hk) hpasses' hreturns hcommand
    have hemits' : Emits true s₁.outline s₂.outline [command] := .singleton htyped hflat (hwrites ▸ hnew)
    rw [hs']
    exact ⟨hall, hemits.seq hsteps hsteps' hemits' fun hf => ⟨hf, rfl⟩, hv⟩

/-! ## Statements -/

theorem Emits.seq_adds {f₁ f₂ : Bool} {o₁ : Outline} {a b : Code} {new' : List (String × VarId)}
    (hs : o.Adds o₁ new) (h : Emits f₁ o o₁ a) (hs' : o₁.Adds o' new') (h' : Emits f₂ o₁ o' b)
    (hf : f = true → f₁ = true ∧ f₂ = true) : Emits f o o' (a ++ b) :=
  ((h.widen hs.good (.refl o) hs'.grows hs'.loops).imp fun ht => (hf ht).1).append
    ((h'.widen hs'.good hs.grows (.refl o') rfl).imp fun ht => (hf ht).2)

/-- The names are declared after the value has been lowered. -/
theorem Stmt.Lowers.bind (hvalue : value.Lowers) (span : Span) (target : Expr) :
    (Stmt.bind span target value).Lowers := by
  intro s s' kept v code hg hkept h
  cases lowerStmt_cases h with
  | @bind stored _ _ _ _ s₁ _ _ _ _ pattern _ hlower hbind hstore =>
    obtain ⟨hsteps, hemits, hstored⟩ := hvalue hg hlower
    obtain ⟨-, hdeclared⟩ := bindPattern_declared hbind
    obtain ⟨new, hadds, count, hvars, -⟩ := hdeclared.adds hsteps.good s₁.frames_ne
    obtain ⟨hsteps', hok, -, slots, hfills, rfl⟩ :=
      storeInto_fills hadds.good (hstored.mono hsteps.good hadds.keeps) hstore
    have hfirst := hsteps.adds s.frames_ne
    have hrest := hadds.trans (hsteps'.adds hadds.frames_ne)
    have hnew : ∀ x ∈ pattern.vars, s₁.outline.vars.length ≤ x := by
      intro x hx
      rw [hvars] at hx
      exact (mem_range'_1.1 hx).1
    have hemits' : Emits true s₁.outline s'.outline (assignments span slots stored.leaves) :=
      ⟨hok, fun _ x hx => .inl (hfills.new hsteps'.good hnew (writes_assignments _ _ _ hx))⟩
    exact ⟨⟨_, hfirst.trans hrest⟩, hemits.seq_adds hfirst hrest hemits' fun hf => ⟨hf, rfl⟩,
      hkept.mono hg (hfirst.trans hrest).keeps⟩

theorem Stmt.Lowers.set (hvalue : value.Lowers) (span : Span) (target : Expr) :
    (Stmt.set span target value).Lowers := by
  intro s s' kept v code hg hkept h
  cases lowerStmt_cases h with
  | set hlower hbind hstore =>
    obtain ⟨hsteps, hemits, hstored⟩ := hvalue hg hlower
    obtain ⟨rfl, -⟩ := bindPattern_resolve_ok hbind
    obtain ⟨hsteps', hok, -⟩ := storeInto_fills hsteps.good hstored hstore
    have hall := hsteps.trans hsteps'
    exact ⟨⟨_, hall.adds s.frames_ne⟩,
      ⟨(hemits.before hsteps.good hsteps').ok.append hok, by simp [Stmt.setFree]⟩,
      hkept.mono hg hall.keeps⟩

theorem Stmt.Lowers.yield (hvalue : value.Lowers) (span : Span) :
    (Stmt.yield span value).Lowers := by
  intro s s' kept v code hg hkept h
  obtain ⟨hsteps, hemits, hv⟩ := hvalue hg h
  exact ⟨⟨_, hsteps.adds s.frames_ne⟩, hemits, hv⟩

theorem Stmt.Lowers.eval (hvalue : value.Lowers) (span : Span) : (Stmt.eval span value).Lowers := by
  intro s s' kept v code hg hkept h
  cases lowerStmt_cases h with
  | eval hlower =>
    obtain ⟨hsteps, hemits, -⟩ := hvalue hg hlower
    exact ⟨⟨_, hsteps.adds s.frames_ne⟩, hemits, hkept.mono hg hsteps.keeps⟩

/-- Statements add their names to the innermost context. -/
theorem lowerStmts_emits {stmts : List Stmt} (hstmts : ∀ stmt ∈ stmts, stmt.Lowers) {value : Value}
    (hg : s.outline.Good) (hvalue : value.Ok s.outline)
    (h : lowerStmts value stmts s = .ok (code, v) s') :
    (∃ new, s.outline.Adds s'.outline new) ∧ Emits (Stmt.setFreeAll stmts) s.outline s'.outline code ∧
      v.Ok s'.outline := by
  induction stmts generalizing s value code with
  | nil =>
    cases h
    exact ⟨⟨[], .refl hg s'.frames_ne⟩, .nil, hvalue⟩
  | cons stmt stmts ih =>
    obtain ⟨c, v₁, s₁, cs, hhead, htail, rfl⟩ := lowerStmts_cons h
    obtain ⟨⟨new, hadds⟩, hemits, hv₁⟩ := hstmts stmt mem_cons_self hg hvalue hhead
    obtain ⟨⟨new', hadds'⟩, hemits', hv⟩ :=
      ih (fun stmt hst => hstmts stmt (mem_cons_of_mem _ hst)) hadds.good hv₁ htail
    refine ⟨⟨_, hadds.trans hadds'⟩, hemits.seq_adds hadds hadds' hemits' fun hf => ?_, hv⟩
    simpa [Stmt.setFreeAll] using hf

theorem Block.Lowers.mk {stmts : List Stmt} (hstmts : ∀ stmt ∈ stmts, stmt.Lowers) (span : Span) :
    (Block.mk span stmts).Lowers := by
  intro s s' code v hg h
  obtain ⟨s₁, hlower, rfl⟩ := lowerBlock_cases h
  obtain ⟨⟨new, hadds⟩, hemits, hv⟩ :=
    lowerStmts_emits hstmts (s := s.enter) hg.enter (Value.ok_void hg.enter span) hlower
  obtain ⟨hsteps, hkeeps, -⟩ := exit_adds hadds
  exact ⟨hsteps, hemits.exit hadds, hv.mono hadds.good hkeeps⟩

/-! ## Control -/

theorem Expr.Lowers.block (hbody : body.Lowers) (span : Span) : (Expr.block span body).Lowers := by
  intro s s' code v hg h
  cases lowerExpr_cases h with
  | @block _ _ _ s₁ _ _ copy _ _ hlower hkeep =>
    obtain ⟨hsteps, hemits, hv₁⟩ := hbody hg hlower
    obtain ⟨hsteps', hv, hcopy⟩ := keepValue_stored hsteps.good hv₁ hkeep
    have hemits' : Emits true s₁.outline s'.outline copy := by
      rcases hcopy with ⟨-, rfl, -⟩ | ⟨hvoid, hstored⟩
      · exact .nil
      · exact hstored.emits hsteps'.good (hv₁.mono hsteps.good hsteps'.keeps) hv hvoid
    exact ⟨hsteps.trans hsteps', hemits.seq hsteps hsteps' hemits' fun hf => ⟨hf, rfl⟩, hv⟩

/-- A branch that is not there has no code. -/
theorem lowerElse_emits (hno : ∀ e ∈ no, e.Lowers) {r : Option (Code × Value)} (hg : s.outline.Good)
    (h : lowerElse no s = .ok r s') :
    s.outline.Steps s'.outline ∧
      Emits (Expr.setFreeIn no) s.outline s'.outline ((r.map Prod.fst).getD []) ∧
      ∀ c w, r = some (c, w) → w.Ok s'.outline := by
  rcases lowerElse_cases h with ⟨rfl, rfl, rfl⟩ | ⟨e, c, w, rfl, rfl, hlower⟩
  · exact ⟨.refl hg, .nil, by rintro c w ⟨⟩⟩
  · obtain ⟨hsteps, hemits, hw⟩ := hno e rfl hg hlower
    refine ⟨hsteps, hemits, ?_⟩
    rintro c' w' ⟨⟩
    exact hw

theorem Emits.branch {test : Operand} {yes no : Code} (span : Span)
    (htest : test.HasType o'.typing .boolean) (hyes : Emits f o o' yes)
    (hno : Emits f o o' no) : Emits f o o' [.branch span test yes no] := by
  have hnested : Command.nestedAll [.branch span test yes no] =
      .branch span test yes no :: (Command.nestedAll yes ++ Command.nestedAll no) := by
    simp [Command.nestedAll, Command.nested]
  have hboth := hyes.append hno
  refine ⟨fun c hc => ?_, fun hf x hx => hboth.spares hf x ?_⟩
  · rw [hnested, mem_cons, ← Command.nestedAll_append] at hc
    rcases hc with rfl | hc
    · exact .branch htest
    · exact hboth.ok c hc
  · simpa [Code.writes, hnested, Command.writes] using hx

/-- What joining two branches makes of their code. -/
theorem joinBranches_emits {yesCode noCode yesCode' : Code} {yes : Value}
    {no : Option (Code × Value)} (hg : s.outline.Good) (hgrows : o.Grows s.outline)
    (hyes : yes.Ok s.outline) (hno : ∀ c w, no = some (c, w) → w.Ok s.outline)
    (hyesCode : Emits f o s.outline yesCode)
    (hnoCode : Emits f o s.outline ((no.map Prod.fst).getD []))
    (h : joinBranches (yesCode, yes) no span s = .ok (yesCode', noCode, v) s') :
    s.outline.Steps s'.outline ∧ v.Ok s'.outline ∧ Emits f o s'.outline yesCode' ∧
      Emits f o s'.outline noCode := by
  obtain ⟨hsteps, hv, hjoin⟩ := joinBranches_stored hg hyes hno h
  refine ⟨hsteps, hv, ?_⟩
  have hyesCode' := hyesCode.before hg hsteps
  have hnoCode' := hnoCode.before hg hsteps
  rcases hjoin with ⟨-, rfl, rfl, -⟩ | ⟨hvoid, c, w, a, b, rfl, hvoid', rfl, rfl, ha, hb⟩
  · exact ⟨hyesCode', hnoCode'⟩
  · have hea : Emits f s.outline s'.outline a :=
      ha.emits hsteps.good (hyes.mono hg hsteps.keeps) hv hvoid
    have heb : Emits f s.outline s'.outline b :=
      hb.emits hsteps.good ((hno c w rfl).mono hg hsteps.keeps) hv hvoid'
    exact ⟨hyesCode'.append (hea.widen hsteps.good hgrows (.refl _) rfl),
      hnoCode'.append (heb.widen hsteps.good hgrows (.refl _) rfl)⟩

theorem Expr.Lowers.cond {test : Expr} (htest : test.Lowers) (hyes : yes.Lowers)
    (hno : ∀ e ∈ no, e.Lowers) (span : Span) : (Expr.cond span test yes no).Lowers := by
  intro s s' code v hg h
  cases lowerExpr_cases h with
  | cond hlower hmatch hshape hlowerYes hlowerNo hjoin =>
    obtain ⟨hsteps₁, hemits₁, hv₁⟩ := htest hg hlower
    obtain ⟨-, htype⟩ := eq_of_expectType hsteps₁.good hv₁ hsteps₁.good.types.boolean rfl hmatch
    obtain ⟨hsteps₂, hemits₂, hv₂⟩ := hyes hsteps₁.good hlowerYes
    obtain ⟨hsteps₃, hemits₃, hv₃⟩ := lowerElse_emits hno hsteps₂.good hlowerNo
    obtain ⟨hsteps₄, hv, hyesCode, hnoCode⟩ := joinBranches_emits
      (f := yes.setFree && Expr.setFreeIn no) hsteps₃.good (hsteps₂.trans hsteps₃).grows
      (hv₂.mono hsteps₂.good hsteps₃.keeps) hv₃
      ((hemits₂.before hsteps₂.good hsteps₃).imp fun hf => (Bool.and_eq_true_iff.1 hf).1)
      ((hemits₃.after hsteps₂).imp fun hf => (Bool.and_eq_true_iff.1 hf).2) hjoin
    have hsteps := (hsteps₂.trans hsteps₃).trans hsteps₄
    have hbool := operand_typed (hv₁.mono hsteps₁.good hsteps.keeps) hshape
    rw [htype] at hbool
    refine ⟨hsteps₁.trans hsteps, ?_, hv⟩
    exact hemits₁.seq hsteps₁ hsteps (.branch span hbool hyesCode hnoCode) fun hf => by
      simpa [Expr.setFree, and_assoc] using hf

theorem exists_types_of_takes {slots : List VarId} {types : List TypeId}
    (h : Forall₂ o.Takes slots types) :
    ∃ outs, Forall₂ (fun id type => o.typeOf id = some type) slots outs ∧
      Forall₂ (o.types.Alike false) types outs := by
  induction h with
  | nil => exact ⟨[], .nil, .nil⟩
  | cons h _ ih =>
    obtain ⟨t, ht, halike⟩ := h
    obtain ⟨outs, houts, halikes⟩ := ih
    exact ⟨t :: outs, .cons ht houts, .cons halike.symm halikes⟩

/-- The payload of a box goes to the slots of a pattern. -/
theorem unwrap_typed (hg : o.Good) {type payload : TypeId} {kind : TypeKind} {pattern : Pattern}
    {slots : List VarId} (htyped : operand.HasType o.typing type)
    (hk : o.types.kind type = .ok kind) (hp : kind.payload? = some payload)
    (hfills : o.Fills pattern payload slots) (span : Span) :
    (Command.native span .unwrap [operand] slots).WellTyped o.typing := by
  obtain ⟨outs, houts, halikes⟩ := exists_types_of_takes (hfills.takes hg)
  have hvalue := hg.types.parts _ _ (.payload hk hp)
  exact .unwrap htyped ⟨kind, hk, hp⟩ houts
    ⟨_, TypeGraph.leaves_eq hg.types.toSound hvalue.lt_size, halikes⟩

namespace Unboxed

variable {target : Expr} {box : Value} {payload : TypeId} {full : VarId} {pattern : Pattern}
  {mode : BindMode} {slots : List VarId} {s₂ s₃ s₄ s₅ : Session}
  (h : Unboxed span box target payload operand full pattern mode slots s₁ s₂ s₃ s₄)

include h

/-- What is in the box is a value. -/
theorem isValue (hg : s₁.outline.Good) : s₁.types.IsValue payload := by
  obtain ⟨-, -, kind, hk, hp⟩ := openBox_ok h.opens
  exact hg.types.parts _ _ (.payload hk hp)

/-- What happens between a box and the branch that is taken if it is full. -/
theorem fills (hg : s₁.outline.Good) :
    s₁.outline.Steps s₂.outline ∧ Declared target pattern s₂.outline.enter s₃.outline ∧
      s₃.outline.Steps s₄.outline ∧ s₄.outline.Fills pattern payload slots := by
  have hsteps := newTyped_steps hg (TypeGraph.isScalar_boolean hg.types) h.tests
  obtain ⟨-, hdeclared⟩ := bindPattern_declared h.binds
  obtain ⟨new, hadds, -⟩ := hdeclared.adds (o := s₂.enter.outline) hsteps.good.enter s₂.enter.frames_ne
  have hpayload := (h.isValue hg).extend (hsteps.grows.types.trans hadds.grows.types)
  obtain ⟨hsteps', hfills⟩ := expand_fills hadds.good hpayload h.expands
  exact ⟨hsteps, hdeclared, hsteps', hfills⟩

/-- The branch sees the names of the target and all that were there before. -/
theorem adds (hg : s₁.outline.Good) : ∃ new, s₂.outline.enter.Adds s₄.outline new := by
  obtain ⟨hsteps, hdeclared, hsteps', -⟩ := h.fills hg
  obtain ⟨new, hadds, -⟩ := hdeclared.adds hsteps.good.enter s₂.enter.frames_ne
  exact ⟨_, hadds.trans (hsteps'.adds hadds.frames_ne)⟩

/-- The branch that is taken with the payload of a full box, in a context of its own. -/
theorem emits (hyes : yes.Lowers) (hg : s₁.outline.Good) (hbox : box.Ok s₁.outline)
    (hlower : lowerExpr yes s₄ = .ok (code, v) s₅) :
    s₂.outline.Steps s₅.exit.outline ∧ v.Ok s₅.exit.outline ∧
      Emits yes.setFree s₂.outline s₅.exit.outline
        (.native pattern.span .unwrap [operand] slots :: code) := by
  obtain ⟨hsteps₂, hdeclared, hsteps, hfills⟩ := h.fills hg
  obtain ⟨new, hadds⟩ := h.adds hg
  obtain ⟨-, hshape, kind, hk, hp⟩ := openBox_ok h.opens
  obtain ⟨hsteps', hemits, hv⟩ := hyes hsteps.good hlower
  have hinner := hadds.trans (hsteps'.adds hadds.frames_ne)
  have hgrows : s₁.outline.Grows s₅.outline :=
    hsteps₂.grows.trans ((Grows.reframe _ _).trans hinner.grows)
  have hunwrap := unwrap_typed hsteps'.good ((operand_typed hbox hshape).mono (hgrows.typing hg).var)
    (hgrows.types _ _ hk) hp (hfills.mono hsteps.good hsteps'.keeps) pattern.span
  have hfirst : Emits yes.setFree s₂.outline.enter s₅.outline
      [.native pattern.span .unwrap [operand] slots] :=
    .singleton hunwrap rfl fun x hx =>
      hdeclared.le_of_mem_slots hsteps₂.good.enter s₂.enter.frames_ne hsteps.good hfills hx
  have hbody := hemits.widen hsteps'.good hadds.grows (.refl _) rfl
  obtain ⟨hout, hkeeps, -⟩ := exit_adds hinner
  exact ⟨hout, hv.mono hsteps'.good hkeeps, (hfirst.append hbody).exit hinner⟩

end Unboxed

theorem Expr.Lowers.ifFull {boxed : Expr} (hboxed : boxed.Lowers) (hyes : yes.Lowers)
    (hno : ∀ e ∈ no, e.Lowers) (span : Span) (target : Expr) :
    (Expr.ifFull span boxed target yes no).Lowers := by
  intro s s' code v hg h
  cases lowerExpr_cases h with
  | @ifFull _ _ _ _ _ _ s₁ s₂ _ _ _ _ _ _ _ _ _ _ _ _ _ operand _ _ _ _ _ hlower hunboxed
      hlowerYes hlowerNo hjoin =>
    obtain ⟨hsteps₁, hemits₁, hv₁⟩ := hboxed hg hlower
    obtain ⟨-, hshape, kind, hk, hp⟩ := openBox_ok hunboxed.opens
    obtain ⟨hsteps₂, -⟩ := hunboxed.fills hsteps₁.good
    obtain ⟨hsteps₃, hv₃, hemits₃⟩ := hunboxed.emits hyes hsteps₁.good hv₁ hlowerYes
    obtain ⟨rfl, hs₂⟩ := newTyped_ok hunboxed.tests
    have hbool : s₂.outline.typeOf s₁.outline.vars.length = some .boolean := by
      rw [hs₂]
      exact typeOf_temps (k := 0) Nat.one_pos
    have hbox := operand_typed (hv₁.mono hsteps₁.good hsteps₂.keeps) hshape
    obtain ⟨hsteps₄, hemits₄, hv₄⟩ := lowerElse_emits hno hsteps₃.good hlowerNo
    have hbranches := hsteps₃.trans hsteps₄
    obtain ⟨hsteps₅, hv, hyesCode, hnoCode⟩ := joinBranches_emits
      (f := yes.setFree && Expr.setFreeIn no) hsteps₄.good hbranches.grows
      (hv₃.mono hsteps₃.good hsteps₄.keeps) hv₄
      ((hemits₃.before hsteps₃.good hsteps₄).imp fun hf => (Bool.and_eq_true_iff.1 hf).1)
      ((hemits₄.after hsteps₃).imp fun hf => (Bool.and_eq_true_iff.1 hf).2) hjoin
    have hlast := hbranches.trans hsteps₅
    have hfullEmits : Emits true s₁.outline s₂.outline
        [.native span .full [operand] [s₁.outline.vars.length]] :=
      .singleton (.full hbox ⟨kind, hsteps₂.grows.types _ _ hk, hp⟩ hbool) rfl
        fun x => new_of_mem_singleton
    have hbranch := Emits.branch span (.var (hlast.grows.typeOf hbool)) hyesCode hnoCode
    have hboth := hfullEmits.seq hsteps₂ hlast hbranch fun hf => ⟨rfl, hf⟩
    refine ⟨hsteps₁.trans (hsteps₂.trans hlast), ?_, hv⟩
    exact hemits₁.seq hsteps₁ (hsteps₂.trans hlast) hboth fun hf => by
      simpa [Expr.setFree, and_assoc] using hf

theorem Emits.loop {body : Code} (h : Emits f o o' body) (span : Span) (id : LoopId) :
    Emits f o o' [.loop span id body] := by
  have hnested : Command.nestedAll [.loop span id body] =
      .loop span id body :: Command.nestedAll body := by
    simp [Command.nestedAll, Command.nested]
  refine ⟨fun c hc => ?_, fun hf x hx => h.spares hf x ?_⟩
  · rw [hnested, mem_cons] at hc
    rcases hc with rfl | hc
    · exact .loop
    · exact h.ok c hc
  · simpa [Code.writes, hnested, Command.writes] using hx

/-- The body of a loop is lowered in a context where the loop can be left. -/
theorem loopBody_opens (hbody : body.Lowers) {s₂ : Session} (hg : s.outline.Good)
    (hloop : updateScope (·.newLoop label span) s.enter = .ok ref s₁)
    (hlower : lowerBlock body s₁ = .ok (code, v) s₂) :
    ref = ⟨s.outline.nextLoop, s.outline.vars.length⟩ ∧
      s₁.outline = s.outline.enter.openLoop label ∧ s₁.outline.Good ∧
      s₂.exit.outline = s₂.outline.exit ∧ s.outline.Steps s₂.exit.outline ∧
      s₂.outline.Keeps s₂.exit.outline ∧ s₂.outline.loops = (label, ref) :: s₂.exit.outline.loops := by
  obtain ⟨rfl, hs₁⟩ := newLoop_ok hloop
  have hopen : s₁.outline = s.outline.enter.openLoop label := hs₁
  have hframes : (s.outline.enter.openLoop label).frames = _ := frames_openLoop rfl
  have hgood : s₁.outline.Good := by
    rw [hopen]
    exact hg.enter.openLoop rfl label
  obtain ⟨hsteps, -⟩ := hbody hgood hlower
  have hgrows : s.outline.enter.Grows s₂.outline := by
    refine Grows.trans ?_ hsteps.grows
    rw [hopen]
    exact .openLoop _ _
  have hf : s₂.outline.frames = _ := hsteps.frames.trans (hopen ▸ hframes)
  obtain ⟨hexit, hout, hkeeps⟩ := exit_steps hsteps.good hgrows (by rw [hf]; rfl)
  refine ⟨rfl, hopen, hgood, hexit, hout, hkeeps, ?_⟩
  rw [hout.loops, Outline.loops, hf]
  rfl

/-- What is reserved inside a loop is its own value or that of a loop around it. -/
theorem reserved_of_loop (hg : o.Good) (hgrows : o.Grows o')
    (hloops : o.loops = (label, ref) :: o'.loops) {x : VarId} (hx : o.Reserved x) :
    ref.var ≤ x ∨ o'.Reserved x := by
  obtain ⟨l, other, hmem, hx⟩ := hx
  rw [hloops] at hmem
  rcases mem_cons.1 hmem with heq | hmem
  · cases heq
    refine .inl ?_
    rcases hx with rfl | ⟨ls, hls, hx⟩
    · exact Nat.le_refl _
    · exact hg.le_of_mem_slots (by rw [slots_of_some hls]; exact hx)
  · refine .inr ⟨l, other, hmem, hx.imp_right fun ⟨ls, hls, hx⟩ => ⟨ls, ?_, hx⟩⟩
    exact hgrows.leavesOf hls

/-- After the loop its variable can be read. -/
theorem loopBody_emits (hbody : body.Lowers) {s₂ : Session} (hg : s.outline.Good)
    (hloop : updateScope (·.newLoop label span) s.enter = .ok ref s₁)
    (hlower : lowerBlock body s₁ = .ok (code, v) s₂) :
    Emits body.setFree s.outline s₂.exit.outline code ∧ s₂.exit.outline.Readable ref.var := by
  obtain ⟨rfl, hopen, hgood, hexit, hout, hkeeps, hloops⟩ := loopBody_opens hbody hg hloop hlower
  obtain ⟨hsteps, hemits, -⟩ := hbody hgood hlower
  refine ⟨⟨hemits.ok.mono hsteps.good hkeeps.grows, fun hfree x hx => ?_⟩, ?_⟩
  · rcases hemits.spares hfree x hx with hge | hreserved
    · refine .inl (Nat.le_trans ?_ hge)
      rw [hopen]
      exact (Grows.openLoop s.outline.enter label).length_le
    -- the value of this very loop is new
    · exact reserved_of_loop hsteps.good hkeeps.grows hloops hreserved
  · refine readable_of_new hg hout.keeps (Nat.le_refl _) fun r ls hls hmem => ?_
    rw [hexit] at hls
    obtain ⟨-, i, hi, -, hleaf⟩ := hsteps.good.loops label ⟨s.outline.nextLoop, s.outline.vars.length⟩
      (by rw [hloops]; exact mem_cons_self)
    exact hleaf r ls hls hmem

theorem Expr.Lowers.loop (hbody : body.Lowers) (span : Span) (label : Option String) :
    (Expr.loop span label body).Lowers := by
  intro s s' code v hg h
  cases lowerExpr_cases h with
  | loop hloop hlower hvalue =>
    obtain ⟨-, -, -, -, hout, -⟩ := loopBody_opens hbody hg hloop hlower
    obtain ⟨hemits, hread⟩ := loopBody_emits hbody hg hloop hlower
    obtain ⟨-, hv, -⟩ := loopValue_isRead hout.good hread hvalue
    exact ⟨hout, hemits.loop span _, hv⟩

theorem leaveWith_emits {w : Value} (hg : s.outline.Good) (hv : v.Ok s.outline)
    (h : leaveWith label v span s = .ok (code, w) s') :
    s.outline.Steps s'.outline ∧ Emits true s.outline s'.outline code ∧ w.Ok s'.outline := by
  obtain ⟨hsteps, rfl, ref, stores, htarget, ⟨t, ht, halike⟩, rfl, hstores⟩ := leaveWith_takes hg hv h
  have hv' := hv.mono hg hsteps.keeps
  refine ⟨hsteps, .append ?_ ?_, Value.ok_void hsteps.good span⟩
  · rcases hstores with ⟨-, rfl⟩ | ⟨hvoid, rfl⟩
    · exact .nil
    · have hr : s'.outline.Receives ref.var v.type (s'.outline.slots ref.var) := ⟨⟨t, ht, halike⟩, rfl⟩
      refine ⟨assignments_ok span (hr.takes hsteps.good) (hv'.typed hvoid), fun _ x hx => .inr ?_⟩
      obtain ⟨l, hmem⟩ := mem_loops_of_target htarget
      exact reserved_of_mem_slots (hsteps.loops ▸ hmem) (writes_assignments _ _ _ hx)
  · exact .singleton .leave rfl nofun

theorem Expr.Lowers.leave {value : Option Expr} (hvalue : ∀ e ∈ value, e.Lowers) (span : Span)
    (label : Option String) : (Expr.leave span label value).Lowers := by
  intro s s' code v hg h
  cases lowerExpr_cases h with
  | leave hleave => exact leaveWith_emits hg (Value.ok_void hg span) hleave
  | leaveWith hlower hleave =>
    obtain ⟨hsteps, hemits, hv₁⟩ := hvalue _ rfl hg hlower
    obtain ⟨hsteps', hemits', hv⟩ := leaveWith_emits hsteps.good hv₁ hleave
    exact ⟨hsteps.trans hsteps', hemits.seq hsteps hsteps' hemits' fun hf => ⟨hf, rfl⟩, hv⟩

/-! ## All trees -/

/-- The induction over trees. -/
theorem lowers : Hereditary Expr.Lowers Block.Lowers Stmt.Lowers where
  var := Expr.Lowers.var
  int := Expr.Lowers.int
  bool := Expr.Lowers.bool
  str := Expr.Lowers.str
  tuple span _ hitems := Expr.Lowers.tuple hitems span
  arith span op _ hoperands := Expr.Lowers.arith hoperands span op
  compare span _ hchain := Expr.Lowers.compare hchain span
  not _ _ _ := fun _ h => absurd h unsupported_ne_ok
  call span target _ hargs := Expr.Lowers.call hargs span target
  block span _ hbody := Expr.Lowers.block hbody span
  cond span _ _ _ htest hyes hno := Expr.Lowers.cond htest hyes hno span
  ifFull span _ target _ _ hboxed hyes hno := Expr.Lowers.ifFull hboxed hyes hno span target
  loop span label _ hbody := Expr.Lowers.loop hbody span label
  leave span label _ hvalue := Expr.Lowers.leave hvalue span label
  wrap span _ hpayload := Expr.Lowers.wrap hpayload span
  wrapEmpty _ _ _ := fun hg h => wrapNothing_value hg h
  cons span _ _ hhead htail := Expr.Lowers.cons hhead htail span
  consEmpty _ _ _ := fun hg h => consNothing_value hg h
  body span _ hstmts := Block.Lowers.mk hstmts span
  bind span target _ hvalue := Stmt.Lowers.bind hvalue span target
  set span target _ hvalue := Stmt.Lowers.set hvalue span target
  yield span _ hvalue := Stmt.Lowers.yield hvalue span
  ret _ _ _ := fun _ _ h => absurd h unsupported_ne_ok
  eval span _ hvalue := Stmt.Lowers.eval hvalue span

theorem Expr.lowers (e : Expr) : e.Lowers :=
  Hereditary.forall_expr SlotCode.lowers e

theorem Expr.lowersIn (e : Option Expr) : ∀ e' ∈ e, e'.Lowers :=
  Hereditary.forall_exprIn SlotCode.lowers e

theorem Expr.lowersAll (es : List Expr) : ∀ e ∈ es, e.Lowers :=
  Hereditary.forall_exprs SlotCode.lowers es

theorem Link.lowersAll (links : List Link) : Link.LowersAll links :=
  fun group _ => Expr.lowersAll group

theorem Block.lowers (b : Block) : b.Lowers :=
  Hereditary.forall_block SlotCode.lowers b

theorem Stmt.lowersAll (stmts : List Stmt) : ∀ stmt ∈ stmts, stmt.Lowers :=
  Hereditary.forall_stmts SlotCode.lowers stmts

theorem Stmt.lowers (stmt : Stmt) : stmt.Lowers :=
  Stmt.lowersAll [stmt] stmt mem_cons_self

/-! ## Outlines after lists of trees -/

section

variable {s s' : Session} {code : Code}

theorem lowerGroup_steps {ids : List VarId} (hg : s.outline.Good)
    (h : lowerGroup span es s = .ok (code, ids) s') : s.outline.Steps s'.outline :=
  (lowerGroup_emits (Expr.lowersAll es) hg h).1

theorem lowerLinks_steps {links : List Link} (hg : s.outline.Good)
    (h : lowerLinks span left before links s = .ok (code, cs) s') : s.outline.Steps s'.outline := by
  induction lowerLinks_lowered h with
  | nil => exact .refl hg
  | pair hgroup hrest _ ih =>
    have hsteps := lowerGroup_steps hg hgroup
    exact hsteps.trans (ih hsteps.good hrest)

theorem runComparisons_steps {tests : List Operand} (hg : s.outline.Good)
    (h : runComparisons cs s = .ok (code, tests) s') : s.outline.Steps s'.outline := by
  rw [(runComparisons_ok h).1]
  exact .temps hg (TypeGraph.isScalar_boolean hg.types) _

theorem lowerArgs_steps {targetSpan : Span} {params : List TypeId} {b b' : Bindings}
    {inputs : List Operand} (hlen : params.length = es.length) (hg : s.outline.Good)
    (h : lowerArgs targetSpan b es params s = .ok (code, inputs, b') s') :
    s.outline.Steps s'.outline := by
  induction es generalizing params s b code inputs with
  | nil =>
    obtain rfl := eq_nil_of_length_eq_zero hlen
    cases h
    exact .refl hg
  | cons e es ih =>
    cases params with
    | nil => cases hlen
    | cons param params =>
      obtain ⟨c, v, s₁, _, b₁, cs, ins, hhead, -, htail, -, -⟩ := lowerArgs_cons h
      have hsteps := (Expr.lowers e hg hhead).1
      exact hsteps.trans (ih (Nat.succ.inj hlen) hsteps.good htail)

end

end SlotCode
