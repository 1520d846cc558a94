import SlotCode.Proofs.Program.Loops
import SlotCode.Proofs.Program.Origins

/-!
# Writers of a result

A loop may be left from several places, and a conditional has two branches.  The value of such an
expression is read from one list of slots, and all that write it write into these slots, one operand for
each of them and in their order (`lowerFunction_results_agree`).
-/

namespace SlotCode

variable {s s' : Session} {o : Outline} {code : Code} {v : Value}

open Outline Lower List

/-- The value is read from the slots, one for each leaf of its type. -/
structure Value.ReadsFrom (o : Outline) (slots : List VarId) (v : Value) : Prop where
  leaves : v.leaves = slots.map .var
  typed : List.Forall₂ (fun x t => o.typeOf x = some t) slots (o.types.leafTypes v.type)

theorem Operand.eq_of_map_var {xs ys : List VarId} (h : xs.map Operand.var = ys.map .var) : xs = ys :=
  map_injective_iff.2 (fun _ _ heq => Operand.var.inj heq) h

theorem Value.Ok.readsFrom {slots : List VarId} (hv : v.Ok o) (hvoid : v.shape ≠ .void)
    (h : v.leaves = slots.map .var) : v.ReadsFrom o slots := by
  refine ⟨h, ?_⟩
  have htyped := hv.typed hvoid
  rw [h, forall₂_map_left_iff] at htyped
  refine htyped.imp fun x t hx => ?_
  cases hx with
  | var hx => exact hx

theorem Stored.delivers {o' : Outline} {w : Value} {slots : List VarId} (h : Stored o o' code v w)
    (hg : o'.Good) (hv : v.Ok o') (hvoid : v.shape ≠ .void) (hw : w.ReadsFrom o' slots) :
    code.Delivers slots := by
  obtain ⟨span, slots', rfl, hleaves, -⟩ := h.slots
  obtain rfl := Operand.eq_of_map_var (hleaves.symm.trans hw.leaves)
  refine ⟨span, [], v.leaves, rfl, ?_⟩
  rw [(hv.typed hvoid).length_eq, hw.typed.length_eq, (h.type.leafTypes hg.types.toSound).length_eq]

/-! ## Conditionals -/

/-- Both branches end with the value that is read in the outline `o`, if there is one. -/
def BranchResult (o : Outline) (v : Value) (yes no : Code) : Prop :=
  v.shape ≠ .void → ∃ slots, v.ReadsFrom o slots ∧ yes.Delivers slots ∧ no.Delivers slots

theorem joinBranches_result {yesCode noCode yesCode' : Code} {yes : Value}
    {no : Option (Code × Value)} {span : Span} (hg : s.outline.Good) (hyes : yes.Ok s.outline)
    (hno : ∀ c w, no = some (c, w) → w.Ok s.outline)
    (h : joinBranches (yesCode, yes) no span s = .ok (yesCode', noCode, v) s') :
    BranchResult s'.outline v yesCode' noCode := by
  intro hvoid
  obtain ⟨hsteps, hv, hjoin⟩ := joinBranches_stored hg hyes hno h
  rcases hjoin with ⟨-, -, -, rfl, -⟩ | ⟨hyesVoid, c, w, a, b, rfl, hnoVoid, rfl, rfl, ha, hb⟩
  · exact absurd rfl hvoid
  · obtain ⟨-, slots, -, hleaves, -⟩ := ha.slots
    have hreads := hv.readsFrom hvoid hleaves
    exact ⟨slots, hreads,
      (ha.delivers hsteps.good (hyes.mono hg hsteps.keeps) hyesVoid hreads).prepend _,
      (hb.delivers hsteps.good ((hno c w rfl).mono hg hsteps.keeps) hnoVoid hreads).prepend _⟩

/-- The last command of a conditional is a branch. -/
theorem lowerExpr_conditional {e : Expr} (hs : s.outline.Settled)
    (h : lowerExpr e s = .ok (code, v) s') (he : e.isConditional = true) :
    ∃ first span test yes no, code = first ++ [.branch span test yes no] ∧
      BranchResult s'.outline v yes no := by
  cases lowerExpr_cases h with
  | cond hlower _ _ hyes hno hjoin =>
    have hs₁ := lowerExpr_settles hs hlower
    obtain ⟨hsteps, -, hv⟩ := Expr.lowers _ hs₁.good hyes
    obtain ⟨hsteps', -, hv'⟩ := lowerElse_emits (Expr.lowersIn _) hsteps.good hno
    exact ⟨_, _, _, _, _, rfl,
      joinBranches_result hsteps'.good (hv.mono hsteps.good hsteps'.keeps) hv' hjoin⟩
  | ifFull hlower hunboxed hyes hno hjoin =>
    obtain ⟨-, -, -, hs₅, hv⟩ :=
      hunboxed.exits (lowerExpr_settles hs hlower) hyes
    obtain ⟨hsteps', -, hv'⟩ := lowerElse_emits (Expr.lowersIn _) hs₅.good hno
    exact ⟨_, _, _, _, _, append_cons ..,
      joinBranches_result hsteps'.good (hv.mono hs₅.good hsteps'.keeps) hv' hjoin⟩
  | var | int | bool | str | tuple | arith | compare | call | block | loop | leave | leaveWith | wrap
  | wrapEmpty | cons | consEmpty => cases he

/-! ## Loops -/

/-- Wherever the code leaves the loop, it has just stored the value that is read in the outline `o`.  If
there is no value, it never stores into the variable of the loop. -/
structure LoopResult (o : Outline) (v : Value) (ref : LoopRef) (code : Code) : Prop where
  stored : v.shape ≠ .void → ∃ slots, v.ReadsFrom o slots ∧
    code.BeforeLeaves fun before id => id = ref.loop → before.Delivers slots
  unused : v.shape = .void → ref.var ∉ code.writes

/-- A variable without a name, which is no leaf. -/
theorem Outline.Good.not_named (hg : o.Good) {x : VarId} {i : VarInfo} (hi : o.info x = some i)
    (hname : i.name = none) (hleaf : ∀ r ls, o.leavesOf r = some ls → x ∉ ls) : ¬ o.Named x := by
  rintro ⟨name, id, hmem, hslot⟩
  cases hls : o.leavesOf id with
  | none =>
    rw [slots_of_none hls] at hslot
    cases mem_singleton.1 hslot
    obtain ⟨j, hj, hjname⟩ := hg.names name x hmem
    cases hi.symm.trans hj
    rw [hname] at hjname
    cases hjname
  | some ls =>
    rw [slots_of_some hls] at hslot
    exact hleaf id ls hls hslot

section

variable {body : Block} {label : Option String} {span : Span} {s s₁ s₂ : Session} {ref : LoopRef}
  {inner : Code} {w : Value} (hs : s.outline.Settled)
  (hloop : updateScope (·.newLoop label span) s.enter = .ok ref s₁)
  (hlower : lowerBlock body s₁ = .ok (inner, w) s₂)

include hs hloop hlower

/-- The loop is left with its value. -/
theorem loopBody_delivers :
    inner.BeforeLeaves fun before id => id = ref.loop → before.Delivers (s₂.outline.held ref.var) := by
  have hs₁ := newLoop_settles hs hloop
  obtain ⟨rfl, hopen, -, -, hout, -, hloops⟩ := loopBody_opens body.lowers hs.good hloop hlower
  refine (respecting.forall_block body hs₁ hlower).honours.leaves.imp ?_
  rintro before id hleaves rfl
  rcases hleaves with hnew | ⟨l, other, hmem, hid, -, hdelivers⟩
  · rw [hopen] at hnew
    exact absurd hnew (Nat.not_succ_le_self _)
  · rw [hloops] at hmem
    rcases mem_cons.1 hmem with heq | hmem
    · cases heq
      exact hdelivers
    -- loops that were open before have smaller numbers
    · rw [hout.loops] at hmem
      exact absurd hid (Nat.ne_of_lt (hs.good.loops l other hmem).1)

/-- After the loop, nothing but its value stands for its variable. -/
theorem loopVar_dead : s₂.exit.outline.Readable ref.var ∧ s₂.exit.outline.Dead ref.var := by
  obtain ⟨rfl, -, hgood, hexit, hout, hkeeps, hloops⟩ := loopBody_opens body.lowers hs.good hloop hlower
  obtain ⟨hsteps, -⟩ := body.lowers hgood hlower
  obtain ⟨-, i, hi, hname, hleaf⟩ := hsteps.good.loops label ⟨s.outline.nextLoop, s.outline.vars.length⟩
    (hloops ▸ mem_cons_self)
  have hinfo : s₂.exit.outline.info s.outline.vars.length = some i := by
    rw [hexit]
    exact hi
  have hleaf' : ∀ r ls, s₂.exit.outline.leavesOf r = some ls → s.outline.vars.length ∉ ls := by
    rw [hexit]
    exact hleaf
  have hread := readable_of_new hs.good hout.keeps (Nat.le_refl _) hleaf'
  exact ⟨hread, lt_of_info hinfo, hkeeps.good.not_named hinfo hname hleaf', hread.plain.1⟩

/-- Without a value, nothing is stored into the variable of the loop. -/
theorem loopVar_unwritten (hheld : s₂.outline.held ref.var = []) : ref.var ∉ inner.writes := by
  obtain ⟨hread, -⟩ := loopVar_dead hs hloop hlower
  have hs₁ := newLoop_settles hs hloop
  obtain ⟨rfl, -, hgood, hexit, -, -, hloops⟩ := loopBody_opens body.lowers hs.good hloop hlower
  obtain ⟨hsteps, -⟩ := body.lowers hgood hlower
  obtain ⟨-, i, hi, hname, hleaf⟩ := hgood.loops label ⟨s.outline.nextLoop, s.outline.vars.length⟩
    (by rw [← hsteps.loops, hloops]; exact mem_cons_self)
  intro hx
  have hhonours := (respecting.forall_block body hs₁ hlower).honours
  rcases hhonours.writes _ hx with hnew | hnamed | ⟨l, other, hmem, hx⟩
  · exact Nat.not_lt_of_le hnew (lt_of_info hi)
  · exact hgood.not_named hi hname hleaf hnamed
  · rw [hloops] at hmem
    rcases mem_cons.1 hmem with heq | hmem
    · cases heq
      rw [hheld] at hx
      cases hx
    · refine hread.plain.1 (reserved_of_mem_slots hmem ?_)
      rw [hexit]
      exact held_subset_slots s₂.outline other.var hx

end

/-- A loop whose code is a part of `whole`. -/
theorem lowerExpr_loop {span : Span} {label : Option String} {body : Block} {whole : Code}
    {o' : Outline} (hs : s.outline.Settled)
    (h : lowerExpr (.loop span label body) s = .ok (code, v) s')
    (hplaced : Placed s.outline s'.outline code o o' whole)
    (hbracketed : Command.allBracketed [] whole = true) (hnodup : (Command.loopIdsAll whole).Nodup) :
    ∃ ref s₁ inner, updateScope (·.newLoop label span) s.enter = .ok ref s₁ ∧
      code = [.loop span ref.loop inner] ∧ LoopResult s'.outline v ref whole := by
  cases lowerExpr_cases h with
  | @loop _ _ _ _ s₁ s₂ ref inner w _ hloop hlower hvalue =>
    obtain ⟨hread, hdead⟩ := loopVar_dead hs hloop hlower
    obtain ⟨href, -, -, hexit, hout, -⟩ := loopBody_opens body.lowers hs.good hloop hlower
    have hheld : s₂.outline.held ref.var = s₂.exit.outline.held ref.var := by
      rw [hexit]
      rfl
    obtain ⟨-, hv, hvalue⟩ := loopValue_isRead hout.good hread hvalue
    refine ⟨ref, s₁, inner, hloop, rfl, fun hvoid => ?_, fun hvoid hwrite => ?_⟩
    · rcases hvalue with ⟨-, rfl⟩ | hvalue
      · exact absurd rfl hvoid
      · have htype : v.type ≠ .void := fun htype => hvoid (hv.void.2 htype)
        have hdelivers := loopBody_delivers hs hloop hlower
        rw [hheld, held_of_type hvalue.type, if_neg htype] at hdelivers
        exact ⟨_, hv.readsFrom hvoid (hvalue.leaves htype),
          .of_body hbracketed hnodup (hplaced.nested mem_cons_self) hdelivers⟩
    · have hnone : s₂.outline.held ref.var = [] := by
        rw [hheld]
        rcases hvalue with ⟨hnone, -⟩ | hvalue
        · rw [Outline.held, hnone]
        · rw [held_of_type hvalue.type, if_pos (hv.void.1 hvoid)]
      -- inside the loop, before the variable was there, and after the loop
      rcases hplaced.writes _ hwrite with hinner | hbefore | hafter
      · exact loopVar_unwritten hs hloop hlower hnone (Code.mem_writes_loop.1 hinner)
      · rw [href] at hbefore
        exact Nat.lt_irrefl _ hbefore
      · exact hafter hdead

/-! ## Functions -/

/-- The loops of a function have different numbers and are left from inside. -/
theorem lowerFunction_brackets {requests : List Request} {decl : FnDecl} {f : Function}
    (h : lowerFunction decl (Session.after requests) = .ok f s') :
    Command.allBracketed [] f.code = true ∧ (Command.loopIdsAll f.code).Nodup := by
  have hidle : (Session.after requests).outline.frames = [.empty] := by
    rw [Session.outline, (resting_after requests).idle.contexts]
    rfl
  obtain ⟨-, hmirrors⟩ := lowerFunction_mirrors hidle h
  have hnone : (Session.after requests).outline.loopIds = [] := by
    rw [loopIds, Outline.loops, hidle]
    rfl
  obtain ⟨list, -, hjumps⟩ := hmirrors.jumps
  obtain ⟨count, -, hids⟩ := hmirrors.numbers
  refine ⟨?_, hids ▸ nodup_range'⟩
  rw [← Command.isSome_jumpsAll, ← hnone, hjumps]
  rfl

/-- The value of each loop and of each conditional of a function is read from one list of slots, and
whatever writes it writes one operand into each of these slots, in their order: right before each `leave`
of the loop, and at the end of both branches of the conditional.  A loop without a value has a variable
that nothing is stored into.  There are no other loops and branches in the code of the function. -/
theorem lowerFunction_results_agree (requests : List Request) (decl : FnDecl) (f : Function)
    (s' : Session) (hf : lowerFunction decl (Session.after requests) = .ok f s') :
    (∀ span label body s, decl.Leads (Session.after requests) (.expr (.loop span label body) s) →
      ∃ ref s₁ inner v s₂, updateScope (·.newLoop label span) s.enter = .ok ref s₁ ∧
        lowerExpr (.loop span label body) s = .ok ([.loop span ref.loop inner], v) s₂ ∧
        .loop span ref.loop inner ∈ Command.nestedAll f.code ∧ LoopResult s₂.outline v ref f.code) ∧
    (∀ e s, decl.Leads (Session.after requests) (.expr e s) → e.isConditional = true →
      ∃ first span test yes no v s₁, lowerExpr e s = .ok (first ++ [.branch span test yes no], v) s₁ ∧
        .branch span test yes no ∈ Command.nestedAll f.code ∧ BranchResult s₁.outline v yes no) ∧
    ∀ c ∈ Command.nestedAll f.code, c.isControl = true →
      ∃ e s first v s₁, decl.Leads (Session.after requests) (.expr e s) ∧ e.isControl = true ∧
        lowerExpr e s = .ok (first ++ [c], v) s₁ := by
  have hs := (resting_after requests).settled
  obtain ⟨hbracketed, hnodup⟩ := lowerFunction_brackets hf
  refine ⟨fun span label body s hleads => ?_, fun e s hleads he => ?_,
    fun c hc hcontrol => lowerFunction_origin hs hf hc hcontrol⟩
  · obtain ⟨o, o', hs, code, v, s₂, hlowered, hplaced⟩ := hleads.within hs hf
    cases hlowered with
    | expr hlower =>
      obtain ⟨ref, s₁, inner, hloop, rfl, hresult⟩ :=
        lowerExpr_loop hs hlower hplaced hbracketed hnodup
      exact ⟨ref, s₁, inner, v, s₂, hloop, hlower, hplaced.nested List.mem_cons_self, hresult⟩
  · obtain ⟨o, o', hs, code, v, s₁, hlowered, hplaced⟩ := hleads.within hs hf
    cases hlowered with
    | expr hlower =>
      obtain ⟨first, span, test, yes, no, rfl, hresult⟩ := lowerExpr_conditional hs hlower he
      refine ⟨first, span, test, yes, no, v, s₁, hlower, hplaced.nested ?_, hresult⟩
      rw [Command.nestedAll_append]
      exact List.mem_append_right _ List.mem_cons_self

/-- A loop that is left with a pair from two places. -/
def chosenLoop : Expr :=
  let at0 : Span := ⟨0, 0⟩
  .loop at0 none (.mk at0
    [.eval at0 (.cond at0 (.var at0 "first")
      (.leave at0 none (some (.tuple at0 [.int at0 1, .var at0 "first"])))
      (some (.leave at0 none (some (.tuple at0 [.int at0 2, .var at0 "first"])))))])

/-- A function that returns the value of the loop, after another loop without a value. -/
def chooseDecl : FnDecl :=
  let at0 : Span := ⟨0, 0⟩
  { name := "choose"
    params := [⟨"first", at0, .boolean at0⟩]
    result := .tuple at0 [.integer at0, .boolean at0]
    body := .mk at0 [.eval at0 (.loop at0 none (.mk at0 [.eval at0 (.leave at0 none none)])),
      .yield at0 chosenLoop]
    span := at0 }

/-- The code of the loop in it. -/
def chosenCode : Command :=
  let at0 : Span := ⟨0, 0⟩
  .loop at0 1
    [.branch at0 (.var 0)
      [.assign at0 3 (.int 1), .assign at0 4 (.var 0), .leave at0 1]
      [.assign at0 3 (.int 2), .assign at0 4 (.var 0), .leave at0 1]]

theorem lowerFunction_results_agree_choose :
    ∃ f s' s v s₁, lowerFunction chooseDecl (Session.after [.declare chooseDecl]) = .ok f s' ∧
      chooseDecl.Leads (Session.after [.declare chooseDecl]) (.expr chosenLoop s) ∧
      lowerExpr chosenLoop s = .ok ([chosenCode], v) s₁ ∧ v.ReadsFrom s₁.outline [3, 4] ∧
      f.code.BeforeLeaves fun before id => id = 1 → before.Delivers [3, 4] := by
  have hrun : succeeds (fun f : Function => decide (f.code.getLast? = some chosenCode ∧
      f.value = [.var 3, .var 4])) (lowerFunction chooseDecl (Session.after [.declare chooseDecl])) =
      true := by
    decide +kernel
  obtain ⟨f, s', hf, hcheck⟩ := exists_ok_of_succeeds hrun
  obtain ⟨hcode, hvar⟩ := of_decide_eq_true hcheck
  obtain ⟨s₀, c, t, v, t', hbegun, hcallee, hparams, hblock, hvalue⟩ := lowerFunction_begins hf
  obtain ⟨t₁, hstmts, -⟩ := lowerBlock_cases hblock
  have hboth : lowerStmts (.void ⟨0, 0⟩) ([_] ++ [_]) t.enter = .ok (f.code, v) t₁ := hstmts
  obtain ⟨head, w, s, tail, hhead, htail, hsplit⟩ := lowerStmts_append hboth
  obtain ⟨code, u, s₁, rest, hyield, hnil, rfl⟩ := lowerStmts_cons htail
  cases hnil
  have hsite : chooseDecl.Leads (Session.after [.declare chooseDecl]) (.expr chosenLoop s) :=
    .part (.part (.body hbegun hcallee hparams) (.stmt hhead)) .expr
  obtain ⟨ref, -, inner, v', s₁', -, hlower, -, hresult⟩ :=
    (lowerFunction_results_agree [.declare chooseDecl] chooseDecl f s' hf).1 _ _ _ s hsite
  cases hyield.symm.trans hlower
  rw [hsplit, List.append_nil, List.getLast?_concat] at hcode
  obtain hcode : .loop ⟨0, 0⟩ ref.loop inner = chosenCode := Option.some.inj hcode
  have hleaves : v.leaves = [.var 3, .var 4] := hvalue.symm.trans hvar
  have hvoid : v.shape ≠ .void := by
    intro hvoid
    rw [Value.leaves, hvoid] at hleaves
    cases hleaves
  obtain ⟨slots, hreads, hdelivers⟩ := hresult.stored hvoid
  obtain rfl : slots = [3, 4] := Operand.eq_of_map_var (hreads.leaves.symm.trans hleaves)
  have hid : ref.loop = 1 := (Command.loop.inj hcode).2.1
  rw [hid] at hdelivers
  exact ⟨f, s', s, _, _, hf, hsite, hcode ▸ hlower, hreads, hdelivers⟩

end SlotCode
