import SlotCode.Proofs.Code.Jumps
import SlotCode.Proofs.Lowering.Edits
import SlotCode.Proofs.Lowering.Parts

/-!
# Lowering keeps jumps

The code of a tree has the jumps of the tree, and its loops are numbered in the order in which they
begin (`Outline.Mirrors`).  The loops that can be left are kept on the stack of contexts, so the stack
has to have the loops around a tree in it, whenever the tree is lowered, and no others.
-/

namespace SlotCode

variable {s s₁ : Session} {label : Option String} {span : Span} {ref : LoopRef} {v w : Value}
  {js : Option (List Jump)} {code : Code} {es : List Expr} {no : Option Expr}

open Lower Jump List Command

namespace Outline

/-- The labels of the loops that can be left, innermost first. -/
def labels (o : Outline) : List (Option String) :=
  o.loops.map Prod.fst

/-- The numbers of the loops that can be left, innermost first. -/
def loopIds (o : Outline) : List LoopId :=
  o.loops.map fun l => l.2.loop

/-- No two loops that can be left have the same number. -/
structure Numbered (o : Outline) : Prop where
  distinct : o.loopIds.Nodup
  below : ∀ id ∈ o.loopIds, id < o.nextLoop

/-- The code that was made between the two outlines has these jumps, and all numbers that were given to
loops in between, in order. -/
structure Mirrors (o o' : Outline) (js : Option (List Jump)) (code : Code) : Prop where
  frames : o'.frames.map Frame.loops = o.frames.map Frame.loops
  jumps : ∃ list, js = some list ∧ Command.jumpsAll o.loopIds code = some list
  numbers : ∃ count, o'.nextLoop = o.nextLoop + count ∧
    Command.loopIdsAll code = List.range' o.nextLoop count

variable {o o₁ o' : Outline} {js js' : Option (List Jump)} {code code' : Code}

/-- Loops are kept in frames only. -/
theorem loops_congr (h : o'.frames.map Frame.loops = o.frames.map Frame.loops) : o'.loops = o.loops := by
  rw [Outline.loops, Outline.loops, flatMap_def, flatMap_def, h]

namespace Mirrors

section

variable (h : o.Mirrors o' js code)

include h

theorem loops : o'.loops = o.loops :=
  loops_congr h.frames

theorem labels : o'.labels = o.labels := by
  rw [Outline.labels, h.loops, Outline.labels]

theorem loopIds : o'.loopIds = o.loopIds := by
  rw [Outline.loopIds, h.loops, Outline.loopIds]

theorem numbered (hn : o.Numbered) : o'.Numbered := by
  obtain ⟨count, hcount, -⟩ := h.numbers
  refine ⟨h.loopIds ▸ hn.distinct, fun id hid => ?_⟩
  rw [hcount]
  exact Nat.lt_add_right count (hn.below id (h.loopIds ▸ hid))

end

/-- Nothing that was lowered, and no number that was given. -/
theorem plain (hframes : o'.frames.map Frame.loops = o.frames.map Frame.loops)
    (hnext : o'.nextLoop = o.nextLoop) (hcode : ∀ c ∈ code, c.isPlain = true) :
    o.Mirrors o' (some []) code := by
  obtain ⟨hjumps, hids⟩ := jumpsAll_of_plain o.loopIds hcode
  exact ⟨hframes, ⟨[], rfl, hjumps⟩, 0, hnext, hids⟩

theorem refl (o : Outline) : o.Mirrors o (some []) [] :=
  plain rfl rfl (forall_mem_nil _)

/-- One piece of code after the other. -/
theorem seq (h : o.Mirrors o₁ js code) (h' : o₁.Mirrors o' js' code') :
    o.Mirrors o' (join js js') (code ++ code') := by
  obtain ⟨list, rfl, hlist⟩ := h.jumps
  obtain ⟨list', rfl, hlist'⟩ := h'.jumps
  obtain ⟨count, hcount, hids⟩ := h.numbers
  obtain ⟨count', hcount', hids'⟩ := h'.numbers
  rw [h.loopIds] at hlist'
  refine ⟨h'.frames.trans h.frames, ⟨list ++ list', rfl, ?_⟩, count + count',
    by rw [hcount', hcount, Nat.add_assoc], ?_⟩
  · rw [jumpsAll_append, hlist, hlist']
    rfl
  · rw [loopIdsAll_append, hids, hids', hcount, range'_append_1]

/-- What comes after has no jumps. -/
theorem andPlain (h : o.Mirrors o₁ js code) (h' : o₁.Mirrors o' (some []) code') :
    o.Mirrors o' js (code ++ code') := by
  have hboth := h.seq h'
  rwa [join_nil_right] at hboth

/-- What came before has no jumps. -/
theorem afterPlain (h : o.Mirrors o₁ (some []) code) (h' : o₁.Mirrors o' js code') :
    o.Mirrors o' js (code ++ code') := by
  have hboth := h.seq h'
  rwa [join_nil_left] at hboth

theorem branch (h : o.Mirrors o₁ js code) (h' : o₁.Mirrors o' js' code') (span : Span)
    (test : Operand) : o.Mirrors o' (join js js') [.branch span test code code'] := by
  obtain ⟨hframes, hjumps, hnumbers⟩ := h.seq h'
  rw [jumpsAll_append] at hjumps
  rw [loopIdsAll_append] at hnumbers
  refine ⟨hframes, ?_, ?_⟩
  · rwa [jumpsAll, jumpsAll, Command.jumps, join_nil_right]
  · rwa [loopIdsAll, loopIdsAll, Command.loopIds, append_nil]

end Mirrors

/-- The loop that a `leave` means is found by its number where the tree has it by its label. -/
theorem depth_of_target (hn : o.Numbered) (h : o.target label = some ref) :
    ∃ depth, depthOf o.labels label = some depth ∧ o.loopIds.findIdx? (· = ref.loop) = some depth := by
  have hdistinct := hn.distinct
  unfold Outline.target at h
  unfold Outline.labels Outline.loopIds at *
  cases label with
  | none =>
    cases hl : o.loops with
    | nil =>
      rw [hl] at h
      cases h
    | cons l rest =>
      rw [hl] at h
      cases h
      exact ⟨0, rfl, by simp [findIdx?_cons]⟩
  | some name =>
    simp only [depthOf] at h ⊢
    generalize o.loops = loops at h hdistinct ⊢
    induction loops with
    | nil => cases h
    | cons l rest ih =>
      rw [map_cons, nodup_cons] at hdistinct
      by_cases hname : l.1 = some name
      · rw [find?_cons_of_pos (by simpa using hname)] at h
        cases h
        exact ⟨0, by simp [findIdx?_cons, hname], by simp [findIdx?_cons]⟩
      · rw [find?_cons_of_neg (by simpa using hname)] at h
        obtain ⟨depth, hlabel, hid⟩ := ih h hdistinct.2
        obtain ⟨found, hfound, rfl⟩ := Option.map_eq_some_iff.1 h
        have hne : l.2.loop ≠ found.2.loop := by
          intro heq
          exact hdistinct.1 (heq ▸ mem_map_of_mem (mem_of_find?_eq_some hfound))
        refine ⟨depth + 1, ?_, ?_⟩
        · rw [map_cons, findIdx?_cons, hlabel]
          simp [hname]
        · rw [map_cons, findIdx?_cons, hid]
          simp [hne]

end Outline

open Outline

/-! ## Steps -/

theorem Scope.Edits.frames {allowed : VarId → Prop} {s s' : Scope} (h : s.Edits allowed s') :
    s'.contexts.map Context.frame = s.contexts.map Context.frame := by
  induction h with
  | refl => rfl
  | temp span owner _ _ ih =>
    rw [ih, Scope.newTemp, Scope.newVar]
    split <;> simp [Scope.contexts, Context.frame, Scope.frame_addOwned]
  | change _ _ _ ih => exact ih

/-- A step that only edits the session, and the commands it makes. -/
theorem EitherWayAt.mirrors {α : Type} {x : Lower α} {a : α} {s' : Session}
    (hx : EitherWayAt (fun _ => True) (Session.Edits TypeGraph.Any fun _ => True) s x)
    (h : x s = .ok a s') (hcode : ∀ c ∈ code, c.isPlain = true) :
    s.outline.Mirrors s'.outline (some []) code := by
  have hedits := (hx.ok h).scope
  refine .plain ?_ hedits.nextLoop hcode
  simp only [Session.outline, hedits.frames]

theorem plain_singleton {c : Command} (h : c.isPlain = true) : ∀ d ∈ [c], d.isPlain = true := by
  simpa using h

theorem plain_assignments (span : Span) (slots : List VarId) (operands : List Operand) :
    ∀ c ∈ assignments span slots operands, c.isPlain = true := by
  intro c hc
  unfold assignments at hc
  obtain ⟨i, hi, rfl⟩ := mem_iff_getElem.1 hc
  rw [getElem_zipWith]
  rfl

theorem plain_comparisonCode (cs : List Comparison) (dest : VarId) :
    ∀ c ∈ comparisonCode cs dest, c.isPlain = true := by
  induction cs generalizing dest with
  | nil => simp [comparisonCode]
  | cons c cs ih =>
    rw [comparisonCode, forall_mem_cons]
    exact ⟨rfl, ih (dest + 1)⟩

section

variable {s s' : Session}

theorem runComparisons_mirrors {cs : List Comparison} {tests : List Operand}
    (h : runComparisons cs s = .ok (code, tests) s') :
    s.outline.Mirrors s'.outline (some []) code := by
  obtain ⟨-, rfl, -⟩ := runComparisons_ok h
  exact EitherWayAt.mirrors (runComparisons_edits _ s) h (plain_comparisonCode _ _)

theorem holdInteger_mirrors {id : VarId} (h : holdInteger v span s = .ok (code, id) s') :
    s.outline.Mirrors s'.outline (some []) code := by
  refine EitherWayAt.mirrors (holdInteger_edits _ _ s) h ?_
  rcases holdInteger_ok h with ⟨-, rfl, -⟩ | ⟨operand, -, -, rfl, -⟩
  · exact forall_mem_nil _
  · exact plain_singleton rfl

theorem wrapValue_mirrors {payloadSpan : Span}
    (h : wrapValue v payloadSpan span s = .ok (code, w) s') :
    s.outline.Mirrors s'.outline (some []) code := by
  obtain ⟨-, -, rfl, -⟩ := wrapValue_ok h
  exact EitherWayAt.mirrors (wrapValue_edits _ _ _ s) h (plain_singleton rfl)

theorem consValue_mirrors {head tail : Value} (h : consValue head tail span s = .ok (code, w) s') :
    s.outline.Mirrors s'.outline (some []) code := by
  obtain ⟨_, _, _, _, -, -, -, -, -, rfl, -⟩ := consValue_ok h
  exact EitherWayAt.mirrors (consValue_edits _ _ _ s) h (plain_singleton rfl)

theorem wrapNothing_mirrors {payload : TypeExpr} (h : wrapNothing payload span s = .ok (code, w) s') :
    s.outline.Mirrors s'.outline (some []) code := by
  obtain ⟨-, rfl, -⟩ := wrapNothing_ok h
  exact EitherWayAt.mirrors (wrapNothing_edits (fun _ => trivial) _ s) h (plain_singleton rfl)

theorem consNothing_mirrors {item : TypeExpr} (h : consNothing item span s = .ok (code, w) s') :
    s.outline.Mirrors s'.outline (some []) code := by
  obtain ⟨-, rfl, -⟩ := consNothing_ok h
  exact EitherWayAt.mirrors (consNothing_edits (fun _ => trivial) _ s) h (plain_singleton rfl)

theorem call_mirrors {result : TypeId} {b : Bindings} {name : String} {native : Bool}
    {inputs : List Operand} {outputs : List VarId} {targetSpan : Span} {command : Command}
    (hresult : callResult result b span s = .ok (outputs, v) s₁)
    (hcommand : callCommand name native inputs outputs targetSpan span s₁ = .ok command s') :
    s.outline.Mirrors s'.outline (some []) [command] := by
  have hfirst : s.outline.Mirrors s₁.outline (some []) [] :=
    EitherWayAt.mirrors (callResult_edits _ _ _ s) hresult (forall_mem_nil _)
  refine hfirst.andPlain (EitherWayAt.mirrors (callCommand_edits _ _ _ _ _ _ s₁) hcommand ?_)
  rcases (callCommand_ok hcommand).2 with ⟨-, rfl⟩ | ⟨-, _, -, rfl⟩
  · exact plain_singleton rfl
  · exact plain_singleton rfl

theorem storeInto_mirrors {pattern : Pattern} (h : storeInto pattern v span s = .ok code s') :
    s.outline.Mirrors s'.outline (some []) code := by
  obtain ⟨-, slots, -, rfl⟩ := storeInto_ok h
  exact EitherWayAt.mirrors (storeInto_edits (fun _ _ => trivial) _ _ s) h (plain_assignments _ _ _)

theorem keepValue_mirrors (h : keepValue v span s = .ok (code, w) s') :
    s.outline.Mirrors s'.outline (some []) code := by
  refine EitherWayAt.mirrors (keepValue_edits _ _ s) h ?_
  rcases keepValue_ok h with ⟨-, rfl, -⟩ | ⟨dest, s₁, s₂, -, hstore, -⟩
  · exact forall_mem_nil _
  · obtain ⟨-, slots, -, rfl⟩ := storeInto_ok hstore
    exact plain_assignments _ _ _

/-- Joining two branches adds only plain commands to each. -/
theorem joinBranches_plain {yesCode yesCode' noCode : Code} {yes : Value}
    {no : Option (Code × Value)}
    (h : joinBranches (yesCode, yes) no span s = .ok (yesCode', noCode, v) s') :
    ∃ a b, yesCode' = yesCode ++ a ∧ noCode = (no.map Prod.fst).getD [] ++ b ∧
      (∀ c ∈ a, c.isPlain = true) ∧ ∀ c ∈ b, c.isPlain = true := by
  rcases joinBranches_ok h with ⟨-, rfl, rfl, -⟩ |
    ⟨c, w, dest, s₁, s₂, s₃, a, b, rfl, -, -, hyes, hno, -, rfl, rfl⟩
  · exact ⟨[], [], by simp, by simp, by simp, by simp⟩
  · obtain ⟨-, slots, -, rfl⟩ := storeInto_ok hyes
    obtain ⟨-, slots', -, rfl⟩ := storeInto_ok hno
    exact ⟨_, _, rfl, rfl, plain_assignments _ _ _, plain_assignments _ _ _⟩

/-- Two branches that were joined. -/
theorem joinBranches_mirrors {o o₁ : Outline} {js' : Option (List Jump)}
    {yesCode yesCode' noCode : Code} {yes : Value} {no : Option (Code × Value)}
    (hyes : o.Mirrors o₁ js yesCode) (hno : o₁.Mirrors s.outline js' ((no.map Prod.fst).getD []))
    (h : joinBranches (yesCode, yes) no span s = .ok (yesCode', noCode, v) s') (test : Operand) :
    o.Mirrors s'.outline (join js js') [.branch span test yesCode' noCode] := by
  obtain ⟨a, b, rfl, rfl, ha, hb⟩ := joinBranches_plain h
  have hjoin := EitherWayAt.mirrors (joinBranches_edits _ _ _ s) h hb
  exact (hyes.andPlain (.plain rfl rfl ha)).branch (hno.andPlain hjoin) span test

theorem leaveWith_mirrors (hn : s.outline.Numbered)
    (h : leaveWith label v span s = .ok (code, w) s') :
    s.outline.Mirrors s'.outline
      ((depthOf s.outline.labels label).map fun depth => [.leave depth]) code := by
  have hedits : ∀ {c : Code}, (∀ d ∈ c, d.isPlain = true) → s.outline.Mirrors s'.outline (some []) c :=
    EitherWayAt.mirrors (leaveWith_edits (fun _ _ => trivial) _ _) h
  obtain ⟨-, ref, i, s₁, stores, htarget, -, -, -, hstores, rfl⟩ := leaveWith_ok h
  have hplain : ∀ c ∈ stores, c.isPlain = true := by
    rcases hstores with ⟨-, rfl, -⟩ | ⟨-, slots, -, rfl⟩
    · exact forall_mem_nil _
    · exact plain_assignments _ _ _
  refine (hedits hplain).afterPlain ⟨rfl, ?_, 0, rfl, rfl⟩
  have hframes : s.outline.Mirrors s'.outline (some []) [] := hedits (forall_mem_nil _)
  obtain ⟨depth, hdepth, hid⟩ := depth_of_target hn htarget
  refine ⟨[.leave depth], by rw [hdepth]; rfl, ?_⟩
  rw [jumpsAll, jumpsAll, jumps, hframes.loopIds, hid, join_nil_right]
  rfl

/-! ## Targets and contexts -/

theorem bindName_mirrors {name : String} {mode mode' : BindMode} {id : VarId}
    (h : bindName name span mode s = .ok (id, mode') s') :
    s.outline.Mirrors s'.outline (some []) [] := by
  cases mode with
  | resolve =>
    obtain ⟨rfl, -⟩ := bindName_resolve_ok h
    exact .refl _
  | declare bound =>
    obtain ⟨-, -, hs'⟩ := bindName_declare_ok h
    rw [hs']
    refine .plain ?_ rfl (forall_mem_nil _)
    simp only [Outline.modifyFrame, Outline.push]
    cases s.outline.frames <;> rfl

end

mutual

theorem bindPattern_mirrors {mode mode' : BindMode} {pattern : Pattern} {s s' : Session}
    (labels : List (Option String)) (target : Expr)
    (h : bindPattern mode target s = .ok (pattern, mode') s') :
    s.outline.Mirrors s'.outline (target.jumps labels) [] := by
  cases target with
  | var span name =>
    obtain ⟨id, hname, -⟩ := bindPattern_var h
    exact bindName_mirrors hname
  | tuple span targets =>
    obtain ⟨items, hitems, -⟩ := bindPattern_tuple h
    exact bindPatterns_mirrors labels targets hitems
  | _ => exact absurd h unsupported_ne_ok

theorem bindPatterns_mirrors {mode mode' : BindMode} {items : List Pattern} {s s' : Session}
    (labels : List (Option String)) (targets : List Expr)
    (h : bindPatterns mode targets s = .ok (items, mode') s') :
    s.outline.Mirrors s'.outline (Expr.jumpsAll labels targets) [] := by
  cases targets with
  | nil =>
    cases h
    exact .refl _
  | cons target targets =>
    obtain ⟨item, _, s₁, rest, hitem, hitems, -⟩ := bindPatterns_cons h
    exact (bindPattern_mirrors labels target hitem).seq (bindPatterns_mirrors labels targets hitems)

end

/-- Leaving the context that was entered. -/
theorem exit_frames {loops : List (Option String × LoopRef)}
    (h : s₁.outline.frames.map Frame.loops = loops :: s.outline.frames.map Frame.loops) :
    s₁.exit.outline.frames.map Frame.loops = s.outline.frames.map Frame.loops ∧
      s₁.exit.outline.nextLoop = s₁.outline.nextLoop := by
  have hlen : 1 < s₁.outline.frames.length := by
    have := congrArg List.length h
    rw [length_map, length_cons, length_map] at this
    rw [this]
    exact Nat.succ_lt_succ (length_pos_iff.2 (by simp [Session.outline, Scope.contexts]))
  rw [s₁.outline_exit hlen]
  refine ⟨?_, rfl⟩
  rw [Outline.exit, map_tail, h, tail_cons]

/-- A context of its own changes no loop. -/
theorem Outline.Mirrors.within (h : s.enter.outline.Mirrors s₁.outline js code) :
    s.outline.Mirrors s₁.exit.outline js code := by
  obtain ⟨hframes, hnext⟩ := exit_frames h.frames
  refine ⟨hframes, h.jumps, ?_⟩
  rw [hnext]
  exact h.numbers

theorem Outline.Numbered.enter (hn : s.outline.Numbered) : s.enter.outline.Numbered :=
  ⟨hn.distinct, hn.below⟩

/-- The body of a loop, in a context where the loop can be left. -/
theorem Outline.Mirrors.loop {s₂ : Session}
    (hloop : updateScope (·.newLoop label span) s.enter = .ok ref s₁)
    (h : s₁.outline.Mirrors s₂.outline js code) :
    s.outline.Mirrors s₂.exit.outline (js.map fun js => [.loop js]) [.loop span ref.loop code] := by
  obtain ⟨rfl, hs₁⟩ := newLoop_ok hloop
  have hframes₁ : s₁.outline.frames.map Frame.loops =
      [(label, ⟨s.outline.nextLoop, s.outline.vars.length⟩)] :: s.outline.frames.map Frame.loops := by
    rw [hs₁]
    rfl
  have hids : s₁.outline.loopIds = s.outline.nextLoop :: s.outline.loopIds := by
    rw [Outline.loopIds, Outline.loops, flatMap_def, hframes₁, Outline.loopIds, Outline.loops,
      flatMap_def]
    rfl
  have hnext₁ : s₁.outline.nextLoop = s.outline.nextLoop + 1 := by rw [hs₁]; rfl
  obtain ⟨hframes, hnext⟩ := exit_frames (h.frames.trans hframes₁)
  obtain ⟨list, rfl, hlist⟩ := h.jumps
  obtain ⟨count, hcount, hnumbers⟩ := h.numbers
  refine ⟨hframes, ⟨[.loop list], rfl, ?_⟩, count + 1, ?_, ?_⟩
  · rw [hids] at hlist
    rw [jumpsAll, jumpsAll, Command.jumps]
    exact (join_nil_right _).trans (congrArg (Option.map fun js => [Jump.loop js]) hlist)
  · rw [hnext, hcount, hnext₁, Nat.add_assoc, Nat.add_comm 1]
  · rw [loopIdsAll, loopIdsAll, Command.loopIds, append_nil, hnumbers, hnext₁, range'_succ]
    rfl

theorem newLoop_numbered (hn : s.outline.Numbered)
    (hloop : updateScope (·.newLoop label span) s.enter = .ok ref s₁) :
    s₁.outline.Numbered ∧ s₁.outline.labels = label :: s.outline.labels := by
  obtain ⟨rfl, hs₁⟩ := newLoop_ok hloop
  have hloops : s₁.outline.loops =
      (label, ⟨s.outline.nextLoop, s.outline.vars.length⟩) :: s.outline.loops := by
    rw [hs₁]
    rfl
  have hnext₁ : s₁.outline.nextLoop = s.outline.nextLoop + 1 := by rw [hs₁]; rfl
  refine ⟨⟨?_, fun id hid => ?_⟩, by rw [Outline.labels, hloops]; rfl⟩
  · rw [Outline.loopIds, hloops, map_cons, nodup_cons]
    exact ⟨fun hmem => Nat.lt_irrefl _ (hn.below _ hmem), hn.distinct⟩
  · rw [Outline.loopIds, hloops, map_cons] at hid
    rw [hnext₁]
    rcases mem_cons.1 hid with rfl | hid
    · exact Nat.lt_succ_self _
    · exact Nat.lt_succ_of_lt (hn.below id hid)

/-! ## Trees -/

/-- The jumps of the code are those of the expression. -/
def Expr.Mirrored (e : Expr) : Prop :=
  ∀ ⦃s s' : Session⦄ ⦃code : Code⦄ ⦃v : Value⦄, s.outline.Numbered →
    lowerExpr e s = .ok (code, v) s' →
    s.outline.Mirrors s'.outline (e.jumps s.outline.labels) code

def Block.Mirrored (b : Block) : Prop :=
  ∀ ⦃s s' : Session⦄ ⦃code : Code⦄ ⦃v : Value⦄, s.outline.Numbered →
    lowerBlock b s = .ok (code, v) s' →
    s.outline.Mirrors s'.outline (b.jumps s.outline.labels) code

def Stmt.Mirrored (stmt : Stmt) : Prop :=
  ∀ ⦃s s' : Session⦄ ⦃code : Code⦄ ⦃value v : Value⦄, s.outline.Numbered →
    lowerStmt value stmt s = .ok (code, v) s' →
    s.outline.Mirrors s'.outline (stmt.jumps s.outline.labels) code

section

variable {s s' : Session} {code : Code}

theorem Part.Lowered.mirrors {held : Bool} {part : Part} (h : part.Lowered held)
    (he : part.expr.Mirrored) (hn : part.before.outline.Numbered) :
    part.before.outline.Mirrors part.after.outline (part.expr.jumps part.before.outline.labels)
      part.code := by
  cases h with
  | value h => exact he hn h
  | held h _ hhold => exact (he hn h).andPlain (holdInteger_mirrors hhold)

theorem InTurn.mirrors {held : Bool} {parts : List Part} (h : InTurn held es s code s' parts)
    (hes : ∀ e ∈ es, e.Mirrored) (hn : s.outline.Numbered) :
    s.outline.Mirrors s'.outline (Expr.jumpsAll s.outline.labels es) code := by
  induction h with
  | nil => exact .refl _
  | cons hpart _ ih =>
    obtain ⟨he, hes⟩ := forall_mem_cons.1 hes
    have hfirst := hpart.mirrors he hn
    have hrest := ih hes (hfirst.numbered hn)
    rw [hfirst.labels] at hrest
    exact hfirst.seq hrest

theorem lowerLinks_mirrors {left : List VarId} {before cs : List Comparison} {links : List Link}
    (hlinks : ∀ group, .operands group ∈ links → ∀ e ∈ group, e.Mirrored) (hn : s.outline.Numbered)
    (h : lowerLinks span left before links s = .ok (code, cs) s') :
    s.outline.Mirrors s'.outline (Link.jumpsAll s.outline.labels links) code := by
  induction lowerLinks_lowered h with
  | nil => exact .refl _
  | pair hgroup hrest _ ih =>
    obtain ⟨parts, hparts, -⟩ := lowerGroup_inTurn hgroup
    have hfirst := hparts.mirrors (hlinks _ (by simp)) hn
    have hrest := ih (fun g hg => hlinks g (by simp [hg])) (hfirst.numbered hn) hrest
    rw [hfirst.labels] at hrest
    exact hfirst.seq hrest

theorem lowerElse_mirrors (hno : ∀ e ∈ no, e.Mirrored) {r : Option (Code × Value)}
    (hn : s.outline.Numbered) (h : lowerElse no s = .ok r s') :
    s.outline.Mirrors s'.outline (Expr.jumpsIn s.outline.labels no) ((r.map Prod.fst).getD []) := by
  rcases lowerElse_cases h with ⟨rfl, rfl, rfl⟩ | ⟨e, c, v, rfl, rfl, hlower⟩
  · exact .refl _
  · exact hno e rfl hn hlower

theorem lowerStmts_mirrors {stmts : List Stmt} (hstmts : ∀ stmt ∈ stmts, stmt.Mirrored)
    {value : Value} (hn : s.outline.Numbered) (h : lowerStmts value stmts s = .ok (code, v) s') :
    s.outline.Mirrors s'.outline (Stmt.jumpsAll s.outline.labels stmts) code := by
  induction stmts generalizing s code value with
  | nil =>
    cases h
    exact .refl _
  | cons stmt stmts ih =>
    obtain ⟨c, w, s₁, cs, hhead, htail, rfl⟩ := lowerStmts_cons h
    have hfirst := hstmts stmt mem_cons_self hn hhead
    have hrest := ih (fun stmt hst => hstmts stmt (mem_cons_of_mem _ hst)) (hfirst.numbered hn) htail
    rw [hfirst.labels] at hrest
    exact hfirst.seq hrest

end

theorem Expr.Mirrored.cond {test yes : Expr} (htest : test.Mirrored) (hyes : yes.Mirrored)
    (hno : ∀ e ∈ no, e.Mirrored) : (Expr.cond span test yes no).Mirrored := by
  intro s s' code v hn h
  cases lowerExpr_cases h with
  | cond hlower _ _ hlowerYes hlowerNo hjoin =>
    have hfirst := htest hn hlower
    have hsecond := hyes (hfirst.numbered hn) hlowerYes
    have hthird := lowerElse_mirrors hno (hsecond.numbered (hfirst.numbered hn)) hlowerNo
    rw [hsecond.labels, hfirst.labels] at hthird
    rw [hfirst.labels] at hsecond
    exact hfirst.seq (joinBranches_mirrors hsecond hthird hjoin _)

theorem Expr.Mirrored.ifFull {boxed target yes : Expr} (hboxed : boxed.Mirrored)
    (hyes : yes.Mirrored) (hno : ∀ e ∈ no, e.Mirrored) :
    (Expr.ifFull span boxed target yes no).Mirrored := by
  intro s s' code v hn h
  cases lowerExpr_cases h with
  | @ifFull _ _ _ _ _ _ s₁ s₂ s₃ s₄ s₅ s₆ _ _ _ _ _ _ _ _ _ operand full pattern _ slots _ hlower
      hunboxed hlowerYes hlowerNo hjoin =>
    obtain ⟨-, hfull, hbind, hexpand⟩ := hunboxed
    have hfirst := (hboxed hn hlower).andPlain
      (EitherWayAt.mirrors (newTyped_edits _ _ _) hfull
        (plain_singleton (c := .native span .full [operand] [full]) rfl))
    have hn₂ := hfirst.numbered hn
    have htarget := bindPattern_mirrors s₂.outline.labels target hbind
    have hunwrap := htarget.andPlain
      (EitherWayAt.mirrors (expand_edits _ _ (fun _ _ => trivial) _ _) hexpand
        (plain_singleton (c := .native pattern.span .unwrap [operand] slots) rfl))
    have hn₄ := hunwrap.numbered hn₂.enter
    have hbranch := hyes hn₄ hlowerYes
    have hlabels : s₄.outline.labels = s₂.outline.labels := hunwrap.labels
    rw [hlabels] at hbranch
    have hbranch := (hunwrap.seq hbranch).within
    have hother := lowerElse_mirrors hno (hbranch.numbered hn₂) hlowerNo
    rw [hbranch.labels] at hother
    have hjoined := joinBranches_mirrors hbranch hother hjoin (.var full)
    rw [hfirst.labels] at hjoined
    have hall := hfirst.seq hjoined
    rw [append_assoc] at hall
    exact hall

/-- The code of every tree has its jumps. -/
theorem mirrored : Hereditary Expr.Mirrored Block.Mirrored Stmt.Mirrored where
  var span name s s' code v hn h := by
    cases lowerExpr_cases h
    exact .refl _
  int span value s s' code v hn h := by
    cases h
    exact .refl _
  bool span value s s' code v hn h := by
    cases h
    exact .refl _
  str span value s s' code v hn h := by
    cases h
    exact .refl _
  tuple span items hitems s s' code v hn h := by
    cases lowerExpr_cases h with
    | tuple hlower htuple =>
      obtain ⟨parts, hparts, -⟩ := lowerItems_inTurn hlower
      have hall := (hparts.mirrors hitems hn).andPlain
        (EitherWayAt.mirrors (tupleOf_edits _ _ _) htuple (forall_mem_nil _))
      rwa [append_nil] at hall
  arith span op operands hoperands s s' code v hn h := by
    cases lowerExpr_cases h with
    | arith hlower =>
      obtain ⟨parts, hparts, -⟩ := lowerOperands_inTurn hlower
      exact hparts.mirrors hoperands hn
  compare span chain hchain s s' code v hn h := by
    cases lowerExpr_cases h with
    | compare hgroup hlinks hrun =>
      obtain ⟨parts, hparts, -⟩ := lowerGroup_inTurn hgroup
      have hfirst := hparts.mirrors (hchain _ mem_cons_self) hn
      have hrest := lowerLinks_mirrors (fun g hg => hchain g (mem_cons_of_mem _ hg))
        (hfirst.numbered hn) hlinks
      rw [hfirst.labels] at hrest
      exact (hfirst.seq hrest).andPlain (runComparisons_mirrors hrun)
  not span operand _ s s' code v _ h := absurd h unsupported_ne_ok
  call span target args hargs s s' code v hn h := by
    cases lowerExpr_cases h with
    | call _ hlen hlower hresult hcommand =>
      obtain ⟨parts, hparts, -⟩ := lowerArgs_inTurn hlen hlower
      have hboth := (hparts.mirrors hargs hn).andPlain (call_mirrors hresult hcommand)
      rw [Expr.jumps, Expr.jumps, join_nil_left]
      exact hboth
  block span body hbody s s' code v hn h := by
    cases lowerExpr_cases h with
    | block hlower hkeep => exact (hbody hn hlower).andPlain (keepValue_mirrors hkeep)
  cond span test yes no htest hyes hno := .cond htest hyes hno
  ifFull span boxed pattern yes no hboxed hyes hno := .ifFull hboxed hyes hno
  loop span label body hbody s s' code v hn h := by
    cases lowerExpr_cases h with
    | loop hloop hlower _ =>
      obtain ⟨hn₁, hlabels⟩ := newLoop_numbered hn hloop
      have hinner := hbody hn₁ hlower
      rw [hlabels] at hinner
      exact hinner.loop hloop
  leave span label value hvalue s s' code v hn h := by
    cases lowerExpr_cases h with
    | leave hleave =>
      rw [Expr.jumps, Expr.jumpsIn, join_nil_left]
      exact leaveWith_mirrors hn hleave
    | leaveWith hlower hleave =>
      have hfirst := hvalue _ rfl hn hlower
      have hrest := leaveWith_mirrors (hfirst.numbered hn) hleave
      rw [hfirst.labels] at hrest
      exact hfirst.seq hrest
  wrap span payload hpayload s s' code v hn h := by
    cases lowerExpr_cases h with
    | wrap hlower hwrap => exact (hpayload hn hlower).andPlain (wrapValue_mirrors hwrap)
  wrapEmpty span payload _ s s' code v hn h := wrapNothing_mirrors h
  cons span head tail hhead htail s s' code v hn h := by
    cases lowerExpr_cases h with
    | cons hlower hlower' hcons =>
      have hfirst := hhead hn hlower
      have hrest := htail (hfirst.numbered hn) hlower'
      rw [hfirst.labels] at hrest
      exact (hfirst.seq hrest).andPlain (consValue_mirrors hcons)
  consEmpty span item _ s s' code v hn h := consNothing_mirrors h
  body span stmts hstmts s s' code v hn h := by
    obtain ⟨s₁, hlower, rfl⟩ := lowerBlock_cases h
    exact (lowerStmts_mirrors hstmts hn.enter hlower).within
  bind span target value hvalue s s' code kept v hn h := by
    cases lowerStmt_cases h with
    | bind hlower hbind hstore =>
      have htarget := bindPattern_mirrors s.outline.labels target hbind
      exact (hvalue hn hlower).seq (htarget.andPlain (storeInto_mirrors hstore))
  set span target value hvalue s s' code kept v hn h := by
    cases lowerStmt_cases h with
    | set hlower hbind hstore =>
      have htarget := bindPattern_mirrors s.outline.labels target hbind
      exact (hvalue hn hlower).seq (htarget.andPlain (storeInto_mirrors hstore))
  yield span value hvalue s s' code kept v hn h := hvalue hn h
  ret span value _ s s' code kept v _ h := absurd h unsupported_ne_ok
  eval span value hvalue s s' code kept v hn h := by
    cases lowerStmt_cases h with
    | eval hlower => exact hvalue hn hlower

end SlotCode
