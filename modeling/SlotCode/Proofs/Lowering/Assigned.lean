import SlotCode.Proofs.Code.Assigned
import SlotCode.Proofs.Lowering.Parts

/-!
# Lowering writes before it reads

Where code is made, all that the names in scope hold has been written (`Outline.Ready`), and the code
of a tree has written all that the value of the tree reads.  It stores only into real variables.

A loop is left from several places, and the type of its value is fixed at the first of them.  What has
been written wherever it is left is said by what the outline *after* the loop has for it
(`Outline.Serves`).
-/

namespace SlotCode

variable {v w : Value} {x id : VarId} {yes target : Expr} {pattern : Pattern} {type t : TypeId}
  {slots : List VarId} {span : Span} {cs : List Comparison} {code : Code} {es : List Expr}
  {inputs : List Operand} {no : Option Expr}

open Lower Outline List Code

/-! ## What operands read -/

namespace Operand

/-- What the operands read. -/
def readSet (operands : List Operand) : Set VarId :=
  {x | x ∈ readsAll operands}

theorem readSet_append (a b : List Operand) : readSet (a ++ b) = readSet a ∪ readSet b := by
  ext x
  simp [readSet, mem_readsAll, or_and_right, exists_or]

theorem readSet_singleton (operand : Operand) : readSet [operand] = {x | x ∈ operand.reads} := by
  ext x
  simp [readSet, mem_readsAll]

theorem readSet_vars (ids : List VarId) : readSet (ids.map .var) = {x | x ∈ ids} := by
  ext x
  simp [readSet, mem_readsAll, reads]

end Operand

open Operand

theorem Value.leaves_of_scalar {operand : Operand} (h : v.shape = .scalar operand) :
    v.leaves = [operand] := by
  simp [leaves, h]

theorem Value.readSet_of_void (h : v.shape = .void) (A : Set VarId) : readSet v.leaves ⊆ A := by
  rw [leaves_of_void h]
  exact fun x hx => nomatch hx

namespace Outline

variable {o o' : Outline} {A B : Set VarId}

/-! ## Real variables -/

/-- The variable has a type and is its own slot. -/
def Real (o : Outline) (x : VarId) : Prop :=
  (∃ t, o.typeOf x = some t) ∧ o.slots x = [x]

theorem Real.mono (hg : o.Good) (hg' : o'.Good) (h : o.Grows o') (hx : o.Real x) : o'.Real x := by
  obtain ⟨⟨t, ht⟩, hslots⟩ := hx
  exact ⟨⟨t, h.typeOf ht⟩, (h.slots hg hg' ht).trans hslots⟩

theorem Good.real_of_type (hg : o.Good) (ht : o.typeOf x = some t)
    (htuple : ∀ items, o.types.kind t ≠ .ok (.tuple items)) : o.Real x := by
  refine ⟨⟨t, ht⟩, slots_of_none ?_⟩
  obtain ⟨i, hi, hit⟩ := typeOf_eq_some_iff.1 ht
  rw [leavesOf_eq hi]
  cases hl : i.leaves with
  | none => rfl
  | some ls =>
    obtain ⟨items, hk⟩ := ((hg.vars x i hi).shaped t hit).1 (by rw [hl]; rfl)
    exact absurd hk (htuple items)

theorem Good.leaf_not_tuple (hg : o.Good) (hvalue : o.types.IsValue type)
    (ht : t ∈ o.types.leafTypes type) (items : List TypeId) :
    o.types.kind t ≠ .ok (.tuple items) := by
  intro hk
  obtain ⟨kind, hk', hi⟩ := TypeGraph.not_tuple_of_mem_leafTypes hg.types.toSound hvalue.lt_size ht
  cases TypeGraph.kind_unique hk hk'
  cases hi

/-- Variables that take the leaves of a type are real. -/
theorem Good.real_of_takes (hg : o.Good) (hvalue : o.types.IsValue type)
    (h : Forall₂ o.Takes slots (o.types.leafTypes type)) : ∀ x ∈ slots, o.Real x := by
  intro x hx
  obtain ⟨t, ht, t', ht', halike⟩ := TypeGraph.exists_of_forall₂ h hx
  refine hg.real_of_type ht' fun items hk => ?_
  obtain ⟨as, hk'⟩ := halike.tuple_iff.1 ⟨items, hk⟩
  exact hg.leaf_not_tuple hvalue ht as hk'

/-- The variables that are the leaves of a value are real. -/
theorem Good.real_of_leaf (hg : o.Good) (hv : v.Ok o) (hx : .var x ∈ v.leaves) : o.Real x := by
  have hvoid : v.shape ≠ .void := fun h => by
    rw [Value.leaves_of_void h] at hx
    cases hx
  obtain ⟨t, ht, htyped⟩ := TypeGraph.exists_of_forall₂ (hv.typed hvoid) hx
  cases htyped with
  | var htype => exact hg.real_of_type htype fun items => hg.leaf_not_tuple hv.value ht items

/-! ## What variables hold -/

/-- What a variable holds once it has been stored into. -/
def held (o : Outline) (id : VarId) : List VarId :=
  match o.typeOf id with
  | none => []
  | some type => if type = .void then [] else o.slots id

theorem held_of_type (h : o.typeOf id = some t) :
    o.held id = if t = .void then [] else o.slots id := by
  rw [held, h]

theorem held_subset_slots (o : Outline) (id : VarId) : o.held id ⊆ o.slots id := by
  unfold held
  split
  · exact nil_subset _
  · split
    · exact nil_subset _
    · exact Subset.refl _

theorem Grows.held (hg : o.Good) (hg' : o'.Good) (h : o.Grows o') (ht : o.typeOf id = some t) :
    o'.held id = o.held id := by
  rw [held_of_type ht, held_of_type (h.typeOf ht), h.slots hg hg' ht]

theorem Good.real_of_held (hg : o.Good) (hx : x ∈ o.held id) : o.Real x := by
  cases ht : o.typeOf id with
  | none =>
    rw [Outline.held, ht] at hx
    cases hx
  | some t =>
    have hr : o.Receives id t (o.slots id) := ⟨⟨t, ht, .refl _ _ _⟩, rfl⟩
    exact hg.real_of_takes (hg.isValue ht) (hr.takes hg) x (held_subset_slots o id hx)

/-- What has been written in the outline: all that the names in scope hold. -/
def Ready (o : Outline) (A : Set VarId) : Prop :=
  ∀ name id, (name, id) ∈ o.names → (∃ t, o.typeOf id = some t) ∧ ∀ x ∈ o.held id, x ∈ A

theorem Ready.more (h : o.Ready A) (hsub : A ⊆ B) : o.Ready B :=
  fun name id hmem => (h name id hmem).imp_right fun hx x hmem => hsub (hx x hmem)

/-- New names have to be written before they are in use. -/
theorem Ready.grows (h : o.Ready A) (hg : o.Good) (hg' : o'.Good) (hgrows : o.Grows o') (hsub : A ⊆ B)
    (hnames : ∀ name id, (name, id) ∈ o'.names → (name, id) ∈ o.names ∨
      (∃ t, o'.typeOf id = some t) ∧ ∀ x ∈ o'.held id, x ∈ B) : o'.Ready B := by
  intro name id hmem
  rcases hnames name id hmem with hmem | hnew
  · obtain ⟨⟨t, ht⟩, hheld⟩ := h name id hmem
    refine ⟨⟨t, hgrows.typeOf ht⟩, ?_⟩
    rw [hgrows.held hg hg' ht]
    exact fun x hx => hsub (hheld x hx)
  · exact hnew

theorem Ready.steps (h : o.Ready A) (hg : o.Good) (hsteps : o.Steps o') : o'.Ready A :=
  h.grows hg hsteps.good hsteps.grows (Set.Subset.refl _) fun _ _ hmem =>
    .inl (hsteps.names ▸ hmem)

/-! ## Plans -/

/-- The plan suits code that is made up to the outline. -/
structure Serves (o : Outline) (P : Plan) : Prop where
  stores : ∀ x, o.Real x → x ∈ P.stores
  left : ∀ label ref, (label, ref) ∈ o.loops →
    ∃ g, o.Grows g ∧ g.Good ∧ ∀ x ∈ P.left ref.loop, x ∈ g.held ref.var

theorem Serves.before {P : Plan} (h : o'.Serves P) (hg : o.Good) (hgrows : o.Grows o') (hg' : o'.Good)
    (hloops : o'.loops = o.loops) : o.Serves P where
  stores := fun x hx => h.stores x (hx.mono hg hg' hgrows)
  left label ref hmem := by
    obtain ⟨g, hg, hrest⟩ := h.left label ref (hloops ▸ hmem)
    exact ⟨g, hgrows.trans hg, hrest⟩

theorem Steps.serves {P : Plan} (hs : o.Steps o') (hg : o.Good) (h : o'.Serves P) : o.Serves P :=
  h.before hg hs.grows hs.good hs.loops

/-- A variable that is read holds all that the value reads. -/
theorem readSet_of_valueOf {s s' : Session} (h : valueOf id span s = .ok w s') :
    readSet w.leaves ⊆ {x | x ∈ s.outline.held id} := by
  obtain ⟨-, i, type, hi, ht, rfl⟩ := valueOf_ok h
  rw [held_of_type (typeOf_eq_some_iff.2 ⟨i, hi, ht⟩)]
  have hleaves := leavesOf_eq hi
  by_cases hvoid : type = .void
  · rw [if_pos hvoid]
    exact Value.readSet_of_void rfl _
  · rw [if_neg hvoid, if_neg hvoid]
    cases hl : i.leaves with
    | none =>
      rw [slots_of_none (hleaves.trans hl)]
      exact (readSet_vars [id]).subset
    | some ls =>
      rw [slots_of_some (hleaves.trans hl)]
      exact (readSet_vars ls).subset

end Outline

/-! ## Steps -/

section

variable {s s' : Session} {P : Plan} {A : Set VarId}

theorem assignments_assigns (span : Span) {operands : List Operand}
    (hlen : slots.length = operands.length) (hreads : readSet operands ⊆ A)
    (hstores : ∀ x ∈ slots, x ∈ P.stores) :
    Assigns P A (assignments span slots operands) {x | x ∈ slots} := by
  induction slots generalizing operands A with
  | nil =>
    rw [assignments, zipWith_nil_left]
    exact .nil fun x hx => absurd hx not_mem_nil
  | cons slot slots ih =>
    cases operands with
    | nil => cases hlen
    | cons operand operands =>
      rw [← singleton_append, readSet_append, Set.union_subset_iff, readSet_singleton] at hreads
      rw [forall_mem_cons] at hstores
      have hfirst : Assigns P A [.assign span slot operand] {x | x ∈ [slot]} :=
        .single rfl hreads.1 (by simpa [Command.writes] using hstores.1)
      refine (hfirst.seq (ih (Nat.succ.inj hlen) (hreads.2.trans Set.subset_union_left)
        hstores.2)).less fun x hx => ?_
      simpa using hx

/-- A value is stored, and something else reads what it was stored into. -/
theorem Stored.assigns {o : Outline} (h : Stored o s'.outline code v w) (hg : s'.outline.Good)
    (hv : v.Ok s'.outline) (hw : w.Ok s'.outline) (hvoid : v.shape ≠ .void)
    (hreads : readSet v.leaves ⊆ A) (hP : s'.outline.Serves P) :
    Assigns P A code (readSet w.leaves) := by
  have hvoid' : w.shape ≠ .void := fun heq =>
    hvoid (hv.void.2 ((h.type.eq_of_base (hw.void.1 heq ▸ hg.types.void) rfl).trans (hw.void.1 heq)))
  obtain ⟨span, slots, rfl, hleaves, -⟩ := h.slots
  have hlen : slots.length = v.leaves.length := by
    rw [(hv.typed hvoid).length_eq, ← (h.type.leafTypes hg.types.toSound).length_eq,
      ← (hw.typed hvoid').length_eq, hleaves, length_map]
  rw [hleaves, readSet_vars]
  refine assignments_assigns span hlen hreads fun x hx => hP.stores x (hg.real_of_leaf hw ?_)
  rw [hleaves]
  exact mem_map_of_mem hx

/-- Storing into a pattern writes all that its variables hold. -/
theorem storeInto_assigns (hg : s.outline.Good) (hv : v.Ok s.outline)
    (h : storeInto pattern v span s = .ok code s') (hreads : readSet v.leaves ⊆ A)
    (hP : s'.outline.Serves P) :
    Assigns P A code {x | x ∈ pattern.vars.flatMap s'.outline.slots} := by
  obtain ⟨hsteps, -, hvoid, slots, hfills, rfl⟩ := storeInto_fills hg hv h
  have htakes := hfills.takes hsteps.good
  have hv' := hv.mono hg hsteps.keeps
  have hreal := hsteps.good.real_of_takes hv'.value htakes
  rw [← hfills.slots_eq]
  exact assignments_assigns span (htakes.length_eq.trans (hv'.typed hvoid).length_eq.symm) hreads
    fun x hx => hP.stores x (hreal x hx)

theorem keepValue_assigns (hg : s.outline.Good) (hv : v.Ok s.outline)
    (h : keepValue v span s = .ok (code, w) s') (hreads : readSet v.leaves ⊆ A)
    (hP : s'.outline.Serves P) : Assigns P A code (readSet w.leaves) := by
  obtain ⟨hsteps, hw, ⟨hvoid, rfl, rfl⟩ | ⟨hvoid, hstored⟩⟩ := keepValue_stored hg hv h
  · exact .nil (Value.readSet_of_void hvoid _)
  · exact hstored.assigns hsteps.good (hv.mono hg hsteps.keeps) hw hvoid hreads hP

/-- What the second branch has written, if there is one. -/
def elseReads (no : Option (Code × Value)) : Set VarId :=
  {x | ∃ c w, no = some (c, w) ∧ x ∈ readSet w.leaves}

theorem joinBranches_assigns {yesCode noCode yesCode' : Code} {yes : Value}
    {no : Option (Code × Value)} (hg : s.outline.Good) (hyes : yes.Ok s.outline)
    (hno : ∀ c w, no = some (c, w) → w.Ok s.outline)
    (h : joinBranches (yesCode, yes) no span s = .ok (yesCode', noCode, v) s')
    (hyesCode : Assigns P A yesCode (readSet yes.leaves))
    (hnoCode : Assigns P A ((no.map Prod.fst).getD []) (elseReads no))
    (hP : s'.outline.Serves P) :
    Assigns P A yesCode' (readSet v.leaves) ∧ Assigns P A noCode (readSet v.leaves) := by
  obtain ⟨hsteps, hv, ⟨-, rfl, rfl, rfl, -⟩ | ⟨hvoid, c, w, a, b, rfl, hvoid', rfl, rfl, ha, hb⟩⟩ :=
    joinBranches_stored hg hyes hno h
  · exact ⟨hyesCode.less (Value.readSet_of_void rfl _), hnoCode.less (Value.readSet_of_void rfl _)⟩
  · have hw := hno c w rfl
    have hother : Assigns P A c (readSet w.leaves) := hnoCode.less fun x hx => ⟨c, w, rfl, hx⟩
    exact ⟨hyesCode.append (ha.assigns hsteps.good (hyes.mono hg hsteps.keeps) hv hvoid
        (Set.Subset.refl _) hP),
      hother.append (hb.assigns hsteps.good (hw.mono hg hsteps.keeps) hv hvoid'
        (Set.Subset.refl _) hP)⟩

/-- What has been stored wherever the loop is left is what the loop holds in the end. -/
theorem leaveWith_assigns {label : Option String} (hg : s.outline.Good) (hv : v.Ok s.outline)
    (h : leaveWith label v span s = .ok (code, w) s') (hreads : readSet v.leaves ⊆ A)
    (hP : s'.outline.Serves P) : Assigns P A code (readSet w.leaves) := by
  obtain ⟨hsteps, rfl, ref, stores, htarget, ⟨t, ht, halike⟩, rfl, hstores⟩ := leaveWith_takes hg hv h
  have hv' := hv.mono hg hsteps.keeps
  obtain ⟨l, hmem⟩ := mem_loops_of_target htarget
  obtain ⟨g, hgrows, hgood, hleft⟩ := hP.left l ref (hsteps.loops ▸ hmem)
  rw [hgrows.held hsteps.good hgood ht, held_of_type ht] at hleft
  suffices hall : Assigns P A (stores ++ [.leave span ref.loop]) A from
    hall.less (Value.readSet_of_void rfl _)
  rcases hstores with ⟨hvoid, rfl⟩ | ⟨hvoid, rfl⟩
  · have htype : t = .void := by
      rw [hv.void.1 hvoid] at halike
      exact halike.eq_of_base_right hsteps.good.types.void rfl
    rw [if_pos htype] at hleft
    exact .leave (fun x hx => nomatch hleft x hx) (.nil (Set.Subset.refl _))
  · have hr : s'.outline.Receives ref.var v.type (s'.outline.slots ref.var) := ⟨⟨t, ht, halike⟩, rfl⟩
    have htakes := hr.takes hsteps.good
    have hreal := hsteps.good.real_of_takes hv'.value htakes
    have hstored := assignments_assigns (P := P) span
      (htakes.length_eq.trans (hv'.typed hvoid).length_eq.symm) hreads
      fun x hx => hP.stores x (hreal x hx)
    refine hstored.keep.append (.leave (fun x hx => .inr ?_) (.nil Set.subset_union_left))
    have hheld := hleft x hx
    split at hheld
    · cases hheld
    · exact hheld

/-- A new temporary of a type that is no tuple may be stored into. -/
theorem stores_temps {count k : Nat} (hg : s.outline.Good) (hscalar : s.types.IsScalar type)
    (hk : k < count) (hs' : s'.outline = s.outline.push (List.replicate count (.temp type)))
    (hP : s'.outline.Serves P) : s.outline.vars.length + k ∈ P.stores := by
  refine hP.stores _ ?_
  rw [hs']
  exact (Steps.temps hg hscalar count).good.real_of_type (typeOf_temps hk) hscalar.single

theorem holdInteger_assigns (hg : s.outline.Good) (h : holdInteger v span s = .ok (code, id) s')
    (hreads : readSet v.leaves ⊆ A) (hP : s'.outline.Serves P) :
    Assigns P A code (readSet [.var id]) := by
  rcases holdInteger_ok h with ⟨hs, rfl, rfl⟩ | ⟨operand, hs, rfl, rfl, hs'⟩
  · rw [Value.leaves_of_scalar hs] at hreads
    exact .nil hreads
  · rw [Value.leaves_of_scalar hs, readSet_singleton] at hreads
    have hdest := stores_temps (k := 0) hg (TypeGraph.isScalar_integer hg.types) Nat.one_pos hs' hP
    exact .single rfl hreads (by simpa [Command.writes] using hdest)

/-- What the comparisons read. -/
def Comparison.readSet (cs : List Comparison) : Set VarId :=
  {x | ∃ c ∈ cs, x = c.left ∨ x = c.right}

theorem comparisonCode_assigns {n : VarId} (hreads : Comparison.readSet cs ⊆ A)
    (hstores : ∀ k, k < cs.length → n + k ∈ P.stores) :
    Assigns P A (comparisonCode cs n) {x | x ∈ List.range' n cs.length} := by
  induction cs generalizing A n with
  | nil => exact .nil fun x hx => absurd hx not_mem_nil
  | cons c cs ih =>
    have hfirst : Assigns P A [.assign c.span n (.compare c.left c.op c.right)] {x | x ∈ [n]} := by
      refine .single rfl (fun x hx => hreads ⟨c, mem_cons_self, ?_⟩) fun x hx => ?_
      · simpa [Command.reads, Operand.reads] using hx
      · rw [mem_singleton.1 hx]
        exact hstores 0 (Nat.succ_pos _)
    have hrest' : Comparison.readSet cs ⊆ A ∪ {x | x ∈ [n]} := by
      rintro x ⟨d, hd, hx⟩
      exact .inl (hreads ⟨d, mem_cons_of_mem _ hd, hx⟩)
    have hrest := ih (A := A ∪ {x | x ∈ [n]}) (n := n + 1) hrest' fun k hk => by
      rw [Nat.add_assoc, Nat.add_comm 1]
      exact hstores (k + 1) (Nat.succ_lt_succ hk)
    refine (hfirst.seq hrest).less fun x hx => ?_
    simpa [range'_succ] using hx

theorem runComparisons_assigns {tests : List Operand} (hg : s.outline.Good)
    (h : runComparisons cs s = .ok (code, tests) s') (hreads : Comparison.readSet cs ⊆ A)
    (hP : s'.outline.Serves P) : Assigns P A code (readSet tests) := by
  obtain ⟨hs', rfl, rfl⟩ := runComparisons_ok h
  rw [readSet_vars]
  exact comparisonCode_assigns hreads fun k hk =>
    stores_temps hg (TypeGraph.isScalar_boolean hg.types) hk hs' hP

/-- A primitive that makes a box. -/
theorem box_assigns {primitive : Primitive} (hg : s'.outline.Good) (hv : v.Ok s'.outline)
    (hs : v.shape = .scalar (.var id)) (hreads : readSet inputs ⊆ A) (hP : s'.outline.Serves P) :
    Assigns P A [.native span primitive inputs [id]] (readSet v.leaves) := by
  have hleaves := Value.leaves_of_scalar hs
  have hid := hP.stores id (hg.real_of_leaf hv (by rw [hleaves]; exact mem_cons_self))
  rw [hleaves, readSet_singleton]
  exact .single rfl hreads (by simpa [Command.writes] using hid)

theorem wrapValue_assigns {payloadSpan : Span} (hg : s.outline.Good) (hv : v.Ok s.outline)
    (h : wrapValue v payloadSpan span s = .ok (code, w) s') (hreads : readSet v.leaves ⊆ A)
    (hP : s'.outline.Serves P) : Assigns P A code (readSet w.leaves) := by
  obtain ⟨hsteps, -, hw⟩ := wrapValue_value hg hv h
  obtain ⟨-, -, rfl, rfl⟩ := wrapValue_ok h
  exact box_assigns hsteps.good hw rfl hreads hP

theorem consValue_assigns {head tail : Value} (hg : s.outline.Good) (hhead : head.Ok s.outline)
    (htail : tail.Ok s.outline) (h : consValue head tail span s = .ok (code, w) s')
    (hreads : readSet head.leaves ⊆ A) (hreads' : readSet tail.leaves ⊆ A)
    (hP : s'.outline.Serves P) : Assigns P A code (readSet w.leaves) := by
  obtain ⟨hsteps, -, hw⟩ := consValue_value hg hhead htail h
  obtain ⟨_, _, operand, _, -, -, -, hs, -, rfl, rfl⟩ := consValue_ok h
  refine box_assigns hsteps.good hw rfl ?_ hP
  rw [Value.leaves_of_scalar hs] at hreads'
  rw [readSet_append]
  exact Set.union_subset hreads hreads'

/-! ## Calls -/

/-- What the call of a function gives is read from its outputs. -/
theorem call_outputs {s₁ s₂ : Session} {name : String} {targetSpan : Span} {c : Callee}
    {args : List Expr} {b : Bindings} {outputs : List VarId} {command : Command}
    (hg : s.outline.Good) (hcallee : callee name targetSpan s = .ok c s)
    (hlen : c.params.length = args.length)
    (hargs : lowerArgs targetSpan [] args c.params s = .ok (code, inputs, b) s₁)
    (hresult : callResult c.result b span s₁ = .ok (outputs, v) s₂)
    (hcommand : callCommand name c.native inputs outputs targetSpan span s₂ = .ok command s') :
    s.outline.Steps s₁.outline ∧ s₁.outline.Steps s'.outline ∧ v.Ok s'.outline ∧
      v.leaves = outputs.map .var ∧ command.isPlain = true ∧
      command.reads = Operand.readsAll inputs ∧ command.writes = outputs := by
  obtain ⟨-, hparams, hresultValue, -⟩ := callee_values hg hcallee
  obtain ⟨hsteps, -, -, hb⟩ := lowerArgs_emits (Expr.lowersAll args) hlen hg hparams .nil hargs
  have hvalue : s₁.types.IsValue c.result := hresultValue.extend hsteps.grows.types
  obtain ⟨hsteps', hv, hreads⟩ := callResult_reads hsteps.good hvalue hb hresult
  have hleaves : v.leaves = outputs.map .var := by
    rcases hreads with ⟨-, rfl, rfl⟩ | ⟨-, -, -, hleaves, -⟩
    · rfl
    · exact hleaves
  obtain ⟨hs', hform⟩ := callCommand_ok hcommand
  rw [hs']
  refine ⟨hsteps, hsteps', hv, hleaves, ?_⟩
  rcases hform with ⟨-, rfl⟩ | ⟨-, _, -, rfl⟩
  · exact ⟨rfl, rfl, rfl⟩
  · exact ⟨rfl, rfl, rfl⟩

end

/-! ## Trees -/

/-- Code of the expression, made where `A` has been written, has written what its value reads. -/
def Expr.Assigned (e : Expr) : Prop :=
  ∀ ⦃s s' : Session⦄ ⦃code : Code⦄ ⦃v : Value⦄ ⦃P : Plan⦄ ⦃A : Set VarId⦄, s.outline.Good →
    lowerExpr e s = .ok (code, v) s' → s.outline.Ready A → s'.outline.Serves P →
    Code.Assigns P A code (readSet v.leaves)

def Block.Assigned (b : Block) : Prop :=
  ∀ ⦃s s' : Session⦄ ⦃code : Code⦄ ⦃v : Value⦄ ⦃P : Plan⦄ ⦃A : Set VarId⦄, s.outline.Good →
    lowerBlock b s = .ok (code, v) s' → s.outline.Ready A → s'.outline.Serves P →
    Code.Assigns P A code (readSet v.leaves)

/-- A statement may add names, and then has written what they hold. -/
def Stmt.Assigned (stmt : Stmt) : Prop :=
  ∀ ⦃s s' : Session⦄ ⦃code : Code⦄ ⦃value v : Value⦄ ⦃P : Plan⦄ ⦃A : Set VarId⦄, s.outline.Good →
    value.Ok s.outline → lowerStmt value stmt s = .ok (code, v) s' → s.outline.Ready A →
    s'.outline.Serves P → readSet value.leaves ⊆ A →
    ∃ B, A ⊆ B ∧ Code.Assigns P A code B ∧ s'.outline.Ready B ∧ readSet v.leaves ⊆ B

section

variable {s s' : Session} {code : Code} {P : Plan} {A : Set VarId}

theorem Part.Lowered.assigns {held : Bool} {part : Part} (h : part.Lowered held)
    (he : part.expr.Assigned) (hg : part.before.outline.Good) (hready : part.before.outline.Ready A)
    (hP : part.after.outline.Serves P) : Assigns P A part.code (readSet part.operands) := by
  cases h with
  | value h => exact he hg h hready hP
  | held h htype hhold =>
    obtain ⟨hsteps, -, hv⟩ := Expr.lowers _ hg h
    obtain ⟨-, htype⟩ := eq_of_expectType hsteps.good hv hsteps.good.types.integer rfl htype
    have hsteps' := (holdInteger_holds hsteps.good hv htype hhold).1
    have hfirst := he hg h hready (hsteps'.serves hsteps.good hP)
    exact hfirst.append (holdInteger_assigns hsteps.good hhold (Set.Subset.refl _) hP)

theorem InTurn.assigns {held : Bool} {parts : List Part} (h : InTurn held es s code s' parts)
    (hes : ∀ e ∈ es, e.Assigned) (hg : s.outline.Good) (hready : s.outline.Ready A)
    (hP : s'.outline.Serves P) : Assigns P A code (readSet (parts.flatMap Part.operands)) := by
  induction h generalizing A with
  | nil => exact .nil fun x hx => absurd hx not_mem_nil
  | cons hpart hrest ih =>
    obtain ⟨he, hes⟩ := forall_mem_cons.1 hes
    have hsteps := (hpart.reads hg).1
    have hfirst := hpart.assigns he hg hready ((hrest.steps hsteps.good).serves hsteps.good hP)
    rw [flatMap_cons, readSet_append]
    exact hfirst.seq (ih hes hsteps.good ((hready.steps hg hsteps).more Set.subset_union_left) hP)

theorem lowerElse_assigns (hno : ∀ e ∈ no, e.Assigned) {r : Option (Code × Value)}
    (hg : s.outline.Good) (h : lowerElse no s = .ok r s') (hready : s.outline.Ready A)
    (hP : s'.outline.Serves P) : Assigns P A ((r.map Prod.fst).getD []) (elseReads r) := by
  rcases lowerElse_cases h with ⟨rfl, rfl, rfl⟩ | ⟨e, c, v, rfl, rfl, hlower⟩
  · exact .nil fun x ⟨c, w, hnone, _⟩ => nomatch hnone
  · refine (hno e rfl hg hlower hready hP).less ?_
    rintro x ⟨c', w, heq, hx⟩
    cases heq
    exact hx

theorem lowerStmts_assigns {stmts : List Stmt} (hstmts : ∀ stmt ∈ stmts, stmt.Assigned)
    {value : Value} (hg : s.outline.Good) (hvalue : value.Ok s.outline)
    (h : lowerStmts value stmts s = .ok (code, v) s') (hready : s.outline.Ready A)
    (hP : s'.outline.Serves P) (hreads : readSet value.leaves ⊆ A) :
    Assigns P A code (readSet v.leaves) := by
  induction stmts generalizing s code value A with
  | nil =>
    cases h
    exact .nil hreads
  | cons stmt stmts ih =>
    obtain ⟨c, w, s₁, cs, hhead, htail, rfl⟩ := lowerStmts_cons h
    obtain ⟨⟨new, hadds⟩, -, hw⟩ := Stmt.lowers stmt hg hvalue hhead
    obtain ⟨⟨new', hadds'⟩, -, -⟩ := lowerStmts_emits (Stmt.lowersAll stmts) hadds.good hw htail
    obtain ⟨B, -, hfirst, hready', hreads'⟩ := hstmts stmt mem_cons_self hg hvalue hhead hready
      (hP.before hadds.good hadds'.grows hadds'.good hadds'.loops) hreads
    exact hfirst.append (ih (fun stmt hst => hstmts stmt (mem_cons_of_mem _ hst)) hadds.good hw
      htail hready' hreads')

end

/-- The names of a pattern are ready once its variables have been written. -/
theorem Outline.Ready.fills {o o₁ o' : Outline} {A B : Set VarId} (h : o.Ready A) (hg : o.Good)
    (hgrows : o.Grows o₁)
    (hdeclared : ∀ name id, (name, id) ∈ o₁.names → (name, id) ∈ o.names ∨ id ∈ pattern.vars)
    (hsteps : o₁.Steps o') (hfills : o'.Fills pattern type slots) (hsub : A ⊆ B)
    (hslots : ∀ x ∈ slots, x ∈ B) : o'.Ready B := by
  refine h.grows hg hsteps.good (hgrows.trans hsteps.grows) hsub fun name id hmem => ?_
  rw [hsteps.names] at hmem
  refine (hdeclared name id hmem).imp_right fun hid => ⟨hfills.typed id hid, fun x hx => ?_⟩
  refine hslots x ?_
  rw [hfills.slots_eq]
  exact mem_flatMap.2 ⟨id, hid, held_subset_slots o' id hx⟩

theorem Expr.Assigned.cond {test : Expr} (htest : test.Assigned) (hyes : yes.Assigned)
    (hno : ∀ e ∈ no, e.Assigned) : (Expr.cond span test yes no).Assigned := by
  intro s s' code v P A hg h hready hP
  cases lowerExpr_cases h with
  | @cond _ _ _ _ _ s₁ s₂ s₃ _ _ _ _ _ testValue _ _ operand _ hlower _ hs hlowerYes hlowerNo hjoin =>
    obtain ⟨hsteps₁, -, hv₁⟩ := Expr.lowers test hg hlower
    obtain ⟨hsteps₂, -, hv₂⟩ := Expr.lowers yes hsteps₁.good hlowerYes
    obtain ⟨hsteps₃, -, hv₃⟩ := lowerElse_emits (Expr.lowersIn no) hsteps₂.good hlowerNo
    have hyesOk := hv₂.mono hsteps₂.good hsteps₃.keeps
    have hsteps₄ := (joinBranches_stored hsteps₃.good hyesOk hv₃ hjoin).1
    have hP₃ := hsteps₄.serves hsteps₃.good hP
    have hP₂ := hsteps₃.serves hsteps₂.good hP₃
    have hP₁ := hsteps₂.serves hsteps₁.good hP₂
    have hfirst := htest hg hlower hready hP₁
    have hready₁ : s₁.outline.Ready (A ∪ readSet testValue.leaves) :=
      (hready.steps hg hsteps₁).more Set.subset_union_left
    obtain ⟨hyesCode, hnoCode⟩ := joinBranches_assigns hsteps₃.good hyesOk hv₃ hjoin
      (hyes hsteps₁.good hlowerYes hready₁ hP₂)
      (lowerElse_assigns hno hsteps₂.good hlowerNo (hready₁.steps hsteps₁.good hsteps₂) hP₃) hP
    refine hfirst.keep.append (.branch (fun x hx => .inr ?_) hyesCode hnoCode
      (.nil Set.subset_union_right))
    rw [Value.leaves_of_scalar hs, readSet_singleton]
    exact hx

/-- The branch that is taken with the payload of a full box, in a context of its own. -/
theorem Unboxed.assigns {box : Value} {payload : TypeId} {operand : Operand} {mode : BindMode}
    {s s₁ s₂ s₃ s₄ : Session}
    (h : Unboxed span box target payload operand id pattern mode slots s s₁ s₂ s₃)
    (hyes : yes.Assigned) (hg : s.outline.Good) (hlower : lowerExpr yes s₃ = .ok (code, v) s₄)
    {P : Plan} {A : Set VarId} (hready : s₁.outline.Ready A) (hP : s₄.exit.outline.Serves P)
    (hreads : ∀ x ∈ operand.reads, x ∈ A) :
    Assigns P A (.native pattern.span .unwrap [operand] slots :: code) (readSet v.leaves) := by
  obtain ⟨hsteps₁, hdeclared, hsteps₃, hfills⟩ := h.fills hg
  obtain ⟨new, hadds⟩ := h.adds hg
  obtain ⟨hsteps₄, -⟩ := Expr.lowers yes hsteps₃.good hlower
  obtain ⟨hout, hkeeps, hloops⟩ := exit_adds (hadds.trans (hsteps₄.adds hadds.frames_ne))
  have hP₄ := hP.before hsteps₄.good hkeeps.grows hout.good hloops
  have hP₃ := hsteps₄.serves hsteps₃.good hP₄
  have hunwrap : Assigns P A [.native pattern.span .unwrap [operand] slots] {x | x ∈ slots} := by
    refine .single rfl (fun x hx => hreads x ?_) fun x hx => hP₃.stores x ?_
    · simpa [Command.reads, Operand.readsAll] using hx
    · exact hsteps₃.good.real_of_takes
        ((h.isValue hg).extend (hsteps₁.grows.types.trans hadds.grows.types))
        (hfills.takes hsteps₃.good) x hx
  obtain ⟨_, hnames, -⟩ := hdeclared.adds hsteps₁.good.enter s₁.enter.frames_ne
  have hready₃ : s₃.outline.Ready (A ∪ {x | x ∈ slots}) :=
    Outline.Ready.fills (o := s₁.enter.outline) hready hsteps₁.good.enter hnames.grows
      (fun _ _ => hdeclared.name_cases) hsteps₃ hfills Set.subset_union_left fun x hx => .inr hx
  exact hunwrap.keep.append (hyes hsteps₃.good hlower hready₃ hP₄)

theorem Expr.Assigned.ifFull {boxed : Expr} (hboxed : boxed.Assigned) (hyes : yes.Assigned)
    (hno : ∀ e ∈ no, e.Assigned) : (Expr.ifFull span boxed target yes no).Assigned := by
  intro s s' code v P A hg h hready hP
  cases lowerExpr_cases h with
  | @ifFull _ _ _ _ _ _ s₁ s₂ s₃ s₄ s₅ s₆ _ boxCode yesCode yesCode' noCode box yesValue _ payload
      operand full pattern _ slots _ hlower hunboxed hlowerYes hlowerNo hjoin =>
    obtain ⟨hsteps₁, -, hv₁⟩ := Expr.lowers boxed hg hlower
    obtain ⟨-, hs, -⟩ := openBox_ok hunboxed.opens
    obtain ⟨hsteps₂, -⟩ := hunboxed.fills hsteps₁.good
    obtain ⟨hout, hv₅, -⟩ := hunboxed.emits (Expr.lowers yes) hsteps₁.good hv₁ hlowerYes
    obtain ⟨rfl, hs₂⟩ := newTyped_ok hunboxed.tests
    obtain ⟨hsteps₆, -, hv₆⟩ := lowerElse_emits (Expr.lowersIn no) hout.good hlowerNo
    have hyesOk := hv₅.mono hout.good hsteps₆.keeps
    have hsteps₇ := (joinBranches_stored hsteps₆.good hyesOk hv₆ hjoin).1
    have hP₆ := hsteps₇.serves hsteps₆.good hP
    have hP₅ := hsteps₆.serves hout.good hP₆
    have hP₂ := hout.serves hsteps₂.good hP₅
    have hfirst := hboxed hg hlower hready (hsteps₂.serves hsteps₁.good hP₂)
    rw [Value.leaves_of_scalar hs, readSet_singleton] at hfirst
    have htest : Assigns P (A ∪ {x | x ∈ operand.reads})
        [.native span .full [operand] [s₁.outline.vars.length]] {x | x ∈ [s₁.outline.vars.length]} := by
      refine .single rfl (fun x hx => .inr ?_) fun x hx => ?_
      · simpa [Command.reads, Operand.readsAll] using hx
      · rw [mem_singleton.1 hx]
        exact stores_temps (k := 0) hsteps₁.good (TypeGraph.isScalar_boolean hsteps₁.good.types) Nat.one_pos hs₂ hP₂
    -- what has been written before the branches
    obtain ⟨W, hboth, hAW, hreads, hfullW⟩ : ∃ W,
        Assigns P A (boxCode ++ [.native span .full [operand] [s₁.outline.vars.length]]) W ∧
        A ⊆ W ∧ (∀ x ∈ operand.reads, x ∈ W) ∧ s₁.outline.vars.length ∈ W :=
      ⟨_, hfirst.keep.append htest.keep, Set.subset_union_left.trans Set.subset_union_left,
        fun x hx => .inl (.inr hx), .inr mem_cons_self⟩
    have hready₂ : s₂.outline.Ready W := (hready.steps hg (hsteps₁.trans hsteps₂)).more hAW
    obtain ⟨hyesCode, hnoCode⟩ := joinBranches_assigns hsteps₆.good hyesOk hv₆ hjoin
      (hunboxed.assigns hyes hsteps₁.good hlowerYes hready₂ hP₅ hreads)
      (lowerElse_assigns hno hout.good hlowerNo (hready₂.steps hsteps₂.good hout) hP₆) hP
    have hbranch : Assigns P W
        [.branch span (.var s₁.outline.vars.length) yesCode' noCode] (readSet v.leaves) := by
      refine .branch (fun x hx => ?_) hyesCode hnoCode (.nil Set.subset_union_right)
      rw [mem_singleton.1 hx]
      exact hfullW
    have hall := hboth.append hbranch
    rw [append_assoc] at hall
    exact hall

theorem Expr.Assigned.loop {label : Option String} {body : Block} (hbody : body.Assigned) :
    (Expr.loop span label body).Assigned := by
  intro s s' code v P A hg h hready hP
  cases lowerExpr_cases h with
  | @loop _ _ _ _ s₁ s₂ ref code w _ hloop hlower hvalue =>
    obtain ⟨href, hopen, hgood, hexit, hout, hkeeps, hloops⟩ :=
      loopBody_opens (Block.lowers body) hg hloop hlower
    have hsteps := (Block.lowers body hgood hlower).1
    have hstores : ∀ x, s₂.outline.Real x → x ∈ P.stores := fun x hx =>
      hP.stores x (hx.mono hsteps.good hkeeps.good hkeeps.grows)
    have hready₁ : s₁.outline.Ready A := by
      refine hready.grows hg hgood ?_ (Set.Subset.refl _) fun name id hmem => .inl ?_
      · rw [hopen]
        exact (Grows.reframe _ _).trans (.openLoop _ _)
      · rw [hopen, Outline.names, frames_openLoop rfl] at hmem
        exact hmem
    -- What the loop holds in the end is what has been written wherever it is left.
    have hserves : s₂.outline.Serves (P.within ref.loop {x | x ∈ s₂.outline.held ref.var}) := by
      refine ⟨hstores, fun l other hmem => ?_⟩
      rw [hloops] at hmem
      rcases mem_cons.1 hmem with heq | hmem
      · cases heq
        rw [Plan.left_within_self]
        exact ⟨_, .refl _, hsteps.good, fun x hx => hx⟩
      · have hlt := (hg.loops l other (hout.loops ▸ hmem)).1
        have hne : other.loop ≠ ref.loop := by
          rw [href]
          exact Nat.ne_of_lt hlt
        rw [Plan.left_within_of_ne P hne]
        obtain ⟨g, hgrows, hrest⟩ := hP.left l other hmem
        exact ⟨g, hkeeps.grows.trans hgrows, hrest⟩
    refine .loop (fun x hx => hstores x (hsteps.good.real_of_held hx))
      (hbody hgood hlower hready₁ hserves) (.nil fun x hx => .inr ?_)
    obtain ⟨i, -, ⟨-, rfl, -⟩ | ⟨-, hread⟩⟩ := loopValue_ok hvalue
    · cases hx
    · have hheld := readSet_of_valueOf hread hx
      rw [hexit] at hheld
      exact hheld

theorem Stmt.Assigned.bind {value : Expr} (hvalue : value.Assigned) :
    (Stmt.bind span target value).Assigned := by
  intro s s' code kept v P A hg hkept h hready hP hreads
  cases lowerStmt_cases h with
  | @bind stored _ _ _ _ s₁ s₂ _ _ _ pattern _ hlower hbind hstore =>
    obtain ⟨hsteps, -, hstored⟩ := Expr.lowers value hg hlower
    obtain ⟨-, hdeclared⟩ := bindPattern_declared hbind
    obtain ⟨new, hadds, -⟩ := hdeclared.adds hsteps.good s₁.frames_ne
    have hstored' := hstored.mono hsteps.good hadds.keeps
    obtain ⟨hsteps', -, -, slots, hfills, -⟩ := storeInto_fills hadds.good hstored' hstore
    have hP₂ := hsteps'.serves hadds.good hP
    have hfirst := hvalue hg hlower hready (hP₂.before hsteps.good hadds.grows hadds.good hadds.loops)
    have hwritten := storeInto_assigns hadds.good hstored' hstore (Set.Subset.refl _) hP
    refine ⟨_, Set.subset_union_left, (hfirst.append hwritten).keep, ?_,
      hreads.trans Set.subset_union_left⟩
    refine Outline.Ready.fills (hready.steps hg hsteps) hsteps.good hadds.grows
      (fun _ _ => hdeclared.name_cases) hsteps' hfills Set.subset_union_left fun x hx => .inr ?_
    rw [hfills.slots_eq] at hx
    exact hx

theorem Stmt.Assigned.set {value : Expr} (hvalue : value.Assigned) :
    (Stmt.set span target value).Assigned := by
  intro s s' code kept v P A hg hkept h hready hP hreads
  cases lowerStmt_cases h with
  | set hlower hbind hstore =>
    obtain ⟨hsteps, -, hstored⟩ := Expr.lowers value hg hlower
    obtain ⟨rfl, -⟩ := bindPattern_resolve_ok hbind
    obtain ⟨hsteps', -⟩ := storeInto_fills hsteps.good hstored hstore
    have hfirst := hvalue hg hlower hready (hsteps'.serves hsteps.good hP)
    have hwritten := storeInto_assigns hsteps.good hstored hstore (Set.Subset.refl _) hP
    refine ⟨A, Set.Subset.refl _, ?_, hready.steps hg (hsteps.trans hsteps'), hreads⟩
    exact (hfirst.append hwritten).keep.less Set.subset_union_left

/-- Every tree is lowered to code that writes before it reads. -/
theorem assigned : Hereditary Expr.Assigned Block.Assigned Stmt.Assigned where
  var span name s s' code v P A hg h hready hP := by
    cases lowerExpr_cases h with
    | var hid hv =>
      have hheld := (hready name _ (mem_names_of_lookup hid)).2
      exact .nil ((readSet_of_valueOf hv).trans hheld)
  int span value s s' code v P A hg h hready hP := by
    cases h
    exact .nil fun x hx => absurd hx not_mem_nil
  bool span value s s' code v P A hg h hready hP := by
    cases h
    exact .nil fun x hx => absurd hx not_mem_nil
  str span value s s' code v P A hg h hready hP := by
    cases h
    exact .nil fun x hx => absurd hx not_mem_nil
  tuple span items hitems s s' code v P A hg h hready hP := by
    cases lowerExpr_cases h with
    | tuple hlower htuple =>
      obtain ⟨hsteps, -, hvalues⟩ := lowerItems_emits (Expr.lowersAll items) hg hlower
      have hsteps' := (tupleOf_value hsteps.good hvalues htuple).1
      obtain ⟨-, -, rfl⟩ := tupleOf_ok htuple
      obtain ⟨parts, hparts, hoperands⟩ := lowerItems_inTurn hlower
      have hall := hparts.assigns hitems hg hready (hsteps'.serves hsteps.good hP)
      rw [hoperands] at hall
      exact hall
  arith span op operands hoperands s s' code v P A hg h hready hP := by
    cases lowerExpr_cases h with
    | arith hlower =>
      obtain ⟨parts, hparts, rfl⟩ := lowerOperands_inTurn hlower
      refine (hparts.assigns hoperands hg hready hP).less ?_
      rw [Value.leaves_of_scalar rfl, readSet_singleton]
      exact Set.Subset.refl _
  compare span chain hchain s s' code v P A hg h hready hP := by
    cases lowerExpr_cases h with
    | compare hgroup hlinks hrun =>
      obtain ⟨parts, hparts, hids⟩ := lowerGroup_inTurn hgroup
      obtain ⟨parts', hparts', hcs⟩ := lowerLinks_inTurn hlinks
      have hturn := hparts.append hparts'
      have hsteps := hturn.steps hg
      have hfirst := hturn.assigns (Link.forall_allOperands hchain) hg hready
        ((runComparisons_steps hsteps.good hrun).serves hsteps.good hP)
      rw [flatMap_append, hids, readSet_append, readSet_vars] at hfirst
      have hreads := hcs _ (fun x hx => Or.inl hx) (forall_mem_nil _) fun x hx => Or.inr hx
      refine (hfirst.append (runComparisons_assigns hsteps.good hrun ?_ hP)).less ?_
      · rintro x ⟨c, hc, rfl | rfl⟩
        · exact (hreads c hc).1
        · exact (hreads c hc).2
      rw [Value.leaves_of_scalar rfl, readSet_singleton]
      exact Set.Subset.refl _
  not span operand _ s s' code v P A _ h := absurd h unsupported_ne_ok
  call span target args hargs s s' code v P A hg h hready hP := by
    cases lowerExpr_cases h with
    | call hcallee hlen hlower hresult hcommand =>
      obtain ⟨hsteps, hsteps', hv, hleaves, hplain, hcreads, hcwrites⟩ :=
        call_outputs hg hcallee hlen hlower hresult hcommand
      obtain ⟨parts, hparts, rfl⟩ := lowerArgs_inTurn hlen hlower
      have hfirst := hparts.assigns hargs hg hready (hsteps'.serves hsteps.good hP)
      rw [hleaves, readSet_vars, ← hcwrites]
      refine hfirst.append (.single hplain (fun x hx => ?_) fun x hx => ?_)
      · rw [hcreads] at hx
        exact hx
      · rw [hcwrites] at hx
        refine hP.stores x (hsteps'.good.real_of_leaf hv ?_)
        rw [hleaves]
        exact mem_map_of_mem hx
  block span body hbody s s' code v P A hg h hready hP := by
    cases lowerExpr_cases h with
    | block hlower hkeep =>
      obtain ⟨hsteps, -, hv⟩ := Block.lowers body hg hlower
      have hsteps' := (keepValue_stored hsteps.good hv hkeep).1
      exact (hbody hg hlower hready (hsteps'.serves hsteps.good hP)).append
        (keepValue_assigns hsteps.good hv hkeep (Set.Subset.refl _) hP)
  cond span test yes no htest hyes hno := .cond htest hyes hno
  ifFull span boxed pattern yes no hboxed hyes hno := .ifFull hboxed hyes hno
  loop span label body hbody := .loop hbody
  leave span label value hvalue s s' code v P A hg h hready hP := by
    cases lowerExpr_cases h with
    | leave hleave =>
      exact leaveWith_assigns hg (Value.ok_void hg span) hleave (Value.readSet_of_void rfl _) hP
    | @leaveWith _ _ expr _ s₁ _ _ _ w _ hlower hleave =>
      obtain ⟨hsteps, -, hv⟩ := Expr.lowers expr hg hlower
      have hsteps' := (leaveWith_takes hsteps.good hv hleave).1
      exact (hvalue expr rfl hg hlower hready (hsteps'.serves hsteps.good hP)).append
        (leaveWith_assigns hsteps.good hv hleave (Set.Subset.refl _) hP)
  wrap span payload hpayload s s' code v P A hg h hready hP := by
    cases lowerExpr_cases h with
    | wrap hlower hwrap =>
      obtain ⟨hsteps, -, hv⟩ := Expr.lowers payload hg hlower
      have hsteps' := (wrapValue_value hsteps.good hv hwrap).1
      exact (hpayload hg hlower hready (hsteps'.serves hsteps.good hP)).append
        (wrapValue_assigns hsteps.good hv hwrap (Set.Subset.refl _) hP)
  wrapEmpty span payload _ s s' code v P A hg h hready hP := by
    obtain ⟨hsteps, -, hv⟩ := wrapNothing_value hg h
    obtain ⟨-, rfl, rfl⟩ := wrapNothing_ok h
    exact box_assigns hsteps.good hv rfl (fun x hx => nomatch hx) hP
  cons span head tail hhead htail s s' code v P A hg h hready hP := by
    cases lowerExpr_cases h with
    | @cons _ _ _ _ s₁ s₂ _ _ _ _ x y _ hlower hlower' hcons =>
      obtain ⟨hsteps, -, hv⟩ := Expr.lowers head hg hlower
      obtain ⟨hsteps', -, hw⟩ := Expr.lowers tail hsteps.good hlower'
      have hv' := hv.mono hsteps.good hsteps'.keeps
      have hsteps₃ := (consValue_value hsteps'.good hv' hw hcons).1
      have hP₂ := hsteps₃.serves hsteps'.good hP
      have hboth := (hhead hg hlower hready (hsteps'.serves hsteps.good hP₂)).seq
        (htail hsteps.good hlower' ((hready.steps hg hsteps).more Set.subset_union_left) hP₂)
      exact hboth.append (consValue_assigns hsteps'.good hv' hw hcons Set.subset_union_left
        Set.subset_union_right hP)
  consEmpty span item _ s s' code v P A hg h hready hP := by
    obtain ⟨hsteps, -, hv⟩ := consNothing_value hg h
    obtain ⟨-, rfl, rfl⟩ := consNothing_ok h
    exact box_assigns hsteps.good hv rfl (fun x hx => nomatch hx) hP
  body span stmts hstmts s s' code v P A hg h hready hP := by
    obtain ⟨s₁, hlower, rfl⟩ := lowerBlock_cases h
    have hvoid := Value.ok_void hg.enter span
    obtain ⟨⟨new, hadds⟩, -, -⟩ :=
      lowerStmts_emits (Stmt.lowersAll stmts) (s := s.enter) hg.enter hvoid hlower
    obtain ⟨hout, hkeeps, hloops⟩ := exit_adds hadds
    exact lowerStmts_assigns hstmts (s := s.enter) hg.enter hvoid hlower hready
      (hP.before hadds.good hkeeps.grows hout.good hloops) (Value.readSet_of_void rfl _)
  bind span target value hvalue := .bind hvalue
  set span target value hvalue := .set hvalue
  yield span value hvalue s s' code kept v P A hg _ h hready hP hreads := by
    have hsteps := (Expr.lowers value hg h).1
    exact ⟨_, Set.subset_union_left, (hvalue hg h hready hP).keep,
      (hready.steps hg hsteps).more Set.subset_union_left, Set.subset_union_right⟩
  ret span value _ s s' code kept v P A _ _ h := absurd h unsupported_ne_ok
  eval span value hvalue s s' code kept v P A hg _ h hready hP hreads := by
    cases lowerStmt_cases h with
    | eval hlower =>
      have hsteps := (Expr.lowers value hg hlower).1
      exact ⟨A, Set.Subset.refl _, (hvalue hg hlower hready hP).keep.less Set.subset_union_left,
        hready.steps hg hsteps, hreads⟩

end SlotCode
