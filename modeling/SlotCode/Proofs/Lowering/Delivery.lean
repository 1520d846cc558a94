import SlotCode.Proofs.Code.Sections
import SlotCode.Proofs.Lowering.Assigned
import SlotCode.Proofs.Lowering.Stages

/-!
# What loops are left with

Wherever an open loop is left, its value has just been stored: right before the `leave` there is one
assignment for each slot of the variable of the loop (`Code.Delivers`), or none if the loop has no value.
Nothing else stores into the variable of an open loop (`Code.Honours`).

Both are said of code between two outlines.  A loop that is open in the second may get its type in
between, from the first `leave`, and keeps it from there on.
-/

namespace SlotCode

variable {v w : Value} {s s' : Session} {span : Span} {id : VarId} {slots : List VarId}
  {label : Option String} {code : Code}

open Outline Lower List Code

namespace Outline

variable {o o' : Outline} {x : VarId}

/-- A slot of the value that an open loop is left with. -/
def Owed (o : Outline) (x : VarId) : Prop :=
  ∃ label ref, (label, ref) ∈ o.loops ∧ x ∈ o.held ref.var

theorem typeOf_of_mem_held (hx : x ∈ o.held id) : ∃ t, o.typeOf id = some t := by
  cases ht : o.typeOf id with
  | none =>
    rw [Outline.held, ht] at hx
    cases hx
  | some t => exact ⟨t, rfl⟩

theorem Owed.mono (hg : o.Good) (hg' : o'.Good) (h : o.Grows o') (hloops : o.loops ⊆ o'.loops)
    (hx : o.Owed x) : o'.Owed x := by
  obtain ⟨label, ref, hmem, hheld⟩ := hx
  obtain ⟨t, ht⟩ := typeOf_of_mem_held hheld
  exact ⟨label, ref, hloops hmem, by rwa [h.held hg hg' ht]⟩

theorem Owed.reserved (hx : o.Owed x) : o.Reserved x := by
  obtain ⟨label, ref, hmem, hheld⟩ := hx
  exact reserved_of_mem_slots hmem (held_subset_slots o ref.var hheld)

end Outline

/-- The code ends with one assignment to each of the slots, in their order. -/
def Code.Delivers (slots : List VarId) (code : Code) : Prop :=
  ∃ span first operands, code = first ++ assignments span slots operands ∧
    operands.length = slots.length

theorem Code.Delivers.nil (code : Code) : code.Delivers [] :=
  ⟨⟨0, 0⟩, code, [], (append_nil code).symm, rfl⟩

theorem Code.Delivers.prepend (h : code.Delivers slots) (first : Code) :
    Delivers slots (first ++ code) := by
  obtain ⟨span, second, operands, rfl, hlen⟩ := h
  exact ⟨span, first ++ second, operands, (append_assoc _ _ _).symm, hlen⟩

/-- A loop that is left after the code is open and has got its value, or it has begun since `o`. -/
def Outline.Leaves (o o' : Outline) (before : Code) (id : LoopId) : Prop :=
  o.nextLoop ≤ id ∨ ∃ label ref, (label, ref) ∈ o'.loops ∧ ref.loop = id ∧
    (∃ t, o'.typeOf ref.var = some t) ∧ before.Delivers (o'.held ref.var)

/-- The code is made between the outlines `o` and `o'`.  It stores into variables of loops only what they
are left with. -/
structure Code.Honours (o o' : Outline) (code : Code) : Prop where
  writes : ∀ x ∈ code.writes, o.vars.length ≤ x ∨ o.Named x ∨ o'.Owed x
  leaves : code.BeforeLeaves (o.Leaves o')

namespace Code.Honours

variable {o o₁ o' : Outline} {a b : Code}

theorem of_fresh (h : a.Fresh o) : Honours o o' a :=
  ⟨fun x hx => .inl (h.new x hx), .of_plain h.plain⟩

theorem append (ha : Honours o o' a) (hb : Honours o o' b) : Honours o o' (a ++ b) where
  writes x hx := by
    rw [writes_append, mem_append] at hx
    exact hx.elim (ha.writes x) (hb.writes x)
  leaves := by
    refine ha.leaves.append (fun first before id h => h.imp_right ?_) hb.leaves
    rintro ⟨label, ref, hmem, hid, htyped, hdelivers⟩
    exact ⟨label, ref, hmem, hid, htyped, hdelivers.prepend first⟩

/-- Code that is made before further steps. -/
theorem before (hg : o₁.Good) (h : o₁.Later o') (ha : Honours o o₁ a) : Honours o o' a where
  writes := fun x hx => (ha.writes x hx).imp_right
    (·.imp_right (·.mono hg h.good h.grows (h.loops ▸ Subset.refl _)))
  leaves := by
    refine ha.leaves.imp fun before id hleaves => hleaves.imp_right ?_
    rintro ⟨label, ref, hmem, hid, ⟨t, ht⟩, hdelivers⟩
    refine ⟨label, ref, h.loops ▸ hmem, hid, ⟨t, h.grows.typeOf ht⟩, ?_⟩
    rwa [h.grows.held hg h.good ht]

/-- Code that is made after other steps. -/
theorem after (hs : o.Settled) (h : o.Precedes o₁) (ha : Honours o₁ o' a) : Honours o o' a where
  writes x hx := by
    rcases ha.writes x hx with hnew | hnamed | howed
    · exact .inl (h.grows.length_le.trans hnew)
    · exact (h.named hs hnamed).imp_right .inl
    · exact .inr (.inr howed)
  leaves := ha.leaves.imp fun before id => Or.imp_left h.grows.nextLoop.trans

theorem seq (hs : o.Settled) (h : o.Later o₁) (h' : o₁.Later o') (ha : Honours o o₁ a)
    (hb : Honours o₁ o' b) : Honours o o' (a ++ b) :=
  (ha.before h.good h').append (hb.after hs h.toPrecedes)

theorem branch (ha : Honours o o' a) (hb : Honours o o' b) (span : Span) (test : Operand) :
    Honours o o' [.branch span test a b] where
  writes := fun x hx => (mem_writes_branch.1 hx).elim (ha.writes x) (hb.writes x)
  leaves := ha.leaves.branch hb.leaves span test

/-- When a loop is closed, its variable is one of the new ones. -/
theorem loop {ref : LoopRef} (hg : o₁.Good) (hgrows : o₁.Grows o') (hg' : o'.Good)
    (hloops : o₁.loops = (label, ref) :: o'.loops) (hvar : o.vars.length ≤ ref.var)
    (hloop : o.nextLoop ≤ ref.loop) (ha : Honours o o₁ a) (span : Span) :
    Honours o o' [.loop span ref.loop a] where
  writes x hx := by
    rcases ha.writes x (mem_writes_loop.1 hx) with hnew | hnamed | ⟨l, other, hmem, hheld⟩
    · exact .inl hnew
    · exact .inr (.inl hnamed)
    · rw [hloops] at hmem
      rcases mem_cons.1 hmem with heq | hmem
      · cases heq
        exact .inl (hvar.trans (hg.le_of_mem_slots (held_subset_slots _ _ hheld)))
      · obtain ⟨t, ht⟩ := typeOf_of_mem_held hheld
        exact .inr (.inr ⟨l, other, hmem, by rwa [hgrows.held hg hg' ht]⟩)
  leaves := by
    refine (ha.leaves.loop span ref.loop).imp fun before id hleaves => ?_
    rcases hleaves with hnew | ⟨l, other, hmem, rfl, ⟨t, ht⟩, hdelivers⟩
    · exact .inl hnew
    · rw [hloops] at hmem
      rcases mem_cons.1 hmem with heq | hmem
      · cases heq
        exact .inl hloop
      · refine .inr ⟨l, other, hmem, rfl, ⟨t, hgrows.typeOf ht⟩, ?_⟩
        rwa [hgrows.held hg hg' ht]

end Code.Honours

/-- A `leave` comes right after its value has been stored. -/
theorem leaveWith_honours (hg : s.outline.Good) (hv : v.Ok s.outline)
    (h : leaveWith label v span s = .ok (code, w) s') : code.Honours s.outline s'.outline := by
  obtain ⟨hsteps, -, ref, stores, htarget, ⟨t, ht, halike⟩, rfl, hstores⟩ := leaveWith_takes hg hv h
  obtain ⟨l, hmem⟩ := mem_loops_of_target htarget
  rw [← hsteps.loops] at hmem
  have hv' := hv.mono hg hsteps.keeps
  rcases hstores with ⟨hvoid, rfl⟩ | ⟨hvoid, rfl⟩
  · have htype : t = .void := by
      rw [hv.void.1 hvoid] at halike
      exact halike.eq_of_base_right hsteps.good.types.void rfl
    refine ⟨forall_mem_nil _, .leave (forall_mem_nil _) ?_ span⟩
    refine .inr ⟨l, ref, hmem, rfl, ⟨t, ht⟩, ?_⟩
    rw [held_of_type ht, if_pos htype]
    exact .nil _
  · have hheld : s'.outline.held ref.var = s'.outline.slots ref.var := by
      rw [held_of_type ht, if_neg]
      rintro rfl
      exact hvoid (hv'.void.2 (halike.eq_of_base hsteps.good.types.void rfl))
    have htakes := Receives.takes hsteps.good ⟨⟨t, ht, halike⟩, rfl⟩
    refine ⟨fun x hx => .inr (.inr ⟨l, ref, hmem, ?_⟩), .leave (plain_assignments _ _ _) ?_ span⟩
    · rw [writes_append, mem_append] at hx
      rcases hx with hx | hx
      · exact hheld ▸ writes_assignments _ _ _ hx
      · cases hx
    · refine .inr ⟨l, ref, hmem, rfl, ⟨t, ht⟩, span, [], v.leaves, by rw [hheld]; rfl, ?_⟩
      rw [hheld, htakes.length_eq, (hv'.typed hvoid).length_eq]

end SlotCode
