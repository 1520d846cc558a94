import SlotCode.Proofs.Lowering.Blame

/-!
# What code stores into

The code of a tree stores into variables that are new, into values of open loops, and into the variables
of the names that the tree overwrites (`Code.Touches`).  Which variable a name stands for is read off the
outline before the tree: a `set` deeper in the tree finds the same variable under that name, or else a
declaration in between has made a new one (`Outline.Shadows`).
-/

namespace SlotCode

open Outline Lower

/-! ## Names that stay -/

namespace Outline

variable {o o₁ o' : Outline} {shadowed shadowed' : String → Bool}

/-- The outline `o'` comes after `o`.  Names in it stand for new variables or for those of `o`, and the
shadowed ones for new variables only. -/
structure Shadows (o o' : Outline) (shadowed : String → Bool) : Prop where
  grows : o.Grows o'
  good : o'.Good
  lookup : ∀ name id, o'.lookup name = some id →
    o.vars.length ≤ id ∨ shadowed name = false ∧ o.lookup name = some id

theorem Shadows.trans (h : o.Shadows o₁ shadowed) (h' : o₁.Shadows o' shadowed') :
    o.Shadows o' fun name => shadowed name || shadowed' name := by
  refine ⟨h.grows.trans h'.grows, h'.good, fun name id hid => ?_⟩
  rcases h'.lookup name id hid with hnew | ⟨hname', hid⟩
  · exact .inl (h.grows.length_le.trans hnew)
  · refine (h.lookup name id hid).imp_right (And.imp_left fun hname => ?_)
    rw [hname, hname', Bool.or_false]

theorem Shadows.of_names (hgrows : o.Grows o') (hg : o'.Good) (hnames : o'.names = o.names) :
    o.Shadows o' fun _ => false := by
  refine ⟨hgrows, hg, fun name id hid => .inr ⟨rfl, ?_⟩⟩
  rwa [Outline.lookup, hnames] at hid

theorem Steps.shadows (h : o.Steps o') : o.Shadows o' fun _ => false :=
  .of_names h.grows h.good h.names

theorem Good.shadows_enter (hg : o.Good) : o.Shadows o.enter fun _ => false :=
  .of_names (.reframe _ _) hg.enter rfl

mutual

/-- The names of a target are shadowed. -/
theorem Declared.shadows {target : Expr} {pattern : Pattern} {o o' : Outline}
    (h : Declared target pattern o o') (hg : o.Good) (hf : o.frames ≠ []) :
    o.Shadows o' fun name => target.targets name := by
  cases h with
  | var span declared =>
    have hadds := Adds.declare hg hf declared
    refine ⟨hadds.grows, hadds.good, fun name id hid => ?_⟩
    rw [Outline.lookup, hadds.names, List.singleton_append, List.lookup_cons] at hid
    cases heq : name == declared with
    | true =>
      rw [heq] at hid
      cases hid
      exact .inl (Nat.le_refl _)
    | false =>
      rw [heq] at hid
      rw [Expr.targets, BEq.comm, heq]
      exact .inr ⟨rfl, hid⟩
  | tuple span h => exact DeclaredEach.shadows h hg hf
termination_by sizeOf pattern

theorem DeclaredEach.shadows {targets : List Expr} {items : List Pattern} {o o' : Outline}
    (h : DeclaredEach targets items o o') (hg : o.Good) (hf : o.frames ≠ []) :
    o.Shadows o' fun name => Expr.targetsAny name targets := by
  cases h with
  | nil => exact (Steps.refl hg).shadows
  | cons h hs =>
    obtain ⟨new, hadds, -⟩ := Declared.adds h hg hf
    exact (Declared.shadows h hg hf).trans (DeclaredEach.shadows hs hadds.good hadds.frames_ne)
termination_by sizeOf items

end

end Outline

/-! ## Variables that code stores into -/

/-- The code stores only into variables that are new since `o`, into values of open loops, and into the
variables that the names stand for in `o`. -/
def Code.Touches (names : String → Bool) (o o' : Outline) (code : Code) : Prop :=
  ∀ x ∈ code.writes, o.vars.length ≤ x ∨ o'.Reserved x ∨
    ∃ name id, names name = true ∧ o.lookup name = some id ∧ x ∈ o.slots id

namespace Code.Touches

variable {names names' shadowed : String → Bool} {o o₁ o' o'' : Outline} {a b : Code}

theorem of_spares (h : Code.Spares o o' a) : Code.Touches names o o' a :=
  fun x hx => (h x hx).imp_right .inl

theorem append (ha : Code.Touches names o o' a) (hb : Code.Touches names o o' b) :
    Code.Touches names o o' (a ++ b) := by
  intro x hx
  rw [writes_append, List.mem_append] at hx
  exact hx.elim (ha x) (hb x)

theorem imp (himp : ∀ name, names name = true → names' name = true) (h : Code.Touches names o o' a) :
    Code.Touches names' o o' a := by
  intro x hx
  rcases h x hx with hnew | hreserved | ⟨name, id, hname, hid⟩
  · exact .inl hnew
  · exact .inr (.inl hreserved)
  · exact .inr (.inr ⟨name, id, himp name hname, hid⟩)

/-- Code that is made before further steps. -/
theorem before (h : Code.Touches names o o' a) (hgrows : o'.Grows o'') (hloops : o''.loops = o'.loops) :
    Code.Touches names o o'' a := by
  intro x hx
  refine (h x hx).imp_right (·.imp_left (·.mono hgrows ?_))
  rw [hloops]
  exact List.Subset.refl _

/-- Code that is made after other steps.  A name that is not shadowed has kept its slots. -/
theorem after (hs : o.Settled) (hshadows : o.Shadows o₁ shadowed) (h : Code.Touches names o₁ o' a) :
    Code.Touches (fun name => !shadowed name && names name) o o' a := by
  intro x hx
  rcases h x hx with hnew | hreserved | ⟨name, id, hname, hid, hslot⟩
  · exact .inl (hshadows.grows.length_le.trans hnew)
  · exact .inr (.inl hreserved)
  · rcases hshadows.lookup name id hid with hnew | ⟨hvisible, hid⟩
    · exact .inl (hnew.trans (hshadows.good.le_of_mem_slots hslot))
    · obtain ⟨t, ht⟩ := hs.typed name id (mem_names_of_lookup hid)
      rw [hshadows.grows.slots hs.good hshadows.good ht] at hslot
      exact .inr (.inr ⟨name, id, by simp [hvisible, hname], hid, hslot⟩)

theorem branch (ha : Code.Touches names o o' a) (hb : Code.Touches names o o' b) (span : Span)
    (test : Operand) : Code.Touches names o o' [.branch span test a b] :=
  fun x hx => (mem_writes_branch.1 hx).elim (ha x) (hb x)

end Code.Touches

/-! ## Names in scope -/

/-- A value that is stored into names in scope. -/
theorem storeInto_names {s s' : Session} {code : Code} {v : Value} {span : Span} {target : Expr}
    {pattern : Pattern} {mode : BindMode} (hs : s.outline.Settled) (hv : v.Ok s.outline)
    (hbind : bindPattern .resolve target s = .ok (pattern, mode) s)
    (hstore : storeInto pattern v span s = .ok code s') :
    ∀ x ∈ code.writes, ∃ name id, target.targets name = true ∧ s.outline.lookup name = some id ∧
      x ∈ s.outline.slots id := by
  obtain ⟨hsteps, -, -, slots, hfills, rfl⟩ := storeInto_fills hs.good hv hstore
  intro x hx
  have hslot := writes_assignments _ _ _ hx
  rw [hfills.slots_eq] at hslot
  obtain ⟨id, hid, hslot⟩ := List.mem_flatMap.1 hslot
  obtain ⟨-, -, hnames⟩ := bindPattern_resolve_ok hbind
  obtain ⟨name, hname, hlookup⟩ := hnames id hid
  obtain ⟨t, ht⟩ := hs.typed name id (mem_names_of_lookup hlookup)
  rw [hsteps.grows.slots hs.good hsteps.good ht] at hslot
  exact ⟨name, id, hname, hlookup, hslot⟩

end SlotCode
