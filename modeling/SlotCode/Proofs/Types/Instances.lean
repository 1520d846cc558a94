import SlotCode.Proofs.Types.Additions
import SlotCode.Proofs.Types.Whole

/-!
# Instances of all types

What `instantiate` does in every graph whose lists hold pairs of an item and themselves
(`Knotted`), also for types in which functions stand inside of other types.

- It fails exactly if a placeholder that is not bound can be reached, and names such a one.
- A type from which no placeholder can be reached is its own instance.
- Otherwise it returns the type with its placeholders filled in (`Filled`).
-/

namespace SlotCode.TypeGraph

variable {g g' : TypeGraph} {bindings : Bindings} {id : TypeId}

/-- An instance holds copies of the nodes of the type, and types that placeholders stand for. -/
theorem Filled.hasPlaceholder (hg : g.Sound) (hext : g.Extends g')
    (hb : ∀ name bound, bindings.get? name = some bound → bound < g.size) {r : TypeId}
    (hid : id < g.size) (h : g'.Filled bindings id r)
    (hfree : ∀ name bound, g.Mentions id name → bindings.get? name = some bound →
      ∀ inner, ¬ g.Mentions bound inner) : g'.hasPlaceholder r = .ok false := by
  refine hasPlaceholder_eq_false (S := fun y =>
    (∃ x, g.Reaches id x ∧ x < g.size ∧ g'.Filled bindings x y) ∨
      y < g.size ∧ ∀ name, ¬ g.Mentions y name) ?_ (.inl ⟨id, .refl, hid, h⟩)
  rintro y (⟨x, hx, hlt, hxy⟩ | ⟨hlt, hy⟩)
  · obtain ⟨kind, hk, -, hkind, hparts⟩ := hxy.node.image
    refine ⟨kind, hk, hkind, fun q hq => ?_⟩
    rcases hparts q (kind.searched_subset hq) with ⟨p, ⟨kx, hkx, hp⟩, hpq⟩ | ⟨name, hname, hbound⟩
    · have hpart : g.Part x p := ⟨kx, hext.kind_of_lt hlt hkx, hp⟩
      exact .inl ⟨p, hx.tail hpart, hg.closed x p hpart, hpq⟩
    · exact .inr ⟨hb name q hbound, hfree name q ⟨x, hx, hext.kind_of_lt hlt hname⟩ hbound⟩
  · obtain ⟨kind, hk⟩ := exists_kind hlt
    refine ⟨kind, hext y kind hk, ?_, fun q hq => .inr ?_⟩
    · rintro name rfl
      exact hy name ⟨y, .refl, hk⟩
    · have hpart : g.Part y q := ⟨kind, hk, kind.searched_subset hq⟩
      exact ⟨hg.closed y q hpart, fun name hname => hy name (.of_part hpart hname)⟩

/-! ## Instances -/

/-- `instantiate` is substitution.  In every graph whose lists are knotted, whatever the bindings:

- it fails exactly if a placeholder that is not bound can be reached, and it names such a one;
- a type from which no placeholder can be reached is returned, and the graph stays as it is;
- what it returns is the type with its placeholders filled in;
- no placeholder is found in it if none can be reached from the types that were filled in;
- all nodes that were there are kept, also by a run that fails. -/
theorem instantiate_substitutes (hg : g.Knotted) (bindings : Bindings)
    (hb : ∀ name bound, bindings.get? name = some bound → bound < g.size) (id : TypeId)
    (hid : id < g.size) (span : Span) :
    ((∃ name g', instantiate id bindings span g = .error (.error (.unboundPlaceholder name span)) g') ↔
      ∃ name, g.Mentions id name ∧ bindings.get? name = none) ∧
    (∀ failure g', instantiate id bindings span g = .error failure g' →
      ∃ name, failure = .error (.unboundPlaceholder name span) ∧ g.Mentions id name ∧
        bindings.get? name = none) ∧
    ((∀ name, ¬ g.Mentions id name) → instantiate id bindings span g = .ok id g) ∧
    (∀ r g', instantiate id bindings span g = .ok r g' →
      g'.Filled bindings id r ∧
      ((∀ name bound, g.Mentions id name → bindings.get? name = some bound →
        ∀ inner, ¬ g.Mentions bound inner) → g'.hasPlaceholder r = .ok false)) ∧
    g.KeptIn (stateAfter (instantiate id bindings span g)) := by
  have hsame : (∀ name, ¬ g.Mentions id name) → instantiate id bindings span g = .ok id g := by
    intro hnone
    rcases hasPlaceholder_cases hg hid with ⟨hfound, -⟩ | ⟨-, name, hname⟩
    · simp only [instantiate, hfound]
    · exact absurd hname (hnone name)
  have hkept := instantiate_keptIn id bindings span g
  rcases instantiate_fills_or_fails hg bindings hid span with ⟨r, g', hrun, hext, hr⟩ | ⟨name, g', hrun, hname⟩
  · refine ⟨⟨?_, ?_⟩, ?_, hsame, ?_, hkept⟩
    · rintro ⟨name, g'', herr⟩
      cases hrun.symm.trans herr
    · rintro ⟨name, hname, hnone⟩
      obtain ⟨bound, hbound⟩ := hr.bound (hname.extend hext)
      cases hnone.symm.trans hbound
    · intro failure g'' herr
      cases hrun.symm.trans herr
    · intro r' g'' hok
      cases hrun.symm.trans hok
      exact ⟨hr, hr.hasPlaceholder hg.toSound hext hb hid⟩
  · refine ⟨⟨fun _ => ⟨name, hname⟩, fun _ => ⟨name, g', hrun⟩⟩, ?_, hsame, ?_, hkept⟩
    · intro failure g'' herr
      cases hrun.symm.trans herr
      exact ⟨name, rfl, hname⟩
    · intro r g'' hok
      cases hrun.symm.trans hok

/-- A function from a list of placeholders to a placeholder. -/
def pickerGraph : TypeGraph :=
  (((initial.add (.placeholder "T") none).2.addList 4 none).2.add (.function [5] 4 false) none).2

theorem knotted_pickerGraph : pickerGraph.Knotted := by
  have hplaceholder : (initial.add (.placeholder "T") none).2.Regular :=
    regular_initial.add none (List.forall_mem_nil _) rfl
  have hitem : (initial.add (.placeholder "T") none).2.IsValue 4 := ⟨_, rfl, rfl⟩
  refine ((hplaceholder.addList none hitem).add none ?_ rfl).knotted
  intro part hpart
  rcases List.mem_pair.1 hpart with rfl | rfl
  · exact ⟨_, rfl, rfl⟩
  · exact ⟨_, rfl, rfl⟩

/-- The integers are in the graph. -/
theorem lt_size_pickerGraph (name : String) (bound : TypeId)
    (h : Bindings.get? [("T", .integer)] name = some bound) : bound < pickerGraph.size := by
  obtain ⟨before, after, hsplit, -⟩ := List.lookup_eq_some_iff.1 h
  have hmem : (name, bound) ∈ [("T", .integer)] := by simp [hsplit]
  cases List.mem_singleton.1 hmem
  decide

/-- With the placeholder bound to the integers the function has an instance without placeholders;
with nothing bound it has none. -/
theorem instantiate_pickerGraph :
    pickerGraph.Knotted ∧
    (∃ r g', instantiate 7 [("T", .integer)] ⟨0, 0⟩ pickerGraph = .ok r g' ∧
      g'.Filled [("T", .integer)] 7 r ∧ pickerGraph.KeptIn g') ∧
    ∃ name g', instantiate 7 [] ⟨0, 0⟩ pickerGraph =
      .error (.error (.unboundPlaceholder name ⟨0, 0⟩)) g' := by
  obtain ⟨-, -, -, hok, hkept⟩ :=
    instantiate_substitutes knotted_pickerGraph _ lt_size_pickerGraph 7 (by decide) ⟨0, 0⟩
  obtain ⟨hfails, -⟩ := instantiate_substitutes knotted_pickerGraph []
    (fun _ _ hget => by cases hget) 7 (by decide) ⟨0, 0⟩
  refine ⟨knotted_pickerGraph, ?_, hfails.2 ⟨"T", ⟨4, .single ⟨_, rfl, ?_⟩, rfl⟩, rfl⟩⟩
  · have hends : succeeds (fun _ => true) (instantiate 7 [("T", .integer)] ⟨0, 0⟩ pickerGraph) =
        true := by decide +kernel
    obtain ⟨r, g', hrun, -⟩ := exists_ok_of_succeeds hends
    rw [hrun] at hkept
    exact ⟨r, g', hrun, (hok r g' hrun).1, hkept⟩
  · exact List.mem_cons_of_mem _ List.mem_cons_self

end SlotCode.TypeGraph
