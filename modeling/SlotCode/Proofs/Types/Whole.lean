import SlotCode.Proofs.Types.Renamed
import SlotCode.Proofs.Types.Written

/-!
# Whole types

A copy that stops leaves `void` nodes behind which are not the type `void`.  A type is *whole* if no such
node can be reached from it (`Whole`).  In the same way it is settled whether placeholders can be
reached.  Types that are built from whole types are whole, and so is an instance of a whole type, which
reaches no placeholders besides those that the bound types reach (`Filled.whole`).
-/

namespace SlotCode.TypeGraph

variable {g g' : TypeGraph} {free : Bool} {bindings : Bindings} {id result : TypeId} {fuel : Nat}
  {s : Instantiation} {params : List TypeId}

/-- A node that may be reached: a `void` node only if it is `void` itself, and a placeholder only if they
are `free`. -/
def Allows (free : Bool) (id : TypeId) (kind : TypeKind) : Prop :=
  (kind = .void → id = .void) ∧ ∀ name, kind = .placeholder name → free = true

/-- Every node that can be reached from the type is allowed. -/
def Whole (g : TypeGraph) (free : Bool) (id : TypeId) : Prop :=
  ∀ target kind, g.Reaches id target → g.kind target = .ok kind → Allows free target kind

theorem Whole.part {part : TypeId} (h : g.Whole free id) (hp : g.Part id part) :
    g.Whole free part :=
  fun target kind hr => h target kind (.head hp hr)

theorem Whole.reaches {target : TypeId} (h : g.Whole free id) (hr : g.Reaches id target) :
    g.Whole free target :=
  fun other kind hr' => h other kind (hr.trans hr')

theorem Whole.concrete (h : g.Whole false id) : g.Concrete id := by
  intro target name hr hk
  cases (h target _ hr hk).2 name rfl

theorem Whole.extend (hg : g.Sound) (hext : g.Extends g') (hid : id < g.size) (h : g.Whole free id) :
    g'.Whole free id := by
  intro target kind hr hk
  obtain ⟨hold, hlt⟩ := hext.reaches_of_lt hg hid hr
  exact h target kind hold (hext.kind_of_lt hlt hk)

/-- Types are whole if their nodes are allowed and their parts are among them or whole. -/
theorem Whole.of_closed {S : TypeId → Prop} (hS : ∀ x kind, S x → g.kind x = .ok kind →
      Allows free x kind ∧ ∀ part ∈ kind.parts, S part ∨ g.Whole free part) (hid : S id) :
    g.Whole free id := by
  intro target kind hr hk
  have hboth : S target ∨ g.Whole free target := by
    clear hk
    induction hr with
    | refl => exact .inl hid
    | tail _ hpart ih =>
      rcases ih with hx | hx
      · obtain ⟨kx, hkx, hp⟩ := hpart
        exact (hS _ kx hx hkx).2 _ hp
      · exact .inr (hx.part hpart)
  rcases hboth with ht | ht
  · exact (hS target kind ht hk).1
  · exact ht target kind .refl hk

theorem Whole.of_parts {kind : TypeKind} (hk : g.kind id = .ok kind) (hallows : Allows free id kind)
    (hparts : ∀ part ∈ kind.parts, g.Whole free part) : g.Whole free id := by
  refine .of_closed (S := (· = id)) (fun x kx hx hkx => ?_) rfl
  subst hx
  cases kind_unique hk hkx
  exact ⟨hallows, fun part hp => .inr (hparts part hp)⟩

theorem Regular.unit_whole (hg : g.Regular) {id : Nat} (hid : id < 4) : g.Whole free id := by
  obtain ⟨kind, hk, hallows, hparts⟩ : ∃ kind, g.kind id = .ok kind ∧ Allows free id kind ∧
      kind.parts = [] := by
    obtain rfl | rfl | rfl | rfl : id = 0 ∨ id = 1 ∨ id = 2 ∨ id = 3 := by omega
    · exact ⟨_, hg.void, ⟨fun _ => rfl, nofun⟩, rfl⟩
    · exact ⟨_, hg.integer, ⟨nofun, nofun⟩, rfl⟩
    · exact ⟨_, hg.boolean, ⟨nofun, nofun⟩, rfl⟩
    · exact ⟨_, hg.string, ⟨nofun, nofun⟩, rfl⟩
  refine .of_parts hk hallows fun part hp => ?_
  rw [hparts] at hp
  cases hp

theorem reaches_of_mem_leafTypes (hg : g.Sound) {leaf : TypeId} (hid : id < g.size)
    (h : leaf ∈ g.leafTypes id) : g.Reaches id leaf := by
  induction id, hid using hg.induction with
  | step id hid ih =>
    obtain ⟨kind, hk⟩ := exists_kind hid
    rcases kind.tuple_or_not with ⟨items, rfl⟩ | hi
    · rw [leafTypes_tuple hg hk, List.mem_flatMap] at h
      obtain ⟨item, hitem, h⟩ := h
      exact .head ⟨_, hk, hitem⟩ (ih item ⟨_, hk, hitem⟩ h)
    · rw [leafTypes_of_not_tuple hk hi, List.mem_singleton] at h
      rw [h]
      exact .refl

/-! ## Building -/

/-- A new node that is allowed, over whole types. -/
theorem Whole.add (hg : g.Sound) {kind : TypeKind} (origin : Option Span) (hvoid : kind ≠ .void)
    (hfree : ∀ name, kind = .placeholder name → free = true)
    (hparts : ∀ part ∈ kind.parts, part < g.size ∧ g.Whole free part) :
    (g.add kind origin).2.Whole free g.size := by
  refine .of_parts ((kind_add _ _ _ _).trans (if_pos rfl)) ⟨fun h => absurd h hvoid, hfree⟩ ?_
  intro part hp
  exact (hparts part hp).2.extend hg (extends_add _ _ _) (hparts part hp).1

/-- A list and the pair that it holds are whole if the item is. -/
theorem Whole.list {item pair : TypeId} (hk : g.kind id = .ok (.list item pair))
    (hpair : g.kind pair = .ok (.tuple [item, id])) (hitem : g.Whole free item) :
    g.Whole free id := by
  refine .of_closed (S := fun x => x = id ∨ x = pair) (fun x kind hx hkx => ?_) (.inl rfl)
  rcases hx with rfl | rfl
  · cases kind_unique hk hkx
    refine ⟨⟨nofun, nofun⟩, List.forall_mem_cons.2 ⟨.inr hitem, fun part hp => ?_⟩⟩
    exact .inl (.inr (List.mem_singleton.1 hp))
  · cases kind_unique hpair hkx
    refine ⟨⟨nofun, nofun⟩, List.forall_mem_cons.2 ⟨.inr hitem, fun part hp => ?_⟩⟩
    exact .inl (.inl (List.mem_singleton.1 hp))

theorem Whole.addList (hg : g.Sound) {item : TypeId} (origin : Option Span) (hlt : item < g.size)
    (hitem : g.Whole free item) : (g.addList item origin).2.Whole free g.size := by
  refine .list ((kind_addList _ _ _ _).trans (if_pos rfl)) ?_
    (hitem.extend hg (extends_addList _ _ _) hlt)
  rw [kind_addList, if_neg (Nat.succ_ne_self _), if_pos rfl]

mutual

/-- What a written type denotes is whole. -/
theorem Denotes.whole {g : TypeGraph} (hg : g.Regular) {id : TypeId} (type : TypeExpr)
    (hfree : free = false → type.isConcrete = true) (h : g.Denotes type id) : g.Whole free id := by
  match type with
  | .void _ | .integer _ | .boolean _ | .string _ =>
    cases h
    exact hg.unit_whole (by decide)
  | .tuple _ types =>
    obtain ⟨ids, hk, hids⟩ := h
    exact .of_parts hk ⟨nofun, nofun⟩ (DenotesEach.whole hg types hfree hids)
  | .box _ type =>
    obtain ⟨payload, hk, hpayload⟩ := h
    refine .of_parts hk ⟨nofun, nofun⟩ fun part hp => ?_
    cases List.mem_singleton.1 hp
    exact Denotes.whole hg type hfree hpayload
  | .list _ type =>
    obtain ⟨item, pair, hk, hpair, hitem⟩ := h
    exact .list hk hpair (Denotes.whole hg type hfree hitem)
  | .placeholder _ name =>
    refine .of_parts h ⟨nofun, fun _ _ => ?_⟩ nofun
    cases free with
    | true => rfl
    | false => cases hfree rfl

theorem DenotesEach.whole {g : TypeGraph} (hg : g.Regular) {ids : List TypeId} (types : List TypeExpr)
    (hfree : free = false → TypeExpr.allConcrete types = true) (h : g.DenotesEach types ids) :
    ∀ id ∈ ids, g.Whole free id := by
  match types, ids with
  | [], [] => exact List.forall_mem_nil _
  | type :: types, id :: ids =>
    have hboth := fun heq => Bool.and_eq_true_iff.1 (hfree heq)
    exact List.forall_mem_cons.2 ⟨Denotes.whole hg type (fun heq => (hboth heq).1) h.1,
      DenotesEach.whole hg types (fun heq => (hboth heq).2) h.2⟩
  | [], _ :: _ | _ :: _, [] => exact h.elim

end

theorem resolve_whole (hg : g.Regular) (type : TypeExpr)
    (hfree : free = false → type.isConcrete = true) :
    (g.resolve type).2.Whole free (g.resolve type).1 :=
  Denotes.whole (resolve_grown hg type).regular type hfree (resolve_denotes hg type)

/-! ## Filling in placeholders -/

/-- A whole type that is filled in is whole.  Instead of placeholders it has the types they are bound
to. -/
theorem Filled.whole {a c : TypeId} (h : g.Filled bindings a c) (ha : g.Whole true a)
    (hb : ∀ name bound, bindings.get? name = some bound → g.Whole free bound) : g.Whole free c := by
  obtain ⟨R, hR, hac⟩ := h
  refine .of_closed (S := fun y => ∃ x, R x y ∧ g.Whole true x) (fun y kind hy hk => ?_) ⟨a, hac, ha⟩
  obtain ⟨x, hxy, hx⟩ := hy
  obtain ⟨kind', hk', hvoid, hname, hparts⟩ := (hR x y hxy).image
  cases kind_unique hk hk'
  refine ⟨⟨fun heq => ?_, fun name heq => absurd heq (hname name)⟩, fun part hp => ?_⟩
  · cases hvoid heq
    exact (hx y kind .refl hk).1 heq
  · rcases hparts part hp with ⟨p, hpart, hpq⟩ | ⟨name, -, hbound⟩
    · exact .inl ⟨p, hpq, hx.part hpart⟩
    · exact .inr (hb name part hbound)

/-- Placeholders are bound to whole types of values. -/
def BindsWhole (g : TypeGraph) (free : Bool) (bindings : Bindings) : Prop :=
  ∀ name bound, bindings.get? name = some bound → g.IsValue bound ∧ g.Whole free bound

theorem BindsWhole.values (h : g.BindsWhole free bindings) :
    ∀ name bound, bindings.get? name = some bound → g.IsValue bound :=
  fun name bound hbound => (h name bound hbound).1

theorem BindsWhole.extend (hg : g.Sound) (hext : g.Extends g') (h : g.BindsWhole free bindings) :
    g'.BindsWhole free bindings := fun name bound hbound =>
  ⟨(h name bound hbound).1.extend hext,
    (h name bound hbound).2.extend hg hext (h name bound hbound).1.lt_size⟩

/-- Matching binds placeholders to parts of the type that was found. -/
theorem BindsWhole.matched {param found : TypeId} {sp sp' : Span} {b : Bindings}
    {after : Option Bindings} (hb : g.BindsWhole free b) (hg : g.Regular) (hparam : param < g.size)
    (hfound : found < g.size) (hwhole : g.Whole free found)
    (hmatch : g.matchTypes (some param) found sp sp' (some b) = .ok () after) :
    g.BindsWhole free (after.getD b) := by
  intro name bound hbound
  rcases binds_of_matchTypes hg.toSound hparam hfound hmatch hbound with hold | ⟨-, hnew⟩
  · exact hb name bound hold
  · obtain ⟨q, kind, hreach, hk, hp⟩ := hnew
    have hpart : g.Part q bound := .payload hk hp
    exact ⟨hg.parts q bound hpart, (hwhole.reaches hreach).part hpart⟩

theorem instantiate_whole (hg : g.Regular) (hb : g.BindsWhole free bindings) {r : TypeId}
    (hid : id < g.size) (hwhole : g.Whole true id) {span : Span}
    (hrun : instantiate id bindings span g = .ok r g') : g'.Whole free r := by
  rcases instantiate_fills_or_fails hg.knotted bindings hid span with ⟨c, g₁, hrun', hext, hc⟩ |
    ⟨name, g₁, hrun', -⟩
  · cases hrun.symm.trans hrun'
    exact hc.whole (hwhole.extend hg.toSound hext hid)
      fun name bound hbound => ((hb.extend hg.toSound hext) name bound hbound).2
  · cases hrun.symm.trans hrun'

end SlotCode.TypeGraph
