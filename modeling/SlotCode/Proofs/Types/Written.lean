import SlotCode.Proofs.Types.Copying

/-!
# Written types

A written type is resolved to a node of the same shape, which it *denotes* (`resolve_denotes`).  A type
without placeholders is *concrete*, which means that no placeholder can be reached from it.  A concrete
type matches only types that are alike, and it is its own instance, up to being alike.
-/

namespace SlotCode

open List

namespace TypeExpr

def isVoid : TypeExpr → Bool
  | .void _ => true
  | _ => false

mutual

/-- No placeholder is written. -/
def isConcrete : TypeExpr → Bool
  | .void _ | .integer _ | .boolean _ | .string _ => true
  | .tuple _ items => allConcrete items
  | .box _ payload => isConcrete payload
  | .list _ item => isConcrete item
  | .placeholder _ _ => false

def allConcrete : List TypeExpr → Bool
  | [] => true
  | type :: types => isConcrete type && allConcrete types

end

end TypeExpr

namespace TypeGraph

variable {g g' : TypeGraph}

/-! ## Denoted types -/

mutual

/-- The written type stands for the node: they have the same shape, all the way down. -/
def Denotes (g : TypeGraph) : TypeExpr → TypeId → Prop
  | .void _, id => id = .void
  | .integer _, id => id = .integer
  | .boolean _, id => id = .boolean
  | .string _, id => id = .string
  | .tuple _ types, id => ∃ ids, g.kind id = .ok (.tuple ids) ∧ DenotesEach g types ids
  | .box _ type, id => ∃ payload, g.kind id = .ok (.box payload) ∧ Denotes g type payload
  | .list _ type, id => ∃ item pair, g.kind id = .ok (.list item pair) ∧
      g.kind pair = .ok (.tuple [item, id]) ∧ Denotes g type item
  | .placeholder _ name, id => g.kind id = .ok (.placeholder name)

def DenotesEach (g : TypeGraph) : List TypeExpr → List TypeId → Prop
  | [], [] => True
  | type :: types, id :: ids => Denotes g type id ∧ DenotesEach g types ids
  | _, _ => False

end

theorem denotesEach_iff {types : List TypeExpr} {ids : List TypeId} :
    g.DenotesEach types ids ↔ Forall₂ g.Denotes types ids := by
  induction types generalizing ids with
  | nil => cases ids <;> simp [DenotesEach]
  | cons type types ih => cases ids <;> simp [DenotesEach, ih]

mutual

theorem Denotes.extend {g g' : TypeGraph} (hext : g.Extends g') {id : TypeId} (type : TypeExpr)
    (h : g.Denotes type id) : g'.Denotes type id := by
  match type with
  | .void _ | .integer _ | .boolean _ | .string _ => exact h
  | .tuple _ types =>
    obtain ⟨ids, hk, hids⟩ := h
    exact ⟨ids, hext _ _ hk, DenotesEach.extend hext types hids⟩
  | .box _ type =>
    obtain ⟨payload, hk, hpayload⟩ := h
    exact ⟨payload, hext _ _ hk, Denotes.extend hext type hpayload⟩
  | .list _ type =>
    obtain ⟨item, pair, hk, hpair, hitem⟩ := h
    exact ⟨item, pair, hext _ _ hk, hext _ _ hpair, Denotes.extend hext type hitem⟩
  | .placeholder _ name => exact hext _ _ h

theorem DenotesEach.extend {g g' : TypeGraph} (hext : g.Extends g') {ids : List TypeId}
    (types : List TypeExpr) (h : g.DenotesEach types ids) : g'.DenotesEach types ids := by
  match types, ids with
  | [], [] => exact h
  | type :: types, id :: ids =>
    exact ⟨Denotes.extend hext type h.1, DenotesEach.extend hext types h.2⟩
  | [], _ :: _ | _ :: _, [] => exact h.elim

end

mutual

/-- A written type is resolved to what it denotes. -/
theorem resolve_denotes {g : TypeGraph} (hg : g.Regular) (type : TypeExpr) :
    (g.resolve type).2.Denotes type (g.resolve type).1 := by
  match type with
  | .void _ | .integer _ | .boolean _ | .string _ => exact rfl
  | .tuple span types =>
    exact ⟨_, (kind_add _ _ _ _).trans (if_pos rfl),
      DenotesEach.extend (extends_add _ _ _) types (resolveAll_denotes hg types)⟩
  | .box span type =>
    exact ⟨_, (kind_add _ _ _ _).trans (if_pos rfl),
      Denotes.extend (extends_add _ _ _) type (resolve_denotes hg type)⟩
  | .list span type =>
    refine ⟨_, _, (kind_addList _ _ _ _).trans (if_pos rfl), ?_,
      Denotes.extend (extends_addList _ _ _) type (resolve_denotes hg type)⟩
    exact (kind_addList _ _ _ _).trans ((if_neg (Nat.succ_ne_self _)).trans (if_pos rfl))
  | .placeholder span name => exact (kind_add _ _ _ _).trans (if_pos rfl)

theorem resolveAll_denotes {g : TypeGraph} (hg : g.Regular) (types : List TypeExpr) :
    (g.resolveAll types).2.DenotesEach types (g.resolveAll types).1 := by
  match types with
  | [] => exact trivial
  | type :: types =>
    have h := resolve_grown hg type
    exact ⟨Denotes.extend (resolveAll_grown h.regular types).ext type (resolve_denotes hg type),
      resolveAll_denotes h.regular types⟩

end

/-- Only `void` denotes `void`. -/
theorem Denotes.void_iff (hg : g.Regular) {type : TypeExpr} {id : TypeId} (h : g.Denotes type id) :
    id = .void ↔ type.isVoid = true := by
  have hne : ∀ {kind : TypeKind}, g.kind id = .ok kind → kind ≠ .void → id ≠ .void := by
    rintro kind hk hkind rfl
    exact hkind (kind_unique hk hg.void)
  cases type with
  | void span => exact ⟨fun _ => rfl, fun _ => h⟩
  | integer span =>
    cases (show id = .integer from h)
    exact iff_of_false (hne hg.integer nofun) nofun
  | boolean span =>
    cases (show id = .boolean from h)
    exact iff_of_false (hne hg.boolean nofun) nofun
  | string span =>
    cases (show id = .string from h)
    exact iff_of_false (hne hg.string nofun) nofun
  | tuple span types =>
    obtain ⟨ids, hk, -⟩ := h
    exact iff_of_false (hne hk nofun) nofun
  | box span type =>
    obtain ⟨payload, hk, -⟩ := h
    exact iff_of_false (hne hk nofun) nofun
  | list span type =>
    obtain ⟨item, pair, hk, -⟩ := h
    exact iff_of_false (hne hk nofun) nofun
  | placeholder span name => exact iff_of_false (hne h nofun) nofun

/-! ## Concrete types -/

/-- No placeholder can be reached from the type. -/
def Concrete (g : TypeGraph) (id : TypeId) : Prop :=
  ∀ p name, g.Reaches id p → g.kind p ≠ .ok (.placeholder name)

def NoPlaceholders (g : TypeGraph) : Prop :=
  ∀ id name, g.kind id ≠ .ok (.placeholder name)

theorem NoPlaceholders.concrete (h : g.NoPlaceholders) (id : TypeId) : g.Concrete id :=
  fun p name _ => h p name

theorem noPlaceholders_initial : initial.NoPlaceholders := by
  intro id name hk
  match id with
  | 0 | 1 | 2 | 3 => cases hk
  | _ + 4 => cases hk

theorem NoPlaceholders.add (h : g.NoPlaceholders) {kind : TypeKind} (hkind : ∀ name, kind ≠ .placeholder name)
    (origin : Option Span) : (g.add kind origin).2.NoPlaceholders := by
  intro id name hk
  rw [kind_add] at hk
  split at hk
  · exact hkind name (Except.ok.inj hk)
  · exact h id name hk

theorem NoPlaceholders.addList (h : g.NoPlaceholders) (item : TypeId) (origin : Option Span) :
    (g.addList item origin).2.NoPlaceholders := by
  intro id name hk
  rw [kind_addList] at hk
  split at hk
  · cases hk
  · split at hk
    · cases hk
    · exact h id name hk

mutual

theorem NoPlaceholders.resolve {g : TypeGraph} (h : g.NoPlaceholders) (type : TypeExpr)
    (hc : type.isConcrete = true) : (g.resolve type).2.NoPlaceholders := by
  cases type with
  | void span | integer span | boolean span | string span => exact h
  | tuple span items => exact (NoPlaceholders.resolveAll h items hc).add (by nofun) _
  | box span payload => exact (NoPlaceholders.resolve h payload hc).add (by nofun) _
  | list span item => exact (NoPlaceholders.resolve h item hc).addList _ _
  | placeholder span name => cases hc

theorem NoPlaceholders.resolveAll {g : TypeGraph} (h : g.NoPlaceholders) (types : List TypeExpr)
    (hc : TypeExpr.allConcrete types = true) : (g.resolveAll types).2.NoPlaceholders := by
  cases types with
  | nil => exact h
  | cons type types =>
    obtain ⟨hc, hcs⟩ := Bool.and_eq_true_iff.1 hc
    exact NoPlaceholders.resolveAll (NoPlaceholders.resolve h type hc) types hcs

end

theorem Concrete.part {id part : TypeId} (h : g.Concrete id) (hp : g.Part id part) : g.Concrete part :=
  fun p name hr => h p name (.head hp hr)

theorem Concrete.not_placeholder {id : TypeId} (h : g.Concrete id) (name : String) :
    g.kind id ≠ .ok (.placeholder name) :=
  h id name .refl

theorem Concrete.extend (hg : g.Sound) (hext : g.Extends g') {id : TypeId} (hid : id < g.size)
    (h : g.Concrete id) : g'.Concrete id := by
  intro p name hr
  obtain ⟨hold, hlt⟩ := hext.reaches_of_lt hg hid hr
  exact fun hk => h p name hold (hext.kind_of_lt hlt hk)

mutual

/-- A type that denotes a concrete one is written without placeholders. -/
theorem Denotes.isConcrete {g : TypeGraph} {id : TypeId} (type : TypeExpr) (h : g.Denotes type id)
    (hc : g.Concrete id) : type.isConcrete = true := by
  cases type with
  | void span | integer span | boolean span | string span => rfl
  | tuple span items =>
    obtain ⟨ids, hk, hids⟩ := h
    exact DenotesEach.allConcrete items hids fun part hpart => hc.part ⟨_, hk, hpart⟩
  | box span payload =>
    obtain ⟨part, hk, hpayload⟩ := h
    exact Denotes.isConcrete payload hpayload (hc.part ⟨_, hk, mem_cons_self⟩)
  | list span item =>
    obtain ⟨part, pair, hk, -, hitem⟩ := h
    exact Denotes.isConcrete item hitem (hc.part ⟨_, hk, mem_cons_self⟩)
  | placeholder span name => exact absurd h (hc.not_placeholder name)

theorem DenotesEach.allConcrete {g : TypeGraph} {ids : List TypeId} (types : List TypeExpr)
    (h : g.DenotesEach types ids) (hc : ∀ id ∈ ids, g.Concrete id) :
    TypeExpr.allConcrete types = true := by
  cases types with
  | nil => rfl
  | cons type types =>
    cases ids with
    | nil => cases h
    | cons id ids =>
      obtain ⟨hid, hids⟩ := forall_mem_cons.1 hc
      exact Bool.and_eq_true_iff.2
        ⟨Denotes.isConcrete type h.1 hid, DenotesEach.allConcrete types h.2 hids⟩

end

/-- Matching binds nothing in a concrete type. -/
theorem Concrete.alike {e a : TypeId} (he : g.Concrete e) (h : g.Alike true e a) :
    g.Alike false e a := by
  refine ⟨fun e a => g.Concrete e ∧ g.Alike true e a, ?_, he, h⟩
  rintro e a ⟨he, h⟩
  cases h.agree with
  | same => exact .same _
  | tuple hke hka h =>
    refine .tuple hke hka (forall₂_iff_get.2 ⟨h.length_eq, fun i hi hi' => ⟨?_, h.get hi hi'⟩⟩)
    exact he.part ⟨_, hke, get_mem _ _⟩
  | box hke hka hp hq h =>
    exact .box hke hka hp hq ⟨he.part (.payload hke hp), h⟩
  | placeholder hke => exact absurd hke (he.not_placeholder _)
  | bound _ hke => exact absurd hke (he.not_placeholder _)

/-- An instance of a concrete type is alike. -/
theorem Concrete.alike_instance {bindings : Bindings} {a c : TypeId} (ha : g.Concrete a)
    (h : g.Instance bindings a c) : g.Alike false a c := by
  obtain ⟨R, hR, hac⟩ := h
  refine ⟨fun a c => g.Concrete a ∧ R a c, ?_, ha, hac⟩
  rintro a c ⟨ha, hac⟩
  cases hR a c hac with
  | base => exact .same _
  | tuple hka hkc h =>
    refine .tuple hka hkc (forall₂_iff_get.2 ⟨h.length_eq, fun i hi hi' => ⟨?_, h.get hi hi'⟩⟩)
    exact ha.part ⟨_, hka, get_mem _ _⟩
  | box hka hkc h => exact .box hka hkc rfl rfl ⟨ha.part ⟨_, hka, mem_cons_self⟩, h⟩
  | list hka hkc _ h =>
    exact .box hka hkc rfl rfl ⟨ha.part ⟨_, hka, mem_cons_of_mem _ mem_cons_self⟩, h⟩
  | placeholder hka => exact absurd hka (ha.not_placeholder _)

end TypeGraph

end SlotCode
