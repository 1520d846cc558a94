import SlotCode.Proofs.Types.Leaves
import SlotCode.Types.Instantiate

/-!
# Filling in placeholders is substitution

A type is an *instance* of another under some bindings if it has the same structure, except that a
box around the bound type stands where the other has a placeholder.  As for types that are alike,
that is the greatest relation of which one level can be read off at every pair (`Image`).

In a type with functions inside of it these are filled in as well (`Filled`).  Only placeholders that
have a type to stand for can be.
-/

namespace SlotCode

open List

variable {R : TypeId → TypeId → Prop} {a c id p q : TypeId} {kind ka : TypeKind}

/-- Whether it is one of the types without parts and without a name. -/
def TypeKind.isBase : TypeKind → Bool
  | .void | .integer | .boolean | .string => true
  | _ => false

/-- The parts that the search for placeholders goes to.  It enters a list through its payload. -/
def TypeKind.searched : TypeKind → List TypeId
  | .list _ payload => [payload]
  | kind => kind.parts

theorem TypeKind.mem_searched_iff {payload part : TypeId} (h : kind.payload? = some payload) :
    part ∈ kind.searched ↔ part = payload := by
  cases kind with
  | box | list =>
    cases h
    exact mem_singleton
  | _ => cases h

theorem TypeKind.searched_subset (kind : TypeKind) : kind.searched ⊆ kind.parts := by
  cases kind <;> simp [searched, parts]

namespace TypeGraph

variable {g g' : TypeGraph} {bindings : Bindings} {name : String}

/-- One level of an instance `c` of the type `a`, whose parts are related by `R`. -/
inductive Image (g : TypeGraph) (bindings : Bindings) (R : TypeId → TypeId → Prop) :
    TypeId → TypeId → Prop where
  | base {id : TypeId} {kind : TypeKind} (hk : g.kind id = .ok kind) (hb : kind.isBase = true) :
      Image g bindings R id id
  | tuple {a c : TypeId} {as cs : List TypeId} (ha : g.kind a = .ok (.tuple as))
      (hc : g.kind c = .ok (.tuple cs)) (h : List.Forall₂ R as cs) : Image g bindings R a c
  | box {a c p q : TypeId} (ha : g.kind a = .ok (.box p)) (hc : g.kind c = .ok (.box q))
      (h : R p q) : Image g bindings R a c
  | list {a c i j p q : TypeId} (ha : g.kind a = .ok (.list i p)) (hc : g.kind c = .ok (.list j q))
      (hi : R i j) (hp : R p q) : Image g bindings R a c
  | placeholder {a c bound : TypeId} {name : String} (ha : g.kind a = .ok (.placeholder name))
      (hb : bindings.get? name = some bound) (hc : g.kind c = .ok (.box bound)) :
      Image g bindings R a c

/-- `c` is the type `a` with its placeholders filled in. -/
def Instance (g : TypeGraph) (bindings : Bindings) (a c : TypeId) : Prop :=
  ∃ R : TypeId → TypeId → Prop, (∀ x y, R x y → g.Image bindings R x y) ∧ R a c

theorem Image.mono {S : TypeId → TypeId → Prop}
    (ha : ∀ kind, g.kind a = .ok kind → g'.kind a = .ok kind)
    (hc : ∀ kind, g.kind c = .ok kind → g'.kind c = .ok kind) (hRS : ∀ x y, R x y → S x y)
    (h : g.Image bindings R a c) : g'.Image bindings S a c := by
  cases h with
  | base hk hb => exact .base (ha _ hk) hb
  | tuple hka hkc h => exact .tuple (ha _ hka) (hc _ hkc) (h.imp hRS)
  | box hka hkc h => exact .box (ha _ hka) (hc _ hkc) (hRS _ _ h)
  | list hka hkc hi hp => exact .list (ha _ hka) (hc _ hkc) (hRS _ _ hi) (hRS _ _ hp)
  | placeholder hka hb hkc => exact .placeholder (ha _ hka) hb (hc _ hkc)

theorem Instance.extend (hext : g.Extends g') (h : g.Instance bindings a c) :
    g'.Instance bindings a c := by
  obtain ⟨R, hR, hac⟩ := h
  exact ⟨R, fun x y hxy => (hR x y hxy).mono (hext x) (hext y) fun _ _ h => h, hac⟩

theorem Image.isValue (h : g.Image bindings R a c) : g.IsValue c := by
  cases h with
  | @base kind hk hb =>
    refine ⟨kind, hk, ?_⟩
    cases kind with
    | function => cases hb
    | _ => rfl
  | tuple _ hc | box _ hc | list _ hc | placeholder _ _ hc => exact ⟨_, hc, rfl⟩

theorem Image.items {as : List TypeId} (h : g.Image bindings R a c)
    (ha : g.kind a = .ok (.tuple as)) :
    ∃ cs, g.kind c = .ok (.tuple cs) ∧ Forall₂ R as cs := by
  cases h with
  | base hk hb =>
    cases kind_unique ha hk
    cases hb
  | tuple ha' hc h =>
    cases kind_unique ha ha'
    exact ⟨_, hc, h⟩
  | box ha' | list ha' | placeholder ha' => cases kind_unique ha ha'

/-- Replacing placeholders keeps the leaves in their places. -/
theorem Instance.leafTypes (hg : g.Sound) (h : g.Instance bindings a c) :
    Forall₂ (g.Instance bindings) (g.leafTypes a) (g.leafTypes c) := by
  obtain ⟨R, hR, hac⟩ := h
  have hleaf : ∀ {a c ka kc}, R a c → g.kind a = .ok ka → g.kind c = .ok kc → ka.items? = none →
      kc.items? = none → Forall₂ (g.Instance bindings) (g.leafTypes a) (g.leafTypes c) := by
    intro a c ka kc hac ha hc hia hic
    rw [leafTypes_of_not_tuple ha hia, leafTypes_of_not_tuple hc hic]
    exact .cons ⟨R, hR, hac⟩ .nil
  have ha : a < g.size := by
    cases hR a c hac with
    | base ha | tuple ha | box ha | list ha | placeholder ha => exact lt_size_of_kind ha
  induction a, ha using hg.induction generalizing c with
  | step a ha ih =>
    cases hR a c hac with
    | @base kind hk hb =>
      have hi : kind.items? = none := by cases kind <;> cases hb <;> rfl
      exact hleaf hac hk hk hi hi
    | tuple ha hc hitems =>
      rw [leafTypes_tuple hg ha, leafTypes_tuple hg hc]
      exact forall₂_flatMap hitems fun p hp q hpq => ih p ⟨_, ha, hp⟩ hpq
    | box ha hc => exact hleaf hac ha hc rfl rfl
    | list ha hc => exact hleaf hac ha hc rfl rfl
    | placeholder ha _ hc => exact hleaf hac ha hc rfl rfl

/-! ## Placeholders that can be reached -/

/-- A placeholder of that name can be reached from the type. -/
def Mentions (g : TypeGraph) (id : TypeId) (name : String) : Prop :=
  ∃ target, g.Reaches id target ∧ g.kind target = .ok (.placeholder name)

theorem Mentions.of_part {part : TypeId} (hp : g.Part id part) (h : g.Mentions part name) :
    g.Mentions id name := by
  obtain ⟨target, hr, hk⟩ := h
  exact ⟨target, .head hp hr, hk⟩

theorem Mentions.extend (h : g.Extends g') (hm : g.Mentions id name) : g'.Mentions id name := by
  obtain ⟨target, hr, hk⟩ := hm
  refine ⟨target, Relation.ReflTransGen.mono ?_ _ _ hr, h _ _ hk⟩
  rintro x y ⟨kind, hkx, hp⟩
  exact ⟨kind, h _ _ hkx, hp⟩

/-! ## Filled types -/

/-- One level of a type `c` that is `a` with its placeholders filled in, whose parts are related by
`R`. -/
inductive FilledNode (g : TypeGraph) (bindings : Bindings) (R : TypeId → TypeId → Prop) :
    TypeId → TypeId → Prop where
  | value {a c : TypeId} (h : g.Image bindings R a c) : FilledNode g bindings R a c
  | function {a c r q : TypeId} {ps qs : List TypeId} {native : Bool}
      (ha : g.kind a = .ok (.function ps r native)) (hc : g.kind c = .ok (.function qs q native))
      (hps : List.Forall₂ R ps qs) (hr : R r q) : FilledNode g bindings R a c

/-- The greatest relation of which one level can be read off at every pair. -/
def Filled (g : TypeGraph) (bindings : Bindings) (a c : TypeId) : Prop :=
  ∃ R : TypeId → TypeId → Prop, (∀ x y, R x y → g.FilledNode bindings R x y) ∧ R a c

/-- A type of values is no function. -/
theorem FilledNode.toImage (h : g.FilledNode bindings R a c) (ha : g.IsValue a) :
    g.Image bindings R a c := by
  cases h with
  | value h => exact h
  | function hka =>
    obtain ⟨kind, hk, hf⟩ := ha
    cases kind_unique hk hka
    cases hf

/-- In a regular graph no function stands inside of a type of values. -/
theorem Filled.toInstance (hg : g.Regular) (ha : g.IsValue a) (h : g.Filled bindings a c) :
    g.Instance bindings a c := by
  obtain ⟨R, hR, hac⟩ := h
  refine ⟨fun x y => g.IsValue x ∧ R x y, ?_, ha, hac⟩
  rintro x y ⟨hx, hxy⟩
  cases (hR x y hxy).toImage hx with
  | base hk hb => exact .base hk hb
  | tuple hkx hky h =>
    exact .tuple hkx hky ((forall₂_and_left _ _).2 ⟨fun p hp => hg.parts x p ⟨_, hkx, hp⟩, h⟩)
  | box hkx hky h => exact .box hkx hky ⟨hg.parts x _ ⟨_, hkx, mem_cons_self⟩, h⟩
  | list hkx hky hi hp =>
    exact .list hkx hky ⟨hg.parts x _ ⟨_, hkx, mem_cons_self⟩, hi⟩
      ⟨hg.parts x _ ⟨_, hkx, mem_cons_of_mem _ mem_cons_self⟩, hp⟩
  | placeholder hkx hb hky => exact .placeholder hkx hb hky

theorem FilledNode.mono {S : TypeId → TypeId → Prop}
    (ha : ∀ kind, g.kind a = .ok kind → g'.kind a = .ok kind)
    (hc : ∀ kind, g.kind c = .ok kind → g'.kind c = .ok kind) (hRS : ∀ x y, R x y → S x y)
    (h : g.FilledNode bindings R a c) : g'.FilledNode bindings S a c := by
  cases h with
  | value h => exact .value (h.mono ha hc hRS)
  | function hka hkc hps hr => exact .function (ha _ hka) (hc _ hkc) (hps.imp hRS) (hRS _ _ hr)

theorem Filled.node (h : g.Filled bindings a c) :
    g.FilledNode bindings (g.Filled bindings) a c := by
  obtain ⟨R, hR, hac⟩ := h
  exact (hR a c hac).mono (fun _ hk => hk) (fun _ hk => hk) fun x y hxy => ⟨R, hR, hxy⟩

/-- Each part is filled in. -/
theorem FilledNode.part (h : g.FilledNode bindings R a c) (hk : g.kind a = .ok ka)
    (hp : p ∈ ka.parts) : ∃ q, R p q := by
  cases h with
  | value h =>
    cases h with
    | base ha hb =>
      cases kind_unique hk ha
      cases ka <;> cases hb <;> cases hp
    | tuple ha _ h =>
      cases kind_unique hk ha
      obtain ⟨q, -, hpq⟩ := exists_of_forall₂ h hp
      exact ⟨q, hpq⟩
    | box ha _ h =>
      cases kind_unique hk ha
      cases mem_singleton.1 hp
      exact ⟨_, h⟩
    | list ha _ hi hq =>
      cases kind_unique hk ha
      rcases mem_pair.1 hp with rfl | rfl
      · exact ⟨_, hi⟩
      · exact ⟨_, hq⟩
    | placeholder ha =>
      cases kind_unique hk ha
      cases hp
  | function ha _ hps hr =>
    cases kind_unique hk ha
    obtain ⟨q, -, hpq⟩ := exists_of_forall₂ (rel_append hps (.cons hr .nil)) hp
    exact ⟨q, hpq⟩

theorem FilledNode.bound (h : g.FilledNode bindings R a c) (hk : g.kind a = .ok (.placeholder name)) :
    ∃ bound, bindings.get? name = some bound := by
  cases h with
  | value h =>
    cases h with
    | base ha hb =>
      cases kind_unique hk ha
      cases hb
    | tuple ha | box ha | list ha => cases kind_unique hk ha
    | placeholder ha hb =>
      cases kind_unique hk ha
      exact ⟨_, hb⟩
  | function ha => cases kind_unique hk ha

/-- Only bound placeholders can be filled in. -/
theorem Filled.bound (h : g.Filled bindings a c) (hname : g.Mentions a name) :
    ∃ bound, bindings.get? name = some bound := by
  obtain ⟨target, hr, hk⟩ := hname
  obtain ⟨y, hy⟩ : ∃ y, g.Filled bindings target y := by
    clear hk
    induction hr with
    | refl => exact ⟨c, h⟩
    | tail _ hpart ih =>
      obtain ⟨y, hy⟩ := ih
      obtain ⟨kx, hkx, hp⟩ := hpart
      exact hy.node.part hkx hp
  exact hy.node.bound hk

/-- A type without placeholders is filled in already. -/
theorem filled_self (hg : g.Sound) (hid : id < g.size) (h : ∀ name, ¬ g.Mentions id name) :
    g.Filled bindings id id := by
  refine ⟨fun x y => x = y ∧ x < g.size ∧ g.Reaches id x, ?_, rfl, hid, .refl⟩
  rintro x _ ⟨rfl, hlt, hx⟩
  obtain ⟨kind, hk⟩ := exists_kind hlt
  have hpart : ∀ p ∈ kind.parts, p = p ∧ p < g.size ∧ g.Reaches id p := fun p hp =>
    ⟨rfl, hg.lt_of_kind hk p hp, hx.tail ⟨kind, hk, hp⟩⟩
  cases kind with
  | void | integer | boolean | string => exact .value (.base hk rfl)
  | tuple items => exact .value (.tuple hk hk (forall₂_same.2 hpart))
  | box payload => exact .value (.box hk hk (hpart _ mem_cons_self))
  | list item payload =>
    exact .value (.list hk hk (hpart _ mem_cons_self) (hpart _ (mem_cons_of_mem _ mem_cons_self)))
  | placeholder name => exact absurd ⟨x, hx, hk⟩ (h name)
  | function params result native =>
    obtain ⟨hparams, hresult⟩ := forall_mem_append.1 hpart
    exact .function hk hk (forall₂_same.2 hparams) (hresult result mem_cons_self)

/-- The parts of a filled node are its filled parts, or the type that a placeholder stands for. -/
theorem FilledNode.image (h : g.FilledNode bindings R a c) :
    ∃ kind, g.kind c = .ok kind ∧ (kind = .void → a = c) ∧ (∀ name, kind ≠ .placeholder name) ∧
      ∀ q ∈ kind.parts, (∃ p, g.Part a p ∧ R p q) ∨
        ∃ name, g.kind a = .ok (.placeholder name) ∧ bindings.get? name = some q := by
  cases h with
  | value h =>
    cases h with
    | @base kind hk hb =>
      refine ⟨kind, hk, fun _ => rfl, ?_, ?_⟩ <;> cases kind <;> cases hb
      all_goals simp [TypeKind.parts]
    | tuple ha hc h =>
      refine ⟨_, hc, by simp, by simp, fun q hq => ?_⟩
      obtain ⟨p, hp, hpq⟩ := exists_of_forall₂ h.flip hq
      exact .inl ⟨p, ⟨_, ha, hp⟩, hpq⟩
    | box ha hc h =>
      refine ⟨_, hc, by simp, by simp, fun q hq => ?_⟩
      cases mem_singleton.1 hq
      exact .inl ⟨_, ⟨_, ha, mem_cons_self⟩, h⟩
    | list ha hc hi hp =>
      refine ⟨_, hc, by simp, by simp, fun q hq => ?_⟩
      rcases mem_pair.1 hq with rfl | rfl
      · exact .inl ⟨_, ⟨_, ha, mem_cons_self⟩, hi⟩
      · exact .inl ⟨_, ⟨_, ha, mem_cons_of_mem _ mem_cons_self⟩, hp⟩
    | placeholder ha hb hc =>
      refine ⟨_, hc, by simp, by simp, fun q hq => ?_⟩
      cases mem_singleton.1 hq
      exact .inr ⟨_, ha, hb⟩
  | function ha hc hps hr =>
    refine ⟨_, hc, by simp, by simp, fun q hq => ?_⟩
    obtain ⟨p, hp, hpq⟩ := exists_of_forall₂ (rel_append hps (.cons hr .nil)).flip hq
    exact .inl ⟨p, ⟨_, ha, hp⟩, hpq⟩

/-- The inner parts of a filled node are its filled inner parts, or the type that a placeholder stands
for. -/
theorem FilledNode.inner (h : g.FilledNode bindings R a c) (hk : g.kind c = .ok kind)
    (hq : q ∈ kind.innerParts) :
    (∃ p, g.Inner a p ∧ R p q) ∨
      ∃ name, g.kind a = .ok (.placeholder name) ∧ bindings.get? name = some q := by
  cases h with
  | value h =>
    cases h with
    | base hc hb =>
      cases kind_unique hk hc
      cases kind <;> cases hb <;> cases hq
    | tuple ha hc h =>
      cases kind_unique hk hc
      obtain ⟨p, hp, hpq⟩ := exists_of_forall₂ h.flip hq
      exact .inl ⟨p, ⟨_, ha, hp⟩, hpq⟩
    | box ha hc h =>
      cases kind_unique hk hc
      cases mem_singleton.1 hq
      exact .inl ⟨_, ⟨_, ha, mem_cons_self⟩, h⟩
    | list ha hc hi =>
      cases kind_unique hk hc
      cases mem_singleton.1 hq
      exact .inl ⟨_, ⟨_, ha, mem_cons_self⟩, hi⟩
    | placeholder ha hb hc =>
      cases kind_unique hk hc
      cases mem_singleton.1 hq
      exact .inr ⟨_, ha, hb⟩
  | function ha hc hps hr =>
    cases kind_unique hk hc
    obtain ⟨p, hp, hpq⟩ := exists_of_forall₂ (rel_append hps (.cons hr .nil)).flip hq
    exact .inl ⟨p, ⟨_, ha, hp⟩, hpq⟩

end TypeGraph

end SlotCode
