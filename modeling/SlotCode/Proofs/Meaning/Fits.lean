import SlotCode.Proofs.Types.Written
import SlotCode.Proofs.Lowering.Storing
import SlotCode.Proofs.Meaning.Values

/-!
# Contents of a type

When a content fits a type: `nothing` fits `void`, a datum fits the three types of data, and a tuple
or a box fits a type of that shape if its parts do.  A content that fits a type has one word for each
leaf of the type (`Fits.length_words`).
-/

namespace SlotCode.TypeGraph

mutual

/-- The content is one of the type.  Which datum it is makes no difference: flat code copies data
without looking at them, and where it looks, at conditions and comparisons, so does a tree. -/
def Fits (g : TypeGraph) : Content → TypeId → Prop
  | .nothing, type => type = .void
  | .datum _, type => type = .integer ∨ type = .boolean ∨ type = .string
  | .tuple items, type => ∃ types, g.kind type = .ok (.tuple types) ∧ FitsEach g items types
  | .box payload, type => ∃ kind inner, g.kind type = .ok kind ∧ kind.payload? = some inner ∧
      FitsIn g payload inner

def FitsEach (g : TypeGraph) : List Content → List TypeId → Prop
  | [], [] => True
  | item :: items, type :: types => Fits g item type ∧ FitsEach g items types
  | _, _ => False

def FitsIn (g : TypeGraph) : Option Content → TypeId → Prop
  | none, _ => True
  | some payload, type => Fits g payload type

end

variable {g : TypeGraph} {content : Content} {type : TypeId}

theorem fitsEach_iff {items : List Content} {types : List TypeId} :
    g.FitsEach items types ↔ List.Forall₂ g.Fits items types := by
  induction items generalizing types with
  | nil => cases types <;> simp [FitsEach]
  | cons item items ih => cases types <;> simp [FitsEach, ih]

/-- A datum fits a type that has neither parts nor a payload. -/
theorem isBase_of_datum (hg : g.Regular)
    (h : type = .integer ∨ type = .boolean ∨ type = .string) :
    ∃ kind, g.kind type = .ok kind ∧ kind.isBase = true ∧ kind.items? = none ∧ type ≠ .void := by
  rcases h with rfl | rfl | rfl
  · exact ⟨_, hg.integer, rfl, rfl, nofun⟩
  · exact ⟨_, hg.boolean, rfl, rfl, nofun⟩
  · exact ⟨_, hg.string, rfl, rfl, nofun⟩

theorem fits_void_iff (hg : g.Regular) : g.Fits content .void ↔ content = .nothing := by
  cases content with
  | nothing => simp [Fits]
  | datum value =>
    refine iff_of_false (fun h => ?_) nofun
    obtain ⟨_, _, _, _, hne⟩ := isBase_of_datum hg h
    exact hne rfl
  | tuple items =>
    refine iff_of_false (fun ⟨types, hk, _⟩ => ?_) nofun
    cases kind_unique hk hg.void
  | box payload =>
    refine iff_of_false (fun ⟨kind, inner, hk, hp, _⟩ => ?_) nofun
    cases kind_unique hk hg.void
    cases hp

/-- What fits a type of data is a datum. -/
theorem Fits.exists_datum {kind : TypeKind} (h : g.Fits content type) (hk : g.kind type = .ok kind)
    (hb : kind.isBase = true) (hne : type ≠ .void) : ∃ value, content = .datum value := by
  cases content with
  | nothing => exact absurd h hne
  | datum value => exact ⟨value, rfl⟩
  | tuple items =>
    obtain ⟨types, hk', -⟩ := h
    cases kind_unique hk hk'
    cases hb
  | box payload =>
    obtain ⟨kind', inner, hk', hp, -⟩ := h
    cases kind_unique hk hk'
    cases kind <;> cases hp <;> cases hb

/-- What fits a type of boxes is a box. -/
theorem Fits.exists_box (hg : g.Regular) {inner : TypeId} {kind : TypeKind}
    (h : g.Fits content type) (hk : g.kind type = .ok kind) (hp : kind.payload? = some inner) :
    ∃ payload, content = .box payload ∧ g.FitsIn payload inner := by
  cases content with
  | nothing =>
    cases (show type = .void from h)
    cases kind_unique hk hg.void
    cases hp
  | datum value =>
    obtain ⟨kind', hk', hb, -⟩ := isBase_of_datum hg h
    cases kind_unique hk hk'
    cases kind <;> cases hp <;> cases hb
  | tuple items =>
    obtain ⟨types, hk', -⟩ := h
    cases kind_unique hk hk'
    cases hp
  | box payload =>
    obtain ⟨kind', inner', hk', hp', hfits⟩ := h
    cases kind_unique hk hk'
    cases hp.symm.trans hp'
    exact ⟨payload, rfl, hfits⟩

mutual

theorem Fits.alike {g : TypeGraph} (hg : g.Regular) {a b : TypeId} (hab : g.Alike false a b)
    (content : Content) (h : g.Fits content a) : g.Fits content b := by
  match content with
  | .nothing =>
    cases (show a = .void from h)
    exact hab.eq_of_base hg.void rfl
  | .datum value =>
    obtain ⟨kind, hk, hb, -⟩ := isBase_of_datum hg h
    rw [hab.eq_of_base hk hb]
    exact h
  | .tuple items =>
    obtain ⟨types, hk, hitems⟩ := h
    obtain ⟨types', hk'⟩ := hab.tuple_iff.1 ⟨types, hk⟩
    exact ⟨types', hk', FitsEach.alike hg (hab.items hk hk') items hitems⟩
  | .box payload =>
    obtain ⟨kind, inner, hk, hp, hpayload⟩ := h
    obtain ⟨kind', inner', hk', hp'⟩ := hab.boxed hk hp
    exact ⟨kind', inner', hk', hp', FitsIn.alike hg (hab.payload hk hk' hp hp') payload hpayload⟩

theorem FitsEach.alike {g : TypeGraph} (hg : g.Regular) {as bs : List TypeId}
    (hab : List.Forall₂ (g.Alike false) as bs) (items : List Content) (h : g.FitsEach items as) :
    g.FitsEach items bs := by
  match items, hab with
  | [], .nil => exact h
  | item :: items, .cons hab habs =>
    exact ⟨Fits.alike hg hab item h.1, FitsEach.alike hg habs items h.2⟩
  | [], .cons _ _ | _ :: _, .nil => exact h.elim

theorem FitsIn.alike {g : TypeGraph} (hg : g.Regular) {a b : TypeId} (hab : g.Alike false a b)
    (payload : Option Content) (h : g.FitsIn payload a) : g.FitsIn payload b := by
  match payload with
  | none => exact h
  | some payload => exact Fits.alike hg hab payload h

end

mutual

theorem Fits.length_words {g : TypeGraph} (hg : g.Regular) {type : TypeId} (content : Content)
    (h : g.Fits content type) : content.words.length = (g.leafTypes type).length := by
  match content with
  | .nothing =>
    cases (show type = .void from h)
    rw [leafTypes_of_not_tuple hg.void rfl]
    rfl
  | .datum value =>
    obtain ⟨kind, hk, -, hitems, -⟩ := isBase_of_datum hg h
    rw [leafTypes_of_not_tuple hk hitems]
    rfl
  | .tuple items =>
    obtain ⟨types, hk, hitems⟩ := h
    rw [leafTypes_tuple hg.toSound hk]
    exact FitsEach.length_words hg items hitems
  | .box payload =>
    obtain ⟨kind, inner, hk, hp, -⟩ := h
    rw [leafTypes_of_not_tuple hk (TypeKind.items?_of_payload hp)]
    rfl

theorem FitsEach.length_words {g : TypeGraph} (hg : g.Regular) {types : List TypeId}
    (items : List Content) (h : g.FitsEach items types) :
    (Content.wordsAll items).length = (types.flatMap g.leafTypes).length := by
  match items, types with
  | [], [] => rfl
  | item :: items, type :: types =>
    rw [Content.wordsAll, List.flatMap_cons, List.length_append, List.length_append,
      Fits.length_words hg item h.1, FitsEach.length_words hg items h.2]
  | [], _ :: _ | _ :: _, [] => exact h.elim

end

end SlotCode.TypeGraph
