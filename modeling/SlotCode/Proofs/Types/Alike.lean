import Mathlib.Data.List.Forall2
import SlotCode.Proofs.Types.Graph

/-!
# Types of one structure

Two types are *alike* if their trees, which may be infinite, agree.  That is the greatest relation
of which one level of agreement can be read off at every pair (`Agree`).  With `free` set, a
placeholder on the required side also agrees with every box.

Without it, being alike is an equivalence (`Alike.refl`, `Alike.symm`, `Alike.trans`).  Types that
differ only in where their tuples stand are alike (`Retupled.alike`).
-/

namespace SlotCode.TypeGraph

variable {g : TypeGraph} {free : Bool} {e a b : TypeId}

/-- One level of agreement of a required and a found type, whose parts are related by `R`. -/
inductive Agree (g : TypeGraph) (free : Bool) (R : TypeId → TypeId → Prop) :
    TypeId → TypeId → Prop where
  | same (id : TypeId) : Agree g free R id id
  | tuple {e a : TypeId} {es as : List TypeId} (he : g.kind e = .ok (.tuple es))
      (ha : g.kind a = .ok (.tuple as)) (h : List.Forall₂ R es as) : Agree g free R e a
  | box {e a p q : TypeId} {ke ka : TypeKind} (he : g.kind e = .ok ke) (ha : g.kind a = .ok ka)
      (hp : ke.payload? = some p) (hq : ka.payload? = some q) (h : R p q) : Agree g free R e a
  | placeholder {e a : TypeId} {name : String} (he : g.kind e = .ok (.placeholder name))
      (ha : g.kind a = .ok (.placeholder name)) : Agree g free R e a
  | bound {e a q : TypeId} {name : String} {ka : TypeKind} (hfree : free = true)
      (he : g.kind e = .ok (.placeholder name)) (ha : g.kind a = .ok ka)
      (hq : ka.payload? = some q) : Agree g free R e a

/-- A relation that relates only types of which one level agrees. -/
def Consistent (g : TypeGraph) (free : Bool) (R : TypeId → TypeId → Prop) : Prop :=
  ∀ e a, R e a → g.Agree free R e a

/-- The greatest consistent relation. -/
def Alike (g : TypeGraph) (free : Bool) (e a : TypeId) : Prop :=
  ∃ R, g.Consistent free R ∧ R e a

theorem Agree.mono {R S : TypeId → TypeId → Prop} (hRS : ∀ e a, R e a → S e a)
    (h : g.Agree free R e a) : g.Agree free S e a := by
  cases h with
  | same => exact .same e
  | tuple he ha h => exact .tuple he ha (h.imp hRS)
  | box he ha hp hq h => exact .box he ha hp hq (hRS _ _ h)
  | placeholder he ha => exact .placeholder he ha
  | bound hfree he ha hq => exact .bound hfree he ha hq

theorem Alike.agree (h : g.Alike free e a) : g.Agree free (g.Alike free) e a := by
  obtain ⟨R, hR, hea⟩ := h
  exact (hR e a hea).mono fun x y hxy => ⟨R, hR, hxy⟩

theorem Alike.of_agree (h : g.Agree free (g.Alike free) e a) : g.Alike free e a :=
  ⟨g.Agree free (g.Alike free), fun _ _ hxy => hxy.mono fun _ _ => Alike.agree, h⟩

theorem Alike.refl (g : TypeGraph) (free : Bool) (id : TypeId) : g.Alike free id id :=
  .of_agree (.same id)

theorem Alike.symm (h : g.Alike false e a) : g.Alike false a e := by
  refine ⟨fun x y => g.Alike false y x, fun x y hxy => ?_, h⟩
  cases hxy.agree with
  | same => exact .same x
  | tuple he ha h => exact .tuple ha he h.flip
  | box he ha hp hq h => exact .box ha he hq hp h
  | placeholder he ha => exact .placeholder ha he
  | bound hfree => cases hfree

theorem forall₂_trans {α β γ : Type} {R : α → β → Prop} {S : β → γ → Prop} {T : α → γ → Prop}
    (h : ∀ a b c, R a b → S b c → T a c) {as : List α} {bs : List β} {cs : List γ}
    (hab : List.Forall₂ R as bs) (hbc : List.Forall₂ S bs cs) : List.Forall₂ T as cs := by
  induction hab generalizing cs with
  | nil =>
    cases hbc
    exact .nil
  | cons hr _ ih =>
    cases hbc with
    | cons hs hrest => exact .cons (h _ _ _ hr hs) (ih hrest)

theorem kind_unique {id : TypeId} {k k' : TypeKind} (h : g.kind id = .ok k)
    (h' : g.kind id = .ok k') : k = k' := by
  rw [h] at h'
  exact Except.ok.inj h'

theorem Alike.trans {c : TypeId} (hab : g.Alike false a b) (hbc : g.Alike false b c) :
    g.Alike false a c := by
  refine ⟨fun x z => ∃ y, g.Alike false x y ∧ g.Alike false y z, ?_, b, hab, hbc⟩
  rintro x z ⟨y, hxy, hyz⟩
  have hyz' := hyz.agree
  cases hxy.agree with
  | same => exact hyz'.mono fun p q hpq => ⟨p, .refl g false p, hpq⟩
  | tuple he ha h =>
    cases hyz' with
    | same => exact .tuple he ha (h.imp fun p q hpq => ⟨q, hpq, .refl g false q⟩)
    | tuple he' ha' h' =>
      cases kind_unique ha he'
      exact .tuple he ha' (forall₂_trans (fun p q r hpq hqr => ⟨q, hpq, hqr⟩) h h')
    | box he' ha' hp' hq' h' =>
      cases kind_unique ha he'
      cases hp'
    | placeholder he' ha' => cases kind_unique ha he'
    | bound hfree => cases hfree
  | box he ha hp hq h =>
    cases hyz' with
    | same => exact .box he ha hp hq ⟨_, h, .refl g false _⟩
    | tuple he' ha' h' =>
      cases kind_unique ha he'
      cases hq
    | box he' ha' hp' hq' h' =>
      cases kind_unique ha he'
      cases hq.symm.trans hp'
      exact .box he ha' hp hq' ⟨_, h, h'⟩
    | placeholder he' ha' =>
      cases kind_unique ha he'
      cases hq
    | bound hfree => cases hfree
  | placeholder he ha =>
    cases hyz' with
    | same => exact .placeholder he ha
    | tuple he' ha' h' => cases kind_unique ha he'
    | box he' ha' hp' hq' h' =>
      cases kind_unique ha he'
      cases hp'
    | placeholder he' ha' =>
      cases kind_unique ha he'
      exact .placeholder he ha'
    | bound hfree => cases hfree
  | bound hfree => cases hfree

theorem Alike.items {es as : List TypeId} (h : g.Alike free e a) (he : g.kind e = .ok (.tuple es))
    (ha : g.kind a = .ok (.tuple as)) : List.Forall₂ (g.Alike free) es as := by
  cases h.agree with
  | same =>
    cases kind_unique he ha
    exact List.forall₂_same.2 fun id _ => .refl g free id
  | tuple he' ha' h' =>
    cases kind_unique he he'
    cases kind_unique ha ha'
    exact h'
  | box he' ha' hp' hq' =>
    cases kind_unique he he'
    cases hp'
  | placeholder he' => cases kind_unique he he'
  | bound hfree he' => cases kind_unique he he'

theorem Alike.payload {p q : TypeId} {ke ka : TypeKind} (h : g.Alike free e a)
    (he : g.kind e = .ok ke) (ha : g.kind a = .ok ka) (hp : ke.payload? = some p)
    (hq : ka.payload? = some q) : g.Alike free p q := by
  cases h.agree with
  | same =>
    cases kind_unique he ha
    cases hp.symm.trans hq
    exact .refl g free p
  | tuple he' =>
    cases kind_unique he he'
    cases hp
  | box he' ha' hp' hq' h' =>
    cases kind_unique he he'
    cases kind_unique ha ha'
    cases hp.symm.trans hp'
    cases hq.symm.trans hq'
    exact h'
  | placeholder he' | bound _ he' =>
    cases kind_unique he he'
    cases hp

/-- What is like a box is a box. -/
theorem Alike.boxed {p : TypeId} {ke : TypeKind} (h : g.Alike false e a) (he : g.kind e = .ok ke)
    (hp : ke.payload? = some p) : ∃ ka q, g.kind a = .ok ka ∧ ka.payload? = some q := by
  cases h.agree with
  | same => exact ⟨ke, p, he, hp⟩
  | tuple he' =>
    cases kind_unique he he'
    cases hp
  | box _ ha _ hq => exact ⟨_, _, ha, hq⟩
  | placeholder he' =>
    cases kind_unique he he'
    cases hp
  | bound hfree => cases hfree

/-! ## Tuples that were copied -/

/-- The types are the same, or they are tuples whose items are related by `R`. -/
def SameItems (g : TypeGraph) (R : TypeId → TypeId → Prop) (a b : TypeId) : Prop :=
  a = b ∨ ∃ as bs, g.kind a = .ok (.tuple as) ∧ g.kind b = .ok (.tuple bs) ∧ List.Forall₂ R as bs

/-- The types differ at most in tuples that stand at other places of the graph. -/
def Retupled (g : TypeGraph) (a b : TypeId) : Prop :=
  ∃ R, (∀ x y, R x y → g.SameItems R x y) ∧ R a b

theorem Retupled.refl (g : TypeGraph) (id : TypeId) : g.Retupled id id :=
  ⟨Eq, fun _ _ h => .inl h, rfl⟩

theorem Retupled.sameItems (h : g.Retupled a b) : g.SameItems g.Retupled a b := by
  obtain ⟨R, hR, hab⟩ := h
  refine (hR a b hab).imp_right ?_
  rintro ⟨as, bs, ha, hb, hitems⟩
  exact ⟨as, bs, ha, hb, hitems.imp fun x y hxy => ⟨R, hR, hxy⟩⟩

theorem Retupled.alike (h : g.Retupled a b) : g.Alike false a b := by
  refine ⟨g.Retupled, fun x y hxy => ?_, h⟩
  rcases hxy.sameItems with rfl | ⟨xs, ys, hx, hy, hitems⟩
  · exact .same x
  · exact .tuple hx hy hitems

end SlotCode.TypeGraph
