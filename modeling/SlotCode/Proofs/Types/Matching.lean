import Mathlib.Data.Finset.Prod
import SlotCode.Proofs.Step
import SlotCode.Proofs.Types.Building
import SlotCode.Types.Match

/-!
# Matching decides being alike
-/

namespace SlotCode

open List

variable {e a p q : TypeId} {s t state after : Matching} {b : Bindings} {name other : String}

/-- The texts of the type that is expected and of the type that is found. -/
def TypeError.texts? : TypeError → Option (String × String)
  | .mismatch expected found _ _ | .tupleArity expected found _ _ => some (expected, found)
  | .unboundPlaceholder _ _ => none

namespace TypeGraph

variable {g : TypeGraph}

/-- The error shows the texts of the two types. -/
def Contrasts (g : TypeGraph) (e a : TypeId) (error : TypeError) : Prop :=
  ∃ expected found, error.texts? = some (expected, found) ∧
    g.text e = .ok expected ∧ g.text a = .ok found

/-! ## One step -/

/-- What one step of matching does to its state, and which types it goes on to compare. -/
inductive MatchStep (g : TypeGraph) (fuel : Nat) (e a : TypeId) (state : Matching) :
    EStateM.Result (Failure TypeError) Matching Unit → Prop where
  | same (h : e = a) : MatchStep g fuel e a state (.ok () state)
  | tuple {es as : List TypeId} (he : g.kind e = .ok (.tuple es)) (ha : g.kind a = .ok (.tuple as))
      (hlen : es.length = as.length) (sp sp' : Span) :
      MatchStep g fuel e a state
        ((es.zip as).forM (fun pair => g.matchWithin fuel pair.1 pair.2 sp sp') state)
  | bind {name : String} {ka : TypeKind} {q : TypeId} {bindings : Bindings}
      (he : g.kind e = .ok (.placeholder name)) (ha : g.kind a = .ok ka)
      (hq : ka.payload? = some q) (hb : state.bindings = some bindings) :
      MatchStep g fuel e a state
        (.ok () { state with bindings := some (bindings.insertNew name q) })
  | entered {ke ka : TypeKind} {p q : TypeId} (he : g.kind e = .ok ke) (ha : g.kind a = .ok ka)
      (hp : ke.payload? = some p) (hq : ka.payload? = some q) (hmem : (e, a) ∈ state.entered) :
      MatchStep g fuel e a state (.ok () state)
  | box {ke ka : TypeKind} {p q : TypeId} (he : g.kind e = .ok ke) (ha : g.kind a = .ok ka)
      (hp : ke.payload? = some p) (hq : ka.payload? = some q) (hmem : (e, a) ∉ state.entered)
      (sp sp' : Span) :
      MatchStep g fuel e a state
        (g.matchWithin fuel p q sp sp' { state with entered := (e, a) :: state.entered })
  | placeholder {name : String} (he : g.kind e = .ok (.placeholder name))
      (ha : g.kind a = .ok (.placeholder name)) : MatchStep g fuel e a state (.ok () state)
  | mismatch {error : TypeError} (herror : g.Contrasts e a error)
      (h : ∀ R : TypeId → TypeId → Prop, ¬ g.Agree state.bindings.isSome R e a) :
      MatchStep g fuel e a state (.error (.error error) state)

/-- Two different types whose kinds have nothing in common do not agree. -/
theorem not_agree {free : Bool} {ke ka : TypeKind} (hea : e ≠ a) (hke : g.kind e = .ok ke)
    (hka : g.kind a = .ok ka)
    (htuple : ∀ es as, ke = .tuple es → ka = .tuple as → es.length ≠ as.length)
    (hbox : ke.payload?.isSome → ka.payload? = none)
    (hname : ∀ name, ke = .placeholder name → ka ≠ .placeholder name)
    (hbound : ∀ name, free = true → ke = .placeholder name → ka.payload? = none)
    (R : TypeId → TypeId → Prop) : ¬ g.Agree free R e a := by
  intro h
  cases h with
  | same => exact hea rfl
  | tuple he ha h =>
    cases kind_unique hke he
    cases kind_unique hka ha
    exact htuple _ _ rfl rfl h.length_eq
  | box he ha hp hq =>
    cases kind_unique hke he
    cases kind_unique hka ha
    rw [hbox (by rw [hp]; rfl)] at hq
    cases hq
  | placeholder he ha =>
    cases kind_unique hke he
    cases kind_unique hka ha
    exact hname _ rfl rfl
  | bound hfree he ha hq =>
    cases kind_unique hke he
    cases kind_unique hka ha
    rw [hbound _ hfree rfl] at hq
    cases hq

theorem mismatch_eq (hg : g.Sound) (he : e < g.size) (ha : a < g.size) (sp sp' : Span)
    (state : Matching) :
    ∃ error, g.mismatch e a sp sp' state = .error (.error error) state ∧ g.Contrasts e a error := by
  obtain ⟨te, hte⟩ := text_ok hg he
  obtain ⟨ta, hta⟩ := text_ok hg ha
  refine ⟨.mismatch te ta sp sp', ?_, te, ta, rfl, hte, hta⟩
  simp [mismatch, hte, hta, query, fail, bind, EStateM.bind]

theorem tupleArity_eq (hg : g.Sound) (he : e < g.size) (ha : a < g.size) (sp sp' : Span)
    (state : Matching) :
    ∃ error, g.tupleArity e a sp sp' state = .error (.error error) state ∧ g.Contrasts e a error := by
  obtain ⟨te, hte⟩ := text_ok hg he
  obtain ⟨ta, hta⟩ := text_ok hg ha
  refine ⟨.tupleArity te ta sp sp', ?_, te, ta, rfl, hte, hta⟩
  simp [tupleArity, hte, hta, query, fail, bind, EStateM.bind]

theorem matchWithin_step (hg : g.Sound) (fuel : Nat) (he : e < g.size) (ha : a < g.size)
    (sp sp' : Span) (state : Matching) :
    MatchStep g fuel e a state (g.matchWithin (fuel + 1) e a sp sp' state) := by
  obtain ⟨ne, hne⟩ := exists_node he
  obtain ⟨na, hna⟩ := exists_node ha
  have hke : g.kind e = .ok ne.kind := kind_eq_ok_iff.2 ⟨ne, hne, rfl⟩
  have hka : g.kind a = .ok na.kind := kind_eq_ok_iff.2 ⟨na, hna, rfl⟩
  by_cases hea : e = a
  · have heq : g.matchWithin (fuel + 1) e a sp sp' state = .ok () state := by
      simp only [matchWithin, if_pos hea]
      rfl
    rw [heq]
    exact .same hea
  -- Kinds that never agree end in one error, wherever the comparison finds them.
  have hmis : ∀ sp sp', (∀ R, ¬ g.Agree state.bindings.isSome R e a) →
      MatchStep g fuel e a state (g.mismatch e a sp sp' state) := by
    intro sp sp' h
    obtain ⟨error, herr, hcontrasts⟩ := mismatch_eq hg he ha sp sp' state
    rw [herr]
    exact .mismatch hcontrasts h
  simp only [matchWithin, if_neg hea, hna, hne, hke, query_ok_bind]
  cases hak : na.kind with
  | tuple as =>
    rw [hak] at hka
    simp only [query_ok_bind]
    cases hek : ne.kind with
    | tuple es =>
      rw [hek] at hke
      by_cases hlen : es.length = as.length
      · simp only [hlen, if_true]
        exact .tuple hke hka hlen _ _
      · simp only [hlen, if_false]
        obtain ⟨error, herr, hcontrasts⟩ :=
          tupleArity_eq hg he ha (ne.origin.getD sp) (na.origin.getD sp') state
        rw [herr]
        refine .mismatch hcontrasts (not_agree hea hke hka ?_ ?_ ?_ ?_) <;>
          simp [TypeKind.payload?, hlen]
    | void | integer | boolean | string | box p | list i p | placeholder n | function ps r nat =>
      rw [hek] at hke
      refine hmis _ _ (not_agree hea hke hka ?_ ?_ ?_ ?_) <;> simp [TypeKind.payload?]
  | box q | list i q =>
    rw [hak] at hka
    simp only [query_ok_bind, get_bind]
    cases hek : ne.kind with
    | placeholder n =>
      rw [hek] at hke
      cases hb : state.bindings with
      | none =>
        rw [hb] at hmis
        refine hmis _ _ (not_agree hea hke hka ?_ ?_ ?_ ?_) <;> simp [TypeKind.payload?]
      | some bindings => exact .bind hke hka rfl hb
    | box p | list j p =>
      rw [hek] at hke
      by_cases hmem : (e, a) ∈ state.entered
      · simp only [if_pos hmem]
        exact .entered hke hka rfl rfl hmem
      · simp only [if_neg hmem, set_bind]
        exact .box hke hka rfl rfl hmem sp sp'
    | void | integer | boolean | string | tuple es | function ps r nat =>
      rw [hek] at hke
      refine hmis _ _ (not_agree hea hke hka ?_ ?_ ?_ ?_) <;> simp [TypeKind.payload?]
  | placeholder n =>
    rw [hak] at hka
    simp only [query_ok_bind]
    by_cases hek : ne.kind = .placeholder n
    · rw [hek] at hke
      simp only [if_pos hek]
      exact .placeholder hke hka
    · simp only [if_neg hek]
      refine hmis _ _ (not_agree hea hke hka ?_ ?_ ?_ ?_)
      · simp
      · simp [TypeKind.payload?]
      · intro name hname heq
        cases heq
        exact hek hname
      · simp [TypeKind.payload?]
  | void | integer | boolean | string | function ps r nat =>
    rw [hak] at hka
    refine hmis _ _ (not_agree hea hke hka ?_ ?_ ?_ ?_) <;> simp [TypeKind.payload?]

/-! ## What matching does to its state -/

/-- A binding that matching may make: a placeholder below the required type, and the payload of a
box below the found type. -/
def Binds (g : TypeGraph) (e a : TypeId) (name : String) (id : TypeId) : Prop :=
  (∃ p, g.Reaches e p ∧ g.kind p = .ok (.placeholder name)) ∧
    ∃ q kind, g.Reaches a q ∧ g.kind q = .ok kind ∧ kind.payload? = some id

/-- How the state of a comparison of two types changes: pairs are entered and bindings are made,
and none is lost. -/
structure Advances (g : TypeGraph) (e a : TypeId) (before after : Matching) : Prop where
  entered : before.entered ⊆ after.entered
  mode : after.bindings.isSome = before.bindings.isSome
  keeps : ∀ b b', before.bindings = some b → after.bindings = some b' →
    ∀ name id, b.get? name = some id → b'.get? name = some id
  binds : ∀ b b', before.bindings = some b → after.bindings = some b' →
    ∀ name id, b'.get? name = some id → b.get? name = some id ∨ g.Binds e a name id

theorem Advances.refl (g : TypeGraph) (e a : TypeId) (state : Matching) :
    g.Advances e a state state := by
  refine ⟨Subset.refl _, rfl, ?_, ?_⟩
  · intro b b' hb hb' name id h
    rw [hb] at hb'
    cases hb'
    exact h
  · intro b b' hb hb' name id h
    rw [hb] at hb'
    cases hb'
    exact .inl h

theorem Advances.trans {u : Matching} (hst : g.Advances e a s t) (htu : g.Advances e a t u) :
    g.Advances e a s u := by
  have hmid : ∀ b, s.bindings = some b → ∃ c, t.bindings = some c := by
    intro b hb
    apply Option.isSome_iff_exists.1
    rw [hst.mode, hb]
    rfl
  refine ⟨Subset.trans hst.entered htu.entered, htu.mode.trans hst.mode, ?_, ?_⟩
  · intro b b' hb hb' name id h
    obtain ⟨c, hc⟩ := hmid b hb
    exact htu.keeps c b' hc hb' name id (hst.keeps b c hb hc name id h)
  · intro b b' hb hb' name id h
    obtain ⟨c, hc⟩ := hmid b hb
    rcases htu.binds c b' hc hb' name id h with h | h
    · exact hst.binds b c hb hc name id h
    · exact .inr h

/-- Comparing parts is part of comparing the whole. -/
theorem Advances.lift (hp : g.Part e p) (hq : g.Part a q) (h : g.Advances p q s t) :
    g.Advances e a s t := by
  refine ⟨h.entered, h.mode, h.keeps, fun b b' hb hb' name id hid => ?_⟩
  rcases h.binds b b' hb hb' name id hid with hold | ⟨⟨x, hx, hkx⟩, y, ky, hy, hky, hpay⟩
  · exact .inl hold
  · exact .inr ⟨⟨x, Relation.ReflTransGen.head hp hx, hkx⟩, y, ky,
      Relation.ReflTransGen.head hq hy, hky, hpay⟩

theorem get?_insert_self (b : Bindings) (name : String) (id : TypeId) :
    (b.insert name id).get? name = some id := by
  simp [Bindings.insert, Bindings.get?]

theorem get?_insert_of_ne (b : Bindings) (id : TypeId) (h : name ≠ other) :
    (b.insert other id).get? name = b.get? name := by
  have hbeq : (name == other) = false := by simpa using h
  simp [Bindings.insert, Bindings.get?, lookup_cons, hbeq]

theorem get?_insertNew_of_some {id new : TypeId} (h : b.get? name = some id) :
    (b.insertNew other new).get? name = some id := by
  unfold Bindings.insertNew
  split
  · exact h
  · next hnone =>
    have hne : name ≠ other := by
      rintro rfl
      rw [h] at hnone
      exact hnone rfl
    rw [get?_insert_of_ne b new hne]
    exact h

theorem get?_insertNew {id new : TypeId} (h : (b.insertNew other new).get? name = some id) :
    b.get? name = some id ∨ name = other ∧ id = new := by
  unfold Bindings.insertNew at h
  split at h
  · exact .inl h
  · by_cases hne : name = other
    · subst hne
      rw [get?_insert_self] at h
      exact .inr ⟨rfl, (Option.some.inj h).symm⟩
    · rw [get?_insert_of_ne b new hne] at h
      exact .inl h

theorem part_of_mem_zip {es as : List TypeId} (he : g.kind e = .ok (.tuple es))
    (ha : g.kind a = .ok (.tuple as)) (h : (p, q) ∈ es.zip as) : g.Part e p ∧ g.Part a q :=
  ⟨⟨_, he, (of_mem_zip h).1⟩, _, ha, (of_mem_zip h).2⟩

theorem matchWithin_advances (hg : g.Sound) (fuel : Nat) (e a : TypeId) (he : e < g.size)
    (ha : a < g.size) (sp sp' : Span) (state : Matching) :
    g.Advances e a state (stateAfter (g.matchWithin fuel e a sp sp' state)) := by
  induction fuel generalizing e a sp sp' state with
  | zero => exact .refl g e a state
  | succ fuel ih =>
    have hstep := matchWithin_step hg fuel he ha sp sp' state
    generalize g.matchWithin (fuel + 1) e a sp sp' state = r at hstep
    cases hstep with
    | same h => exact .refl g e a state
    | tuple hke hka hlen sp sp' =>
      apply forM_keeps (Advances.refl g e a) fun _ _ _ => Advances.trans
      rintro ⟨p, q⟩ hpq s
      obtain ⟨hp, hq⟩ := part_of_mem_zip hke hka hpq
      exact (ih p q (hg.closed _ _ hp) (hg.closed _ _ hq) sp sp' s).lift hp hq
    | bind hke hka hq hb =>
      refine ⟨Subset.refl _, by rw [hb]; rfl, ?_, ?_⟩
      · intro b b' hb₁ hb₂ name id h
        cases hb.symm.trans hb₁
        cases hb₂
        exact get?_insertNew_of_some h
      · intro b b' hb₁ hb₂ name id h
        cases hb.symm.trans hb₁
        cases hb₂
        rcases get?_insertNew h with h | ⟨rfl, rfl⟩
        · exact .inl h
        · exact .inr ⟨⟨e, .refl, hke⟩, a, _, .refl, hka, hq⟩
    | entered hke hka hp hq hmem => exact .refl g e a state
    | box hke hka hp hq hmem sp sp' =>
      have hpart : g.Part e _ := .payload hke hp
      have hpart' : g.Part a _ := .payload hka hq
      have h := (ih _ _ (hg.closed _ _ hpart) (hg.closed _ _ hpart') sp sp'
        { state with entered := (e, a) :: state.entered }).lift hpart hpart'
      exact ⟨Subset.trans (subset_cons_self _ _) h.entered, h.mode, h.keeps, h.binds⟩
    | placeholder hke hka => exact .refl g e a state
    | mismatch herror h => exact .refl g e a state

section

variable {e a : TypeId} {es as : List TypeId} (hg : g.Sound) (he : g.kind e = .ok (.tuple es))
  (ha : g.kind a = .ok (.tuple as)) (fuel : Nat) (sp sp' : Span)

include hg he ha

theorem matchItem_advances (pair : TypeId × TypeId) (h : pair ∈ es.zip as) (state : Matching) :
    g.Advances e a state (stateAfter (g.matchWithin fuel pair.1 pair.2 sp sp' state)) := by
  obtain ⟨hp, hq⟩ := part_of_mem_zip he ha h
  exact (matchWithin_advances hg fuel _ _ (hg.closed _ _ hp) (hg.closed _ _ hq) sp sp' state).lift hp hq

/-- Two tuples that do not match have items that do not match. -/
theorem matchItems_error {failure : Failure TypeError}
    (h : (es.zip as).forM (fun pair => g.matchWithin fuel pair.1 pair.2 sp sp') state =
      .error failure after) :
    ∃ p q s, (p, q) ∈ es.zip as ∧ g.Advances e a state s ∧
      g.matchWithin fuel p q sp sp' s = .error failure after := by
  obtain ⟨⟨p, q⟩, hpq, s, hs, hrun⟩ := forM_error (Advances.refl g e a)
    (fun _ _ _ => Advances.trans) _ (matchItem_advances hg he ha fuel sp sp') h
  exact ⟨p, q, s, hpq, hs, hrun⟩

/-- All items of two tuples that match have been matched. -/
theorem matchItems_ok
    (h : (es.zip as).forM (fun pair => g.matchWithin fuel pair.1 pair.2 sp sp') state =
      .ok () after) (hpq : (p, q) ∈ es.zip as) :
    ∃ s t, g.Advances e a state s ∧ g.matchWithin fuel p q sp sp' s = .ok () t ∧
      g.Advances e a t after :=
  forM_ok (Advances.refl g e a) (fun _ _ _ => Advances.trans) _
    (matchItem_advances hg he ha fuel sp sp') h (p, q) hpq

end

/-! ## Matching ends -/

/-- Number of pairs of nodes that have not been entered. -/
def unentered (g : TypeGraph) (entered : List (TypeId × TypeId)) : Nat :=
  ((Finset.range g.size ×ˢ Finset.range g.size) \ entered.toFinset).card

theorem unentered_mono {s t : List (TypeId × TypeId)} (h : s ⊆ t) :
    g.unentered t ≤ g.unentered s := by
  apply Finset.card_le_card
  apply Finset.sdiff_subset_sdiff (Finset.Subset.refl _)
  intro x hx
  rw [mem_toFinset] at hx ⊢
  exact h hx

theorem unentered_cons {s : List (TypeId × TypeId)} (he : e < g.size) (ha : a < g.size)
    (h : (e, a) ∉ s) : g.unentered ((e, a) :: s) < g.unentered s := by
  apply Finset.card_lt_card
  rw [Finset.ssubset_iff_of_subset]
  · refine ⟨(e, a), ?_, ?_⟩
    · simp [he, ha, h]
    · simp
  · intro x hx
    rw [Finset.mem_sdiff, mem_toFinset] at hx ⊢
    exact ⟨hx.1, fun hmem => hx.2 (mem_cons_of_mem _ hmem)⟩

theorem unentered_nil (g : TypeGraph) : g.unentered [] = g.size * g.size := by
  simp [unentered]

/-- Between two pairs of boxes the rank of the found type falls, and no pair is entered twice. -/
theorem matchWithin_ne_fault (hg : g.Sound) (fuel : Nat) (e a : TypeId) (he : e < g.size)
    (ha : a < g.size) (sp sp' : Span) (state : Matching)
    (hf : g.unentered state.entered * (g.size + 1) + g.rank a < fuel) (fault : Fault)
    (after : Matching) : g.matchWithin fuel e a sp sp' state ≠ .error (.fault fault) after := by
  induction fuel generalizing e a sp sp' state with
  | zero => omega
  | succ fuel ih =>
    intro hrun
    have hstep := matchWithin_step hg fuel he ha sp sp' state
    generalize g.matchWithin (fuel + 1) e a sp sp' state = r at hstep hrun
    cases hstep with
    | same | bind | entered | placeholder | mismatch => cases hrun
    | tuple hke hka hlen sp sp' =>
      obtain ⟨p, q, s, hpq, hs, hrun⟩ := matchItems_error hg hke hka fuel sp sp' hrun
      obtain ⟨hp, hq⟩ := part_of_mem_zip hke hka hpq
      refine ih p q (hg.closed _ _ hp) (hg.closed _ _ hq) sp sp' s ?_ hrun
      have hrank : g.rank q < g.rank a := rank_lt_of_inner hg ⟨_, hka, (of_mem_zip hpq).2⟩
      have hmono := Nat.mul_le_mul_right (g.size + 1) (g.unentered_mono hs.entered)
      omega
    | box hke hka hp hq hmem sp sp' =>
      have hp' := hg.lt_of_payload hke hp
      have hq' := hg.lt_of_payload hka hq
      refine ih _ _ hp' hq' sp sp' { state with entered := (e, a) :: state.entered } ?_ hrun
      have hlt := unentered_cons he ha hmem
      have hrank := rank_lt_size hg hq'
      have hmono := Nat.mul_le_mul_right (g.size + 1) (Nat.succ_le_of_lt hlt)
      rw [Nat.succ_mul] at hmono
      dsimp only
      omega

theorem matchDepth_enough (hg : g.Sound) (ha : a < g.size) :
    g.unentered [] * (g.size + 1) + g.rank a < g.matchDepth := by
  have hrank := rank_lt_size hg ha
  have hpos : 0 < g.size := by omega
  have hsq : g.size ≤ g.size * g.size := Nat.le_mul_of_pos_right g.size hpos
  rw [unentered_nil, matchDepth]
  calc g.size * g.size * (g.size + 1) + g.rank a
      < g.size * g.size * (g.size + 1) + (g.size + 1) := by omega
    _ = (g.size * g.size + 1) * (g.size + 1) := by rw [Nat.succ_mul]
    _ ≤ (g.size * g.size + 1) * (g.size * g.size + 1) := Nat.mul_le_mul_left _ (by omega)

/-! ## Types that are alike are accepted -/

theorem matchWithin_ne_error (hg : g.Sound) (fuel : Nat) (e a : TypeId) (he : e < g.size)
    (ha : a < g.size) (sp sp' : Span) (state : Matching)
    (halike : g.Alike state.bindings.isSome e a) (error : TypeError) (after : Matching) :
    g.matchWithin fuel e a sp sp' state ≠ .error (.error error) after := by
  induction fuel generalizing e a sp sp' state with
  | zero => simp [matchWithin, query]
  | succ fuel ih =>
    intro hrun
    have hstep := matchWithin_step hg fuel he ha sp sp' state
    generalize g.matchWithin (fuel + 1) e a sp sp' state = r at hstep hrun
    cases hstep with
    | same | bind | entered | placeholder => cases hrun
    | mismatch herror h => exact h _ halike.agree
    | tuple hke hka hlen sp sp' =>
      obtain ⟨p, q, s, hpq, hs, hrun⟩ := matchItems_error hg hke hka fuel sp sp' hrun
      obtain ⟨hp, hq⟩ := part_of_mem_zip hke hka hpq
      refine ih p q (hg.closed _ _ hp) (hg.closed _ _ hq) sp sp' s ?_ hrun
      rw [hs.mode]
      exact forall₂_zip (halike.items hke hka) hpq
    | box hke hka hp hq hmem sp sp' =>
      exact ih _ _ (hg.lt_of_payload hke hp) (hg.lt_of_payload hka hq) sp sp'
        { state with entered := (e, a) :: state.entered } (halike.payload hke hka hp hq) hrun

/-! ## Types that are accepted are alike -/

/-- Some comparison that ended with no more than the pairs of `entered` has accepted the types. -/
def Accepted (g : TypeGraph) (free : Bool) (entered : List (TypeId × TypeId)) (e a : TypeId) :
    Prop :=
  e < g.size ∧ a < g.size ∧ ∃ fuel sp sp' state after, state.bindings.isSome = free ∧
    g.matchWithin fuel e a sp sp' state = .ok () after ∧ after.entered ⊆ entered

/-- The payloads of two boxes have been accepted. -/
def Opened (g : TypeGraph) (free : Bool) (entered : List (TypeId × TypeId)) (e a : TypeId) : Prop :=
  ∃ ke ka p q, g.kind e = .ok ke ∧ g.kind a = .ok ka ∧ ke.payload? = some p ∧
    ka.payload? = some q ∧ g.Accepted free entered p q

/-- Each pair that is new in `after` has its payloads accepted by the time all of `entered` are. -/
structure Opens (g : TypeGraph) (entered : List (TypeId × TypeId)) (before after : Matching) :
    Prop where
  grows : before.entered ⊆ after.entered
  mode : after.bindings.isSome = before.bindings.isSome
  opened : after.entered ⊆ entered → ∀ x y, (x, y) ∈ after.entered →
    (x, y) ∈ before.entered ∨ g.Opened before.bindings.isSome entered x y

theorem Opens.refl (g : TypeGraph) (entered : List (TypeId × TypeId)) (s : Matching) :
    g.Opens entered s s :=
  ⟨Subset.refl _, rfl, fun _ _ _ h => .inl h⟩

theorem Opens.trans {entered : List (TypeId × TypeId)} {u : Matching} (hst : g.Opens entered s t)
    (htu : g.Opens entered t u) : g.Opens entered s u := by
  refine ⟨Subset.trans hst.grows htu.grows, htu.mode.trans hst.mode, fun hu x y hxy => ?_⟩
  rcases htu.opened hu x y hxy with h | h
  · exact hst.opened (Subset.trans htu.grows hu) x y h
  · rw [hst.mode] at h
    exact .inr h

theorem matchWithin_opens (hg : g.Sound) (entered : List (TypeId × TypeId)) (fuel : Nat)
    (e a : TypeId) (he : e < g.size) (ha : a < g.size) (sp sp' : Span) (state after : Matching)
    (hrun : g.matchWithin fuel e a sp sp' state = .ok () after) :
    g.Opens entered state after := by
  induction fuel generalizing e a sp sp' state after with
  | zero => cases hrun
  | succ fuel ih =>
    have hstep := matchWithin_step hg fuel he ha sp sp' state
    generalize g.matchWithin (fuel + 1) e a sp sp' state = r at hstep hrun
    cases hstep with
    | same | entered | placeholder =>
      cases hrun
      exact .refl g entered state
    | bind hke hka hq hb =>
      cases hrun
      exact ⟨Subset.refl _, by rw [hb]; rfl, fun _ _ _ h => .inl h⟩
    | mismatch => cases hrun
    | tuple hke hka hlen sp sp' =>
      refine forM_ok_keeps (Opens.refl g entered) (fun _ _ _ => Opens.trans) _ ?_ hrun
      rintro ⟨p, q⟩ hpq s t hst
      obtain ⟨hp, hq⟩ := part_of_mem_zip hke hka hpq
      exact ih p q (hg.closed _ _ hp) (hg.closed _ _ hq) sp sp' s t hst
    | box hke hka hp hq hmem sp sp' =>
      have hp' := hg.lt_of_payload hke hp
      have hq' := hg.lt_of_payload hka hq
      have h := ih _ _ hp' hq' sp sp' _ after hrun
      refine ⟨Subset.trans (subset_cons_self _ _) h.grows, h.mode, fun hsub x y hxy => ?_⟩
      rcases h.opened hsub x y hxy with hold | hnew
      · rcases mem_cons.1 hold with heq | hold
        · cases heq
          exact .inr ⟨_, _, _, _, hke, hka, hp, hq, hp', hq', fuel, sp, sp',
            { state with entered := (e, a) :: state.entered }, after, rfl, hrun, hsub⟩
        · exact .inl hold
      · exact .inr hnew

/-- Where all entered pairs have been opened, accepted types agree up to accepted types. -/
theorem accepted_consistent (hg : g.Sound) {free : Bool} {entered : List (TypeId × TypeId)}
    (hopened : ∀ x y, (x, y) ∈ entered → g.Opened free entered x y) :
    g.Consistent free (g.Accepted free entered) := by
  rintro e a ⟨he, ha, fuel, sp, sp', state, after, hmode, hrun, hsub⟩
  cases fuel with
  | zero => cases hrun
  | succ fuel =>
    have hstep := matchWithin_step hg fuel he ha sp sp' state
    generalize g.matchWithin (fuel + 1) e a sp sp' state = r at hstep hrun
    cases hstep with
    | same h =>
      cases h
      exact .same e
    | bind hke hka hq hb => exact .bound (by rw [← hmode, hb]; rfl) hke hka hq
    | placeholder hke hka => exact .placeholder hke hka
    | mismatch => cases hrun
    | entered hke hka hp hq hmem =>
      cases hrun
      obtain ⟨ke, ka, p, q, hke, hka, hp, hq, hacc⟩ := hopened e a (hsub hmem)
      exact .box hke hka hp hq hacc
    | tuple hke hka hlen sp sp' =>
      refine .tuple hke hka (forall₂_iff_zip.2 ⟨hlen, ?_⟩)
      intro p q hpq
      obtain ⟨hp, hq⟩ := part_of_mem_zip hke hka hpq
      obtain ⟨s, t, hs, hst, ht⟩ := matchItems_ok hg hke hka fuel sp sp' hrun hpq
      exact ⟨hg.closed _ _ hp, hg.closed _ _ hq, fuel, sp, sp', s, t, hs.mode.trans hmode, hst,
        Subset.trans ht.entered hsub⟩
    | box hke hka hp hq hmem sp sp' =>
      exact .box hke hka hp hq ⟨hg.lt_of_payload hke hp, hg.lt_of_payload hka hq, fuel, sp, sp',
        { state with entered := (e, a) :: state.entered }, after, hmode, hrun, hsub⟩

theorem alike_of_accepted (hg : g.Sound) {fuel : Nat} (he : e < g.size) (ha : a < g.size)
    {sp sp' : Span} (hstart : state.entered = [])
    (hrun : g.matchWithin fuel e a sp sp' state = .ok () after) :
    g.Alike state.bindings.isSome e a := by
  have hopens := matchWithin_opens hg after.entered fuel e a he ha sp sp' state after hrun
  have hopened : ∀ x y, (x, y) ∈ after.entered → g.Opened state.bindings.isSome after.entered x y := by
    intro x y hxy
    rcases hopens.opened (Subset.refl _) x y hxy with h | h
    · rw [hstart] at h
      cases h
    · exact h
  exact ⟨_, accepted_consistent hg hopened, he, ha, fuel, sp, sp', state, after, rfl, hrun,
    Subset.refl _⟩

/-! ## Matching as a whole -/

/-- Matching two types succeeds. -/
def Accepts (g : TypeGraph) (e a : TypeId) (sp sp' : Span) (bindings : Option Bindings) : Prop :=
  ∃ after, g.matchTypes (some e) a sp sp' bindings = .ok () after

/-- Matching two types ends in a type error. -/
def Refuses (g : TypeGraph) (e a : TypeId) (sp sp' : Span) (bindings : Option Bindings) : Prop :=
  ∃ error after, g.matchTypes (some e) a sp sp' bindings = .error (.error error) after

theorem stateAfter_matchTypes (e a : TypeId) (sp sp' : Span) (bindings : Option Bindings) :
    stateAfter (g.matchTypes (some e) a sp sp' bindings) =
      (stateAfter (g.matchWithin g.matchDepth e a sp sp' ⟨[], bindings⟩)).bindings := by
  simp only [matchTypes]
  cases g.matchWithin g.matchDepth e a sp sp' ⟨[], bindings⟩ <;> rfl

theorem matchTypes_cases (hg : g.Sound) (he : e < g.size) (ha : a < g.size) (sp sp' : Span)
    (bindings : Option Bindings) :
    g.Accepts e a sp sp' bindings ∧ g.Alike bindings.isSome e a ∨
      g.Refuses e a sp sp' bindings ∧ ¬ g.Alike bindings.isSome e a := by
  simp only [Accepts, Refuses, matchTypes]
  cases hrun : g.matchWithin g.matchDepth e a sp sp' ⟨[], bindings⟩ with
  | ok _ after => exact .inl ⟨⟨_, rfl⟩, alike_of_accepted hg he ha rfl hrun⟩
  | error failure after =>
    cases failure with
    | fault fault =>
      exact absurd hrun (matchWithin_ne_fault hg g.matchDepth e a he ha sp sp' ⟨[], bindings⟩
        (matchDepth_enough hg ha) fault after)
    | error error =>
      refine .inr ⟨⟨_, _, rfl⟩, fun halike => ?_⟩
      exact matchWithin_ne_error hg g.matchDepth e a he ha sp sp' ⟨[], bindings⟩ halike error after hrun

/-- What is bound after two types have been matched was bound before, or by matching them. -/
theorem binds_of_matchTypes (hg : g.Sound) (he : e < g.size) (ha : a < g.size) {sp sp' : Span}
    {after : Option Bindings} (hmatch : g.matchTypes (some e) a sp sp' (some b) = .ok () after)
    {bound : TypeId} (hbound : (after.getD b).get? name = some bound) :
    b.get? name = some bound ∨ g.Binds e a name bound := by
  have hafter := stateAfter_matchTypes (g := g) e a sp sp' (some b)
  rw [hmatch] at hafter
  cases hbs : after with
  | none =>
    rw [hbs] at hbound
    exact .inl hbound
  | some b' =>
    rw [hbs] at hbound
    have hadvances := matchWithin_advances hg g.matchDepth e a he ha sp sp' ⟨[], some b⟩
    exact hadvances.binds b b' rfl (hafter.symm.trans hbs) name bound hbound

theorem accepts_iff_alike (hg : g.Sound) (he : e < g.size) (ha : a < g.size) (sp sp' : Span)
    (bindings : Option Bindings) : g.Accepts e a sp sp' bindings ↔ g.Alike bindings.isSome e a := by
  rcases matchTypes_cases hg he ha sp sp' bindings with ⟨hacc, halike⟩ | ⟨⟨_, _, hrun⟩, halike⟩
  · exact ⟨fun _ => halike, fun _ => hacc⟩
  · refine ⟨fun ⟨_, hacc⟩ => ?_, fun h => absurd h halike⟩
    rw [hrun] at hacc
    cases hacc

/-- Matching ends, and it accepts exactly the types that are alike, whatever the bindings hold.
Bindings are only added, each for a placeholder below the required type and with the payload of a
box below the found type.  Without bindings, matching is an equivalence. -/
theorem matchTypes_decides_alike (g : TypeGraph) (hg : g.Sound) :
    (∀ e a, e < g.size → a < g.size → ∀ sp sp' before,
      (g.Accepts e a sp sp' before ∨ g.Refuses e a sp sp' before) ∧
      (g.Accepts e a sp sp' before ↔ g.Alike before.isSome e a) ∧
      (∀ other : Option Bindings, other.isSome = before.isSome →
        (g.Accepts e a sp sp' other ↔ g.Accepts e a sp sp' before)) ∧
      let after := stateAfter (g.matchTypes (some e) a sp sp' before)
      after.isSome = before.isSome ∧
      ∀ b b', before = some b → after = some b' → ∀ name id,
        (b.get? name = some id → b'.get? name = some id) ∧
        (b'.get? name = some id → b.get? name = some id ∨ g.Binds e a name id)) ∧
    ∀ sp sp',
      (∀ a, a < g.size → g.Accepts a a sp sp' none) ∧
      (∀ a b, a < g.size → b < g.size → g.Accepts a b sp sp' none → g.Accepts b a sp sp' none) ∧
      (∀ a b c, a < g.size → b < g.size → c < g.size →
        g.Accepts a b sp sp' none → g.Accepts b c sp sp' none → g.Accepts a c sp sp' none) := by
  constructor
  · intro e a he ha sp sp' before
    have hadv := matchWithin_advances hg g.matchDepth e a he ha sp sp' ⟨[], before⟩
    refine ⟨?_, accepts_iff_alike hg he ha sp sp' before, ?_, ?_, ?_⟩
    · exact (matchTypes_cases hg he ha sp sp' before).imp And.left And.left
    · intro other hmode
      rw [accepts_iff_alike hg he ha, accepts_iff_alike hg he ha, hmode]
    · rw [stateAfter_matchTypes]
      exact hadv.mode
    · rw [stateAfter_matchTypes]
      intro b b' hb hb' name id
      exact ⟨hadv.keeps b b' hb hb' name id, hadv.binds b b' hb hb' name id⟩
  · intro sp sp'
    refine ⟨fun a ha => ?_, fun a b ha hb h => ?_, fun a b c ha hb hc hab hbc => ?_⟩
    · exact (accepts_iff_alike hg ha ha sp sp' none).2 (.refl g _ a)
    · rw [accepts_iff_alike hg ha hb] at h
      exact (accepts_iff_alike hg hb ha sp sp' none).2 h.symm
    · rw [accepts_iff_alike hg ha hb] at hab
      rw [accepts_iff_alike hg hb hc] at hbc
      exact (accepts_iff_alike hg ha hc sp sp' none).2 (hab.trans hbc)

/-- Two lists of integers, each with a pair of its own. -/
def twoLists : TypeGraph :=
  ((initial.addList .integer none).2.addList .integer none).2

theorem sound_twoLists : twoLists.Sound := by
  have hinteger : initial.IsValue .integer := ⟨_, rfl, rfl⟩
  have hone := regular_initial.addList none hinteger
  exact (hone.addList none (hinteger.extend (extends_addList _ _ _))).toSound

theorem matchTypes_twoLists :
    twoLists.Sound ∧ 4 < twoLists.size ∧ 6 < twoLists.size ∧
      twoLists.Accepts 4 6 ⟨0, 0⟩ ⟨0, 0⟩ none ∧ twoLists.Alike false 4 6 := by
  have hboth := (matchTypes_decides_alike twoLists sound_twoLists).1 4 6 (by decide) (by decide)
    ⟨0, 0⟩ ⟨0, 0⟩ none
  have haccepts : twoLists.Accepts 4 6 ⟨0, 0⟩ ⟨0, 0⟩ none := ⟨none, rfl⟩
  exact ⟨sound_twoLists, by decide, by decide, haccepts, hboth.2.1.1 haccepts⟩

end TypeGraph

end SlotCode
