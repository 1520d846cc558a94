import SlotCode.Proofs.Types.Matching

/-!
# What matching binds

Two types that are laid side by side face each other at the places where both have a node: at the items
of two tuples and at the payloads of two boxes (`Faces`).  A match that succeeds has looked at every such
place.  It binds a placeholder exactly if that faces a box somewhere, and to the payload of a box that it
faces (`matchTypes_infers`).  A placeholder that faces itself only stays without a binding.

The comparison skips pairs of boxes that were entered before.  Nothing is missed, because their payloads
are compared elsewhere in the same run (`Learns.opened`).
-/

namespace SlotCode.TypeGraph

variable {g g' : TypeGraph} {e a p q : TypeId} {m : Matching} {name : String} {id : TypeId}
  {s t : TypeId × TypeId}

/-! ## Places that face each other -/

/-- The second pair is compared right after the first one. -/
inductive Beside (g : TypeGraph) : TypeId × TypeId → TypeId × TypeId → Prop where
  | item {e a p q : TypeId} {es as : List TypeId} (he : g.kind e = .ok (.tuple es))
      (ha : g.kind a = .ok (.tuple as)) (h : (p, q) ∈ es.zip as) : Beside g (e, a) (p, q)
  | payload {e a p q : TypeId} {ke ka : TypeKind} (he : g.kind e = .ok ke) (ha : g.kind a = .ok ka)
      (hp : ke.payload? = some p) (hq : ka.payload? = some q) : Beside g (e, a) (p, q)

/-- `x` below `e` and `y` below `a` are at the same place. -/
def Faces (g : TypeGraph) (e a x y : TypeId) : Prop :=
  Relation.ReflTransGen g.Beside (e, a) (x, y)

/-- A placeholder of that name below `e` faces a box below `a` whose payload is `id`. -/
def Infers (g : TypeGraph) (e a : TypeId) (name : String) (id : TypeId) : Prop :=
  ∃ x y kind, g.Faces e a x y ∧ g.kind x = .ok (.placeholder name) ∧ g.kind y = .ok kind ∧
    kind.payload? = some id

theorem Infers.of_beside (h : g.Beside (e, a) (p, q)) (hi : g.Infers p q name id) :
    g.Infers e a name id := by
  obtain ⟨x, y, kind, hfaces, hx, hy, hpay⟩ := hi
  exact ⟨x, y, kind, .head h hfaces, hx, hy, hpay⟩

theorem Beside.part (h : g.Beside s t) : g.Part s.1 t.1 ∧ g.Part s.2 t.2 := by
  cases h with
  | item he ha h => exact part_of_mem_zip he ha h
  | payload he ha hp hq =>
    exact ⟨.payload he hp, .payload ha hq⟩

theorem Faces.reaches {x y : TypeId} (h : g.Faces e a x y) : g.Reaches e x ∧ g.Reaches a y :=
  ⟨Relation.ReflTransGen.lift Prod.fst (fun _ _ hst => (Beside.part hst).1) _ _ h,
    Relation.ReflTransGen.lift Prod.snd (fun _ _ hst => (Beside.part hst).2) _ _ h⟩

/-- Nodes that were there face each other as they did. -/
theorem Faces.extend {x y : TypeId} (hext : g.Extends g') (h : g.Faces e a x y) : g'.Faces e a x y := by
  refine Relation.ReflTransGen.mono (fun s t hst => ?_) _ _ h
  cases hst with
  | item he ha h => exact .item (hext _ _ he) (hext _ _ ha) h
  | payload he ha hp hq => exact .payload (hext _ _ he) (hext _ _ ha) hp hq

theorem Beside.of_extend (hext : g.Extends g') (hs : s.1 < g.size ∧ s.2 < g.size)
    (h : g'.Beside s t) : g.Beside s t := by
  cases h with
  | item he ha h => exact .item (hext.kind_of_lt hs.1 he) (hext.kind_of_lt hs.2 ha) h
  | payload he ha hp hq => exact .payload (hext.kind_of_lt hs.1 he) (hext.kind_of_lt hs.2 ha) hp hq

theorem Faces.of_extend (hg : g.Sound) (hext : g.Extends g') (hs : s.1 < g.size ∧ s.2 < g.size)
    (h : Relation.ReflTransGen g'.Beside s t) :
    Relation.ReflTransGen g.Beside s t ∧ t.1 < g.size ∧ t.2 < g.size := by
  induction h with
  | refl => exact ⟨.refl, hs⟩
  | tail _ hbeside ih =>
    have hbeside := hbeside.of_extend hext ih.2
    obtain ⟨hp, hq⟩ := hbeside.part
    exact ⟨ih.1.tail hbeside, hg.closed _ _ hp, hg.closed _ _ hq⟩

theorem infers_extend_iff (hg : g.Sound) (hext : g.Extends g') (he : e < g.size) (ha : a < g.size) :
    g'.Infers e a name id ↔ g.Infers e a name id := by
  constructor
  · rintro ⟨x, y, kind, hfaces, hx, hy, hpay⟩
    obtain ⟨hfaces, hxlt, hylt⟩ := Faces.of_extend hg hext ⟨he, ha⟩ hfaces
    exact ⟨x, y, kind, hfaces, hext.kind_of_lt hxlt hx, hext.kind_of_lt hylt hy, hpay⟩
  · rintro ⟨x, y, kind, hfaces, hx, hy, hpay⟩
    exact ⟨x, y, kind, hfaces.extend hext, hext x _ hx, hext y _ hy, hpay⟩

/-! ## What a state has settled -/

/-- The types need no further comparison in the state of a match. -/
inductive Noted (g : TypeGraph) (m : Matching) : TypeId → TypeId → Prop where
  | same (id : TypeId) : Noted g m id id
  | tuple {e a : TypeId} {es as : List TypeId} (he : g.kind e = .ok (.tuple es))
      (ha : g.kind a = .ok (.tuple as)) (h : ∀ p q, (p, q) ∈ es.zip as → Noted g m p q) : Noted g m e a
  | entered {e a p : TypeId} {ke : TypeKind} (he : g.kind e = .ok ke) (hp : ke.payload? = some p)
      (h : (e, a) ∈ m.entered) : Noted g m e a
  | placeholder {e a : TypeId} {name : String} (he : g.kind e = .ok (.placeholder name))
      (ha : g.kind a = .ok (.placeholder name)) : Noted g m e a
  | bound {e a id : TypeId} {name : String} {b : Bindings} (he : g.kind e = .ok (.placeholder name))
      (hb : m.bindings = some b) (h : b.get? name = some id) : Noted g m e a

theorem Noted.mono {m' : Matching} {d c : TypeId} (hm : g.Advances d c m m') (h : g.Noted m e a) :
    g.Noted m' e a := by
  induction h with
  | same id => exact .same id
  | tuple he ha _ ih => exact .tuple he ha ih
  | entered he hp h => exact .entered he hp (hm.entered h)
  | placeholder he ha => exact .placeholder he ha
  | bound he hb h =>
    obtain ⟨b', hb'⟩ : ∃ b', m'.bindings = some b' := by
      apply Option.isSome_iff_exists.1
      rw [hm.mode, hb]
      rfl
    exact .bound he hb' (hm.keeps _ b' hb hb' _ _ h)

/-- The payloads of the two boxes need no further comparison. -/
def OpenedIn (g : TypeGraph) (m : Matching) (x y : TypeId) : Prop :=
  ∀ p q, g.Beside (x, y) (p, q) → g.Noted m p q

/-- What a comparison of two types adds to the state. -/
structure Learns (g : TypeGraph) (e a : TypeId) (s t : Matching) : Prop where
  advances : g.Advances e a s t
  infers : ∀ b b', s.bindings = some b → t.bindings = some b' → ∀ name id, b'.get? name = some id →
    b.get? name = some id ∨ g.Infers e a name id
  opened : ∀ x y, (x, y) ∈ t.entered → (x, y) ∈ s.entered ∨ g.OpenedIn t x y

namespace Learns

variable {s t u : Matching}

theorem refl (g : TypeGraph) (e a : TypeId) (s : Matching) : g.Learns e a s s := by
  refine ⟨.refl g e a s, fun b b' hb hb' name id h => .inl ?_, fun _ _ h => .inl h⟩
  cases hb.symm.trans hb'
  exact h

theorem trans (h : g.Learns e a s t) (h' : g.Learns e a t u) : g.Learns e a s u := by
  refine ⟨h.advances.trans h'.advances, fun b b' hb hb' name id hid => ?_, fun x y hxy => ?_⟩
  · obtain ⟨c, hc⟩ : ∃ c, t.bindings = some c := by
      apply Option.isSome_iff_exists.1
      rw [h.advances.mode, hb]
      rfl
    rcases h'.infers c b' hc hb' name id hid with hid | hid
    · exact h.infers b c hb hc name id hid
    · exact .inr hid
  · rcases h'.opened x y hxy with hxy | hxy
    · exact (h.opened x y hxy).imp_right fun hopen p q hpq => (hopen p q hpq).mono h'.advances
    · exact .inr hxy

/-- Comparing what is beside two types is part of comparing them. -/
theorem lift (hbeside : g.Beside (e, a) (p, q)) (h : g.Learns p q s t) (hadv : g.Advances e a s t) :
    g.Learns e a s t :=
  ⟨hadv, fun b b' hb hb' name id hid => (h.infers b b' hb hb' name id hid).imp_right (.of_beside hbeside),
    h.opened⟩

end Learns

theorem matchWithin_learns (hg : g.Sound) (fuel : Nat) (e a : TypeId) (he : e < g.size) (ha : a < g.size)
    (sp sp' : Span) (state after : Matching)
    (hrun : g.matchWithin fuel e a sp sp' state = .ok () after) :
    g.Learns e a state after ∧ g.Noted after e a := by
  have hadv := matchWithin_advances hg fuel e a he ha sp sp' state
  rw [hrun] at hadv
  induction fuel generalizing e a sp sp' state after with
  | zero => cases hrun
  | succ fuel ih =>
    have hstep := matchWithin_step hg fuel he ha sp sp' state
    generalize g.matchWithin (fuel + 1) e a sp sp' state = r at hstep hrun
    cases hstep with
    | same h =>
      cases hrun
      cases h
      exact ⟨.refl g e e state, .same e⟩
    | placeholder hke hka =>
      cases hrun
      exact ⟨.refl g e a state, .placeholder hke hka⟩
    | entered hke hka hp hq hmem =>
      cases hrun
      exact ⟨.refl g e a state, .entered hke hp hmem⟩
    | mismatch => cases hrun
    | @bind name ka q bindings hke hka hq hb =>
      cases hrun
      obtain ⟨id, hid⟩ : ∃ id, (bindings.insertNew name q).get? name = some id := by
        cases hold : bindings.get? name with
        | some id => exact ⟨id, get?_insertNew_of_some hold⟩
        | none => exact ⟨q, by rw [Bindings.insertNew, hold]; exact get?_insert_self bindings name q⟩
      refine ⟨⟨hadv, fun b b' hb₁ hb₂ n i h => ?_, fun _ _ h => .inl h⟩, .bound hke rfl hid⟩
      cases hb.symm.trans hb₁
      cases hb₂
      rcases get?_insertNew h with h | ⟨rfl, rfl⟩
      · exact .inl h
      · exact .inr ⟨e, a, ka, .refl, hke, hka, hq⟩
    | @tuple es as hke hka hlen sp sp' =>
      have hitem : ∀ p q, (p, q) ∈ es.zip as → ∀ s t, g.matchWithin fuel p q sp sp' s = .ok () t →
          g.Learns e a s t ∧ g.Noted t p q := by
        intro p q hpq s t hst
        obtain ⟨hp, hq⟩ := part_of_mem_zip hke hka hpq
        have hp' := hg.closed _ _ hp
        have hq' := hg.closed _ _ hq
        have hadv := matchWithin_advances hg fuel p q hp' hq' sp sp' s
        rw [hst] at hadv
        obtain ⟨hlearns, hnoted⟩ := ih p q hp' hq' sp sp' s t hst hadv
        exact ⟨hlearns.lift (.item hke hka hpq) (hadv.lift hp hq), hnoted⟩
      refine ⟨forM_ok_keeps (Learns.refl g e a) (fun _ _ _ => Learns.trans) _
        (fun pair hpair s t hst => (hitem pair.1 pair.2 hpair s t hst).1) hrun, .tuple hke hka ?_⟩
      intro p q hpq
      obtain ⟨s, t, -, hst, ht⟩ := matchItems_ok hg hke hka fuel sp sp' hrun hpq
      exact (hitem p q hpq s t hst).2.mono ht
    | @box ke ka p q hke hka hp hq hmem sp sp' =>
      have hp' := hg.lt_of_payload hke hp
      have hq' := hg.lt_of_payload hka hq
      have hbelow := matchWithin_advances hg fuel p q hp' hq' sp sp'
        { state with entered := (e, a) :: state.entered }
      rw [hrun] at hbelow
      obtain ⟨hlearns, hnoted⟩ := ih p q hp' hq' sp sp' _ after hrun hbelow
      refine ⟨⟨hadv, ?_, fun x y hxy => ?_⟩, .entered hke hp (hbelow.entered List.mem_cons_self)⟩
      · intro b b' hb hb' name id hid
        exact (hlearns.infers b b' hb hb' name id hid).imp_right (.of_beside (.payload hke hka hp hq))
      · rcases hlearns.opened x y hxy with hold | hnew
        · rcases List.mem_cons.1 hold with heq | hold
          -- The pair that was entered here: what is beside it is what has just been compared.
          · cases heq
            refine .inr fun p' q' hbeside => ?_
            cases hbeside with
            | item hx =>
              cases kind_unique hke hx
              cases hp
            | payload hx hy hpx hpy =>
              cases kind_unique hke hx
              cases kind_unique hka hy
              cases hp.symm.trans hpx
              cases hq.symm.trans hpy
              exact hnoted
          · exact .inl hold
        · exact .inr hnew

/-- Once all entered pairs are opened, what is beside noted types is noted. -/
theorem Noted.beside (hm : ∀ x y, (x, y) ∈ m.entered → g.OpenedIn m x y) (h : g.Noted m e a)
    (hbeside : g.Beside (e, a) (p, q)) : g.Noted m p q := by
  cases h with
  | same =>
    cases hbeside with
    | item he ha hmem =>
      cases kind_unique he ha
      obtain rfl : p = q := List.forall₂_zip (List.forall₂_same.2 fun _ _ => rfl) hmem
      exact .same p
    | payload he ha hp hq =>
      cases kind_unique he ha
      cases hp.symm.trans hq
      exact .same _
  | tuple he ha h =>
    cases hbeside with
    | item he' ha' hmem =>
      cases kind_unique he he'
      cases kind_unique ha ha'
      exact h p q hmem
    | payload he' _ hp =>
      cases kind_unique he he'
      cases hp
  | entered _ _ h => exact hm _ _ h p q hbeside
  | placeholder he | bound he =>
    cases hbeside with
    | item he' => cases kind_unique he he'
    | payload he' _ hp =>
      cases kind_unique he he'
      cases hp

theorem Noted.of_faces (hm : ∀ x y, (x, y) ∈ m.entered → g.OpenedIn m x y)
    (h : Relation.ReflTransGen g.Beside s t) (hs : g.Noted m s.1 s.2) : g.Noted m t.1 t.2 := by
  induction h with
  | refl => exact hs
  | tail _ hbeside ih => exact ih.beside hm hbeside

/-- A placeholder that faces a box is noted by its binding alone. -/
theorem Noted.exists_bound {kind : TypeKind} (h : g.Noted m e a)
    (he : g.kind e = .ok (.placeholder name)) (ha : g.kind a = .ok kind)
    (hpay : kind.payload? = some id) :
    ∃ b bound, m.bindings = some b ∧ b.get? name = some bound := by
  cases h with
  | same =>
    cases kind_unique he ha
    cases hpay
  | tuple he' => cases kind_unique he he'
  | entered he' hp =>
    cases kind_unique he he'
    cases hp
  | placeholder _ ha' =>
    cases kind_unique ha ha'
    cases hpay
  | bound he' hb hn =>
    cases kind_unique he he'
    exact ⟨_, _, hb, hn⟩

/-- A match that succeeds keeps the bindings that it finds, and it binds the other placeholders that
face a box, each to the payload of such a box. -/
theorem matchTypes_infers (hg : g.Sound) (he : e < g.size) (ha : a < g.size) {sp sp' : Span}
    {b : Bindings} {after : Option Bindings}
    (h : g.matchTypes (some e) a sp sp' (some b) = .ok () after) :
    ∃ b', after = some b' ∧
      (∀ name id, b.get? name = some id → b'.get? name = some id) ∧
      (∀ name id, b'.get? name = some id → b.get? name = some id ∨ g.Infers e a name id) ∧
      ∀ name id, g.Infers e a name id → ∃ bound, b'.get? name = some bound := by
  simp only [matchTypes] at h
  cases hrun : g.matchWithin g.matchDepth e a sp sp' ⟨[], some b⟩ with
  | error failure state =>
    rw [hrun] at h
    cases h
  | ok _ state =>
    rw [hrun] at h
    cases h
    obtain ⟨hlearns, hnoted⟩ := matchWithin_learns hg _ e a he ha sp sp' _ state hrun
    obtain ⟨b', hb'⟩ := Option.isSome_iff_exists.1 hlearns.advances.mode
    refine ⟨b', hb', hlearns.advances.keeps b b' rfl hb', hlearns.infers b b' rfl hb', ?_⟩
    have hopened : ∀ x y, (x, y) ∈ state.entered → g.OpenedIn state x y := fun x y hxy =>
      (hlearns.opened x y hxy).resolve_left List.not_mem_nil
    rintro name id ⟨x, y, kind, hfaces, hx, hy, hpay⟩
    obtain ⟨b'', bound, hb'', hbound⟩ := (Noted.of_faces hopened hfaces hnoted).exists_bound hx hy hpay
    cases hb'.symm.trans hb''
    exact ⟨bound, hbound⟩

end SlotCode.TypeGraph
