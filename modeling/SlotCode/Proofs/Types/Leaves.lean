import SlotCode.Proofs.Types.Matching

/-!
# Leaves

In a sound graph every type has leaves (`leaves_eq`), and they follow the structure of the type:

    leafTypes id = [id]                            if id is no tuple
    leafTypes id = items.flatMap leafTypes         if id is the tuple of items

Types that are alike have as many leaves, which are alike in pairs (`Alike.leafTypes`), and so it is
with types that match (`matchTypes_matches_leaves`).  No tuple is alike a part of itself
(`not_alike_component`).
-/

namespace SlotCode

open List

variable {kind : TypeKind} {α β : Type} {id a c : TypeId}

theorem TypeKind.tuple_or_not (kind : TypeKind) :
    (∃ items, kind = .tuple items) ∨ kind.items? = none := by
  cases kind <;> simp [items?]

theorem TypeKind.items?_of_payload {payload : TypeId} (h : kind.payload? = some payload) :
    kind.items? = none := by
  cases kind <;> first | rfl | cases h

namespace TypeGraph

variable {g g' : TypeGraph}

theorem mapM_eq_ok_iff {ε : Type} {f : α → Except ε β} {l : List α} {bs : List β} :
    l.mapM f = .ok bs ↔ Forall₂ (fun a b => f a = .ok b) l bs := by
  induction l generalizing bs with
  | nil =>
    cases bs <;> simp [pure, Except.pure]
  | cons a l ih =>
    rw [mapM_cons]
    cases ha : f a with
    | error e =>
      cases bs <;> simp [bind, Except.bind, ha]
    | ok b =>
      cases hl : l.mapM f with
      | error e =>
        cases bs with
        | nil => simp [bind, Except.bind]
        | cons b' bs => simp [bind, Except.bind, ← ih, hl]
      | ok bs' =>
        cases bs with
        | nil => simp [bind, Except.bind, pure, Except.pure]
        | cons b' bs => simp [bind, Except.bind, pure, Except.pure, ha, ← ih, hl]

theorem forall_of_forall₂ {R : α → β → Prop} {P : β → Prop} {as : List α} {bs : List β}
    (h : Forall₂ R as bs) (hR : ∀ a ∈ as, ∀ b, R a b → P b) : ∀ b ∈ bs, P b := by
  induction h with
  | nil => exact forall_mem_nil _
  | cons hab _ ih =>
    obtain ⟨ha, hR⟩ := forall_mem_cons.1 hR
    exact forall_mem_cons.2 ⟨ha _ hab, ih hR⟩

theorem exists_of_forall₂ {R : α → β → Prop} {as : List α} {bs : List β} (h : Forall₂ R as bs)
    {a : α} (ha : a ∈ as) : ∃ b ∈ bs, R a b := by
  induction h with
  | nil => cases ha
  | cons hab _ ih =>
    rcases mem_cons.1 ha with rfl | ha
    · exact ⟨_, mem_cons_self, hab⟩
    · obtain ⟨b, hb, hr⟩ := ih ha
      exact ⟨b, mem_cons_of_mem _ hb, hr⟩

/-- Induction along the edges that end. -/
theorem Sound.induction (hg : g.Sound) {P : (id : TypeId) → id < g.size → Prop}
    (step : ∀ id hid, (∀ part (hp : g.Inner id part), P part (hg.closed id part hp.part)) → P id hid)
    (id : TypeId) (hid : id < g.size) : P id hid := by
  induction hr : g.rank id using Nat.strong_induction_on generalizing id with
  | _ r ih =>
    refine step id hid fun part hpart => ?_
    exact ih _ (hr ▸ rank_lt_of_inner hg hpart) part (hg.closed _ _ hpart.part) rfl

/-! ## Walking to the leaves -/

theorem leavesWithin_eq_of_not_tuple (hk : g.kind id = .ok kind) (h : kind.items? = none)
    (fuel : Nat) : g.leavesWithin (fuel + 1) id = .ok [id] := by
  simp only [leavesWithin, hk, bind, Except.bind]
  cases kind with
  | tuple items => cases h
  | _ => rfl

theorem leavesWithin_tuple {items : List TypeId} (hk : g.kind id = .ok (.tuple items)) (fuel : Nat) :
    g.leavesWithin (fuel + 1) id = (items.mapM (g.leavesWithin fuel)).map flatten := by
  simp only [leavesWithin, hk, bind, Except.bind]
  cases items.mapM (g.leavesWithin fuel) <;> rfl

theorem leavesWithin_ok (hg : g.Sound) (fuel : Nat) (id : TypeId) (hid : id < g.size)
    (hf : g.rank id < fuel) : ∃ ids, g.leavesWithin fuel id = .ok ids := by
  induction fuel generalizing id with
  | zero => omega
  | succ fuel ih =>
    obtain ⟨kind, hk⟩ := exists_kind hid
    rcases kind.tuple_or_not with ⟨items, rfl⟩ | hi
    · have hitems : ∀ item ∈ items, ∃ ids, g.leavesWithin fuel item = .ok ids := by
        intro item hitem
        have hlt := rank_lt_of_inner hg ⟨_, hk, hitem⟩
        exact ih item (hg.lt_of_kind hk item hitem) (by omega)
      obtain ⟨lists, hlists⟩ := mapM_ok_of_forall hitems
      exact ⟨_, by rw [leavesWithin_tuple hk, hlists]; rfl⟩
    · exact ⟨_, leavesWithin_eq_of_not_tuple hk hi fuel⟩

/-- More steps, or a larger graph, lead to the same leaves. -/
theorem leavesWithin_mono (h : g.Extends g') {fuel fuel' : Nat} (hf : fuel ≤ fuel')
    {ids : List TypeId} (hw : g.leavesWithin fuel id = .ok ids) :
    g'.leavesWithin fuel' id = .ok ids := by
  induction fuel generalizing fuel' id ids with
  | zero => cases hw
  | succ fuel ih =>
    obtain ⟨fuel', rfl⟩ : ∃ n, fuel' = n + 1 := ⟨fuel' - 1, by omega⟩
    cases hk : g.kind id with
    | error fault =>
      simp only [leavesWithin, hk] at hw
      cases hw
    | ok kind =>
      rcases kind.tuple_or_not with ⟨items, rfl⟩ | hi
      · rw [leavesWithin_tuple hk] at hw
        rw [leavesWithin_tuple (h _ _ hk)]
        cases hlists : items.mapM (g.leavesWithin fuel) with
        | error fault =>
          rw [hlists] at hw
          cases hw
        | ok lists =>
          have hlists' : items.mapM (g'.leavesWithin fuel') = .ok lists :=
            mapM_eq_ok_iff.2 ((mapM_eq_ok_iff.1 hlists).imp fun _ _ hitem =>
              ih (Nat.le_of_succ_le_succ hf) hitem)
          rw [hlists] at hw
          rw [hlists']
          exact hw
      · rw [leavesWithin_eq_of_not_tuple hk hi] at hw
        rw [leavesWithin_eq_of_not_tuple (h _ _ hk) hi, hw]

/-! ## The leaves of a type -/

/-- The leaves of a type, and none where there is no such type. -/
def leafTypes (g : TypeGraph) (id : TypeId) : List TypeId :=
  match g.leaves id with
  | .ok ids => ids
  | .error _ => []

theorem leaves_eq (hg : g.Sound) {id : TypeId} (hid : id < g.size) :
    g.leaves id = .ok (g.leafTypes id) := by
  obtain ⟨ids, h⟩ := leavesWithin_ok hg g.depth id hid (Nat.lt_succ_of_lt (rank_lt_size hg hid))
  unfold leafTypes leaves
  rw [h]

theorem leaves_extend (h : g.Extends g') {ids : List TypeId} (hl : g.leaves id = .ok ids) :
    g'.leaves id = .ok ids :=
  leavesWithin_mono h (Nat.succ_le_succ h.size_le) hl

theorem leafTypes_extend (hg : g.Sound) (h : g.Extends g') (hid : id < g.size) :
    g'.leafTypes id = g.leafTypes id := by
  rw [leafTypes, leaves_extend h (leaves_eq hg hid)]

theorem leafTypes_of_not_tuple (hk : g.kind id = .ok kind) (h : kind.items? = none) :
    g.leafTypes id = [id] := by
  rw [leafTypes, leaves, depth, leavesWithin_eq_of_not_tuple hk h]

theorem leafTypes_tuple (hg : g.Sound) {items : List TypeId} (hk : g.kind id = .ok (.tuple items)) :
    g.leafTypes id = items.flatMap g.leafTypes := by
  have hitems : items.mapM (g.leavesWithin g.depth) = .ok (items.map g.leafTypes) := by
    rw [mapM_eq_ok_iff, forall₂_map_right_iff, forall₂_same]
    exact fun item hitem => leaves_eq hg (hg.lt_of_kind hk item hitem)
  have hmore : g.leavesWithin (g.depth + 1) id = .ok (items.flatMap g.leafTypes) := by
    rw [leavesWithin_tuple hk, hitems, flatMap_def]
    rfl
  have hid := lt_size_of_kind hk
  have hsame := leavesWithin_mono (.refl g) (Nat.le_succ g.depth) (leaves_eq hg hid)
  exact Except.ok.inj (hsame.symm.trans hmore)

theorem forall₂_flatMap {γ δ : Type} {R : α → β → Prop} {S : γ → δ → Prop} {f : α → List γ}
    {f' : β → List δ} {as : List α} {bs : List β} (h : Forall₂ R as bs)
    (hf : ∀ a ∈ as, ∀ b, R a b → Forall₂ S (f a) (f' b)) :
    Forall₂ S (as.flatMap f) (bs.flatMap f') := by
  induction h with
  | nil => exact .nil
  | @cons a b as bs hab _ ih =>
    rw [flatMap_cons, flatMap_cons]
    exact rel_append (hf a mem_cons_self b hab) (ih fun a' ha' => hf a' (mem_cons_of_mem a ha'))

/-- Types that are alike have leaves that are alike in pairs. -/
theorem Alike.leafTypes (hg : g.Sound) {free : Bool} {e a : TypeId} (h : g.Alike free e a) :
    Forall₂ (g.Alike free) (g.leafTypes e) (g.leafTypes a) := by
  have hsame : ∀ id, Forall₂ (g.Alike free) (g.leafTypes id) (g.leafTypes id) :=
    fun id => forall₂_same.2 fun x _ => .refl g free x
  have hleaf : ∀ {e a ke ka}, g.kind e = .ok ke → g.kind a = .ok ka → ke.items? = none →
      ka.items? = none → g.Alike free e a →
      Forall₂ (g.Alike free) (g.leafTypes e) (g.leafTypes a) := by
    intro e a ke ka he ha hie hia hea
    rw [leafTypes_of_not_tuple he hie, leafTypes_of_not_tuple ha hia]
    exact .cons hea .nil
  by_cases he : e < g.size
  · induction e, he using hg.induction generalizing a with
    | step e he ih =>
      cases h.agree with
      | same => exact hsame e
      | tuple hke hka hitems =>
        rw [leafTypes_tuple hg hke, leafTypes_tuple hg hka]
        exact forall₂_flatMap hitems fun p hp q hpq => ih p ⟨_, hke, hp⟩ hpq
      | box hke hka hp hq _ =>
        exact hleaf hke hka (TypeKind.items?_of_payload hp) (TypeKind.items?_of_payload hq) h
      | placeholder hke hka => exact hleaf hke hka rfl rfl h
      | bound _ hke hka hq => exact hleaf hke hka rfl (TypeKind.items?_of_payload hq) h
  · cases h.agree with
    | same => exact hsame e
    | tuple hke | box hke | placeholder hke | bound _ hke => exact absurd (lt_size_of_kind hke) he

/-- Leaves are never tuples. -/
theorem not_tuple_of_mem_leafTypes (hg : g.Sound) {leaf : TypeId} (hid : id < g.size)
    (h : leaf ∈ g.leafTypes id) : ∃ kind, g.kind leaf = .ok kind ∧ kind.items? = none := by
  induction id, hid using hg.induction with
  | step id hid ih =>
    obtain ⟨kind, hk⟩ := exists_kind hid
    rcases kind.tuple_or_not with ⟨items, rfl⟩ | hi
    · rw [leafTypes_tuple hg hk, mem_flatMap] at h
      obtain ⟨item, hitem, h⟩ := h
      exact ih item ⟨_, hk, hitem⟩ h
    · rw [leafTypes_of_not_tuple hk hi, mem_singleton] at h
      subst h
      exact ⟨kind, hk, hi⟩

theorem lt_size_of_mem_leafTypes (hg : g.Sound) {leaf : TypeId} (hid : id < g.size)
    (h : leaf ∈ g.leafTypes id) : leaf < g.size := by
  obtain ⟨_, hk, -⟩ := not_tuple_of_mem_leafTypes hg hid h
  exact lt_size_of_kind hk

theorem isValue_of_mem_leafTypes (hg : g.Regular) {leaf : TypeId} (hid : g.IsValue id)
    (h : leaf ∈ g.leafTypes id) : g.IsValue leaf := by
  induction id, hid.lt_size using hg.toSound.induction with
  | step id _ ih =>
    obtain ⟨kind, hk, hf⟩ := hid
    rcases kind.tuple_or_not with ⟨items, rfl⟩ | hi
    · rw [leafTypes_tuple hg.toSound hk, mem_flatMap] at h
      obtain ⟨item, hitem, h⟩ := h
      exact ih item ⟨_, hk, hitem⟩ (hg.parts id item ⟨_, hk, hitem⟩) h
    · rw [leafTypes_of_not_tuple hk hi, mem_singleton] at h
      subst h
      exact ⟨kind, hk, hf⟩

/-! ## Leaves of types that match -/

/-- If two types match, they have as many leaves, and any two leaves at the same position match when they
are compared on their own, with bindings if there were bindings and whatever these hold. -/
theorem matchTypes_matches_leaves (g : TypeGraph) (hg : g.Sound) (e a : TypeId) (he : e < g.size)
    (ha : a < g.size) (sp sp' : Span) (before : Option Bindings) (h : g.Accepts e a sp sp' before) :
    ∃ es as, g.leaves e = .ok es ∧ g.leaves a = .ok as ∧ es.length = as.length ∧
      ∀ (i : Nat) (p q : TypeId), es[i]? = some p → as[i]? = some q →
        ∀ sp sp' fresh, fresh.isSome = before.isSome → g.Accepts p q sp sp' fresh := by
  -- The pairs that matching has entered play no part in being alike, which each leaf inherits.
  have halike := (accepts_iff_alike hg he ha sp sp' before).1 h
  have hleaves := halike.leafTypes hg
  refine ⟨_, _, leaves_eq hg he, leaves_eq hg ha, hleaves.length_eq, ?_⟩
  intro i p q hp hq sp sp' fresh hmode
  have hpq : (p, q) ∈ (g.leafTypes e).zip (g.leafTypes a) :=
    mem_of_getElem? (getElem?_zip_eq_some.2 ⟨hp, hq⟩)
  obtain ⟨hpe, hqa⟩ := of_mem_zip hpq
  rw [accepts_iff_alike hg (lt_size_of_mem_leafTypes hg he hpe) (lt_size_of_mem_leafTypes hg ha hqa),
    hmode]
  exact (forall₂_iff_zip.1 hleaves).2 hpq

/-- The pair of a list of integers and a placeholder, and that of another such list and a box, each
inside a pair of its own. -/
def nestedPairs : TypeGraph :=
  [.placeholder "T", .box .string, .tuple [4, 8], .tuple [6, 9], .tuple [1, 10], .tuple [1, 11]].foldl
    (fun g kind => (g.add kind none).2) twoLists

theorem sound_nestedPairs : nestedPairs.Sound := by
  have hpair : ∀ {g : TypeGraph} {a b : TypeId}, g.Regular → g.IsValue a → g.IsValue b →
      (g.add (.tuple [a, b]) none).2.Regular := by
    intro g a b hg ha hb
    exact hg.add none (forall_mem_cons.2 ⟨ha, forall_mem_singleton.2 hb⟩) rfl
  have hlist : (initial.addList .integer none).2.Regular :=
    regular_initial.addList none ⟨_, rfl, rfl⟩
  have hlists : twoLists.Regular := hlist.addList none ⟨_, rfl, rfl⟩
  have hopen : (twoLists.add (.placeholder "T") none).2.Regular := hlists.add none (forall_mem_nil _) rfl
  refine (hpair (hpair (hpair (hpair (hopen.add none (forall_mem_singleton.2 ?_) rfl)
    ?_ ?_) ?_ ?_) ?_ ?_) ?_ ?_).toSound
  all_goals exact ⟨_, rfl, rfl⟩

theorem matchTypes_nestedPairs :
    nestedPairs.Accepts 12 13 ⟨0, 0⟩ ⟨0, 0⟩ (some []) ∧
      nestedPairs.leaves 12 = .ok [1, 4, 8] ∧ nestedPairs.leaves 13 = .ok [1, 6, 9] ∧
      nestedPairs.Accepts 4 6 ⟨0, 0⟩ ⟨0, 0⟩ (some []) ∧
      nestedPairs.Accepts 8 9 ⟨0, 0⟩ ⟨0, 0⟩ (some []) := by
  have haccepts : nestedPairs.Accepts 12 13 ⟨0, 0⟩ ⟨0, 0⟩ (some []) := ⟨_, rfl⟩
  obtain ⟨es, as, hes, has, -, hmatch⟩ := matchTypes_matches_leaves nestedPairs sound_nestedPairs 12 13
    (by decide) (by decide) ⟨0, 0⟩ ⟨0, 0⟩ (some []) haccepts
  cases hes
  cases has
  exact ⟨haccepts, rfl, rfl, hmatch 1 4 6 rfl rfl ⟨0, 0⟩ ⟨0, 0⟩ (some []) rfl,
    hmatch 2 8 9 rfl rfl ⟨0, 0⟩ ⟨0, 0⟩ (some []) rfl⟩

/-! ## Tuples inside tuples -/

/-- `part` is an item of the tuple `id`. -/
def Component (g : TypeGraph) (id part : TypeId) : Prop :=
  ∃ items, g.kind id = .ok (.tuple items) ∧ part ∈ items

theorem Component.extend (h : g.Extends g') {part : TypeId} (hc : g.Component id part) :
    g'.Component id part := by
  obtain ⟨items, hk, hp⟩ := hc
  exact ⟨items, h _ _ hk, hp⟩

theorem Alike.component {b : TypeId} (hab : g.Alike false a b) (hc : g.Component a c) :
    ∃ d, g.Component b d ∧ g.Alike false c d := by
  obtain ⟨items, hk, hitem⟩ := hc
  cases hab.agree with
  | same => exact ⟨c, ⟨items, hk, hitem⟩, .refl g false c⟩
  | tuple hka hkb hitems =>
    cases kind_unique hk hka
    obtain ⟨d, hd, hcd⟩ := exists_of_forall₂ hitems hitem
    exact ⟨d, ⟨_, hkb, hd⟩, hcd⟩
  | box hka _ hp =>
    cases kind_unique hk hka
    cases hp
  | placeholder hka | bound _ hka => cases kind_unique hk hka

theorem Alike.components {b : TypeId} (hab : g.Alike false a b)
    (hc : Relation.TransGen g.Component a c) :
    ∃ d, Relation.TransGen g.Component b d ∧ g.Alike false c d := by
  induction hc with
  | single hc =>
    obtain ⟨d, hd, hcd⟩ := hab.component hc
    exact ⟨d, .single hd, hcd⟩
  | tail _ hc ih =>
    obtain ⟨d, hd, hcd⟩ := ih
    obtain ⟨d', hd', hcd'⟩ := hcd.component hc
    exact ⟨d', hd.tail hd', hcd'⟩

theorem rank_lt_of_components (hg : g.Sound) (hc : Relation.TransGen g.Component a c) :
    g.rank c < g.rank a := by
  induction hc with
  | single hc =>
    obtain ⟨items, hk, hitem⟩ := hc
    exact rank_lt_of_inner hg ⟨_, hk, hitem⟩
  | tail _ hc ih =>
    obtain ⟨items, hk, hitem⟩ := hc
    exact (rank_lt_of_inner hg ⟨_, hk, hitem⟩).trans ih

/-- No tuple is alike one of its parts: that part would have such a part again, and so on. -/
theorem not_alike_component (hg : g.Sound) (hc : Relation.TransGen g.Component a c) :
    ¬ g.Alike false a c := by
  induction hr : g.rank a using Nat.strong_induction_on generalizing a c with
  | _ r ih =>
    intro hac
    obtain ⟨d, hd, hcd⟩ := hac.components hc
    exact ih (g.rank c) (hr ▸ rank_lt_of_components hg hc) hd rfl hcd

end TypeGraph

end SlotCode
