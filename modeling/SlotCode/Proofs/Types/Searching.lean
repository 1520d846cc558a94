import SlotCode.Proofs.Types.Embedding
import SlotCode.Proofs.Types.Substitution

/-!
# The search for placeholders

`hasPlaceholder` ends in every sound graph, since no node is searched twice, and it goes the same way in
a graph that the graph is embedded in (`Embeds.hasPlaceholder`).

The search enters a list through its payload alone.  In a graph whose lists hold pairs of an item and
themselves (`Knotted`) it misses nothing, because every node that can be reached has the tree of a node
that is searched (`MetTree`).  The item of a list and the first of its pair need only have the same tree
(`SameTree`).
-/

namespace SlotCode.TypeGraph

open List hiding get set

variable {g g' : TypeGraph} {r : TypeId → TypeId} {fuel fuel' : Nat} {id x z p a b : TypeId}
  {kind kx : TypeKind} {name : String} {seen seen' ids : List TypeId}

/-! ## Steps of the search -/

/-- Number of nodes that have not been met. -/
def unmet (g : TypeGraph) (seen : List TypeId) : Nat :=
  (Finset.range g.size \ seen.toFinset).card

theorem unmet_mono {seen' : List TypeId} (hsub : seen ⊆ seen') : g.unmet seen' ≤ g.unmet seen := by
  apply Finset.card_le_card
  apply Finset.sdiff_subset_sdiff (Finset.Subset.refl _)
  intro x hx
  rw [mem_toFinset] at hx ⊢
  exact hsub hx

theorem unmet_cons (hid : id < g.size) (hnew : id ∉ seen) :
    g.unmet (id :: seen) < g.unmet seen := by
  apply Finset.card_lt_card
  rw [Finset.ssubset_iff_of_subset]
  · exact ⟨id, by simp [hid, hnew], by simp⟩
  · intro x hx
    rw [Finset.mem_sdiff, mem_toFinset] at hx ⊢
    exact ⟨hx.1, fun hmem => hx.2 (mem_cons_of_mem _ hmem)⟩

theorem unmet_le (g : TypeGraph) (seen : List TypeId) : g.unmet seen ≤ g.size := by
  simpa [unmet] using Finset.card_le_card (Finset.sdiff_subset (s := Finset.range g.size))

theorem searchWithin_of_mem (hid : id ∈ seen) :
    g.searchWithin (fuel + 1) id seen = .ok (false, seen) := by
  simp only [searchWithin, bind, StateT.bind, get, getThe, MonadStateOf.get, StateT.get, pure,
    Except.pure, Except.bind, if_pos hid]
  rfl

theorem searchWithin_placeholder {name : String} (hid : id ∉ seen)
    (hk : g.kind id = .ok (.placeholder name)) :
    g.searchWithin (fuel + 1) id seen = .ok (true, id :: seen) := by
  simp only [searchWithin, bind, StateT.bind, get, getThe, MonadStateOf.get, StateT.get, pure,
    Except.pure, Except.bind, if_neg hid, hk]
  rfl

theorem anyM_singleton (f : TypeId → StateT (List TypeId) (Except Fault) Bool) (id : TypeId)
    (seen : List TypeId) : [id].anyM f seen = f id seen := by
  simp only [anyM, bind, StateT.bind, Except.bind]
  cases f id seen with
  | error e => rfl
  | ok result =>
    obtain ⟨found, seen'⟩ := result
    cases found <;> rfl

theorem searchWithin_parts {kind : TypeKind} (hid : id ∉ seen) (hk : g.kind id = .ok kind)
    (hkind : ∀ name, kind ≠ .placeholder name) :
    g.searchWithin (fuel + 1) id seen = kind.searched.anyM (g.searchWithin fuel) (id :: seen) := by
  simp only [searchWithin, bind, StateT.bind, get, getThe, MonadStateOf.get, StateT.get, pure,
    Except.pure, Except.bind, if_neg hid, hk]
  cases kind with
  | placeholder name => exact absurd rfl (hkind name)
  | void | integer | boolean | string | tuple items | function params result native => rfl
  | box payload | list item payload => exact (anyM_singleton _ _ _).symm

theorem anyM_cons_eq_false {f : TypeId → StateT (List TypeId) (Except Fault) Bool}
    {as : List TypeId} :
    (a :: as).anyM f seen = .ok (false, seen') ↔
      ∃ seen₁, f a seen = .ok (false, seen₁) ∧ as.anyM f seen₁ = .ok (false, seen') := by
  rw [anyM]
  simp only [bind, StateT.bind, Except.bind]
  cases f a seen with
  | error e => simp
  | ok r =>
    obtain ⟨b, seen₁⟩ := r
    cases b with
    | true =>
      constructor
      · intro h
        cases h
      · rintro ⟨_, h, -⟩
        cases h
    | false =>
      constructor
      · intro h
        exact ⟨seen₁, rfl, h⟩
      · rintro ⟨_, h, hrest⟩
        cases h
        exact hrest

/-- What the search for placeholders has done at a type where it found none. -/
theorem searchWithin_eq_false (h : g.searchWithin (fuel + 1) id seen = .ok (false, seen')) :
    id ∈ seen ∧ seen' = seen ∨ ∃ kind, g.kind id = .ok kind ∧ (∀ name, kind ≠ .placeholder name) ∧
      kind.searched.anyM (g.searchWithin fuel) (id :: seen) = .ok (false, seen') := by
  by_cases hid : id ∈ seen
  · rw [searchWithin_of_mem hid] at h
    cases h
    exact .inl ⟨hid, rfl⟩
  cases hk : g.kind id with
  | error fault =>
    simp only [searchWithin, bind, StateT.bind, get, getThe, MonadStateOf.get, StateT.get, pure,
      Except.pure, Except.bind, if_neg hid, set, hk] at h
    cases h
  | ok kind =>
    have hkind : ∀ name, kind ≠ .placeholder name := by
      rintro name rfl
      rw [searchWithin_placeholder hid hk] at h
      cases h
    rw [searchWithin_parts hid hk hkind] at h
    exact .inr ⟨kind, rfl, hkind, h⟩

/-- A type that is no placeholder and whose searched parts have all been met. -/
def Explored (g : TypeGraph) (seen : List TypeId) (id : TypeId) : Prop :=
  ∃ kind, g.kind id = .ok kind ∧ (∀ name, kind ≠ .placeholder name) ∧ kind.searched ⊆ seen

/-- A search that found nothing has met `ids` and explored every type that it met. -/
structure Searched (g : TypeGraph) (ids seen seen' : List TypeId) : Prop where
  grows : seen ⊆ seen'
  met : ids ⊆ seen'
  explored : ∀ id ∈ seen', id ∈ seen ∨ g.Explored seen' id

theorem Searched.cons {ids seen₁ : List TypeId} (h : g.Searched [id] seen seen₁)
    (h' : g.Searched ids seen₁ seen') : g.Searched (id :: ids) seen seen' := by
  refine ⟨Subset.trans h.grows h'.grows, ?_, fun x hx => ?_⟩
  · exact cons_subset.2 ⟨h'.grows (h.met mem_cons_self), h'.met⟩
  · rcases h'.explored x hx with hx | hx
    · rcases h.explored x hx with hx | ⟨kind, hk, hn, hsub⟩
      · exact .inl hx
      · exact .inr ⟨kind, hk, hn, Subset.trans hsub h'.grows⟩
    · exact .inr hx

theorem anyM_searched {f : TypeId → StateT (List TypeId) (Except Fault) Bool}
    (hf : ∀ id seen seen', f id seen = .ok (false, seen') → g.Searched [id] seen seen')
    {ids : List TypeId} (h : ids.anyM f seen = .ok (false, seen')) : g.Searched ids seen seen' := by
  induction ids generalizing seen with
  | nil =>
    cases h
    exact ⟨Subset.refl _, nil_subset _, fun _ hx => .inl hx⟩
  | cons id ids ih =>
    obtain ⟨seen₁, h₁, h₂⟩ := anyM_cons_eq_false.1 h
    exact (hf id seen seen₁ h₁).cons (ih h₂)

theorem searchWithin_searched (fuel : Nat) (id : TypeId) (seen seen' : List TypeId)
    (h : g.searchWithin fuel id seen = .ok (false, seen')) : g.Searched [id] seen seen' := by
  induction fuel generalizing id seen seen' with
  | zero => cases h
  | succ fuel ih =>
    rcases searchWithin_eq_false h with ⟨hid, rfl⟩ | ⟨kind, hk, hn, hparts⟩
    · exact ⟨Subset.refl _, cons_subset.2 ⟨hid, nil_subset _⟩, fun _ hx => .inl hx⟩
    · have hs := anyM_searched ih hparts
      refine ⟨Subset.trans (subset_cons_self _ _) hs.grows,
        cons_subset.2 ⟨hs.grows mem_cons_self, nil_subset _⟩, fun x hx => ?_⟩
      rcases hs.explored x hx with hx | hx
      · rcases mem_cons.1 hx with rfl | hx
        · exact .inr ⟨kind, hk, hn, hs.met⟩
        · exact .inl hx
      · exact .inr hx

theorem searched_of_hasPlaceholder (h : g.hasPlaceholder id = .ok false) :
    ∃ seen, g.Searched [id] [] seen := by
  simp only [hasPlaceholder, StateT.run'] at h
  cases hrun : g.searchWithin g.depth id [] with
  | error fault =>
    rw [hrun] at h
    cases h
  | ok r =>
    obtain ⟨b, seen⟩ := r
    rw [hrun] at h
    cases h
    exact ⟨seen, searchWithin_searched _ _ _ _ hrun⟩

/-! ## Searching under other numbers -/

theorem searched_rename (r : TypeId → TypeId) (kind : TypeKind) :
    (kind.rename r).searched = kind.searched.map r := by
  cases kind <;> simp [TypeKind.rename, TypeKind.searched, TypeKind.parts]

/-- A search through both graphs that goes the same way in both, and meets what it has met. -/
def SearchesAlike (r : TypeId → TypeId) (seen : List TypeId)
    (run run' : Except Fault (Bool × List TypeId)) : Prop :=
  ∃ found seen', seen ⊆ seen' ∧ run = .ok (found, seen') ∧ run' = .ok (found, seen'.map r)

theorem anyM_searchesAlike {f f' : TypeId → StateT (List TypeId) (Except Fault) Bool} {bound : Nat}
    {ids : List TypeId} (hf : ∀ id ∈ ids, ∀ seen, g.unmet seen < bound →
      SearchesAlike r seen (f id seen) (f' (r id) (seen.map r))) (hseen : g.unmet seen < bound) :
    SearchesAlike r seen (ids.anyM f seen) ((ids.map r).anyM f' (seen.map r)) := by
  induction ids generalizing seen with
  | nil => exact ⟨false, seen, Subset.refl _, rfl, rfl⟩
  | cons id ids ih =>
    obtain ⟨found, seen₁, hsub, hrun, hrun'⟩ := hf id mem_cons_self seen hseen
    simp only [map_cons, anyM, bind, StateT.bind, Except.bind, hrun, hrun']
    cases found with
    | true => exact ⟨true, seen₁, hsub, rfl, rfl⟩
    | false =>
      obtain ⟨found, seen', hsub', hrest⟩ := ih (fun x hx => hf x (mem_cons_of_mem _ hx))
        (Nat.lt_of_le_of_lt (unmet_mono hsub) hseen)
      exact ⟨found, seen', Subset.trans hsub hsub', hrest⟩

section

variable (h : Embeds r 0 g g') (hg : g.Sound)

include h

theorem Embeds.injective : Function.Injective r :=
  fun _ _ => h.inj (Nat.zero_le _) (Nat.zero_le _)

include hg

/-- No node is searched twice, so the search ends. -/
theorem Embeds.searchWithin (hf : fuel ≤ fuel') (hid : id < g.size) (hseen : g.unmet seen < fuel) :
    SearchesAlike r seen (g.searchWithin fuel id seen)
      (g'.searchWithin fuel' (r id) (seen.map r)) := by
  induction fuel generalizing fuel' id seen with
  | zero => exact absurd hseen (Nat.not_lt_zero _)
  | succ fuel ih =>
    obtain ⟨fuel', rfl⟩ : ∃ n, fuel' = n + 1 := ⟨fuel' - 1, by omega⟩
    have hmem := mem_map_of_injective h.injective (a := id) (l := seen)
    by_cases hold : id ∈ seen
    · exact ⟨false, seen, Subset.refl _, searchWithin_of_mem hold,
        searchWithin_of_mem (hmem.2 hold)⟩
    have hnew := unmet_cons hid hold
    have hold' : r id ∉ seen.map r := mt hmem.1 hold
    obtain ⟨kind, hk⟩ := exists_kind hid
    have hk' := h.kind (Nat.zero_le _) hk
    by_cases hplaceholder : ∃ name, kind = .placeholder name
    · obtain ⟨name, rfl⟩ := hplaceholder
      exact ⟨true, id :: seen, subset_cons_self _ _, searchWithin_placeholder hold hk,
        searchWithin_placeholder hold' hk'⟩
    · have hkind : ∀ name, kind ≠ .placeholder name := fun name heq => hplaceholder ⟨name, heq⟩
      have hkind' : ∀ name, kind.rename r ≠ .placeholder name := by
        intro name heq
        cases kind <;> simp [TypeKind.rename] at heq
        exact hkind _ rfl
      have hparts : ∀ part ∈ kind.searched, part < g.size := fun part hpart =>
        hg.lt_of_kind hk part (TypeKind.searched_subset kind hpart)
      rw [searchWithin_parts hold hk hkind, searchWithin_parts hold' hk' hkind', searched_rename]
      have hnext : g.unmet (id :: seen) < fuel := Nat.lt_of_lt_of_le hnew (Nat.le_of_lt_succ hseen)
      obtain ⟨found, seen', hsub, hrun⟩ := anyM_searchesAlike
        (fun part hpart _ hseen => ih (Nat.le_of_succ_le_succ hf) (hparts part hpart) hseen) hnext
      exact ⟨found, seen', Subset.trans (subset_cons_self _ _) hsub, hrun⟩

theorem Embeds.hasPlaceholder (hid : id < g.size) :
    ∃ found, g.hasPlaceholder id = .ok found ∧ g'.hasPlaceholder (r id) = .ok found := by
  obtain ⟨found, seen, -, hrun, hrun'⟩ := h.searchWithin hg (Nat.succ_le_succ h.size_le) hid
    (Nat.lt_succ_of_le (g.unmet_le []))
  refine ⟨found, ?_, ?_⟩
  · rw [TypeGraph.hasPlaceholder, StateT.run', depth, hrun]
    rfl
  · rw [TypeGraph.hasPlaceholder, StateT.run', depth]
    exact congrArg _ hrun'

end

theorem Embeds.self (g : TypeGraph) : Embeds (fun id => id) 0 g g where
  inj _ _ h := h
  unit _ := rfl
  succ _ := rfl
  size := rfl
  node {_ node} _ hn := ⟨node.origin, by rw [TypeKind.rename_id, hn], fun _ => rfl⟩

/-! ## Types of one tree -/

/-- One level of two types of the same tree, whose parts are related by `R`.  Boxes and lists are
told apart by what they hold alone. -/
inductive SameNode (g : TypeGraph) (R : TypeId → TypeId → Prop) : TypeId → TypeId → Prop where
  | same (id : TypeId) : SameNode g R id id
  | base {a b : TypeId} {kind : TypeKind} (ha : g.kind a = .ok kind) (hb : g.kind b = .ok kind)
      (h : kind.isBase = true) : SameNode g R a b
  | tuple {a b : TypeId} {as bs : List TypeId} (ha : g.kind a = .ok (.tuple as))
      (hb : g.kind b = .ok (.tuple bs)) (h : List.Forall₂ R as bs) : SameNode g R a b
  | box {a b p q : TypeId} {ka kb : TypeKind} (ha : g.kind a = .ok ka) (hb : g.kind b = .ok kb)
      (hp : ka.payload? = some p) (hq : kb.payload? = some q) (h : R p q) : SameNode g R a b
  | placeholder {a b : TypeId} {name : String} (ha : g.kind a = .ok (.placeholder name))
      (hb : g.kind b = .ok (.placeholder name)) : SameNode g R a b
  | function {a b r q : TypeId} {ps qs : List TypeId} {native : Bool}
      (ha : g.kind a = .ok (.function ps r native)) (hb : g.kind b = .ok (.function qs q native))
      (hps : List.Forall₂ R ps qs) (hr : R r q) : SameNode g R a b

/-- The greatest relation of which one level can be read off at every pair. -/
def SameTree (g : TypeGraph) (a b : TypeId) : Prop :=
  ∃ R : TypeId → TypeId → Prop, (∀ x y, R x y → g.SameNode R x y) ∧ R a b

/-- A sound graph in which every list holds the pair of an item and itself. -/
structure Knotted (g : TypeGraph) : Prop extends g.Sound where
  lists : ∀ id item payload, g.kind id = .ok (.list item payload) →
    ∃ first, g.kind payload = .ok (.tuple [first, id]) ∧ g.SameTree item first

/-- Types that are matched without bindings have the same tree. -/
theorem Alike.sameTree {b : TypeId} (h : g.Alike false a b) : g.SameTree a b := by
  refine ⟨g.Alike false, fun x y hxy => ?_, h⟩
  cases hxy.agree with
  | same => exact .same x
  | tuple hx hy h => exact .tuple hx hy h
  | box hx hy hp hq h => exact .box hx hy hp hq h
  | placeholder hx hy => exact .placeholder hx hy
  | bound hfree => cases hfree

theorem Regular.knotted (hg : g.Regular) : g.Knotted where
  toSound := hg.toSound
  lists := fun id item payload hk => by
    obtain ⟨first, hpair, halike⟩ := hg.lists id item payload hk
    exact ⟨first, hpair, halike.sameTree⟩

/-- What is searched in one of two types of the same tree has the tree of something that is searched
in the other. -/
theorem SameTree.searched (h : g.SameTree x z) (hk : g.kind x = .ok kx) (hp : p ∈ kx.searched) :
    ∃ kz q, g.kind z = .ok kz ∧ q ∈ kz.searched ∧ g.SameTree p q := by
  obtain ⟨R, hR, hxz⟩ := h
  have hlift : ∀ {p q}, R p q → g.SameTree p q := fun hpq => ⟨R, hR, hpq⟩
  cases hR x z hxz with
  | same => exact ⟨kx, p, hk, hp, Eq, fun a b hab => hab ▸ .same a, rfl⟩
  | base hx _ hbase =>
    cases kind_unique hk hx
    cases kx <;> cases hbase <;> cases hp
  | tuple hx hz hitems =>
    cases kind_unique hk hx
    obtain ⟨q, hq, hpq⟩ := exists_of_forall₂ hitems hp
    exact ⟨_, q, hz, hq, hlift hpq⟩
  | box hx hz hpx hpz hpq =>
    cases kind_unique hk hx
    cases (TypeKind.mem_searched_iff hpx).1 hp
    exact ⟨_, _, hz, (TypeKind.mem_searched_iff hpz).2 rfl, hlift hpq⟩
  | placeholder hx =>
    cases kind_unique hk hx
    cases hp
  | function hx hz hps hr =>
    cases kind_unique hk hx
    obtain ⟨q, hq, hpq⟩ := exists_of_forall₂ (rel_append hps (.cons hr .nil)) hp
    exact ⟨_, q, hz, hq, hlift hpq⟩

theorem SameTree.placeholder (h : g.SameTree x z) (hk : g.kind x = .ok (.placeholder name)) :
    g.kind z = .ok (.placeholder name) := by
  obtain ⟨R, hR, hxz⟩ := h
  cases hR x z hxz with
  | same => exact hk
  | base hx _ hbase =>
    cases kind_unique hk hx
    cases hbase
  | tuple hx | function hx => cases kind_unique hk hx
  | box hx _ hp =>
    cases kind_unique hk hx
    cases hp
  | placeholder hx hz =>
    cases kind_unique hk hx
    exact hz

theorem searched_of_sameTrees (h : Relation.ReflTransGen g.SameTree x z) (hk : g.kind x = .ok kx)
    (hp : p ∈ kx.searched) :
    ∃ kz q, g.kind z = .ok kz ∧ q ∈ kz.searched ∧ Relation.ReflTransGen g.SameTree p q := by
  induction h using Relation.ReflTransGen.head_induction_on generalizing kx p with
  | refl => exact ⟨kx, p, hk, hp, .refl⟩
  | head hxy _ ih =>
    obtain ⟨ky, q, hky, hq, hpq⟩ := hxy.searched hk hp
    obtain ⟨kz, q', hkz, hq', hqq'⟩ := ih hky hq
    exact ⟨kz, q', hkz, hq', .head hpq hqq'⟩

theorem placeholder_of_sameTrees (h : Relation.ReflTransGen g.SameTree x z)
    (hk : g.kind x = .ok (.placeholder name)) : g.kind z = .ok (.placeholder name) := by
  induction h using Relation.ReflTransGen.head_induction_on with
  | refl => exact hk
  | head hxy _ ih => exact ih (hxy.placeholder hk)

/-! ## The search for placeholders -/

/-! ## Nothing is missed -/

/-- Some type that has been met has the same tree, in one step or several. -/
def MetTree (g : TypeGraph) (seen : List TypeId) (id : TypeId) : Prop :=
  ∃ z ∈ seen, Relation.ReflTransGen g.SameTree id z

section

variable {seen : List TypeId} (hexp : ∀ x ∈ seen, g.Explored seen x)

include hexp

theorem MetTree.searched (h : g.MetTree seen x) (hk : g.kind x = .ok kx) (hp : p ∈ kx.searched) :
    g.MetTree seen p := by
  obtain ⟨z, hz, hxz⟩ := h
  obtain ⟨kz, q, hkz, hq, hpq⟩ := searched_of_sameTrees hxz hk hp
  obtain ⟨kz', hkz', -, hsub⟩ := hexp z hz
  cases kind_unique hkz hkz'
  exact ⟨q, hsub hq, hpq⟩

theorem MetTree.part (hg : g.Knotted) (h : g.MetTree seen x) (hk : g.kind x = .ok kx)
    (hp : p ∈ kx.parts) : g.MetTree seen p := by
  cases kx with
  | list item payload =>
    have hpayload : g.MetTree seen payload := h.searched hexp hk mem_cons_self
    rcases mem_pair.1 hp with rfl | rfl
    -- The item is not searched, but it has the tree of the first of the pair.
    · obtain ⟨first, hpair, htree⟩ := hg.lists x _ payload hk
      obtain ⟨z, hz, hfz⟩ := hpayload.searched hexp hpair mem_cons_self
      exact ⟨z, hz, .head htree hfz⟩
    · exact hpayload
  | _ => exact h.searched hexp hk hp

theorem MetTree.not_placeholder (h : g.MetTree seen x) (name : String) :
    g.kind x ≠ .ok (.placeholder name) := by
  intro hk
  obtain ⟨z, hz, hxz⟩ := h
  obtain ⟨kz, hkz, hn, -⟩ := hexp z hz
  exact hn name (kind_unique hkz (placeholder_of_sameTrees hxz hk))

end

/-- A search that finds nothing has missed nothing. -/
theorem not_mentions_of_hasPlaceholder (hg : g.Knotted) (h : g.hasPlaceholder id = .ok false)
    (name : String) : ¬ g.Mentions id name := by
  obtain ⟨seen, hs⟩ := searched_of_hasPlaceholder h
  have hexp : ∀ x ∈ seen, g.Explored seen x := fun x hx =>
    (hs.explored x hx).resolve_left not_mem_nil
  rintro ⟨target, hr, hk⟩
  have hmet : g.MetTree seen target := by
    clear hk
    induction hr with
    | refl => exact ⟨id, hs.met mem_cons_self, .refl⟩
    | tail _ hpart ih =>
      obtain ⟨kx, hkx, hp⟩ := hpart
      exact ih.part hexp hg hkx hp
  exact hmet.not_placeholder hexp name hk

theorem anyM_finds_none {f : TypeId → StateT (List TypeId) (Except Fault) Bool} {bound : Nat}
    (hf : ∀ id ∈ ids, ∀ seen, g.unmet seen < bound →
      ∃ seen', seen ⊆ seen' ∧ f id seen = .ok (false, seen')) {seen : List TypeId}
    (hseen : g.unmet seen < bound) :
    ∃ seen', seen ⊆ seen' ∧ ids.anyM f seen = .ok (false, seen') := by
  induction ids generalizing seen with
  | nil => exact ⟨seen, Subset.refl _, rfl⟩
  | cons id ids ih =>
    obtain ⟨seen₁, hsub, hrun⟩ := hf id mem_cons_self seen hseen
    obtain ⟨seen', hsub', hrest⟩ := ih (fun x hx => hf x (mem_cons_of_mem _ hx))
      (Nat.lt_of_le_of_lt (unmet_mono hsub) hseen)
    exact ⟨seen', Subset.trans hsub hsub', anyM_cons_eq_false.2 ⟨seen₁, hrun, hrest⟩⟩

/-- Nothing is found among types that are closed under the search and hold no placeholder. -/
theorem hasPlaceholder_eq_false {S : TypeId → Prop}
    (hS : ∀ x, S x → ∃ kind, g.kind x = .ok kind ∧ (∀ name, kind ≠ .placeholder name) ∧
      ∀ part ∈ kind.searched, S part) (hid : S id) : g.hasPlaceholder id = .ok false := by
  have hsearch : ∀ fuel id seen, S id → g.unmet seen < fuel →
      ∃ seen', seen ⊆ seen' ∧ g.searchWithin fuel id seen = .ok (false, seen') := by
    intro fuel
    induction fuel with
    | zero => exact fun _ _ _ hseen => absurd hseen (Nat.not_lt_zero _)
    | succ fuel ih =>
      intro id seen hid hseen
      by_cases hold : id ∈ seen
      · exact ⟨seen, Subset.refl _, searchWithin_of_mem hold⟩
      obtain ⟨kind, hk, hkind, hparts⟩ := hS id hid
      have hnew := unmet_cons (lt_size_of_kind hk) hold
      have hrest : g.unmet (id :: seen) < fuel := by omega
      obtain ⟨seen', hsub, hrun⟩ := anyM_finds_none
        (fun part hpart seen => ih part seen (hparts part hpart)) hrest
      refine ⟨seen', Subset.trans (subset_cons_self _ _) hsub, ?_⟩
      rw [searchWithin_parts hold hk hkind, hrun]
  obtain ⟨seen, -, hrun⟩ := hsearch g.depth id [] hid (Nat.lt_succ_of_le (g.unmet_le []))
  rw [hasPlaceholder, StateT.run', hrun]
  rfl

/-- The search finds something exactly if something can be reached. -/
theorem hasPlaceholder_cases (hg : g.Knotted) (hid : id < g.size) :
    g.hasPlaceholder id = .ok false ∧ (∀ name, ¬ g.Mentions id name) ∨
      g.hasPlaceholder id = .ok true ∧ ∃ name, g.Mentions id name := by
  by_cases hmention : ∃ name, g.Mentions id name
  · obtain ⟨name, hname⟩ := hmention
    obtain ⟨found, hfound, -⟩ := (Embeds.self g).hasPlaceholder hg.toSound hid
    cases found with
    | true => exact .inr ⟨hfound, name, hname⟩
    | false => exact absurd hname (not_mentions_of_hasPlaceholder hg hfound name)
  · rw [not_exists] at hmention
    refine .inl ⟨hasPlaceholder_eq_false (S := g.Reaches id) (fun x hx => ?_) .refl, hmention⟩
    have hlt : x < g.size := by
      rcases Relation.ReflTransGen.cases_tail hx with rfl | ⟨y, -, hpart⟩
      · exact hid
      · exact hg.closed y x hpart
    obtain ⟨kind, hk⟩ := exists_kind hlt
    refine ⟨kind, hk, ?_, fun part hp => hx.tail ⟨kind, hk, TypeKind.searched_subset kind hp⟩⟩
    rintro name rfl
    exact hmention name ⟨x, hx, hk⟩

end SlotCode.TypeGraph
