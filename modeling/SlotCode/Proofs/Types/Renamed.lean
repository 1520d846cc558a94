import SlotCode.Proofs.Lockstep
import SlotCode.Proofs.Types.Copying

/-!
# Matching and copying under other numbers

Whether two types match, and what placeholders stand for, is the same in a graph and in one that it is
embedded in (`Embeds.matchTypes`).  So is the instance of a type: each copy gets its number in step, and
the graphs stay embedded (`Embeds.instantiate`).
-/

namespace SlotCode

open List

variable {fuel fuel' : Nat} {e a id : TypeId} {seen : List TypeId}

def Bindings.rename (r : TypeId → TypeId) (b : Bindings) : Bindings :=
  b.map fun entry => (entry.1, r entry.2)

theorem Bindings.get?_rename (r : TypeId → TypeId) (b : Bindings) (name : String) :
    (b.rename r).get? name = (b.get? name).map r := by
  induction b with
  | nil => rfl
  | cons entry b ih =>
    obtain ⟨other, id⟩ := entry
    simp only [get?, rename, map_cons, lookup_cons] at ih ⊢
    cases name == other with
    | true => rfl
    | false => exact ih

theorem Bindings.insertNew_rename (r : TypeId → TypeId) (b : Bindings) (name : String) (id : TypeId) :
    (b.rename r).insertNew name (r id) = (b.insertNew name id).rename r := by
  rw [insertNew, insertNew, get?_rename, Option.isSome_map]
  split <;> rfl

/-- The state of a comparison in the other graph. -/
def Matching.rename (r : TypeId → TypeId) (m : Matching) : Matching :=
  { entered := m.entered.map (Prod.map r r), bindings := m.bindings.map (Bindings.rename r) }

namespace TypeGraph

variable {g g' : TypeGraph} {r : TypeId → TypeId}

/-! ## Matching -/

/-- How the comparison ends in the other graph. -/
def renameMatched (r : TypeId → TypeId) :
    EStateM.Result (Failure TypeError) Matching Unit →
      EStateM.Result (Failure TypeError) Matching Unit
  | .ok () state => .ok () (state.rename r)
  | .error failure state => .error failure (state.rename r)

section

variable (h : Embeds r 0 g g') (hg : g.Sound)

include h

theorem Embeds.eq_iff {b : TypeId} : r a = r b ↔ a = b :=
  ⟨h.inj (Nat.zero_le _) (Nat.zero_le _), congrArg r⟩

theorem Embeds.mem_entered_iff {entered : List (TypeId × TypeId)} :
    (r e, r a) ∈ entered.map (Prod.map r r) ↔ (e, a) ∈ entered := by
  constructor
  · intro hmem
    obtain ⟨⟨e', a'⟩, hmem, heq⟩ := mem_map.1 hmem
    obtain ⟨he, ha⟩ := Prod.mk.inj heq
    rwa [← h.eq_iff.1 he, ← h.eq_iff.1 ha]
  · exact fun hmem => mem_map.2 ⟨_, hmem, rfl⟩

include hg

theorem Embeds.mismatch (he : e < g.size) (ha : a < g.size) (sp sp' : Span) (state : Matching) :
    g'.mismatch (r e) (r a) sp sp' (state.rename r) =
      renameMatched r (g.mismatch e a sp sp' state) := by
  obtain ⟨te, hte, hte'⟩ := h.text hg he
  obtain ⟨ta, hta, hta'⟩ := h.text hg ha
  simp only [TypeGraph.mismatch, hte, hte', hta, hta', query_ok_bind]
  rfl

theorem Embeds.tupleArity (he : e < g.size) (ha : a < g.size) (sp sp' : Span) (state : Matching) :
    g'.tupleArity (r e) (r a) sp sp' (state.rename r) =
      renameMatched r (g.tupleArity e a sp sp' state) := by
  obtain ⟨te, hte, hte'⟩ := h.text hg he
  obtain ⟨ta, hta, hta'⟩ := h.text hg ha
  simp only [TypeGraph.tupleArity, hte, hte', hta, hta', query_ok_bind]
  rfl

omit h hg in
theorem forM_renameMatched {f f' : TypeId × TypeId → EStateM (Failure TypeError) Matching Unit}
    {pairs : List (TypeId × TypeId)} (hf : ∀ pair ∈ pairs, ∀ state,
      (∀ fault after, f pair state ≠ .error (.fault fault) after) →
      f' (Prod.map r r pair) (state.rename r) = renameMatched r (f pair state))
    {state : Matching} (hok : ∀ fault after, pairs.forM f state ≠ .error (.fault fault) after) :
    (pairs.map (Prod.map r r)).forM f' (state.rename r) = renameMatched r (pairs.forM f state) := by
  induction pairs generalizing state with
  | nil => rfl
  | cons pair pairs ih =>
    rw [forM_cons_apply] at hok
    rw [map_cons, forM_cons_apply, forM_cons_apply]
    simp only [bind, EStateM.bind] at hok ⊢
    have hhead := hf pair mem_cons_self state
    cases hrun : f pair state with
    | ok u t =>
      simp only [hrun] at hok hhead ⊢
      rw [hhead nofun]
      exact ih (fun p hp => hf p (mem_cons_of_mem _ hp)) hok
    | error failure t =>
      simp only [hrun] at hok hhead ⊢
      rw [hhead hok]
      rfl

/-- A comparison that ends goes the same way in the other graph. -/
theorem Embeds.matchWithin (hf : fuel ≤ fuel') (he : e < g.size) (ha : a < g.size) (sp sp' : Span)
    (state : Matching)
    (hok : ∀ fault after, g.matchWithin fuel e a sp sp' state ≠ .error (.fault fault) after) :
    g'.matchWithin fuel' (r e) (r a) sp sp' (state.rename r) =
      renameMatched r (g.matchWithin fuel e a sp sp' state) := by
  induction fuel generalizing fuel' e a sp sp' state with
  | zero => exact absurd rfl (hok .endless state)
  | succ fuel ih =>
    obtain ⟨fuel', rfl⟩ : ∃ n, fuel' = n + 1 := ⟨fuel' - 1, by omega⟩
    by_cases hea : e = a
    · simp only [TypeGraph.matchWithin, if_pos hea, if_pos (congrArg r hea)]
      rfl
    have hea' : r e ≠ r a := fun heq => hea (h.eq_iff.1 heq)
    obtain ⟨ne, hne⟩ := exists_node he
    obtain ⟨na, hna⟩ := exists_node ha
    obtain ⟨oe, hne', hoe⟩ := h.node (Nat.zero_le _) hne
    obtain ⟨oa, hna', hoa⟩ := h.node (Nat.zero_le _) hna
    have hke : g.kind e = .ok ne.kind := kind_eq_ok_iff.2 ⟨ne, hne, rfl⟩
    have hka : g.kind a = .ok na.kind := kind_eq_ok_iff.2 ⟨na, hna, rfl⟩
    have hke' := h.kind (Nat.zero_le _) hke
    -- From here both comparisons take the same branch.
    simp only [TypeGraph.matchWithin, if_neg hea, hna, hne, hke, query_ok_bind] at hok
    simp only [TypeGraph.matchWithin, if_neg hea, if_neg hea', hna, hna', hne, hne', hke, hke',
      query_ok_bind]
    cases hak : na.kind with
    | tuple as =>
      rw [hak] at hka hoa
      simp only [hak, TypeKind.rename, hoa rfl, query_ok_bind] at hok ⊢
      cases hek : ne.kind with
      | tuple es =>
        rw [hek] at hke hoe
        simp only [hek, hoe rfl, length_map] at hok ⊢
        by_cases hlen : es.length = as.length
        · simp only [hlen, if_true] at hok ⊢
          rw [zip_map]
          refine forM_renameMatched (fun pair hpair state => ?_) hok
          obtain ⟨hp, hq⟩ := part_of_mem_zip hke hka hpair
          exact ih (Nat.le_of_succ_le_succ hf) (hg.closed _ _ hp) (hg.closed _ _ hq) _ _ state
        · simp only [hlen, if_false]
          exact h.tupleArity hg he ha _ _ _
      | void | integer | boolean | string | box p | list i p | placeholder n | function ps r nat =>
        exact h.mismatch hg he ha _ _ _
    | box q | list i q =>
      rw [hak] at hka
      simp only [hak, TypeKind.rename, query_ok_bind, get_bind] at hok ⊢
      cases hek : ne.kind with
      | placeholder n =>
        cases hb : state.bindings with
        | none =>
          simp only [Matching.rename, hb, Option.map_none]
          have hmis := h.mismatch hg he ha sp sp' state
          rwa [Matching.rename, hb] at hmis
        | some bindings =>
          simp only [Matching.rename, hb, Option.map_some, Bindings.insertNew_rename]
          rfl
      | box p | list j p =>
        rw [hek] at hke
        simp only [hek] at hok
        by_cases hmem : (e, a) ∈ state.entered
        · have hmem' : (r e, r a) ∈ (state.rename r).entered := h.mem_entered_iff.2 hmem
          simp only [if_pos hmem, if_pos hmem']
          rfl
        · have hmem' : (r e, r a) ∉ (state.rename r).entered := mt h.mem_entered_iff.1 hmem
          simp only [if_neg hmem, set_bind] at hok
          simp only [if_neg hmem, if_neg hmem', set_bind]
          exact ih (Nat.le_of_succ_le_succ hf) (hg.lt_of_payload hke rfl) (hg.lt_of_payload hka rfl)
            _ _ _ hok
      | void | integer | boolean | string | tuple es | function ps r nat =>
        exact h.mismatch hg he ha _ _ _
    | placeholder n =>
      simp only [TypeKind.rename_placeholder, query_ok_bind]
      by_cases hek : ne.kind = .placeholder n
      · simp only [hek, TypeKind.rename_placeholder, if_true]
        rfl
      · have hek' : ne.kind.rename r ≠ .placeholder n := by
          cases hk : ne.kind <;> simp [TypeKind.rename, hk] at hek ⊢
          exact hek
        simp only [if_neg hek, if_neg hek']
        exact h.mismatch hg he ha _ _ _
    | void | integer | boolean | string | function ps r nat => exact h.mismatch hg he ha _ _ _

theorem Embeds.matchTypes (he : e < g.size) (ha : a < g.size) (sp sp' : Span) (b : Option Bindings) :
    Lockstep (fun b b' => b' = b.map (Bindings.rename r)) (fun _ _ _ => True)
      (g.matchTypes (some e) a sp sp' b)
      (g'.matchTypes (some (r e)) (r a) sp sp' (b.map (Bindings.rename r))) := by
  have hdepth : g.matchDepth ≤ g'.matchDepth := by
    have hsquare := Nat.succ_le_succ (Nat.mul_le_mul h.size_le h.size_le)
    exact Nat.mul_le_mul hsquare hsquare
  have hok := matchWithin_ne_fault hg g.matchDepth e a he ha sp sp' ⟨[], b⟩
    (matchDepth_enough hg ha)
  have hrun := h.matchWithin hg hdepth he ha sp sp' ⟨[], b⟩ hok
  change g'.matchWithin g'.matchDepth (r e) (r a) sp sp' ⟨[], b.map (Bindings.rename r)⟩ = _ at hrun
  simp only [TypeGraph.matchTypes, hrun]
  cases hm : g.matchWithin g.matchDepth e a sp sp' ⟨[], b⟩ with
  | ok u state => exact ⟨rfl, trivial⟩
  | error failure state =>
    cases failure with
    | error cause => exact rfl
    | fault what => exact absurd hm (hok what state)

end

/-! ## Copying -/

/-- Two copies are under way in step, out of the graph `g` and out of one that it is embedded in. -/
structure CopiesAlike (r : TypeId → TypeId) (g : TypeGraph) (s s' : Instantiation) : Prop where
  kept : g.KeptIn s.graph
  embeds : Embeds r 0 s.graph s'.graph
  copies : s'.copies = s.copies.map (Prod.map r r)

/-- The copies have gone on from `s`. -/
def CopiesOn (r : TypeId → TypeId) (g : TypeGraph) (s : Instantiation) (t t' : Instantiation) : Prop :=
  CopiesAlike r g t t' ∧ s.graph.KeptIn t.graph ∧ copied s ⊆ copied t

section

variable {s s' t t' : Instantiation}

theorem CopiesAlike.refl (h : CopiesAlike r g s s') : CopiesOn r g s s s' :=
  ⟨h, .refl _, Subset.refl _⟩

theorem CopiesOn.trans {s₁ : Instantiation} (hkept : s.graph.KeptIn s₁.graph)
    (hsub : copied s ⊆ copied s₁) (h : CopiesOn r g s₁ t t') : CopiesOn r g s t t' :=
  ⟨h.1, hkept.trans h.2.1, Subset.trans hsub h.2.2⟩

theorem CopiesAlike.lookup (h : CopiesAlike r g s s') (id : TypeId) :
    s'.copies.lookup (r id) = (s.copies.lookup id).map r := by
  rw [h.copies]
  induction s.copies with
  | nil => rfl
  | cons copy copies ih =>
    obtain ⟨a, c⟩ := copy
    have heq : (r id == r a) = (id == a) := by
      rw [Bool.eq_iff_iff, beq_iff_eq, beq_iff_eq]
      exact h.embeds.eq_iff
    simp only [map_cons, Prod.map_apply, lookup_cons, heq, ih]
    cases id == a <;> rfl

theorem mapM_copiesAlike {f f' : TypeId → Instantiation.Step TypeId} {n : Nat} {ids : List TypeId}
    (hf : ∀ id ∈ ids, ∀ s s', CopiesAlike r g s s' → g.unmet (copied s) ≤ n →
      Lockstep (CopiesOn r g s) (fun _ c c' => c' = r c) (f id s) (f' (r id) s'))
    (h : CopiesAlike r g s s') (hn : g.unmet (copied s) ≤ n) :
    Lockstep (CopiesOn r g s) (fun _ cs cs' => cs' = cs.map r) (ids.mapM f s)
      ((ids.map r).mapM f' s') := by
  induction ids generalizing s s' with
  | nil => exact ⟨h.refl, rfl⟩
  | cons id ids ih =>
    simp only [map_cons, mapM_cons]
    refine (hf id mem_cons_self s s' h hn).bind fun c c' t t' ht hc => ?_
    obtain ⟨halike, hkept, hsub⟩ := ht
    have hrest := ih (fun x hx => hf x (mem_cons_of_mem _ hx)) halike
      ((unmet_mono hsub).trans hn)
    refine hrest.bind fun cs cs' u u' hu hcs => ?_
    rw [hc, hcs]
    exact ⟨hu.trans hkept hsub, rfl⟩

section

variable (h : CopiesAlike r g s s')

include h

/-- A new node is added in both graphs. -/
theorem CopiesAlike.add (kind : TypeKind) (origin : Option Span) :
    CopiesAlike r g ⟨(s.graph.add kind origin).2, s.copies⟩
      ⟨(s'.graph.add (kind.rename r) origin).2, s'.copies⟩ :=
  ⟨h.kept.trans (keptIn_add _ _ _), h.embeds.add kind origin, h.copies⟩

/-- A new node is added in both graphs and noted as a copy. -/
theorem CopiesAlike.addNoted (id : TypeId) (kind : TypeKind) (origin : Option Span) :
    CopiesAlike r g ⟨(s.graph.add kind origin).2, (id, s.graph.size) :: s.copies⟩
      ⟨(s'.graph.add (kind.rename r) origin).2, (r id, s'.graph.size) :: s'.copies⟩ :=
  ⟨h.kept.trans (keptIn_add _ _ _), h.embeds.add kind origin, by
    rw [h.copies, h.embeds.size]
    rfl⟩

/-- A copy is finished in both graphs. -/
theorem CopiesAlike.fill {c : TypeId} {origin : Option Span} (hc : s.graph.node c = .ok ⟨.void, origin⟩)
    (hnew : g.size ≤ c) (kind : TypeKind) :
    CopiesAlike r g ⟨s.graph.setKind c kind, s.copies⟩
      ⟨s'.graph.setKind (r c) (kind.rename r), s'.copies⟩ := by
  refine ⟨h.kept.setKind hnew kind, h.embeds.setKind (Nat.zero_le _) (fun node hn => ?_) kind, h.copies⟩
  rw [hc] at hn
  cases hn
  rfl

theorem CopiesAlike.begin (id : TypeId) (origin : Option Span)
    (ht : CopiesOn r g ⟨(s.graph.add .void origin).2, (id, s.graph.size) :: s.copies⟩ t t')
    (kind : TypeKind) :
    CopiesOn r g s ⟨t.graph.setKind s.graph.size kind, t.copies⟩
      ⟨t'.graph.setKind (r s.graph.size) (kind.rename r), t'.copies⟩ := by
  obtain ⟨halike, hkept, hsub⟩ := ht
  have hvoid : t.graph.node s.graph.size = .ok ⟨.void, origin⟩ := by
    refine hkept _ _ ?_
    rw [node_add, if_pos rfl]
  refine ⟨halike.fill hvoid h.kept.extends.size_le kind, ?_, ?_⟩
  · exact ((keptIn_add _ _ _).trans hkept).setKind (Nat.le_refl _) kind
  · exact Subset.trans (subset_cons_self _ _) hsub

end

/-- Between two boxes the rank of the type falls, and no box is copied twice. -/
theorem copyWithin_lockstep (hg : g.Regular) (bindings : Bindings) (span : Span) (hf : fuel ≤ fuel')
    (hid : g.IsValue id) (h : CopiesAlike r g s s')
    (hfuel : g.unmet (copied s) * (g.size + 1) + g.rank id < fuel) :
    Lockstep (CopiesOn r g s) (fun _ c c' => c' = r c)
      (Instantiation.copyWithin bindings span fuel id s)
      (Instantiation.copyWithin (bindings.rename r) span fuel' (r id) s') := by
  induction fuel generalizing fuel' id s s' with
  | zero => exact absurd hfuel (Nat.not_lt_zero _)
  | succ fuel ih =>
    obtain ⟨fuel', rfl⟩ : ∃ n, fuel' = n + 1 := ⟨fuel' - 1, by omega⟩
    have hf' := Nat.le_of_succ_le_succ hf
    have hlook' := h.lookup id
    simp only [Instantiation.copyWithin, get_bind]
    cases hlook : s.copies.lookup id with
    | some copy =>
      rw [hlook] at hlook'
      simp only [hlook', Option.map_some]
      exact ⟨h.refl, rfl⟩
    | none =>
      rw [hlook] at hlook'
      obtain ⟨kind, hk, hvalue⟩ := hid
      obtain ⟨node, hnode, rfl⟩ := kind_eq_ok_iff.1 hk
      have hnode₁ := h.kept id node hnode
      have hnode' := h.embeds.node_value (Nat.zero_le _) hnode₁ hvalue
      have hparts : ∀ part ∈ node.kind.parts, g.IsValue part := fun part hp =>
        hg.parts id part ⟨_, hk, hp⟩
      -- Once the type is noted, one type fewer is left to copy.
      have hnoted : ∀ part, g.IsValue part → ∀ t : Instantiation, id :: copied s ⊆ copied t →
          g.unmet (copied t) * (g.size + 1) + g.rank part < fuel := fun part hpart t hsub =>
        rank_lt_of_noted hg.toSound (lt_size_of_kind hk) hpart.lt_size hlook hfuel hsub
      simp only [hlook', Option.map_none, hnode₁, hnode', query_ok_bind]
      cases hkind : node.kind with
      | void | integer | boolean | string => exact ⟨h.refl, rfl⟩
      | tuple items =>
        rw [hkind] at hk hparts
        have hitem : ∀ item ∈ items, ∀ t t', CopiesAlike r g t t' →
            g.unmet (copied t) ≤ g.unmet (copied s) →
            Lockstep (CopiesOn r g t) (fun _ c c' => c' = r c)
              (Instantiation.copyWithin bindings span fuel item t)
              (Instantiation.copyWithin (bindings.rename r) span fuel' (r item) t') := by
          intro item hitem t t' ht hn
          have hrank := rank_lt_of_inner hg.toSound ⟨_, hk, hitem⟩
          have hmul := Nat.mul_le_mul_right (g.size + 1) hn
          exact ih hf' (hparts item hitem) ht (by omega)
        refine (mapM_copiesAlike hitem h (Nat.le_refl _)).bind fun cs cs' t t' ht hcs => ?_
        rw [hcs]
        obtain ⟨halike, hkept, hsub⟩ := ht
        exact ⟨⟨halike.add (.tuple cs) node.origin, hkept.trans (keptIn_add _ _ _), hsub⟩,
          halike.embeds.size⟩
      | box payload =>
        rw [hkind] at hparts
        have hpayload := hparts payload mem_cons_self
        have hbegin := h.addNoted id .void node.origin
        simp only [add_bind, note_bind]
        refine (ih hf' hpayload hbegin (hnoted _ hpayload _ (Subset.refl _))).bind
          fun q q' t t' ht hq => ?_
        rw [hq, h.embeds.size]
        exact ⟨h.begin id node.origin ht (.box q), rfl⟩
      | list item payload =>
        rw [hkind] at hparts
        have hitem := hparts item mem_cons_self
        have hpayload := hparts payload (mem_cons_of_mem _ mem_cons_self)
        have hbegin := h.addNoted id .void node.origin
        simp only [add_bind, note_bind]
        refine (ih hf' hitem hbegin (hnoted _ hitem _ (Subset.refl _))).bind
          fun i i' t t' ht hi => ?_
        refine (ih hf' hpayload ht.1 (hnoted _ hpayload _ ht.2.2)).bind fun q q' u u' hu hq => ?_
        rw [hi, hq, h.embeds.size]
        exact ⟨h.begin id node.origin (hu.trans ht.2.1 ht.2.2) (.list i q), rfl⟩
      | placeholder name =>
        have hget := Bindings.get?_rename r bindings name
        cases hbound : bindings.get? name with
        | none =>
          rw [hbound] at hget
          simp only [TypeKind.rename_placeholder, hbound, hget, Option.map_none]
          exact rfl
        | some bound =>
          rw [hbound] at hget
          simp only [TypeKind.rename_placeholder, hbound, hget, Option.map_some, add_bind, note_bind]
          exact ⟨⟨h.addNoted id (.box bound) node.origin, keptIn_add _ _ _,
            subset_cons_self _ _⟩, h.embeds.size⟩
      | function params result native =>
        rw [hkind] at hvalue
        cases hvalue

/-- A type has the same instance in both graphs. -/
theorem Embeds.instantiate (h : Embeds r 0 g g') (hg : g.Regular) (hid : g.IsValue id)
    (bindings : Bindings) (span : Span) :
    Lockstep (fun t t' => Embeds r 0 t t') (fun _ c c' => c' = r c)
      (TypeGraph.instantiate id bindings span g)
      (TypeGraph.instantiate (r id) (bindings.rename r) span g') := by
  obtain ⟨found, hfound, hfound'⟩ := h.hasPlaceholder hg.toSound hid.lt_size
  simp only [TypeGraph.instantiate, hfound, hfound']
  cases found with
  | false => exact ⟨h, rfl⟩
  | true =>
    have hdepth : g.copyDepth ≤ g'.copyDepth :=
      Nat.mul_le_mul (Nat.succ_le_succ h.size_le) (Nat.succ_le_succ h.size_le)
    have hfuel := rank_lt_copyDepth hg.toSound hid.lt_size
    have hstart : CopiesAlike r g ⟨g, []⟩ ⟨g', []⟩ := ⟨.refl g, h, rfl⟩
    rcases (copyWithin_lockstep hg bindings span hdepth hid hstart hfuel).cases with
      ⟨c, t, c', t', hrun, hrun', ht, hc⟩ | ⟨e, t, t', hrun, hrun'⟩
    · simp only [hrun, hrun']
      exact ⟨ht.1.embeds, hc⟩
    · simp only [hrun, hrun']
      exact rfl

end

end TypeGraph

end SlotCode
