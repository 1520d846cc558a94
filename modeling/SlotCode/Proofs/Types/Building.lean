import SlotCode.Proofs.Types.Alike

/-!
# Growing graphs

A graph grows by new nodes; what it said about the nodes it had stays true (`Extends`).  A *regular*
graph is one that growing in the ways of the library leads to: it is sound, its first four nodes are
the unit types, functions are never parts of other types, and a list holds the pair of an item and
itself.

    l : list item p        p : tuple [first, l]        item and first differ at most in their tuples

`Regular.extend` says what new nodes must be like for a regular graph to stay so.  The nodes of a
written type are (`resolve_grows`).
-/

namespace SlotCode

open List

variable {id : TypeId} {kind : TypeKind}

def TypeKind.isFunction : TypeKind → Bool
  | .function _ _ _ => true
  | _ => false

namespace TypeGraph

variable {g g' : TypeGraph}

/-! ## Extension -/

/-- Every node of `g` is the same node of `g'`. -/
def Extends (g g' : TypeGraph) : Prop :=
  ∀ id kind, g.kind id = .ok kind → g'.kind id = .ok kind

theorem Extends.refl (g : TypeGraph) : g.Extends g :=
  fun _ _ h => h

section

variable (h : g.Extends g')

include h

theorem Extends.trans {g'' : TypeGraph} (h' : g'.Extends g'') : g.Extends g'' :=
  fun id kind hk => h' id kind (h id kind hk)

theorem Extends.lt_size (hid : id < g.size) : id < g'.size := by
  obtain ⟨kind, hk⟩ := exists_kind hid
  exact lt_size_of_kind (h id kind hk)

theorem Extends.size_le : g.size ≤ g'.size := by
  by_contra hlt
  exact Nat.lt_irrefl _ (h.lt_size (Nat.lt_of_not_le hlt))

/-- A node that was there is no other node now. -/
theorem Extends.kind_of_lt (hid : id < g.size) (hk : g'.kind id = .ok kind) : g.kind id = .ok kind := by
  obtain ⟨old, ho⟩ := exists_kind hid
  rw [kind_unique hk (h id old ho)]
  exact ho

/-- Types that are alike stay so as the graph grows. -/
theorem Alike.extend {free : Bool} {e a : TypeId} (hea : g.Alike free e a) : g'.Alike free e a := by
  refine ⟨g.Alike free, fun x y hxy => ?_, hea⟩
  cases hxy.agree with
  | same => exact .same x
  | tuple he ha hparts => exact .tuple (h _ _ he) (h _ _ ha) hparts
  | box he ha hp hq hpart => exact .box (h _ _ he) (h _ _ ha) hp hq hpart
  | placeholder he ha => exact .placeholder (h _ _ he) (h _ _ ha)
  | bound hfree he ha hq => exact .bound hfree (h _ _ he) (h _ _ ha) hq

theorem Retupled.extend {a b : TypeId} (hab : g.Retupled a b) : g'.Retupled a b := by
  refine ⟨g.Retupled, fun x y hxy => hxy.sameItems.imp_right ?_, hab⟩
  rintro ⟨xs, ys, hx, hy, hitems⟩
  exact ⟨xs, ys, h _ _ hx, h _ _ hy, hitems⟩

end

/-! ## Types of values -/

/-- The node is there and is not the type of a function. -/
def IsValue (g : TypeGraph) (id : TypeId) : Prop :=
  ∃ kind, g.kind id = .ok kind ∧ kind.isFunction = false

theorem IsValue.lt_size (h : g.IsValue id) : id < g.size := by
  obtain ⟨kind, hk, -⟩ := h
  exact lt_size_of_kind hk

theorem IsValue.extend (h : g.Extends g') (hid : g.IsValue id) : g'.IsValue id := by
  obtain ⟨kind, hk, hf⟩ := hid
  exact ⟨kind, h id kind hk, hf⟩

/-! ## Regular graphs -/

/-- The invariant of graphs that are built step by step. -/
structure Regular (g : TypeGraph) : Prop extends Sound g where
  void : g.kind .void = .ok .void
  integer : g.kind .integer = .ok .integer
  boolean : g.kind .boolean = .ok .boolean
  string : g.kind .string = .ok .string
  parts : ∀ id part, g.Part id part → g.IsValue part
  pairs : ∀ id item payload, g.kind id = .ok (.list item payload) →
    ∃ first, g.kind payload = .ok (.tuple [first, id]) ∧ g.Retupled item first

theorem Regular.lists (hg : g.Regular) (id item payload : TypeId)
    (hk : g.kind id = .ok (.list item payload)) :
    ∃ first, g.kind payload = .ok (.tuple [first, id]) ∧ g.Alike false item first := by
  obtain ⟨first, hpair, hitem⟩ := hg.pairs id item payload hk
  exact ⟨first, hpair, hitem.alike⟩

/-- It is enough that no path of inner parts is endless. -/
theorem Sound.of_acc (hclosed : ∀ id part, g.Part id part → part < g.size)
    (hacc : ∀ id, id < g.size → Acc (fun part id => g.Inner id part) id) : g.Sound := by
  refine ⟨hclosed, fun id hcycle => ?_⟩
  have hid : id < g.size := by
    obtain ⟨part, ⟨kind, hk, -⟩, -⟩ := Relation.TransGen.head'_iff.1 hcycle
    exact lt_size_of_kind hk
  have hloop := Relation.transGen_swap.2 hcycle
  induction (hacc id hid).transGen with
  | intro id _ ih => exact ih id hloop hcycle hid hloop

theorem Sound.acc_extend (hg : g.Sound) (h : g.Extends g') (hid : id < g.size) :
    Acc (fun part id => g'.Inner id part) id := by
  induction hr : g.rank id using Nat.strong_induction_on generalizing id with
  | _ r ih =>
    refine Acc.intro id fun part hpart => ?_
    obtain ⟨kind, hk, hp⟩ := hpart
    have hinner : g.Inner id part := ⟨kind, h.kind_of_lt hid hk, hp⟩
    exact ih _ (hr ▸ rank_lt_of_inner hg hinner) (hg.closed _ _ hinner.part) rfl

/-- Nodes that were there reach nothing that is new. -/
theorem Extends.reaches_of_lt (h : g.Extends g') (hg : g.Sound) {target : TypeId}
    (hid : id < g.size) (hr : g'.Reaches id target) : g.Reaches id target ∧ target < g.size := by
  induction hr with
  | refl => exact ⟨.refl, hid⟩
  | tail _ hpart ih =>
    obtain ⟨kind, hk, hmem⟩ := hpart
    have hpart' : g.Part _ _ := ⟨kind, h.kind_of_lt ih.2 hk, hmem⟩
    exact ⟨ih.1.tail hpart', hg.closed _ _ hpart'⟩

/-- A regular graph stays regular if the new nodes have values for parts, start no endless way down,
and are lists only of the regular kind. -/
theorem Regular.extend (hg : g.Regular) (h : g.Extends g')
    (hparts : ∀ id part, g.size ≤ id → g'.Part id part → g'.IsValue part)
    (hacc : ∀ id, g.size ≤ id → id < g'.size → Acc (fun part id => g'.Inner id part) id)
    (hpairs : ∀ id item payload, g.size ≤ id → g'.kind id = .ok (.list item payload) →
      ∃ first, g'.kind payload = .ok (.tuple [first, id]) ∧ g'.Retupled item first) :
    g'.Regular := by
  have hvalues : ∀ id part, g'.Part id part → g'.IsValue part := by
    rintro id part ⟨kind, hk, hp⟩
    rcases Nat.lt_or_ge id g.size with hid | hid
    · exact (hg.parts id part ⟨kind, h.kind_of_lt hid hk, hp⟩).extend h
    · exact hparts id part hid ⟨kind, hk, hp⟩
  refine { Sound.of_acc (fun id part hp => (hvalues id part hp).lt_size) fun id hid => ?_ with
    void := h _ _ hg.void
    integer := h _ _ hg.integer
    boolean := h _ _ hg.boolean
    string := h _ _ hg.string
    parts := hvalues
    pairs := fun id item payload hk => ?_ }
  · rcases Nat.lt_or_ge id g.size with hold | hnew
    · exact hg.toSound.acc_extend h hold
    · exact hacc id hnew hid
  · rcases Nat.lt_or_ge id g.size with hold | hnew
    · obtain ⟨first, hp, hitem⟩ := hg.pairs id item payload (h.kind_of_lt hold hk)
      exact ⟨first, h _ _ hp, hitem.extend h⟩
    · exact hpairs id item payload hnew hk

/-! ## New nodes -/

theorem node_add (g : TypeGraph) (kind : TypeKind) (origin : Option Span) (id : TypeId) :
    (g.add kind origin).2.node id = if id = g.size then .ok ⟨kind, origin⟩ else g.node id := by
  simp only [add, TypeGraph.node, Array.getElem?_push]
  by_cases h : id = g.size
  · rw [if_pos h, if_pos (show id = g.nodes.size from h)]
  · rw [if_neg h, if_neg (show id ≠ g.nodes.size from h)]

theorem node_setKind (g : TypeGraph) (id : TypeId) (kind : TypeKind) (other : TypeId) :
    (g.setKind id kind).node other =
      if other = id then (g.node other).map fun node => { node with kind := kind }
      else g.node other := by
  simp only [setKind, TypeGraph.node, Array.getElem?_modify]
  by_cases h : other = id
  · rw [if_pos h, if_pos h.symm]
    cases g.nodes[other]? <;> rfl
  · rw [if_neg h, if_neg (Ne.symm h)]

theorem kind_add (g : TypeGraph) (kind : TypeKind) (origin : Option Span) (id : TypeId) :
    (g.add kind origin).2.kind id = if id = g.size then .ok kind else g.kind id := by
  rw [TypeGraph.kind, node_add]
  split <;> rfl

theorem kind_setKind (g : TypeGraph) (hid : id < g.size) (kind : TypeKind) (other : TypeId) :
    (g.setKind id kind).kind other = if other = id then .ok kind else g.kind other := by
  rw [TypeGraph.kind, node_setKind]
  split
  · next h =>
    obtain ⟨node, hn⟩ := exists_node (h ▸ hid)
    rw [hn]
    rfl
  · rfl

theorem size_add (g : TypeGraph) (kind : TypeKind) (origin : Option Span) :
    (g.add kind origin).2.size = g.size + 1 :=
  Array.size_push _

theorem size_setKind (g : TypeGraph) (id : TypeId) (kind : TypeKind) :
    (g.setKind id kind).size = g.size := by
  simp [setKind, size]

theorem extends_add (g : TypeGraph) (kind : TypeKind) (origin : Option Span) :
    g.Extends (g.add kind origin).2 := by
  intro id old hk
  rw [kind_add, if_neg (Nat.ne_of_lt (lt_size_of_kind hk))]
  exact hk

/-- A node that is no list may be added if its parts are values. -/
theorem Regular.add (hg : g.Regular) (origin : Option Span)
    (hparts : ∀ part ∈ kind.parts, g.IsValue part) (hlist : kind.item? = none) :
    (g.add kind origin).2.Regular := by
  have hext := extends_add g kind origin
  have hnew : ∀ id k, g.size ≤ id → (g.add kind origin).2.kind id = .ok k → k = kind := by
    intro id k hid hk
    have hlt := lt_size_of_kind hk
    rw [size_add] at hlt
    have heq : id = g.size := Nat.le_antisymm (Nat.le_of_lt_succ hlt) hid
    rw [kind_add, if_pos heq] at hk
    exact (Except.ok.inj hk).symm
  refine hg.extend hext ?_ ?_ ?_
  · rintro id part hid ⟨k, hk, hp⟩
    cases hnew id k hid hk
    exact (hparts part hp).extend hext
  · intro id hid _
    refine Acc.intro id ?_
    rintro part ⟨k, hk, hp⟩
    cases hnew id k hid hk
    exact hg.toSound.acc_extend hext (hparts part (kind.innerParts_subset hp)).lt_size
  · intro id item payload hid hk
    cases hnew id _ hid hk
    cases hlist

/-- A list is two nodes that mention each other. -/
theorem kind_addList (g : TypeGraph) (item : TypeId) (origin : Option Span) (id : TypeId) :
    (g.addList item origin).2.kind id =
      if id = g.size then .ok (.list item (g.size + 1))
      else if id = g.size + 1 then .ok (.tuple [item, g.size]) else g.kind id := by
  have hlt : g.size < ((g.add .void origin).2.add (.tuple [item, g.size]) origin).2.size := by
    rw [size_add, size_add]
    omega
  have heq : (g.addList item origin).2 =
      ((g.add .void origin).2.add (.tuple [item, g.size]) origin).2.setKind g.size
        (.list item (g.size + 1)) := by
    simp only [addList, add, size, Array.size_push]
  rw [heq, kind_setKind _ hlt, kind_add, kind_add, size_add]
  by_cases h : id = g.size
  · rw [if_pos h, if_pos h]
  · rw [if_neg h, if_neg h, if_neg h]

theorem size_addList (g : TypeGraph) (item : TypeId) (origin : Option Span) :
    (g.addList item origin).2.size = g.size + 2 := by
  simp only [addList, size_setKind, size_add]

theorem extends_addList (g : TypeGraph) (item : TypeId) (origin : Option Span) :
    g.Extends (g.addList item origin).2 := by
  intro id old hk
  have hlt := lt_size_of_kind hk
  have hlist : id ≠ g.size := Nat.ne_of_lt hlt
  have hpair : id ≠ g.size + 1 := Nat.ne_of_lt (Nat.lt_succ_of_lt hlt)
  rw [kind_addList, if_neg hlist, if_neg hpair]
  exact hk

theorem Regular.addList (hg : g.Regular) {item : TypeId} (origin : Option Span)
    (hitem : g.IsValue item) : (g.addList item origin).2.Regular := by
  have hext := extends_addList g item origin
  have hlist : (g.addList item origin).2.kind g.size = .ok (.list item (g.size + 1)) := by
    rw [kind_addList, if_pos rfl]
  have hpair : (g.addList item origin).2.kind (g.size + 1) = .ok (.tuple [item, g.size]) := by
    rw [kind_addList, if_neg (Nat.succ_ne_self _), if_pos rfl]
  have hnew : ∀ id, g.size ≤ id → id < (g.addList item origin).2.size →
      id = g.size ∨ id = g.size + 1 := by
    intro id hid hlt
    rw [size_addList] at hlt
    omega
  have hacc := hg.toSound.acc_extend hext hitem.lt_size
  have hacclist : Acc (fun part id => (g.addList item origin).2.Inner id part) g.size := by
    refine Acc.intro _ ?_
    rintro part ⟨k, hk, hp⟩
    cases kind_unique hk hlist
    cases mem_singleton.1 hp
    exact hacc
  refine hg.extend hext ?_ ?_ ?_
  · rintro id part hid ⟨k, hk, hp⟩
    rcases hnew id hid (lt_size_of_kind hk) with rfl | rfl
    · cases kind_unique hk hlist
      rcases mem_pair.1 hp with rfl | rfl
      · exact hitem.extend hext
      · exact ⟨_, hpair, rfl⟩
    · cases kind_unique hk hpair
      rcases mem_pair.1 hp with rfl | rfl
      · exact hitem.extend hext
      · exact ⟨_, hlist, rfl⟩
  · intro id hid hlt
    rcases hnew id hid hlt with rfl | rfl
    · exact hacclist
    · refine Acc.intro _ ?_
      rintro part ⟨k, hk, hp⟩
      cases kind_unique hk hpair
      rcases mem_pair.1 hp with rfl | rfl
      · exact hacc
      · exact hacclist
  · intro id item' payload hid hk
    rcases hnew id hid (lt_size_of_kind hk) with rfl | rfl
    · cases kind_unique hk hlist
      exact ⟨item, hpair, .refl _ _⟩
    · cases kind_unique hk hpair

/-- Unit types have no parts. -/
theorem regular_initial : initial.Regular := by
  have hkind : ∀ id kind, initial.kind id = .ok kind → kind.parts = [] := by
    intro id kind hk
    have hid := lt_size_of_kind hk
    change id < 4 at hid
    match id, hid with
    | 0, _ | 1, _ | 2, _ | 3, _ => cases hk; rfl
  have hpart : ∀ id part, ¬ initial.Part id part := by
    rintro id part ⟨kind, hk, hp⟩
    rw [hkind id kind hk] at hp
    cases hp
  refine { Sound.of_acc (fun id part h => absurd h (hpart id part)) fun id _ => ?_ with
    void := rfl
    integer := rfl
    boolean := rfl
    string := rfl
    parts := fun id part h => absurd h (hpart id part)
    pairs := fun id item payload h => absurd ⟨_, h, mem_cons_self⟩ (hpart id item) }
  exact Acc.intro id fun part h => absurd h.part (hpart id part)

/-! ## Written types -/

/-- A graph has grown to hold some types of values. -/
structure Grown (g g' : TypeGraph) (ids : List TypeId) : Prop where
  regular : g'.Regular
  ext : g.Extends g'
  values : ∀ id ∈ ids, g'.IsValue id

theorem Grown.refl (hg : g.Regular) : Grown g g [] :=
  ⟨hg, .refl g, fun _ h => nomatch h⟩

theorem Grown.unit (hg : g.Regular) (hk : g.kind id = .ok kind) (hvalue : kind.isFunction = false) :
    Grown g g [id] :=
  ⟨hg, .refl g, fun _ h => mem_singleton.1 h ▸ ⟨kind, hk, hvalue⟩⟩

theorem Grown.add {ids : List TypeId} (h : Grown g g' ids) (origin : Option Span)
    (hparts : kind.parts = ids) (hlist : kind.item? = none) (hvalue : kind.isFunction = false) :
    Grown g (g'.add kind origin).2 [(g'.add kind origin).1] := by
  refine ⟨h.regular.add origin (hparts ▸ h.values) hlist, h.ext.trans (extends_add _ _ _), ?_⟩
  intro id hid
  cases mem_singleton.1 hid
  exact ⟨kind, (kind_add g' kind origin _).trans (if_pos rfl), hvalue⟩

theorem Grown.addList {item : TypeId} (h : Grown g g' [item]) (origin : Option Span) :
    Grown g (g'.addList item origin).2 [(g'.addList item origin).1] := by
  have hitem := h.values item mem_cons_self
  refine ⟨h.regular.addList origin hitem, h.ext.trans (extends_addList _ _ _), ?_⟩
  intro id hid
  cases mem_singleton.1 hid
  exact ⟨_, (kind_addList g' item origin _).trans (if_pos rfl), rfl⟩

mutual

/-- A written type becomes a type of values. -/
theorem resolve_grown {g : TypeGraph} (hg : g.Regular) (type : TypeExpr) :
    Grown g (g.resolve type).2 [(g.resolve type).1] := by
  cases type with
  | void span => exact .unit hg hg.void rfl
  | integer span => exact .unit hg hg.integer rfl
  | boolean span => exact .unit hg hg.boolean rfl
  | string span => exact .unit hg hg.string rfl
  | tuple span items => exact (resolveAll_grown hg items).add (some span) rfl rfl rfl
  | box span payload => exact (resolve_grown hg payload).add (some span) rfl rfl rfl
  | list span item => exact (resolve_grown hg item).addList (some span)
  | placeholder span name => exact (Grown.refl hg).add (some span) rfl rfl rfl

theorem resolveAll_grown {g : TypeGraph} (hg : g.Regular) (types : List TypeExpr) :
    Grown g (g.resolveAll types).2 (g.resolveAll types).1 := by
  cases types with
  | nil => exact .refl hg
  | cons type types =>
    have h := resolve_grown hg type
    have h' := resolveAll_grown h.regular types
    refine ⟨h'.regular, h.ext.trans h'.ext, ?_⟩
    intro id hid
    rcases mem_cons.1 hid with rfl | hid
    · exact (h.values _ mem_cons_self).extend h'.ext
    · exact h'.values id hid

end

end TypeGraph

end SlotCode
