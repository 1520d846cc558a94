import Mathlib.Data.Finset.Card
import Mathlib.Data.Finset.Range
import Mathlib.Logic.Relation
import SlotCode.Types.Walk

/-!
# Sound type graphs

A type graph is *sound* if its nodes mention only nodes, and if each of its cycles goes through the
payload of a list.  The edges other than those then order the nodes: `rank` falls along each of them
and is below the number of nodes, which is what bounds every walk that enters a list only through
its item.

    Inner a b      b is a part of a, other than the payload of a list
    Inner a b → rank b < rank a                                        (rank_lt_of_inner)
    id < size → rank id < size                                         (rank_lt_size)
-/

namespace SlotCode

variable {kind : TypeKind}

namespace TypeKind

/-- The nodes that a node mentions. -/
def parts : TypeKind → List TypeId
  | .void | .integer | .boolean | .string | .placeholder _ => []
  | .tuple items => items
  | .box payload => [payload]
  | .list item payload => [item, payload]
  | .function params result _ => params ++ [result]

/-- The parts that a walk through a sound graph can follow to an end: all but the payload of a
list. -/
def innerParts : TypeKind → List TypeId
  | .list item _ => [item]
  | kind => kind.parts

theorem innerParts_subset (kind : TypeKind) : kind.innerParts ⊆ kind.parts := by
  cases kind <;> simp [innerParts, parts]

theorem payload_mem_parts {payload : TypeId} (h : kind.payload? = some payload) :
    payload ∈ kind.parts := by
  cases kind <;> simp [payload?, parts] at h ⊢ <;> simp [h]

theorem parts_of_items {items : List TypeId} (h : kind.items? = some items) :
    kind.parts = items := by
  cases kind <;> simp [items?, parts] at h ⊢
  exact h

theorem item_mem_parts {item : TypeId} (h : kind.item? = some item) : item ∈ kind.parts := by
  cases kind <;> simp [item?, parts] at h ⊢
  simp [h]

end TypeKind

namespace TypeGraph

variable {g : TypeGraph} {id : TypeId}

/-! ## Reading nodes -/

theorem node_eq_ok_iff {node : TypeNode} : g.node id = .ok node ↔ g.nodes[id]? = some node := by
  unfold TypeGraph.node
  cases g.nodes[id]? <;> simp

theorem kind_eq_ok_iff :
    g.kind id = .ok kind ↔ ∃ node, g.node id = .ok node ∧ node.kind = kind := by
  unfold TypeGraph.kind
  cases g.node id <;> simp [Except.map]

theorem exists_node (h : id < g.size) : ∃ node, g.node id = .ok node :=
  ⟨g.nodes[id], node_eq_ok_iff.2 (Array.getElem?_eq_getElem h)⟩

theorem exists_kind (h : id < g.size) : ∃ kind, g.kind id = .ok kind := by
  obtain ⟨node, hn⟩ := exists_node h
  exact ⟨node.kind, kind_eq_ok_iff.2 ⟨node, hn, rfl⟩⟩

theorem lt_size_of_kind (h : g.kind id = .ok kind) : id < g.size := by
  obtain ⟨node, hn, -⟩ := kind_eq_ok_iff.1 h
  exact (Array.getElem?_eq_some_iff.1 (node_eq_ok_iff.1 hn)).1

/-! ## Edges -/

/-- `part` is mentioned by the node `id`. -/
def Part (g : TypeGraph) (id part : TypeId) : Prop :=
  ∃ kind, g.kind id = .ok kind ∧ part ∈ kind.parts

/-- `part` is mentioned by the node `id`, and not only as the payload of a list. -/
def Inner (g : TypeGraph) (id part : TypeId) : Prop :=
  ∃ kind, g.kind id = .ok kind ∧ part ∈ kind.innerParts

/-- `target` can be reached from `id` along the edges of the graph. -/
def Reaches (g : TypeGraph) (id target : TypeId) : Prop :=
  Relation.ReflTransGen g.Part id target

theorem Part.payload {payload : TypeId} (hk : g.kind id = .ok kind) (hp : kind.payload? = some payload) :
    g.Part id payload :=
  ⟨kind, hk, TypeKind.payload_mem_parts hp⟩

theorem Inner.part {part : TypeId} (h : g.Inner id part) : g.Part id part := by
  obtain ⟨kind, hk, hp⟩ := h
  exact ⟨kind, hk, kind.innerParts_subset hp⟩

/-- Nodes mention only nodes, and each cycle goes through the payload of a list. -/
structure Sound (g : TypeGraph) : Prop where
  closed : ∀ id part, g.Part id part → part < g.size
  acyclic : ∀ id, ¬ Relation.TransGen g.Inner id id

theorem Sound.lt_of_kind (hg : g.Sound) (hk : g.kind id = .ok kind) :
    ∀ part ∈ kind.parts, part < g.size :=
  fun part hp => hg.closed id part ⟨kind, hk, hp⟩

theorem Sound.lt_of_payload (hg : g.Sound) {payload : TypeId} (hk : g.kind id = .ok kind)
    (hp : kind.payload? = some payload) : payload < g.size :=
  hg.closed id payload (.payload hk hp)

/-! ## Rank -/

open Classical in
/-- Number of nodes below a node. -/
noncomputable def rank (g : TypeGraph) (id : TypeId) : Nat :=
  ((Finset.range g.size).filter fun below => Relation.TransGen g.Inner id below).card

theorem rank_lt_of_inner (hg : g.Sound) {part : TypeId} (h : g.Inner id part) :
    g.rank part < g.rank id := by
  classical
  unfold rank
  apply Finset.card_lt_card
  rw [Finset.ssubset_iff_of_subset]
  · refine ⟨part, ?_, ?_⟩
    · rw [Finset.mem_filter, Finset.mem_range]
      exact ⟨hg.closed id part h.part, Relation.TransGen.single h⟩
    · rw [Finset.mem_filter]
      exact fun hm => hg.acyclic part hm.2
  · intro below hb
    rw [Finset.mem_filter] at hb ⊢
    exact ⟨hb.1, Relation.TransGen.head h hb.2⟩

theorem rank_lt_size (hg : g.Sound) (h : id < g.size) : g.rank id < g.size := by
  classical
  unfold rank
  calc ((Finset.range g.size).filter fun below => Relation.TransGen g.Inner id below).card
      < (Finset.range g.size).card := by
        apply Finset.card_lt_card
        rw [Finset.ssubset_iff_of_subset (Finset.filter_subset _ _)]
        refine ⟨id, Finset.mem_range.2 h, ?_⟩
        rw [Finset.mem_filter]
        exact fun hm => hg.acyclic id hm.2
    _ = g.size := Finset.card_range _

/-! ## Walks end -/

theorem mapM_ok_of_forall {α β ε : Type} {f : α → Except ε β} {l : List α}
    (h : ∀ a ∈ l, ∃ b, f a = .ok b) : ∃ bs, l.mapM f = .ok bs := by
  induction l with
  | nil => exact ⟨[], rfl⟩
  | cons a l ih =>
    obtain ⟨b, hb⟩ := h a List.mem_cons_self
    obtain ⟨bs, hbs⟩ := ih fun a' ha' => h a' (List.mem_cons_of_mem a ha')
    exact ⟨b :: bs, by rw [List.mapM_cons, hb, hbs]; rfl⟩

/-- The text of a type is found with more steps than its rank. -/
theorem textWithin_ok (hg : g.Sound) (fuel : Nat) (id : TypeId) (hid : id < g.size)
    (hf : g.rank id < fuel) : ∃ text, g.textWithin fuel id = .ok text := by
  induction fuel generalizing id with
  | zero => omega
  | succ fuel ih =>
    obtain ⟨kind, hk⟩ := exists_kind hid
    have hpart : ∀ part ∈ kind.innerParts, ∃ text, g.textWithin fuel part = .ok text := by
      intro part hp
      have hlt := rank_lt_of_inner hg ⟨kind, hk, hp⟩
      exact ih part (hg.lt_of_kind hk part (kind.innerParts_subset hp)) (by omega)
    simp only [textWithin, hk, bind, Except.bind]
    cases kind with
    | void | integer | boolean | string | placeholder name => exact ⟨_, rfl⟩
    | tuple items =>
      obtain ⟨texts, ht⟩ := mapM_ok_of_forall (f := g.textWithin fuel) (l := items) hpart
      simp only [ht]
      exact ⟨_, rfl⟩
    | box payload =>
      obtain ⟨text, ht⟩ := hpart payload (by simp [TypeKind.innerParts, TypeKind.parts])
      simp only [ht]
      exact ⟨_, rfl⟩
    | list item payload =>
      obtain ⟨text, ht⟩ := hpart item (by simp [TypeKind.innerParts])
      simp only [ht]
      exact ⟨_, rfl⟩
    | function params result native =>
      obtain ⟨texts, ht⟩ := mapM_ok_of_forall (f := g.textWithin fuel) (l := params) fun part hp =>
        hpart part (by simp [TypeKind.innerParts, TypeKind.parts, hp])
      obtain ⟨text, ht'⟩ := hpart result (by simp [TypeKind.innerParts, TypeKind.parts])
      simp only [ht, ht']
      exact ⟨_, rfl⟩

theorem text_ok (hg : g.Sound) (hid : id < g.size) : ∃ text, g.text id = .ok text :=
  textWithin_ok hg g.depth id hid (Nat.lt_succ_of_lt (rank_lt_size hg hid))

end TypeGraph

end SlotCode
