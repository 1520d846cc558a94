import SlotCode.Proofs.Types.Leaves

/-!
# Graphs inside other graphs

A graph is *embedded* in another one if all of its nodes are there under other numbers
(`TypeGraph.Embeds`).  The other graph may have more nodes, before, after and in between.  From some
number on the two number their new nodes in step, so what is added to both stays embedded under the
same renaming.

What is seen from a type, its leaves and its text, is the same in both graphs.
-/

namespace SlotCode

open List

variable {id : TypeId}

namespace TypeKind

/-- The kind with its parts under other numbers. -/
def rename (r : TypeId → TypeId) : TypeKind → TypeKind
  | .void => .void
  | .integer => .integer
  | .boolean => .boolean
  | .string => .string
  | .tuple items => .tuple (items.map r)
  | .box payload => .box (r payload)
  | .list item payload => .list (r item) (r payload)
  | .placeholder name => .placeholder name
  | .function params result native => .function (params.map r) (r result) native

variable (r : TypeId → TypeId) (kind : TypeKind)

@[simp] theorem rename_tuple (items : List TypeId) : (tuple items).rename r = .tuple (items.map r) :=
  rfl

@[simp] theorem rename_box (payload : TypeId) : (box payload).rename r = .box (r payload) :=
  rfl

@[simp] theorem rename_placeholder (name : String) : (placeholder name).rename r = .placeholder name :=
  rfl

@[simp] theorem items?_rename : (kind.rename r).items? = kind.items?.map (List.map r) := by
  cases kind <;> rfl

@[simp] theorem payload?_rename : (kind.rename r).payload? = kind.payload?.map r := by
  cases kind <;> rfl

@[simp] theorem item?_rename : (kind.rename r).item? = kind.item?.map r := by
  cases kind <;> rfl

theorem rename_id : kind.rename (fun id => id) = kind := by
  cases kind <;> simp [rename]

/-- Only the numbers of the parts matter. -/
theorem rename_congr {q r : TypeId → TypeId} {kind : TypeKind}
    (h : ∀ part ∈ kind.parts, q part = r part) : kind.rename q = kind.rename r := by
  cases kind with
  | void | integer | boolean | string | placeholder => rfl
  | tuple items => exact congrArg TypeKind.tuple (map_congr_left h)
  | box payload => exact congrArg TypeKind.box (h payload mem_cons_self)
  | list item payload =>
    rw [rename, rename, h item mem_cons_self, h payload (mem_cons_of_mem _ mem_cons_self)]
  | function params result native =>
    rw [rename, rename, h result (mem_append_right _ mem_cons_self),
      map_congr_left fun part hpart => h part (mem_append_left _ hpart)]

theorem parts_rename : (kind.rename r).parts = kind.parts.map r := by
  cases kind <;> simp [rename, parts]

theorem rename_rename (q : TypeId → TypeId) :
    (kind.rename r).rename q = kind.rename fun id => q (r id) := by
  cases kind <;> simp [rename, Function.comp_def]

end TypeKind

namespace TypeGraph

variable {g g' g'' : TypeGraph}

theorem Regular.unit (hg : g.Regular) {id : Nat} (hid : id < 4) : g.IsValue id := by
  obtain rfl | rfl | rfl | rfl : id = 0 ∨ id = 1 ∨ id = 2 ∨ id = 3 := by omega
  · exact ⟨_, hg.void, rfl⟩
  · exact ⟨_, hg.integer, rfl⟩
  · exact ⟨_, hg.boolean, rfl⟩
  · exact ⟨_, hg.string, rfl⟩

/-! ## Nodes that are kept -/

/-- Every node of `g` is the same node of `g'`, with its origin. -/
def KeptIn (g g' : TypeGraph) : Prop :=
  ∀ id node, g.node id = .ok node → g'.node id = .ok node

theorem KeptIn.refl (g : TypeGraph) : g.KeptIn g :=
  fun _ _ h => h

theorem KeptIn.trans (h : g.KeptIn g') (h' : g'.KeptIn g'') : g.KeptIn g'' :=
  fun id node hn => h' id node (h id node hn)

theorem KeptIn.extends (h : g.KeptIn g') : g.Extends g' := by
  intro id kind hk
  obtain ⟨node, hn, rfl⟩ := kind_eq_ok_iff.1 hk
  exact kind_eq_ok_iff.2 ⟨node, h id node hn, rfl⟩

theorem lt_size_of_node {node : TypeNode} (h : g.node id = .ok node) : id < g.size :=
  lt_size_of_kind (kind_eq_ok_iff.2 ⟨node, h, rfl⟩)

theorem keptIn_add (g : TypeGraph) (kind : TypeKind) (origin : Option Span) :
    g.KeptIn (g.add kind origin).2 := by
  intro id node hn
  rw [node_add, if_neg (lt_size_of_node hn).ne]
  exact hn

/-- A node that is not there yet may be changed. -/
theorem KeptIn.setKind (h : g.KeptIn g') (hid : g.size ≤ id) (kind : TypeKind) :
    g.KeptIn (g'.setKind id kind) := by
  intro other node hn
  rw [node_setKind, if_neg (Nat.lt_of_lt_of_le (lt_size_of_node hn) hid).ne]
  exact h other node hn

theorem keptIn_addList (g : TypeGraph) (item : TypeId) (origin : Option Span) :
    g.KeptIn (g.addList item origin).2 :=
  ((keptIn_add g _ _).trans (keptIn_add _ _ _)).setKind (Nat.le_refl _) _

mutual

theorem keptIn_resolve (g : TypeGraph) (type : TypeExpr) : g.KeptIn (g.resolve type).2 := by
  cases type with
  | void | integer | boolean | string => exact .refl g
  | tuple span items => exact (keptIn_resolveAll g items).trans (keptIn_add _ _ _)
  | box span payload => exact (keptIn_resolve g payload).trans (keptIn_add _ _ _)
  | list span item => exact (keptIn_resolve g item).trans (keptIn_addList _ _ _)
  | placeholder span name => exact keptIn_add g _ _

theorem keptIn_resolveAll (g : TypeGraph) (types : List TypeExpr) :
    g.KeptIn (g.resolveAll types).2 := by
  cases types with
  | nil => exact .refl g
  | cons type types => exact (keptIn_resolve g type).trans (keptIn_resolveAll _ types)

end

/-! ## Embeddings -/

/-- The nodes of `g` from the number `base` on are in `g'` under other numbers.  Where a function was
declared is not looked at. -/
structure Embeds (r : TypeId → TypeId) (base : TypeId) (g g' : TypeGraph) : Prop where
  inj : ∀ {a b : TypeId}, base ≤ a → base ≤ b → r a = r b → a = b
  unit : ∀ {id : TypeId}, id < 4 → r id = id
  succ : ∀ {id : TypeId}, g.size ≤ id → r (id + 1) = r id + 1
  size : g'.size = r g.size
  node : ∀ {id : TypeId} {node : TypeNode}, base ≤ id → g.node id = .ok node →
    ∃ origin, g'.node (r id) = .ok ⟨node.kind.rename r, origin⟩ ∧
      (node.kind.isFunction = false → origin = node.origin)

namespace Embeds

variable {r : TypeId → TypeId} {base : TypeId}

section

variable (h : Embeds r base g g')

include h

theorem kind {kind : TypeKind} (hb : base ≤ id) (hk : g.kind id = .ok kind) :
    g'.kind (r id) = .ok (kind.rename r) := by
  obtain ⟨node, hn, rfl⟩ := kind_eq_ok_iff.1 hk
  obtain ⟨origin, hn', -⟩ := h.node hb hn
  exact kind_eq_ok_iff.2 ⟨_, hn', rfl⟩

theorem node_value {node : TypeNode} (hb : base ≤ id) (hn : g.node id = .ok node)
    (hvalue : node.kind.isFunction = false) : g'.node (r id) = .ok ⟨node.kind.rename r, node.origin⟩ := by
  obtain ⟨origin, hn', horigin⟩ := h.node hb hn
  rw [hn', horigin hvalue]

theorem lt_size (hb : base ≤ id) (hid : id < g.size) : r id < g'.size := by
  obtain ⟨kind, hk⟩ := exists_kind hid
  exact lt_size_of_kind (h.kind hb hk)

/-- A node is added to both graphs.  Functions may be declared at different places. -/
theorem addNode (kind : TypeKind) {origin origin' : Option Span}
    (horigin : kind.isFunction = false → origin' = origin) :
    Embeds r base (g.add kind origin).2 (g'.add (kind.rename r) origin').2 where
  inj := h.inj
  unit := h.unit
  succ := fun hid => by
    rw [size_add] at hid
    exact h.succ (Nat.le_of_succ_le hid)
  size := by rw [size_add, size_add, h.size, h.succ (Nat.le_refl _)]
  node := fun {id node} hb hn => by
    rw [node_add] at hn
    split at hn
    · next heq =>
      cases hn
      refine ⟨origin', ?_, horigin⟩
      rw [node_add, if_pos (by rw [heq, h.size])]
    · obtain ⟨other, hn', hother⟩ := h.node hb hn
      refine ⟨other, ?_, hother⟩
      rw [node_add, if_neg (lt_size_of_node hn').ne, hn']

theorem add (kind : TypeKind) (origin : Option Span) :
    Embeds r base (g.add kind origin).2 (g'.add (kind.rename r) origin).2 :=
  h.addNode kind fun _ => rfl

/-- A node is changed in both graphs. -/
theorem setKind (hb : base ≤ id) (hold : ∀ node, g.node id = .ok node → node.kind.isFunction = false)
    (kind : TypeKind) : Embeds r base (g.setKind id kind) (g'.setKind (r id) (kind.rename r)) where
  inj := h.inj
  unit := h.unit
  succ := fun hid => h.succ (size_setKind g id kind ▸ hid)
  size := by rw [size_setKind, size_setKind, h.size]
  node := fun {other node} hb' hn => by
    rw [node_setKind] at hn
    split at hn
    · next heq =>
      subst heq
      cases hnode : g.node other with
      | error fault =>
        rw [hnode] at hn
        cases hn
      | ok old =>
        rw [hnode] at hn
        cases hn
        refine ⟨old.origin, ?_, fun _ => rfl⟩
        rw [node_setKind, if_pos rfl, h.node_value hb hnode (hold old hnode)]
        rfl
    · next hne =>
      obtain ⟨origin, hn', horigin⟩ := h.node hb' hn
      refine ⟨origin, ?_, horigin⟩
      rw [node_setKind, if_neg fun heq => hne (h.inj hb' hb heq), hn']

theorem addList (hb : base ≤ g.size) (item : TypeId) (origin : Option Span) :
    (g'.addList (r item) origin).1 = r (g.addList item origin).1 ∧
      Embeds r base (g.addList item origin).2 (g'.addList (r item) origin).2 := by
  have hpair := (h.add .void origin).add (.tuple [item, g.size]) origin
  have hset := hpair.setKind hb (fun node hn => ?_) (.list item (g.size + 1))
  · refine ⟨h.size, ?_⟩
    simp only [TypeKind.rename, map_cons, map_nil, ← h.size] at hset
    rw [h.succ (Nat.le_refl _), ← h.size] at hset
    simpa only [TypeGraph.addList, TypeGraph.add, TypeGraph.size, Array.size_push] using hset
  · rw [node_add, if_neg (by rw [size_add]; exact Nat.ne_of_lt (Nat.lt_succ_self _)), node_add,
      if_pos rfl] at hn
    cases hn
    rfl

end

mutual

/-- A written type is added to both graphs. -/
theorem resolve {g g' : TypeGraph} (h : Embeds r base g g') (hb : base ≤ g.size) (type : TypeExpr) :
    (g'.resolve type).1 = r (g.resolve type).1 ∧
      Embeds r base (g.resolve type).2 (g'.resolve type).2 := by
  cases type with
  | void span => exact ⟨(h.unit (show .void < 4 by decide)).symm, h⟩
  | integer span => exact ⟨(h.unit (show .integer < 4 by decide)).symm, h⟩
  | boolean span => exact ⟨(h.unit (show .boolean < 4 by decide)).symm, h⟩
  | string span => exact ⟨(h.unit (show .string < 4 by decide)).symm, h⟩
  | tuple span items =>
    obtain ⟨hids, hitems⟩ := resolveAll h hb items
    have hadd := hitems.add (.tuple (g.resolveAll items).1) (some span)
    rw [TypeKind.rename_tuple, ← hids] at hadd
    exact ⟨hitems.size, hadd⟩
  | box span payload =>
    obtain ⟨hid, hpayload⟩ := resolve h hb payload
    have hadd := hpayload.add (.box (g.resolve payload).1) (some span)
    rw [TypeKind.rename_box, ← hid] at hadd
    exact ⟨hpayload.size, hadd⟩
  | list span item =>
    obtain ⟨hid, hitem⟩ := resolve h hb item
    have hadd := hitem.addList (hb.trans (keptIn_resolve g item).extends.size_le) (g.resolve item).1
      (some span)
    rw [← hid] at hadd
    exact hadd
  | placeholder span name => exact ⟨h.size, h.add _ _⟩

theorem resolveAll {g g' : TypeGraph} (h : Embeds r base g g') (hb : base ≤ g.size)
    (types : List TypeExpr) :
    (g'.resolveAll types).1 = (g.resolveAll types).1.map r ∧
      Embeds r base (g.resolveAll types).2 (g'.resolveAll types).2 := by
  cases types with
  | nil => exact ⟨rfl, h⟩
  | cons type types =>
    obtain ⟨hid, htype⟩ := resolve h hb type
    obtain ⟨hids, htypes⟩ := resolveAll htype (hb.trans (keptIn_resolve g type).extends.size_le) types
    exact ⟨cons_eq_cons.2 ⟨hid, hids⟩, htypes⟩

end

end Embeds

/-! ## Walks -/

section

variable {r : TypeId → TypeId} (h : Embeds r 0 g g')

include h

/-- There is room for the embedded graph. -/
theorem Embeds.size_le : g.size ≤ g'.size := by
  have hmaps : ∀ id ∈ Finset.range g.size, r id ∈ Finset.range g'.size := fun id hid =>
    Finset.mem_range.2 (h.lt_size (Nat.zero_le _) (Finset.mem_range.1 hid))
  have hcard := Finset.card_le_card_of_injOn r hmaps
    fun a _ b _ => h.inj (Nat.zero_le _) (Nat.zero_le _)
  simpa using hcard

theorem Embeds.leavesWithin {fuel fuel' : Nat} (hf : fuel ≤ fuel') {ids : List TypeId}
    (hw : g.leavesWithin fuel id = .ok ids) : g'.leavesWithin fuel' (r id) = .ok (ids.map r) := by
  induction fuel generalizing fuel' id ids with
  | zero => cases hw
  | succ fuel ih =>
    obtain ⟨fuel', rfl⟩ : ∃ n, fuel' = n + 1 := ⟨fuel' - 1, by omega⟩
    cases hk : g.kind id with
    | error fault =>
      simp only [TypeGraph.leavesWithin, hk] at hw
      cases hw
    | ok kind =>
      have hk' := h.kind (Nat.zero_le _) hk
      rcases kind.tuple_or_not with ⟨items, rfl⟩ | hi
      · rw [leavesWithin_tuple hk] at hw
        rw [leavesWithin_tuple hk']
        cases hlists : items.mapM (g.leavesWithin fuel) with
        | error fault =>
          rw [hlists] at hw
          cases hw
        | ok lists =>
          have hlists' : (items.map r).mapM (g'.leavesWithin fuel') = .ok (lists.map (List.map r)) := by
            rw [mapM_eq_ok_iff, forall₂_map_left_iff, forall₂_map_right_iff]
            exact (mapM_eq_ok_iff.1 hlists).imp fun _ _ => ih (Nat.le_of_succ_le_succ hf)
          rw [hlists] at hw
          cases hw
          rw [hlists', map_flatten]
          rfl
      · rw [leavesWithin_eq_of_not_tuple hk hi] at hw
        cases hw
        exact leavesWithin_eq_of_not_tuple hk' (by simp [hi]) fuel'

theorem Embeds.leaves (hg : g.Sound) (hid : id < g.size) :
    g'.leaves (r id) = .ok ((g.leafTypes id).map r) :=
  h.leavesWithin (Nat.succ_le_succ h.size_le) (leaves_eq hg hid)

theorem Embeds.textWithin {fuel fuel' : Nat} (hf : fuel ≤ fuel') {text : String}
    (hw : g.textWithin fuel id = .ok text) : g'.textWithin fuel' (r id) = .ok text := by
  induction fuel generalizing fuel' id text with
  | zero => cases hw
  | succ fuel ih =>
    obtain ⟨fuel', rfl⟩ : ∃ n, fuel' = n + 1 := ⟨fuel' - 1, by omega⟩
    have hparts : ∀ {ids : List TypeId} {texts : List String},
        ids.mapM (g.textWithin fuel) = .ok texts →
        (ids.map r).mapM (g'.textWithin fuel') = .ok texts := by
      intro ids texts htexts
      rw [mapM_eq_ok_iff, forall₂_map_left_iff]
      exact (mapM_eq_ok_iff.1 htexts).imp fun _ _ => ih (Nat.le_of_succ_le_succ hf)
    cases hk : g.kind id with
    | error fault =>
      simp only [TypeGraph.textWithin, hk] at hw
      cases hw
    | ok kind =>
      have hk' := h.kind (Nat.zero_le _) hk
      simp only [TypeGraph.textWithin, hk, bind, Except.bind] at hw
      simp only [TypeGraph.textWithin, hk', bind, Except.bind]
      cases kind with
      | void | integer | boolean | string | placeholder name => exact hw
      | tuple items =>
        cases htexts : items.mapM (g.textWithin fuel) with
        | error fault =>
          simp only [htexts] at hw
          cases hw
        | ok texts =>
          simp only [htexts] at hw
          simp only [TypeKind.rename, hparts htexts]
          exact hw
      | box payload | list payload _ =>
        cases htext : g.textWithin fuel payload with
        | error fault =>
          simp only [htext] at hw
          cases hw
        | ok text =>
          simp only [htext] at hw
          simp only [TypeKind.rename, ih (Nat.le_of_succ_le_succ hf) htext]
          exact hw
      | function params result native =>
        cases htexts : params.mapM (g.textWithin fuel) with
        | error fault =>
          simp only [htexts] at hw
          cases hw
        | ok texts =>
          simp only [htexts] at hw
          simp only [TypeKind.rename, hparts htexts]
          cases htext : g.textWithin fuel result with
          | error fault =>
            simp only [htext] at hw
            cases hw
          | ok text =>
            simp only [htext] at hw
            simp only [ih (Nat.le_of_succ_le_succ hf) htext]
            exact hw

/-- A type is written in the same way in both graphs. -/
theorem Embeds.text (hg : g.Sound) (hid : id < g.size) :
    ∃ text, g.text id = .ok text ∧ g'.text (r id) = .ok text := by
  obtain ⟨text, htext⟩ := text_ok hg hid
  exact ⟨text, htext, h.textWithin (Nat.succ_le_succ h.size_le) htext⟩

end

end TypeGraph

end SlotCode
