import SlotCode.Proofs.Types.Facing
import SlotCode.Proofs.Types.Instances

/-!
# Matching a type with its instance

Matching undoes `instantiate`.  A type without functions is matched by its instance, and the bindings
that the match makes are those the instance was made with, for the placeholders that can be reached from
the type and for no others (`matchTypes_instantiate`).

The graph that a copy leaves is sound, so that matching ends there (`Copying.sound`): the rank of the
copied node bounds every way down from its copy.  The instance is alike, because it is the type with boxes
in place of placeholders.  Each placeholder that can be reached faces the box around the type that it was
bound to.
-/

namespace SlotCode.TypeGraph

open List

variable {g g' : TypeGraph} {bindings : Bindings} {a q id x r : TypeId} {name : String}

/-! ## The graph of an instance -/

/-- An instance is made in a sound graph, if every placeholder has a type to stand for. -/
theorem instantiate_ok (hg : g.Knotted)
    (hb : ∀ name bound, bindings.get? name = some bound → bound < g.size) (hid : id < g.size)
    (hall : ∀ name, g.Mentions id name → ∃ bound, bindings.get? name = some bound) (span : Span) :
    ∃ r g', instantiate id bindings span g = .ok r g' ∧ g.Extends g' ∧ g'.Sound ∧ r < g'.size ∧
      g'.Filled bindings id r := by
  rcases instantiate_copies hg bindings hid span with ⟨hrun, hnone⟩ | ⟨r, made, s, hrun, hs, hr⟩ |
    ⟨name, made, opened, s, -, -, hname, hunbound⟩
  · exact ⟨id, g, hrun, .refl g, hg.toSound, hid, filled_self hg.toSound hid hnone⟩
  · exact ⟨r, s.graph, hrun, hs.ext, hs.sound hg.toSound hb, (hs.lt_size hr).2, hs.filled hr⟩
  · obtain ⟨bound, hbound⟩ := hall name hname
    cases hunbound.symm.trans hbound

/-! ## The search finds every name -/

/-- `target` is found by a search that enters a list through its payload alone. -/
def Finds (g : TypeGraph) (id target : TypeId) : Prop :=
  Relation.ReflTransGen (fun x p => ∃ kind, g.kind x = .ok kind ∧ p ∈ kind.searched) id target

theorem Finds.extend {target : TypeId} (hext : g.Extends g') (h : g.Finds id target) :
    g'.Finds id target := by
  refine Relation.ReflTransGen.mono ?_ _ _ h
  rintro x p ⟨kind, hk, hp⟩
  exact ⟨kind, hext x kind hk, hp⟩

/-- What can be reached has the tree of something that is found. -/
theorem Knotted.finds_sameTree (hg : g.Knotted) (h : g.Reaches id x) :
    ∃ z, g.Finds id z ∧ Relation.ReflTransGen g.SameTree x z := by
  induction h with
  | refl => exact ⟨id, .refl, .refl⟩
  | @tail x p _ hpart ih =>
    obtain ⟨kind, hk, hp⟩ := hpart
    obtain ⟨z, hz, hxz⟩ := ih
    have hsearched : ∀ q ∈ kind.searched, ∃ z, g.Finds id z ∧ Relation.ReflTransGen g.SameTree q z := by
      intro q hq
      obtain ⟨kz, q', hkz, hq', hqq'⟩ := searched_of_sameTrees hxz hk hq
      exact ⟨q', hz.tail ⟨kz, hkz, hq'⟩, hqq'⟩
    cases kind with
    | list item payload =>
      rcases mem_pair.1 hp with rfl | rfl
      -- The item is not searched, but it has the tree of the first of the pair.
      · obtain ⟨first, hpair, htree⟩ := hg.lists x _ payload hk
        obtain ⟨y, hy, hpy⟩ := hsearched payload mem_cons_self
        obtain ⟨ky, q, hky, hq, hfq⟩ := searched_of_sameTrees hpy hpair mem_cons_self
        exact ⟨q, hy.tail ⟨ky, hky, hq⟩, .head htree hfq⟩
      · exact hsearched _ mem_cons_self
    | _ => exact hsearched p hp

theorem Knotted.finds_placeholder (hg : g.Knotted) (h : g.Mentions id name) :
    ∃ z, g.Finds id z ∧ g.kind z = .ok (.placeholder name) := by
  obtain ⟨target, hr, hk⟩ := h
  obtain ⟨z, hz, htree⟩ := hg.finds_sameTree hr
  exact ⟨z, hz, placeholder_of_sameTrees htree hk⟩

/-! ## A type faces what it accepts -/

/-- No function can be reached from the type. -/
def FunctionFree (g : TypeGraph) (id : TypeId) : Prop :=
  ∀ x, g.Reaches id x → ∀ params result native, g.kind x ≠ .ok (.function params result native)

theorem FunctionFree.of_part {part : TypeId} (hp : g.Part id part) (h : g.FunctionFree id) :
    g.FunctionFree part :=
  fun x hx => h x (.head hp hx)

theorem FunctionFree.extend (hext : g.Extends g') (hg : g.Sound) (hid : id < g.size)
    (h : g.FunctionFree id) : g'.FunctionFree id := by
  intro x hx params result native hk
  obtain ⟨hx, hlt⟩ := hext.reaches_of_lt hg hid hx
  exact h x hx params result native (hext.kind_of_lt hlt hk)

/-- A function is part of no other type. -/
theorem Regular.functionFree (hg : g.Regular) (h : g.IsValue id) : g.FunctionFree id := by
  intro x hx params result native hk
  have hvalue : g.IsValue x := by
    rcases Relation.ReflTransGen.cases_tail hx with rfl | ⟨y, -, hpart⟩
    · exact h
    · exact hg.parts y x hpart
  obtain ⟨kind, hk', hfun⟩ := hvalue
  cases kind_unique hk hk'
  cases hfun

theorem exists_mem_zip {α β : Type} {R : α → β → Prop} {xs : List α} {ys : List β}
    (h : Forall₂ R xs ys) {x : α} (hx : x ∈ xs) : ∃ y, (x, y) ∈ xs.zip ys := by
  obtain ⟨y, -, hxy⟩ := exists_of_forall₂ (R := fun x y => (x, y) ∈ xs.zip ys)
    (forall₂_iff_zip.2 ⟨h.length_eq, fun h => h⟩) hx
  exact ⟨y, hxy⟩

/-- What is searched in a type stands beside something in every type that it accepts. -/
theorem Alike.beside {y p : TypeId} {kind : TypeKind} (h : g.Alike true x y)
    (hk : g.kind x = .ok kind) (hfun : kind.isFunction = false) (hp : p ∈ kind.searched) :
    ∃ q, g.Beside (x, y) (p, q) ∧ g.Alike true p q := by
  cases h.agree with
  | same =>
    refine ⟨p, ?_, .refl g true p⟩
    cases kind with
    | tuple items =>
      have hsame : Forall₂ Eq items items := forall₂_same.2 fun _ _ => rfl
      obtain ⟨q, hq⟩ := exists_mem_zip hsame hp
      obtain rfl : p = q := forall₂_zip hsame hq
      exact .item hk hk hq
    | box | list =>
      cases mem_singleton.1 hp
      exact .payload hk hk rfl rfl
    | function => cases hfun
    | void | integer | boolean | string | placeholder => cases hp
  | tuple hx hy hitems =>
    cases kind_unique hk hx
    obtain ⟨q, hpq⟩ := exists_mem_zip hitems hp
    exact ⟨q, .item hx hy hpq, forall₂_zip hitems hpq⟩
  | box hx hy hpx hpy hpq =>
    cases kind_unique hk hx
    cases (TypeKind.mem_searched_iff hpx).1 hp
    exact ⟨_, .payload hx hy hpx hpy, hpq⟩
  | placeholder hx | bound _ hx =>
    cases kind_unique hk hx
    cases hp

theorem Alike.faces_of_finds {e : TypeId} (hfree : g.FunctionFree e) (h : g.Alike true e a)
    (hx : g.Finds e x) : ∃ y, g.Faces e a x y ∧ g.Alike true x y := by
  have hfree' : ∀ x, g.Finds e x → ∀ kind, g.kind x = .ok kind → kind.isFunction = false := by
    intro x hx kind hk
    have hreaches : g.Reaches e x := by
      refine Relation.ReflTransGen.mono ?_ _ _ hx
      rintro x p ⟨kind, hk, hp⟩
      exact ⟨kind, hk, kind.searched_subset hp⟩
    cases kind with
    | function => exact absurd hk (hfree x hreaches _ _ _)
    | _ => rfl
  induction hx with
  | refl => exact ⟨a, .refl, h⟩
  | @tail x p hx hp ih =>
    obtain ⟨kind, hk, hp⟩ := hp
    obtain ⟨y, hfaces, hxy⟩ := ih
    obtain ⟨q, hbeside, hpq⟩ := hxy.beside hk (hfree' x hx kind hk) hp
    exact ⟨q, hfaces.tail hbeside, hpq⟩

/-- Where a type with a placeholder accepts another, the placeholder faces a box, or it stands in the
other as well. -/
theorem Alike.infers_or_mentions (hg : g.Knotted) {e : TypeId} (hfree : g.FunctionFree e)
    (h : g.Alike true e a) (hname : g.Mentions e name) :
    (∃ bound, g.Infers e a name bound) ∨ g.Mentions a name := by
  obtain ⟨z, hz, hk⟩ := hg.finds_placeholder hname
  obtain ⟨y, hfaces, hzy⟩ := h.faces_of_finds hfree hz
  cases hzy.agree with
  | same => exact .inr ⟨z, hfaces.reaches.2, hk⟩
  | tuple hz => cases kind_unique hk hz
  | box hz _ hp =>
    cases kind_unique hk hz
    cases hp
  | placeholder hz hy =>
    cases kind_unique hk hz
    exact .inr ⟨y, hfaces.reaches.2, hy⟩
  | bound _ hz hy hq => exact .inl ⟨_, z, y, _, hfaces, hk, hy, hq⟩

/-! ## A type faces its instance -/

theorem FunctionFree.image (h : g.FunctionFree id) (hr : g.Filled bindings id r) :
    g.Image bindings (g.Filled bindings) id r := by
  cases hr.node with
  | value hr => exact hr
  | function hk => exact absurd hk (h id .refl _ _ _)

/-- A type without functions accepts its instances in a call. -/
theorem Filled.alike (hfree : g.FunctionFree id) (h : g.Filled bindings id r) :
    g.Alike true id r := by
  refine ⟨fun x y => g.FunctionFree x ∧ g.Filled bindings x y, fun x y hxy => ?_, hfree, h⟩
  obtain ⟨hfree, hxy⟩ := hxy
  cases hfree.image hxy with
  | base => exact .same x
  | tuple hx hy hitems =>
    refine .tuple hx hy (forall₂_iff_zip.2 ⟨hitems.length_eq, fun {p q} hpq => ?_⟩)
    exact ⟨hfree.of_part ⟨_, hx, (of_mem_zip hpq).1⟩, forall₂_zip hitems hpq⟩
  | box hx hy hp => exact .box hx hy rfl rfl ⟨hfree.of_part ⟨_, hx, mem_cons_self⟩, hp⟩
  | list hx hy _ hp =>
    exact .box hx hy rfl rfl ⟨hfree.of_part ⟨_, hx, mem_cons_of_mem _ mem_cons_self⟩, hp⟩
  | placeholder hx hbound hy => exact .bound rfl hx hy rfl

/-- Beside a filled type stand filled types. -/
theorem Filled.beside {y p : TypeId} (hfree : g.FunctionFree x) (h : g.Filled bindings x y)
    (hbeside : g.Beside (x, y) (p, q)) : g.FunctionFree p ∧ g.Filled bindings p q := by
  cases hbeside with
  | item hx hy hpq =>
    refine ⟨hfree.of_part ⟨_, hx, (of_mem_zip hpq).1⟩, ?_⟩
    cases hfree.image h with
    | base hk hbase =>
      cases kind_unique hk hx
      cases hbase
    | tuple hx' hy' hitems =>
      cases kind_unique hx hx'
      cases kind_unique hy hy'
      exact forall₂_zip hitems hpq
    | box hx' | list hx' | placeholder hx' => cases kind_unique hx hx'
  | payload hx hy hp hq =>
    refine ⟨hfree.of_part (.payload hx hp), ?_⟩
    cases hfree.image h with
    | base hk hbase =>
      cases kind_unique hk hx
      cases kind_unique hx hy
      rename_i kind
      cases kind <;> cases hbase <;> cases hp
    | tuple hx' | placeholder hx' =>
      cases kind_unique hx hx'
      cases hp
    | box hx' hy' hpq | list hx' hy' _ hpq =>
      cases kind_unique hx hx'
      cases kind_unique hy hy'
      cases hp
      cases hq
      exact hpq

theorem Filled.of_faces {s t : TypeId × TypeId} (hst : Relation.ReflTransGen g.Beside s t)
    (hfree : g.FunctionFree s.1) (h : g.Filled bindings s.1 s.2) :
    g.FunctionFree t.1 ∧ g.Filled bindings t.1 t.2 := by
  induction hst with
  | refl => exact ⟨hfree, h⟩
  | tail _ hbeside ih => exact ih.2.beside ih.1 hbeside

/-- A placeholder faces a box around the type that it stands for, and nothing else. -/
theorem Filled.get?_of_infers {bound : TypeId} (hfree : g.FunctionFree id)
    (h : g.Filled bindings id r) (hinfers : g.Infers id r name bound) :
    bindings.get? name = some bound := by
  obtain ⟨x, y, kind, hfaces, hx, hy, hpay⟩ := hinfers
  obtain ⟨hfree, hxy⟩ := Filled.of_faces hfaces hfree h
  cases hfree.image hxy with
  | base hk hbase =>
    cases kind_unique hk hx
    cases hbase
  | tuple hx' | box hx' | list hx' => cases kind_unique hx hx'
  | placeholder hx' hbound hy' =>
    cases kind_unique hx hx'
    cases kind_unique hy hy'
    cases hpay
    exact hbound

/-- Each placeholder that can be reached faces a box. -/
theorem Filled.infers (hg : g'.Knotted) (hext : g'.Extends g) (hfree : g.FunctionFree id)
    (h : g.Filled bindings id r) (hname : g'.Mentions id name) :
    ∃ bound, g.Infers id r name bound := by
  obtain ⟨z, hz, hk⟩ := hg.finds_placeholder hname
  have hk := hext z _ hk
  obtain ⟨y, hfaces, -⟩ := (h.alike hfree).faces_of_finds hfree (hz.extend hext)
  obtain ⟨hfree, hzy⟩ := Filled.of_faces hfaces hfree h
  cases hfree.image hzy with
  | base hz hbase =>
    cases kind_unique hk hz
    cases hbase
  | tuple hz | box hz | list hz => cases kind_unique hk hz
  | placeholder _ hbound hy => exact ⟨_, z, y, _, hfaces, hk, hy, rfl⟩

/-! ## Matching undoes instantiation -/

/-- A type from which no function can be reached, and whose placeholders are all bound, has an instance.
The type accepts it, and the match finds the bindings again: those of the placeholders that can be reached
from the type, and no others. -/
theorem matchTypes_instantiate (hg : g.Knotted) (bindings : Bindings)
    (hb : ∀ name bound, bindings.get? name = some bound → bound < g.size) (id : TypeId)
    (hid : id < g.size) (hfree : g.FunctionFree id)
    (hall : ∀ name, g.Mentions id name → ∃ bound, bindings.get? name = some bound)
    (span sp sp' : Span) :
    ∃ r g' after, instantiate id bindings span g = .ok r g' ∧
      g'.matchTypes (some id) r sp sp' (some []) = .ok () (some after) ∧
      ∀ name bound, after.get? name = some bound ↔
        g.Mentions id name ∧ bindings.get? name = some bound := by
  obtain ⟨r, g', hrun, hext, hsound, hr, hfilled⟩ := instantiate_ok hg hb hid hall span
  have hid' := hext.lt_size hid
  have hfree' := hfree.extend hext hg.toSound hid
  obtain ⟨after, hmatch⟩ := (accepts_iff_alike hsound hid' hr sp sp' (some [])).2 (hfilled.alike hfree')
  obtain ⟨b, rfl, -, hinfers, hbinds⟩ := matchTypes_infers hsound hid' hr hmatch
  have hvalue : ∀ name bound, b.get? name = some bound → bindings.get? name = some bound := by
    intro name bound hbound
    rcases hinfers name bound hbound with hnone | hbound
    · cases hnone
    · exact hfilled.get?_of_infers hfree' hbound
  refine ⟨r, g', b, hrun, hmatch, fun name bound => ⟨fun hbound => ⟨?_, hvalue name bound hbound⟩, ?_⟩⟩
  · rcases hinfers name bound hbound with hnone | ⟨x, y, -, hfaces, hx, -⟩
    · cases hnone
    · obtain ⟨hx', hlt⟩ := hext.reaches_of_lt hg.toSound hid (Faces.reaches hfaces).1
      exact ⟨x, hx', hext.kind_of_lt hlt hx⟩
  · rintro ⟨hname, hbound⟩
    obtain ⟨found, hfound⟩ := hfilled.infers hg hext hfree' hname
    obtain ⟨bound', hbound'⟩ := hbinds name found hfound
    cases hbound.symm.trans (hvalue name bound' hbound')
    exact hbound'

/-- A list of placeholders holds its pair, the placeholder and itself. -/
theorem reaches_pickerGraph (h : pickerGraph.Reaches 5 x) : x = 4 ∨ x = 5 ∨ x = 6 := by
  induction h with
  | refl => exact .inr (.inl rfl)
  | tail _ hpart ih =>
    obtain ⟨kind, hk, hp⟩ := hpart
    rcases ih with rfl | rfl | rfl
    · cases hk
      cases hp
    · cases hk
      exact (mem_pair.1 hp).imp_right .inr
    · cases hk
      exact (mem_pair.1 hp).imp_right .inl

theorem matchTypes_instantiate_pickerGraph :
    pickerGraph.Knotted ∧ pickerGraph.FunctionFree 5 ∧ pickerGraph.Mentions 5 "T" ∧
      ∃ r g' after, instantiate 5 [("T", .integer)] ⟨0, 0⟩ pickerGraph = .ok r g' ∧
        g'.matchTypes (some 5) r ⟨0, 0⟩ ⟨0, 0⟩ (some []) = .ok () (some after) ∧
        after.get? "T" = some .integer ∧ after.get? "U" = none := by
  have hfree : pickerGraph.FunctionFree 5 := by
    intro x hx params result native hk
    rcases reaches_pickerGraph hx with rfl | rfl | rfl <;> cases hk
  have hmentions : pickerGraph.Mentions 5 "T" := ⟨4, .single ⟨_, rfl, List.mem_cons_self⟩, rfl⟩
  have hname : ∀ name, pickerGraph.Mentions 5 name → name = "T" := by
    rintro name ⟨x, hx, hk⟩
    rcases reaches_pickerGraph hx with rfl | rfl | rfl
    · cases hk
      rfl
    · cases hk
    · cases hk
  have hall : ∀ name, pickerGraph.Mentions 5 name →
      ∃ bound, Bindings.get? [("T", .integer)] name = some bound := by
    intro name hm
    rw [hname name hm]
    exact ⟨.integer, rfl⟩
  obtain ⟨r, g', after, hrun, hmatch, hafter⟩ := matchTypes_instantiate knotted_pickerGraph
    [("T", .integer)] lt_size_pickerGraph 5 (by decide) hfree hall ⟨0, 0⟩ ⟨0, 0⟩ ⟨0, 0⟩
  refine ⟨knotted_pickerGraph, hfree, hmentions, r, g', after, hrun, hmatch,
    (hafter "T" _).2 ⟨hmentions, rfl⟩, ?_⟩
  cases hnone : after.get? "U" with
  | none => rfl
  | some bound => exact absurd (hname "U" ((hafter "U" bound).1 hnone).1) (by decide)

end SlotCode.TypeGraph
