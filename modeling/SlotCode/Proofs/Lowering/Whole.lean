import SlotCode.Proofs.Lowering.Parts
import SlotCode.Proofs.Lowering.Programs
import SlotCode.Proofs.Types.Whole

/-!
# Types of variables

Every type that a variable gets is whole (`Outline.Whole`), and it reaches placeholders only if types of
other variables did, or types that are written in the tree.  The types of functions are a source of
placeholders too, but these are filled in before anything gets the type of a result.
-/

namespace SlotCode

variable {id : VarId} {t type payload : TypeId} {free : Bool} {s : Session} {pattern : Pattern}
  {slots : List VarId} {v w : Value} {g : TypeGraph} {span : Span} {code : Code} {es : List Expr}

open Outline Lower List TypeGraph

/-! ## Whole outlines -/

namespace Outline

variable {free : Bool} {o o' : Outline}

/-- The types of functions and variables are whole.  Those of variables reach placeholders only if they
are `free`. -/
structure Whole (free : Bool) (o : Outline) : Prop where
  good : o.Good
  functions : ∀ name sig, o.functions.lookup name = some sig → o.types.Whole true sig.type
  vars : ∀ id t, o.typeOf id = some t → o.types.Whole free t

/-- Further variables have types that are whole. -/
theorem Whole.grow (h : o.Whole free) (hgrows : o.Grows o') (hgood : o'.Good)
    (hnew : ∀ id t, o'.typeOf id = some t → o.typeOf id = some t ∨ o'.types.Whole free t) :
    o'.Whole free := by
  refine ⟨hgood, fun name sig hsig => ?_, fun id t ht => ?_⟩
  · rw [hgrows.functions] at hsig
    obtain ⟨params, result, native, hk, -⟩ := h.good.functions name sig hsig
    exact (h.functions name sig hsig).extend h.good.types.toSound hgrows.types (lt_size_of_kind hk)
  · rcases hnew id t ht with hold | hnew
    · exact (h.vars id t hold).extend h.good.types.toSound hgrows.types (h.good.isValue hold).lt_size
    · exact hnew

/-- A type stays whole while the outline grows. -/
theorem Whole.extend (h : o.Whole free) (hgrows : o.Grows o') (ht : o.types.IsValue t)
    (hwhole : o.types.Whole free t) : o'.types.Whole free t :=
  hwhole.extend h.good.types.toSound hgrows.types ht.lt_size

theorem typeOf_push_cases {infos : List VarInfo} (h : (o.push infos).typeOf id = some t) :
    o.typeOf id = some t ∨ ∃ i ∈ infos, i.type = some t := by
  obtain ⟨i, hi, ht⟩ := typeOf_eq_some_iff.1 h
  rcases info_push_cases hi with hold | ⟨-, hmem⟩
  · exact .inl (typeOf_eq_some_iff.2 ⟨i, hold, ht⟩)
  · exact .inr ⟨i, hmem, ht⟩

theorem Whole.enter (h : o.Whole free) : o.enter.Whole free :=
  ⟨h.good.enter, h.functions, h.vars⟩

end Outline

/-- Closing a context leaves the types of variables. -/
theorem Session.exit_typeOf (s : Session) (id : VarId) :
    s.exit.outline.typeOf id = s.outline.typeOf id := by
  have hinfos : s.exit.scope.infos = s.scope.infos := by
    rw [Session.exit, Scope.pop]
    split
    · rfl
    · exact congrArg Outline.vars (s.outline_foldl_store s.scope.current.owned.reverse)
  rw [Outline.typeOf, Outline.typeOf, Outline.info, Outline.info, Session.outline, Session.outline, hinfos]

theorem Outline.Whole.exit (h : s.outline.Whole free) (hkeeps : s.outline.Keeps s.exit.outline) :
    s.exit.outline.Whole free :=
  h.grow hkeeps.grows hkeeps.good fun id _ ht => .inl (s.exit_typeOf id ▸ ht)

namespace Lower

variable {free : Bool} {s s' : Session}

/-! ## Steps -/

/-- The type of a variable that is shaped is the type it is shaped after, or a leaf of it. -/
theorem Expanded.typeOf_cases {o o' : Outline} (hg : o.types.Sound) {i : VarInfo}
    (htype : type < o.types.size) (h : Expanded o id i type slots o') {x : VarId}
    (ht : o'.typeOf x = some t) :
    o'.types = o.types ∧ (o.typeOf x = some t ∨ o.types.Reaches type t) := by
  have htyped : ∀ {x : VarId} {t : TypeId}, (typed o id i type).typeOf x = some t →
      o.typeOf x = some t ∨ o.types.Reaches type t := by
    intro x t ht
    rw [typed] at ht
    split at ht
    · rw [Outline.typeOf, info_modify] at ht
      split at ht
      · obtain ⟨j, hj, hjt⟩ := Option.bind_eq_some_iff.1 ht
        obtain ⟨k, -, rfl⟩ := Option.map_eq_some_iff.1 hj
        cases hjt
        exact .inr .refl
      · exact .inl ht
    · exact .inl ht
  have htypes : (typed o id i type).types = o.types := by
    rw [typed]
    split <;> rfl
  cases h with
  | real hk hi => exact ⟨htypes, htyped ht⟩
  | virtual hk hl => exact ⟨htypes, htyped ht⟩
  | @spread items types hk hl hleaves =>
    refine ⟨htypes, ?_⟩
    have hleafTypes : o.types.leafTypes type = types := by
      cases (leaves_eq hg htype).symm.trans hleaves
      rfl
    have hpushed : ((typed o id i type).push (types.map .temp)).typeOf x = some t := by
      rw [Outline.typeOf, info_modify] at ht
      split at ht
      · next heq =>
        subst heq
        rw [Outline.typeOf]
        obtain ⟨j, hj, hjt⟩ := Option.bind_eq_some_iff.1 ht
        obtain ⟨k, hk, rfl⟩ := Option.map_eq_some_iff.1 hj
        rw [hk]
        exact hjt
      · exact ht
    rcases typeOf_push_cases hpushed with hold | ⟨j, hj, hjt⟩
    · exact htyped hold
    · obtain ⟨leaf, hleaf, rfl⟩ := mem_map.1 hj
      cases hjt
      exact .inr (reaches_of_mem_leafTypes hg htype (hleafTypes ▸ hleaf))

theorem expandVar_whole {valueSpan : Span} (hs : s.outline.Whole free)
    (hvalue : s.types.IsValue type) (htype : s.types.Whole free type)
    (h : expandVar id type valueSpan s = .ok slots s') : s'.outline.Whole free := by
  obtain ⟨hsteps, -⟩ := expandVar_receives hs.good hvalue h
  obtain ⟨i, -, -, hexpanded⟩ := expandVar_ok h
  refine hs.grow hsteps.grows hsteps.good fun x t ht => ?_
  obtain ⟨htypes, hold | hreaches⟩ := hexpanded.typeOf_cases hs.good.types.toSound hvalue.lt_size ht
  · exact .inl hold
  · exact .inr (htypes ▸ htype.reaches hreaches)

mutual

theorem expand_whole {pattern : Pattern} {type : TypeId} {valueSpan : Span} {slots : List VarId}
    {s s' : Session} (hs : s.outline.Whole free) (hvalue : s.types.IsValue type)
    (htype : s.types.Whole free type) (h : expand valueSpan pattern type s = .ok slots s') :
    s'.outline.Whole free := by
  cases pattern with
  | var id span =>
    rw [expand] at h
    exact expandVar_whole hs hvalue htype h
  | tuple items span =>
    simp only [expand, bind_eq_ok_iff, askTypes_eq_ok_iff] at h
    obtain ⟨kind, s₁, ⟨hk, rfl⟩, h⟩ := h
    cases hitems : kind.items? with
    | none =>
      simp only [hitems, bind_eq_ok_iff] at h
      obtain ⟨_, _, -, h⟩ := h
      exact absurd h fail_ne_ok
    | some types =>
      simp only [hitems] at h
      have hpart : ∀ t ∈ types, s.types.Part type t :=
        fun t ht => ⟨kind, hk, TypeKind.parts_of_items hitems ▸ ht⟩
      by_cases hlen : types.length = items.length
      · rw [if_pos hlen] at h
        exact expandEach_whole hs hlen (fun t ht => hs.good.types.parts _ _ (hpart t ht))
          (fun t ht => htype.part (hpart t ht)) h
      · simp only [if_neg hlen, bind_eq_ok_iff] at h
        obtain ⟨_, _, -, h⟩ := h
        exact absurd h fail_ne_ok
termination_by sizeOf pattern

theorem expandEach_whole {items : List Pattern} {types : List TypeId} {valueSpan : Span}
    {slots : List VarId} {s s' : Session} (hs : s.outline.Whole free)
    (hlen : types.length = items.length) (hvalues : ∀ t ∈ types, s.types.IsValue t)
    (htypes : ∀ t ∈ types, s.types.Whole free t)
    (h : expandEach valueSpan items types s = .ok slots s') : s'.outline.Whole free := by
  cases items with
  | nil =>
    obtain ⟨-, rfl⟩ := pure_eq_ok_iff.1 h
    exact hs
  | cons item items =>
    cases types with
    | nil => cases hlen
    | cons type types =>
      simp only [expandEach, bind_eq_ok_iff, pure_eq_ok_iff] at h
      obtain ⟨head, s₁, hhead, rest, s₂, hrest, -, rfl⟩ := h
      obtain ⟨hvalue, hvalues⟩ := forall_mem_cons.1 hvalues
      obtain ⟨htype, htypes⟩ := forall_mem_cons.1 htypes
      obtain ⟨hsteps, -⟩ := expand_fills hs.good hvalue hhead
      exact expandEach_whole (expand_whole hs hvalue htype hhead) (Nat.succ.inj hlen)
        (fun t ht => (hvalues t ht).extend hsteps.grows.types)
        (fun t ht => hs.extend hsteps.grows (hvalues t ht) (htypes t ht)) hrest
termination_by sizeOf items

end

mutual

/-- A name that is declared has no type yet. -/
theorem Declared.typeOf {target : Expr} {pattern : Pattern} {o o' : Outline}
    (h : Declared target pattern o o') {id : VarId} {t : TypeId} (ht : o'.typeOf id = some t) :
    o.typeOf id = some t := by
  cases h with
  | var span name =>
    rcases typeOf_push_cases ht with hold | ⟨i, hi, hit⟩
    · exact hold
    · cases mem_singleton.1 hi
      cases hit
  | tuple span h => exact DeclaredEach.typeOf h ht
termination_by sizeOf pattern

theorem DeclaredEach.typeOf {targets : List Expr} {items : List Pattern} {o o' : Outline}
    (h : DeclaredEach targets items o o') {id : VarId} {t : TypeId} (ht : o'.typeOf id = some t) :
    o.typeOf id = some t := by
  cases h with
  | nil => exact ht
  | cons h hs => exact Declared.typeOf h (DeclaredEach.typeOf hs ht)
termination_by sizeOf items

end

theorem bindPattern_whole {bound : List (String × Span)} {target : Expr} {mode : BindMode}
    (hs : s.outline.Whole free) (h : bindPattern (.declare bound) target s = .ok (pattern, mode) s') :
    (∃ new, s.outline.Adds s'.outline new) ∧ s'.outline.Whole free := by
  obtain ⟨-, hdeclared⟩ := bindPattern_declared h
  obtain ⟨new, hadds, -⟩ := hdeclared.adds hs.good s.frames_ne
  exact ⟨⟨new, hadds⟩, hs.grow hadds.grows hadds.good fun id t ht => .inl (Declared.typeOf hdeclared ht)⟩

/-- A value of a whole type is stored. -/
theorem storeInto_whole (hs : s.outline.Whole free) (hv : v.Ok s.outline)
    (hwhole : s.types.Whole free v.type) (h : storeInto pattern v span s = .ok code s') :
    s'.outline.Whole free := by
  obtain ⟨-, slots, hexpand, -⟩ := storeInto_ok h
  exact expand_whole hs hv.value hwhole hexpand

theorem valueOf_type (h : valueOf id span s = .ok v s') :
    s' = s ∧ s.outline.typeOf id = some v.type := by
  obtain ⟨rfl, i, type, hi, htype, rfl⟩ := valueOf_ok h
  refine ⟨rfl, typeOf_eq_some_iff.2 ⟨i, hi, ?_⟩⟩
  split
  · next hvoid =>
    rw [htype, hvoid]
    rfl
  · split <;> exact htype

theorem newTemp_whole (hs : s.outline.Whole free)
    (h : updateScope (·.newTemp span none) s = .ok id s') :
    s.outline.Steps s'.outline ∧ s'.outline.Whole free := by
  obtain ⟨-, hs'⟩ := newTemp_ok h
  rw [hs']
  have hsteps := Steps.pushFresh hs.good
  refine ⟨hsteps, hs.grow hsteps.grows hsteps.good fun x t ht => ?_⟩
  rcases typeOf_push_cases ht with hold | ⟨i, hi, hit⟩
  · exact .inl hold
  · cases mem_singleton.1 hi
    cases hit

/-- A value is stored into a new variable. -/
theorem storeNew_whole {span' : Span} {dest : VarId} {s₁ : Session} (hs : s.outline.Whole free)
    (hv : v.Ok s.outline) (hwhole : s.types.Whole free v.type)
    (hdest : updateScope (·.newTemp span none) s = .ok dest s₁)
    (hstore : storeInto (.var dest span) v span' s₁ = .ok code s') :
    s.outline.Steps s'.outline ∧ s'.outline.Whole free := by
  obtain ⟨hnew, hs₁⟩ := newTemp_whole hs hdest
  have hv₁ := hv.mono hs.good hnew.keeps
  obtain ⟨hsteps, -⟩ := storeInto_fills hnew.good hv₁ hstore
  exact ⟨hnew.trans hsteps, storeInto_whole hs₁ hv₁ (hs.extend hnew.grows hv.value hwhole) hstore⟩

theorem void_whole (hg : g.Regular) : g.Whole free (Value.void span).type :=
  hg.unit_whole (show TypeId.void < 4 by decide)

theorem keepValue_whole (hs : s.outline.Whole free) (hv : v.Ok s.outline)
    (hwhole : s.types.Whole free v.type) (h : keepValue v span s = .ok (code, w) s') :
    s'.outline.Whole free ∧ s'.types.Whole free w.type := by
  rcases keepValue_ok h with ⟨-, -, rfl, rfl⟩ | ⟨dest, s₁, s₂, hdest, hstore, hvalue⟩
  · exact ⟨hs, hwhole⟩
  · obtain ⟨-, hs₂⟩ := storeNew_whole hs hv hwhole hdest hstore
    obtain ⟨rfl, htype⟩ := valueOf_type hvalue
    exact ⟨hs₂, hs₂.vars dest _ htype⟩

theorem joinBranches_whole {yesCode noCode yesCode' : Code} {yes : Value}
    {no : Option (Code × Value)} (hs : s.outline.Whole free) (hyes : yes.Ok s.outline)
    (hyesType : s.types.Whole free yes.type)
    (hno : ∀ c w, no = some (c, w) → w.Ok s.outline ∧ s.types.Whole free w.type)
    (h : joinBranches (yesCode, yes) no span s = .ok (yesCode', noCode, v) s') :
    s'.outline.Whole free ∧ s'.types.Whole free v.type := by
  rcases joinBranches_ok h with ⟨-, -, -, rfl, rfl, -⟩ |
    ⟨c, w, dest, s₁, s₂, s₃, a, b, rfl, -, hdest, hyesStore, hnoStore, hvalue, -, -⟩
  · exact ⟨hs, void_whole hs.good.types⟩
  · obtain ⟨hw, hwType⟩ := hno c w rfl
    obtain ⟨hsteps, hs₂⟩ := storeNew_whole hs hyes hyesType hdest hyesStore
    have hs₃ := storeInto_whole hs₂ (hw.mono hs.good hsteps.keeps)
      (hs.extend hsteps.grows hw.value hwType) hnoStore
    obtain ⟨rfl, htype⟩ := valueOf_type hvalue
    exact ⟨hs₃, hs₃.vars dest _ htype⟩

/-- The variable of a loop is shaped after the first value that the loop is left with. -/
theorem leaveWith_expanded {label : Option String} (hg : s.outline.Good) (hv : v.Ok s.outline)
    (h : leaveWith label v span s = .ok (code, w) s') :
    s'.outline = s.outline ∨ ∃ id i slots, Expanded s.outline id i v.type slots s'.outline := by
  obtain ⟨-, ref, i, s₁, stores, -, hi, -, htyped, hstores, -⟩ := leaveWith_ok h
  rcases htyped with ⟨hun, hs₁⟩ | ⟨t, sp, after, ht, rfl, -⟩
  · rcases hstores with ⟨hvoid, -, rfl⟩ | ⟨-, slots, hexpand, -⟩
    · have hk : s.outline.types.kind v.type = .ok .void := by
        rw [hv.void.1 hvoid]
        exact hg.types.void
      have heq : s'.outline = typed s.outline ref.var i v.type := by rw [hs₁, typed, if_pos hun]
      exact .inr ⟨ref.var, i, [ref.var], heq ▸ .real hk rfl⟩
    · obtain ⟨j, hj, -, hexpanded⟩ := expandVar_ok hexpand
      rw [hs₁, info_modify, if_pos rfl, hi] at hj
      cases hj
      rw [hs₁] at hexpanded
      exact .inr ⟨ref.var, i, slots, .of_typed hun hexpanded⟩
  · rcases hstores with ⟨-, -, rfl⟩ | ⟨-, slots, hexpand, -⟩
    · exact .inl rfl
    · obtain ⟨j, -, -, hexpanded⟩ := expandVar_ok hexpand
      exact .inr ⟨ref.var, j, slots, hexpanded⟩

theorem leaveWith_whole {label : Option String} (hs : s.outline.Whole free) (hv : v.Ok s.outline)
    (hwhole : s.types.Whole free v.type) (h : leaveWith label v span s = .ok (code, w) s') :
    s'.outline.Whole free ∧ s'.types.Whole free w.type := by
  obtain ⟨hsteps, rfl, -⟩ := leaveWith_takes hs.good hv h
  refine ⟨hs.grow hsteps.grows hsteps.good fun x t ht => ?_, void_whole hsteps.good.types⟩
  rcases leaveWith_expanded hs.good hv h with heq | ⟨id, i, slots, hexpanded⟩
  · exact .inl (heq ▸ ht)
  · obtain ⟨htypes, hold | hreaches⟩ := hexpanded.typeOf_cases hs.good.types.toSound hv.value.lt_size ht
    · exact .inl hold
    · exact .inr (htypes ▸ hwhole.reaches hreaches)

theorem loopValue_whole (hs : s.outline.Whole free) (h : loopValue id span s = .ok v s') :
    s'.outline.Whole free ∧ s'.types.Whole free v.type := by
  obtain ⟨i, -, ⟨-, rfl, rfl⟩ | ⟨-, hvalue⟩⟩ := loopValue_ok h
  · exact ⟨hs, void_whole hs.good.types⟩
  · obtain ⟨rfl, htype⟩ := valueOf_type hvalue
    exact ⟨hs, hs.vars id _ htype⟩

/-- The type graph grows, and a temporary may be made for a whole type. -/
theorem withTemp_whole {kind : TypeKind} (hs : s.outline.Whole free)
    (hgrown : Grown s.types g [type]) (hk : g.kind type = .ok kind)
    (hp : kind.payload? = some payload) (hwhole : g.Whole free type)
    (hs' : s'.outline = withTemp s g type) : s'.outline.Whole free := by
  rw [hs']
  obtain ⟨hsteps, -⟩ := box_temp hs.good hgrown hk hp ⟨0, 0⟩
  refine hs.grow hsteps.grows hsteps.good fun x t ht => ?_
  rcases typeOf_push_cases ht with hold | ⟨i, hi, hit⟩
  · exact .inl hold
  · cases mem_singleton.1 hi
    cases hit
    exact .inr hwhole

theorem temps_whole {o : Outline} (ho : o.Whole free) (htype : o.types.IsScalar type)
    (hwhole : o.types.Whole free type) (count : Nat) :
    (o.push (List.replicate count (.temp type))).Whole free := by
  have hsteps := Steps.temps ho.good htype count
  refine ho.grow hsteps.grows hsteps.good fun x t ht => ?_
  rcases typeOf_push_cases ht with hold | ⟨i, hi, hit⟩
  · exact .inl hold
  · cases eq_of_mem_replicate hi
    cases hit
    exact .inr hwhole

section

variable (hs : s.outline.Whole free)

include hs

theorem tupleOf_whole {values : List Value}
    (hvalues : ∀ w ∈ values, w.Ok s.outline ∧ s.types.Whole free w.type)
    (h : tupleOf values span s = .ok v s') : s'.outline.Whole free ∧ s'.types.Whole free v.type := by
  obtain ⟨hsteps, -⟩ := tupleOf_value hs.good (fun w hw => (hvalues w hw).1) h
  obtain ⟨-, rfl, rfl⟩ := tupleOf_ok h
  refine ⟨hs.grow hsteps.grows hsteps.good fun x t ht => .inl ht, ?_⟩
  refine .add hs.good.types.toSound (some span) (by rintro ⟨⟩) (by rintro _ ⟨⟩) fun part hpart => ?_
  obtain ⟨w, hw, rfl⟩ := mem_map.1 hpart
  exact ⟨(hvalues w hw).1.value.lt_size, (hvalues w hw).2⟩

/-- A box around a whole type is added, and a temporary that holds such a box is made. -/
theorem boxTemp_whole (hgrown : s.types.Grown g [payload]) (hwhole : g.Whole free payload)
    (hs' : s'.outline = withTemp s (g.add (.box payload) (some span)).2 g.size) :
    s'.outline.Whole free ∧ s'.types.Whole free g.size := by
  have hadded : s.types.Grown (g.add (.box payload) (some span)).2 [g.size] :=
    hgrown.add (some span) rfl rfl rfl
  have hk := (kind_add g (.box payload) (some span) g.size).trans (if_pos rfl)
  have hbox : (g.add (.box payload) (some span)).2.Whole free g.size := by
    refine .add hgrown.regular.toSound (some span) (by rintro ⟨⟩) (by rintro _ ⟨⟩) fun part hpart => ?_
    cases mem_singleton.1 hpart
    exact ⟨(hgrown.values payload mem_cons_self).lt_size, hwhole⟩
  refine ⟨withTemp_whole hs hadded hk rfl hbox hs', ?_⟩
  rw [show s'.types = _ from congrArg Outline.types hs']
  exact hbox

theorem wrapValue_whole {payloadSpan : Span} (hv : v.Ok s.outline) (hwhole : s.types.Whole free v.type)
    (h : wrapValue v payloadSpan span s = .ok (code, w) s') :
    s'.outline.Whole free ∧ s'.types.Whole free w.type := by
  obtain ⟨-, hs', -, rfl⟩ := wrapValue_ok h
  refine boxTemp_whole hs ⟨hs.good.types, .refl _, fun id hid => ?_⟩ hwhole hs'
  exact mem_singleton.1 hid ▸ hv.value

theorem consValue_whole {head tail : Value} (htail : s.types.Whole free tail.type)
    (h : consValue head tail span s = .ok (code, w) s') :
    s'.outline.Whole free ∧ s'.types.Whole free w.type := by
  obtain ⟨item, payload, operand, after, hk, -, -, -, hs', -, rfl⟩ := consValue_ok h
  have hscalar := isScalar_of_payload hs.good.types hk rfl
  rw [hs', show s'.types = s.types from congrArg Outline.types hs']
  exact ⟨temps_whole hs hscalar htail 1, htail⟩

/-- An empty box has the type that was written. -/
theorem wrapNothing_whole {payload : TypeExpr} (hfree : free = false → payload.isConcrete = true)
    (h : wrapNothing payload span s = .ok (code, w) s') :
    s'.outline.Whole free ∧ s'.types.Whole free w.type := by
  obtain ⟨hs', -, rfl⟩ := wrapNothing_ok h
  exact boxTemp_whole hs (resolve_grown hs.good.types payload)
    (resolve_whole hs.good.types payload hfree) hs'

theorem consNothing_whole {item : TypeExpr} (hfree : free = false → item.isConcrete = true)
    (h : consNothing item span s = .ok (code, w) s') :
    s'.outline.Whole free ∧ s'.types.Whole free w.type := by
  obtain ⟨hs', -, rfl⟩ := consNothing_ok h
  have hresolved := resolve_grown hs.good.types item
  have hgrown := hresolved.addList (some span)
  have hlist := Whole.addList hresolved.regular.toSound (some span)
    (hresolved.values _ mem_cons_self).lt_size (resolve_whole hs.good.types item hfree)
  refine ⟨withTemp_whole hs hgrown ((kind_addList _ _ _ _).trans (if_pos rfl)) rfl hlist hs', ?_⟩
  rw [show s'.types = _ from congrArg Outline.types hs']
  exact hlist

/-- Placeholders of the result are filled in with types that the arguments had. -/
theorem callResult_whole {result : TypeId} {b : Bindings} {outputs : List VarId}
    (hresult : s.types.IsValue result) (hwhole : s.types.Whole true result)
    (hb : s.types.BindsWhole free b) (h : callResult result b span s = .ok (outputs, v) s') :
    s'.outline.Whole free ∧ s'.types.Whole free v.type := by
  rcases callResult_ok h with ⟨-, -, rfl, rfl⟩ |
    ⟨-, r, g, dest, s₁, s₂, hinst, hdest, hexpand, hvalue⟩
  · exact ⟨hs, void_whole hs.good.types⟩
  · obtain ⟨hgrown, -⟩ := instantiate_spec hs.good.types hb.values hresult hinst
    have hr := instantiate_whole hs.good.types hb hresult.lt_size hwhole hinst
    have hs₀ : ({ s with types := g } : Session).outline.Whole free :=
      hs.grow (.retype hgrown.ext) (hs.good.retype hgrown.regular hgrown.ext) fun x t ht => .inl ht
    obtain ⟨hnew, hs₁⟩ := newTemp_whole hs₀ hdest
    have hvalue₀ : g.IsValue r := hgrown.values r mem_cons_self
    have hs₂ := expandVar_whole hs₁ (hvalue₀.extend hnew.grows.types) (hs₀.extend hnew.grows hvalue₀ hr)
      hexpand
    obtain ⟨rfl, htype⟩ := valueOf_type hvalue
    exact ⟨hs₂, hs₂.vars dest _ htype⟩

end

end Lower

/-! ## Lists of trees -/

/-- The type has no placeholders, unless those are `free`. -/
def TypeExpr.Fits (free : Bool) (type : TypeExpr) : Prop :=
  free = false → type.isConcrete = true

/-- Lowering the expression, if it succeeds, gives whole types only. -/
def Expr.StaysWhole (free : Bool) (e : Expr) : Prop :=
  ∀ ⦃s s' : Session⦄ ⦃code : Code⦄ ⦃v : Value⦄, s.outline.Whole free →
    lowerExpr e s = .ok (code, v) s' → s'.outline.Whole free ∧ s'.types.Whole free v.type

def Block.StaysWhole (free : Bool) (b : Block) : Prop :=
  ∀ ⦃s s' : Session⦄ ⦃code : Code⦄ ⦃v : Value⦄, s.outline.Whole free →
    lowerBlock b s = .ok (code, v) s' → s'.outline.Whole free ∧ s'.types.Whole free v.type

def Stmt.StaysWhole (free : Bool) (stmt : Stmt) : Prop :=
  ∀ ⦃s s' : Session⦄ ⦃code : Code⦄ ⦃value v : Value⦄, s.outline.Whole free → value.Ok s.outline →
    s.types.Whole free value.type → lowerStmt value stmt s = .ok (code, v) s' →
      s'.outline.Whole free ∧ s'.types.Whole free v.type

section

variable {free : Bool} {s s' : Session} {code : Code}

theorem lowerItems_whole (hes : ∀ e ∈ es, e.StaysWhole free) (hs : s.outline.Whole free)
    {values : List Value} (h : lowerItems es s = .ok (code, values) s') :
    s'.outline.Whole free ∧ ∀ v ∈ values, s'.types.Whole free v.type := by
  induction es generalizing s code values with
  | nil =>
    cases h
    exact ⟨hs, forall_mem_nil _⟩
  | cons e es ih =>
    obtain ⟨he, hes⟩ := forall_mem_cons.1 hes
    obtain ⟨c, v, s₁, cs, vs, hexpr, hrest, -, rfl⟩ := lowerItems_cons h
    obtain ⟨hs₁, hv⟩ := he hs hexpr
    obtain ⟨-, -, hok⟩ := e.lowers hs.good hexpr
    obtain ⟨hsteps, -⟩ := lowerItems_emits (fun e _ => e.lowers) hs₁.good hrest
    obtain ⟨hs', hvs⟩ := ih hes hs₁ hrest
    exact ⟨hs', forall_mem_cons.2 ⟨hs₁.extend hsteps.grows hok.value hv, hvs⟩⟩

theorem holdInteger_whole (hs : s.outline.Whole free) (h : holdInteger v span s = .ok (code, id) s') :
    s'.outline.Whole free := by
  rcases holdInteger_ok h with ⟨-, -, rfl⟩ | ⟨operand, -, -, -, hs'⟩
  · exact hs
  · rw [hs']
    exact temps_whole hs (isScalar_integer hs.good.types)
      (hs.good.types.unit_whole (show TypeId.integer < 4 by decide)) 1

theorem InTurn.whole {held : Bool} {parts : List Part} (h : InTurn held es s code s' parts)
    (hes : ∀ e ∈ es, e.StaysWhole free) (hs : s.outline.Whole free) : s'.outline.Whole free := by
  induction h with
  | nil => exact hs
  | cons hpart _ ih =>
    obtain ⟨he, hrest⟩ := forall_mem_cons.1 hes
    cases hpart with
    | value h => exact ih hrest (he hs h).1
    | held h _ hhold => exact ih hrest (holdInteger_whole (he hs h).1 hhold)

theorem lowerArgs_whole {targetSpan : Span} (hes : ∀ e ∈ es, e.StaysWhole free)
    (hs : s.outline.Whole free) {params : List TypeId} (hparams : ∀ p ∈ params, s.types.IsValue p)
    {b b' : Bindings} (hb : s.types.BindsWhole free b) {inputs : List Operand}
    (h : lowerArgs targetSpan b es params s = .ok (code, inputs, b') s') :
    s'.outline.Whole free ∧ s'.types.BindsWhole free b' := by
  induction es generalizing s code params b inputs with
  | nil =>
    cases h
    exact ⟨hs, hb⟩
  | cons e es ih =>
    cases params with
    | nil =>
      cases h
      exact ⟨hs, hb⟩
    | cons param params =>
      obtain ⟨he, hes⟩ := forall_mem_cons.1 hes
      obtain ⟨c, v, s₁, sp, b₁, cs, ins, hexpr, hbind, hrest, -, -⟩ := lowerArgs_cons h
      obtain ⟨hs₁, hv⟩ := he hs hexpr
      obtain ⟨hsteps, -, hok⟩ := e.lowers hs.good hexpr
      have hparams' : ∀ p ∈ param :: params, s₁.types.IsValue p :=
        fun p hp => (hparams p hp).extend hsteps.grows.types
      obtain ⟨hparam, hparams'⟩ := forall_mem_cons.1 hparams'
      obtain ⟨-, after, hmatch, rfl⟩ := bindArgument_ok hbind
      have hb₁ := (hb.extend hs.good.types.toSound hsteps.grows.types).matched hs₁.good.types
        hparam.lt_size hok.value.lt_size hv hmatch
      exact ih hes hs₁ hparams' hb₁ hrest

theorem lowerElse_whole {no : Option Expr} (hno : ∀ e ∈ no, e.StaysWhole free)
    (hs : s.outline.Whole free)
    {r : Option (Code × Value)} (h : lowerElse no s = .ok r s') :
    s'.outline.Whole free ∧ ∀ c w, r = some (c, w) → w.Ok s'.outline ∧ s'.types.Whole free w.type := by
  rcases lowerElse_cases h with ⟨rfl, rfl, rfl⟩ | ⟨e, c, v, rfl, rfl, hexpr⟩
  · exact ⟨hs, by rintro c w ⟨⟩⟩
  · obtain ⟨hs', hv⟩ := hno e rfl hs hexpr
    refine ⟨hs', ?_⟩
    rintro c w ⟨⟩
    exact ⟨(e.lowers hs.good hexpr).2.2, hv⟩

theorem lowerStmts_whole {stmts : List Stmt} (hstmts : ∀ stmt ∈ stmts, stmt.StaysWhole free)
    (hs : s.outline.Whole free)
    {value : Value} (hvalue : value.Ok s.outline) (hwhole : s.types.Whole free value.type)
    (h : lowerStmts value stmts s = .ok (code, v) s') :
    s'.outline.Whole free ∧ s'.types.Whole free v.type := by
  induction stmts generalizing s code value with
  | nil =>
    cases h
    exact ⟨hs, hwhole⟩
  | cons stmt stmts ih =>
    obtain ⟨hstmt, hstmts⟩ := forall_mem_cons.1 hstmts
    obtain ⟨c, w, s₁, cs, hfirst, hrest, -⟩ := lowerStmts_cons h
    obtain ⟨hs₁, hw⟩ := hstmt hs hvalue hwhole hfirst
    exact ih hstmts hs₁ (stmt.lowers hs.good hvalue hfirst).2.2 hw hrest

end

/-! ## All trees -/

/-- The branch that is taken with the payload of a full box. -/
theorem Unboxed.whole {target yes : Expr} {box : Value} {operand : Operand} {mode : BindMode}
    {s₁ s₂ s₃ s₄ : Session}
    (h : Unboxed span box target payload operand id pattern mode slots s s₁ s₂ s₃)
    (hyes : yes.StaysWhole free) (hs : s.outline.Whole free) (hbox : s.types.Whole free box.type)
    (hlower : lowerExpr yes s₃ = .ok (code, v) s₄) :
    s₄.exit.outline.Whole free ∧ v.Ok s₄.exit.outline ∧ s₄.exit.types.Whole free v.type := by
  obtain ⟨-, -, kind, hk, hp⟩ := openBox_ok h.opens
  have hvalue := h.isValue hs.good
  obtain ⟨hsteps, -⟩ := h.fills hs.good
  have hs₁ : s₁.outline.Whole free := by
    rw [(newTyped_ok h.tests).2]
    exact temps_whole hs (isScalar_boolean hs.good.types)
      (hs.good.types.unit_whole (show TypeId.boolean < 4 by decide)) 1
  obtain ⟨⟨new, hadds⟩, hs₂⟩ := bindPattern_whole (s := s₁.enter) hs₁.enter h.binds
  have hgrows : s.outline.Grows s₂.outline := hsteps.grows.trans ((Grows.reframe _ _).trans hadds.grows)
  have hs₃ := expand_whole hs₂ (hvalue.extend hgrows.types)
    (hs.extend hgrows hvalue (hbox.part (.payload hk hp))) h.expands
  obtain ⟨hs₄, hv⟩ := hyes hs₃ hlower
  obtain ⟨hsteps', -, hok⟩ := yes.lowers hs₃.good hlower
  obtain ⟨new', hadds'⟩ := h.adds hs.good
  obtain ⟨-, hkeeps, -⟩ := exit_adds (hadds'.trans (hsteps'.adds hadds'.frames_ne))
  exact ⟨hs₄.exit hkeeps, hok.mono hs₄.good hkeeps, hs₄.extend hkeeps.grows hok.value hv⟩

theorem staysWhole (free : Bool) :
    Hereditary (Expr.StaysWhole free) (Block.StaysWhole free) (Stmt.StaysWhole free)
      (TypeExpr.Fits free) where
  var span name s s' code v hs h := by
    cases lowerExpr_cases h with
    | @var _ _ _ id _ hid hv => exact ⟨hs, hs.vars id _ (valueOf_type hv).2⟩
  int span value s s' code v hs h := by
    cases lowerExpr_cases h with
    | int => exact ⟨hs, hs.good.types.unit_whole (show TypeId.integer < 4 by decide)⟩
  bool span value s s' code v hs h := by
    cases lowerExpr_cases h with
    | bool => exact ⟨hs, hs.good.types.unit_whole (show TypeId.boolean < 4 by decide)⟩
  str span value s s' code v hs h := by
    cases lowerExpr_cases h with
    | str => exact ⟨hs, hs.good.types.unit_whole (show TypeId.string < 4 by decide)⟩
  tuple span items hitems s s' code v hs h := by
    cases lowerExpr_cases h with
    | tuple hlower htuple =>
      obtain ⟨hs₁, hvalues⟩ := lowerItems_whole hitems hs hlower
      obtain ⟨-, -, hok⟩ := lowerItems_emits (fun e _ => e.lowers) hs.good hlower
      exact tupleOf_whole hs₁ (fun w hw => ⟨hok w hw, hvalues w hw⟩) htuple
  arith span op operands hoperands s s' code v hs h := by
    cases lowerExpr_cases h with
    | arith hlower =>
      obtain ⟨parts, hparts, -⟩ := lowerOperands_inTurn hlower
      have hs' := hparts.whole hoperands hs
      have hunit : op.type < 4 := by cases op <;> decide
      exact ⟨hs', hs'.good.types.unit_whole hunit⟩
  compare span chain hchain s s' code v hs h := by
    cases lowerExpr_cases h with
    | compare hgroup hlinks hrun =>
      obtain ⟨parts, hparts, -⟩ := lowerGroup_inTurn hgroup
      obtain ⟨parts', hparts', -⟩ := lowerLinks_inTurn hlinks
      have hs₂ := (hparts.append hparts').whole (Link.forall_allOperands hchain) hs
      have hboolean : TypeId.boolean < 4 := by decide
      have hs' : s'.outline.Whole free := by
        rw [(runComparisons_ok hrun).1]
        exact temps_whole hs₂ (isScalar_boolean hs₂.good.types) (hs₂.good.types.unit_whole hboolean) _
      exact ⟨hs', hs'.good.types.unit_whole hboolean⟩
  not span operand _ s s' code v hs h := absurd h unsupported_ne_ok
  call span target args hargs s s' code v hs h := by
    cases lowerExpr_cases h with
    | @call _ targetSpan name _ _ s₁ s₂ _ c _ inputs b outputs _ command hcallee hlen hlower hresult
        hcommand =>
      obtain ⟨-, hparams, hvalue, -⟩ := callee_values hs.good hcallee
      obtain ⟨-, sig, params, hsig, hk, -⟩ := callee_ok hcallee
      have hresultType : s.types.Whole true c.result :=
        (hs.functions name sig hsig).part ⟨_, hk, mem_append_right _ mem_cons_self⟩
      have hnil : s.types.BindsWhole free [] := by rintro name bound ⟨⟩
      obtain ⟨hs₁, hb⟩ := lowerArgs_whole hargs hs hparams hnil hlower
      obtain ⟨hsteps, -⟩ := lowerArgs_emits (fun e _ => e.lowers) hlen hs.good hparams .nil hlower
      obtain ⟨hs₂, hv⟩ := callResult_whole hs₁ (hvalue.extend hsteps.grows.types)
        (hresultType.extend hs.good.types.toSound hsteps.grows.types hvalue.lt_size) hb hresult
      obtain ⟨heq, -⟩ := callCommand_ok hcommand
      rw [show s'.types = s₂.types from congrArg Outline.types heq, heq]
      exact ⟨hs₂, hv⟩
  block span body hbody s s' code v hs h := by
    cases lowerExpr_cases h with
    | block hlower hkeep =>
      obtain ⟨hs₁, hv⟩ := hbody hs hlower
      exact keepValue_whole hs₁ (body.lowers hs.good hlower).2.2 hv hkeep
  cond span test yes no htest hyes hno s s' code v hs h := by
    cases lowerExpr_cases h with
    | cond hlowerTest htype hshape hlowerYes hlowerNo hjoin =>
      have hs₁ := (htest hs hlowerTest).1
      obtain ⟨hs₂, hyesType⟩ := hyes hs₁ hlowerYes
      obtain ⟨-, -, hyesOk⟩ := yes.lowers hs₁.good hlowerYes
      obtain ⟨hs₃, hnoTypes⟩ := lowerElse_whole hno hs₂ hlowerNo
      obtain ⟨hsteps, -⟩ := lowerElse_emits (fun e _ => e.lowers) hs₂.good hlowerNo
      exact joinBranches_whole hs₃ (hyesOk.mono hs₂.good hsteps.keeps)
        (hs₂.extend hsteps.grows hyesOk.value hyesType) hnoTypes hjoin
  ifFull span boxed target yes no hboxed hyes hno s s' code v hs h := by
    cases lowerExpr_cases h with
    | ifFull hlowerBox hunboxed hlowerYes hlowerNo hjoin =>
      obtain ⟨hs₁, hbox⟩ := hboxed hs hlowerBox
      obtain ⟨hs₅, hyesOk, hyesType⟩ := hunboxed.whole hyes hs₁ hbox hlowerYes
      obtain ⟨hs₆, hnoTypes⟩ := lowerElse_whole hno hs₅ hlowerNo
      obtain ⟨hstepsNo, -⟩ := lowerElse_emits (fun e _ => e.lowers) hs₅.good hlowerNo
      exact joinBranches_whole hs₆ (hyesOk.mono hs₅.good hstepsNo.keeps)
        (hs₅.extend hstepsNo.grows hyesOk.value hyesType) hnoTypes hjoin
  loop span label body hbody s s' code v hs h := by
    cases lowerExpr_cases h with
    | @loop _ _ _ _ s₁ s₂ ref _ _ _ hloop hlower hvalue =>
      obtain ⟨-, hopened, hgood, -, -, hkeeps, -⟩ := loopBody_opens body.lowers hs.good hloop hlower
      have hgrows : s.outline.enter.Grows s₁.outline := hopened ▸ .openLoop _ label
      have hs₁ : s₁.outline.Whole free := by
        refine hs.enter.grow hgrows hgood fun id t ht => ?_
        rw [hopened] at ht
        rcases typeOf_push_cases ht with hold | ⟨i, hi, hit⟩
        · exact .inl hold
        · cases mem_singleton.1 hi
          cases hit
      exact loopValue_whole ((hbody hs₁ hlower).1.exit hkeeps) hvalue
  leave span label value hvalue s s' code v hs h := by
    cases lowerExpr_cases h with
    | leave hleave => exact leaveWith_whole hs (Value.ok_void hs.good span) (void_whole hs.good.types) hleave
    | leaveWith hlower hleave =>
      obtain ⟨hs₁, hv⟩ := hvalue _ rfl hs hlower
      exact leaveWith_whole hs₁ (Expr.lowers _ hs.good hlower).2.2 hv hleave
  wrap span payload hpayload s s' code v hs h := by
    cases lowerExpr_cases h with
    | wrap hlower hwrap =>
      obtain ⟨hs₁, hv⟩ := hpayload hs hlower
      exact wrapValue_whole hs₁ (payload.lowers hs.good hlower).2.2 hv hwrap
  wrapEmpty span payload hfits s s' code v hs h := wrapNothing_whole hs hfits h
  cons span head tail hhead htail s s' code v hs h := by
    cases lowerExpr_cases h with
    | cons hlowerHead hlowerTail hcons =>
      obtain ⟨hs₁, -⟩ := hhead hs hlowerHead
      obtain ⟨hs₂, htailType⟩ := htail hs₁ hlowerTail
      exact consValue_whole hs₂ htailType hcons
  consEmpty span item hfits s s' code v hs h := consNothing_whole hs hfits h
  body span stmts hstmts s s' code v hs h := by
    obtain ⟨s₁, hlower, rfl⟩ := lowerBlock_cases h
    have hvoid := Value.ok_void hs.enter.good span
    obtain ⟨hs₁, hv⟩ := lowerStmts_whole (s := s.enter) hstmts hs.enter hvoid
      (void_whole hs.good.types) hlower
    obtain ⟨⟨new, hadds⟩, -, hok⟩ :=
      lowerStmts_emits (s := s.enter) (fun stmt _ => stmt.lowers) hs.enter.good hvoid hlower
    obtain ⟨-, hkeeps, -⟩ := exit_adds hadds
    exact ⟨hs₁.exit hkeeps, hs₁.extend hkeeps.grows hok.value hv⟩
  bind span target value hvalue s s' code v w hs hv hwhole h := by
    cases lowerStmt_cases h with
    | bind hexpr hbind hstore =>
      obtain ⟨hsteps, -, hstored⟩ := value.lowers hs.good hexpr
      obtain ⟨hs₁, htype⟩ := hvalue hs hexpr
      obtain ⟨⟨new, hadds⟩, hs₂⟩ := bindPattern_whole hs₁ hbind
      have hstored₂ := hstored.mono hs₁.good hadds.keeps
      have hs' := storeInto_whole hs₂ hstored₂ (hs₁.extend hadds.grows hstored.value htype) hstore
      obtain ⟨hsteps', -⟩ := storeInto_fills hs₂.good hstored₂ hstore
      exact ⟨hs', hs.extend ((hsteps.grows.trans hadds.grows).trans hsteps'.grows) hv.value hwhole⟩
  set span target value hvalue s s' code v w hs hv hwhole h := by
    cases lowerStmt_cases h with
    | set hexpr hbind hstore =>
      obtain ⟨hsteps, -, hstored⟩ := value.lowers hs.good hexpr
      obtain ⟨hs₁, htype⟩ := hvalue hs hexpr
      obtain ⟨rfl, -⟩ := bindPattern_resolve_ok hbind
      have hs' := storeInto_whole hs₁ hstored htype hstore
      obtain ⟨hsteps', -⟩ := storeInto_fills hs₁.good hstored hstore
      exact ⟨hs', hs.extend (hsteps.grows.trans hsteps'.grows) hv.value hwhole⟩
  yield span value hvalue s s' code v w hs hv hwhole h := hvalue hs h
  ret span value _ s s' code v w hs hv hwhole h := absurd h unsupported_ne_ok
  eval span value hvalue s s' code v w hs hv hwhole h := by
    cases lowerStmt_cases h with
    | eval hexpr =>
      obtain ⟨hsteps, -⟩ := value.lowers hs.good hexpr
      exact ⟨(hvalue hs hexpr).1, hs.extend hsteps.grows hv.value hwhole⟩

/-! ## Functions -/

/-- Parameters of whole types are declared. -/
theorem declareParams_whole {params : List Param} {types : List TypeId}
    {bound : List (String × Span)} {s' : Session} (hs : s.outline.Whole free)
    (hvalues : ∀ t ∈ types, s.types.IsValue t) (hwhole : ∀ t ∈ types, s.types.Whole free t)
    (h : declareParams (.declare bound) params types s = .ok slots s') : s'.outline.Whole free := by
  induction params generalizing types s bound slots with
  | nil =>
    obtain ⟨-, rfl⟩ := pure_eq_ok_iff.1 h
    exact hs
  | cons param params ih =>
    cases types with
    | nil =>
      obtain ⟨-, rfl⟩ := pure_eq_ok_iff.1 h
      exact hs
    | cons type types =>
      simp only [declareParams, bind_eq_ok_iff, pure_eq_ok_iff, Prod.exists] at h
      obtain ⟨id, mode, s₁, hbind, head, s₂, hexpand, rest, s₃, hrest, -, rfl⟩ := h
      obtain ⟨hvalue, hvalues⟩ := forall_mem_cons.1 hvalues
      obtain ⟨hhead, hwhole⟩ := forall_mem_cons.1 hwhole
      have hpattern : bindPattern (.declare bound) (.var param.span param.name) s =
          .ok (.var id param.span, mode) s₁ := by
        rw [bindPattern]
        exact bind_eq_ok_iff.2 ⟨(id, mode), s₁, hbind, rfl⟩
      obtain ⟨⟨new, hadds⟩, hs₁⟩ := bindPattern_whole hs hpattern
      have hvalue₁ : s₁.types.IsValue type := hvalue.extend hadds.grows.types
      have hs₂ := expand_whole hs₁ hvalue₁ (hs.extend hadds.grows hvalue hhead) hexpand
      obtain ⟨hsteps, -⟩ := expand_fills hs₁.good hvalue₁ hexpand
      obtain ⟨⟨bound', rfl⟩, -⟩ := bindName_declare_ok hbind
      have hgrows := hadds.grows.trans hsteps.grows
      exact ih hs₂ (fun t ht => (hvalues t ht).extend hgrows.types)
        (fun t ht => hs.extend hgrows (hvalues t ht) (hwhole t ht)) hrest

namespace LoweredFunction

variable {free : Bool} {decl : FnDecl} {f : Function} {c : Callee} {s s₁ s₂ s' : Session} {v : Value}

section

variable (h : LoweredFunction decl s f c s₁ s₂ v s')

include h

theorem whole (hs : s.outline.Whole free) (hparams : ∀ p ∈ c.params, s.types.Whole free p)
    (hfit : ∀ type ∈ decl.body.annotations, type.Fits free) :
    s₁.outline.Whole free ∧ s₂.outline.Whole free := by
  obtain ⟨-, hvalues, -⟩ := callee_values hs.good h.callee
  have hs₁ := declareParams_whole (s := s.enter) hs.enter hvalues hparams h.params
  exact ⟨hs₁, ((staysWhole free).blockOn decl.body hfit hs₁ h.body).1⟩

theorem typeOf (id : VarId) : s₂.outline.typeOf id = f.vars[id]?.bind Var.type := by
  rw [← s₂.exit_typeOf, h.vars]
  simp [Outline.typeOf, Outline.info, Session.outline, Scope.infos, Scope.table, Option.bind_map,
    VarInfo.ofVar]

theorem var_whole (hs₂ : s₂.outline.Whole free) {w : Var} (hw : f.vars[id]? = some w)
    (ht : w.type = some t) : t < s₂.types.size ∧ s₂.types.Whole free t := by
  have htype : s₂.outline.typeOf id = some t := by
    rw [h.typeOf, hw]
    exact ht
  exact ⟨(hs₂.good.isValue htype).lt_size, hs₂.vars id t htype⟩

end

end LoweredFunction

end SlotCode
