import SlotCode.Proofs.Program.Whole

/-!
# Type graphs that can be built

A type graph is built by adding nodes, by resolving written types, by filling in placeholders and by
requests to a session, in any order and whether or not they succeed.  Each operation may use the types
that earlier ones returned and what can be reached from those; only functions are no parts of types.

Every graph that is reached so is well formed (`reached_wellFormed`).  A copy that stops leaves half
of a type behind, but no type that is returned leads there.
-/

namespace SlotCode

variable {g : TypeGraph} {id : TypeId}

open Lower List TypeGraph

/-! ## Operations -/

inductive Operation where
  | tuple (items : List TypeId) (origin : Option Span)
  | box (payload : TypeId) (origin : Option Span)
  | list (item : TypeId) (origin : Option Span)
  | placeholder (name : String) (origin : Option Span)
  | function (params : List TypeId) (result : TypeId) (origin : Option Span)
  | native (params : List TypeId) (result : TypeId)
  | resolve (type : TypeExpr)
  | instantiate (type : TypeId) (bindings : Bindings) (span : Span)
  | signature (name : String) (span : Span)
  | natives
  | declare (decl : FnDecl)
  | entry (name : String)
  | lower (decl : FnDecl)

namespace Operation

/-- Does the operation and gives the types that it returns.  A lowered function returns all the types that
it mentions. -/
def step : Operation → Lower (List TypeId)
  | tuple items origin => do return [← updateTypes (·.add (.tuple items) origin)]
  | box payload origin => do return [← updateTypes (·.add (.box payload) origin)]
  | list item origin => do return [← updateTypes (·.addList item origin)]
  | placeholder name origin => do return [← updateTypes (·.add (.placeholder name) origin)]
  | function params result origin => do
    return [← updateTypes (·.add (.function params result false) origin)]
  | native params result => do return [← updateTypes (·.addNative params result)]
  | resolve type => do return [← updateTypes (·.resolve type)]
  | instantiate type bindings span => do return [← Lower.instantiate type bindings span]
  | signature name span => do return [← search (·.signature name span)]
  | natives => do
    registerNatives
    return []
  | declare decl => do return [← Lower.declare decl]
  | entry name => do
    checkEntryPoint name
    return []
  | lower decl => do return (← lowerFunction decl).types

/-- The types that the operation may make parts of other types. -/
def uses : Operation → List TypeId
  | tuple items _ => items
  | box payload _ => [payload]
  | list item _ => [item]
  | function params result _ | native params result => params ++ [result]
  | instantiate _ bindings _ => bindings.map Prod.snd
  | _ => []

/-- The type that the operation starts from. -/
def source? : Operation → Option TypeId
  | instantiate type _ _ => some type
  | _ => none

/-- The operation is given types that can be reached from those returned before, and no function to make
a part of a type. -/
structure Admissible (g : TypeGraph) (returned : List TypeId) (op : Operation) : Prop where
  uses : ∀ id ∈ op.uses, ∃ start ∈ returned, g.Reaches start id
  values : ∀ id ∈ op.uses, ∀ params result native, g.kind id ≠ .ok (.function params result native)
  source : ∀ id ∈ op.source?, ∃ start ∈ returned, g.Reaches start id

end Operation

/-- Operations lead to the session, and they have returned the types.  The unit types are always at
hand. -/
inductive Session.Reached : Session → List TypeId → Prop where
  | initial : Reached .initial [.void, .integer, .boolean, .string]
  | ok {s s' : Session} {returned ids : List TypeId} {op : Operation} (h : Reached s returned)
      (hop : op.Admissible s.types returned) (hrun : op.step s = .ok ids s') :
      Reached s' (ids ++ returned)
  | error {s s' : Session} {returned : List TypeId} {op : Operation} {failure : Failure LoweringError}
      (h : Reached s returned) (hop : op.Admissible s.types returned)
      (hrun : op.step s = .error failure s') : Reached s' returned

/-! ## What operations keep -/

/-- A type that may be returned. -/
def TypeGraph.Offers (g : TypeGraph) (id : TypeId) : Prop :=
  id < g.size ∧ g.Whole true id

theorem TypeGraph.Offers.extend {g' : TypeGraph} (hg : g.Sound) (hext : g.Extends g')
    (h : g.Offers id) : g'.Offers id :=
  ⟨hext.lt_size h.1, h.2.extend hg hext h.1⟩

theorem TypeGraph.Offers.reaches {target : TypeId} (hg : g.Sound) (h : g.Offers id)
    (hr : g.Reaches id target) : g.Offers target :=
  ⟨((Extends.refl g).reaches_of_lt hg h.1 hr).2, h.2.reaches hr⟩

/-- What a step does to a session at rest, whether or not it succeeds. -/
structure Session.Continues (s : Session) (r : EStateM.Result (Failure LoweringError) Session (List TypeId)) :
    Prop where
  resting : (stateAfter r).Resting
  ext : s.types.Extends (stateAfter r).types
  offers : ∀ ids t, r = .ok ids t → ∀ id ∈ ids, t.types.Offers id

namespace Session.Continues

variable {s : Session}

/-- What is returned is read off the result of a step. -/
theorem map {α : Type} {x : Lower α} {f : α → List TypeId} (hresting : (stateAfter (x s)).Resting)
    (hext : s.types.Extends (stateAfter (x s)).types)
    (hoffers : ∀ a t, x s = .ok a t → ∀ id ∈ f a, t.types.Offers id) :
    s.Continues ((do return f (← x) : Lower (List TypeId)) s) := by
  cases hrun : x s with
  | ok a t =>
    have hstep : (do return f (← x) : Lower (List TypeId)) s = .ok (f a) t :=
      bind_eq_ok_iff.2 ⟨a, t, hrun, rfl⟩
    rw [hrun] at hresting hext
    rw [hstep]
    refine ⟨hresting, hext, fun ids u h id hid => ?_⟩
    cases h
    exact hoffers a t hrun id hid
  | error e t =>
    have hstep : (do return f (← x) : Lower (List TypeId)) s = .error e t :=
      bind_eq_error_iff.2 (.inl hrun)
    rw [hrun] at hresting hext
    rw [hstep]
    exact ⟨hresting, hext, by rintro ids u ⟨⟩⟩

theorem single {x : Lower TypeId} (hresting : (stateAfter (x s)).Resting)
    (hext : s.types.Extends (stateAfter (x s)).types)
    (hoffers : ∀ id t, x s = .ok id t → t.types.Offers id) :
    s.Continues ((do return [← x] : Lower (List TypeId)) s) :=
  map hresting hext fun id t h _ hid => mem_singleton.1 hid ▸ hoffers id t h

section

variable (hs : s.Resting)

include hs

/-- Types are added, and one of them is returned. -/
theorem update {f : TypeGraph → TypeId × TypeGraph} (hregular : (f s.types).2.Regular)
    (hext : s.types.Extends (f s.types).2) (hoffers : (f s.types).2.Offers (f s.types).1) :
    s.Continues ((do return [← updateTypes f] : Lower (List TypeId)) s) := by
  refine single (hs.retype hregular hext) hext fun id t h => ?_
  cases h
  exact hoffers

/-- A node is added over types that may be returned. -/
theorem add {kind : TypeKind} {origin : Option Span}
    (hparts : ∀ part ∈ kind.parts, s.types.IsValue part ∧ s.types.Whole true part)
    (hlist : kind.item? = none) (hvoid : kind ≠ .void) :
    s.Continues ((do return [← updateTypes (·.add kind origin)] : Lower (List TypeId)) s) := by
  refine update hs (hs.types.add origin (fun part hpart => (hparts part hpart).1) hlist)
    (extends_add _ _ _) ⟨?_, ?_⟩
  · rw [size_add]
    exact Nat.lt_succ_self _
  · exact .add hs.types.toSound origin hvoid (fun _ _ => rfl)
      fun part hpart => ⟨(hparts part hpart).1.lt_size, (hparts part hpart).2⟩

theorem addList {item : TypeId} {origin : Option Span} (hvalue : s.types.IsValue item)
    (hwhole : s.types.Whole true item) :
    s.Continues ((do return [← updateTypes (·.addList item origin)] : Lower (List TypeId)) s) := by
  refine update hs (hs.types.addList origin hvalue) (extends_addList _ _ _) ⟨?_, ?_⟩
  · exact lt_size_of_kind ((kind_addList _ _ _ _).trans (if_pos rfl))
  · exact .addList hs.types.toSound origin hvalue.lt_size hwhole

theorem instantiate {type : TypeId} (htype : s.types.Offers type) {bindings : Bindings}
    (hb : s.types.BindsWhole true bindings) (span : Span) :
    s.Continues ((do return [← Lower.instantiate type bindings span] : Lower (List TypeId)) s) := by
  have hext := (instantiate_keptIn type bindings span s.types).extends
  rcases instantiate_cases hs.types hb.values htype.1 span with
    ⟨r, g, hrun, hg, hr⟩ | ⟨name, g, hrun, hg⟩
  · have hstep : Lower.instantiate type bindings span s = .ok r { s with types := g } := by
      rw [Lower.instantiate, hrun]
    have hwhole := instantiate_whole hs.types hb htype.1 htype.2 hrun
    rw [hrun] at hext
    refine single (hstep ▸ hs.retype hg hext) (hstep ▸ hext) fun id t h => ?_
    cases hstep.symm.trans h
    exact ⟨hr, hwhole⟩
  · have hstep : Lower.instantiate type bindings span s =
        .error (.error (.ofTypeError (.unboundPlaceholder name span))) { s with types := g } := by
      rw [Lower.instantiate, hrun]
      rfl
    rw [hrun] at hext
    refine single (hstep ▸ hs.retype hg hext) (hstep ▸ hext) fun id t h => ?_
    cases hstep.symm.trans h

/-- The types of functions may be returned. -/
theorem signature (name : String) (span : Span) :
    s.Continues ((do return [← search (·.signature name span)] : Lower (List TypeId)) s) := by
  have hstate : s = stateAfter (search (·.signature name span) s) :=
    EitherWayAt.stateAfter (EitherWay.search _ s)
  refine single (hstate ▸ hs) (hstate ▸ .refl _) fun id t h => ?_
  obtain ⟨hid, rfl⟩ := search_eq_ok_iff.1 h
  unfold Scope.signature at hid
  split at hid
  · next sig hsig =>
    cases hid
    exact ⟨(hs.functions name sig hsig).lt_size, (hs.functions name sig hsig).whole⟩
  · cases hid

theorem natives : s.Continues (Operation.natives.step s) := by
  refine map hs.natives ?_ fun _ _ _ => forall_mem_nil _
  rw [stateAfter_registerNatives]
  exact (Registration.native.keptIn_lay none s.types).extends

theorem declare (decl : FnDecl) :
    s.Continues ((do return [← Lower.declare decl] : Lower (List TypeId)) s) := by
  refine single (hs.declare decl) ?_ fun type t h => ?_
  · rw [stateAfter_declare]
    exact (decl.registration.keptIn_lay (some decl.span) s.types).extends
  · -- The function is registered with the type that is returned.
    have ht := hs.declare decl
    rw [h] at ht
    obtain ⟨-, -, houtline⟩ := declare_ok h
    have hlookup : t.scope.functions.lookup decl.name = some ⟨type, some decl.span⟩ := by
      rw [show t.scope.functions = _ from congrArg Outline.functions houtline]
      exact lookup_cons_self
    exact ⟨(ht.functions _ _ hlookup).lt_size, (ht.functions _ _ hlookup).whole⟩

theorem entry (name : String) : s.Continues ((Operation.entry name).step s) := by
  have hsame : EitherWay (fun _ => False) Eq (checkEntryPoint name) := by
    refine .bind (.search _) fun type => .bind (.askTypes _) fun node => ?_
    split
    · exact .pure _
    · exact .bind (.askTypes _) fun _ => .failAt _ _
  have hstate := (hsame s).stateAfter
  exact map (hstate ▸ hs) (hstate ▸ .refl _) fun _ _ _ => forall_mem_nil _

theorem lower (decl : FnDecl) :
    s.Continues ((do return (← lowerFunction decl).types : Lower (List TypeId)) s) :=
  map (hs.lower decl) (lowerFunction_rests decl s hs.idle).1.extends
    fun _ _ h => lowerFunction_types_whole hs h

end

end Session.Continues

/-- What is known of a session that is reached, and of the types that were returned. -/
structure Session.Sane (s : Session) (returned : List TypeId) : Prop where
  resting : s.Resting
  offers : ∀ id ∈ returned, s.types.Offers id

namespace Session.Sane

variable {s : Session} {returned : List TypeId} {op : Operation}

theorem initial : Session.initial.Sane [.void, .integer, .boolean, .string] where
  resting := .initial
  offers id hid := by
    have hlt : ∀ id ∈ [TypeId.void, TypeId.integer, TypeId.boolean, TypeId.string], id < 4 := by decide
    exact ⟨hlt id hid, regular_initial.unit_whole (hlt id hid)⟩

theorem source (h : s.Sane returned) (hop : op.Admissible s.types returned) :
    ∀ id ∈ op.source?, s.types.Offers id := by
  intro id hid
  obtain ⟨start, hstart, hr⟩ := hop.source id hid
  exact (h.offers start hstart).reaches h.resting.types.toSound hr

/-- The types that may become parts are no functions. -/
theorem uses (h : s.Sane returned) (hop : op.Admissible s.types returned) :
    ∀ id ∈ op.uses, s.types.IsValue id ∧ s.types.Whole true id := by
  intro id hid
  obtain ⟨start, hstart, hr⟩ := hop.uses id hid
  obtain ⟨hlt, hwhole⟩ := (h.offers start hstart).reaches h.resting.types.toSound hr
  obtain ⟨kind, hk⟩ := exists_kind hlt
  refine ⟨⟨kind, hk, ?_⟩, hwhole⟩
  cases kind with
  | function params result native => exact absurd hk (hop.values id hid params result native)
  | _ => rfl

theorem continues (h : s.Sane returned) (hop : op.Admissible s.types returned) :
    s.Continues (op.step s) := by
  have hs := h.resting
  have huses := h.uses hop
  cases op with
  | tuple items origin => exact .add hs huses rfl (by rintro ⟨⟩)
  | box payload origin => exact .add hs huses rfl (by rintro ⟨⟩)
  | list item origin =>
    obtain ⟨hvalue, hwhole⟩ := huses item mem_cons_self
    exact .addList hs hvalue hwhole
  | placeholder name origin => exact .add hs huses rfl (by rintro ⟨⟩)
  | function params result origin => exact .add hs huses rfl (by rintro ⟨⟩)
  | native params result => exact .add hs huses rfl (by rintro ⟨⟩)
  | resolve type =>
    have hgrown := resolve_grown hs.types type
    exact .update hs hgrown.regular hgrown.ext
      ⟨(hgrown.values _ mem_cons_self).lt_size, resolve_whole hs.types type (by rintro ⟨⟩)⟩
  | instantiate type bindings span =>
    refine .instantiate hs (h.source hop type rfl) (fun name bound hbound => huses bound ?_) span
    obtain ⟨before, after, rfl, -⟩ := lookup_eq_some_iff.1 hbound
    simp [Operation.uses]
  | signature name span => exact .signature hs name span
  | natives => exact .natives hs
  | declare decl => exact .declare hs decl
  | entry name => exact .entry hs name
  | lower decl => exact .lower hs decl

end Session.Sane

theorem Session.Reached.sane {s : Session} {returned : List TypeId} (h : s.Reached returned) :
    s.Sane returned := by
  induction h with
  | initial => exact .initial
  | @ok s s' returned ids op _ hop hrun ih =>
    obtain ⟨hresting, hext, hoffers⟩ := ih.continues hop
    rw [hrun] at hresting hext
    refine ⟨hresting, forall_mem_append.2 ⟨hoffers ids s' hrun, fun id hid => ?_⟩⟩
    exact (ih.offers id hid).extend ih.resting.types.toSound hext
  | error _ hop hrun ih =>
    obtain ⟨hresting, hext, -⟩ := ih.continues hop
    rw [hrun] at hresting hext
    exact ⟨hresting, fun id hid => (ih.offers id hid).extend ih.resting.types.toSound hext⟩

/-! ## Well-formed graphs -/

/-- Walks from the type end: they run into no missing node, and not out of steps.  Matching and filling in
placeholders may end with a type error. -/
structure TypeGraph.WalksEnd (g : TypeGraph) (id : TypeId) : Prop where
  leaves : ∃ ids, g.leaves id = .ok ids
  text : ∃ text, g.text id = .ok text
  matching : ∀ other < g.size, ∀ sp sp' bindings,
    g.Accepts id other sp sp' bindings ∨ g.Refuses id other sp sp' bindings
  copying : ∀ (bindings : Bindings) (span : Span),
    (∀ name bound, bindings.get? name = some bound → g.IsValue bound) →
      (∃ copy g', TypeGraph.instantiate id bindings span g = .ok copy g') ∨
        ∃ e g', TypeGraph.instantiate id bindings span g = .error (.error e) g'

structure TypeGraph.WellFormed (g : TypeGraph) : Prop where
  closed : ∀ id kind, g.kind id = .ok kind → ∀ part ∈ kind.parts, part < g.size
  /-- A list holds a pair of an item and itself. -/
  lists : ∀ id item payload, g.kind id = .ok (.list item payload) →
    ∃ first, g.kind payload = .ok (.tuple [first, id]) ∧ ∀ sp sp', g.Accepts item first sp sp' none
  /-- There is no cycle without the edge from a list to its payload. -/
  cycles : ∀ id, ¬ Relation.TransGen g.Inner id id
  walks : ∀ id < g.size, g.WalksEnd id

theorem TypeGraph.Regular.walksEnd (hg : g.Regular) (hid : id < g.size) :
    g.WalksEnd id where
  leaves := ⟨_, leaves_eq hg.toSound hid⟩
  text := text_ok hg.toSound hid
  matching other hother sp sp' bindings :=
    (matchTypes_cases hg.toSound hid hother sp sp' bindings).imp And.left And.left
  copying bindings span hb := by
    rcases instantiate_cases hg hb hid span with ⟨copy, g', hrun, -⟩ | ⟨name, g', hrun, -⟩
    · exact .inl ⟨copy, g', hrun⟩
    · exact .inr ⟨_, g', hrun⟩

theorem TypeGraph.Regular.wellFormed (hg : g.Regular) : g.WellFormed where
  closed id kind hk := hg.lt_of_kind hk
  lists id item payload hk := by
    obtain ⟨first, hpair, halike⟩ := hg.lists id item payload hk
    have hitem := hg.lt_of_kind hk item mem_cons_self
    have hfirst := hg.lt_of_kind hpair first mem_cons_self
    exact ⟨first, hpair, fun sp sp' => (accepts_iff_alike hg.toSound hitem hfirst sp sp' none).2 halike⟩
  cycles := hg.acyclic
  walks id hid := hg.walksEnd hid

/-- Every graph that can be built is well formed, and the types that were returned reach no `void` node
but `void` itself. -/
theorem reached_wellFormed (s : Session) (returned : List TypeId) (h : s.Reached returned) :
    s.types.WellFormed ∧ ∀ id ∈ returned, id < s.types.size ∧
      ∀ target, s.types.Reaches id target → s.types.kind target = .ok .void → target = .void := by
  have hsane := h.sane
  refine ⟨hsane.resting.types.wellFormed, fun id hid => ⟨(hsane.offers id hid).1, fun target hr hk => ?_⟩⟩
  exact ((hsane.offers id hid).2 target .void hr hk).1 rfl

/-- The placeholder in a list has no binding, so its copy stops.  A `void` node stays behind. -/
theorem reached_wellFormed_stopped : ∃ s : Session, s.Reached [5, 0, 1, 2, 3] ∧
    s.types.kind 7 = .ok .void ∧ s.types.WellFormed ∧ ∀ id ∈ [5, 0, 1, 2, 3], id < s.types.size ∧
      ∀ target, s.types.Reaches id target → s.types.kind target = .ok .void → target = .void := by
  let at0 : Span := ⟨0, 0⟩
  obtain ⟨s, hlist, e, t, hstop, hvoid⟩ :
      ∃ s, (Operation.resolve (.list at0 (.placeholder at0 "T"))).step .initial = .ok [5] s ∧
        ∃ e t, (Operation.instantiate 5 [] at0).step s = .error e t ∧ t.types.kind 7 = .ok .void :=
    ⟨_, rfl, _, _, rfl, rfl⟩
  have hs : s.Reached [5, 0, 1, 2, 3] :=
    .ok .initial ⟨List.forall_mem_nil _, List.forall_mem_nil _, by rintro _ ⟨⟩⟩ hlist
  have ht : t.Reached [5, 0, 1, 2, 3] := by
    refine .error hs ⟨List.forall_mem_nil _, List.forall_mem_nil _, ?_⟩ hstop
    rintro _ ⟨⟩
    exact ⟨5, List.mem_cons_self, .refl⟩
  exact ⟨t, ht, hvoid, reached_wellFormed t _ ht⟩

end SlotCode
