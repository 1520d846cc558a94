import SlotCode.Proofs.Lowering.Calls
import SlotCode.Proofs.Lowering.Traces
import SlotCode.Proofs.Types.Legible
import SlotCode.Proofs.Types.Whole

/-!
# Why lowering fails

A step of lowering that fails *blames* the program (`Lower.Blames`): it names a cause that a program can
have, and the type graph that it leaves is regular.  It never ends in a fault, and the causes that stand
for a mistake of lowering itself, such as an operand that is no scalar, are not among those it names.  Two
types that are said not to match have different texts.

There is one lemma for each step on values that are lowered already.  What a step needs from the steps
before it is what is known about those if they succeed.
-/

namespace SlotCode

variable {id : VarId} {i : VarInfo} {span : Span} {type : TypeId} {v : Value}

open Outline List TypeGraph

/-- The constructs that a tree may contain although there is no code for them. -/
def unsupportedConstructs : List String :=
  ["assignment target", "unary operator", "call of a computed target", "return statement",
    "named `void` parameter"]

/-- The cause can be given for some program whose types are in the graph. -/
def Cause.IsExpected (g : TypeGraph) : Cause → Prop
  | .unsupported construct => construct ∈ unsupportedConstructs
  | .typeMismatch error => g.Tells error
  | _ => True

theorem Cause.isExpected_ofTypeError {g : TypeGraph} {error : TypeError} (h : g.Tells error) :
    (Cause.ofTypeError error).IsExpected g := by
  cases error with
  | mismatch | tupleArity => exact h
  | unboundPlaceholder => trivial

theorem Outline.Good.isValue_of_type {o : Outline} (hg : o.Good) (hi : o.info id = some i) (t : TypeId)
    (ht : i.type = some t) : o.types.IsValue t :=
  (hg.vars id i hi).value t ht

namespace Lower

/-- The run has a result, or an expected cause and a regular type graph. -/
def EndsWell {α : Type} : EStateM.Result (Failure LoweringError) Session α → Prop
  | .ok _ _ => True
  | .error (.error e) t => e.cause.IsExpected t.types ∧ t.types.Regular
  | .error (.fault _) _ => False

/-- If the step fails in the session, it is the program that is to blame. -/
def Blames {α : Type} (x : Lower α) (s : Session) : Prop :=
  EndsWell (x s)

variable {α β : Type} {s s' : Session}

theorem Blames.pure (a : α) : Blames (pure a) s :=
  trivial

theorem Blames.of_ok {x : Lower α} {a : α} (h : x s = .ok a s') : Blames x s := by
  rw [Blames, h]
  trivial

theorem Blames.bind {x : Lower α} {f : α → Lower β} (hx : Blames x s)
    (hf : ∀ a t, x s = .ok a t → Blames (f a) t) : Blames (x >>= f) s := by
  rw [Blames] at hx
  simp only [Blames, Bind.bind, EStateM.bind]
  cases h : x s with
  | ok a t => exact hf a t h
  | error e t =>
    rw [h] at hx
    cases e with
    | error cause => exact hx
    | fault what => exact hx

/-- A step with a result comes first. -/
theorem Blames.after {x : Lower α} {f : α → Lower β} {a : α} (h : x s = .ok a s')
    (hf : Blames (f a) s') : Blames (x >>= f) s :=
  .bind (.of_ok h) fun b t hb => by
    cases h.symm.trans hb
    exact hf

theorem Blames.failAt {cause : Cause} (hg : s.types.Regular) (h : cause.IsExpected s.types) :
    Blames (failAt cause span : Lower α) s :=
  ⟨h, hg⟩

theorem Blames.unsupported {construct : String} (hg : s.types.Regular)
    (h : construct ∈ unsupportedConstructs) : Blames (unsupported construct span : Lower α) s :=
  ⟨h, hg⟩

theorem Blames.search {f : Scope → Except LoweringError α} (hg : s.types.Regular)
    (h : ∀ e, f s.scope = .error e → e.cause.IsExpected s.types) : Blames (search f) s := by
  rw [Blames, Lower.search]
  cases hf : f s.scope with
  | ok a => trivial
  | error e => exact ⟨h e hf, hg⟩

/-- The context that a step was taken in is closed, which leaves the types. -/
theorem Blames.inContext {x : Lower α} (h : Blames x s.enter) : Blames (inContext x) s := by
  rw [Blames] at h
  rw [Blames, Lower.inContext]
  cases hx : x s.enter with
  | ok a t => trivial
  | error e t =>
    rw [hx] at h
    cases e with
    | error cause => exact h
    | fault what => exact h

/-! ## Steps that succeed -/

/-- The step has a result in the session. -/
def Completes (x : Lower α) (s : Session) : Prop :=
  ∃ a s', x s = .ok a s'

theorem Completes.blames {x : Lower α} (h : Completes x s) : Blames x s := by
  obtain ⟨a, t, h⟩ := h
  exact .of_ok h

theorem Completes.bind {x : Lower α} {f : α → Lower β} (hx : Completes x s)
    (hf : ∀ a t, x s = .ok a t → Completes (f a) t) : Completes (x >>= f) s := by
  obtain ⟨a, t, ha⟩ := hx
  obtain ⟨b, u, hb⟩ := hf a t ha
  exact ⟨b, u, bind_eq_ok_iff.2 ⟨a, t, ha, hb⟩⟩

theorem Completes.after {x : Lower α} {f : α → Lower β} {a : α} (h : x s = .ok a s')
    (hf : Completes (f a) s') : Completes (x >>= f) s := by
  obtain ⟨b, t, hb⟩ := hf
  exact ⟨b, t, bind_eq_ok_iff.2 ⟨a, s', h, hb⟩⟩

theorem Completes.pure (a : α) : Completes (pure a) s :=
  ⟨a, s, rfl⟩

theorem askTypes_of_ok {f : TypeGraph → Except Fault α} {a : α} (h : f s.types = .ok a) :
    askTypes f s = .ok a s :=
  askTypes_eq_ok_iff.2 ⟨h, rfl⟩

theorem askScope_of_ok {f : Scope → Except Fault α} {a : α} (h : f s.scope = .ok a) :
    askScope f s = .ok a s :=
  askScope_eq_ok_iff.2 ⟨h, rfl⟩

/-! ## Types -/

section

variable (hg : s.types.Regular)

include hg

/-- Types of values always have texts, so that a mismatch can be told. -/
theorem requireMatch_blames {expected : Option TypeId} {found : TypeId}
    (he : ∀ e, expected = some e → s.types.IsValue e) (hf : s.types.IsValue found) (sp sp' : Span) :
    Blames (requireMatch expected found sp sp') s := by
  cases expected with
  | none => exact .of_ok rfl
  | some e =>
    rw [Blames, requireMatch]
    rcases matchTypes_cases hg.toSound (he e rfl).lt_size hf.lt_size sp sp' none with
      ⟨⟨after, h⟩, -⟩ | ⟨⟨error, after, h⟩, -⟩
    · rw [h]
      trivial
    · rw [h]
      exact ⟨Cause.isExpected_ofTypeError (matchTypes_tells hg (he e rfl) hf h), hg⟩

theorem expectType_blames (htype : s.types.IsValue type) (hv : s.types.IsValue v.type) (span : Span) :
    Blames (expectType type v span) s :=
  requireMatch_blames hg (fun _ h => Option.some.inj h ▸ htype) hv _ _

theorem bindArgument_blames {param : TypeId} (hparam : s.types.IsValue param)
    (hv : s.types.IsValue v.type) (span : Span) (b : Bindings) :
    Blames (bindArgument param v span b) s := by
  rw [Blames, bindArgument]
  rcases matchTypes_cases hg.toSound hparam.lt_size hv.lt_size span v.span (some b) with
    ⟨⟨after, h⟩, -⟩ | ⟨⟨error, after, h⟩, -⟩
  · rw [h]
    trivial
  · rw [h]
    exact ⟨Cause.isExpected_ofTypeError (matchTypes_tells hg hparam hv h), hg⟩

theorem instantiate_blames {b : Bindings} (hb : BindsValues s.types b) (htype : type < s.types.size)
    (span : Span) : Blames (instantiate type b span) s := by
  rw [Blames, instantiate]
  rcases instantiate_cases hg hb htype span with ⟨r, g, h, -⟩ | ⟨name, g, h, hreg⟩
  · rw [h]
    trivial
  · rw [h]
    exact ⟨trivial, hreg⟩

/-- The text of a type is asked for only to report an error. -/
theorem failText_blames {error : String → LoweringError} (htype : type < s.types.size)
    (h : ∀ text, s.types.text type = .ok text → (error text).cause.IsExpected s.types) :
    Blames (do
      let found ← askTypes (·.text type)
      fail (error found) : Lower α) s := by
  obtain ⟨text, htext⟩ := text_ok hg.toSound htype
  exact .after (askTypes_of_ok htext) ⟨h text htext, hg⟩

end

/-! ## Variables and values -/

theorem exists_var (h : s.outline.info id = some i) : ∃ v, s.scope.var id = .ok v ∧ i = .ofVar v := by
  have hid : id < s.scope.vars.size := s.scope.infos_length ▸ lt_of_info h
  have hvar : s.scope.var id = .ok s.scope.vars[id].var := by
    simp [Scope.var, Scope.entry, hid, Except.map]
  exact ⟨_, hvar, Option.some.inj (h.symm.trans (var_ok hvar))⟩

/-- Every variable has an owner. -/
theorem exists_owner (h : id < s.outline.vars.length) : ∃ owner, s.scope.owner id = .ok owner := by
  have hid : id < s.scope.vars.size := s.scope.infos_length ▸ h
  exact ⟨s.scope.vars[id].owner, by simp [Scope.owner, Scope.entry, hid, Except.map]⟩

/-- A variable with a type can be read. -/
theorem valueOf_completes (h : s.outline.typeOf id = some type) (span : Span) :
    Completes (valueOf id span) s := by
  obtain ⟨i, hi, ht⟩ := typeOf_eq_some_iff.1 h
  obtain ⟨var, hvar, rfl⟩ := exists_var hi
  refine .after (askScope_of_ok hvar) ?_
  rw [show var.type = some type from ht]
  dsimp only
  split
  · exact .pure _
  · split <;> exact .pure _

/-- A value of a type with one leaf is a scalar. -/
theorem scalarOf_blames (hv : v.Ok s.outline) (htype : s.types.IsScalar v.type) :
    Blames (scalarOf v) s := by
  rw [scalarOf]
  cases hshape : v.shape with
  | void => exact absurd (hv.void.1 hshape) htype.nonvoid
  | scalar operand => exact .pure _
  | tuple operands =>
    obtain ⟨items, hk⟩ := hv.tuple.1 ⟨operands, hshape⟩
    exact absurd hk (htype.single items)

/-! ## Tuples and operators -/

theorem tupleLeaves_blames (hg : s.types.Regular) (values : List Value) :
    Blames (tupleLeaves values) s := by
  induction values with
  | nil => exact .pure _
  | cons v values ih =>
    rw [tupleLeaves]
    split
    · exact .failAt hg trivial
    · exact .bind ih fun _ _ _ => .pure _

/-- The type of the tuple is added before its items are looked at. -/
theorem tupleOf_blames {values : List Value} (hg : s.types.Regular)
    (hvalues : ∀ v ∈ values, s.types.IsValue v.type) (span : Span) : Blames (tupleOf values span) s := by
  have hparts : ∀ part ∈ values.map Value.type, s.types.IsValue part := forall_mem_map.2 hvalues
  refine .after rfl (.bind (tupleLeaves_blames ?_ values) fun _ _ _ => .pure _)
  exact hg.add (some span) hparts rfl

/-- Comparing variables cannot fail. -/
theorem runComparisons_completes (cs : List Comparison) (s : Session) :
    Completes (runComparisons cs) s := by
  induction cs generalizing s with
  | nil => exact .pure _
  | cons c cs ih => exact .bind ⟨_, _, rfl⟩ fun _ t _ => .bind (ih t) fun _ _ _ => .pure _

theorem holdInteger_blames (hg : s.outline.Good) (hv : v.Ok s.outline)
    (htype : v.type = .integer) (span : Span) : Blames (holdInteger v span) s := by
  rw [holdInteger]
  split
  · exact .pure _
  · refine .bind (.of_ok rfl) fun id t ht => ?_
    have hsteps := newTyped_steps hg (isScalar_integer hg.types) ht
    refine .bind (scalarOf_blames (hv.mono hg hsteps.keeps) ?_) fun _ _ _ => .pure _
    exact htype ▸ isScalar_integer hsteps.good.types

/-! ## Boxes -/

theorem wrapValue_blames (hg : s.types.Regular) (v : Value) (payloadSpan span : Span) :
    Blames (wrapValue v payloadSpan span) s := by
  rw [wrapValue]
  split
  · exact .failAt hg trivial
  · exact .of_ok rfl

theorem consValue_blames {head tail : Value} (hg : s.outline.Good) (hhead : head.Ok s.outline)
    (htail : tail.Ok s.outline) (span : Span) : Blames (consValue head tail span) s := by
  obtain ⟨kind, hk⟩ := exists_kind htail.value.lt_size
  refine .after (askTypes_of_ok hk) ?_
  cases hitem : kind.item? with
  | none => exact failText_blames hg.types htail.value.lt_size fun _ _ => trivial
  | some item =>
    dsimp only
    split
    · exact .failAt hg.types trivial
    · have hvalue := hg.types.parts _ _ ⟨_, hk, TypeKind.item_mem_parts hitem⟩
      refine .bind (expectType_blames hg.types hvalue hhead.value _) fun _ t ht => ?_
      obtain rfl := (expectType_ok ht).1.symm
      have hscalar : s.types.IsScalar tail.type := by
        cases kind with
        | list item payload => exact isScalar_of_payload hg.types hk rfl
        | _ => cases hitem
      exact .bind (scalarOf_blames htail hscalar) fun _ _ _ => .of_ok rfl

/-- A written type is added to the graph even if there are no boxes of it. -/
theorem wrapNothing_blames (hg : s.types.Regular) (payload : TypeExpr) (span : Span) :
    Blames (wrapNothing payload span) s := by
  refine .after rfl ?_
  split
  · exact .failAt (resolve_grown hg payload).regular trivial
  · exact .of_ok rfl

theorem consNothing_blames (hg : s.types.Regular) (item : TypeExpr) (span : Span) :
    Blames (consNothing item span) s := by
  refine .after rfl ?_
  split
  · exact .failAt (resolve_grown hg item).regular trivial
  · exact .of_ok rfl

theorem openBox_blames (hg : s.outline.Good) (hv : v.Ok s.outline) : Blames (openBox v) s := by
  obtain ⟨kind, hk⟩ := exists_kind hv.value.lt_size
  refine .after (askTypes_of_ok hk) ?_
  cases hpayload : kind.payload? with
  | none => exact failText_blames hg.types hv.value.lt_size fun _ _ => trivial
  | some payload =>
    exact .bind (scalarOf_blames hv (isScalar_of_payload hg.types hk hpayload)) fun _ _ _ => .pure _

/-! ## Calls -/

theorem callee_blames (hg : s.outline.Good) (name : String) (span : Span) :
    Blames (callee name span) s := by
  refine .bind (.search hg.types fun e he => ?_) fun type t hsearch => ?_
  · rw [Scope.signature] at he
    split at he <;> cases he
    trivial
  · obtain ⟨htype, rfl⟩ := search_eq_ok_iff.1 hsearch
    rw [Scope.signature] at htype
    split at htype
    · next sig hsig =>
      cases htype
      obtain ⟨params, result, native, hk, -⟩ := hg.functions name sig hsig
      exact .after (askTypes_of_ok hk) (.pure _)
    · cases htype

theorem checkArity_blames (hg : s.types.Regular) (name : String) (c : Callee) (args : List Expr)
    (span : Span) : Blames (checkArity name c args span) s := by
  rw [checkArity]
  split
  · exact .pure _
  · exact .failAt hg trivial

/-- Only `print` is built in. -/
theorem callCommand_completes {name : String} {native : Bool} (h : native = true → name = "print")
    (inputs : List Operand) (outputs : List VarId) (targetSpan span : Span) :
    Completes (callCommand name native inputs outputs targetSpan span) s := by
  rw [callCommand]
  cases native with
  | false => exact ⟨_, _, rfl⟩
  | true =>
    obtain rfl := h rfl
    exact .pure _

/-! ## Patterns -/

theorem bindName_blames (hg : s.types.Regular) (name : String) (span : Span) (mode : BindMode) :
    Blames (bindName name span mode) s := by
  have hbind : ∀ e, s.scope.bind name span mode = .error e → e.cause.IsExpected s.types := by
    intro e he
    cases mode with
    | resolve =>
      simp only [Scope.bind, Scope.lookup] at he
      split at he <;> cases he
      trivial
    | declare bound =>
      simp only [Scope.bind] at he
      split at he <;> cases he
      trivial
  rw [Blames, bindName]
  cases h : s.scope.bind name span mode with
  | ok bound => trivial
  | error e => exact ⟨hbind e h, hg⟩

/-- Binding names leaves the types. -/
theorem bindPattern_types {target : Expr} {mode : BindMode} {r : Pattern × BindMode}
    (h : bindPattern mode target s = .ok r s') : s'.types = s.types := by
  have htraces : Tracing (fun _ => True) Eq true (bindPattern mode target) := bindPattern_traces mode target
  exact ((htraces s).ok h).types.symm

mutual

theorem bindPattern_blames {target : Expr} {mode : BindMode} {s : Session} (hg : s.types.Regular) :
    Blames (bindPattern mode target) s := by
  cases target with
  | var span name =>
    rw [bindPattern]
    exact .bind (bindName_blames hg name span mode) fun _ _ _ => .pure _
  | tuple span targets =>
    rw [bindPattern]
    exact .bind (bindPatterns_blames hg) fun _ _ _ => .pure _
  | _ => exact .unsupported hg (mem_cons_self)
termination_by sizeOf target

theorem bindPatterns_blames {targets : List Expr} {mode : BindMode} {s : Session}
    (hg : s.types.Regular) : Blames (bindPatterns mode targets) s := by
  cases targets with
  | nil => exact .pure _
  | cons target targets =>
    rw [bindPatterns]
    refine .bind (bindPattern_blames hg) fun item t ht => ?_
    have htypes : t.types = s.types := bindPattern_types ht
    exact .bind (bindPatterns_blames (htypes ▸ hg)) fun _ _ _ => .pure _
termination_by sizeOf targets

end

theorem newLeaves_completes (span : Span) (owner : ContextId) (types : List TypeId) (s : Session) :
    Completes (newLeaves span owner types) s := by
  induction types generalizing s with
  | nil => exact .pure _
  | cons type types ih =>
    exact .bind ⟨_, _, rfl⟩ fun _ _ _ => .bind ⟨_, _, rfl⟩ fun _ t _ =>
      .bind (ih t) fun _ _ _ => .pure _

theorem receivers_completes (hg : s.types.Sound) (htype : type < s.types.size)
    (hid : id < s.outline.vars.length) (var : Var) : Completes (receivers id var type) s := by
  obtain ⟨kind, hk⟩ := exists_kind htype
  obtain ⟨owner, howner⟩ := exists_owner hid
  refine .after (askTypes_of_ok hk) ?_
  split
  · exact .pure _
  · exact .pure _
  · exact .after (askScope_of_ok howner) (.after (askTypes_of_ok (leaves_eq hg htype))
      (.bind (newLeaves_completes var.span owner _ s) fun _ _ _ => ⟨_, _, rfl⟩))

theorem setType_receivers_completes (hg : s.types.Sound) (htype : type < s.types.size)
    (hid : id < s.outline.vars.length) (var : Var) :
    Completes (do modifyScope (·.setType id (some type)); receivers id var type) s := by
  refine .bind ⟨(), _, rfl⟩ fun _ t ht => ?_
  have hlen : id < t.outline.vars.length := by
    rw [setType_ok ht]
    exact hid.trans_eq (length_modify ..).symm
  obtain rfl := modifyScope_eq_ok_iff.1 ht
  refine receivers_completes ?_ ?_ hlen var
  · exact hg
  · exact htype

theorem expandVar_blames (hg : s.types.Regular) (htype : s.types.IsValue type)
    (hi : s.outline.info id = some i) (hknown : ∀ t, i.type = some t → s.types.IsValue t)
    (valueSpan : Span) : Blames (expandVar id type valueSpan) s := by
  obtain ⟨var, hvar, rfl⟩ := exists_var hi
  rw [expandVar_eq]
  refine .after (askScope_of_ok hvar) (.bind (requireMatch_blames hg hknown htype _ _) fun _ t ht => ?_)
  obtain rfl := (requireMatch_ok ht).1.symm
  split
  · exact (setType_receivers_completes hg.toSound htype.lt_size (lt_of_info hi) var).blames
  · exact (receivers_completes hg.toSound htype.lt_size (lt_of_info hi) var).blames

/-- A tuple pattern does not fit a type that is no tuple, or one of another length. -/
theorem holes_tells {g : TypeGraph} (hg : g.Regular) (hvalue : g.IsValue type) {text : String}
    (htext : g.text type = .ok text) {error : TypeError} {count : Nat}
    (herror : error.texts? = some (holes count, text))
    (h : ∀ items, g.kind type = .ok (.tuple items) → items.length ≠ count) : g.Tells error := by
  refine ⟨_, _, herror, fun hl => ?_⟩
  have hholes : ∀ hole ∈ List.replicate count "_", IsItemText hole := by
    intro hole hmem
    rw [eq_of_mem_replicate hmem]
    exact .plain (by decide) (by decide)
  refine tupled_ne_text hg hl hvalue htext hholes ?_
  rwa [length_replicate]

mutual

theorem expand_blames {pattern : Pattern} {type : TypeId} {s : Session} (hg : s.outline.Good)
    (hvalue : s.types.IsValue type) (hvars : ∀ id ∈ pattern.vars, id < s.outline.vars.length)
    (valueSpan : Span) : Blames (expand valueSpan pattern type) s := by
  cases pattern with
  | var id span =>
    rw [expand]
    have hid : id < s.outline.vars.length := hvars id mem_cons_self
    have hi : s.outline.info id = some s.outline.vars[id] := getElem?_eq_getElem hid
    exact expandVar_blames hg.types hvalue hi (hg.isValue_of_type hi) valueSpan
  | tuple items span =>
    rw [expand]
    obtain ⟨kind, hfound⟩ := exists_kind hvalue.lt_size
    refine .after (askTypes_of_ok hfound) ?_
    split
    · next types hitems =>
      split
      · refine expandEach_blames hg (fun type htype => ?_) hvars valueSpan
        exact hg.types.parts _ _ ⟨_, hfound, TypeKind.parts_of_items hitems ▸ htype⟩
      · next hlen =>
        refine failText_blames hg.types hvalue.lt_size fun text htext =>
          holes_tells hg.types hvalue htext rfl fun types' hk' => ?_
        cases kind_unique hfound hk'
        exact Option.some.inj hitems ▸ hlen
    · next hitems =>
      refine failText_blames hg.types hvalue.lt_size fun text htext =>
        holes_tells hg.types hvalue htext rfl fun types' hk' => ?_
      cases kind_unique hfound hk'
      cases hitems
termination_by sizeOf pattern

theorem expandEach_blames {items : List Pattern} {types : List TypeId} {s : Session}
    (hg : s.outline.Good) (hvalues : ∀ type ∈ types, s.types.IsValue type)
    (hvars : ∀ id ∈ Pattern.varsAll items, id < s.outline.vars.length) (valueSpan : Span) :
    Blames (expandEach valueSpan items types) s := by
  cases items with
  | nil => exact .pure _
  | cons item items =>
    cases types with
    | nil => exact .pure _
    | cons type types =>
      rw [expandEach]
      obtain ⟨hvalue, hvalues⟩ := forall_mem_cons.1 hvalues
      obtain ⟨hvar, hvars⟩ := forall_mem_append.1 hvars
      refine .bind (expand_blames hg hvalue hvar valueSpan) fun head t ht => ?_
      obtain ⟨hsteps, -⟩ := expand_fills hg hvalue ht
      refine .bind (expandEach_blames hsteps.good (fun type htype => ?_) (fun id hid => ?_) valueSpan)
        fun _ _ _ => .pure _
      · exact (hvalues type htype).extend hsteps.grows.types
      · exact Nat.lt_of_lt_of_le (hvars id hid) hsteps.grows.length_le
termination_by sizeOf items

end

section

variable (hg : s.outline.Good)

include hg

theorem storeInto_blames {pattern : Pattern} (hv : v.Ok s.outline)
    (hvars : ∀ id ∈ pattern.vars, id < s.outline.vars.length) (span : Span) :
    Blames (storeInto pattern v span) s := by
  rw [storeInto]
  split
  · exact .failAt hg.types trivial
  · exact .bind (expand_blames hg hv.value hvars v.span) fun _ _ _ => .pure _

/-! ## Results -/

/-- A new variable that a value is stored into. -/
theorem storeNew_blames (hv : v.Ok s.outline) {dest : VarId} {span' : Span}
    (hdest : updateScope (·.newTemp span none) s = .ok dest s') :
    Blames (storeInto (.var dest span) v span') s' := by
  obtain ⟨rfl, hs'⟩ := newTemp_ok hdest
  have hnew : s.outline.Steps s'.outline := hs' ▸ .pushFresh hg
  refine storeInto_blames hnew.good (hv.mono hg hnew.keeps) (fun id hid => ?_) span'
  cases mem_singleton.1 hid
  simp [hs', Outline.push]

theorem storeNew_typed (hv : v.Ok s.outline) {dest : VarId} {span' : Span} {code : Code} {s₁ : Session}
    (hdest : updateScope (·.newTemp span none) s = .ok dest s₁)
    (hstore : storeInto (.var dest span) v span' s₁ = .ok code s') :
    s.outline.Steps s'.outline ∧ ∃ t, s'.outline.typeOf dest = some t := by
  obtain ⟨rfl, hs₁⟩ := newTemp_ok hdest
  have hnew : s.outline.Steps s₁.outline := hs₁ ▸ .pushFresh hg
  obtain ⟨hsteps, -, -, slots, hfills, -⟩ := storeInto_fills hnew.good (hv.mono hg hnew.keeps) hstore
  exact ⟨hnew.trans hsteps, hfills.typed _ mem_cons_self⟩

theorem keepValue_blames (hv : v.Ok s.outline) (span : Span) : Blames (keepValue v span) s := by
  rw [keepValue]
  split
  · exact .pure _
  · refine .bind (.of_ok rfl) fun dest s₁ hdest => ?_
    refine .bind (storeNew_blames hg hv hdest) fun code s₂ hstore => ?_
    obtain ⟨-, t, ht⟩ := storeNew_typed hg hv hdest hstore
    exact .bind (valueOf_completes ht span).blames fun _ _ _ => .pure _

theorem joinBranches_blames {yes : Code × Value} {no : Option (Code × Value)} (hyes : yes.2.Ok s.outline)
    (hno : ∀ c w, no = some (c, w) → w.Ok s.outline) (span : Span) :
    Blames (joinBranches yes no span) s := by
  cases no with
  | none =>
    rw [joinBranches]
    dsimp only
    split
    · exact .pure _
    · exact .failAt hg.types trivial
  | some pair =>
    obtain ⟨c, w⟩ := pair
    have hw := hno c w rfl
    rw [joinBranches]
    refine .bind (expectType_blames hg.types hyes.value hw.value _) fun _ t ht => ?_
    obtain rfl := (expectType_ok ht).1.symm
    split
    · exact .pure _
    · refine .bind (.of_ok rfl) fun dest s₁ hdest => ?_
      refine .bind (storeNew_blames hg hyes hdest) fun code s₂ hstore => ?_
      obtain ⟨hsteps, type, htype⟩ := storeNew_typed hg hyes hdest hstore
      have hw₂ := hw.mono hg hsteps.keeps
      refine .bind (storeInto_blames hsteps.good hw₂ (fun id hid => ?_) _) fun code' s₃ hstore' => ?_
      · cases mem_singleton.1 hid
        exact lt_of_typeOf htype
      · obtain ⟨hsteps', -⟩ := storeInto_fills hsteps.good hw₂ hstore'
        exact .bind (valueOf_completes (hsteps'.grows.typeOf htype) span).blames fun _ _ _ => .pure _

end

/-! ## Loops -/

theorem targetLoop_blames (hg : s.types.Regular) (label : Option String) (span : Span) :
    Blames (targetLoop label span) s := by
  cases label with
  | none =>
    rw [targetLoop]
    refine .search hg fun e he => ?_
    rw [Scope.innermostLoop] at he
    split at he <;> cases he
    trivial
  | some label =>
    rw [targetLoop]
    refine .search hg fun e he => ?_
    rw [Scope.findLoop] at he
    split at he <;> cases he
    trivial

theorem fixLoopType_blames {ref : LoopRef} (hg : s.outline.Good)
    (hi : s.outline.info ref.var = some i) (hv : v.Ok s.outline) :
    Blames (fixLoopType ref v) s := by
  obtain ⟨var, hvar, rfl⟩ := exists_var hi
  refine .after (askScope_of_ok hvar) ?_
  cases htype : var.type with
  | none =>
    obtain ⟨text, htext⟩ := text_ok hg.types.toSound hv.value.lt_size
    exact .after (askTypes_of_ok htext) (.of_ok rfl)
  | some type =>
    refine requireMatch_blames hg.types (fun e he => ?_) hv.value _ _
    exact hg.isValue_of_type hi e (htype.trans he)

/-- The variable of a loop may have the type of a tuple and no leaves yet when the value is stored. -/
theorem leaveWith_blames {label : Option String} (hg : s.outline.Good) (hv : v.Ok s.outline)
    (span : Span) : Blames (leaveWith label v span) s := by
  refine .bind (targetLoop_blames hg.types label span) fun ref t href => ?_
  obtain ⟨rfl, htarget⟩ := targetLoop_ok href
  obtain ⟨l, hmem⟩ := mem_loops_of_target htarget
  obtain ⟨-, i, hi, -⟩ := hg.loops l ref hmem
  refine .bind (fixLoopType_blames hg hi hv) fun _ s₁ hfix => ?_
  obtain ⟨j, hj, htypes, hcases⟩ := fixLoopType_ok hfix
  cases hi.symm.trans hj
  have hknown : ∃ k, s₁.outline.info ref.var = some k ∧ ∀ u, k.type = some u → t.types.IsValue u := by
    rcases hcases with ⟨-, hs₁⟩ | ⟨type, sp, after, -, rfl, -⟩
    · refine ⟨{ i with type := some v.type }, ?_, ?_⟩
      · rw [hs₁, info_modify, if_pos rfl, hi]
        rfl
      · rintro u ⟨⟩
        exact hv.value
    · exact ⟨i, hi, hg.isValue_of_type hi⟩
  obtain ⟨k, hk, hvalue⟩ := hknown
  split
  · exact .pure _
  · next hvoid =>
    refine .bind ?_ fun _ _ _ => .pure _
    rw [storeInto, if_neg hvoid]
    refine .bind (expandVar_blames (htypes ▸ hg.types) ?_ hk ?_ v.span) fun _ _ _ => .pure _
    · exact htypes ▸ hv.value
    · exact htypes ▸ hvalue

theorem loopValue_blames (hid : id < s.outline.vars.length) (span : Span) :
    Blames (loopValue id span) s := by
  obtain ⟨var, hvar, -⟩ := exists_var (getElem?_eq_getElem hid)
  refine .after (askScope_of_ok hvar) ?_
  cases htype : var.type with
  | none => exact .pure _
  | some type =>
    exact (valueOf_completes (typeOf_eq_some_iff.2 ⟨_, var_ok hvar, htype⟩) span).blames

theorem callResult_blames {result : TypeId} {b : Bindings} (hg : s.outline.Good)
    (hresult : s.types.IsValue result) (hb : BindsValues s.types b) (span : Span) :
    Blames (callResult result b span) s := by
  rw [callResult]
  split
  · exact .pure _
  · refine .bind (instantiate_blames hg.types hb hresult.lt_size span) fun type s₁ hrun => ?_
    obtain ⟨g, hinst, rfl⟩ := instantiate_ok hrun
    obtain ⟨hgrown, -⟩ := instantiate_spec hg.types hb hresult hinst
    have hgood : ({ s with types := g } : Session).outline.Good := hg.retype hgrown.regular hgrown.ext
    refine .bind (.of_ok rfl) fun dest s₂ hdest => ?_
    obtain ⟨rfl, hs₂⟩ := newTemp_ok hdest
    have hnew : ({ s with types := g } : Session).outline.Steps s₂.outline := hs₂ ▸ .pushFresh hgood
    have hvalue : s₂.types.IsValue type := (hgrown.values type mem_cons_self).extend hnew.grows.types
    refine .bind (expand_blames hnew.good hvalue (fun id hid => ?_) span) fun outputs s₃ hexpand => ?_
    · cases mem_singleton.1 hid
      simp [hs₂, Outline.push]
    · obtain ⟨-, hfills⟩ := expand_fills hnew.good hvalue hexpand
      obtain ⟨t, ht⟩ := hfills.typed _ mem_cons_self
      exact .bind (valueOf_completes ht span).blames fun _ _ _ => .pure _

end Lower

end SlotCode
