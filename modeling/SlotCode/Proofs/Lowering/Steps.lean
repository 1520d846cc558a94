import SlotCode.Proofs.Lowering.Outline

/-!
# Steps that succeed

What each step of lowering that succeeds has returned, and what it has done to the outline.
-/

namespace SlotCode

variable {v w : Value} {type : TypeId} {name : String} {span : Span} {u : Unit} {code : Code}
  {id : VarId} {b : Bindings}

theorem Value.isVoid_iff : v.isVoid = true ↔ v.shape = .void := by
  simp [Value.isVoid]

namespace Lower

variable {s s' : Session}

/-- The types match, and nothing else has happened. -/
theorem requireMatch_ok {expected : Option TypeId} {found : TypeId} {sp sp' : Span}
    (h : requireMatch expected found sp sp' s = .ok u s') :
    s' = s ∧ ∃ after, s.types.matchTypes expected found sp sp' none = .ok () after := by
  simp only [requireMatch] at h
  cases hm : s.types.matchTypes expected found sp sp' none <;> rw [hm] at h <;> cases h
  exact ⟨rfl, _, rfl⟩

theorem scalarOf_ok {operand : Operand} (h : scalarOf v s = .ok operand s') :
    s' = s ∧ v.shape = .scalar operand := by
  simp only [scalarOf] at h
  cases hs : v.shape with
  | scalar op =>
    rw [hs] at h
    cases h
    exact ⟨rfl, rfl⟩
  | void | tuple ops =>
    rw [hs] at h
    exact absurd h unsupported_ne_ok

/-! ## Tuples and operators -/

/-- No item is void. -/
theorem tupleLeaves_ok {values : List Value} {operands : List Operand}
    (h : tupleLeaves values s = .ok operands s') :
    s' = s ∧ (∀ v ∈ values, v.shape ≠ .void) ∧ operands = values.flatMap Value.leaves := by
  induction values generalizing operands with
  | nil =>
    cases h
    exact ⟨rfl, nofun, rfl⟩
  | cons v values ih =>
    simp only [tupleLeaves] at h
    split at h
    · exact absurd h failAt_ne_ok
    · next hv =>
      simp only [bind_eq_ok_iff, pure_eq_ok_iff] at h
      obtain ⟨rest, s₁, hrest, rfl, rfl⟩ := h
      obtain ⟨rfl, hvoid, rfl⟩ := ih hrest
      refine ⟨rfl, ?_, by rw [List.flatMap_cons]⟩
      intro w hw
      rcases List.mem_cons.1 hw with rfl | hw
      · exact fun hs => hv (Value.isVoid_iff.2 hs)
      · exact hvoid w hw

/-- A tuple has a type of its own, which is new. -/
theorem tupleOf_ok {values : List Value} (h : tupleOf values span s = .ok v s') :
    (∀ w ∈ values, w.shape ≠ .void) ∧
      s' = { s with types := (s.types.add (.tuple (values.map Value.type)) (some span)).2 } ∧
      v = .tuple s.types.size span (values.flatMap Value.leaves) := by
  simp only [tupleOf, bind_eq_ok_iff, updateTypes_eq_ok_iff, pure_eq_ok_iff] at h
  obtain ⟨type, s₁, ⟨rfl, rfl⟩, leaves, s₂, hleaves, rfl, rfl⟩ := h
  obtain ⟨rfl, hvoid, rfl⟩ := tupleLeaves_ok hleaves
  exact ⟨hvoid, rfl, rfl⟩

/-- One assignment for each comparison, to variables with successive numbers. -/
def comparisonCode : List Comparison → VarId → Code
  | [], _ => []
  | c :: cs, dest => .assign c.span dest (.compare c.left c.op c.right) :: comparisonCode cs (dest + 1)

/-- Each comparison gets a temporary for its outcome. -/
theorem runComparisons_ok {cs : List Comparison} {tests : List Operand}
    (h : runComparisons cs s = .ok (code, tests) s') :
    s'.outline = s.outline.push (List.replicate cs.length (.temp .boolean)) ∧
      code = comparisonCode cs s.outline.vars.length ∧
      tests = (List.range' s.outline.vars.length cs.length).map .var := by
  induction cs generalizing s code tests with
  | nil =>
    cases h
    simp [Outline.push, comparisonCode]
  | cons c cs ih =>
    simp only [runComparisons, bind_eq_ok_iff, pure_eq_ok_iff, Prod.exists, Prod.mk.injEq] at h
    obtain ⟨dest, s₁, hdest, code', tests', s₂, hrest, ⟨rfl, rfl⟩, rfl⟩ := h
    obtain ⟨rfl, hs₁⟩ := newTyped_ok hdest
    obtain ⟨hs₂, rfl, rfl⟩ := ih hrest
    have hlen : s₁.outline.vars.length = s.outline.vars.length + 1 := by
      rw [hs₁]
      simp [Outline.push]
    rw [hs₂, hlen, hs₁]
    simp [Outline.push, comparisonCode, List.range'_succ, List.replicate_succ]

/-- A variable is held already, and any other operand gets a temporary. -/
theorem holdInteger_ok (h : holdInteger v span s = .ok (code, id) s') :
    v.shape = .scalar (.var id) ∧ code = [] ∧ s' = s ∨
      ∃ operand, v.shape = .scalar operand ∧ id = s.outline.vars.length ∧
        code = [.assign span id operand] ∧ s'.outline = s.outline.push [.temp .integer] := by
  simp only [holdInteger] at h
  cases hv : v.asVar? with
  | some x =>
    rw [hv] at h
    cases h
    refine .inl ⟨?_, rfl, rfl⟩
    simp only [Value.asVar?] at hv
    split at hv
    · next hs =>
      cases hv
      exact hs
    · cases hv
  | none =>
    rw [hv] at h
    simp only [bind_eq_ok_iff, pure_eq_ok_iff, Prod.mk.injEq] at h
    obtain ⟨x, s₁, hx, operand, s₂, hop, ⟨rfl, rfl⟩, rfl⟩ := h
    obtain ⟨rfl, hs₁⟩ := newTyped_ok hx
    obtain ⟨rfl, hshape⟩ := scalarOf_ok hop
    exact .inr ⟨operand, hshape, rfl, rfl, hs₁⟩

/-! ## Boxes -/

/-- The outline with another type graph and a temporary of the type. -/
def withTemp (s : Session) (g : TypeGraph) (type : TypeId) : Outline :=
  ({ s.outline with types := g } : Outline).push [.temp type]

theorem wrapValue_ok {payloadSpan : Span} (h : wrapValue v payloadSpan span s = .ok (code, w) s') :
    v.shape ≠ .void ∧
      s'.outline = withTemp s (s.types.add (.box v.type) (some span)).2 s.types.size ∧
      code = [.native span .wrap v.leaves [s.outline.vars.length]] ∧
      w = .scalar s.types.size span (.var s.outline.vars.length) := by
  simp only [wrapValue] at h
  split at h
  · exact absurd h failAt_ne_ok
  · next hv =>
    simp only [bind_eq_ok_iff, updateTypes_eq_ok_iff, pure_eq_ok_iff, Prod.mk.injEq] at h
    obtain ⟨type, s₁, ⟨rfl, rfl⟩, dest, s₂, hdest, ⟨rfl, rfl⟩, rfl⟩ := h
    obtain ⟨rfl, hs₂⟩ := newTyped_ok hdest
    exact ⟨fun hs => hv (Value.isVoid_iff.2 hs), hs₂, rfl, rfl⟩

theorem expectType_ok {expected : TypeId} (h : expectType expected v span s = .ok u s') :
    s' = s ∧ ∃ after, s.types.matchTypes (some expected) v.type span v.span none = .ok () after :=
  requireMatch_ok h

theorem consValue_ok {head tail : Value} (h : consValue head tail span s = .ok (code, w) s') :
    ∃ item payload operand after, s.types.kind tail.type = .ok (.list item payload) ∧
      head.shape ≠ .void ∧
      s.types.matchTypes (some item) head.type tail.span head.span none = .ok () after ∧
      tail.shape = .scalar operand ∧ s'.outline = s.outline.push [.temp tail.type] ∧
      code = [.native span .wrap (head.leaves ++ [operand]) [s.outline.vars.length]] ∧
      w = .scalar tail.type span (.var s.outline.vars.length) := by
  simp only [consValue, bind_eq_ok_iff, askTypes_eq_ok_iff] at h
  obtain ⟨kind, s₁, ⟨hk, rfl⟩, h⟩ := h
  cases kind with
  | list item payload =>
    simp only [TypeKind.item?] at h
    split at h
    · exact absurd h failAt_ne_ok
    · next hv =>
      simp only [bind_eq_ok_iff, pure_eq_ok_iff, Prod.mk.injEq] at h
      obtain ⟨_, s₁, hmatch, operand, s₂, hop, dest, s₃, hdest, ⟨rfl, rfl⟩, rfl⟩ := h
      obtain ⟨rfl, after, hmatch⟩ := expectType_ok hmatch
      obtain ⟨rfl, hshape⟩ := scalarOf_ok hop
      obtain ⟨rfl, hs₃⟩ := newTyped_ok hdest
      exact ⟨item, payload, operand, after, hk, fun hs => hv (Value.isVoid_iff.2 hs), hmatch, hshape,
        hs₃, rfl, rfl⟩
  | _ =>
    simp only [TypeKind.item?, bind_eq_ok_iff] at h
    obtain ⟨_, _, -, h⟩ := h
    exact absurd h failAt_ne_ok

theorem emptyBox_ok (h : emptyBox type span s = .ok (code, w) s') :
    s'.outline = s.outline.push [.temp type] ∧
      code = [.native span .wrapEmpty [] [s.outline.vars.length]] ∧
      w = .scalar type span (.var s.outline.vars.length) := by
  simp only [emptyBox, bind_eq_ok_iff, pure_eq_ok_iff, Prod.mk.injEq] at h
  obtain ⟨dest, s₁, hdest, ⟨rfl, rfl⟩, rfl⟩ := h
  obtain ⟨rfl, hs₁⟩ := newTyped_ok hdest
  exact ⟨hs₁, rfl, rfl⟩

theorem wrapNothing_ok {payload : TypeExpr} (h : wrapNothing payload span s = .ok (code, w) s') :
    let g := (s.types.resolve payload).2
    s'.outline = withTemp s (g.add (.box (s.types.resolve payload).1) (some span)).2 g.size ∧
      code = [.native span .wrapEmpty [] [s.outline.vars.length]] ∧
      w = .scalar g.size span (.var s.outline.vars.length) := by
  simp only [wrapNothing, bind_eq_ok_iff, updateTypes_eq_ok_iff] at h
  obtain ⟨_, s₁, ⟨rfl, rfl⟩, h⟩ := h
  split at h
  · exact absurd h failAt_ne_ok
  · simp only [bind_eq_ok_iff, updateTypes_eq_ok_iff] at h
    obtain ⟨_, s₁, ⟨rfl, rfl⟩, h⟩ := h
    exact emptyBox_ok h

theorem consNothing_ok {item : TypeExpr} (h : consNothing item span s = .ok (code, w) s') :
    let g := (s.types.resolve item).2
    s'.outline = withTemp s (g.addList (s.types.resolve item).1 (some span)).2 g.size ∧
      code = [.native span .wrapEmpty [] [s.outline.vars.length]] ∧
      w = .scalar g.size span (.var s.outline.vars.length) := by
  simp only [consNothing, bind_eq_ok_iff, updateTypes_eq_ok_iff] at h
  obtain ⟨_, s₁, ⟨rfl, rfl⟩, h⟩ := h
  split at h
  · exact absurd h failAt_ne_ok
  · simp only [bind_eq_ok_iff, updateTypes_eq_ok_iff] at h
    obtain ⟨_, s₁, ⟨rfl, rfl⟩, h⟩ := h
    exact emptyBox_ok h

/-- Boxes and lists can be opened, and nothing else. -/
theorem openBox_ok {payload : TypeId} {operand : Operand}
    (h : openBox v s = .ok (payload, operand) s') :
    s' = s ∧ v.shape = .scalar operand ∧
      ∃ kind, s.types.kind v.type = .ok kind ∧ kind.payload? = some payload := by
  simp only [openBox, bind_eq_ok_iff, askTypes_eq_ok_iff] at h
  obtain ⟨kind, s₁, ⟨hk, rfl⟩, h⟩ := h
  cases hp : kind.payload? with
  | none =>
    simp only [hp, bind_eq_ok_iff] at h
    obtain ⟨_, _, -, h⟩ := h
    exact absurd h failAt_ne_ok
  | some p =>
    simp only [hp, bind_eq_ok_iff, pure_eq_ok_iff, Prod.mk.injEq] at h
    obtain ⟨operand', s₁, hop, ⟨rfl, rfl⟩, rfl⟩ := h
    obtain ⟨rfl, hshape⟩ := scalarOf_ok hop
    exact ⟨rfl, hshape, kind, hk, hp⟩

/-! ## Calls -/

/-- A single parameter that is void counts as none. -/
theorem callee_ok {c : Callee} (h : callee name span s = .ok c s') :
    s' = s ∧ ∃ sig params, s.outline.functions.lookup name = some sig ∧
      s.types.kind sig.type = .ok (.function params c.result c.native) ∧
      c.params = if params = [.void] then [] else params := by
  simp only [callee, bind_eq_ok_iff, search_eq_ok_iff, askTypes_eq_ok_iff] at h
  obtain ⟨type, s₁, ⟨hsig, rfl⟩, kind, s₂, ⟨hk, rfl⟩, h⟩ := h
  simp only [Scope.signature] at hsig
  cases hl : s.scope.functions.lookup name with
  | none =>
    rw [hl] at hsig
    cases hsig
  | some sig =>
    rw [hl] at hsig
    cases hsig
    cases kind with
    | function params result native =>
      cases h
      exact ⟨rfl, sig, params, hl, hk, rfl⟩
    | _ => exact absurd h unsupported_ne_ok

theorem checkArity_ok {c : Callee} {args : List Expr} (h : checkArity name c args span s = .ok u s') :
    s' = s ∧ c.params.length = args.length := by
  simp only [checkArity] at h
  split at h
  · next hlen =>
    cases h
    exact ⟨rfl, hlen⟩
  · exact absurd h failAt_ne_ok

theorem bindArgument_ok {param : TypeId} {b' : Bindings}
    (h : bindArgument param v span b s = .ok b' s') :
    s' = s ∧ ∃ after, s.types.matchTypes (some param) v.type span v.span (some b) = .ok () after ∧
      b' = after.getD b := by
  simp only [bindArgument] at h
  cases hm : s.types.matchTypes (some param) v.type span v.span (some b) <;> rw [hm] at h <;> cases h
  exact ⟨rfl, _, rfl, rfl⟩

theorem instantiate_ok {r : TypeId} (h : instantiate type b span s = .ok r s') :
    ∃ g, TypeGraph.instantiate type b span s.types = .ok r g ∧ s' = { s with types := g } := by
  simp only [instantiate] at h
  cases hi : TypeGraph.instantiate type b span s.types <;> rw [hi] at h <;> cases h
  exact ⟨_, rfl, rfl⟩

theorem callCommand_ok {native : Bool} {inputs : List Operand} {outputs : List VarId}
    {targetSpan : Span} {c : Command}
    (h : callCommand name native inputs outputs targetSpan span s = .ok c s') :
    s'.outline = s.outline ∧
      (native = false ∧ c = .call span name inputs outputs ∨ native = true ∧ ∃ primitive,
        Primitive.ofName? name = some primitive ∧ c = .native span primitive inputs outputs) := by
  simp only [callCommand] at h
  cases native with
  | true =>
    simp only [if_true] at h
    cases hp : Primitive.ofName? name with
    | none =>
      rw [hp] at h
      exact absurd h unsupported_ne_ok
    | some primitive =>
      rw [hp] at h
      cases h
      exact ⟨rfl, .inr ⟨rfl, primitive, rfl, rfl⟩⟩
  | false =>
    simp only [Bool.false_eq_true, if_false, bind_eq_ok_iff, report_eq_ok_iff, pure_eq_ok_iff] at h
    obtain ⟨_, s₁, rfl, rfl, rfl⟩ := h
    exact ⟨rfl, .inl ⟨rfl, rfl⟩⟩

/-! ## Patterns -/

/-- The outline after the first value has fixed the type of a variable. -/
def typed (o : Outline) (id : VarId) (i : VarInfo) (type : TypeId) : Outline :=
  if i.type = none then o.modify id fun j => { j with type := some type } else o

/-- What shaping a variable has done: nothing more if it is real or has its leaves, or else made
the leaves. -/
inductive Expanded (o : Outline) (id : VarId) (i : VarInfo) (type : TypeId) :
    List VarId → Outline → Prop where
  | real {kind : TypeKind} (hk : o.types.kind type = .ok kind) (hi : kind.items? = none) :
      Expanded o id i type [id] (typed o id i type)
  | virtual {items : List TypeId} {leaves : List VarId} (hk : o.types.kind type = .ok (.tuple items))
      (hl : i.leaves = some leaves) : Expanded o id i type leaves (typed o id i type)
  | spread {items types : List TypeId} (hk : o.types.kind type = .ok (.tuple items))
      (hl : i.leaves = none) (ht : o.types.leaves type = .ok types) :
      Expanded o id i type (List.range' o.vars.length types.length)
        (((typed o id i type).push (types.map .temp)).modify id fun j =>
          { j with leaves := some (List.range' o.vars.length types.length) })

theorem expandVar_ok {valueSpan : Span} {slots : List VarId}
    (h : expandVar id type valueSpan s = .ok slots s') :
    ∃ i, s.outline.info id = some i ∧
      (∃ span after, s.types.matchTypes i.type type span valueSpan none = .ok () after) ∧
      Expanded s.outline id i type slots s'.outline := by
  simp only [expandVar, bind_eq_ok_iff, askScope_eq_ok_iff] at h
  obtain ⟨var, s₁, ⟨hvar, rfl⟩, _, s₁, hmatch, h⟩ := h
  obtain ⟨rfl, after, hmatch⟩ := requireMatch_ok hmatch
  rw [ite_bind_eq_ok_iff] at h
  simp only [bind_eq_ok_iff] at h
  obtain ⟨s₂, htype, kind, s₃, hkind, h⟩ := h
  have hs₂ : s₂.types = s₁.types ∧ s₂.outline = typed s₁.outline id (.ofVar var) type := by
    rw [Option.isNone_iff_eq_none] at htype
    rcases htype with ⟨hnone, htype⟩ | ⟨hsome, rfl⟩
    · refine ⟨by rw [← modifyScope_eq_ok_iff.1 htype], ?_⟩
      rw [setType_ok htype, typed, if_pos (show (VarInfo.ofVar var).type = none from hnone)]
    · rw [typed, if_neg (show (VarInfo.ofVar var).type ≠ none from hsome)]
      exact ⟨rfl, rfl⟩
  obtain ⟨hg, hs₂⟩ := hs₂
  obtain ⟨hk, rfl⟩ := askTypes_eq_ok_iff.1 hkind
  rw [hg] at hk
  refine ⟨.ofVar var, var_ok hvar, ⟨var.span, after, hmatch⟩, ?_⟩
  cases hi : kind.items? with
  | none =>
    rw [hi] at h
    cases h
    rw [hs₂]
    exact .real hk hi
  | some items =>
    obtain rfl : kind = .tuple items := by
      cases kind <;> cases hi
      rfl
    rw [hi] at h
    cases hl : var.leaves with
    | some leaves =>
      rw [hl] at h
      cases h
      rw [hs₂]
      exact .virtual hk hl
    | none =>
      simp only [hl, bind_eq_ok_iff, askScope_eq_ok_iff, askTypes_eq_ok_iff, pure_eq_ok_iff] at h
      obtain ⟨owner, s₃, ⟨-, rfl⟩, types, s₄, ⟨hleaves, rfl⟩, ids, s₅, hnew, _, s₆, hset, rfl, rfl⟩ := h
      obtain ⟨rfl, hs₅⟩ := newLeaves_ok hnew
      rw [hg] at hleaves
      have hlen : (typed s₁.outline id (.ofVar var) type).vars.length = s₁.outline.vars.length := by
        rw [typed]
        split
        · exact List.length_modify _ _ _
        · rfl
      rw [setLeaves_ok hset, hs₅, hs₂, hlen]
      exact .spread hk hl hleaves

/-- Nothing void is stored. -/
theorem storeInto_ok {pattern : Pattern} (h : storeInto pattern v span s = .ok code s') :
    v.shape ≠ .void ∧ ∃ slots, expand v.span pattern v.type s = .ok slots s' ∧
      code = assignments span slots v.leaves := by
  simp only [storeInto] at h
  split at h
  · exact absurd h failAt_ne_ok
  · next hv =>
    simp only [bind_eq_ok_iff, pure_eq_ok_iff] at h
    obtain ⟨slots, s₁, hslots, rfl, rfl⟩ := h
    exact ⟨fun hs => hv (Value.isVoid_iff.2 hs), slots, hslots, rfl⟩

/-! ## Blocks, conditionals and loops -/

/-- Only a value that is not void is kept in a variable. -/
theorem keepValue_ok (h : keepValue v span s = .ok (code, w) s') :
    v.shape = .void ∧ code = [] ∧ w = v ∧ s' = s ∨
      ∃ dest s₁ s₂, updateScope (·.newTemp span none) s = .ok dest s₁ ∧
        storeInto (.var dest span) v span s₁ = .ok code s₂ ∧ valueOf dest span s₂ = .ok w s' := by
  simp only [keepValue] at h
  split at h
  · next hv =>
    cases h
    exact .inl ⟨Value.isVoid_iff.1 hv, rfl, rfl, rfl⟩
  · simp only [bind_eq_ok_iff, pure_eq_ok_iff, Prod.mk.injEq] at h
    obtain ⟨dest, s₁, hdest, code', s₂, hstore, w', s₃, hvalue, ⟨rfl, rfl⟩, rfl⟩ := h
    exact .inr ⟨dest, s₁, s₂, hdest, hstore, hvalue⟩

theorem joinBranches_ok {yesCode noCode yesCode' : Code} {yes : Value} {no : Option (Code × Value)}
    (h : joinBranches (yesCode, yes) no span s = .ok (yesCode', noCode, v) s') :
    yes.shape = .void ∧ yesCode' = yesCode ∧ noCode = (no.map Prod.fst).getD [] ∧ v = .void span ∧
        s' = s ∧ (∀ c w, no = some (c, w) →
          ∃ after, s.types.matchTypes (some yes.type) w.type yes.span w.span none = .ok () after) ∨
      ∃ c w dest s₁ s₂ s₃ yesStores noStores, no = some (c, w) ∧
        (∃ after, s.types.matchTypes (some yes.type) w.type yes.span w.span none = .ok () after) ∧
        updateScope (·.newTemp span none) s = .ok dest s₁ ∧
        storeInto (.var dest span) yes yes.span s₁ = .ok yesStores s₂ ∧
        storeInto (.var dest span) w w.span s₂ = .ok noStores s₃ ∧
        valueOf dest span s₃ = .ok v s' ∧ yesCode' = yesCode ++ yesStores ∧
        noCode = c ++ noStores := by
  cases no with
  | none =>
    simp only [joinBranches] at h
    split at h
    · next hv =>
      cases h
      exact .inl ⟨Value.isVoid_iff.1 hv, rfl, rfl, rfl, rfl, nofun⟩
    · exact absurd h failAt_ne_ok
  | some pair =>
    obtain ⟨c, w⟩ := pair
    simp only [joinBranches, bind_eq_ok_iff] at h
    obtain ⟨_, s₁, hmatch, h⟩ := h
    obtain ⟨rfl, hmatch⟩ := expectType_ok hmatch
    split at h
    · next hv =>
      cases h
      refine .inl ⟨Value.isVoid_iff.1 hv, rfl, rfl, rfl, rfl, ?_⟩
      rintro c' w' ⟨⟩
      exact hmatch
    · simp only [bind_eq_ok_iff, pure_eq_ok_iff, Prod.mk.injEq] at h
      obtain ⟨dest, s₂, hdest, yesStores, s₃, hyes, noStores, s₄, hno, v', s₅, hvalue,
        ⟨rfl, rfl, rfl⟩, rfl⟩ := h
      exact .inr ⟨c, w, dest, s₂, s₃, s₄, yesStores, noStores, rfl, hmatch, hdest, hyes, hno,
        hvalue, rfl, rfl⟩

theorem callResult_ok {result : TypeId} {outputs : List VarId}
    (h : callResult result b span s = .ok (outputs, v) s') :
    result = .void ∧ outputs = [] ∧ v = .void span ∧ s' = s ∨
      result ≠ .void ∧ ∃ r g dest s₁ s₂, TypeGraph.instantiate result b span s.types = .ok r g ∧
        updateScope (·.newTemp span none) { s with types := g } = .ok dest s₁ ∧
        expandVar dest r span s₁ = .ok outputs s₂ ∧ valueOf dest span s₂ = .ok v s' := by
  simp only [callResult] at h
  split at h
  · next hr =>
    cases h
    exact .inl ⟨hr, rfl, rfl, rfl⟩
  · next hr =>
    simp only [bind_eq_ok_iff, pure_eq_ok_iff, Prod.mk.injEq] at h
    obtain ⟨r, s₁, hinst, dest, s₂, hdest, outputs', s₃, hexpand, v', s₄, hvalue, ⟨rfl, rfl⟩, rfl⟩ := h
    obtain ⟨g, hg, rfl⟩ := instantiate_ok hinst
    exact .inr ⟨hr, r, g, dest, s₂, s₃, hg, hdest, hexpand, hvalue⟩

/-- The first value fixes the type of the variable of a loop. -/
theorem fixLoopType_ok {ref : LoopRef} (h : fixLoopType ref v s = .ok u s') :
    ∃ i, s.outline.info ref.var = some i ∧ s'.types = s.types ∧
      (i.type = none ∧ s'.outline = s.outline.modify ref.var (fun j => { j with type := some v.type }) ∨
        ∃ t sp after, i.type = some t ∧ s' = s ∧
          s.types.matchTypes (some t) v.type sp v.span none = .ok () after) := by
  simp only [fixLoopType, bind_eq_ok_iff, askScope_eq_ok_iff] at h
  obtain ⟨var, s₁, ⟨hvar, rfl⟩, h⟩ := h
  refine ⟨.ofVar var, var_ok hvar, ?_⟩
  cases htype : var.type with
  | none =>
    simp only [htype, bind_eq_ok_iff, askTypes_eq_ok_iff, report_eq_ok_iff] at h
    obtain ⟨_, s₂, ⟨-, rfl⟩, _, s₃, rfl, hmod⟩ := h
    rw [← modifyScope_eq_ok_iff.1 hmod]
    exact ⟨rfl, .inl ⟨htype, Session.outline_modifyVar _ ref.var _ _ fun _ => rfl⟩⟩
  | some t =>
    simp only [htype] at h
    obtain ⟨rfl, after, hmatch⟩ := requireMatch_ok h
    exact ⟨rfl, .inr ⟨t, _, after, htype, rfl, hmatch⟩⟩

/-- A `leave` stores its value, unless it has none, into the variable of its loop, which gets a type
from the first value. -/
theorem leaveWith_ok {label : Option String} (h : leaveWith label v span s = .ok (code, w) s') :
    w = .void span ∧ ∃ ref i s₁ stores, s.outline.target label = some ref ∧
      s.outline.info ref.var = some i ∧ s₁.types = s.types ∧
      (i.type = none ∧ s₁.outline = s.outline.modify ref.var (fun j => { j with type := some v.type }) ∨
        ∃ t sp after, i.type = some t ∧ s₁ = s ∧
          s.types.matchTypes (some t) v.type sp v.span none = .ok () after) ∧
      (v.shape = .void ∧ stores = [] ∧ s' = s₁ ∨ v.shape ≠ .void ∧ ∃ slots,
        expandVar ref.var v.type v.span s₁ = .ok slots s' ∧
        stores = assignments span slots v.leaves) ∧
      code = stores ++ [.leave span ref.loop] := by
  simp only [leaveWith, bind_eq_ok_iff] at h
  obtain ⟨ref, s₁, href, _, s₂, hfix, h⟩ := h
  obtain ⟨rfl, htarget⟩ := targetLoop_ok href
  obtain ⟨i, hi, hg, htyped⟩ := fixLoopType_ok hfix
  split at h
  · next hv =>
    simp only [bind_eq_ok_iff, pure_eq_ok_iff, Prod.mk.injEq] at h
    obtain ⟨stores, s₃, ⟨rfl, rfl⟩, ⟨rfl, rfl⟩, rfl⟩ := h
    exact ⟨rfl, ref, i, s₂, [], htarget, hi, hg, htyped, .inl ⟨Value.isVoid_iff.1 hv, rfl, rfl⟩, rfl⟩
  · simp only [bind_eq_ok_iff, pure_eq_ok_iff, Prod.mk.injEq] at h
    obtain ⟨stores, s₃, hstores, ⟨rfl, rfl⟩, rfl⟩ := h
    obtain ⟨hv, slots, hexpand, rfl⟩ := storeInto_ok hstores
    exact ⟨rfl, ref, i, s₂, _, htarget, hi, hg, htyped, .inr ⟨hv, slots, hexpand, rfl⟩, rfl⟩

/-- A loop that is left with no value is void. -/
theorem loopValue_ok (h : loopValue id span s = .ok v s') :
    ∃ i, s.outline.info id = some i ∧
      (i.type = none ∧ v = .void span ∧ s' = s ∨ i.type ≠ none ∧ valueOf id span s = .ok v s') := by
  simp only [loopValue, bind_eq_ok_iff, askScope_eq_ok_iff] at h
  obtain ⟨var, s₁, ⟨hvar, rfl⟩, h⟩ := h
  refine ⟨.ofVar var, var_ok hvar, ?_⟩
  cases htype : var.type with
  | none =>
    rw [htype] at h
    cases h
    exact .inl ⟨htype, rfl, rfl⟩
  | some t =>
    rw [htype] at h
    exact .inr ⟨by simp [VarInfo.ofVar, htype], h⟩

end Lower

end SlotCode
