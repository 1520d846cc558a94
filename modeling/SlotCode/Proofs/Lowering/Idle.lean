import SlotCode.Proofs.Lowering.Kept

/-!
# Between functions

A session that is idle before a function is lowered is idle afterwards, whether or not that succeeds
(`lowerFunction_rests`).
-/

namespace SlotCode

open Lower

variable {E : Failure LoweringError → Prop} {T : TypeGraph → TypeGraph → Prop}

/-! ## Functions -/

section

variable [Std.Refl T] [IsTrans TypeGraph T]

theorem declareParams_traces (mode : BindMode) (params : List Param) (types : List TypeId) :
    Tracing E T true (declareParams mode params types) := by
  induction params generalizing mode types with
  | nil => exact .pure _
  | cons param params ih =>
    cases types with
    | nil => exact .pure _
    | cons type types =>
      refine fun s => .bind (bindName_traces _ _ _ s) fun a t hname => ?_
      obtain ⟨hid, -⟩ := bindName_inScope hname
      refine .bind (.of_edits (expand_edits _ _ (fun x hx => ?_) _ t)) fun _ t _ =>
        EitherWay.bind (ih _ types) (fun _ => .pure _) t
      exact mem_vars_var hx ▸ hid

theorem lowerBody_traces [TypeGraph.Upheld E T] {decl : FnDecl}
    (hdecl : ∀ type ∈ decl.body.annotations, TypeGraph.Admits T type) (c : Callee) :
    Tracing E T false (lowerBody decl c) :=
  .inContext (.bind (declareParams_traces _ _ _) fun _ =>
    .bind (tracing.blockOn decl.body hdecl).weaken fun _ =>
      .bind (.of_edits fun _ => requireMatch_edits _ _ _ _) fun _ => .pure _)

end

/-- If no function is being lowered in `s`, none is in `t`, and `t` knows the same functions.  The type
graph has changed as `T` says. -/
def Session.Rests (T : TypeGraph → TypeGraph → Prop) (s t : Session) : Prop :=
  s.scope.Idle → T s.types t.types ∧ t.scope.Idle ∧ t.scope.current.id = s.scope.current.id ∧
    t.scope.functions = s.scope.functions

instance [Std.Refl T] : Std.Refl (Session.Rests T) where
  refl s h := ⟨refl_of T s.types, h, rfl, rfl⟩

instance [IsTrans TypeGraph T] : IsTrans Session (Session.Rests T) where
  trans _ _ _ h h' hs := by
    obtain ⟨htypes, hidle, hid, hfunctions⟩ := h hs
    obtain ⟨htypes', hidle', hid', hfunctions'⟩ := h' hidle
    exact ⟨trans_of T htypes htypes', hidle', hid'.trans hid, hfunctions'.trans hfunctions⟩

/-- What is left after the variables have been taken out. -/
theorem Session.Traces.rests {s t : Session} (h : s.Traces T false t) :
    s.Rests T { t with scope := t.scope.drain } := by
  intro hs
  have hkeeps := h.scope.keeps
  have hids : t.scope.openIds = [s.scope.current.id] := by
    rw [hkeeps.ids, Scope.openIds, hs.contexts]
    rfl
  rw [Scope.openIds, Scope.contexts, List.map_cons, List.cons_eq_cons, List.map_eq_nil_iff] at hids
  obtain ⟨hcurrent, houter⟩ := hids
  refine ⟨h.types, ⟨?_, ?_, rfl, rfl⟩, hcurrent, hkeeps.functions⟩
  · simp [Scope.contexts, Scope.drain, houter, Context.new]
  · change t.scope.current.id < t.scope.nextContext
    rw [hcurrent]
    exact Nat.lt_of_lt_of_le hs.below hkeeps.nextContext

theorem draining_rests {α : Type} {x : Lower α} (hx : Tracing E T false x) :
    EitherWay E (Session.Rests T) (draining x) := by
  intro s
  have hs := hx s
  rw [EitherWayAt] at hs ⊢
  rw [draining]
  cases hrun : x s with
  | ok a t =>
    rw [hrun] at hs
    exact hs.rests
  | error e t =>
    rw [hrun] at hs
    exact hs.imp_right (·.rests)

theorem report_rests [Std.Refl T] (event : Event) : EitherWay E (Session.Rests T) (report event) :=
  fun s h => ⟨refl_of T s.types, h, rfl, rfl⟩

theorem lowerFunction_eitherWay [Std.Refl T] [IsTrans TypeGraph T] [TypeGraph.Upheld E T] {decl : FnDecl}
    (hdecl : ∀ type ∈ decl.body.annotations, TypeGraph.Admits T type) :
    EitherWay E (Session.Rests T) (lowerFunction decl) := by
  have hcheck : ∀ c : Callee, EitherWay E (Session.Rests T) (checkParams decl c) := by
    intro c
    rw [checkParams]
    split
    · exact .failAt _ _
    · exact .pure _
  exact .bind (report_rests _) fun _ => .bind (callee_eitherWay _ _) fun c => .bind (hcheck c) fun _ =>
    .bind (draining_rests (lowerBody_traces hdecl c)) fun _ => .bind (report_rests _) fun _ => .pure _

theorem lowerFunction_rests (decl : FnDecl) (s : Session) :
    s.Rests TypeGraph.KeptIn (stateAfter (lowerFunction decl s)) :=
  (lowerFunction_eitherWay (fun type _ g => g.keptIn_resolve type) s).stateAfter

end SlotCode
