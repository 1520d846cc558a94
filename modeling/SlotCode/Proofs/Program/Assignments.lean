import SlotCode.Proofs.Program.Stores

/-!
# One assignment for each leaf

A value that lowering has made is stored into a pattern later on: names are bound, variables are made and
contexts are opened and closed in between (`Session.Next`).  All that only adds to the outline, so the
leaves of the value keep their types, and the type of the value keeps its leaves.  A value that a loop is
left with may fix the type of the loop before it is stored there (`Session.Aims`).

Shaping a pattern after the type then gives one slot for each leaf, of the type of that leaf, and storing
gives one assignment for each.
-/

namespace SlotCode

open Outline Lower

/-- What lowering may do between making a value and turning to where it is stored. -/
inductive Session.Next : Session → Session → Prop where
  | expr {e : Expr} {s s' : Session} {r : Code × Value} (h : lowerExpr e s = .ok r s') : Next s s'
  | bind {mode : BindMode} {target : Expr} {s s' : Session} {r : Pattern × BindMode}
      (h : bindPattern mode target s = .ok r s') : Next s s'
  | temp {span : Span} {owner : Option ContextId} {id : VarId} {s s' : Session}
      (h : updateScope (·.newTemp span owner) s = .ok id s') : Next s s'
  | shape {valueSpan : Span} {pattern : Pattern} {type : TypeId} {slots : List VarId} {s s' : Session}
      (hvalue : s.types.IsValue type) (h : expand valueSpan pattern type s = .ok slots s') : Next s s'
  | enter (s : Session) : Next s s.enter
  | loop {label : Option String} {span : Span} {ref : LoopRef} {s s' : Session}
      (h : updateScope (·.newLoop label span) s = .ok ref s') : Next s s'
  | exit (s : Session) (h : 1 < s.outline.frames.length) : Next s s.exit

theorem Session.Next.grows {s s' : Session} (h : s.Next s') (hg : s.outline.Good) :
    s'.outline.Good ∧ s.outline.Grows s'.outline := by
  cases h with
  | expr h =>
    obtain ⟨hsteps, -⟩ := Expr.lowers _ hg h
    exact ⟨hsteps.good, hsteps.grows⟩
  | @bind mode target _ _ r h =>
    cases mode with
    | declare bound =>
      obtain ⟨hgood, hkeeps, -⟩ := declared_vars hg h
      exact ⟨hgood, hkeeps.grows⟩
    | resolve =>
      obtain ⟨rfl, -⟩ := bindPattern_resolve_ok h
      exact ⟨hg, .refl _⟩
  | temp h =>
    obtain ⟨-, hs'⟩ := newTemp_ok h
    rw [hs']
    have hsteps := Steps.pushFresh hg
    exact ⟨hsteps.good, hsteps.grows⟩
  | shape hvalue h =>
    obtain ⟨hsteps, -⟩ := expand_fills hg hvalue h
    exact ⟨hsteps.good, hsteps.grows⟩
  | enter => exact ⟨hg.enter, .reframe _ _⟩
  | @loop label _ _ _ _ h =>
    obtain ⟨rfl, hs'⟩ := newLoop_ok h
    rw [hs']
    exact ⟨hg.openLoop rfl label, .openLoop _ label⟩
  | exit _ hf =>
    rw [Session.outline_exit _ hf]
    exact ⟨hg.exit, .reframe _ _⟩

theorem Session.grows_of_next {s t : Session} (h : Relation.ReflTransGen Session.Next s t)
    (hg : s.outline.Good) : t.outline.Good ∧ s.outline.Grows t.outline := by
  induction h with
  | refl => exact ⟨hg, .refl _⟩
  | tail _ hnext ih =>
    obtain ⟨hgood, hgrows⟩ := ih
    obtain ⟨hgood', hgrows'⟩ := hnext.grows hgood
    exact ⟨hgood', hgrows.trans hgrows'⟩

/-- Lowering turns to the pattern that the value is stored into.  If that is the variable of a loop, the
value may fix its type. -/
inductive Session.Aims (v : Value) (s : Session) : Pattern → Session → Prop where
  | pattern (pattern : Pattern) : Aims v s pattern s
  | loop {ref : LoopRef} {s' : Session} (span : Span) (h : fixLoopType ref v s = .ok () s') :
    Aims v s (.var ref.var span) s'

/-- Shaping the pattern fills it, also where the variable of a loop has a type and no leaves yet. -/
theorem Session.Aims.fills {v : Value} {s t t' : Session} {pattern : Pattern} {slots : List VarId}
    (h : s.Aims v pattern t) (hg : s.outline.Good) (hvalue : s.types.IsValue v.type)
    (hexpand : expand v.span pattern v.type t = .ok slots t') :
    s.outline.Steps t'.outline ∧ t'.outline.Fills pattern v.type slots := by
  cases h with
  | pattern => exact expand_fills hg hvalue hexpand
  | loop span hfix =>
    obtain ⟨i, hi, -, ⟨hun, ht⟩ | ⟨_, _, _, -, rfl, -⟩⟩ := fixLoopType_ok hfix
    · obtain ⟨hsteps, hr⟩ := fixed_receives hg hvalue hi hun ht hexpand
      exact ⟨hsteps, .var span hr⟩
    · exact expand_fills hg hvalue hexpand

theorem Session.Aims.types_eq {v : Value} {s t : Session} {pattern : Pattern} (h : s.Aims v pattern t) :
    t.types = s.types := by
  cases h with
  | pattern => rfl
  | loop span hfix =>
    obtain ⟨-, -, htypes, -⟩ := fixLoopType_ok hfix
    exact htypes

/-- Lowering has made the value, and is now in the session. -/
inductive Yields (v : Value) : Session → Prop where
  | expr {e : Expr} {s s' : Session} {code : Code} (hsite : Visited (.expr e s))
      (h : lowerExpr e s = .ok (code, v) s') : Yields v s'
  | block {b : Block} {s s' : Session} {code : Code} (hsite : Visited (.block b s))
      (h : lowerBlock b s = .ok (code, v) s') : Yields v s'
  | stmt {value : Value} {stmt : Stmt} {s s' : Session} {code : Code}
      (hsite : Visited (.stmt value stmt s)) (h : lowerStmt value stmt s = .ok (code, v) s') : Yields v s'

theorem Yields.ok {v : Value} {s : Session} (h : Yields v s) : s.outline.Good ∧ v.Ok s.outline := by
  cases h with
  | expr hsite h =>
    have hs : Settled _ := hsite.settled
    obtain ⟨hsteps, -, hv⟩ := Expr.lowers _ hs.good h
    exact ⟨hsteps.good, hv⟩
  | block hsite h =>
    have hs : Settled _ := hsite.settled
    obtain ⟨hsteps, -, hv⟩ := Block.lowers _ hs.good h
    exact ⟨hsteps.good, hv⟩
  | stmt hsite h =>
    obtain ⟨hs, hvalue⟩ := hsite.settled
    obtain ⟨⟨_, hadds⟩, -, hv⟩ := Stmt.lowers _ hs.good hvalue h
    exact ⟨hadds.good, hv⟩

/-- The leaves of a value are those of its type, also when lowering has gone on. -/
theorem Value.Ok.length_leaves {v : Value} {o o' : Outline} (hv : v.Ok o) (hg : o.Good)
    (hgrows : o.Grows o') (hvoid : v.shape ≠ .void) :
    v.leaves.length = (o'.types.leafTypes v.type).length := by
  rw [TypeGraph.leafTypes_extend hg.types.toSound hgrows.types hv.value.lt_size]
  exact (hv.typed hvoid).length_eq

theorem getElem?_assignments {span : Span} {slots : List VarId} {operands : List Operand} {i : Nat}
    {slot : VarId} {operand : Operand} (hslot : slots[i]? = some slot)
    (hoperand : operands[i]? = some operand) :
    (assignments span slots operands)[i]? = some (.assign span slot operand) := by
  rw [assignments, List.getElem?_zipWith, hslot, hoperand]

/-- A pattern that is shaped after the type of a value has one slot for each leaf of the value, whose
type is that of the leaf, and storing the value assigns to each slot the leaf at its place.  If the
pattern cannot be shaped, then storing fails in the same way. -/
theorem storeInto_pairs_leaves {v : Value} {s u t : Session} {pattern : Pattern} (hmade : Yields v s)
    (hvoid : v.shape ≠ .void) (hlater : Relation.ReflTransGen Session.Next s u)
    (haims : u.Aims v pattern t) (span : Span) :
    (∀ slots t', expand v.span pattern v.type t = .ok slots t' →
      ∃ types code, t.types.leaves v.type = .ok types ∧
        storeInto pattern v span t = .ok code t' ∧
        slots.length = types.length ∧ v.leaves.length = types.length ∧ code.length = types.length ∧
        List.Forall₂ t'.outline.Takes slots types ∧
        ∀ (i : Nat) (slot : VarId) (operand : Operand), slots[i]? = some slot →
          v.leaves[i]? = some operand → code[i]? = some (.assign span slot operand)) ∧
      ∀ failure t', expand v.span pattern v.type t = .error failure t' →
        storeInto pattern v span t = .error failure t' := by
  obtain ⟨hg, hv⟩ := hmade.ok
  obtain ⟨hg', hgrows⟩ := Session.grows_of_next hlater hg
  have hvalue : u.types.IsValue v.type := hv.value.extend hgrows.types
  have hstore : storeInto pattern v span t = (do
      let slots ← expand v.span pattern v.type
      return assignments span slots v.leaves : Lower Code) t := by
    rw [storeInto, if_neg fun h => hvoid (Value.isVoid_iff.1 h)]
  refine ⟨fun slots t' h => ?_, fun failure t' h => ?_⟩
  · obtain ⟨hsteps, hfills⟩ := haims.fills hg' hvalue h
    have htypes := TypeGraph.leafTypes_extend hg'.types.toSound hsteps.grows.types hvalue.lt_size
    have htakes := hfills.takes hsteps.good
    rw [htypes] at htakes
    have hlen := hv.length_leaves hg hgrows hvoid
    refine ⟨_, assignments span slots v.leaves,
      haims.types_eq ▸ TypeGraph.leaves_eq hg'.types.toSound hvalue.lt_size, ?_, htakes.length_eq, hlen, ?_, htakes, fun i slot operand => getElem?_assignments⟩
    · rw [hstore]
      exact bind_eq_ok_iff.2 ⟨slots, t', h, rfl⟩
    · rw [assignments, List.length_zipWith, htakes.length_eq, hlen, Nat.min_self]
  · rw [hstore]
    exact bind_eq_error_iff.2 (.inl h)

/-- The pair `(b, a)` is stored into the new variables of `let (a, b) = (b, a)`. -/
theorem storeInto_pairs_leaves_declareExchanged :
    ∃ v s t pattern slots t' types code, Yields v s ∧ v.shape ≠ .void ∧ s.Next t ∧
      expand v.span pattern v.type t = .ok slots t' ∧ t.types.leaves v.type = .ok types ∧
      storeInto pattern v ⟨0, 0⟩ t = .ok code t' ∧ slots.length = types.length ∧
      v.leaves.length = types.length ∧ code.length = types.length ∧
      List.Forall₂ t'.outline.Takes slots types := by
  have hrun : succeeds (fun _ => true) (lowerFunction (pairDecl declareExchanged)
      (Session.after [.declare (pairDecl declareExchanged)])) = true := by
    decide +kernel
  obtain ⟨f, _, hf, -⟩ := exists_ok_of_succeeds hrun
  obtain ⟨s, v, s₁, hbody, hblock, -⟩ := visited_of_lowerFunction hf
  obtain ⟨s₂, hstmts, -⟩ := lowerBlock_cases hblock
  obtain ⟨code, w, s₃, codes, hstmt, -⟩ := lowerStmts_cons hstmts
  have hsite := hbody.head_stmt
  cases lowerStmt_cases hstmt with
  | bind hexpr hbind hstore =>
    have hmade := Yields.expr (.bind hsite) hexpr
    obtain ⟨hvoid, slots, hexpand, -⟩ := storeInto_ok hstore
    obtain ⟨hpairs, -⟩ := storeInto_pairs_leaves hmade hvoid (.single (.bind hbind)) (.pattern _) ⟨0, 0⟩
    obtain ⟨types, stores, hleaves, hstored, hslots, hlen, hcode, htakes, -⟩ := hpairs slots _ hexpand
    exact ⟨_, _, _, _, slots, _, types, stores, hmade, hvoid, .bind hbind, hexpand, hleaves, hstored,
      hslots, hlen, hcode, htakes⟩

end SlotCode
