import SlotCode.Proofs.Lowering.Traces

/-!
# Declaring the names of a target

A target goes on at its tuples and ends at all other nodes.  Its names are declared from end to end, and
each end must be a name that the ends before it have not declared.

    all nodes are names or tuples, no name twice  →  a pattern of new variables
    otherwise                                     →  an error about the first end that does not fit

Names that were declared before the target do not matter: they are hidden by the new ones
(`bindPattern_declares`).
-/

namespace SlotCode

open List

variable {bound : List (String × Span)} {name : String}

/-! ## Targets -/

mutual

/-- The nodes at which a target does not go on, from left to right. -/
def Expr.ends : Expr → List Expr
  | .tuple _ items => Expr.endsAll items
  | target => [target]

def Expr.endsAll : List Expr → List Expr
  | [] => []
  | target :: targets => target.ends ++ Expr.endsAll targets

end

/-- The name that is declared at an end, and its place. -/
def Expr.name? : Expr → Option (String × Span)
  | .var span name => some (name, span)
  | _ => none

/-- The names of ends, in order. -/
def namesOf (ends : List Expr) : List (String × Span) :=
  ends.filterMap Expr.name?

/-- Every node is a variable or a tuple. -/
inductive Expr.IsTarget : Expr → Prop where
  | var (span : Span) (name : String) : IsTarget (.var span name)
  | tuple (span : Span) (items : List Expr) (h : ∀ item ∈ items, IsTarget item) :
      IsTarget (.tuple span items)

/-- The ends are names, and no two are the same. -/
structure Distinct (ends : List Expr) : Prop where
  named : ∀ e ∈ ends, e.name?.isSome
  nodup : ((namesOf ends).map Prod.fst).Nodup

/-- The error is about the first end of the target that cannot be declared: a node that is no name, or
a name that an end before it has declared. -/
inductive Expr.Refused (target : Expr) : LoweringError → Prop where
  | unnamed {before after : List Expr} {e : Expr} (h : target.ends = before ++ e :: after)
      (hbefore : Distinct before) (he : e.name? = none) :
      Refused target ⟨.unsupported "assignment target", e.span⟩
  | twice {before after : List Expr} {span first : Span} {name : String}
      (h : target.ends = before ++ .var span name :: after) (hbefore : Distinct before)
      (hfirst : (name, first) ∈ namesOf before) :
      Refused target ⟨.duplicateBinding name first, span⟩

mutual

theorem Expr.isTarget_iff (target : Expr) :
    target.IsTarget ↔ ∀ e ∈ target.ends, e.name?.isSome := by
  cases target with
  | var span name => simp [Expr.ends, Expr.name?, Expr.IsTarget.var]
  | tuple span items =>
    rw [Expr.ends, ← Expr.isTarget_all_iff items]
    constructor
    · rintro ⟨⟩
      assumption
    · exact .tuple span items
  | _ =>
    constructor
    · rintro ⟨⟩
    · intro h
      cases h _ mem_cons_self

theorem Expr.isTarget_all_iff (targets : List Expr) :
    (∀ target ∈ targets, target.IsTarget) ↔ ∀ e ∈ Expr.endsAll targets, e.name?.isSome := by
  cases targets with
  | nil => simp [Expr.endsAll]
  | cons target targets =>
    rw [forall_mem_cons, Expr.endsAll, forall_mem_append, Expr.isTarget_iff target,
      Expr.isTarget_all_iff targets]

end

/-- The pattern has the shape of the target, and its places. -/
inductive Mirrors : Expr → Pattern → Prop where
  | var (span : Span) (name : String) (id : VarId) : Mirrors (.var span name) (.var id span)
  | tuple {targets : List Expr} {items : List Pattern} (span : Span)
      (h : List.Forall₂ Mirrors targets items) : Mirrors (.tuple span targets) (.tuple items span)

/-! ## Declaring one name after the other -/

/-- The ends are names that have not been bound, each added to those that have. -/
inductive Fresh : List (String × Span) → List Expr → List (String × Span) → Prop where
  | nil (bound : List (String × Span)) : Fresh bound [] bound
  | cons {bound after : List (String × Span)} {ends : List Expr} {span : Span} {name : String}
      (h : bound.lookup name = none) (rest : Fresh ((name, span) :: bound) ends after) :
      Fresh bound (.var span name :: ends) after

namespace Fresh

variable {bound after : List (String × Span)} {ends ends' : List Expr}

theorem append {last : List (String × Span)} (h : Fresh bound ends after)
    (h' : Fresh after ends' last) : Fresh bound (ends ++ ends') last := by
  induction h with
  | nil => exact h'
  | cons hnew _ ih => exact .cons hnew (ih h')

theorem eq_reverse (h : Fresh bound ends after) : after = (namesOf ends).reverse ++ bound := by
  induction h with
  | nil => rfl
  | cons _ _ ih => simpa [namesOf, Expr.name?] using ih

theorem distinct (h : Fresh bound ends after) :
    Distinct ends ∧ ∀ n ∈ (namesOf ends).map Prod.fst, bound.lookup n = none := by
  induction h with
  | nil => exact ⟨⟨forall_mem_nil _, .nil⟩, forall_mem_nil _⟩
  | @cons bound after ends span name hnew _ ih =>
    obtain ⟨hrest, hunbound⟩ := ih
    -- what is not bound after the name has been added is another name
    have hother : ∀ n ∈ (namesOf ends).map Prod.fst, n ≠ name ∧ bound.lookup n = none := by
      intro n hn
      have hlookup := hunbound n hn
      rw [lookup_cons] at hlookup
      split at hlookup
      · cases hlookup
      · next hne => exact ⟨by simpa using hne, hlookup⟩
    refine ⟨⟨forall_mem_cons.2 ⟨rfl, hrest.named⟩, ?_⟩, ?_⟩
    · exact nodup_cons.2 ⟨fun hmem => (hother name hmem).1 rfl, hrest.nodup⟩
    · exact forall_mem_cons.2 ⟨hnew, fun n hn => (hother n hn).2⟩

end Fresh

namespace Scope

/-- Declares names in the current context, one after the other. -/
def declareEach (s : Scope) (names : List (String × Span)) : Scope :=
  names.foldl (fun s n => s.declare n.1 n.2) s

theorem declare_eq (s : Scope) (name : String) (span : Span) : s.declare name span =
    { s with
      vars := s.vars.push { var := .new (some name) span, owner := s.current.id }
      current := { s.current with
        owned := s.vars.size :: s.current.owned
        names := (name, s.vars.size) :: s.current.names } } := by
  simp [declare, newVar]

theorem declareEach_append (s : Scope) (names names' : List (String × Span)) :
    s.declareEach (names ++ names') = (s.declareEach names).declareEach names' :=
  foldl_append

theorem size_declareEach (s : Scope) (names : List (String × Span)) :
    (s.declareEach names).vars.size = s.vars.size + names.length := by
  induction names generalizing s with
  | nil => rfl
  | cons n names ih =>
    refine (ih (s.declare n.1 n.2)).trans ?_
    rw [declare_eq, Array.size_push, length_cons]
    omega

/-- The name stands for a variable of the current context that has no type yet. -/
structure Introduces (s : Scope) (name : String) (id : VarId) : Prop where
  found : ∀ span, s.lookup name span = .ok id
  untyped : ∃ var, s.vars[id]? = some ⟨var, s.current.id⟩ ∧ var.type = none
  owned : id ∈ s.current.owned

theorem introduces_declare (s : Scope) (name : String) (span : Span) :
    (s.declare name span).Introduces name s.vars.size := by
  rw [declare_eq]
  refine ⟨fun _ => ?_, ⟨.new (some name) span, ?_, rfl⟩, mem_cons_self⟩
  · simp [lookup, contexts]
  · simp

/-- Another name hides no variable but its own. -/
theorem Introduces.declare {s : Scope} {other : String} {id : VarId} (h : s.Introduces name id)
    (hne : name ≠ other) (span : Span) : (s.declare other span).Introduces name id := by
  obtain ⟨var, hvar, htype⟩ := h.untyped
  have hlt := (Array.getElem?_eq_some_iff.1 hvar).1
  have hbeq : (name == other) = false := by simpa using hne
  rw [declare_eq]
  refine ⟨fun at_ => ?_, ⟨var, ?_, htype⟩, mem_cons_of_mem _ h.owned⟩
  · simpa [lookup, contexts, findSome?_cons, lookup_cons, hbeq] using h.found at_
  · exact (Array.getElem?_push.trans (if_neg hlt.ne)).trans hvar

theorem Introduces.declareEach {s : Scope} {id : VarId} (h : s.Introduces name id)
    {names : List (String × Span)} (hnot : name ∉ names.map Prod.fst) :
    (s.declareEach names).Introduces name id := by
  induction names generalizing s with
  | nil => exact h
  | cons n names ih =>
    rw [map_cons, mem_cons, not_or] at hnot
    exact ih (h.declare hnot.1 n.2) hnot.2

theorem introduces_declareEach {names : List (String × Span)} (hnodup : (names.map Prod.fst).Nodup)
    (s : Scope) : Forall₂ (fun n id => (s.declareEach names).Introduces n.1 id) names
      (List.range' s.vars.size names.length) := by
  induction names generalizing s with
  | nil => exact .nil
  | cons n names ih =>
    obtain ⟨hnot, hnodup⟩ := nodup_cons.1 hnodup
    refine .cons ((s.introduces_declare n.1 n.2).declareEach hnot) ?_
    have hrest := ih hnodup (s.declare n.1 n.2)
    rwa [declare_eq, Array.size_push, ← declare_eq] at hrest

theorem current_declareEach (s : Scope) (names : List (String × Span)) :
    (s.declareEach names).current.id = s.current.id := by
  induction names generalizing s with
  | nil => rfl
  | cons n names ih =>
    refine (ih (s.declare n.1 n.2)).trans ?_
    rw [declare_eq]

end Scope

/-! ## Going through a target -/

namespace Lower

/-- The end cannot be declared after the names that have been bound. -/
inductive Offends (bound : List (String × Span)) : Expr → LoweringError → Prop where
  | unnamed {e : Expr} (h : e.name? = none) :
      Offends bound e ⟨.unsupported "assignment target", e.span⟩
  | twice {span previous : Span} {name : String} (h : bound.lookup name = some previous) :
      Offends bound (.var span name) ⟨.duplicateBinding name previous, span⟩

theorem bindName_of_bound {previous : Span} (h : bound.lookup name = some previous) (span : Span)
    (s : Session) :
    bindName name span (.declare bound) s =
      .error (.error ⟨.duplicateBinding name previous, span⟩) s := by
  rw [bindName, Scope.bind, h]

theorem bindName_of_unbound (h : bound.lookup name = none) (span : Span) (s : Session) :
    bindName name span (.declare bound) s =
      .ok (s.scope.vars.size, .declare ((name, span) :: bound))
        { s with scope := s.scope.declare name span } := by
  rw [bindName, Scope.bind, h]
  simp [Scope.declare, Scope.newVar]

mutual

theorem bindPattern_cases (bound : List (String × Span)) (target : Expr) (s : Session) :
    (∃ pattern after, bindPattern (.declare bound) target s = .ok (pattern, .declare after)
          { s with scope := s.scope.declareEach (namesOf target.ends) } ∧
        Fresh bound target.ends after ∧ Mirrors target pattern ∧
        pattern.vars = List.range' s.scope.vars.size (namesOf target.ends).length) ∨
      ∃ before e rest after error s', target.ends = before ++ e :: rest ∧ Fresh bound before after ∧
        Offends after e error ∧
        bindPattern (.declare bound) target s = .error (.error error) s' := by
  cases target with
  | var span name =>
    cases hlookup : bound.lookup name with
    | none =>
      refine .inl ⟨.var s.scope.vars.size span, (name, span) :: bound, ?_, .cons hlookup (.nil _),
        .var span name _, rfl⟩
      exact bind_eq_ok_iff.2 ⟨_, _, bindName_of_unbound hlookup span s, rfl⟩
    | some previous =>
      exact .inr ⟨[], _, [], bound, _, s, rfl, .nil bound, .twice hlookup,
        bind_eq_error_iff.2 (.inl (bindName_of_bound hlookup span s))⟩
  | tuple span targets =>
    rcases bindPatterns_cases bound targets s with
      ⟨items, after, hrun, hfresh, hmirrors, hvars⟩ |
        ⟨before, e, rest, after, error, s', hends, hfresh, hoffends, hrun⟩
    · exact .inl ⟨.tuple items span, after, bind_eq_ok_iff.2 ⟨_, _, hrun, rfl⟩, hfresh,
        .tuple span hmirrors, hvars⟩
    · exact .inr ⟨before, e, rest, after, error, s', hends, hfresh, hoffends,
        bind_eq_error_iff.2 (.inl hrun)⟩
  | _ => exact .inr ⟨[], _, [], bound, _, s, rfl, .nil bound, .unnamed rfl, rfl⟩

theorem bindPatterns_cases (bound : List (String × Span)) (targets : List Expr) (s : Session) :
    (∃ items after, bindPatterns (.declare bound) targets s = .ok (items, .declare after)
          { s with scope := s.scope.declareEach (namesOf (Expr.endsAll targets)) } ∧
        Fresh bound (Expr.endsAll targets) after ∧ Forall₂ Mirrors targets items ∧
        Pattern.varsAll items =
          List.range' s.scope.vars.size (namesOf (Expr.endsAll targets)).length) ∨
      ∃ before e rest after error s', Expr.endsAll targets = before ++ e :: rest ∧
        Fresh bound before after ∧ Offends after e error ∧
        bindPatterns (.declare bound) targets s = .error (.error error) s' := by
  cases targets with
  | nil => exact .inl ⟨[], bound, rfl, .nil bound, .nil, rfl⟩
  | cons target targets =>
    rcases bindPattern_cases bound target s with
      ⟨item, after, hrun, hfresh, hmirrors, hvars⟩ |
        ⟨before, e, rest, after, error, s', hends, hfresh, hoffends, hrun⟩
    · have hnames : namesOf (Expr.endsAll (target :: targets)) =
          namesOf target.ends ++ namesOf (Expr.endsAll targets) := filterMap_append
      rcases bindPatterns_cases after targets
          { s with scope := s.scope.declareEach (namesOf target.ends) } with
        ⟨items, last, hrun', hfresh', hmirrors', hvars'⟩ |
          ⟨before, e, rest, last, error, s', hends, hfresh', hoffends, hrun'⟩
      · refine .inl ⟨item :: items, last, ?_, hfresh.append hfresh', .cons hmirrors hmirrors', ?_⟩
        · rw [hnames, Scope.declareEach_append]
          exact bind_eq_ok_iff.2 ⟨_, _, hrun, bind_eq_ok_iff.2 ⟨_, _, hrun', rfl⟩⟩
        · rw [Pattern.varsAll, hvars, hvars', hnames, length_append, Scope.size_declareEach,
            range'_append_1]
      · refine .inr ⟨target.ends ++ before, e, rest, last, error, s', ?_, hfresh.append hfresh',
          hoffends, bind_eq_error_iff.2 (.inr ⟨_, _, hrun, bind_eq_error_iff.2 (.inl hrun')⟩)⟩
        rw [Expr.endsAll, hends, append_assoc]
    · refine .inr ⟨before, e, rest ++ Expr.endsAll targets, after, error, s', ?_, hfresh, hoffends,
        bind_eq_error_iff.2 (.inl hrun)⟩
      rw [Expr.endsAll, hends, append_assoc, cons_append]

end

/-- An end that does not fit after all names before it is refused. -/
theorem Offends.refused {target : Expr} {before after : List Expr} {e : Expr}
    {error : LoweringError} (h : target.ends = before ++ e :: after)
    (hfresh : Fresh [] before bound) (hoffends : Offends bound e error) : target.Refused error := by
  cases hoffends with
  | unnamed he => exact .unnamed h hfresh.distinct.1 he
  | twice hlookup =>
    refine .twice h hfresh.distinct.1 ?_
    rw [hfresh.eq_reverse, append_nil] at hlookup
    obtain ⟨front, back, hsplit, -⟩ := lookup_eq_some_iff.1 hlookup
    rw [← mem_reverse, hsplit]
    simp

end Lower

open Lower

/-- A target that is refused has a node that is no name, or a name twice. -/
theorem Expr.Refused.not_distinct {target : Expr} {error : LoweringError} (h : target.Refused error) :
    ¬ Distinct target.ends := by
  intro hdistinct
  cases h with
  | unnamed hends _ he =>
    have hsome := hdistinct.named _ (hends ▸ mem_append_right _ mem_cons_self)
    rw [he] at hsome
    cases hsome
  | twice hends _ hfirst =>
    have hnodup := hdistinct.nodup
    rw [hends, namesOf, filterMap_append, map_append] at hnodup
    exact (nodup_append.1 hnodup).2.2 _ (mem_map_of_mem hfirst) _ (by simp [Expr.name?]) rfl

/-- Declaring the names of a target succeeds exactly if its nodes are variables and tuples and its names
differ.  The pattern mirrors the target, and its variables are new, untyped and owned by the current
context; each name now stands for its own.  If it fails, then at the first end that does not fit. -/
theorem bindPattern_declares (target : Expr) (s : Session) :
    (target.IsTarget ∧ ((namesOf target.ends).map Prod.fst).Nodup ∧
        ∃ pattern mode s', bindPattern (.declare []) target s = .ok (pattern, mode) s' ∧
          Mirrors target pattern ∧ pattern.vars.Nodup ∧
          (∀ id ∈ pattern.vars, s.scope.vars.size ≤ id) ∧
          s'.scope.current.id = s.scope.current.id ∧
          List.Forall₂ (fun n id => s'.scope.Introduces n.1 id) (namesOf target.ends) pattern.vars) ∨
      (¬ (target.IsTarget ∧ ((namesOf target.ends).map Prod.fst).Nodup) ∧
        ∃ error s', bindPattern (.declare []) target s = .error (.error error) s' ∧
          target.Refused error) := by
  rcases bindPattern_cases [] target s with
    ⟨pattern, bound, hrun, hfresh, hmirrors, hvars⟩ |
      ⟨before, e, rest, bound, error, s', hends, hfresh, hoffends, hrun⟩
  · obtain ⟨hdistinct, -⟩ := hfresh.distinct
    refine .inl ⟨target.isTarget_iff.2 hdistinct.named, hdistinct.nodup, pattern, _, _, hrun, hmirrors,
      ?_, fun id hid => ?_, Scope.current_declareEach _ _, ?_⟩
    · rw [hvars]
      exact List.nodup_range'
    · rw [hvars] at hid
      exact (List.mem_range'_1.1 hid).1
    · rw [hvars]
      exact Scope.introduces_declareEach hdistinct.nodup s.scope
  · have hrefused := hoffends.refused hends hfresh
    refine .inr ⟨fun hboth => ?_, error, s', hrun, hrefused⟩
    exact hrefused.not_distinct ⟨target.isTarget_iff.1 hboth.1, hboth.2⟩

end SlotCode
