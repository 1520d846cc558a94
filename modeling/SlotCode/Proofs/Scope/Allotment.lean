import SlotCode.Proofs.Lowering.Slots

/-!
# Who gets a slot

Whatever is done with a scope, in whatever order (`Scope.run`), slots and stored variables belong
together one to one, and a variable gets a slot at one moment only: when the context that holds it
closes.  A context holds what was made for it while it was open.  So a variable of the outermost
context, which never closes, and one that was made for a context that was not open then, not even
if that context is opened later, are never stored.

All that acts do to contexts, owners and slots is said once (`Scope.act_cases`).  An invariant of
single acts (`Scope.Allotted`) then gives the statements about runs.
-/

namespace SlotCode

open List

/-- A change of a variable that leaves its slot. -/
def KeepsSlot (f : Var → Var) : Prop :=
  ∀ v, (f v).slot = v.slot

namespace Scope

/-! ## Runs -/

/-- What can be done with a scope.  Variables may be changed in every way that is allowed. -/
inductive Act (Allowed : (Var → Var) → Prop) where
  | push
  | pop
  | bind (name : String) (span : Span) (mode : BindMode)
  | temp (span : Span) (owner : Option ContextId)
  | loop (label : Option String) (span : Span)
  | hiddenLoop (span : Span)
  | edit (id : VarId) (f : Var → Var) (h : Allowed f)
  | register (name : String) (type : TypeId) (span : Span)
  | registerNative (name : String) (type : TypeId)
  | drain

section

variable {Allowed : (Var → Var) → Prop} {acts : List (Act Allowed)} {s : Scope}

def act (s : Scope) : Act Allowed → Scope
  | .push => s.push
  | .pop => s.pop
  | .bind name span mode =>
    match s.bind name span mode with
    | .ok (_, _, bound) => bound
    -- A name that cannot be bound changes nothing.
    | .error _ => s
  | .temp span owner => (s.newTemp span owner).2
  | .loop label span => (s.newLoop label span).2
  | .hiddenLoop span => (s.newHiddenLoop span).2
  | .edit id f _ => s.modifyVar id f
  | .register name type span =>
    match s.register name type span with
    | .ok registered => registered
    -- A function that is declared already stays.
    | .error _ => s
  | .registerNative name type => s.registerNative name type
  | .drain => s.drain

def run (s : Scope) (acts : List (Act Allowed)) : Scope :=
  acts.foldl act s

theorem run_concat (s : Scope) (acts : List (Act Allowed)) (a : Act Allowed) :
    s.run (acts ++ [a]) = (s.run acts).act a := by
  rw [run, run, foldl_append]
  rfl

/-- What every act but draining keeps, a run without draining keeps. -/
theorem run_keeps {P : Scope → Prop} (h : ∀ s, ∀ a : Act Allowed, a ≠ .drain → P s → P (s.act a))
    (hdrain : .drain ∉ acts) (hs : P s) : P (s.run acts) := by
  induction acts generalizing s with
  | nil => exact hs
  | cons a acts ih =>
    obtain ⟨ha, hacts⟩ := not_or.1 (mt mem_cons.2 hdrain)
    exact ih hacts (h s a (Ne.symm ha) hs)

end

variable {k owner : ContextId} {ids : List VarId} {id : VarId} {i : Nat} {s s' : Scope}
  {a : Act KeepsSlot} {acts : List (Act KeepsSlot)}

/-! ## Slots and holdings -/

def slotOf (s : Scope) (id : VarId) : Option Nat :=
  s.vars[id]?.bind fun entry => entry.var.slot

/-- A real variable whose type is known and not void. -/
def Needed (s : Scope) (id : VarId) : Prop :=
  ∃ entry type, s.vars[id]? = some entry ∧ entry.var.isReal ∧ entry.var.type = some type ∧
    type ≠ .void

/-- The open contexts with the variables that they hold, innermost first. -/
def holdings (s : Scope) : List (ContextId × List VarId) :=
  s.contexts.map fun c => (c.id, c.owned)

theorem openIds_eq (s : Scope) : s.openIds = s.holdings.map Prod.fst := by
  rw [openIds, holdings, map_map]
  rfl

theorem mem_openIds (h : (k, ids) ∈ s.holdings) : k ∈ s.openIds := by
  rw [openIds_eq]
  exact mem_map_of_mem h

theorem current_mem_holdings (s : Scope) : (s.current.id, s.current.owned) ∈ s.holdings :=
  mem_cons_self

/-- The entry of a variable that is stored. -/
theorem exists_of_slotOf (h : s.slotOf id = some i) : ∃ k, s.owner id = .ok k := by
  obtain ⟨entry, hentry, -⟩ := Option.bind_eq_some_iff.1 h
  exact ⟨_, owner_of_mem hentry⟩

theorem lt_size_of_owner (h : s.owner id = .ok k) : id < s.vars.size := by
  obtain ⟨entry, hentry, -⟩ := owner_eq_ok_iff.1 h
  exact (Array.getElem?_eq_some_iff.1 hentry).1

theorem needed_iff :
    s.Needed id ↔ ∃ entry type, s.vars[id]? = some entry ∧ entry.var.stored? = some type := by
  have hstored : ∀ (v : Var) (type : TypeId),
      v.stored? = some type ↔ v.isReal ∧ v.type = some type ∧ type ≠ .void := by
    intro v type
    by_cases hreal : v.isReal <;> simp [Var.stored?, hreal, Option.filter_eq_some_iff]
  simp only [hstored]
  rfl

/-! ## Storing what a context holds -/

/-- The list of stored variables and the slots of the table say the same. -/
structure Matched (s : Scope) : Prop where
  numbered : ∀ {i : Nat} {l : Local}, s.locals[i]? = some l → l.slot = i
  slots : ∀ {id : VarId} {i : Nat}, s.slotOf id = some i ↔ ∃ l, s.locals[i]? = some l ∧ l.var = id

/-- Only the slot of a variable that is stored changes, and only if it needs one. -/
theorem Matched.store (h : s.Matched) (hnone : s.slotOf id = none) :
    (s.store id).Matched ∧ (∀ x ≠ id, (s.store id).slotOf x = s.slotOf x) ∧
      (s.Needed id ∧ (s.store id).slotOf id = some s.locals.size ∧
          (s.store id).locals.size = s.locals.size + 1 ∨
        ¬ s.Needed id ∧ s.store id = s) := by
  rw [needed_iff]
  cases hentry : s.vars[id]? with
  | none =>
    have hstore : s.store id = s := by rw [Scope.store, hentry]; rfl
    rw [hstore]
    exact ⟨h, fun _ _ => rfl, .inr ⟨by simp, rfl⟩⟩
  | some entry =>
    rcases store_cases hentry with ⟨hstored, hstore⟩ | ⟨type, hstored, hstore⟩
    · rw [hstore]
      exact ⟨h, fun _ _ => rfl, .inr ⟨by simp [hstored], rfl⟩⟩
    have hself : (s.store id).slotOf id = some s.locals.size := by
      rw [slotOf, hstore, Array.getElem?_modify, if_pos rfl, hentry]
      rfl
    have hother : ∀ x ≠ id, (s.store id).slotOf x = s.slotOf x := fun x hx => by
      rw [slotOf, hstore, Array.getElem?_modify, if_neg hx.symm, slotOf]
    have hlocals : (s.store id).locals = s.locals.push ⟨s.locals.size, id, type⟩ := by rw [hstore]
    refine ⟨⟨fun {i l} hl => ?_, fun {x i} => ?_⟩, hother, .inl ⟨⟨entry, type, rfl, hstored⟩, hself, ?_⟩⟩
    · rw [hlocals, Array.getElem?_push] at hl
      split at hl
      · next hi =>
        cases hl
        exact hi.symm
      · exact h.numbered hl
    · rw [hlocals, Array.getElem?_push]
      by_cases hx : x = id
      · subst hx
        rw [hself]
        split
        · next hi => simp [hi]
        · next hi =>
          -- No older entry of the list is the variable, which had no slot.
          rw [← h.slots, hnone]
          simpa using Ne.symm hi
      · rw [hother x hx, h.slots]
        split
        · next hi => simp [hi, Ne.symm hx]
        · rfl
    · rw [hlocals, Array.size_push]

theorem needed_store (s : Scope) (id x : VarId) : (s.store id).Needed x ↔ s.Needed x := by
  unfold store
  split
  · rfl
  · simp only [Needed, Array.getElem?_modify]
    by_cases heq : id = x
    · cases s.vars[x]? <;> simp [heq, Var.isReal]
    · simp [heq]

/-- Variables that have no slots are stored one after the other. -/
theorem Matched.store_all (h : s.Matched) (hsorted : ids.Pairwise (· < ·))
    (hnone : ∀ id ∈ ids, s.slotOf id = none) :
    (ids.foldl Scope.store s).Matched ∧
      (∀ x ∉ ids, (ids.foldl Scope.store s).slotOf x = s.slotOf x) ∧
      (∀ x ∈ ids, ((ids.foldl Scope.store s).slotOf x).isSome ↔ s.Needed x) ∧
      (∀ x ∈ ids, ∀ i, (ids.foldl Scope.store s).slotOf x = some i → s.locals.size ≤ i) ∧
      ∀ x ∈ ids, ∀ y ∈ ids, ∀ i j, (ids.foldl Scope.store s).slotOf x = some i →
        (ids.foldl Scope.store s).slotOf y = some j → x < y → i < j := by
  induction ids generalizing s with
  | nil => exact ⟨h, fun _ _ => rfl, by simp, by simp, by simp⟩
  | cons id ids ih =>
    obtain ⟨hlt, hsorted⟩ := pairwise_cons.1 hsorted
    have hid : id ∉ ids := fun hmem => Nat.lt_irrefl _ (hlt id hmem)
    obtain ⟨hstore, hother, hself⟩ := h.store (hnone id mem_cons_self)
    obtain ⟨hmatched, hout, hin, hge, horder⟩ := ih hstore hsorted fun x hx => by
      rw [hother x (ne_of_mem_of_not_mem hx hid)]
      exact hnone x (mem_cons_of_mem _ hx)
    have hsize : s.locals.size ≤ (s.store id).locals.size := by
      rcases hself with ⟨-, -, hsize⟩ | ⟨-, hsame⟩
      · exact hsize ▸ Nat.le_succ _
      · rw [hsame]
    -- The first one takes the first free slot, or none.
    have hfirst : (List.foldl Scope.store s (id :: ids)).slotOf id = (s.store id).slotOf id := hout id hid
    refine ⟨hmatched, fun x hx => ?_, fun x hx => ?_, fun x hx i hi => ?_, fun x hx y hy i j hi hj hxy => ?_⟩
    · obtain ⟨hne, hx⟩ := not_or.1 (mt mem_cons.2 hx)
      exact (hout x hx).trans (hother x hne)
    · rcases mem_cons.1 hx with rfl | hx
      · rw [hfirst]
        rcases hself with ⟨hneeded, hslot, -⟩ | ⟨hneeded, hsame⟩
        · simp [hneeded, hslot]
        · simp [hneeded, hsame, hnone]
      · exact (hin x hx).trans (needed_store s id x)
    · rcases mem_cons.1 hx with rfl | hx
      · rw [hfirst] at hi
        rcases hself with ⟨-, hslot, -⟩ | ⟨-, hsame⟩
        · cases hslot.symm.trans hi
          exact Nat.le_refl _
        · rw [hsame, hnone x mem_cons_self] at hi
          cases hi
      · exact hsize.trans (hge x hx i hi)
    · have hlater : y ∈ ids := by
        rcases mem_cons.1 hy with rfl | hy
        · rcases mem_cons.1 hx with rfl | hx
          · exact absurd hxy (Nat.lt_irrefl _)
          · exact absurd hxy (Nat.lt_asymm (hlt x hx))
        · exact hy
      rcases mem_cons.1 hx with rfl | hx
      · rw [hfirst] at hi
        rcases hself with ⟨-, hslot, hsize⟩ | ⟨-, hsame⟩
        · cases hslot.symm.trans hi
          have hle := hge y hlater j hj
          rwa [hsize] at hle
        · rw [hsame, hnone x mem_cons_self] at hi
          cases hi
      · exact horder x hx y hlater i j hi hj hxy

/-! ## What an act does -/

/-- Contexts, owners and slots stay as they are. -/
structure Rests (s s' : Scope) : Prop where
  holdings : s'.holdings = s.holdings
  owner : ∀ id, s'.owner id = s.owner id
  slotOf : ∀ id, s'.slotOf id = s.slotOf id
  locals : s'.locals = s.locals
  nextContext : s'.nextContext = s.nextContext
  nextLoop : s.nextLoop ≤ s'.nextLoop

theorem Rests.refl (s : Scope) : Rests s s :=
  ⟨rfl, fun _ => rfl, fun _ => rfl, rfl, rfl, Nat.le_refl _⟩

def hold (owner : ContextId) (id : VarId) (c : ContextId × List VarId) : ContextId × List VarId :=
  if c.1 = owner then (c.1, id :: c.2) else c

/-- There is a new variable, held by its owner if that is open. -/
structure Makes (owner : ContextId) (s s' : Scope) : Prop where
  holdings : s'.holdings = s.holdings.map (hold owner s.vars.size)
  owner : ∀ {id k}, s'.owner id = .ok k ↔ s.owner id = .ok k ∨ id = s.vars.size ∧ k = owner
  slotOf : ∀ id, s'.slotOf id = s.slotOf id
  locals : s'.locals = s.locals
  nextContext : s'.nextContext = s.nextContext
  nextLoop : s.nextLoop ≤ s'.nextLoop

/-- The current context closes. -/
structure Closes (s s' : Scope) : Prop where
  outer : s.outer ≠ []
  holdings : s.holdings = (s.current.id, s.current.owned) :: s'.holdings
  owner : ∀ id, s'.owner id = s.owner id
  stores : s'.vars = (s.current.owned.reverse.foldl store s).vars ∧
    s'.locals = (s.current.owned.reverse.foldl store s).locals
  nextContext : s'.nextContext = s.nextContext
  nextLoop : s'.nextLoop = s.nextLoop

inductive Change (s : Scope) : Act KeepsSlot → Scope → Prop where
  | push : Change s .push s.push
  | pop (h : Closes s s.pop) : Change s .pop s.pop
  | drain : Change s .drain s.drain
  | make {a : Act KeepsSlot} {s' : Scope} (owner : ContextId) (h : Makes owner s s') : Change s a s'
  | rest {a : Act KeepsSlot} {s' : Scope} (h : Rests s s') : Change s a s'

theorem slotOf_modifyVar (s : Scope) (id x : VarId) {f : Var → Var} (hf : KeepsSlot f) :
    (s.modifyVar id f).slotOf x = s.slotOf x := by
  rw [slotOf, slotOf, modifyVar, Array.getElem?_modify]
  split
  · cases s.vars[x]? with
    | none => rfl
    | some entry => exact hf entry.var
  · rfl

theorem modifyVar_rests (s : Scope) (id : VarId) {f : Var → Var} (hf : KeepsSlot f) :
    Rests s (s.modifyVar id f) where
  holdings := rfl
  owner := fun x => by
    rw [owner, owner, entry, entry, modifyVar, Array.getElem?_modify]
    by_cases heq : id = x
    · rw [if_pos heq]
      cases s.vars[x]? <;> rfl
    · rw [if_neg heq]
  slotOf := fun x => slotOf_modifyVar s id x hf
  locals := rfl
  nextContext := rfl
  nextLoop := Nat.le_refl _

theorem nextLoop_newVar (s : Scope) (name : Option String) (span : Span) (owner : ContextId) :
    (s.newVar name span owner).2.nextLoop = s.nextLoop := by
  unfold newVar
  split <;> rfl

theorem newVar_makes (h : s.openIds.Nodup) (name : Option String) (span : Span) (owner : ContextId) :
    Makes owner s (s.newVar name span owner).2 where
  holdings := by
    rw [holdings, contexts_newVar, addOwned_eq_map h, map_map, holdings, map_map]
    refine map_congr_left fun c _ => ?_
    rw [Function.comp_apply, Function.comp_apply, Context.own, hold]
    split <;> rfl
  owner := fun {id k} => by
    constructor
    · intro hk
      obtain ⟨entry, hentry, rfl⟩ := owner_eq_ok_iff.1 hk
      rcases entry_newVar hentry with hentry | ⟨hid, rfl⟩
      · exact .inl (owner_of_mem hentry)
      · exact .inr ⟨hid, rfl⟩
    · rintro (hk | ⟨rfl, rfl⟩)
      · exact owner_newVar hk name span owner
      · exact owner_newVar_self s name span _
  slotOf := fun id => by
    rw [slotOf, slotOf, vars_newVar, Array.getElem?_push]
    split
    · next hid => simp [hid, Var.new]
    · rfl
  locals := locals_newVar s name span owner
  nextContext := nextContext_newVar s name span owner
  nextLoop := (nextLoop_newVar s name span owner).ge

theorem bind_cases (h : s.openIds.Nodup) (name : String) (span : Span) (mode : BindMode) :
    Change s (.bind name span mode) (s.act (.bind name span mode : Act KeepsSlot)) := by
  cases hbind : s.bind name span mode with
  | error e =>
    rw [act, hbind]
    exact .rest (.refl s)
  | ok r =>
    obtain ⟨id, mode', bound⟩ := r
    rw [act, hbind]
    cases mode with
    | resolve =>
      cases hid : s.lookup name span <;> simp [bind, hid, Except.map] at hbind
      obtain ⟨-, -, rfl⟩ := hbind
      exact .rest (.refl s)
    | declare names =>
      have hmakes := newVar_makes h (some name) span s.current.id
      rw [bind] at hbind
      split at hbind
      · cases hbind
      · generalize s.newVar (some name) span s.current.id = new at hmakes hbind
        cases hbind
        exact .make s.current.id ⟨hmakes.holdings, hmakes.owner, hmakes.slotOf, hmakes.locals,
          hmakes.nextContext, hmakes.nextLoop⟩

theorem newHiddenLoop_makes (h : s.openIds.Nodup) (span : Span) :
    Makes s.current.id s (s.newHiddenLoop span).2 := by
  have hmakes := newVar_makes h none span s.current.id
  unfold newHiddenLoop
  generalize s.newVar none span s.current.id = new at hmakes ⊢
  exact ⟨hmakes.holdings, hmakes.owner, hmakes.slotOf, hmakes.locals, hmakes.nextContext,
    Nat.le_succ_of_le hmakes.nextLoop⟩

theorem newLoop_makes (h : s.openIds.Nodup) (label : Option String) (span : Span) :
    Makes s.current.id s (s.newLoop label span).2 := by
  have hmakes := newHiddenLoop_makes h span
  unfold newLoop
  generalize s.newHiddenLoop span = new at hmakes ⊢
  exact ⟨hmakes.holdings, hmakes.owner, hmakes.slotOf, hmakes.locals, hmakes.nextContext,
    hmakes.nextLoop⟩

theorem nextLoop_store_all (s : Scope) (ids : List VarId) :
    (ids.foldl store s).nextLoop = s.nextLoop := by
  refine store_all_keeps nextLoop (fun s id => ?_) s ids
  unfold store
  split <;> rfl

theorem pop_cases (s : Scope) : s.outer = [] ∧ s.pop = s ∨ Closes s s.pop := by
  cases houter : s.outer with
  | nil => exact .inl ⟨rfl, by rw [pop, houter]⟩
  | cons parent outer =>
    have hpop : s.pop = { s.current.owned.reverse.foldl store s with
        current := parent, outer := outer } := by
      rw [pop, houter]
    rw [hpop]
    refine .inr ⟨houter ▸ cons_ne_nil _ _, ?_, owner_store_all s _, ⟨rfl, rfl⟩,
      nextContext_store_all s _, nextLoop_store_all s _⟩
    rw [holdings, contexts, houter]
    rfl

/-- All that an act does to contexts, owners and slots. -/
theorem act_cases (h : s.openIds.Nodup) (a : Act KeepsSlot) : Change s a (s.act a) := by
  cases a with
  | push => exact .push
  | pop =>
    rcases pop_cases s with ⟨-, hpop⟩ | hcloses
    · rw [act, hpop]
      exact .rest (.refl s)
    · exact .pop hcloses
  | bind name span mode => exact bind_cases h name span mode
  | temp span owner => exact .make _ (newVar_makes h none span _)
  | loop label span => exact .make _ (newLoop_makes h label span)
  | hiddenLoop span => exact .make _ (newHiddenLoop_makes h span)
  | edit id f hf => exact .rest (modifyVar_rests s id hf)
  | register name type span =>
    rw [act, register]
    cases s.functions.lookup name with
    | none => exact .rest ⟨rfl, fun _ => rfl, fun _ => rfl, rfl, rfl, Nat.le_refl _⟩
    | some _ => exact .rest (.refl s)
  | registerNative name type =>
    exact .rest ⟨rfl, fun _ => rfl, fun _ => rfl, rfl, rfl, Nat.le_refl _⟩
  | drain => exact .drain

/-! ## What every act keeps -/

theorem Matched.congr (h : s.Matched) (hslots : ∀ id, s'.slotOf id = s.slotOf id)
    (hlocals : s'.locals = s.locals) : s'.Matched := by
  refine ⟨fun hl => h.numbered (hlocals ▸ hl), fun {id i} => ?_⟩
  rw [hslots, hlocals]
  exact h.slots

theorem Makes.openIds (h : Makes owner s s') : s'.openIds = s.openIds := by
  rw [openIds_eq, openIds_eq, h.holdings, map_map]
  refine map_congr_left fun c _ => ?_
  rw [Function.comp_apply, hold]
  split <;> rfl

/-- What the contexts hold after there is a new variable. -/
theorem Makes.mem_holdings (h : Makes owner s s') (hmem : (k, ids) ∈ s'.holdings) :
    ∃ old, (k, old) ∈ s.holdings ∧
      (k ≠ owner ∧ ids = old ∨ k = owner ∧ ids = s.vars.size :: old) := by
  rw [h.holdings] at hmem
  obtain ⟨⟨j, old⟩, hc, heq⟩ := mem_map.1 hmem
  unfold hold at heq
  split at heq
  · next hj =>
    cases heq
    exact ⟨old, hc, .inr ⟨hj, rfl⟩⟩
  · next hj =>
    cases heq
    exact ⟨_, hc, .inl ⟨hj, rfl⟩⟩

theorem Closes.openIds (h : Closes s s') : s.openIds = s.current.id :: s'.openIds := by
  rw [openIds_eq, h.holdings, openIds_eq]
  rfl

/-- Contexts, owners and slots are in order. -/
structure Allotted (s : Scope) : Prop extends s.Matched where
  nodup : s.openIds.Nodup
  below : ∀ k ∈ s.openIds, k < s.nextContext
  root : s.openIds.getLast? = some initial.current.id
  held : ∀ {k : ContextId} {ids : List VarId} {id : VarId}, (k, ids) ∈ s.holdings → id ∈ ids →
    s.owner id = .ok k
  sorted : ∀ {k : ContextId} {ids : List VarId}, (k, ids) ∈ s.holdings → ids.Pairwise (· > ·)
  /-- What has a slot belongs to a context that has been closed. -/
  closed : ∀ {id : VarId} {i : Nat} {k : ContextId}, s.slotOf id = some i → s.owner id = .ok k →
    k < s.nextContext ∧ k ∉ s.openIds
  ordered : ∀ {x y : VarId} {i j : Nat} {k : ContextId}, s.slotOf x = some i → s.slotOf y = some j →
    s.owner x = .ok k → s.owner y = .ok k → x < y → i < j

namespace Allotted

section

variable (h : s.Allotted)

include h

theorem slotOf_held (hmem : (k, ids) ∈ s.holdings) (hid : id ∈ ids) : s.slotOf id = none := by
  cases hslot : s.slotOf id with
  | none => rfl
  | some i => exact absurd (mem_openIds hmem) (h.closed hslot (h.held hmem hid)).2

theorem rests (hr : Rests s s') : s'.Allotted := by
  have hids : s'.openIds = s.openIds := by rw [openIds_eq, openIds_eq, hr.holdings]
  refine { h.toMatched.congr hr.slotOf hr.locals with
    nodup := hids ▸ h.nodup, below := ?_, root := hids ▸ h.root, held := ?_, sorted := ?_, closed := ?_,
    ordered := ?_ }
  · rw [hids, hr.nextContext]
    exact h.below
  · rw [hr.holdings]
    exact fun hmem hid => (hr.owner _).trans (h.held hmem hid)
  · rw [hr.holdings]
    exact h.sorted
  · intro id i k hslot howner
    rw [hids, hr.nextContext]
    exact h.closed ((hr.slotOf id).symm.trans hslot) ((hr.owner id).symm.trans howner)
  · intro x y i j k hx hy hkx hky hlt
    rw [hr.slotOf] at hx hy
    rw [hr.owner] at hkx hky
    exact h.ordered hx hy hkx hky hlt

theorem makes (hm : Makes owner s s') : s'.Allotted := by
  -- The new variable has no slot, so whatever has one was there before.
  have howner : ∀ {id i k}, s.slotOf id = some i → s'.owner id = .ok k → s.owner id = .ok k := by
    intro id i k hslot hk
    obtain ⟨_, hold⟩ := exists_of_slotOf hslot
    exact (hm.owner.1 hk).resolve_right fun hnew => (lt_size_of_owner hold).ne hnew.1
  refine { h.toMatched.congr hm.slotOf hm.locals with
    nodup := hm.openIds ▸ h.nodup, below := ?_, root := hm.openIds ▸ h.root, held := ?_, sorted := ?_,
    closed := ?_, ordered := ?_ }
  · rw [hm.openIds, hm.nextContext]
    exact h.below
  · intro k ids id hmem hid
    rw [hm.owner]
    obtain ⟨old, hold, ⟨-, rfl⟩ | ⟨rfl, rfl⟩⟩ := hm.mem_holdings hmem
    · exact .inl (h.held hold hid)
    · rcases mem_cons.1 hid with rfl | hid
      · exact .inr ⟨rfl, rfl⟩
      · exact .inl (h.held hold hid)
  · intro k ids hmem
    obtain ⟨old, hold, ⟨-, rfl⟩ | ⟨rfl, rfl⟩⟩ := hm.mem_holdings hmem
    · exact h.sorted hold
    · exact pairwise_cons.2 ⟨fun x hx => lt_size_of_owner (h.held hold hx), h.sorted hold⟩
  · intro id i k hslot hk
    rw [hm.slotOf] at hslot
    rw [hm.openIds, hm.nextContext]
    exact h.closed hslot (howner hslot hk)
  · intro x y i j k hx hy hkx hky hlt
    rw [hm.slotOf] at hx hy
    exact h.ordered hx hy (howner hx hkx) (howner hy hky) hlt

theorem push : s.push.Allotted := by
  have hids : s.push.openIds = s.nextContext :: s.openIds := rfl
  have hholdings : s.push.holdings = (s.nextContext, []) :: s.holdings := rfl
  refine { h.toMatched.congr (fun _ => rfl) rfl with
    nodup := ?_, below := ?_, root := ?_, held := ?_, sorted := ?_, closed := ?_, ordered := h.ordered }
  · exact nodup_cons.2 ⟨fun hmem => Nat.lt_irrefl _ (h.below _ hmem), h.nodup⟩
  · rw [hids, forall_mem_cons]
    exact ⟨Nat.lt_succ_self _, fun k hk => Nat.lt_succ_of_lt (h.below k hk)⟩
  · exact (getLast?_cons_of_ne_nil (cons_ne_nil _ _)).trans h.root
  · intro k ids id hmem hid
    rw [hholdings] at hmem
    rcases mem_cons.1 hmem with heq | hmem
    · cases heq
      cases hid
    · exact h.held hmem hid
  · intro k ids hmem
    rw [hholdings] at hmem
    rcases mem_cons.1 hmem with heq | hmem
    · cases heq
      exact .nil
    · exact h.sorted hmem
  · intro id i k hslot hk
    obtain ⟨hlt, hclosed⟩ := h.closed hslot hk
    refine ⟨Nat.lt_succ_of_lt hlt, ?_⟩
    rw [hids, mem_cons, not_or]
    exact ⟨hlt.ne, hclosed⟩

theorem drain : s.drain.Allotted := by
  have hids : s.drain.openIds = s.openIds := by
    simp [openIds, contexts, Scope.drain, Context.new]
  have hslots : ∀ id, s.drain.slotOf id = none := fun _ => rfl
  have hheld : ∀ {k ids}, (k, ids) ∈ s.drain.holdings → ids = [] := by
    intro k ids hmem
    simp only [holdings, contexts, Scope.drain, map_cons, map_map, mem_cons, mem_map] at hmem
    rcases hmem with heq | ⟨c, -, heq⟩
    · cases heq
      rfl
    · cases heq
      rfl
  exact {
    numbered := fun hl => by simp [Scope.drain] at hl
    slots := fun {id i} => by
      rw [hslots]
      simp [Scope.drain]
    nodup := hids ▸ h.nodup
    below := hids ▸ h.below
    root := hids ▸ h.root
    held := fun hmem hid => by
      rw [hheld hmem] at hid
      cases hid
    sorted := fun hmem => by
      rw [hheld hmem]
      exact .nil
    closed := fun hslot => by
      rw [hslots] at hslot
      cases hslot
    ordered := fun hslot => by
      rw [hslots] at hslot
      cases hslot }

/-- When the current context closes, what it holds is stored, and nothing else. -/
theorem stores (hc : Closes s s') :
    s'.Matched ∧ (∀ x ∉ s.current.owned, s'.slotOf x = s.slotOf x) ∧
      (∀ x ∈ s.current.owned, (s'.slotOf x).isSome ↔ s.Needed x) ∧
      ∀ x ∈ s.current.owned, ∀ y ∈ s.current.owned, ∀ i j, s'.slotOf x = some i →
        s'.slotOf y = some j → x < y → i < j := by
  have hsorted : s.current.owned.reverse.Pairwise (· < ·) :=
    pairwise_reverse.2 (h.sorted s.current_mem_holdings)
  obtain ⟨hmatched, hout, hin, -, horder⟩ := h.toMatched.store_all hsorted fun x hx =>
    h.slotOf_held s.current_mem_holdings (mem_reverse.1 hx)
  have hslots : ∀ x, s'.slotOf x = (s.current.owned.reverse.foldl Scope.store s).slotOf x := fun x => by
    rw [slotOf, hc.stores.1, slotOf]
  simp only [mem_reverse, ← hslots] at hout hin horder
  exact ⟨hmatched.congr hslots hc.stores.2, hout, hin, horder⟩

theorem closes (hc : Closes s s') : s'.Allotted := by
  obtain ⟨hmatched, hout, -, horder⟩ := h.stores hc
  have hids := hc.openIds
  obtain ⟨hcurrent, hnodup⟩ := nodup_cons.1 (hids ▸ h.nodup)
  have hmem : ∀ {c}, c ∈ s'.holdings → c ∈ s.holdings := fun hmem => by
    rw [hc.holdings]
    exact mem_cons_of_mem _ hmem
  have hopen : s.current.id ∈ s.openIds := hids ▸ mem_cons_self
  -- Whatever has a slot had it before, or was held by the context that closes.
  have hcases : ∀ {id i}, s'.slotOf id = some i →
      id ∈ s.current.owned ∧ s.owner id = .ok s.current.id ∨ s.slotOf id = some i := by
    intro id i hslot
    by_cases hid : id ∈ s.current.owned
    · exact .inl ⟨hid, h.held s.current_mem_holdings hid⟩
    · exact .inr (hout id hid ▸ hslot)
  refine { hmatched with
    nodup := hnodup, below := ?_, root := ?_, held := fun hd hid => ?_
    sorted := fun hd => h.sorted (hmem hd), closed := ?_, ordered := ?_ }
  · rw [hc.nextContext]
    exact fun k hk => h.below k (hids ▸ mem_cons_of_mem _ hk)
  · have hne : s'.openIds ≠ [] := by
      rw [← (List.cons.inj hids).2]
      exact fun heq => hc.outer (map_eq_nil_iff.1 heq)
    rw [← getLast?_cons_of_ne_nil hne, ← hids]
    exact h.root
  · exact (hc.owner _).trans (h.held (hmem hd) hid)
  · intro id i k hslot hk
    rw [hc.owner] at hk
    rw [hc.nextContext]
    rcases hcases hslot with ⟨-, howner⟩ | hold
    · cases howner.symm.trans hk
      exact ⟨h.below _ hopen, hcurrent⟩
    · obtain ⟨hlt, hclosed⟩ := h.closed hold hk
      exact ⟨hlt, fun hmem => hclosed (hids ▸ mem_cons_of_mem _ hmem)⟩
  · intro x y i j k hx hy hkx hky hlt
    rw [hc.owner] at hkx hky
    rcases hcases hx with ⟨hxin, howner⟩ | hxold
    · cases howner.symm.trans hkx
      rcases hcases hy with ⟨hyin, -⟩ | hyold
      · exact horder x hxin y hyin i j hx hy hlt
      · exact absurd hopen (h.closed hyold hky).2
    · rcases hcases hy with ⟨-, howner⟩ | hyold
      · cases howner.symm.trans hky
        exact absurd hopen (h.closed hxold hkx).2
      · exact h.ordered hxold hyold hkx hky hlt

theorem act (a : Act KeepsSlot) : (s.act a).Allotted := by
  cases act_cases h.nodup a with
  | push => exact h.push
  | pop hc => exact h.closes hc
  | drain => exact h.drain
  | make owner hm => exact h.makes hm
  | rest hr => exact h.rests hr

end

end Allotted

theorem initial_allotted : initial.Allotted where
  numbered := fun hl => by simp [initial] at hl
  slots := fun {id i} => by simp [slotOf, initial]
  nodup := nodup_singleton _
  below := fun k hk => by
    cases mem_singleton.1 hk
    exact Nat.one_pos
  root := rfl
  held := fun hmem hid => by
    cases mem_singleton.1 hmem
    cases hid
  sorted := fun hmem => by
    cases mem_singleton.1 hmem
    exact .nil
  closed := fun hslot => by simp [slotOf, initial] at hslot
  ordered := fun hslot => by simp [slotOf, initial] at hslot

theorem Allotted.run (h : s.Allotted) (acts : List (Act KeepsSlot)) : (s.run acts).Allotted := by
  induction acts generalizing s with
  | nil => exact h
  | cons a acts ih => exact ih (h.act a)

/-! ## When slots are given -/

namespace Allotted

/-- An act stores variables only if it closes the context that owns them. -/
theorem slotOf_act_cases (h : s.Allotted) (hslot : (s.act a).slotOf id = some i)
    (hnone : s.slotOf id = none) :
    a = .pop ∧ s.outer ≠ [] ∧ s.owner id = .ok s.current.id ∧ s.Needed id := by
  have hsame : (s.act a).slotOf id ≠ s.slotOf id := fun heq => by
    rw [heq, hnone] at hslot
    cases hslot
  cases act_cases h.nodup a with
  | push => exact absurd rfl hsame
  | drain => exact absurd hnone.symm hsame
  | make owner hm => exact absurd (hm.slotOf id) hsame
  | rest hr => exact absurd (hr.slotOf id) hsame
  | pop hc =>
    obtain ⟨-, hout, hin, -⟩ := h.stores hc
    by_cases hid : id ∈ s.current.owned
    · exact ⟨rfl, hc.outer, h.held s.current_mem_holdings hid,
        (hin id hid).1 (Option.isSome_of_eq_some hslot)⟩
    · exact absurd (hout id hid) hsame

theorem slotOf_act (h : s.Allotted) (ha : a ≠ .drain) (hslot : s.slotOf id = some i) :
    (s.act a).slotOf id = some i := by
  cases act_cases h.nodup a with
  | push => exact hslot
  | drain => exact absurd rfl ha
  | make owner hm => exact (hm.slotOf id).trans hslot
  | rest hr => exact (hr.slotOf id).trans hslot
  | pop hc =>
    obtain ⟨-, hout, -⟩ := h.stores hc
    have hid : id ∉ s.current.owned := fun hid => by
      rw [h.slotOf_held s.current_mem_holdings hid] at hslot
      cases hslot
    exact (hout id hid).trans hslot

theorem slotOf_run (h : s.Allotted) (hdrain : .drain ∉ acts) (hslot : s.slotOf id = some i) :
    (s.run acts).slotOf id = some i := by
  have hkeeps : ∀ (t : Scope) (a : Act KeepsSlot), a ≠ .drain → t.Allotted ∧ t.slotOf id = some i →
      (t.act a).Allotted ∧ (t.act a).slotOf id = some i :=
    fun t a ha ht => ⟨ht.1.act a, ht.1.slotOf_act ha ht.2⟩
  exact (run_keeps hkeeps hdrain ⟨h, hslot⟩).2

/-- Only the last context is the outermost one. -/
theorem current_ne_root (h : s.Allotted) (houter : s.outer ≠ []) :
    s.current.id ≠ initial.current.id := by
  have hne : s.outer.map Context.id ≠ [] := fun heq => houter (map_eq_nil_iff.1 heq)
  have hlast : (s.outer.map Context.id).getLast? = some initial.current.id :=
    (getLast?_cons_of_ne_nil hne).symm.trans h.root
  exact ne_of_mem_of_not_mem (mem_of_getLast? hlast) (nodup_cons.1 h.nodup).1 |>.symm

/-- How a variable comes about. -/
theorem makes_of_owner (h : s.Allotted) (hnew : s.vars[id]? = none)
    (howner : (s.act a).owner id = .ok k) : id = s.vars.size ∧ Makes k s (s.act a) := by
  have hnone : ∀ k, s.owner id ≠ .ok k := fun k hk => by
    obtain ⟨entry, hentry, -⟩ := owner_eq_ok_iff.1 hk
    rw [hnew] at hentry
    cases hentry
  cases act_cases h.nodup a with
  | push => exact absurd howner (hnone k)
  | drain => exact absurd (lt_size_of_owner howner) (Nat.not_lt_zero id)
  | pop hc => exact absurd ((hc.owner id).symm.trans howner) (hnone k)
  | rest hr => exact absurd ((hr.owner id).symm.trans howner) (hnone k)
  | make owner hm =>
    obtain ⟨hid, rfl⟩ := (hm.owner.1 howner).resolve_left (hnone k)
    exact ⟨hid, hm⟩

end Allotted

/-! ## Variables that are never stored -/

/-- The variable has no slot, and no context that can close holds it. -/
structure Adrift (id : VarId) (s : Scope) : Prop extends s.Allotted where
  known : ∃ k, s.owner id = .ok k
  slotless : s.slotOf id = none
  rooted : ∀ {k : ContextId} {ids : List VarId}, (k, ids) ∈ s.holdings → id ∈ ids →
    k = initial.current.id

theorem Adrift.act (h : Adrift id s) (ha : a ≠ .drain) : Adrift id (s.act a) := by
  have hallotted := h.toAllotted.act a
  obtain ⟨k, hk⟩ := h.known
  cases act_cases h.nodup a with
  | drain => exact absurd rfl ha
  | push =>
    refine ⟨hallotted, h.known, h.slotless, fun hmem hid => ?_⟩
    rcases mem_cons.1 hmem with heq | hmem
    · cases heq
      cases hid
    · exact h.rooted hmem hid
  | rest hr =>
    refine ⟨hallotted, ⟨k, (hr.owner id).trans hk⟩, (hr.slotOf id).trans h.slotless, ?_⟩
    rw [hr.holdings]
    exact h.rooted
  | make owner hm =>
    refine ⟨hallotted, ⟨k, hm.owner.2 (.inl hk)⟩, (hm.slotOf id).trans h.slotless, fun hmem hid => ?_⟩
    obtain ⟨old, hold, ⟨-, rfl⟩ | ⟨-, rfl⟩⟩ := hm.mem_holdings hmem
    · exact h.rooted hold hid
    · exact h.rooted hold ((mem_cons.1 hid).resolve_left (lt_size_of_owner hk).ne)
  | pop hc =>
    obtain ⟨-, hout, -⟩ := h.stores hc
    have hid : id ∉ s.current.owned := fun hid =>
      h.current_ne_root hc.outer (h.rooted s.current_mem_holdings hid)
    refine ⟨hallotted, ⟨k, (hc.owner id).trans hk⟩, (hout id hid).trans h.slotless, fun hmem hid => ?_⟩
    refine h.rooted ?_ hid
    rw [hc.holdings]
    exact mem_cons_of_mem _ hmem

/-- A new variable is adrift if its owner is the outermost context or none of those that are open. -/
theorem Makes.adrift (hm : Makes k s s') (h : s.Allotted)
    (hk : k = initial.current.id ∨ k ∉ s.openIds) : Adrift s.vars.size s' := by
  refine ⟨h.makes hm, ⟨k, hm.owner.2 (.inr ⟨rfl, rfl⟩)⟩, ?_, fun {j ids} hmem hid => ?_⟩
  · exact (hm.slotOf _).trans (by simp [Scope.slotOf])
  · obtain ⟨old, hold, ⟨-, rfl⟩ | ⟨rfl, rfl⟩⟩ := hm.mem_holdings hmem
    · exact absurd (lt_size_of_owner (h.held hold hid)) (Nat.lt_irrefl _)
    · exact hk.resolve_right fun hclosed => hclosed (mem_openIds hold)

/-! ## Variables that wait for their slots -/

/-- The context `k` holds the variable, or it has been closed. -/
def Awaited (k : ContextId) (id : VarId) (s : Scope) : Prop :=
  (∃ ids, (k, ids) ∈ s.holdings ∧ id ∈ ids) ∨ k < s.nextContext ∧ k ∉ s.openIds

theorem Awaited.act (hs : s.Allotted) (h : Awaited k id s) (ha : a ≠ .drain) :
    Awaited k id (s.act a) := by
  cases act_cases hs.nodup a with
  | drain => exact absurd rfl ha
  | push =>
    rcases h with ⟨ids, hmem, hid⟩ | ⟨hlt, hclosed⟩
    · exact .inl ⟨ids, mem_cons_of_mem _ hmem, hid⟩
    · refine .inr ⟨Nat.lt_succ_of_lt hlt, fun hmem => ?_⟩
      exact (mem_cons.1 hmem).elim hlt.ne hclosed
  | rest hr =>
    rw [Awaited, openIds_eq, hr.holdings, hr.nextContext, ← openIds_eq]
    exact h
  | make owner hm =>
    rw [Awaited, hm.openIds, hm.nextContext]
    refine h.imp_left fun hheld => ?_
    obtain ⟨ids, hmem, hid⟩ := hheld
    have hmem' := mem_map_of_mem (f := hold owner s.vars.size) hmem
    rw [← hm.holdings, hold] at hmem'
    split at hmem'
    · exact ⟨_, hmem', mem_cons_of_mem _ hid⟩
    · exact ⟨_, hmem', hid⟩
  | pop hc =>
    have hids := hc.openIds
    rw [Awaited, Scope.act, hc.nextContext]
    rcases h with ⟨ids, hmem, hid⟩ | ⟨hlt, hclosed⟩
    · rw [hc.holdings] at hmem
      rcases mem_cons.1 hmem with heq | hmem
      · cases heq
        exact .inr ⟨hs.below _ (hids ▸ mem_cons_self), (nodup_cons.1 (hids ▸ hs.nodup)).1⟩
      · exact .inl ⟨ids, hmem, hid⟩
    · exact .inr ⟨hlt, fun hmem => hclosed (hids ▸ mem_cons_of_mem _ hmem)⟩

theorem Makes.awaited (hm : Makes k s s') (hopen : k ∈ s.openIds) : Awaited k s.vars.size s' := by
  rw [openIds_eq] at hopen
  obtain ⟨⟨j, ids⟩, hmem, rfl⟩ := mem_map.1 hopen
  refine .inl ⟨s.vars.size :: ids, ?_, mem_cons_self⟩
  rw [hm.holdings]
  exact mem_map.2 ⟨_, hmem, if_pos rfl⟩

/-- What the current context is expected to store, it holds. -/
theorem Awaited.mem_owned (hs : s.Allotted) (h : Awaited s.current.id id s) :
    id ∈ s.current.owned := by
  rcases h with ⟨ids, hmem, hid⟩ | ⟨-, hclosed⟩
  · rcases mem_cons.1 hmem with heq | hmem
    · cases heq
      exact hid
    · obtain ⟨c, hc, heq⟩ := mem_map.1 hmem
      exact absurd (mem_map.2 ⟨c, hc, congrArg Prod.fst heq⟩) (nodup_cons.1 hs.nodup).1
  · exact absurd mem_cons_self hclosed

/-! ## Counters -/

theorem counters_act (h : s.openIds.Nodup) (a : Act KeepsSlot) :
    s.nextContext ≤ (s.act a).nextContext ∧ s.nextLoop ≤ (s.act a).nextLoop := by
  cases act_cases h a with
  | push => exact ⟨Nat.le_succ _, Nat.le_refl _⟩
  | drain => exact ⟨Nat.le_refl _, Nat.le_refl _⟩
  | make owner hm => exact ⟨hm.nextContext.ge, hm.nextLoop⟩
  | rest hr => exact ⟨hr.nextContext.ge, hr.nextLoop⟩
  | pop hc => exact ⟨hc.nextContext.ge, hc.nextLoop.ge⟩

theorem Allotted.counters_run (h : s.Allotted) (acts : List (Act KeepsSlot)) :
    s.nextContext ≤ (s.run acts).nextContext ∧ s.nextLoop ≤ (s.run acts).nextLoop := by
  induction acts generalizing s with
  | nil => exact ⟨Nat.le_refl _, Nat.le_refl _⟩
  | cons a acts ih =>
    obtain ⟨hcontext, hloop⟩ := counters_act h.nodup a
    obtain ⟨hcontext', hloop'⟩ := ih (h.act a)
    exact ⟨hcontext.trans hcontext', hloop.trans hloop'⟩

/-! ## Along every run -/

/-- A new variable is never stored if its owner was the outermost context or not open. -/
theorem Makes.slotOf_run (hm : Makes k s s') (h : s.Allotted)
    (hk : k = initial.current.id ∨ k ∉ s.openIds) (hdrain : .drain ∉ acts) :
    (s'.run acts).slotOf s.vars.size = none :=
  (run_keeps (fun _ _ ha hs => hs.act ha) hdrain (hm.adrift h hk)).slotless

/-- When the owner of a variable closes, it is stored exactly if the owner was open when the variable
was made, and it needs a slot by then. -/
theorem Makes.isSome_slotOf_pop (hm : Makes k s s') (h : s.Allotted) (hdrain : .drain ∉ acts)
    (houter : (s'.run acts).outer ≠ []) (hk : (s'.run acts).current.id = k) :
    ((s'.run acts).pop.slotOf s.vars.size).isSome ↔ k ∈ s.openIds ∧ (s'.run acts).Needed s.vars.size := by
  have hs := (h.makes hm).run acts
  by_cases hopen : k ∈ s.openIds
  · have hkeeps : ∀ (t : Scope) (a : Act KeepsSlot), a ≠ .drain → t.Allotted ∧ Awaited k s.vars.size t →
        (t.act a).Allotted ∧ Awaited k s.vars.size (t.act a) :=
      fun t a ha ht => ⟨ht.1.act a, ht.2.act ht.1 ha⟩
    have hawaited := (run_keeps hkeeps hdrain ⟨h.makes hm, hm.awaited hopen⟩).2
    rw [← hk] at hawaited
    rcases pop_cases (s'.run acts) with ⟨hroot, -⟩ | hc
    · exact absurd hroot houter
    · obtain ⟨-, -, hin, -⟩ := hs.stores hc
      simp only [hopen, true_and]
      exact hin _ (hawaited.mem_owned hs)
  · have hpops : .drain ∉ acts ++ [.pop] := by simpa using hdrain
    have hnone := hm.slotOf_run h (.inr hopen) hpops
    rw [run_concat] at hnone
    simp [hopen, show (s'.run acts).pop.slotOf s.vars.size = none from hnone]

theorem nextLoop_newHiddenLoop (s : Scope) (span : Span) :
    (s.newHiddenLoop span).1.loop = s.nextLoop ∧ (s.newHiddenLoop span).2.nextLoop = s.nextLoop + 1 := by
  have hnext := nextLoop_newVar s none span s.current.id
  exact ⟨hnext, congrArg (· + 1) hnext⟩

/-- How slots are given in a scope and in whatever follows. -/
structure SlotRules (s : Scope) : Prop where
  numbered : ∀ (i : Nat) (l : Local), s.locals[i]? = some l → l.slot = i
  slots : ∀ id i, s.slotOf id = some i ↔ ∃ l, s.locals[i]? = some l ∧ l.var = id
  /-- A variable gets a slot when its owner closes, and only if it needs one by then. -/
  given : ∀ (a : Act KeepsSlot) (id : VarId) (i : Nat), s.slotOf id = none →
    (s.act a).slotOf id = some i →
    a = .pop ∧ s.outer ≠ [] ∧ s.owner id = .ok s.current.id ∧ s.Needed id
  kept : ∀ (more : List (Act KeepsSlot)) (id : VarId) (i : Nat), .drain ∉ more →
    s.slotOf id = some i → (s.run more).slotOf id = some i
  /-- A variable that is made for the outermost context, or for one that is not open, never gets
  any. -/
  never : ∀ (a : Act KeepsSlot) (more : List (Act KeepsSlot)) (id : VarId) (k : ContextId),
    s.vars[id]? = none → (s.act a).owner id = .ok k →
    k = initial.current.id ∨ k ∉ s.openIds → .drain ∉ more → ((s.act a).run more).slotOf id = none
  /-- Any other is stored when its owner closes, if it needs a slot by then. -/
  stored : ∀ (a : Act KeepsSlot) (more : List (Act KeepsSlot)) (id : VarId) (k : ContextId),
    s.vars[id]? = none → (s.act a).owner id = .ok k → .drain ∉ more →
    ((s.act a).run more).outer ≠ [] → ((s.act a).run more).current.id = k →
    ((((s.act a).run (more ++ [.pop])).slotOf id).isSome ↔
      k ∈ s.openIds ∧ ((s.act a).run more).Needed id)
  /-- The variables of a context have their slots in the order in which they were made. -/
  ordered : ∀ x y i j k, s.owner x = .ok k → s.owner y = .ok k → s.slotOf x = some i →
    s.slotOf y = some j → (x < y ↔ i < j)
  /-- Variables and slots start over; the numbers of contexts and loops go on. -/
  drained : s.drain.vars = #[] ∧ s.drain.locals = #[] ∧
    s.drain.nextContext = s.nextContext ∧ s.drain.nextLoop = s.nextLoop
  contexts : s.push.current.id = s.nextContext ∧ s.push.nextContext = s.nextContext + 1
  loops : ∀ label span,
    (s.newLoop label span).1.loop = s.nextLoop ∧ (s.newLoop label span).2.nextLoop = s.nextLoop + 1 ∧
    (s.newHiddenLoop span).1.loop = s.nextLoop ∧ (s.newHiddenLoop span).2.nextLoop = s.nextLoop + 1
  upwards : ∀ more : List (Act KeepsSlot), s.nextContext ≤ (s.run more).nextContext ∧ s.nextLoop ≤ (s.run more).nextLoop

/-- The rules hold after every run from the start. -/
theorem slots_of_run (acts : List (Act KeepsSlot)) : (initial.run acts).SlotRules := by
  have h := initial_allotted.run acts
  generalize initial.run acts = s at h
  refine {
    numbered := fun _ _ => h.numbered
    slots := fun _ _ => h.slots
    given := fun _ _ _ hnone hslot => h.slotOf_act_cases hslot hnone
    kept := fun _ _ _ hdrain hslot => h.slotOf_run hdrain hslot
    never := fun a more id k hnew howner hk hdrain => ?_
    stored := fun a more id k hnew howner hdrain houter hcurrent => ?_
    ordered := fun x y i j k hkx hky hx hy => ?_
    drained := ⟨rfl, rfl, rfl, rfl⟩
    contexts := ⟨rfl, rfl⟩
    loops := fun label span => ?_
    upwards := h.counters_run }
  · obtain ⟨rfl, hm⟩ := h.makes_of_owner hnew howner
    exact hm.slotOf_run h hk hdrain
  · obtain ⟨rfl, hm⟩ := h.makes_of_owner hnew howner
    rw [run_concat]
    exact hm.isSome_slotOf_pop h hdrain houter hcurrent
  · refine ⟨h.ordered hx hy hkx hky, fun hlt => ?_⟩
    rcases Nat.lt_trichotomy x y with hxy | rfl | hyx
    · exact hxy
    · cases hx.symm.trans hy
      exact absurd hlt (Nat.lt_irrefl _)
    · exact absurd hlt (Nat.lt_asymm (h.ordered hy hx hky hkx hyx))
  · obtain ⟨hloop, hnext⟩ := nextLoop_newHiddenLoop s span
    exact ⟨hloop, hnext, hloop, hnext⟩

/-- Makes the variable an integer. -/
def beInteger (id : VarId) : Act KeepsSlot :=
  .edit id (fun v => { v with type := some .integer }) fun _ => rfl

-- The first variable is made for a context that is opened only afterwards.
example : (initial.run [.push, .temp ⟨0, 0⟩ (some 2), .push, .temp ⟨0, 0⟩ none, beInteger 0, beInteger 1,
    .pop, .pop]).table.toList.map Var.slot = [none, some 0] := by
  decide +kernel

end Scope

end SlotCode
