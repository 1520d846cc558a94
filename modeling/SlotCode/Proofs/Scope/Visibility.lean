import SlotCode.Proofs.Scope.Allotment

/-!
# What can be seen

A context that is opened and closed again leaves no trace in what can be seen: names and loops stand
for what they stood for before, whatever was done in between.  And at every moment a name stands for
the newest of the variables declared with it in a context that is still open.

What lookups see is the stack of contexts without what the contexts own (`Scope.visible`).  All that
an act does to it is said once (`Scope.alters_act`).  Closing is then about the part of the stack
below the contexts that were opened since, which no act can reach.  Looking up is about the list of
all declarations, newest first: with the declarations of closed contexts left out, it lists the names
of the open contexts, innermost first (`Scope.Recorded`).
-/

namespace SlotCode

open List

/-- What lookups see of a context. -/
def Context.bare (c : Context) : Context :=
  { c with owned := [] }

theorem Context.bare_id (c : Context) : c.bare.id = c.id := rfl

/-- A variable that was declared, with the number of the context that it was declared in. -/
structure Declaration where
  name : String
  var : VarId
  context : ContextId
deriving DecidableEq

/-- The names of a context as declarations. -/
def Context.declarations (c : Context) : List Declaration :=
  c.names.map fun n => ⟨n.1, n.2, c.id⟩

theorem Context.context_of_mem_declarations {c : Context} {d : Declaration}
    (h : d ∈ c.declarations) : d.context = c.id := by
  obtain ⟨n, -, rfl⟩ := mem_map.1 h
  rfl

/-- The first declaration of a name is the entry that counts. -/
theorem Context.find?_declarations (c : Context) (name : String) :
    (c.declarations.find? (·.name = name)).map Declaration.var = c.names.lookup name := by
  rw [Context.declarations]
  induction c.names with
  | nil => rfl
  | cons n names ih =>
    obtain ⟨first, id⟩ := n
    rw [map_cons, find?_cons, lookup_cons]
    by_cases hn : first = name
    · simp [hn]
    · have hother : (name == first) = false := beq_false_of_ne (Ne.symm hn)
      simp only [hn, decide_false, hother]
      exact ih

namespace Scope

variable {Allowed : (Var → Var) → Prop} {a : Act Allowed} {acts : List (Act Allowed)} {s s' : Scope}

/-! ## Levels -/

/-- Number of contexts that are open above a certain one.  That one is not closed, and nothing is
forgotten. -/
def Act.level (n : Nat) : Act Allowed → Option Nat
  | .push => some (n + 1)
  | .pop => if n = 0 then none else some (n - 1)
  | .drain => none
  | _ => some n

def levelAfter (n : Nat) : List (Act Allowed) → Option Nat
  | [] => some n
  | a :: acts => (a.level n).bind fun m => levelAfter m acts

/-! ## The visible contexts -/

/-- The open contexts as lookups see them, innermost first. -/
def visible (s : Scope) : List Context :=
  s.contexts.map Context.bare

theorem visible_eq (s : Scope) : s.visible = s.current.bare :: s.outer.map Context.bare := rfl

theorem current_of_visible (h : s'.visible = s.visible) :
    s'.current.id = s.current.id ∧ s'.current.names = s.current.names ∧
      s'.outer.map Context.bare = s.outer.map Context.bare := by
  obtain ⟨hcurrent, houter⟩ := cons_eq_cons.1 h
  have hid : s'.current.bare.id = s.current.bare.id := by rw [hcurrent]
  have hnames : s'.current.bare.names = s.current.bare.names := by rw [hcurrent]
  exact ⟨hid, hnames, houter⟩

/-- Lookups give the same in both. -/
structure SeesLike (s s' : Scope) : Prop where
  current : s'.current.id = s.current.id
  lookup : ∀ name span, s'.lookup name span = s.lookup name span
  findLoop : ∀ label span, s'.findLoop label span = s.findLoop label span
  innermostLoop : ∀ span, s'.innermostLoop span = s.innermostLoop span

theorem seesLike_of_visible (h : s'.visible = s.visible) : SeesLike s s' := by
  have hnames : ∀ (t : Scope) (name : String), (t.contexts.findSome? fun c => c.names.lookup name) =
      t.visible.findSome? fun c => c.names.lookup name := by
    intro t name
    rw [visible, findSome?_map]
    rfl
  have hloops : ∀ t : Scope, t.openLoops = t.visible.flatMap Context.loops := by
    intro t
    rw [visible, flatMap_map]
    rfl
  refine ⟨(current_of_visible h).1, fun name span => ?_, fun label span => ?_, fun span => ?_⟩
  · rw [Scope.lookup, Scope.lookup, hnames, hnames, h]
  · rw [Scope.findLoop, Scope.findLoop, hloops, hloops, h]
  · rw [Scope.innermostLoop, Scope.innermostLoop, hloops, hloops, h]

theorem map_bare_addOwned (owner : ContextId) (id : VarId) (cs : List Context) :
    (addOwned owner id cs).map Context.bare = cs.map Context.bare := by
  induction cs with
  | nil => rfl
  | cons c cs ih =>
    rw [addOwned]
    split
    · rfl
    · rw [map_cons, map_cons, ih]

theorem visible_newVar (s : Scope) (name : Option String) (span : Span) (owner : ContextId) :
    (s.newVar name span owner).2.visible = s.visible := by
  rw [visible, contexts_newVar, map_bare_addOwned]
  rfl

/-! ## What an act does to them -/

def declares? (s : Scope) : Act Allowed → Option Declaration
  | .bind name span (.declare bound) =>
    match s.bind name span (.declare bound) with
    | .ok (id, _, _) => some ⟨name, id, s.current.id⟩
    | .error _ => none
  | _ => none

/-- The current context stays, with the name that is declared, if any. -/
structure Fills (a : Act Allowed) (s s' : Scope) : Prop where
  outer : s'.outer.map Context.bare = s.outer.map Context.bare
  id : s'.current.id = s.current.id
  names : s'.current.names =
    (s.declares? a).toList.map (fun new => (new.name, new.var)) ++ s.current.names
  context : ∀ new ∈ s.declares? a, new.context = s.current.id
  nextContext : s'.nextContext = s.nextContext

inductive Alters (s : Scope) : Act Allowed → Scope → Prop where
  | opens : Alters s .push s.push
  | closes {s' : Scope} (h : s.visible = s.current.bare :: s'.visible)
      (hnext : s'.nextContext = s.nextContext) : Alters s .pop s'
  | stays (h : s.outer = []) : Alters s .pop s
  | drains : Alters s .drain s.drain
  | fills {a : Act Allowed} {s' : Scope} (hlevel : ∀ n, a.level n = some n) (h : Fills a s s') :
    Alters s a s'

/-- An act that declares nothing and leaves what is visible. -/
theorem fills_of_visible (hnone : s.declares? a = none) (h : s'.visible = s.visible)
    (hnext : s'.nextContext = s.nextContext) : Fills a s s' := by
  obtain ⟨hid, hnames, houter⟩ := current_of_visible h
  refine ⟨houter, hid, ?_, ?_, hnext⟩
  · rw [hnone]
    exact hnames
  · rw [hnone]
    rintro new ⟨⟩

theorem fills_bind (s : Scope) (name : String) (span : Span) (mode : BindMode) :
    Fills (.bind name span mode : Act Allowed) s (s.act (.bind name span mode : Act Allowed)) := by
  rw [act]
  cases hbind : s.bind name span mode with
  | error e =>
    refine fills_of_visible ?_ rfl rfl
    cases mode with
    | resolve => rfl
    | declare bound => rw [declares?, hbind]
  | ok r =>
    obtain ⟨id, mode', bound⟩ := r
    cases mode with
    | resolve =>
      cases hid : s.lookup name span <;> simp [bind, hid, Except.map] at hbind
      obtain ⟨-, -, rfl⟩ := hbind
      exact fills_of_visible rfl rfl rfl
    | declare names =>
      have hsome : s.declares? (.bind name span (.declare names) : Act Allowed) =
          some ⟨name, id, s.current.id⟩ := by rw [declares?, hbind]
      have hvisible := visible_newVar s (some name) span s.current.id
      have hnext := nextContext_newVar s (some name) span s.current.id
      rw [bind] at hbind
      split at hbind
      · cases hbind
      · generalize s.newVar (some name) span s.current.id = new at hvisible hnext hbind
        cases hbind
        obtain ⟨hid, hnames, houter⟩ := current_of_visible hvisible
        refine ⟨houter, hid, ?_, ?_, hnext⟩
        · rw [hsome]
          exact congrArg (List.cons (name, new.1)) hnames
        · rw [hsome]
          rintro _ ⟨⟩
          rfl

/-- All that an act does to the visible contexts. -/
theorem alters_act (s : Scope) (a : Act Allowed) : Alters s a (s.act a) := by
  cases a with
  | push => exact .opens
  | drain => exact .drains
  | pop =>
    rcases pop_cases s with ⟨hroot, hpop⟩ | hcloses
    · rw [act, hpop]
      exact .stays hroot
    · refine .closes ?_ hcloses.nextContext
      cases houter : s.outer with
      | nil => exact absurd houter hcloses.outer
      | cons parent outer =>
        rw [act, pop, visible_eq, houter]
        rfl
  | bind name span mode => exact .fills (fun _ => rfl) (fills_bind s name span mode)
  | temp span owner =>
    exact .fills (fun _ => rfl)
      (fills_of_visible rfl (visible_newVar s none span _) (nextContext_newVar s none span _))
  | hiddenLoop span =>
    exact .fills (fun _ => rfl)
      (fills_of_visible rfl (visible_newVar s none span _) (nextContext_newVar s none span _))
  | loop label span =>
    obtain ⟨hid, hnames, houter⟩ := current_of_visible (visible_newVar s none span s.current.id)
    refine .fills (fun _ => rfl) ⟨houter, hid, hnames, ?_, nextContext_newVar s none span s.current.id⟩
    rintro new ⟨⟩
  | edit id f => exact .fills (fun _ => rfl) (fills_of_visible rfl rfl rfl)
  | register name type span =>
    refine .fills (fun _ => rfl) ?_
    rw [act, register]
    cases s.functions.lookup name <;> exact fills_of_visible rfl rfl rfl
  | registerNative name type => exact .fills (fun _ => rfl) (fills_of_visible rfl rfl rfl)

/-! ## Closing -/

/-- No act reaches below the contexts that were opened since. -/
theorem visible_act {inside base : List Context} {n m : Nat}
    (h : s.visible = inside ++ base) (hlength : inside.length = n + 1) (hlevel : a.level n = some m) :
    ∃ inside', (s.act a).visible = inside' ++ base ∧ inside'.length = m + 1 := by
  obtain ⟨c, rest, rfl⟩ := exists_cons_of_length_eq_add_one hlength
  obtain ⟨hcurrent, houter⟩ := cons_eq_cons.1 h
  have halters := alters_act s a
  generalize s.act a = s' at halters ⊢
  cases halters with
  | opens =>
    cases hlevel
    refine ⟨.new s.nextContext :: c :: rest, ?_, congrArg (· + 1) hlength⟩
    exact congrArg (List.cons _) h
  | closes hcloses =>
    obtain ⟨-, hclosed⟩ := cons_eq_cons.1 (hcloses.symm.trans h)
    rw [Act.level] at hlevel
    split at hlevel
    · cases hlevel
    · cases hlevel
      refine ⟨rest, hclosed, ?_⟩
      rw [length_cons] at hlength
      omega
  | stays hroot =>
    -- The only open context is not the one that the level counts from.
    rw [hroot] at houter
    obtain ⟨rfl, rfl⟩ := append_eq_nil_iff.1 houter.symm
    rw [Act.level] at hlevel
    split at hlevel
    · cases hlevel
    · next hn => exact absurd (Nat.succ.inj hlength).symm hn
  | drains => cases hlevel
  | fills hstill hfills =>
    cases (hstill n).symm.trans hlevel
    refine ⟨s'.current.bare :: rest, ?_, hlength⟩
    rw [visible_eq, hfills.outer, houter]
    rfl

theorem visible_run {inside base : List Context} {n m : Nat}
    (h : s.visible = inside ++ base) (hlength : inside.length = n + 1)
    (hlevel : levelAfter n acts = some m) :
    ∃ inside', (s.run acts).visible = inside' ++ base ∧ inside'.length = m + 1 := by
  induction acts generalizing s inside n with
  | nil =>
    cases hlevel
    exact ⟨inside, h, hlength⟩
  | cons a acts ih =>
    obtain ⟨k, ha, hacts⟩ := Option.bind_eq_some_iff.1 hlevel
    obtain ⟨inside', h', hlength'⟩ := visible_act h hlength ha
    exact ih h' hlength' hacts

/-- What was visible when a context was opened is visible when it has been closed. -/
theorem visible_closed (hlevel : levelAfter 0 acts = some 0) (s : Scope) :
    (s.run (.push :: (acts ++ [.pop]))).visible = s.visible := by
  have hpush : s.push.visible = [.new s.nextContext] ++ s.visible := rfl
  obtain ⟨inside, hvisible, hlength⟩ := visible_run hpush rfl hlevel
  obtain ⟨c, rfl⟩ := length_eq_one_iff.1 hlength
  have hrun : s.run (.push :: (acts ++ [.pop])) = (s.push.run acts).pop := run_concat s.push acts .pop
  rw [hrun]
  generalize s.push.run acts = t at hvisible
  have halters := alters_act t (.pop : Act Allowed)
  rw [act] at halters
  generalize t.pop = t' at halters ⊢
  cases halters with
  | closes hcloses => exact (cons_eq_cons.1 (hcloses.symm.trans hvisible)).2
  | stays hroot =>
    rw [visible_eq, hroot] at hvisible
    cases (cons_eq_cons.1 hvisible).2
  | fills hstill => cases hstill 0

/-! ## Declarations -/

/-- The declarations after an act, newest first.  Draining forgets them. -/
def note (s : Scope) (declared : List Declaration) : Act Allowed → List Declaration
  | .drain => []
  | a => (s.declares? a).toList ++ declared

def noteAll (s : Scope) (declared : List Declaration) : List (Act Allowed) → List Declaration
  | [] => declared
  | a :: acts => noteAll (s.act a) (s.note declared a) acts

/-- What a name stands for if the newest declaration counts whose context is still open. -/
def newestOpen (s : Scope) (declared : List Declaration) (name : String) (span : Span) :
    Except LoweringError VarId :=
  match declared.find? fun d => d.name = name ∧ d.context ∈ s.openIds with
  | some d => .ok d.var
  | none => .error ⟨.undefinedVariable name, span⟩

/-- The declarations of contexts that are open are the names of these contexts. -/
structure Recorded (declared : List Declaration) (s : Scope) : Prop where
  nodup : s.openIds.Nodup
  below : ∀ k ∈ s.openIds, k < s.nextContext
  past : ∀ d ∈ declared, d.context < s.nextContext
  names : declared.filter (fun d => d.context ∈ s.openIds) = s.contexts.flatMap Context.declarations

theorem openIds_eq_visible (s : Scope) : s.openIds = s.visible.map Context.id := by
  rw [visible, map_map]
  rfl

theorem declarations_eq_visible (s : Scope) :
    s.contexts.flatMap Context.declarations = s.visible.flatMap Context.declarations := by
  rw [visible, flatMap_map]
  rfl

namespace Recorded

variable {declared : List Declaration}

theorem initial : Recorded [] Scope.initial := by
  refine ⟨initial_allotted.nodup, initial_allotted.below, ?_, rfl⟩
  rintro d ⟨⟩

section

variable (h : Recorded declared s)

include h

theorem push : Recorded declared s.push := by
  have hids : s.push.openIds = s.nextContext :: s.openIds := rfl
  refine ⟨?_, ?_, fun d hd => Nat.lt_succ_of_lt (h.past d hd), ?_⟩
  · exact nodup_cons.2 ⟨fun hmem => Nat.lt_irrefl _ (h.below _ hmem), h.nodup⟩
  · rw [hids, forall_mem_cons]
    exact ⟨Nat.lt_succ_self _, fun k hk => Nat.lt_succ_of_lt (h.below k hk)⟩
  · -- Nothing has been declared in the new context.
    have hsame : declared.filter (fun d => d.context ∈ s.push.openIds) =
        declared.filter (fun d => d.context ∈ s.openIds) := by
      refine filter_congr fun d hd => ?_
      simp [hids, (h.past d hd).ne]
    rw [hsame, h.names]
    rfl

theorem closes (hcloses : s.visible = s.current.bare :: s'.visible)
    (hnext : s'.nextContext = s.nextContext) : Recorded declared s' := by
  have hids : s.openIds = s.current.id :: s'.openIds := by
    rw [openIds_eq_visible, openIds_eq_visible, hcloses]
    rfl
  obtain ⟨hcurrent, hnodup⟩ := nodup_cons.1 (hids ▸ h.nodup)
  refine ⟨hnodup, fun k hk => ?_, fun d hd => ?_, ?_⟩
  · rw [hnext]
    exact h.below k (hids ▸ mem_cons_of_mem _ hk)
  · rw [hnext]
    exact h.past d hd
  · -- Of the names that were known, those of the context that closes are left out.
    have hpast : s.current.bare.declarations.filter (fun d => d.context ∈ s'.openIds) = [] := by
      refine filter_eq_nil_iff.2 fun d hd => ?_
      rw [Context.context_of_mem_declarations hd, Context.bare_id, decide_eq_true_iff]
      exact hcurrent
    have hopen : (s'.visible.flatMap Context.declarations).filter (fun d => d.context ∈ s'.openIds) =
        s'.visible.flatMap Context.declarations := by
      refine filter_eq_self.2 fun d hd => ?_
      obtain ⟨c, hc, hd⟩ := mem_flatMap.1 hd
      rw [Context.context_of_mem_declarations hd, openIds_eq_visible]
      exact decide_eq_true (mem_map_of_mem hc)
    have hsub : declared.filter (fun d => d.context ∈ s'.openIds) =
        (declared.filter (fun d => d.context ∈ s.openIds)).filter
          (fun d => d.context ∈ s'.openIds) := by
      rw [filter_filter]
      refine filter_congr fun d _ => ?_
      by_cases hd : d.context ∈ s'.openIds <;> simp [hids, hd]
    rw [hsub, h.names, declarations_eq_visible, hcloses, flatMap_cons, filter_append, hpast,
      hopen, nil_append, declarations_eq_visible]

theorem fills (hfills : Fills a s s') : Recorded ((s.declares? a).toList ++ declared) s' := by
  have hids : s'.openIds = s.openIds := by
    rw [openIds_eq_visible, openIds_eq_visible, visible_eq, visible_eq, map_cons, map_cons, hfills.outer]
    exact congrArg (· :: _) hfills.id
  have hcurrent : s.current.id ∈ s.openIds := mem_cons_self
  have hnew : ∀ new ∈ (s.declares? a).toList, new.context = s.current.id := fun new hmem =>
    hfills.context new (Option.mem_toList.1 hmem)
  refine ⟨hids ▸ h.nodup, ?_, fun new hmem => ?_, ?_⟩
  · rw [hids, hfills.nextContext]
    exact h.below
  · rw [hfills.nextContext]
    rcases mem_append.1 hmem with hmem | hmem
    · rw [hnew new hmem]
      exact h.below _ hcurrent
    · exact h.past new hmem
  · have hkept : (s.declares? a).toList.filter (fun new => new.context ∈ s.openIds) =
        (s.declares? a).toList := by
      refine filter_eq_self.2 fun new hmem => ?_
      rw [hnew new hmem]
      exact decide_eq_true hcurrent
    have hnames : s'.current.bare.declarations =
        (s.declares? a).toList ++ s.current.bare.declarations := by
      have hnew' : (s.declares? a).toList.map
          (fun new => (⟨new.name, new.var, s.current.id⟩ : Declaration)) = (s.declares? a).toList := by
        refine (map_congr_left fun new hmem => ?_).trans (map_id _)
        rw [← hnew new hmem]
        rfl
      rw [Context.declarations, Context.bare, hfills.names, hfills.id, map_append, map_map]
      exact congrArg (· ++ _) hnew'
    rw [filter_append, declarations_eq_visible, visible_eq, flatMap_cons, hnames, hfills.outer,
      append_assoc, ← flatMap_cons, ← visible_eq, ← declarations_eq_visible, ← h.names]
    simp only [hids, hkept]

theorem drain : Recorded [] s.drain := by
  have hids : s.drain.openIds = s.openIds := by
    simp [openIds, contexts, Scope.drain, Context.new]
  refine ⟨hids ▸ h.nodup, hids ▸ h.below, ?_, ?_⟩
  · rintro d ⟨⟩
  · symm
    refine flatMap_eq_nil_iff.2 fun c hc => ?_
    simp only [contexts, Scope.drain, mem_cons, mem_map] at hc
    rcases hc with rfl | ⟨c, -, rfl⟩ <;> rfl

theorem act (a : Act Allowed) : Recorded (s.note declared a) (s.act a) := by
  have halters := alters_act s a
  generalize s.act a = s' at halters ⊢
  cases halters with
  | opens => exact h.push
  | closes hcloses hnext => exact h.closes hcloses hnext
  | stays => exact h
  | drains => exact h.drain
  | fills hlevel hfills =>
    have hnote : s.note declared a = (s.declares? a).toList ++ declared := by
      unfold note
      split
      · cases hlevel 0
      · rfl
    rw [hnote]
    exact h.fills hfills

theorem run (acts : List (Act Allowed)) : Recorded (s.noteAll declared acts) (s.run acts) := by
  induction acts generalizing s declared with
  | nil => exact h
  | cons a acts ih => exact ih (h.act a)

theorem lookup (name : String) (span : Span) : s.lookup name span = s.newestOpen declared name span := by
  have hfind : declared.find? (fun d => d.name = name ∧ d.context ∈ s.openIds) =
      s.contexts.findSome? fun c => c.declarations.find? (·.name = name) := by
    rw [← find?_flatMap, ← h.names, find?_filter]
    congr 1
    funext d
    simp [and_comm]
  have hvars : (s.contexts.findSome? fun c => c.names.lookup name) =
      (declared.find? (fun d => d.name = name ∧ d.context ∈ s.openIds)).map Declaration.var := by
    rw [hfind, map_findSome?]
    congr 1
    funext c
    exact (c.find?_declarations name).symm
  rw [Scope.lookup, newestOpen, hvars]
  cases declared.find? (fun d => d.name = name ∧ d.context ∈ s.openIds) <;> rfl

end

end Recorded

/-! ## Along every run -/

/-- A context that is opened and closed again leaves what lookups give.  While it is open, after any
run that led to it, a name stands for the newest variable declared with it in a context that is still
open. -/
theorem closing_restores_visibility (inner : List (Act Allowed)) (hlevel : levelAfter 0 inner = some 0) :
    (∀ s : Scope, SeesLike s (s.run (.push :: (inner ++ [.pop])))) ∧
      ∀ (before front : List (Act Allowed)) (name : String) (span : Span), front <+: inner →
        (initial.run (before ++ .push :: front)).lookup name span =
          (initial.run (before ++ .push :: front)).newestOpen
            (initial.noteAll [] (before ++ .push :: front)) name span := by
  refine ⟨fun s => seesLike_of_visible (visible_closed hlevel s), fun before front name span _ => ?_⟩
  exact (Recorded.initial.run _).lookup name span

/-- The name `x` and the loop `out`, in a context of their own. -/
def outerActs : List (Act fun _ => True) :=
  [.push, .bind "x" ⟨0, 1⟩ (.declare []), .loop (some "out") ⟨2, 3⟩]

/-- Shadows the name twice, the second time in an inner context, where declaring `x` again with the
same pattern fails; makes a temporary of the outer context and a loop; looks up a name in vain. -/
def shadowingActs : List (Act fun _ => True) :=
  [.bind "x" ⟨4, 5⟩ (.declare []), .temp ⟨6, 7⟩ (some 1), .push, .bind "x" ⟨8, 9⟩ (.declare []),
    .bind "x" ⟨9, 9⟩ (.declare [("x", ⟨8, 9⟩)]), .loop none ⟨10, 11⟩, .pop, .bind "y" ⟨12, 13⟩ .resolve,
    .edit 0 (fun v => { v with leaves := some [] }) trivial, .registerNative "f" .integer]

theorem closing_restores_visibility_shadowing :
    levelAfter 0 shadowingActs = some 0 ∧
      ((initial.run outerActs).run (.push :: (shadowingActs ++ [.pop]))).lookup "x" ⟨0, 0⟩ = .ok 0 ∧
      ((initial.run outerActs).run (.push :: (shadowingActs ++ [.pop]))).innermostLoop ⟨0, 0⟩ =
        .ok ⟨0, 1⟩ ∧
      (initial.run (outerActs ++ .push :: shadowingActs.take 5)).lookup "x" ⟨0, 0⟩ = .ok 4 ∧
      (initial.run (outerActs ++ .push :: shadowingActs.take 8)).lookup "x" ⟨0, 0⟩ = .ok 2 := by
  have hlevel : levelAfter 0 shadowingActs = some 0 := rfl
  obtain ⟨hrestored, hinside⟩ := closing_restores_visibility shadowingActs hlevel
  refine ⟨hlevel, ?_, ?_, ?_, ?_⟩
  · rw [(hrestored _).lookup]
    rfl
  · rw [(hrestored _).innermostLoop]
    rfl
  · rw [hinside _ _ _ _ (List.take_prefix 5 _)]
    rfl
  · rw [hinside _ _ _ _ (List.take_prefix 8 _)]
    rfl

end Scope

end SlotCode
