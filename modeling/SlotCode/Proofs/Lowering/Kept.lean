import SlotCode.Proofs.Lowering.Slots
import SlotCode.Proofs.Types.Additions

/-!
# What lowering leaves as it is

Whether or not lowering succeeds, it leaves every node of the type graph as it is, declares no function,
closes each context that it opens, and takes nothing from a variable that was there
(`Session.Keeps`).  A context gets new names and loops only while it is the current one.
-/

namespace SlotCode

open List

variable {id : VarId}

instance : Std.Refl TypeGraph.KeptIn where
  refl g := .refl g

instance : IsTrans TypeGraph TypeGraph.KeptIn where
  trans _ _ _ h h' := h.trans h'

instance : TypeGraph.Upheld (fun _ => False) TypeGraph.KeptIn where
  tuple g _ origin := g.keptIn_add _ origin
  box g _ origin := g.keptIn_add _ origin
  list g item origin := g.keptIn_addList item origin
  copy g type b span := by
    have hkept := TypeGraph.instantiate_keptIn type b span g
    cases hrun : TypeGraph.instantiate type b span g with
    | ok id g' =>
      rw [hrun] at hkept
      exact hkept
    | error e g' =>
      rw [hrun] at hkept
      exact .inr hkept

/-! ## Scopes and sessions -/

structure OwnedVar.Keeps (entry entry' : OwnedVar) : Prop where
  var : entry.var.Keeps entry'.var
  owner : entry'.owner = entry.owner

/-- The context owns more than before only of the variables from `n` on, and knows more than before only
if it `binds`. -/
structure Context.Keeps (binds : Bool) (n : VarId) (c c' : Context) : Prop where
  id : c'.id = c.id
  frame : binds = false → c'.frame = c.frame
  owned : ∃ new, c'.owned = new ++ c.owned ∧ ∀ id ∈ new, n ≤ id

/-- The same contexts are open, no function was declared, and all variables are there.  Names and loops
are new only in the current context, and only if it `binds`. -/
structure Scope.Keeps (binds : Bool) (s t : Scope) : Prop where
  current : s.current.Keeps binds s.vars.size t.current
  outer : List.Forall₂ (Context.Keeps false s.vars.size) s.outer t.outer
  functions : t.functions = s.functions
  nextContext : s.nextContext ≤ t.nextContext
  vars : ∀ {id : VarId} {entry : OwnedVar}, s.vars[id]? = some entry →
    ∃ entry', t.vars[id]? = some entry' ∧ entry.Keeps entry'

structure Session.Keeps (binds : Bool) (s t : Session) : Prop where
  types : s.types.KeptIn t.types
  scope : s.scope.Keeps binds t.scope

theorem OwnedVar.Keeps.trans {a b c : OwnedVar} (h : a.Keeps b) (h' : b.Keeps c) : a.Keeps c where
  var :=
    { name := h'.var.name.trans h.var.name
      type := fun type htype => h'.var.type type (h.var.type type htype)
      leaves := fun leaves hleaves => h'.var.leaves leaves (h.var.leaves leaves hleaves)
      slot := h'.var.slot.trans h.var.slot }
  owner := h'.owner.trans h.owner

namespace Context.Keeps

variable {binds : Bool} {n m : VarId} {c d e : Context}

theorem refl (binds : Bool) (n : VarId) (c : Context) : c.Keeps binds n c :=
  ⟨rfl, fun _ => rfl, [], rfl, forall_mem_nil _⟩

theorem trans (h : c.Keeps binds n d) (h' : d.Keeps binds m e) (hle : n ≤ m) : c.Keeps binds n e where
  id := h'.id.trans h.id
  frame hbinds := (h'.frame hbinds).trans (h.frame hbinds)
  owned := by
    obtain ⟨new, hnew, hge⟩ := h.owned
    obtain ⟨new', hnew', hge'⟩ := h'.owned
    refine ⟨new' ++ new, by rw [hnew', hnew, append_assoc], ?_⟩
    exact forall_mem_append.2 ⟨fun id hid => hle.trans (hge' id hid), hge⟩

theorem weaken (h : c.Keeps false n d) : c.Keeps binds n d :=
  ⟨h.id, fun _ => h.frame rfl, h.owned⟩

/-- The context gets a new variable. -/
theorem own (h : c.Keeps binds n d) (hid : n ≤ id) :
    c.Keeps binds n { d with owned := id :: d.owned } where
  id := h.id
  frame := h.frame
  owned := by
    obtain ⟨new, hnew, hge⟩ := h.owned
    exact ⟨id :: new, by rw [hnew, cons_append], forall_mem_cons.2 ⟨hid, hge⟩⟩

end Context.Keeps

namespace Scope

variable {binds : Bool} {s t u : Scope}

theorem Keeps.size_le (h : s.Keeps binds t) : s.vars.size ≤ t.vars.size := by
  by_contra hlt
  obtain ⟨_, hentry, -⟩ := h.vars (Array.getElem?_eq_getElem (Nat.lt_of_not_le hlt))
  exact Nat.lt_irrefl _ (Array.getElem?_eq_some_iff.1 hentry).1

theorem Keeps.refl (binds : Bool) (s : Scope) : s.Keeps binds s where
  current := .refl binds _ _
  outer := forall₂_same.2 fun c _ => .refl false _ c
  functions := rfl
  nextContext := Nat.le_refl _
  vars h := ⟨_, h, .refl _, rfl⟩

theorem Keeps.trans (h : s.Keeps binds t) (h' : t.Keeps binds u) : s.Keeps binds u where
  current := h.current.trans h'.current h.size_le
  outer := TypeGraph.forall₂_trans (fun _ _ _ hc hc' => hc.trans hc' h.size_le) h.outer h'.outer
  functions := h'.functions.trans h.functions
  nextContext := h.nextContext.trans h'.nextContext
  vars hentry := by
    obtain ⟨entry', hentry', hkeeps⟩ := h.vars hentry
    obtain ⟨entry'', hentry'', hkeeps'⟩ := h'.vars hentry'
    exact ⟨entry'', hentry'', hkeeps.trans hkeeps'⟩

theorem Keeps.ids (h : s.Keeps binds t) : t.openIds = s.openIds := by
  have houter : t.outer.map Context.id = s.outer.map Context.id :=
    forall₂_eq_eq_eq ▸ forall₂_map_left_iff.2
      (forall₂_map_right_iff.2 (h.outer.flip.imp fun _ _ hc => hc.id))
  rw [openIds, openIds, contexts, contexts, map_cons, map_cons, h.current.id, houter]

theorem addOwned_keeps {n : VarId} (owner : ContextId) (hid : n ≤ id) (cs : List Context) :
    Forall₂ (Context.Keeps false n) cs (addOwned owner id cs) := by
  induction cs with
  | nil => exact .nil
  | cons c cs ih =>
    rw [addOwned]
    split
    · exact .cons ((Context.Keeps.refl false n c).own hid) (forall₂_same.2 fun d _ => .refl false n d)
    · exact .cons (.refl false n c) ih

theorem newVar_keeps (s : Scope) (name : Option String) (span : Span) (owner : ContextId) :
    s.Keeps binds (s.newVar name span owner).2 := by
  have hvars : ∀ {id : VarId} {entry : OwnedVar} (new : OwnedVar), s.vars[id]? = some entry →
      ∃ entry', (s.vars.push new)[id]? = some entry' ∧ entry.Keeps entry' := by
    intro id entry new hentry
    have hlt := (Array.getElem?_eq_some_iff.1 hentry).1
    exact ⟨entry, by rw [Array.getElem?_push, if_neg hlt.ne, hentry], .refl _, rfl⟩
  have hself := Keeps.refl binds s
  rw [newVar]
  split
  · exact { hself with current := hself.current.own (Nat.le_refl _), vars := hvars _ }
  · exact { hself with outer := addOwned_keeps owner (Nat.le_refl _) s.outer, vars := hvars _ }

/-- Names and loops of the current context may be added. -/
theorem Keeps.know (h : s.Keeps true t) {c : Context} (hid : c.id = t.current.id)
    (howned : c.owned = t.current.owned) (n : LoopId) :
    s.Keeps true { t with current := c, nextLoop := n } :=
  { h with
    current :=
      { id := hid.trans h.current.id
        frame := fun heq => Bool.noConfusion heq
        owned := howned ▸ h.current.owned } }

theorem declare_keeps (s : Scope) (name : String) (span : Span) : s.Keeps true (s.declare name span) := by
  refine (s.newVar_keeps (some name) span s.current.id).know ?_ ?_ _ <;> rfl

theorem newLoop_keeps (s : Scope) (label : Option String) (span : Span) :
    s.Keeps true (s.newLoop label span).2 := by
  refine (s.newVar_keeps none span s.current.id).know ?_ ?_ _ <;> rfl

/-- A variable is given something that it did not have. -/
theorem modifyVar_keeps {f : Var → Var}
    (hf : ∀ {entry : OwnedVar}, s.vars[id]? = some entry → entry.var.Keeps (f entry.var)) :
    s.Keeps binds (s.modifyVar id f) :=
  { Keeps.refl binds s with
    vars := by
      intro x entry hentry
      rw [Scope.modifyVar, Array.getElem?_modify, hentry]
      by_cases heq : id = x
      · rw [if_pos heq]
        exact ⟨_, rfl, hf (heq ▸ hentry), rfl⟩
      · rw [if_neg heq]
        exact ⟨entry, rfl, .refl _, rfl⟩ }

theorem getElem?_store (s : Scope) {x : VarId} (h : x ≠ id) :
    (s.store id).vars[x]? = s.vars[x]? := by
  unfold store
  split
  · rfl
  · exact Array.getElem?_modify.trans (if_neg h.symm)

theorem getElem?_store_all (s : Scope) {ids : List VarId} {x : VarId} (h : x ∉ ids) :
    (ids.foldl store s).vars[x]? = s.vars[x]? := by
  induction ids generalizing s with
  | nil => rfl
  | cons id ids ih =>
    rw [mem_cons, not_or] at h
    exact (ih _ h.2).trans (s.getElem?_store h.1)

/-- A context is opened, things happen in it, and it is closed.  It owned nothing when it was opened, so
no old variable is stored. -/
theorem Keeps.within (h : s.push.Keeps true t) : s.Keeps binds t.pop := by
  obtain ⟨new, howned, hge⟩ := h.current.owned
  rw [show s.push.current.owned = [] from rfl, append_nil] at howned
  have houter := h.outer
  generalize ht : t.outer = outer at houter
  cases houter with
  | cons hcurrent houter =>
    rw [pop, ht, howned]
    refine ⟨hcurrent.weaken, houter, ?_, ?_, fun {x entry} hentry => ?_⟩
    · exact (functions_store_all t _).trans h.functions
    · exact nextContext_store_all t _ ▸ Nat.le_trans (Nat.le_succ _) h.nextContext
    · have hx : x ∉ new.reverse := fun hmem =>
        Nat.not_lt.2 (hge x (mem_reverse.1 hmem)) (Array.getElem?_eq_some_iff.1 hentry).1
      obtain ⟨entry', hentry', hkeeps⟩ := h.vars hentry
      exact ⟨entry', (t.getElem?_store_all hx).trans hentry', hkeeps⟩

theorem Edits.keeps {allowed : VarId → Prop} (h : Edits allowed s t) : s.Keeps binds t := by
  induction h with
  | refl _ s => exact .refl binds s
  | temp span owner _ _ ih => exact (newVar_keeps _ none span _).trans ih
  | change _ hkeeps _ ih => exact (modifyVar_keeps hkeeps).trans ih

theorem Trace.keeps (h : Trace binds s t) : s.Keeps binds t := by
  induction h with
  | refl binds s => exact .refl binds s
  | edit h _ ih => exact h.keeps.trans ih
  | declare name span _ ih => exact (declare_keeps _ name span).trans ih
  | loop label span _ ih => exact (newLoop_keeps _ label span).trans ih
  | context _ _ ihIn ih => exact ihIn.within.trans ih

end Scope

/-- Lowering an expression, whether or not it succeeds. -/
theorem lowerExpr_keeps (e : Expr) (s : Session) : s.Keeps false (stateAfter (lowerExpr e s)) := by
  have htrace := (Lower.tracing.exprOn e (fun type _ => fun g => g.keptIn_resolve type) s).stateAfter
  exact ⟨htrace.types, htrace.scope.keeps⟩

end SlotCode
