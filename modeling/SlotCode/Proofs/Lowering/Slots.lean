import SlotCode.Proofs.Lowering.Traces

/-!
# Slots

Slots and stored variables belong together one to one (`Scope.Slotted`).  A variable has no slot while
the context that owns it is open, and from then on it has one exactly if it needs one (`Scope.Tidy`).
So nothing that a variable is given while its context is open can contradict its slot, and variables
of closed contexts are not changed any more.
-/

namespace SlotCode

open List

variable {owner k : ContextId} {id : VarId} {entry : OwnedVar}

def OwnedVar.withSlot (entry : OwnedVar) (slot : Option Nat) : OwnedVar :=
  { entry with var := { entry.var with slot := slot } }

def Context.own (owner : ContextId) (id : VarId) (c : Context) : Context :=
  if c.id = owner then { c with owned := id :: c.owned } else c

@[simp] theorem Context.own_id (owner : ContextId) (id : VarId) (c : Context) :
    (c.own owner id).id = c.id := by
  unfold own
  split <;> rfl

@[simp] theorem Context.own_known (owner : ContextId) (id : VarId) (c : Context) :
    (c.own owner id).known = c.known := by
  unfold own
  split <;> rfl

namespace Scope

variable {s s' : Scope}

/-! ## Storing -/

/-- The list of stored variables says what the table of variables says. -/
structure Slotted (s : Scope) : Prop where
  slot : ∀ {id : VarId} {entry : OwnedVar} {i : Nat}, s.vars[id]? = some entry → entry.var.slot = some i →
    ∃ type, entry.var.stored? = some type ∧ s.locals[i]? = some ⟨i, id, type⟩
  stored : ∀ {i : Nat} {l : Local}, s.locals[i]? = some l → l.slot = i ∧
    ∃ entry, s.vars[l.var]? = some entry ∧ entry.var.slot = some i

/-- A variable is stored if it needs a slot. -/
theorem store_cases (h : s.vars[id]? = some entry) :
    entry.var.stored? = none ∧ s.store id = s ∨
    ∃ type, entry.var.stored? = some type ∧
      s.store id = { s with
        vars := s.vars.modify id (OwnedVar.withSlot · (some s.locals.size))
        locals := s.locals.push ⟨s.locals.size, id, type⟩ } := by
  rw [store, h, Option.bind_some]
  cases hstored : entry.var.stored? with
  | none => exact .inl ⟨rfl, rfl⟩
  | some type => exact .inr ⟨type, rfl, rfl⟩

/-- A variable without a slot is stored, and no other is touched. -/
theorem Slotted.store (hs : s.Slotted) (h : s.vars[id]? = some entry)
    (hnone : entry.var.slot = none) :
    (s.store id).Slotted ∧ (∃ slot, (slot.isSome ↔ entry.var.stored?.isSome) ∧
      (s.store id).vars[id]? = some (entry.withSlot slot)) ∧
      ∀ x ≠ id, (s.store id).vars[x]? = s.vars[x]? := by
  rcases store_cases h with ⟨hstored, heq⟩ | ⟨type, hstored, heq⟩
  · rw [heq, hstored]
    refine ⟨hs, ⟨none, Iff.rfl, ?_⟩, fun _ _ => rfl⟩
    rw [h, OwnedVar.withSlot, ← hnone]
  have hself : (s.store id).vars[id]? = some (entry.withSlot (some s.locals.size)) := by
    rw [heq, Array.getElem?_modify, if_pos rfl, h]
    rfl
  have hother : ∀ x ≠ id, (s.store id).vars[x]? = s.vars[x]? := fun x hx => by
    rw [heq, Array.getElem?_modify, if_neg hx.symm]
  have hlocals : (s.store id).locals = s.locals.push ⟨s.locals.size, id, type⟩ := by rw [heq]
  have hkept : ∀ {i l}, s.locals[i]? = some l → (s.store id).locals[i]? = some l := fun {i l} hl => by
    have hlt := (Array.getElem?_eq_some_iff.1 hl).1
    rw [hlocals, Array.getElem?_push, if_neg hlt.ne, hl]
  refine ⟨⟨fun {x e i} hx hi => ?_, fun {i l} hl => ?_⟩, ⟨_, by rw [hstored]; rfl, hself⟩, hother⟩
  · by_cases heq : x = id
    · subst heq
      rw [hself] at hx
      cases hx
      cases hi
      exact ⟨type, hstored, by rw [hlocals, Array.getElem?_push_size]⟩
    · rw [hother x heq] at hx
      obtain ⟨type, htype, hl⟩ := hs.slot hx hi
      exact ⟨type, htype, hkept hl⟩
  · rw [hlocals, Array.getElem?_push] at hl
    split at hl
    · next hi =>
      cases hl
      exact ⟨hi.symm, _, hself, by rw [hi]; rfl⟩
    · obtain ⟨hslot, e, he, hei⟩ := hs.stored hl
      refine ⟨hslot, e, ?_, hei⟩
      rw [hother _ fun hid => ?_, he]
      -- The variable just stored had no slot.
      rw [hid, h] at he
      cases he
      rw [hnone] at hei
      cases hei

theorem Slotted.store_all {ids : List VarId} (hs : s.Slotted) (hnodup : ids.Nodup)
    (hnone : ∀ id ∈ ids, ∃ entry, s.vars[id]? = some entry ∧ entry.var.slot = none) :
    (ids.foldl Scope.store s).Slotted ∧ ∀ x entry, (ids.foldl Scope.store s).vars[x]? = some entry →
      ∃ old, s.vars[x]? = some old ∧ (x ∉ ids → entry = old) ∧
        (x ∈ ids → ∃ slot, (slot.isSome ↔ old.var.stored?.isSome) ∧ entry = old.withSlot slot) := by
  induction ids generalizing s with
  | nil => exact ⟨hs, fun x entry hx => ⟨entry, hx, fun _ => rfl, fun h => nomatch h⟩⟩
  | cons id ids ih =>
    obtain ⟨hid, hnodup⟩ := nodup_cons.1 hnodup
    obtain ⟨entry, hentry, hslot⟩ := hnone id mem_cons_self
    obtain ⟨hs₁, ⟨slot, hsome, hself⟩, hother⟩ := hs.store hentry hslot
    obtain ⟨hs', hafter⟩ := ih hs₁ hnodup fun x hx => by
      rw [hother x (ne_of_mem_of_not_mem hx hid)]
      exact hnone x (mem_cons_of_mem _ hx)
    refine ⟨hs', fun x e hx => ?_⟩
    obtain ⟨old, hold, hout, hin⟩ := hafter x e hx
    by_cases heq : x = id
    · subst heq
      rw [hself] at hold
      cases hold
      exact ⟨entry, hentry, fun h => absurd mem_cons_self h, fun _ => ⟨slot, hsome, hout hid⟩⟩
    · rw [hother x heq] at hold
      exact ⟨old, hold, fun h => hout fun hx => h (mem_cons_of_mem _ hx),
        fun h => hin ((mem_cons.1 h).resolve_left heq)⟩

theorem owner_store (s : Scope) (id x : VarId) : (s.store id).owner x = s.owner x := by
  unfold store
  split
  · rfl
  · rw [owner, owner, entry, entry, Array.getElem?_modify]
    by_cases heq : id = x
    · rw [if_pos heq]
      cases s.vars[x]? <;> rfl
    · rw [if_neg heq]

/-- What storing one variable leaves as it is, storing many does. -/
theorem store_all_keeps {α : Type} (f : Scope → α) (h : ∀ s id, f (s.store id) = f s) (s : Scope)
    (ids : List VarId) : f (ids.foldl store s) = f s := by
  induction ids generalizing s with
  | nil => rfl
  | cons id ids ih => exact (ih _).trans (h s id)

theorem owner_store_all (s : Scope) (ids : List VarId) (x : VarId) :
    (ids.foldl store s).owner x = s.owner x :=
  store_all_keeps (·.owner x) (fun s id => owner_store s id x) s ids

theorem nextContext_store_all (s : Scope) (ids : List VarId) :
    (ids.foldl store s).nextContext = s.nextContext := by
  refine store_all_keeps nextContext (fun s id => ?_) s ids
  unfold store
  split <;> rfl

theorem size_store_all (s : Scope) (ids : List VarId) :
    (ids.foldl store s).vars.size = s.vars.size := by
  refine store_all_keeps (·.vars.size) (fun s id => ?_) s ids
  unfold store
  split
  · rfl
  · exact Array.size_modify

theorem functions_store_all (s : Scope) (ids : List VarId) :
    (ids.foldl store s).functions = s.functions := by
  refine store_all_keeps functions (fun s id => ?_) s ids
  unfold store
  split <;> rfl

theorem size_pop (s : Scope) : s.pop.vars.size = s.vars.size := by
  unfold pop
  split
  · rfl
  · exact size_store_all _ _

theorem functions_pop (s : Scope) : s.pop.functions = s.functions := by
  unfold pop
  split
  · rfl
  · exact functions_store_all _ _

/-! ## Contexts -/

/-- The contexts that are open, innermost first. -/
def openIds (s : Scope) : List ContextId :=
  s.contexts.map Context.id

/-- Contexts, variables and slots are in order.  The context `root` stays open and owns nothing. -/
structure Tidy (root : ContextId) (s : Scope) : Prop extends s.Slotted where
  root_lt : root < s.nextContext
  nodup : s.openIds.Nodup
  below : ∀ k ∈ s.openIds, k < s.nextContext
  owners : ∀ {id : VarId} {entry : OwnedVar}, s.vars[id]? = some entry →
    entry.owner < s.nextContext ∧ entry.owner ≠ root
  known : ∀ {c : Context} {id : VarId}, c ∈ s.contexts → id ∈ c.known → s.owner id = .ok c.id
  owned : ∀ {c : Context} {id : VarId}, c ∈ s.contexts → id ∈ c.owned → s.owner id = .ok c.id
  once : ∀ {c : Context}, c ∈ s.contexts → c.owned.Nodup
  /-- What an open context owns is still without a slot. -/
  pending : ∀ {c : Context} {id : VarId} {entry : OwnedVar}, c ∈ s.contexts →
    s.vars[id]? = some entry → entry.owner = c.id → id ∈ c.owned ∧ entry.var.slot = none
  /-- What a closed context owned has a slot if it needs one. -/
  done : ∀ {id : VarId} {entry : OwnedVar}, s.vars[id]? = some entry → entry.owner ∉ s.openIds →
    entry.var.stored?.isSome → entry.var.slot.isSome

/-- A variable of an open context. -/
def IsOpen (s : Scope) (id : VarId) : Prop :=
  ∃ k ∈ s.openIds, s.owner id = .ok k

/-- Only the owner gets the variable. -/
theorem addOwned_eq_map {cs : List Context} (h : (cs.map Context.id).Nodup) :
    addOwned owner id cs = cs.map (Context.own owner id) := by
  induction cs with
  | nil => rfl
  | cons c cs ih =>
    obtain ⟨hc, hcs⟩ := nodup_cons.1 h
    rw [addOwned, map_cons]
    by_cases heq : c.id = owner
    · have hrest : cs.map (Context.own owner id) = cs := by
        refine (map_congr_left fun d hd => ?_).trans (map_id _)
        exact if_neg fun hd' => hc (by rw [heq, ← hd']; exact mem_map_of_mem hd)
      rw [if_pos heq, hrest, Context.own, if_pos heq]
    · rw [if_neg heq, ih hcs, Context.own, if_neg heq]

section

variable (s : Scope) (name : Option String) (span : Span) (owner : ContextId)

theorem contexts_newVar :
    (s.newVar name span owner).2.contexts = addOwned owner s.vars.size s.contexts := by
  unfold newVar
  split
  · next h => simp only [contexts, addOwned, if_pos h]
  · next h => simp only [contexts, addOwned, if_neg h]

theorem vars_newVar : (s.newVar name span owner).2.vars = s.vars.push ⟨.new name span, owner⟩ := by
  unfold newVar
  split <;> rfl

theorem locals_newVar : (s.newVar name span owner).2.locals = s.locals := by
  unfold newVar
  split <;> rfl

theorem nextContext_newVar : (s.newVar name span owner).2.nextContext = s.nextContext := by
  unfold newVar
  split <;> rfl

theorem functions_newVar : (s.newVar name span owner).2.functions = s.functions := by
  unfold newVar
  split <;> rfl

theorem owner_newVar_self : (s.newVar name span owner).2.owner s.vars.size = .ok owner :=
  owner_eq_ok_iff.2 ⟨_, by rw [vars_newVar, Array.getElem?_push_size], rfl⟩

end

theorem owner_of_mem (h : s.vars[id]? = some entry) : s.owner id = .ok entry.owner :=
  owner_eq_ok_iff.2 ⟨entry, h, rfl⟩

/-- The entries of a table with a new variable. -/
theorem entry_newVar {name : Option String} {span : Span}
    (h : (s.newVar name span owner).2.vars[id]? = some entry) :
    s.vars[id]? = some entry ∨ id = s.vars.size ∧ entry = ⟨.new name span, owner⟩ := by
  rw [vars_newVar, Array.getElem?_push] at h
  split at h
  · next hid => exact .inr ⟨hid, (Option.some.inj h).symm⟩
  · exact .inl h

theorem owner_newVar (h : s.owner id = .ok k) (name : Option String) (span : Span)
    (owner : ContextId) : (s.newVar name span owner).2.owner id = .ok k := by
  obtain ⟨entry, hentry, hk⟩ := owner_eq_ok_iff.1 h
  refine owner_eq_ok_iff.2 ⟨entry, ?_, hk⟩
  rw [vars_newVar, Array.getElem?_push, if_neg (Array.getElem?_eq_some_iff.1 hentry).1.ne, hentry]

namespace Tidy

variable {root : ContextId}

section

variable (h : Tidy root s)

include h

theorem contexts_newVar (name : Option String) (span : Span) (owner : ContextId) :
    (s.newVar name span owner).2.contexts = s.contexts.map (Context.own owner s.vars.size) :=
  (Scope.contexts_newVar s name span owner).trans (addOwned_eq_map h.nodup)

theorem openIds_newVar (name : Option String) (span : Span) (owner : ContextId) :
    (s.newVar name span owner).2.openIds = s.openIds := by
  rw [openIds, h.contexts_newVar, map_map]
  exact map_congr_left fun c _ => c.own_id owner _

/-- Nobody owns a variable that does not exist. -/
theorem not_mem_owned {c : Context} (hc : c ∈ s.contexts) : s.vars.size ∉ c.owned := by
  intro hmem
  obtain ⟨entry, hentry, -⟩ := owner_eq_ok_iff.1 (h.owned hc hmem)
  exact absurd (Array.getElem?_eq_some_iff.1 hentry).1 (Nat.lt_irrefl _)

/-- A new variable of an open context. -/
theorem newVar (name : Option String) (span : Span) (hopen : owner ∈ s.openIds) (hroot : owner ≠ root) :
    Tidy root (s.newVar name span owner).2 where
  slot := fun {id entry i} hentry hi => by
    rw [locals_newVar]
    rcases entry_newVar hentry with hentry | ⟨-, rfl⟩
    · exact h.slot hentry hi
    · cases hi
  stored := fun {i l} hl => by
    rw [locals_newVar] at hl
    obtain ⟨hslot, entry, hentry, hi⟩ := h.stored hl
    refine ⟨hslot, entry, ?_, hi⟩
    rw [vars_newVar, Array.getElem?_push, if_neg (Array.getElem?_eq_some_iff.1 hentry).1.ne, hentry]
  root_lt := by
    rw [nextContext_newVar]
    exact h.root_lt
  nodup := by
    rw [h.openIds_newVar]
    exact h.nodup
  below := by
    rw [h.openIds_newVar, nextContext_newVar]
    exact h.below
  owners := fun {id entry} hentry => by
    rw [nextContext_newVar]
    rcases entry_newVar hentry with hentry | ⟨-, rfl⟩
    · exact h.owners hentry
    · exact ⟨h.below owner hopen, hroot⟩
  known := fun {c id} hc hid => by
    rw [h.contexts_newVar] at hc
    obtain ⟨c, hmem, rfl⟩ := mem_map.1 hc
    rw [Context.own_known] at hid
    rw [Context.own_id]
    exact owner_newVar (h.known hmem hid) name span owner
  owned := fun {c id} hc hid => by
    rw [h.contexts_newVar] at hc
    obtain ⟨c, hmem, rfl⟩ := mem_map.1 hc
    rw [Context.own_id]
    unfold Context.own at hid
    split at hid
    · next heq =>
      rcases mem_cons.1 hid with rfl | hid
      · rw [heq]
        exact owner_newVar_self s name span owner
      · exact owner_newVar (h.owned hmem hid) name span owner
    · exact owner_newVar (h.owned hmem hid) name span owner
  once := fun {c} hc => by
    rw [h.contexts_newVar] at hc
    obtain ⟨c, hmem, rfl⟩ := mem_map.1 hc
    unfold Context.own
    split
    · exact nodup_cons.2 ⟨h.not_mem_owned hmem, h.once hmem⟩
    · exact h.once hmem
  pending := fun {c id entry} hc hentry howner => by
    rw [h.contexts_newVar] at hc
    obtain ⟨c, hmem, rfl⟩ := mem_map.1 hc
    rw [Context.own_id] at howner
    unfold Context.own
    rcases entry_newVar hentry with hentry | ⟨rfl, rfl⟩
    · obtain ⟨hin, hnone⟩ := h.pending hmem hentry howner
      split
      · exact ⟨mem_cons_of_mem _ hin, hnone⟩
      · exact ⟨hin, hnone⟩
    · rw [if_pos howner.symm]
      exact ⟨mem_cons_self, rfl⟩
  done := fun {id entry} hentry hclosed hneeded => by
    rw [h.openIds_newVar] at hclosed
    rcases entry_newVar hentry with hentry | ⟨-, rfl⟩
    · exact h.done hentry hclosed hneeded
    · exact absurd hopen hclosed

/-- A variable of an open context is changed, but for its slot. -/
theorem modifyVar (hopen : s.IsOpen id) {f : Var → Var}
    (hkeeps : ∀ {entry : OwnedVar}, s.vars[id]? = some entry → entry.var.Keeps (f entry.var)) :
    Tidy root (s.modifyVar id f) := by
  obtain ⟨k, hk, howner⟩ := hopen
  obtain ⟨c, hc, rfl⟩ := mem_map.1 hk
  -- Each entry is an old one, or the old one of the changed variable, which has no slot.
  have hentries : ∀ {x entry}, (s.modifyVar id f).vars[x]? = some entry → s.vars[x]? = some entry ∨
      ∃ old, x = id ∧ s.vars[x]? = some old ∧ entry = { old with var := f old.var } ∧
        old.owner = c.id ∧ old.var.slot = none := by
    intro x entry hx
    rw [Scope.modifyVar, Array.getElem?_modify] at hx
    split at hx
    · next heq =>
      obtain ⟨old, hold, rfl⟩ := Option.map_eq_some_iff.1 hx
      subst heq
      rw [owner_of_mem hold] at howner
      have hid := Except.ok.inj howner
      exact .inr ⟨old, rfl, hold, rfl, hid, (h.pending hc hold hid).2⟩
    · exact .inl hx
  exact {
    slot := fun {x entry i} hx hi => by
      rcases hentries hx with hx | ⟨old, rfl, hold, rfl, -, hnone⟩
      · exact h.slot hx hi
      · rw [(hkeeps hold).slot, hnone] at hi
        cases hi
    stored := fun {i l} hl => by
      obtain ⟨hl, entry, hentry, hi⟩ := h.stored hl
      refine ⟨hl, ?_⟩
      rw [Scope.modifyVar, Array.getElem?_modify, hentry]
      split
      · next heq => exact ⟨_, rfl, (hkeeps (heq ▸ hentry)).slot.trans hi⟩
      · exact ⟨entry, rfl, hi⟩
    root_lt := h.root_lt
    nodup := h.nodup
    below := h.below
    owners := fun {x entry} hx => by
      rcases hentries hx with hx | ⟨old, -, hold, rfl, -⟩
      · exact h.owners hx
      · have howners := h.owners hold
        exact howners
    known := fun hc hid => owner_modifyVar (h.known hc hid) f
    owned := fun hc hid => owner_modifyVar (h.owned hc hid) f
    once := h.once
    pending := fun {d x entry} hd hx howner => by
      rcases hentries hx with hx | ⟨old, rfl, hold, rfl, -, hnone⟩
      · exact h.pending hd hx howner
      · exact ⟨(h.pending hd hold howner).1, (hkeeps hold).slot.trans hnone⟩
    done := fun {x entry} hx hclosed hneeded => by
      rcases hentries hx with hx | ⟨old, -, hx, rfl, hold, -⟩
      · exact h.done hx hclosed hneeded
      · exact absurd (hold ▸ hk) hclosed }

/-- Names and loops of the current context may be added. -/
theorem know {c : Context} (hid : c.id = s.current.id) (howned : c.owned = s.current.owned)
    (hknown : ∀ x ∈ c.known, x ∈ s.current.known ∨ s.owner x = .ok c.id) (n : LoopId) :
    Tidy root { s with current := c, nextLoop := n } := by
  have hids : openIds { s with current := c, nextLoop := n } = s.openIds :=
    congrArg (· :: s.outer.map Context.id) hid
  have hcurrent : s.current ∈ s.contexts := mem_cons_self
  have houter : ∀ {d}, d ∈ s.outer → d ∈ s.contexts := mem_cons_of_mem _
  exact {
    slot := h.slot
    stored := h.stored
    root_lt := h.root_lt
    nodup := hids ▸ h.nodup
    below := hids ▸ h.below
    owners := h.owners
    known := fun {d x} hd hx => by
      rcases mem_cons.1 hd with rfl | hd
      · rcases hknown x hx with hx | hx
        · rw [hid]
          exact h.known hcurrent hx
        · exact hx
      · exact h.known (houter hd) hx
    owned := fun {d x} hd hx => by
      rcases mem_cons.1 hd with rfl | hd
      · rw [hid]
        exact h.owned hcurrent (howned ▸ hx)
      · exact h.owned (houter hd) hx
    once := fun {d} hd => by
      rcases mem_cons.1 hd with rfl | hd
      · exact howned ▸ h.once hcurrent
      · exact h.once (houter hd)
    pending := fun {d x entry} hd hx howner => by
      rcases mem_cons.1 hd with rfl | hd
      · rw [howned]
        exact h.pending hcurrent hx (howner.trans hid)
      · exact h.pending (houter hd) hx howner
    done := fun hx hclosed => h.done hx (hids ▸ hclosed) }

theorem push : Tidy root s.push where
  slot := h.slot
  stored := h.stored
  root_lt := Nat.lt_succ_of_lt h.root_lt
  nodup := nodup_cons.2 ⟨fun hmem => Nat.lt_irrefl _ (h.below _ hmem), h.nodup⟩
  below := by
    rintro k (_ | ⟨_, hk⟩)
    · exact Nat.lt_succ_self _
    · exact Nat.lt_succ_of_lt (h.below k hk)
  owners := fun hx => ⟨Nat.lt_succ_of_lt (h.owners hx).1, (h.owners hx).2⟩
  known := by
    rintro c id (_ | ⟨_, hc⟩) hid
    · cases hid
    · exact h.known hc hid
  owned := by
    rintro c id (_ | ⟨_, hc⟩) hid
    · cases hid
    · exact h.owned hc hid
  once := by
    rintro c (_ | ⟨_, hc⟩)
    · exact nodup_nil
    · exact h.once hc
  pending := by
    rintro c id entry (_ | ⟨_, hc⟩) hx howner
    · exact absurd howner (h.owners hx).1.ne
    · exact h.pending hc hx howner
  done := fun hx hclosed => h.done hx fun hmem => hclosed (mem_cons_of_mem _ hmem)

/-- The current context is closed and its variables are stored. -/
theorem pop : Tidy root s.pop := by
  rw [Scope.pop]
  cases houter : s.outer with
  | nil => exact h
  | cons parent outer =>
    have hcurrent : s.current ∈ s.contexts := mem_cons_self
    have hrest : ∀ {d}, d ∈ parent :: outer → d ∈ s.contexts := fun hd =>
      mem_cons_of_mem _ (houter ▸ hd)
    have hids : s.openIds = s.current.id :: (parent :: outer).map Context.id := by
      rw [openIds, contexts, houter, map_cons]
    obtain ⟨hne, hnodup⟩ := nodup_cons.1 (hids ▸ h.nodup)
    obtain ⟨hslotted, hentries⟩ := h.toSlotted.store_all
      (nodup_reverse.2 (h.once hcurrent)) fun id hid => by
        obtain ⟨entry, hentry, howner⟩ := owner_eq_ok_iff.1 (h.owned hcurrent (mem_reverse.1 hid))
        exact ⟨entry, hentry, (h.pending hcurrent hentry howner).2⟩
    -- Only variables of the context that is closed get slots.
    have hvars : ∀ {id : VarId} {entry : OwnedVar},
        (s.current.owned.reverse.foldl store s).vars[id]? = some entry →
        ∃ (old : OwnedVar) (slot : Option Nat), s.vars[id]? = some old ∧ entry = old.withSlot slot ∧
          (old.owner = s.current.id → old.var.stored?.isSome → slot.isSome) ∧
          (old.owner ≠ s.current.id → slot = old.var.slot) := by
      intro id entry hentry
      obtain ⟨old, hold, hout, hin⟩ := hentries id entry hentry
      by_cases howner : old.owner = s.current.id
      · have hmem := mem_reverse.2 (h.pending hcurrent hold howner).1
        obtain ⟨slot, hslot, rfl⟩ := hin hmem
        exact ⟨old, slot, hold, rfl, fun _ => hslot.2, fun hne => absurd howner hne⟩
      · have hmem : id ∉ s.current.owned.reverse := fun hmem => by
          have heq := h.owned hcurrent (mem_reverse.1 hmem)
          rw [owner_of_mem hold] at heq
          exact howner (Except.ok.inj heq)
        exact ⟨old, _, hold, hout hmem, fun heq => absurd heq howner, fun _ => rfl⟩
    exact {
      slot := hslotted.slot
      stored := hslotted.stored
      root_lt := by
        rw [nextContext_store_all]
        exact h.root_lt
      nodup := hnodup
      below := fun k hk => by
        rw [nextContext_store_all]
        exact h.below k (hids ▸ mem_cons_of_mem _ hk)
      owners := fun hentry => by
        obtain ⟨old, slot, hold, rfl, -⟩ := hvars hentry
        rw [nextContext_store_all]
        have howners := h.owners hold
        exact howners
      known := fun hd hid => (owner_store_all s _ _).trans (h.known (hrest hd) hid)
      owned := fun hd hid => (owner_store_all s _ _).trans (h.owned (hrest hd) hid)
      once := fun hd => h.once (hrest hd)
      pending := fun {d id entry} hd hentry howner => by
        obtain ⟨old, slot, hold, rfl, -, hother⟩ := hvars hentry
        obtain ⟨hmem, hnone⟩ := h.pending (hrest hd) hold howner
        refine ⟨hmem, (hother fun heq => ?_).trans hnone⟩
        exact hne (heq ▸ howner ▸ mem_map_of_mem hd)
      done := fun {id entry} hentry hclosed hneeded => by
        obtain ⟨old, slot, hold, rfl, hself, hother⟩ := hvars hentry
        by_cases howner : old.owner = s.current.id
        · exact hself howner hneeded
        · have hdone : old.var.slot.isSome := h.done hold (by
            rw [hids, mem_cons, not_or]
            exact ⟨howner, hclosed⟩) hneeded
          rw [hother howner]
          exact hdone }

/-- What names and loops stand for belongs to an open context. -/
theorem isOpen (hid : s.InScope id) : s.IsOpen id := by
  obtain ⟨c, hc, hid⟩ := hid
  exact ⟨c.id, mem_map_of_mem hc, h.known hc hid⟩

/-- The root owns nothing. -/
theorem ne_root (hk : s.owner id = .ok k) : k ≠ root := by
  obtain ⟨entry, hentry, rfl⟩ := owner_eq_ok_iff.1 hk
  exact (h.owners hentry).2

theorem owner_newVar_current (name : Option String) (span : Span) :
    (s.newVar name span s.current.id).2.owner (s.newVar name span s.current.id).1 =
      .ok (s.newVar name span s.current.id).2.current.id := by
  have hids := h.openIds_newVar name span s.current.id
  rw [newVar_fst, owner_newVar_self]
  exact congrArg _ (cons_eq_cons.1 hids).1.symm

theorem declare (hcurrent : s.current.id ≠ root) (name : String) (span : Span) :
    Tidy root (s.declare name span) ∧ (s.declare name span).openIds = s.openIds := by
  have hids := h.openIds_newVar (some name) span s.current.id
  refine ⟨?_, hids⟩
  have hnew := h.newVar (some name) span (mem_cons_self : s.current.id ∈ s.openIds) hcurrent
  have hself := h.owner_newVar_current (some name) span
  unfold Scope.declare
  generalize s.newVar (some name) span s.current.id = new at hnew hself ⊢
  obtain ⟨id, s₁⟩ := new
  refine hnew.know (c := { s₁.current with names := (name, id) :: s₁.current.names }) rfl rfl
    (fun x hx => ?_) s₁.nextLoop
  rcases mem_cons.1 hx with rfl | hx
  · exact .inr hself
  · exact .inl hx

theorem newLoop (hcurrent : s.current.id ≠ root) (label : Option String) (span : Span) :
    Tidy root (s.newLoop label span).2 ∧ (s.newLoop label span).2.openIds = s.openIds := by
  have hids := h.openIds_newVar none span s.current.id
  refine ⟨?_, hids⟩
  have hnew := h.newVar none span (mem_cons_self : s.current.id ∈ s.openIds) hcurrent
  have hself := h.owner_newVar_current none span
  unfold Scope.newLoop newHiddenLoop
  generalize s.newVar none span s.current.id = new at hnew hself ⊢
  obtain ⟨id, s₁⟩ := new
  refine hnew.know (c := { s₁.current with loops := (label, ⟨s₁.nextLoop, id⟩) :: s₁.current.loops })
    rfl rfl (fun x hx => ?_) (s₁.nextLoop + 1)
  rcases mem_append.1 hx with hx | hx
  · exact .inl (mem_append_left _ hx)
  · rcases mem_cons.1 hx with rfl | hx
    · exact .inr hself
    · exact .inl (mem_append_right _ hx)

end

end Tidy

variable {root : ContextId}

theorem Edits.tidy {allowed : VarId → Prop} (h : Edits allowed s s') (ht : Tidy root s)
    (hcurrent : s.current.id ≠ root) (hallowed : ∀ id, allowed id → s.IsOpen id) :
    Tidy root s' ∧ s'.openIds = s.openIds := by
  induction h with
  | refl _ s => exact ⟨ht, rfl⟩
  | @temp _ s _ span owner howner _ ih =>
    have hopen : owner.getD s.current.id ∈ s.openIds ∧ owner.getD s.current.id ≠ root := by
      cases owner with
      | none => exact ⟨mem_cons_self, hcurrent⟩
      | some k =>
        obtain ⟨id, hid, hk⟩ := howner k rfl
        obtain ⟨k', hk', heq⟩ := hallowed id hid
        rw [hk] at heq
        cases heq
        exact ⟨hk', ht.ne_root hk⟩
    have hnew := ht.newVar none span hopen.1 hopen.2
    have hids := ht.openIds_newVar none span (owner.getD s.current.id)
    have hid := (cons_eq_cons.1 hids).1
    refine (ih hnew (hid ▸ hcurrent) fun id hid => ?_).imp_right (·.trans hids)
    rw [IsOpen, show openIds (s.newTemp span owner).2 = s.openIds from hids]
    rcases hid with hid | rfl
    · obtain ⟨k, hk, howner⟩ := hallowed id hid
      exact ⟨k, hk, owner_newTemp howner span owner⟩
    · exact ⟨_, hopen.1, owner_newVar_self s none span _⟩
  | change hid hkeeps _ ih =>
    refine ih (ht.modifyVar (hallowed _ hid) hkeeps) hcurrent fun x hx => ?_
    obtain ⟨k, hk, howner⟩ := hallowed x hx
    exact ⟨k, hk, owner_modifyVar howner _⟩

theorem openIds_pop {k' : ContextId} {ids : List ContextId} (h : s.openIds = k :: k' :: ids) :
    s.pop.openIds = k' :: ids := by
  rw [openIds, contexts, map_cons, cons_eq_cons] at h
  rw [pop]
  cases houter : s.outer with
  | nil =>
    rw [houter] at h
    cases h.2
  | cons parent outer =>
    rw [houter] at h
    exact h.2

/-- Lowering keeps things tidy, and the contexts that were open stay open. -/
theorem Trace.tidy {binds : Bool} (h : Trace binds s s') (ht : Tidy root s)
    (hcurrent : s.current.id ≠ root) : Tidy root s' ∧ s'.openIds = s.openIds := by
  have hhead : ∀ {t t' : Scope}, t'.openIds = t.openIds → t'.current.id = t.current.id :=
    fun h => (cons_eq_cons.1 h).1
  induction h with
  | refl _ s => exact ⟨ht, rfl⟩
  | edit h _ ih =>
    obtain ⟨ht₁, hids⟩ := h.tidy ht hcurrent fun id => ht.isOpen
    exact (ih ht₁ (hhead hids ▸ hcurrent)).imp_right (·.trans hids)
  | declare name span _ ih =>
    obtain ⟨ht₁, hids⟩ := ht.declare hcurrent name span
    exact (ih ht₁ (hhead hids ▸ hcurrent)).imp_right (·.trans hids)
  | loop label span _ ih =>
    obtain ⟨ht₁, hids⟩ := ht.newLoop hcurrent label span
    exact (ih ht₁ (hhead hids ▸ hcurrent)).imp_right (·.trans hids)
  | context h _ ihIn ih =>
    obtain ⟨ht₁, hids⟩ := ihIn ht.push ht.root_lt.ne'
    have hpop := openIds_pop hids
    exact (ih ht₁.pop (hhead hpop ▸ hcurrent)).imp_right (·.trans hpop)

/-! ## Between functions -/

/-- No function is being lowered. -/
structure Idle (s : Scope) : Prop where
  contexts : s.contexts = [.new s.current.id]
  below : s.current.id < s.nextContext
  vars : s.vars = #[]
  locals : s.locals = #[]

theorem initial_idle : Scope.initial.Idle :=
  ⟨rfl, Nat.zero_lt_one, rfl, rfl⟩

theorem Idle.setFunctions (h : s.Idle) (fs : List (String × Signature)) :
    Idle { s with functions := fs } :=
  ⟨h.contexts, h.below, h.vars, h.locals⟩

theorem Idle.tidy (h : s.Idle) : Tidy s.current.id s where
  slot := fun hentry => by simp [h.vars] at hentry
  stored := fun hl => by simp [h.locals] at hl
  root_lt := h.below
  nodup := by simp [openIds, h.contexts]
  below := by simpa [openIds, h.contexts, Context.new] using h.below
  owners := fun hentry => by simp [h.vars] at hentry
  known := fun hc hid => by
    rw [h.contexts, mem_singleton] at hc
    subst hc
    cases hid
  owned := fun hc hid => by
    rw [h.contexts, mem_singleton] at hc
    subst hc
    cases hid
  once := fun hc => by
    rw [h.contexts, mem_singleton] at hc
    subst hc
    exact nodup_nil
  pending := fun _ hentry => by simp [h.vars] at hentry
  done := fun hentry => by simp [h.vars] at hentry

/-- What is left when only the root is open. -/
theorem Tidy.drain (h : Tidy root s) (hids : s.openIds = [root]) : s.drain.Idle where
  contexts := by
    obtain ⟨-, houter⟩ := cons_eq_cons.1 hids
    rw [map_eq_nil_iff] at houter
    simp [Scope.contexts, Scope.drain, houter, Context.new]
  below := h.below _ mem_cons_self
  vars := rfl
  locals := rfl

end Scope

end SlotCode
