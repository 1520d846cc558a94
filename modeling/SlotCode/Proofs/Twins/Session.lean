import SlotCode.Proofs.Lowering.Slots
import SlotCode.Proofs.Twins.Renumbering
import SlotCode.Proofs.Types.Renamed

/-!
# Sessions that work alike

A session is the *twin* of another one if it knows the same under other numbers (`Session.Twins`).  It
may know more: its type graph may have other nodes, and it may have other functions, besides the ones
with the given names.  A step that is taken in two such sessions ends in the same way in both
(`InStep`), with sessions that are twins again.
-/

namespace SlotCode

open List Lower

variable {name : String} {span : Span} {id : VarId}

/-! ## Firm sessions -/

/-- The scope mentions types and variables that are there. -/
structure Scope.Firm (g : TypeGraph) (s : Scope) : Prop where
  vars : ∀ {id : VarId} {entry : OwnedVar}, s.vars[id]? = some entry →
    ∀ type ∈ entry.var.type, g.IsValue type
  locals : ∀ l ∈ s.locals, g.IsValue l.type
  known : ∀ {c : Context} {id : VarId}, c ∈ s.contexts → id ∈ c.known → id < s.vars.size
  functions : ∀ {name : String} {sig : Signature}, s.functions.lookup name = some sig →
    sig.type < g.size
  contexts : 0 < s.nextContext

theorem Scope.known_addOwned {owner : ContextId} {x : VarId} {cs : List Context} {c : Context}
    (hc : c ∈ Scope.addOwned owner id cs) (hx : x ∈ c.known) : ∃ d ∈ cs, x ∈ d.known := by
  induction cs with
  | nil => cases hc
  | cons d cs ih =>
    unfold Scope.addOwned at hc
    split at hc
    · rcases mem_cons.1 hc with rfl | hc
      · exact ⟨d, mem_cons_self, hx⟩
      · exact ⟨c, mem_cons_of_mem _ hc, hx⟩
    · rcases mem_cons.1 hc with rfl | hc
      · exact ⟨c, mem_cons_self, hx⟩
      · obtain ⟨e, he, hx⟩ := ih hc
        exact ⟨e, mem_cons_of_mem _ he, hx⟩

namespace Scope.Firm

variable {g g' : TypeGraph} {s : Scope}

section

variable (h : s.Firm g)

include h

theorem extend (hext : g.Extends g') : s.Firm g' where
  vars := fun hentry type htype => (h.vars hentry type htype).extend hext
  locals := fun l hl => (h.locals l hl).extend hext
  known := h.known
  functions := fun hsig => hext.lt_size (h.functions hsig)
  contexts := h.contexts

theorem push : s.push.Firm g where
  vars := h.vars
  locals := h.locals
  known := by
    rintro c id (_ | ⟨_, hc⟩) hid
    · cases hid
    · exact h.known hc hid
  functions := h.functions
  contexts := Nat.succ_pos _

theorem store (id : VarId) : (s.store id).Firm g := by
  unfold Scope.store
  split
  · exact h
  · next type hstored =>
    obtain ⟨entry, hentry, hstored⟩ := Option.bind_eq_some_iff.1 hstored
    have htype : entry.var.type = some type := by
      unfold Var.stored? at hstored
      split at hstored
      · exact (Option.filter_eq_some_iff.1 hstored).1
      · cases hstored
    refine ⟨fun {x e} hx => ?_, fun l hl => ?_, fun hc hid => ?_, h.functions, h.contexts⟩
    · rw [Array.getElem?_modify] at hx
      split at hx
      · obtain ⟨old, hold, rfl⟩ := Option.map_eq_some_iff.1 hx
        have hvars := h.vars hold
        exact hvars
      · exact h.vars hx
    · rcases Array.mem_push.1 hl with hl | rfl
      · exact h.locals l hl
      · exact h.vars hentry type htype
    · rw [Array.size_modify]
      exact h.known hc hid

theorem stores (ids : List VarId) : (ids.foldl Scope.store s).Firm g := by
  induction ids generalizing s with
  | nil => exact h
  | cons id ids ih => exact ih (h.store id)

theorem pop : s.pop.Firm g := by
  unfold Scope.pop
  split
  · exact h
  · next parent outer houter =>
    have hfirm := h.stores s.current.owned.reverse
    have hsize := s.size_store_all s.current.owned.reverse
    refine ⟨hfirm.vars, hfirm.locals, fun {c id} hc hid => ?_, hfirm.functions, hfirm.contexts⟩
    exact hsize ▸ h.known (mem_cons_of_mem _ (houter ▸ hc)) hid

/-- A new variable is there and has no type. -/
theorem newVar (name : Option String) (span : Span) (owner : ContextId) :
    (s.newVar name span owner).2.Firm g := by
  have hvars := s.vars_newVar name span owner
  refine ⟨fun {id entry} hentry => ?_, ?_, fun {c id} hc hid => ?_, ?_, ?_⟩
  · rcases Scope.entry_newVar hentry with hentry | ⟨-, rfl⟩
    · exact h.vars hentry
    · exact fun type htype => nomatch htype
  · rw [s.locals_newVar]
    exact h.locals
  · rw [hvars, Array.size_push]
    have hold : ∃ d ∈ s.contexts, id ∈ d.known := by
      rw [s.contexts_newVar] at hc
      exact Scope.known_addOwned hc hid
    obtain ⟨d, hd, hid⟩ := hold
    exact Nat.lt_succ_of_lt (h.known hd hid)
  · unfold Scope.newVar
    split <;> exact h.functions
  · rw [s.nextContext_newVar]
    exact h.contexts

theorem modifyVar (id : VarId) {f : Var → Var}
    (hf : ∀ v : Var, (∀ type ∈ v.type, g.IsValue type) → ∀ type ∈ (f v).type, g.IsValue type) :
    (s.modifyVar id f).Firm g := by
  refine ⟨fun {x entry} hx => ?_, h.locals, fun hc hid => ?_, h.functions, h.contexts⟩
  · rw [Scope.modifyVar, Array.getElem?_modify] at hx
    split at hx
    · obtain ⟨old, hold, rfl⟩ := Option.map_eq_some_iff.1 hx
      exact hf old.var (h.vars hold)
    · exact h.vars hx
  · rw [Scope.modifyVar, Array.size_modify]
    exact h.known hc hid

/-- Names and loops of the current context may be added. -/
theorem know {c : Context} (hknown : ∀ x ∈ c.known, x ∈ s.current.known ∨ x < s.vars.size) (n : LoopId) :
    Scope.Firm g { s with current := c, nextLoop := n } := by
  refine ⟨h.vars, h.locals, fun {d id} hd hid => ?_, h.functions, h.contexts⟩
  rcases mem_cons.1 hd with rfl | hd
  · rcases hknown id hid with hid | hid
    · exact h.known mem_cons_self hid
    · exact hid
  · exact h.known (mem_cons_of_mem _ hd) hid

/-- A name that is found stands for a variable that is there. -/
theorem lookup (hid : s.lookup name span = .ok id) : id < s.vars.size := by
  unfold Scope.lookup at hid
  split at hid
  · next found hfound =>
    cases hid
    obtain ⟨c, hc, hname⟩ := exists_of_findSome?_eq_some hfound
    refine h.known hc (mem_append_left _ ?_)
    obtain ⟨before, after, hsplit, -⟩ := lookup_eq_some_iff.1 hname
    rw [hsplit]
    exact mem_map_of_mem (mem_append_right _ mem_cons_self)
  · cases hid

theorem openLoops {l : Option String × LoopRef} (hl : l ∈ s.openLoops) : l.2.var < s.vars.size := by
  obtain ⟨c, hc, hmem⟩ := mem_flatMap.1 hl
  refine h.known hc (mem_append_right _ ?_)
  exact mem_map_of_mem (f := fun l : Option String × LoopRef => l.2.var) hmem

theorem bind {mode mode' : BindMode} {t : Scope} (hb : s.bind name span mode = .ok (id, mode', t)) :
    t.Firm g ∧ s.vars.size ≤ t.vars.size ∧ t.functions = s.functions ∧ id < t.vars.size := by
  cases mode with
  | resolve =>
    rw [Scope.bind] at hb
    cases hid : s.lookup name span with
    | error e =>
      rw [hid] at hb
      cases hb
    | ok found =>
      rw [hid] at hb
      cases hb
      exact ⟨h, Nat.le_refl _, rfl, h.lookup hid⟩
  | declare bound =>
    rw [Scope.bind] at hb
    cases hbound : bound.lookup name with
    | some previous =>
      rw [hbound] at hb
      cases hb
    | none =>
      rw [hbound] at hb
      cases hb
      have hnew := h.newVar (some name) span s.current.id
      have hsize : (s.newVar (some name) span s.current.id).2.vars.size = s.vars.size + 1 := by
        rw [s.vars_newVar, Array.size_push]
      have hid : (s.newVar (some name) span s.current.id).1 < s.vars.size + 1 := by
        rw [s.newVar_fst]
        exact Nat.lt_succ_self _
      refine ⟨hnew.know (fun x hx => ?_) _, hsize ▸ Nat.le_succ _, s.functions_newVar _ _ _, hsize ▸ hid⟩
      rcases mem_cons.1 hx with rfl | hx
      · exact .inr (hsize ▸ hid)
      · exact .inl hx

theorem newLoop (label : Option String) (span : Span) :
    (s.newLoop label span).2.Firm g ∧ s.vars.size ≤ (s.newLoop label span).2.vars.size ∧
      (s.newLoop label span).2.functions = s.functions ∧
      (s.newLoop label span).1.var < (s.newLoop label span).2.vars.size := by
  have hnew := h.newVar none span s.current.id
  have hsize : (s.newVar none span s.current.id).2.vars.size = s.vars.size + 1 := by
    rw [s.vars_newVar, Array.size_push]
  have hid : (s.newVar none span s.current.id).1 < s.vars.size + 1 := by
    rw [s.newVar_fst]
    exact Nat.lt_succ_self _
  refine ⟨hnew.know (fun x hx => ?_) _, hsize ▸ Nat.le_succ _, s.functions_newVar _ _ _, hsize ▸ hid⟩
  rcases mem_append.1 hx with hx | hx
  · exact .inl (mem_append_left _ hx)
  · rcases mem_cons.1 hx with rfl | hx
    · exact .inr (hsize ▸ hid)
    · exact .inl (mem_append_right _ hx)

end

end Scope.Firm

/-! ## Twins -/

/-- The function under other numbers. -/
def Signature.typesOf (fs : List (String × Signature)) (name : String) : Option TypeId :=
  (fs.lookup name).map Signature.type

/-- What the session `s` knows, `s'` knows under other numbers.  Of the functions only those with the
given names count. -/
structure Session.Twins (r : Renumbering) (names : List String) (s s' : Session) : Prop where
  regular : s.types.Regular
  firm : s.scope.Firm s.types
  types : s.types.Embeds r.types 0 s'.types
  scope : ∃ fs, s'.scope = s.scope.renumber r fs ∧ ∀ name ∈ names,
    Signature.typesOf fs name = (Signature.typesOf s.scope.functions name).map r.types

theorem Scope.signature_eq (s : Scope) (name : String) (span : Span) :
    s.signature name span = match Signature.typesOf s.functions name with
      | some type => .ok type
      | none => .error ⟨.undefinedFunction name, span⟩ := by
  rw [Scope.signature, Signature.typesOf]
  cases s.functions.lookup name <;> rfl

theorem Session.Twins.signature {r : Renumbering} {names : List String} {s s' : Session}
    (h : s.Twins r names s') (hname : name ∈ names) (span : Span) :
    s'.scope.signature name span = (s.scope.signature name span).map r.types := by
  obtain ⟨fs, hfs, hnames⟩ := h.scope
  have hfunctions : Signature.typesOf s'.scope.functions name =
      (Signature.typesOf s.scope.functions name).map r.types := by
    rw [hfs]
    exact hnames name hname
  rw [Scope.signature_eq, Scope.signature_eq, hfunctions]
  cases Signature.typesOf s.scope.functions name <;> rfl

theorem Scope.Firm.signature {g : TypeGraph} {scope : Scope} (h : scope.Firm g) {type : TypeId}
    (htype : scope.signature name span = .ok type) : type < g.size := by
  rw [Scope.signature] at htype
  split at htype
  · next sig hsig =>
    cases htype
    exact h.functions hsig
  · cases htype

/-- Types and variables of `s` are still there in `t`. -/
structure Session.Grows (s t : Session) : Prop where
  types : s.types.Extends t.types
  vars : s.scope.vars.size ≤ t.scope.vars.size

theorem Session.Grows.refl (s : Session) : s.Grows s :=
  ⟨.refl _, Nat.le_refl _⟩

theorem Session.Grows.trans {s t u : Session} (h : s.Grows t) (h' : t.Grows u) : s.Grows u :=
  ⟨h.types.trans h'.types, h.vars.trans h'.vars⟩

/-- Two runs out of `s` and its twin end in the same way, and in twins if they succeed. -/
def InStep (r : Renumbering) (names : List String) (s : Session) {α α' : Type}
    (V : Session → α → α' → Prop) :
    EStateM.Result (Failure LoweringError) Session α →
      EStateM.Result (Failure LoweringError) Session α' → Prop :=
  Lockstep (fun t t' => s.Grows t ∧ t.Twins r names t') V

section

variable {r : Renumbering} {names : List String} {s s' t t' : Session} {α α' β β' : Type}
  {V : Session → α → α' → Prop}

theorem InStep.grown {a : EStateM.Result (Failure LoweringError) Session α}
    {a' : EStateM.Result (Failure LoweringError) Session α'} (h : InStep r names t V a a')
    (hgrows : s.Grows t) : InStep r names s V a a' :=
  h.mono (fun _ _ ht => ⟨hgrows.trans ht.1, ht.2⟩) fun _ _ _ _ _ hv => hv

theorem InStep.bind {W : Session → β → β' → Prop} {x : Lower α} {x' : Lower α'} {f : α → Lower β}
    {f' : α' → Lower β'} (h : InStep r names s V (x s) (x' s'))
    (hf : ∀ a a' t t', s.Grows t → t.Twins r names t' → V t a a' →
      InStep r names t W (f a t) (f' a' t')) :
    InStep r names s W ((x >>= f) s) ((x' >>= f') s') :=
  Lockstep.bind h fun a a' t t' ht ha => (hf a a' t t' ht.1 ht.2 ha).grown ht.1

theorem Session.Twins.pure (h : s.Twins r names s') {a : α} {a' : α'} (ha : V s a a') :
    InStep r names s V ((pure a : Lower α) s) ((pure a' : Lower α') s') :=
  ⟨⟨.refl s, h⟩, ha⟩

/-- Both runs end with the error. -/
theorem failAt_inStep (cause : Cause) (span : Span) :
    InStep r names s V ((failAt cause span : Lower α) s)
      ((failAt cause span : Lower α') s') :=
  rfl

/-! ## Access to the session -/

theorem askTypes_bind {f : TypeGraph → Except Fault α} {k : α → Lower β} {a : α}
    (h : f s.types = .ok a) : (askTypes f >>= k) s = k a s := by
  simp only [askTypes, h, query, Bind.bind, EStateM.bind]

theorem askScope_bind {f : Scope → Except Fault α} {k : α → Lower β} {a : α}
    (h : f s.scope = .ok a) : (askScope f >>= k) s = k a s := by
  simp only [askScope, h, query, Bind.bind, EStateM.bind]

section

variable (h : s.Twins r names s')

include h

theorem report_inStep (event event' : Event) :
    InStep r names s (fun _ _ _ => True) (report event s) (report event' s') :=
  ⟨⟨⟨.refl _, Nat.le_refl _⟩, ⟨h.regular, h.firm, h.types, h.scope⟩⟩, trivial⟩

/-- Both scopes are replaced. -/
theorem Session.Twins.withScope {scope scope' : Scope} (hfirm : scope.Firm s.types)
    (hvars : s.scope.vars.size ≤ scope.vars.size) (hfunctions : scope.functions = s.scope.functions)
    (hscope : ∀ fs, s'.scope = s.scope.renumber r fs → scope' = scope.renumber r fs) :
    s.Grows { s with scope := scope } ∧
      Session.Twins r names { s with scope := scope } { s' with scope := scope' } := by
  obtain ⟨fs, hfs, hnames⟩ := h.scope
  refine ⟨⟨.refl _, hvars⟩, h.regular, hfirm, h.types, fs, hscope fs hfs, ?_⟩
  rw [hfunctions]
  exact hnames

theorem updateScope_inStep {f : Scope → α × Scope} {f' : Scope → α' × Scope} {a' : α'}
    (hfirm : (f s.scope).2.Firm s.types) (hvars : s.scope.vars.size ≤ (f s.scope).2.vars.size)
    (hfunctions : (f s.scope).2.functions = s.scope.functions)
    (hscope : ∀ fs, f' (s.scope.renumber r fs) = (a', (f s.scope).2.renumber r fs))
    (ha : V { s with scope := (f s.scope).2 } (f s.scope).1 a') :
    InStep r names s V (updateScope f s) (updateScope f' s') := by
  have hrun : updateScope f' s' = .ok a' { s' with scope := (f' s'.scope).2 } := by
    obtain ⟨fs, hfs, -⟩ := h.scope
    rw [updateScope, hfs, hscope]
  rw [hrun]
  refine ⟨h.withScope hfirm hvars hfunctions fun fs hfs => ?_, ha⟩
  rw [hfs, hscope]

/-- The search finds the same under other numbers. -/
theorem search_inStep {f : Scope → Except LoweringError α} {f' : Scope → Except LoweringError α'}
    {q : α → α'} (hf : ∀ fs, s'.scope = s.scope.renumber r fs → f' s'.scope = (f s.scope).map q)
    (ha : ∀ a, f s.scope = .ok a → V s a (q a)) :
    InStep r names s V (search f s) (search f' s') := by
  obtain ⟨fs, hfs, -⟩ := h.scope
  rw [search, search, hf fs hfs]
  cases hrun : f s.scope with
  | ok a => exact ⟨⟨.refl s, h⟩, ha a hrun⟩
  | error e => exact rfl

/-- Both type graphs have grown. -/
theorem Session.Twins.withTypes {types types' : TypeGraph} (hregular : types.Regular)
    (hext : s.types.Extends types) (hembeds : types.Embeds r.types 0 types') :
    s.Grows { s with types := types } ∧
      Session.Twins r names { s with types := types } { s' with types := types' } :=
  ⟨⟨hext, Nat.le_refl _⟩, hregular, h.firm.extend hext, hembeds, h.scope⟩

theorem updateTypes_inStep {f : TypeGraph → α × TypeGraph} {f' : TypeGraph → α' × TypeGraph}
    {ids : List TypeId} (hgrown : s.types.Grown (f s.types).2 ids)
    (hembeds : (f s.types).2.Embeds r.types 0 (f' s'.types).2)
    (ha : V { s with types := (f s.types).2 } (f s.types).1 (f' s'.types).1) :
    InStep r names s V (updateTypes f s) (updateTypes f' s') :=
  ⟨h.withTypes hgrown.regular hgrown.ext hembeds, ha⟩

theorem Session.Twins.enter : s.Grows s.enter ∧ s.enter.Twins r names s'.enter := by
  refine h.withScope h.firm.push (Nat.le_refl _) rfl fun fs hfs => ?_
  rw [hfs, Scope.push_renumber r fs s.scope h.firm.contexts]

theorem Session.Twins.exit : s.Grows s.exit ∧ s.exit.Twins r names s'.exit := by
  have hpop : s.Grows { s with scope := s.scope.pop } ∧
      Session.Twins r names { s with scope := s.scope.pop } { s' with scope := s'.scope.pop } := by
    refine h.withScope h.firm.pop (Nat.le_of_eq s.scope.size_pop.symm) s.scope.functions_pop ?_
    intro fs hfs
    rw [hfs, Scope.pop_renumber]
  exact ⟨⟨hpop.1.types, hpop.1.vars⟩, hpop.2.regular, hpop.2.firm, hpop.2.types, hpop.2.scope⟩

/-- The context is opened and closed in both sessions. -/
theorem inContext_inStep {x : Lower α} {x' : Lower α'}
    (hV : ∀ ⦃t u : Session⦄ ⦃a a'⦄, t.Grows u → V t a a' → V u a a')
    (hx : ∀ t t', s.Grows t → t.Twins r names t' → InStep r names t V (x t) (x' t')) :
    InStep r names s V (inContext x s) (inContext x' s') := by
  obtain ⟨hgrows, henter⟩ := h.enter
  rw [inContext, inContext]
  rcases (hx _ _ hgrows henter).cases with
    ⟨a, t, a', t', hrun, hrun', ⟨hgrows', ht⟩, ha⟩ | ⟨e, t, t', hrun, hrun'⟩
  · rw [hrun, hrun']
    obtain ⟨hgrows'', hexit⟩ := ht.exit
    exact ⟨⟨hgrows.trans (hgrows'.trans hgrows''), hexit⟩, hV hgrows'' ha⟩
  · rw [hrun, hrun']
    exact rfl

end

end

end SlotCode
