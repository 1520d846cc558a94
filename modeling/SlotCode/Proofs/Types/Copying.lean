import SlotCode.Proofs.Types.Searching

/-!
# Copies

How `instantiate` builds an instance, in every sound graph.  Each new node is a copy of one node that was
there.  A copy whose parts are not copied yet is *open*; all others are filled from their source.  With
nothing left open, being a copy is a relation of which one level of a filled type can be read off at every
pair.  Boxes, lists and placeholders have one copy at most.

A copy that stops leaves open copies behind.  They are `void` nodes, and the graph stays sound, and
regular if it was (`Copying.regular`): tuples are never open, so what a list holds is finished if the list
is.
-/

namespace SlotCode.TypeGraph

open List

variable {g : TypeGraph} {bindings : Bindings}

/-- `c` was made as a copy of `a`, or is `a` itself, which needs none. -/
def CopyOf (g : TypeGraph) (made : List (TypeId × TypeId)) (a c : TypeId) : Prop :=
  (a, c) ∈ made ∨ a = c ∧ ∃ kind, g.kind a = .ok kind ∧ kind.isBase = true

theorem CopyOf.mono {made made' : List (TypeId × TypeId)} (h : made ⊆ made') (a c : TypeId)
    (hac : g.CopyOf made a c) : g.CopyOf made' a c :=
  hac.imp_left fun hmem => h hmem

/-- State of a copy out of the graph `g`: the copies made so far, and those of them still open. -/
structure Copying (g : TypeGraph) (bindings : Bindings) (made : List (TypeId × TypeId))
    (opened : List TypeId) (s : Instantiation) : Prop where
  ext : g.Extends s.graph
  source : ∀ {a c : TypeId}, (a, c) ∈ made → a < g.size ∧ g.size ≤ c ∧ c < s.graph.size
  unique : ∀ {a a' c : TypeId}, (a, c) ∈ made → (a', c) ∈ made → a = a'
  covered : ∀ c, g.size ≤ c → c < s.graph.size → ∃ a, (a, c) ∈ made
  noted : ∀ {a c : TypeId}, s.copies.lookup a = some c → (a, c) ∈ made
  shared : ∀ {a c : TypeId} {kind : TypeKind}, (a, c) ∈ made → g.kind a = .ok kind →
    kind.isFunction = false → kind.items? = none → s.copies.lookup a = some c
  node : ∀ {a c : TypeId}, (a, c) ∈ made → c ∉ opened → s.graph.FilledNode bindings (g.CopyOf made) a c
  opens : ∀ c ∈ opened, s.graph.kind c = .ok .void ∧
    ∃ a kind payload, (a, c) ∈ made ∧ g.kind a = .ok kind ∧ kind.payload? = some payload

variable {made made' : List (TypeId × TypeId)} {opened : List TypeId} {s s' : Instantiation}
  {a c : TypeId} {ka : TypeKind} {span : Span}

theorem Copying.start (g : TypeGraph) (bindings : Bindings) : g.Copying bindings [] [] ⟨g, []⟩ where
  ext := .refl g
  source := fun hmem => absurd hmem not_mem_nil
  unique := fun hmem => absurd hmem not_mem_nil
  covered := fun _ hge hlt => absurd hlt (Nat.not_lt.2 hge)
  noted := fun hlook => by cases hlook
  shared := fun hmem => absurd hmem not_mem_nil
  node := fun hmem => absurd hmem not_mem_nil
  opens := forall_mem_nil _

section

variable (h : g.Copying bindings made opened s)

include h

/-- A copy that is made next is none of the open ones. -/
theorem Copying.size_not_mem : s.graph.size ∉ opened :=
  fun hmem => Nat.lt_irrefl _ (lt_size_of_kind (h.opens _ hmem).1)

/-- A new node that is a copy of `a`.  It is open unless it is filled.  Unless `a` is a tuple or a
function it is noted, so that it stays the only one. -/
theorem Copying.add (ha : g.kind a = .ok ka) (kind : TypeKind) (origin : Option Span)
    {opened' : List TypeId} {copies : List (TypeId × TypeId)} (hopened : opened ⊆ opened')
    (hcopies : copies = (a, s.graph.size) :: s.copies ∧ s.copies.lookup a = none ∨
      copies = s.copies ∧ (ka.isFunction = true ∨ ka.items? ≠ none))
    (hnode : s.graph.size ∉ opened' → (s.graph.add kind origin).2.FilledNode bindings
      (g.CopyOf ((a, s.graph.size) :: made)) a s.graph.size) (hopen : ∀ c ∈ opened', c ∈ opened ∨
      c = s.graph.size ∧ kind = .void ∧ ∃ payload, ka.payload? = some payload) :
    g.Copying bindings ((a, s.graph.size) :: made) opened' ⟨(s.graph.add kind origin).2, copies⟩ := by
  have hgrow := extends_add s.graph kind origin
  -- The number of the new node is taken by no copy so far.
  have hold : ∀ {b c}, (b, c) ∈ made → c ≠ s.graph.size := fun hc => (h.source hc).2.2.ne
  refine ⟨h.ext.trans hgrow, ?_, ?_, ?_, ?_, ?_, ?_, ?_⟩
  · intro b c hc
    rw [size_add]
    rcases mem_cons.1 hc with heq | hc
    · cases heq
      exact ⟨lt_size_of_kind ha, h.ext.size_le, Nat.lt_succ_self _⟩
    · obtain ⟨hb, hge, hlt⟩ := h.source hc
      exact ⟨hb, hge, Nat.lt_succ_of_lt hlt⟩
  · intro b b' c hc hc'
    rcases mem_cons.1 hc with heq | hc <;> rcases mem_cons.1 hc' with heq' | hc'
    · cases heq
      cases heq'
      rfl
    · cases heq
      exact absurd rfl (hold hc')
    · cases heq'
      exact absurd rfl (hold hc)
    · exact h.unique hc hc'
  · intro c hge hlt
    rw [size_add] at hlt
    rcases Nat.lt_succ_iff_lt_or_eq.1 hlt with hlt | rfl
    · obtain ⟨b, hb⟩ := h.covered c hge hlt
      exact ⟨b, mem_cons_of_mem _ hb⟩
    · exact ⟨a, mem_cons_self⟩
  · intro b c hlook
    rcases hcopies with ⟨rfl, -⟩ | ⟨rfl, -⟩
    · by_cases hba : b = a
      · subst hba
        rw [lookup_cons_self] at hlook
        cases hlook
        exact mem_cons_self
      · rw [lookup_cons, beq_false_of_ne hba] at hlook
        exact mem_cons_of_mem _ (h.noted hlook)
    · exact mem_cons_of_mem _ (h.noted hlook)
  · intro b c kb hc hkb hf hi
    rcases mem_cons.1 hc with heq | hc
    · cases heq
      cases kind_unique ha hkb
      rcases hcopies with ⟨rfl, -⟩ | ⟨-, htrue | hitems⟩
      · exact lookup_cons_self
      · cases htrue.symm.trans hf
      · exact absurd hi hitems
    · have hlook := h.shared hc hkb hf hi
      rcases hcopies with ⟨rfl, hnone⟩ | ⟨rfl, -⟩
      · have hba : b ≠ a := by
          rintro rfl
          cases hnone.symm.trans hlook
        rw [lookup_cons, beq_false_of_ne hba]
        exact hlook
      · exact hlook
  · intro b c hc hopen
    rcases mem_cons.1 hc with heq | hc
    · cases heq
      exact hnode hopen
    · exact (h.node hc fun hmem => hopen (hopened hmem)).mono (hgrow b) (hgrow c)
        (CopyOf.mono (subset_cons_self _ _))
  · intro c hc
    rcases hopen c hc with hc | ⟨rfl, rfl, payload, hp⟩
    · obtain ⟨hvoid, b, kb, payload, hb, hkb, hp⟩ := h.opens c hc
      exact ⟨hgrow _ _ hvoid, b, kb, payload, mem_cons_of_mem _ hb, hkb, hp⟩
    · exact ⟨(kind_add _ _ _ _).trans (if_pos rfl), a, ka, payload, mem_cons_self, ha, hp⟩

/-- The number of a copy of a box or list is taken before its parts are copied. -/
theorem Copying.begin {payload : TypeId} (ha : g.kind a = .ok ka) (hp : ka.payload? = some payload)
    (hnone : s.copies.lookup a = none) (origin : Option Span) :
    g.Copying bindings ((a, s.graph.size) :: made) (s.graph.size :: opened)
      ⟨(s.graph.add .void origin).2, (a, s.graph.size) :: s.copies⟩ := by
  refine h.add ha .void origin (subset_cons_self _ _) (.inl ⟨rfl, hnone⟩) ?_ fun c hc => ?_
  · exact fun hc => absurd mem_cons_self hc
  · rcases mem_cons.1 hc with rfl | hc
    · exact .inr ⟨rfl, rfl, payload, hp⟩
    · exact .inl hc

end

/-- An open copy is closed when its node is filled in. -/
theorem Copying.fill (h : g.Copying bindings made (c :: opened) s) (hac : (a, c) ∈ made)
    (hc : c ∉ opened) (kind : TypeKind)
    (hnode : (s.graph.setKind c kind).FilledNode bindings (g.CopyOf made) a c) :
    g.Copying bindings made opened ⟨s.graph.setKind c kind, s.copies⟩ := by
  obtain ⟨-, hge, hlt⟩ := h.source hac
  have hother : ∀ id, id ≠ c → ∀ k, s.graph.kind id = .ok k →
      (s.graph.setKind c kind).kind id = .ok k := by
    intro id hid k hk
    rw [kind_setKind _ hlt, if_neg hid]
    exact hk
  refine ⟨?_, ?_, h.unique, ?_, h.noted, h.shared, ?_, ?_⟩
  · intro id k hk
    exact hother id ((lt_size_of_kind hk).trans_le hge).ne k (h.ext id k hk)
  · intro b d hd
    rw [size_setKind]
    exact h.source hd
  · intro d hge hlt
    rw [size_setKind] at hlt
    exact h.covered d hge hlt
  · intro b d hd hopen
    by_cases hdc : d = c
    · subst hdc
      cases h.unique hac hd
      exact hnode
    · refine (h.node hd fun hmem => (mem_cons.1 hmem).elim hdc hopen).mono ?_ (hother d hdc)
        fun _ _ hr => hr
      exact hother b ((h.source hd).1.trans_le hge).ne
  · intro d hd
    obtain ⟨hvoid, hsource⟩ := h.opens d (mem_cons_of_mem _ hd)
    exact ⟨hother d (ne_of_mem_of_not_mem hd hc) _ hvoid, hsource⟩

/-! ## Running a copy -/

@[simp] theorem add_bind {β : Type} (kind : TypeKind) (origin : Option Span)
    (f : TypeId → Instantiation.Step β) :
    (Instantiation.add kind origin >>= f) s =
      f s.graph.size ⟨(s.graph.add kind origin).2, s.copies⟩ :=
  rfl

@[simp] theorem note_bind {β : Type} (id copy : TypeId) (f : Unit → Instantiation.Step β) :
    (Instantiation.note id copy >>= f) s = f () ⟨s.graph, (id, copy) :: s.copies⟩ :=
  rfl

/-- The types that have been copied. -/
def copied (s : Instantiation) : List TypeId :=
  s.copies.map Prod.fst

theorem not_mem_copied {id : TypeId} (h : s.copies.lookup id = none) : id ∉ copied s := by
  intro hmem
  obtain ⟨copy, hcopy, rfl⟩ := mem_map.1 hmem
  have hne := lookup_eq_none_iff.1 h copy hcopy
  rw [bne_iff_ne] at hne
  exact hne rfl

/-- Behind a copy that is noted the rank may be anything. -/
theorem rank_lt_of_noted (hg : g.Sound) {id part : TypeId} {fuel : Nat} (hid : id < g.size)
    (hpart : part < g.size) (hlook : s.copies.lookup id = none)
    (hfuel : g.unmet (copied s) * (g.size + 1) + g.rank id < fuel + 1)
    (hsub : id :: copied s ⊆ copied s') :
    g.unmet (copied s') * (g.size + 1) + g.rank part < fuel := by
  have hlt := Nat.lt_of_le_of_lt (unmet_mono hsub) (unmet_cons hid (not_mem_copied hlook))
  have hmul := Nat.mul_le_mul_right (g.size + 1) (Nat.succ_le_of_lt hlt)
  rw [Nat.succ_mul] at hmul
  have hrank := rank_lt_size hg hpart
  omega

theorem rank_lt_copyDepth (hg : g.Sound) {id : TypeId} (hid : id < g.size) :
    g.unmet (copied ⟨g, []⟩) * (g.size + 1) + g.rank id < g.copyDepth := by
  have hunmet := Nat.mul_le_mul_right (g.size + 1) (g.unmet_le (copied ⟨g, []⟩))
  have hrank := rank_lt_size hg hid
  rw [copyDepth, Nat.succ_mul]
  omega

/-- The placeholder can be reached from the type, and it is not bound. -/
def Unbound (g : TypeGraph) (bindings : Bindings) (id : TypeId) (name : String) : Prop :=
  g.Mentions id name ∧ bindings.get? name = none

/-- A copy of types that `Lacks` speaks of ends with `P`, or because a placeholder is not bound.  Then
some copies may be left open. -/
def Ends {α : Type} (g : TypeGraph) (bindings : Bindings) (span : Span) (Lacks : String → Prop)
    (P : α → Instantiation → Prop) : EStateM.Result (Failure TypeError) Instantiation α → Prop
  | .ok a s => P a s
  | .error failure s => (∃ name, failure = .error (.unboundPlaceholder name span) ∧ Lacks name) ∧
    ∃ made opened, g.Copying bindings made opened s

theorem Ends.bind {α β : Type} {Lacks Lacks' : String → Prop} {P : α → Instantiation → Prop}
    {Q : β → Instantiation → Prop} {x : Instantiation.Step α} {f : α → Instantiation.Step β}
    (hlacks : ∀ name, Lacks name → Lacks' name) (h : g.Ends bindings span Lacks P (x s))
    (hf : ∀ a t, P a t → g.Ends bindings span Lacks' Q (f a t)) :
    g.Ends bindings span Lacks' Q ((x >>= f) s) := by
  simp only [Bind.bind, EStateM.bind]
  cases hx : x s with
  | ok a t =>
    rw [hx] at h
    exact hf a t h
  | error failure t =>
    rw [hx] at h
    obtain ⟨⟨name, rfl, hname⟩, hleft⟩ := h
    exact ⟨⟨name, rfl, hlacks name hname⟩, hleft⟩

/-- A run that has gone on from `made` and `s` to the copies `cs` of `ids`. -/
def Copied (g : TypeGraph) (bindings : Bindings) (made : List (TypeId × TypeId)) (opened : List TypeId)
    (s : Instantiation) (ids cs : List TypeId) (s' : Instantiation) : Prop :=
  ∃ made', made ⊆ made' ∧ copied s ⊆ copied s' ∧ g.Copying bindings made' opened s' ∧
    List.Forall₂ (g.CopyOf made') ids cs

theorem Copied.trans {ids cs : List TypeId} {s₁ : Instantiation}
    (hsub : made ⊆ made') (hcopied : copied s ⊆ copied s₁)
    (h : g.Copied bindings made' opened s₁ ids cs s') : g.Copied bindings made opened s ids cs s' := by
  obtain ⟨made₁, hsub', hcopied', hrest⟩ := h
  exact ⟨made₁, Subset.trans hsub hsub', Subset.trans hcopied hcopied', hrest⟩

theorem mapM_copied {f : TypeId → Instantiation.Step TypeId} {id : TypeId} {n : Nat}
    {ids : List TypeId} (hids : ∀ part ∈ ids, g.Part id part)
    (hf : ∀ part ∈ ids, ∀ made s, g.Copying bindings made opened s → g.unmet (copied s) ≤ n →
      g.Ends bindings span (g.Unbound bindings part)
        (fun c => g.Copied bindings made opened s [part] [c]) (f part s))
    (h : g.Copying bindings made opened s) (hn : g.unmet (copied s) ≤ n) :
    g.Ends bindings span (g.Unbound bindings id) (fun cs => g.Copied bindings made opened s ids cs)
      (ids.mapM f s) := by
  induction ids generalizing made s with
  | nil => exact ⟨made, Subset.refl _, Subset.refl _, h, .nil⟩
  | cons part ids ih =>
    obtain ⟨hpart, hids⟩ := forall_mem_cons.1 hids
    rw [mapM_cons]
    refine (hf part mem_cons_self made s h hn).bind (fun name hname => hname.imp_left (.of_part hpart)) ?_
    rintro c t ⟨made₁, hsub, hcopied, ht, hc⟩
    refine (ih hids (fun p hp => hf p (mem_cons_of_mem _ hp)) ht ((unmet_mono hcopied).trans hn)).bind
      (fun name hname => hname) ?_
    rintro cs u ⟨made₂, hsub', hcopied', hu, hcs⟩
    exact ⟨made₂, Subset.trans hsub hsub', Subset.trans hcopied hcopied', hu,
      .cons ((forall₂_cons.1 hc).1.mono hsub') hcs⟩

/-- A copy whose number was taken first is finished when its parts are copied. -/
theorem Copying.finish {kind : TypeKind} (ha : g.kind a = .ok ka)
    (hsub : (a, s.graph.size) :: made ⊆ made') (hcopied : a :: copied s ⊆ copied s')
    (h : g.Copying bindings made' (s.graph.size :: opened) s') (hopened : s.graph.size ∉ opened)
    (hnode : ∀ g' : TypeGraph, g'.kind a = .ok ka → g'.kind s.graph.size = .ok kind →
      g'.FilledNode bindings (g.CopyOf made') a s.graph.size) :
    g.Copied bindings made opened s [a] [s.graph.size]
      ⟨s'.graph.setKind s.graph.size kind, s'.copies⟩ := by
  have hmem : (a, s.graph.size) ∈ made' := hsub mem_cons_self
  obtain ⟨hlt, hge, hlt'⟩ := h.source hmem
  refine ⟨made', Subset.trans (subset_cons_self _ _) hsub,
    Subset.trans (subset_cons_self _ _) hcopied, h.fill hmem hopened kind ?_,
    .cons (.inl hmem) .nil⟩
  apply hnode
  · rw [kind_setKind _ hlt', if_neg (hlt.trans_le hge).ne]
    exact h.ext a ka ha
  · rw [kind_setKind _ hlt', if_pos rfl]

/-- A finished copy is added over copies of its parts. -/
theorem Copying.addWhole (h : g.Copying bindings made opened s) (ha : g.kind a = .ok ka)
    (kind : TypeKind) (origin : Option Span) {copies : List (TypeId × TypeId)}
    (hcopies : copies = (a, s.graph.size) :: s.copies ∧ s.copies.lookup a = none ∨
      copies = s.copies ∧ (ka.isFunction = true ∨ ka.items? ≠ none))
    (hnode : ∀ g' : TypeGraph, g'.kind a = .ok ka → g'.kind s.graph.size = .ok kind →
      g'.FilledNode bindings (g.CopyOf made) a s.graph.size) :
    g.Copied bindings made opened s [a] [s.graph.size] ⟨(s.graph.add kind origin).2, copies⟩ := by
  have hsub : made ⊆ (a, s.graph.size) :: made := subset_cons_self _ _
  refine ⟨(a, s.graph.size) :: made, hsub, ?_, ?_, .cons (.inl mem_cons_self) .nil⟩
  · rcases hcopies with ⟨rfl, -⟩ | ⟨rfl, -⟩
    · exact subset_cons_self _ _
    · exact Subset.refl _
  · refine h.add ha kind origin (Subset.refl _) hcopies (fun _ => ?_) fun c hc => .inl hc
    refine (hnode _ (extends_add _ _ _ _ _ (h.ext _ _ ha)) ?_).mono (fun _ hk => hk) (fun _ hk => hk)
      (CopyOf.mono hsub)
    rw [kind_add, if_pos rfl]

/-- Between two boxes the rank of the type falls, and no box is copied twice. -/
theorem copyWithin_copied (hg : g.Sound) (span : Span) (fuel : Nat) (id : TypeId) (hid : id < g.size)
    (made : List (TypeId × TypeId)) (opened : List TypeId) (s : Instantiation)
    (h : g.Copying bindings made opened s)
    (hfuel : g.unmet (copied s) * (g.size + 1) + g.rank id < fuel) :
    g.Ends bindings span (g.Unbound bindings id) (fun c => g.Copied bindings made opened s [id] [c])
      (Instantiation.copyWithin bindings span fuel id s) := by
  induction fuel generalizing id made opened s with
  | zero => exact absurd hfuel (Nat.not_lt_zero _)
  | succ fuel ih =>
    obtain ⟨kind, hk⟩ := exists_kind hid
    obtain ⟨node, hnode, rfl⟩ := kind_eq_ok_iff.1 (h.ext id kind hk)
    have hparts : ∀ part ∈ node.kind.parts, g.Part id part := fun part hp => ⟨_, hk, hp⟩
    simp only [Instantiation.copyWithin, get_bind]
    cases hlook : s.copies.lookup id with
    | some copy =>
      exact ⟨made, Subset.refl _, Subset.refl _, h, .cons (.inl (h.noted hlook)) .nil⟩
    | none =>
      -- Once a copy is noted, one type fewer is left to copy.
      have hnoted : ∀ part, g.Part id part → ∀ t : Instantiation, id :: copied s ⊆ copied t →
          g.unmet (copied t) * (g.size + 1) + g.rank part < fuel := fun part hp t hsub =>
        rank_lt_of_noted hg hid (hg.closed _ _ hp) hlook hfuel hsub
      -- Before a copy is noted, the rank falls.
      have hinner : ∀ part ∈ node.kind.innerParts, ∀ made t, g.Copying bindings made opened t →
          g.unmet (copied t) ≤ g.unmet (copied s) → g.Ends bindings span (g.Unbound bindings part)
            (fun c => g.Copied bindings made opened t [part] [c])
            (Instantiation.copyWithin bindings span fuel part t) := by
        intro part hp made t ht hn
        have hrank := rank_lt_of_inner hg ⟨_, hk, hp⟩
        have hmul := Nat.mul_le_mul_right (g.size + 1) hn
        exact ih part (hg.lt_of_kind hk part (TypeKind.innerParts_subset _ hp)) made opened t ht (by omega)
      simp only [hnode, query_ok_bind]
      cases hkind : node.kind with
      | void | integer | boolean | string =>
        rw [hkind] at hk
        exact ⟨made, Subset.refl _, Subset.refl _, h, .cons (.inr ⟨rfl, _, hk, rfl⟩) .nil⟩
      | tuple items =>
        rw [hkind] at hk hparts hinner
        refine (mapM_copied hparts hinner h (Nat.le_refl _)).bind (fun _ hname => hname) ?_
        rintro cs t ⟨made₁, hsub, hcopied, ht, hcs⟩
        exact (ht.addWhole hk (.tuple cs) node.origin (.inr ⟨rfl, .inr (by simp [TypeKind.items?])⟩)
          fun _ ha hc => .value (.tuple ha hc hcs)).trans hsub hcopied
      | box payload =>
        rw [hkind] at hk hparts
        have hpart := hparts payload mem_cons_self
        simp only [add_bind, note_bind]
        refine (ih payload (hg.closed _ _ hpart) _ _ _ (h.begin hk rfl hlook node.origin)
          (hnoted payload hpart _ (Subset.refl _))).bind
            (fun _ hname => hname.imp_left (.of_part hpart)) ?_
        rintro q t ⟨made₁, hsub, hcopied, ht, hq⟩
        exact ht.finish hk hsub hcopied h.size_not_mem fun _ ha hc =>
          .value (.box ha hc (forall₂_cons.1 hq).1)
      | list item payload =>
        rw [hkind] at hk hparts
        have hitem := hparts item mem_cons_self
        have hpayload := hparts payload (mem_cons_of_mem _ mem_cons_self)
        simp only [add_bind, note_bind]
        refine (ih item (hg.closed _ _ hitem) _ _ _ (h.begin hk rfl hlook node.origin)
          (hnoted item hitem _ (Subset.refl _))).bind
            (fun _ hname => hname.imp_left (.of_part hitem)) ?_
        rintro j t ⟨made₁, hsub, hcopied, ht, hj⟩
        refine (ih payload (hg.closed _ _ hpayload) _ _ _ ht (hnoted payload hpayload _ hcopied)).bind
          (fun _ hname => hname.imp_left (.of_part hpayload)) ?_
        rintro q u ⟨made₂, hsub', hcopied', hu, hq⟩
        exact hu.finish hk (Subset.trans hsub hsub') (Subset.trans hcopied hcopied')
          h.size_not_mem fun _ ha hc => .value (.list ha hc ((forall₂_cons.1 hj).1.mono hsub')
            (forall₂_cons.1 hq).1)
      | placeholder name =>
        rw [hkind] at hk
        cases hb : bindings.get? name with
        | none =>
          simp only [hb]
          exact ⟨⟨name, rfl, ⟨id, .refl, hk⟩, hb⟩, made, opened, h⟩
        | some bound =>
          simp only [hb, add_bind, note_bind]
          exact h.addWhole hk (.box bound) node.origin (.inl ⟨rfl, hlook⟩) fun _ ha hc =>
            .value (.placeholder ha hb hc)
      | function params result native =>
        rw [hkind] at hk hparts hinner
        obtain ⟨hparams, hresult⟩ := forall_mem_append.1 hparts
        obtain ⟨hinParams, hinResult⟩ := forall_mem_append.1 hinner
        refine (mapM_copied hparams hinParams h (Nat.le_refl _)).bind (fun _ hname => hname) ?_
        rintro ps t ⟨made₁, hsub, hcopied, ht, hps⟩
        refine (hinResult result mem_cons_self made₁ t ht (unmet_mono hcopied)).bind
          (fun _ hname => hname.imp_left (.of_part (hresult result mem_cons_self))) ?_
        rintro r u ⟨made₂, hsub', hcopied', hu, hr⟩
        exact (hu.addWhole hk (.function ps r native) _ (.inr ⟨rfl, .inl rfl⟩) fun _ ha hc =>
          .function ha hc (hps.imp (CopyOf.mono hsub')) (forall₂_cons.1 hr).1).trans
            (Subset.trans hsub hsub') (Subset.trans hcopied hcopied')

/-! ## What the copies are like -/

section

variable (h : g.Copying bindings made opened s)

include h

/-- A copy is filled from its source, or it is open and its source a box or list. -/
theorem Copying.node_or_open (hac : g.CopyOf made a c) :
    s.graph.FilledNode bindings (g.CopyOf made) a c ∨ s.graph.kind c = .ok .void ∧
      ∃ kind payload, g.kind a = .ok kind ∧ kind.payload? = some payload := by
  rcases hac with hmem | ⟨rfl, kind, hk, hb⟩
  · by_cases hopen : c ∈ opened
    · obtain ⟨hvoid, b, kind, payload, hb, hk, hp⟩ := h.opens c hopen
      cases h.unique hmem hb
      exact .inr ⟨hvoid, kind, payload, hk, hp⟩
    · exact .inl (h.node hmem hopen)
  · exact .inl (.value (.base (h.ext a kind hk) hb))

theorem Copying.lt_size (hac : g.CopyOf made a c) : a < g.size ∧ c < s.graph.size := by
  rcases hac with hmem | ⟨rfl, kind, hk, -⟩
  · exact ⟨(h.source hmem).1, (h.source hmem).2.2⟩
  · exact ⟨lt_size_of_kind hk, h.ext.lt_size (lt_size_of_kind hk)⟩

/-- The parts of a copy are copies of parts, or types that placeholders stand for. -/
theorem Copying.part {q : TypeId} (hac : g.CopyOf made a c) (hq : s.graph.Part c q) :
    (∃ p, g.Part a p ∧ g.CopyOf made p q) ∨ ∃ name, bindings.get? name = some q := by
  obtain ⟨kind, hk, hmem⟩ := hq
  rcases h.node_or_open hac with hnode | ⟨hvoid, -⟩
  · obtain ⟨kind', hk', -, -, hparts⟩ := hnode.image
    cases kind_unique hk hk'
    rcases hparts q hmem with ⟨p, ⟨kp, hkp, hp⟩, hpq⟩ | ⟨name, -, hbound⟩
    · exact .inl ⟨p, ⟨kp, h.ext.kind_of_lt (h.lt_size hac).1 hkp, hp⟩, hpq⟩
    · exact .inr ⟨name, hbound⟩
  · cases kind_unique hk hvoid
    cases hmem

/-- Every way down from a copy that enters no list is a way down from the node that was copied, up to
where it leaves the copies. -/
theorem Copying.acc (hg : g.Sound)
    (hb : ∀ name bound, bindings.get? name = some bound → bound < g.size) (hac : g.CopyOf made a c) :
    Acc (fun part id => s.graph.Inner id part) c := by
  induction hrank : g.rank a using Nat.strong_induction_on generalizing a c with
  | _ rank ih =>
    refine Acc.intro c fun q hpart => ?_
    obtain ⟨kind, hk, hq⟩ := hpart
    rcases h.node_or_open hac with hnode | ⟨hvoid, -⟩
    · rcases hnode.inner hk hq with ⟨p, ⟨ka, hka, hp⟩, hpq⟩ | ⟨name, -, hbound⟩
      · have hinner : g.Inner a p := ⟨ka, h.ext.kind_of_lt (h.lt_size hac).1 hka, hp⟩
        exact ih _ (hrank ▸ rank_lt_of_inner hg hinner) hpq rfl
      · exact hg.acc_extend h.ext (hb name q hbound)
    · cases kind_unique hk hvoid
      cases hq

theorem Copying.sound (hg : g.Sound)
    (hb : ∀ name bound, bindings.get? name = some bound → bound < g.size) : s.graph.Sound := by
  apply Sound.of_acc
  · intro id part hpart
    obtain ⟨kind, hk, hmem⟩ := hpart
    rcases Nat.lt_or_ge id g.size with hold | hnew
    · exact h.ext.lt_size (hg.lt_of_kind (h.ext.kind_of_lt hold hk) part hmem)
    · obtain ⟨a, ha⟩ := h.covered id hnew (lt_size_of_kind hk)
      rcases h.part (.inl ha) ⟨kind, hk, hmem⟩ with ⟨p, -, hpq⟩ | ⟨name, hbound⟩
      · exact (h.lt_size hpq).2
      · exact h.ext.lt_size (hb name part hbound)
  · intro id hid
    rcases Nat.lt_or_ge id g.size with hold | hnew
    · exact hg.acc_extend h.ext hold
    · obtain ⟨a, ha⟩ := h.covered id hnew hid
      exact h.acc hg hb (.inl ha)

theorem Copying.isValue (hac : g.CopyOf made a c) (ha : g.IsValue a) : s.graph.IsValue c := by
  rcases h.node_or_open hac with hnode | ⟨hvoid, -⟩
  · exact (hnode.toImage (ha.extend h.ext)).isValue
  · exact ⟨_, hvoid, rfl⟩

/-- Tuples are never open. -/
theorem Copying.items {items : List TypeId} (ha : g.kind a = .ok (.tuple items))
    (hac : g.CopyOf made a c) :
    ∃ cs, s.graph.kind c = .ok (.tuple cs) ∧ Forall₂ (g.CopyOf made) items cs := by
  rcases h.node_or_open hac with hnode | ⟨-, kind, payload, hk, hp⟩
  · exact (hnode.toImage ⟨_, h.ext _ _ ha, rfl⟩).items (h.ext _ _ ha)
  · cases kind_unique ha hk
    cases hp

/-- All values but tuples have one copy. -/
theorem Copying.copy_unique {c' : TypeId} {kind : TypeKind} (hk : g.kind a = .ok kind)
    (hf : kind.isFunction = false) (hi : kind.items? = none) (hc : g.CopyOf made a c)
    (hc' : g.CopyOf made a c') : c = c' := by
  have hbase : ∀ d, (a, d) ∈ made → kind.isBase = true → False := by
    intro d hd hb
    have hge := (h.source hd).2.1
    rcases h.node_or_open (.inl hd) with hnode | ⟨-, ka, payload, hka, hp⟩
    · cases hnode.toImage ⟨kind, h.ext a kind hk, hf⟩ with
      | base => exact absurd (lt_size_of_kind hk) (Nat.not_lt_of_le hge)
      | tuple ha | box ha | list ha | placeholder ha =>
        cases kind_unique (h.ext a kind hk) ha
        cases hb
    · cases kind_unique hk hka
      cases kind with
      | box | list => cases hb
      | _ => cases hp
  rcases hc with hc | ⟨rfl, k, hk₁, hb⟩ <;> rcases hc' with hc' | ⟨rfl, k', hk₁', hb'⟩
  · exact Option.some.inj ((h.shared hc hk hf hi).symm.trans (h.shared hc' hk hf hi))
  · cases kind_unique hk hk₁'
    exact (hbase c hc hb').elim
  · cases kind_unique hk hk₁
    exact (hbase c' hc' hb).elim
  · rfl

/-- Copies of types that differ only in their tuples differ only in their tuples. -/
theorem Copying.retupled (hg : g.Regular) {b x y : TypeId} (ha : g.IsValue a) (hab : g.Retupled a b)
    (hax : g.CopyOf made a x) (hby : g.CopyOf made b y) : s.graph.Retupled x y := by
  refine ⟨fun x y => ∃ a b, g.IsValue a ∧ g.Retupled a b ∧ g.CopyOf made a x ∧ g.CopyOf made b y, ?_,
    a, b, ha, hab, hax, hby⟩
  rintro x y ⟨a, b, ha, hab, hax, hby⟩
  have hitems : ∀ {as bs}, g.kind a = .ok (.tuple as) → g.kind b = .ok (.tuple bs) →
      Forall₂ g.Retupled as bs → s.graph.SameItems (fun x y => ∃ a b, g.IsValue a ∧
        g.Retupled a b ∧ g.CopyOf made a x ∧ g.CopyOf made b y) x y := by
    intro as bs ha hb hitems
    obtain ⟨xs, hx, hxs⟩ := h.items ha hax
    obtain ⟨ys, hy, hys⟩ := h.items hb hby
    have hvalues := (forall₂_and_left _ _).2 ⟨fun i hi => hg.parts a i ⟨_, ha, hi⟩, hxs⟩
    refine .inr ⟨xs, ys, hx, hy, forall₂_trans (fun x i y hx hy => ?_) hvalues.flip
      (forall₂_trans (T := fun i y => ∃ i', g.Retupled i i' ∧ g.CopyOf made i' y)
        (fun i i' y hi hy => ⟨i', hi, hy⟩) hitems hys)⟩
    obtain ⟨i', hi, hy⟩ := hy
    exact ⟨i, i', hx.1, hi, hx.2, hy⟩
  rcases hab.sameItems with rfl | ⟨as, bs, ha, hb, hparts⟩
  · obtain ⟨kind, hk, hf⟩ := ha
    rcases kind.tuple_or_not with ⟨items, rfl⟩ | hi
    · exact hitems hk hk (forall₂_same.2 fun i _ => .refl g i)
    · exact .inl (h.copy_unique hk hf hi hax hby)
  · exact hitems ha hb hparts

/-- The copy of a list holds the pair of an item and itself, since a list has one copy. -/
theorem Copying.list (hg : g.Regular) {item payload : TypeId} (hac : (a, c) ∈ made)
    (hc : s.graph.kind c = .ok (.list item payload)) :
    ∃ first, s.graph.kind payload = .ok (.tuple [first, c]) ∧ s.graph.Retupled item first := by
  rcases h.node_or_open (.inl hac) with hnode | ⟨hvoid, -⟩
  · cases hnode with
    | function _ hc' => cases kind_unique hc hc'
    | value hnode =>
      cases hnode with
      | base => exact absurd (h.source hac).1 (Nat.not_lt_of_le (h.source hac).2.1)
      | tuple _ hc' | box _ hc' | placeholder _ _ hc' => cases kind_unique hc hc'
      | list hka hc' hi hp =>
        cases kind_unique hc hc'
        have hka := h.ext.kind_of_lt (h.source hac).1 hka
        obtain ⟨first, hpair, hitem⟩ := hg.pairs a _ _ hka
        obtain ⟨cs, hpair', hcs⟩ := h.items hpair hp
        obtain ⟨first', self, hfirst, hself, rfl⟩ :
            ∃ first' self, g.CopyOf made first first' ∧ g.CopyOf made a self ∧ cs = [first', self] := by
          cases hcs with
          | cons hfirst hrest =>
            cases hrest with
            | cons hself hnil =>
              cases hnil
              exact ⟨_, _, hfirst, hself, rfl⟩
        cases h.copy_unique hka rfl rfl hself (.inl hac)
        exact ⟨first', hpair', h.retupled hg (hg.parts a _ ⟨_, hka, mem_cons_self⟩) hitem hi hfirst⟩
  · cases kind_unique hc hvoid

theorem Copying.regular (hg : g.Regular)
    (hb : ∀ name bound, bindings.get? name = some bound → g.IsValue bound) : s.graph.Regular := by
  refine hg.extend h.ext ?_ ?_ ?_
  · intro c part hc hp
    obtain ⟨kc, hkc, -⟩ := id hp
    obtain ⟨a, ha⟩ := h.covered c hc (lt_size_of_kind hkc)
    rcases h.part (.inl ha) hp with ⟨p, hpart, hcopy⟩ | ⟨name, hbound⟩
    · exact h.isValue hcopy (hg.parts a p hpart)
    · exact (hb name part hbound).extend h.ext
  · intro c hc hlt
    obtain ⟨a, ha⟩ := h.covered c hc hlt
    exact h.acc hg.toSound (fun name bound hbound => (hb name bound hbound).lt_size) (.inl ha)
  · intro c item payload hc hkc
    obtain ⟨a, ha⟩ := h.covered c hc (lt_size_of_kind hkc)
    exact h.list hg ha hkc

end

/-- With nothing left open, a copy is filled in. -/
theorem Copying.filled (h : g.Copying bindings made [] s) (hac : g.CopyOf made a c) :
    s.graph.Filled bindings a c := by
  refine ⟨g.CopyOf made, fun x y hxy => ?_, hac⟩
  rcases hxy with hmem | ⟨rfl, kind, hk, hb⟩
  · exact h.node hmem not_mem_nil
  · exact .value (.base (h.ext x kind hk) hb)

/-! ## Instances -/

/-- A run returns a type without placeholders as it is, or it copies the type, or it names a placeholder
that is not bound. -/
theorem instantiate_copies (hg : g.Knotted) (bindings : Bindings) {id : TypeId} (hid : id < g.size)
    (span : Span) :
    instantiate id bindings span g = .ok id g ∧ (∀ name, ¬ g.Mentions id name) ∨
      (∃ r made s, instantiate id bindings span g = .ok r s.graph ∧ g.Copying bindings made [] s ∧
        g.CopyOf made id r) ∨
      ∃ name made opened s,
        instantiate id bindings span g = .error (.error (.unboundPlaceholder name span)) s.graph ∧
        g.Copying bindings made opened s ∧ g.Unbound bindings id name := by
  rcases hasPlaceholder_cases hg hid with ⟨hfound, hnone⟩ | ⟨hfound, -⟩
  · refine .inl ⟨?_, hnone⟩
    simp only [instantiate, hfound]
  · have hends := copyWithin_copied hg.toSound span g.copyDepth id hid [] [] ⟨g, []⟩
      (.start g bindings) (rank_lt_copyDepth hg.toSound hid)
    simp only [instantiate, hfound]
    cases hrun : Instantiation.copyWithin bindings span g.copyDepth id ⟨g, []⟩ with
    | ok c s =>
      rw [hrun] at hends
      obtain ⟨made, -, -, hs, hc⟩ := hends
      exact .inr (.inl ⟨c, made, s, rfl, hs, (forall₂_cons.1 hc).1⟩)
    | error failure s =>
      rw [hrun] at hends
      obtain ⟨⟨name, rfl, hname⟩, made, opened, hs⟩ := hends
      exact .inr (.inr ⟨name, made, opened, s, rfl, hs, hname⟩)

/-- A run returns the type filled in, or names a placeholder that is not bound. -/
theorem instantiate_fills_or_fails (hg : g.Knotted) (bindings : Bindings) {id : TypeId} (hid : id < g.size)
    (span : Span) :
    (∃ r g', instantiate id bindings span g = .ok r g' ∧ g.Extends g' ∧ g'.Filled bindings id r) ∨
      ∃ name g', instantiate id bindings span g = .error (.error (.unboundPlaceholder name span)) g' ∧
        g.Unbound bindings id name := by
  rcases instantiate_copies hg bindings hid span with ⟨hrun, hnone⟩ | ⟨r, made, s, hrun, hs, hr⟩ |
    ⟨name, made, opened, s, hrun, -, hname⟩
  · exact .inl ⟨id, g, hrun, .refl g, filled_self hg.toSound hid hnone⟩
  · exact .inl ⟨r, s.graph, hrun, hs.ext, hs.filled hr⟩
  · exact .inr ⟨name, s.graph, hrun, hname⟩

section

variable {id : TypeId} (hg : g.Regular)
  (hb : ∀ name bound, bindings.get? name = some bound → g.IsValue bound)

include hg hb

/-- Filling in the placeholders of a type ends, and it fails only if one is not bound.  The graph is
regular even if there is no instance. -/
theorem instantiate_cases (hid : id < g.size) (span : Span) :
    (∃ r g', instantiate id bindings span g = .ok r g' ∧ g'.Regular ∧ r < g'.size) ∨
      ∃ name g', instantiate id bindings span g = .error (.error (.unboundPlaceholder name span)) g' ∧
        g'.Regular := by
  rcases instantiate_copies hg.knotted bindings hid span with ⟨hrun, -⟩ | ⟨r, made, s, hrun, hs, hr⟩ |
    ⟨name, made, opened, s, hrun, hs, -⟩
  · exact .inl ⟨id, g, hrun, hg, hid⟩
  · exact .inl ⟨r, s.graph, hrun, hs.regular hg hb, (hs.lt_size hr).2⟩
  · exact .inr ⟨_, s.graph, hrun, hs.regular hg hb⟩

/-- Filling in placeholders only adds to a regular graph, which stays regular, and returns an
instance of the type. -/
theorem instantiate_spec {r : TypeId} (hid : g.IsValue id) {g' : TypeGraph}
    (hrun : instantiate id bindings span g = .ok r g') :
    Grown g g' [r] ∧ g'.Instance bindings id r := by
  rcases instantiate_copies hg.knotted bindings hid.lt_size span with ⟨hrun', hnone⟩ |
    ⟨c, made, s, hrun', hs, hc⟩ | ⟨name, made, opened, s, hrun', -⟩
  · cases hrun.symm.trans hrun'
    refine ⟨⟨hg, .refl g, forall_mem_singleton.2 hid⟩, ?_⟩
    exact (filled_self hg.toSound hid.lt_size hnone).toInstance hg hid
  · cases hrun.symm.trans hrun'
    have hreg := hs.regular hg hb
    exact ⟨⟨hreg, hs.ext, forall_mem_singleton.2 (hs.isValue hc hid)⟩,
      (hs.filled hc).toInstance hreg (hid.extend hs.ext)⟩
  · cases hrun.symm.trans hrun'

end

end SlotCode.TypeGraph
