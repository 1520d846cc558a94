import SlotCode.Proofs.Program.Histories
import SlotCode.Proofs.Twins.Functions

/-!
# A session for given functions

The *home* of some registrations is a session that knows these functions and nothing else.  Every
session in which they are registered is its twin (`Session.Records.twins`): it has the types of the
functions at other places, and its contexts and loops have other numbers.  So what is lowered after any
history is lowered as it is at home (`lowerFunction_home`).
-/

namespace SlotCode

variable {regs : List (String × Registration)} {name : String} {n m : Nat} {r : TypeId → TypeId}
  {known : String → Option Registration} {names : List String} {reg : Registration} {id : TypeId}

open Lower List TypeGraph

/-- The registrations laid one after the other into a type graph of their own. -/
def layAll : List (String × Registration) → TypeGraph × List (String × Signature)
  | [] => (.initial, [])
  | (name, reg) :: rest =>
    let laid := reg.lay none (layAll rest).1
    (laid.2, (name, ⟨laid.1, none⟩) :: (layAll rest).2)

def home (regs : List (String × Registration)) : Session where
  types := (layAll regs).1
  scope := { Scope.initial with functions := (layAll regs).2 }
  log := #[]

theorem layAll_regular (regs : List (String × Registration)) : (layAll regs).1.Regular := by
  induction regs with
  | nil => exact regular_initial
  | cons entry rest ih => exact entry.2.lay_regular none _ ih

theorem four_le_layAll (regs : List (String × Registration)) : 4 ≤ (layAll regs).1.size := by
  induction regs with
  | nil => exact Nat.le_refl 4
  | cons entry rest ih => exact ih.trans (entry.2.keptIn_lay none _).extends.size_le

theorem layAll_lt {sig : Signature} (h : (layAll regs).2.lookup name = some sig) :
    sig.type < (layAll regs).1.size := by
  induction regs with
  | nil => cases h
  | cons entry rest ih =>
    obtain ⟨other, reg⟩ := entry
    by_cases heq : name = other
    · subst heq
      rw [layAll, lookup_cons_self] at h
      cases h
      exact reg.lay_lt none _
    · rw [layAll, lookup_other heq] at h
      exact Nat.lt_of_lt_of_le (ih h) (reg.keptIn_lay none _).extends.size_le

theorem layAll_absent (h : name ∉ regs.map Prod.fst) : (layAll regs).2.lookup name = none := by
  induction regs with
  | nil => rfl
  | cons entry rest ih =>
    rw [map_cons, mem_cons, not_or] at h
    rw [layAll, lookup_other h.1]
    exact ih h.2

/-! ## Where the types of functions are -/

/-- The types of the registrations are found in `g` at the given places. -/
structure Found (places : String → Place) (g : TypeGraph) (regs : List (String × Registration))
    (r : TypeId → TypeId) : Prop where
  unit : ∀ {id : TypeId}, id < 4 → r id = id
  inj : ∀ {a b : TypeId}, a < (layAll regs).1.size → b < (layAll regs).1.size → r a = r b → a = b
  node : ∀ {id : TypeId} {node : TypeNode}, (layAll regs).1.node id = .ok node →
    ∃ origin, g.node (r id) = .ok ⟨node.kind.rename r, origin⟩ ∧
      (node.kind.isFunction = false → origin = node.origin)
  range : ∀ {id : TypeId}, id < (layAll regs).1.size → id < 4 ∨ ∃ name reg, (name, reg) ∈ regs ∧
    (places name).graph.size ≤ r id ∧ r id < (reg.at (places name)).2.size
  types : ∀ {name : String} {reg : Registration}, (name, reg) ∈ regs →
    ∃ type, Signature.typesOf (layAll regs).2 name = some type ∧
      (reg.at (places name)).1 = r type

namespace Found

variable {places : String → Place} {known : String → Option Registration} {s : Session}

theorem nil (h : s.Records places known) : Found places s.types [] fun id => id where
  unit := fun _ => rfl
  inj := fun _ _ heq => heq
  node := fun {id node} hn => by
    refine ⟨node.origin, ?_, fun _ => rfl⟩
    rw [TypeKind.rename_id]
    exact h.units id node hn
  range := fun hid => .inl hid
  types := fun hmem => nomatch hmem

/-- The numbers `r` below `n`, and from there on the numbers from `m` on. -/
def shiftFrom (n m : Nat) (r : TypeId → TypeId) (id : TypeId) : TypeId :=
  if id < n then r id else m + (id - n)

theorem shiftFrom_lt (h : id < n) : shiftFrom n m r id = r id :=
  if_pos h

theorem shiftFrom_ge (h : n ≤ id) : shiftFrom n m r id = m + (id - n) :=
  if_neg (Nat.not_lt_of_le h)

theorem shiftFrom_ge_inj {a b : TypeId} (ha : n ≤ a) (hb : n ≤ b)
    (heq : shiftFrom n m r a = shiftFrom n m r b) : a = b := by
  rw [shiftFrom_ge ha, shiftFrom_ge hb] at heq
  rw [← Nat.sub_add_cancel ha, Nat.add_left_cancel heq, Nat.sub_add_cancel hb]

/-- Old numbers are not among the new ones. -/
theorem shiftFrom_inj {P : TypeId → Prop}
    (hinj : ∀ {a b : TypeId}, a < n → b < n → r a = r b → a = b)
    (hapart : ∀ {a b : TypeId}, a < n → n ≤ b → P b → r a ≠ shiftFrom n m r b) {a b : TypeId}
    (ha : P a) (hb : P b) (heq : shiftFrom n m r a = shiftFrom n m r b) : a = b := by
  rcases Nat.lt_or_ge a n with hlt | hge
  · rw [shiftFrom_lt hlt] at heq
    rcases Nat.lt_or_ge b n with hlt' | hge'
    · rw [shiftFrom_lt hlt'] at heq
      exact hinj hlt hlt' heq
    · exact absurd heq (hapart hlt hge' hb)
  · rcases Nat.lt_or_ge b n with hlt' | hge'
    · rw [shiftFrom_lt hlt'] at heq
      exact absurd heq.symm (hapart hlt' hge ha)
    · exact shiftFrom_ge_inj hge hge' heq

/-- The graph `g` has a part that is empty so far. -/
theorem embeds_empty (regs : List (String × Registration)) (g : TypeGraph)
    (hunit : ∀ {id : TypeId}, id < 4 → r id = id) :
    (layAll regs).1.Embeds (shiftFrom (layAll regs).1.size g.size r) (layAll regs).1.size g where
  inj := shiftFrom_ge_inj
  unit := fun hid => by
    rw [shiftFrom_lt (Nat.lt_of_lt_of_le hid (four_le_layAll regs)), hunit hid]
  succ := fun hid => by
    rw [shiftFrom_ge hid, shiftFrom_ge (Nat.le_succ_of_le hid), Nat.succ_sub hid]
    rfl
  size := by rw [shiftFrom_ge (Nat.le_refl _), Nat.sub_self, Nat.add_zero]
  node := fun hb hn => absurd (lt_size_of_node hn) (Nat.not_lt_of_le hb)

/-- Types that were found before are elsewhere. -/
theorem outside (h : s.Records places known) (hfound : Found places s.types regs r)
    (hknown : ∀ {name reg}, (name, reg) ∈ regs → known name = some reg)
    (hname : known name = some reg) (hnew : name ∉ regs.map Prod.fst)
    (hid : id < (layAll regs).1.size) :
    r id < (places name).graph.size ∨ (reg.at (places name)).2.size ≤ r id := by
  rcases hfound.range hid with hunit | ⟨other, reg', hmem, hge, hlt⟩
  · rw [hfound.unit hunit]
    exact .inl (Nat.lt_of_lt_of_le hunit (h.present hname).2.2)
  · have hne : other ≠ name := fun heq => hnew (heq ▸ mem_map_of_mem hmem)
    rcases h.apart (hknown hmem) hname hne with hle | hle
    · exact .inl (Nat.lt_of_lt_of_le hlt hle)
    · exact .inr (hle.trans hge)

/-- One more function is found where its type was laid. -/
theorem cons (h : s.Records places known) (hfound : Found places s.types regs r)
    (hknown : ∀ {name reg}, (name, reg) ∈ regs → known name = some reg)
    (hname : known name = some reg) (hnew : name ∉ regs.map Prod.fst) :
    Found places s.types ((name, reg) :: regs)
      (shiftFrom (layAll regs).1.size (places name).graph.size r) := by
  obtain ⟨-, hkept, -⟩ := h.present hname
  obtain ⟨htype, hembeds⟩ := reg.lay_embeds (embeds_empty regs (places name).graph hfound.unit)
    (Nat.le_refl _) none (places name).origin
  have hnewIds : ∀ {id : TypeId}, (layAll regs).1.size ≤ id → id < (layAll ((name, reg) :: regs)).1.size →
      (places name).graph.size ≤ shiftFrom (layAll regs).1.size (places name).graph.size r id ∧
        shiftFrom (layAll regs).1.size (places name).graph.size r id < (reg.at (places name)).2.size := by
    intro id hge hlt
    refine ⟨?_, hembeds.lt_size hge hlt⟩
    rw [shiftFrom_ge hge]
    exact Nat.le_add_right _ _
  have hapart : ∀ {a b : TypeId}, a < (layAll regs).1.size → (layAll regs).1.size ≤ b →
      b < (layAll ((name, reg) :: regs)).1.size →
        r a ≠ shiftFrom (layAll regs).1.size (places name).graph.size r b := by
    intro a b ha hge hb heq
    obtain ⟨hlow, hhigh⟩ := hnewIds hge hb
    rcases hfound.outside h hknown hname hnew ha with hout | hout
    · exact absurd hlow (Nat.not_le_of_lt (heq ▸ hout))
    · exact absurd hhigh (Nat.not_lt_of_le (heq ▸ hout))
  refine ⟨hembeds.unit, fun {a b} ha hb heq => ?_, fun {id node} hn => ?_, fun {id} hid => ?_,
    fun {other reg'} hmem => ?_⟩
  · exact shiftFrom_inj hfound.inj hapart ha hb heq
  · rcases Nat.lt_or_ge id (layAll regs).1.size with hlt | hge
    · obtain ⟨old, hold⟩ := exists_node hlt
      obtain rfl : old = node := by
        have hsame := (reg.keptIn_lay none _ id old hold).symm.trans hn
        exact Except.ok.inj hsame
      have hparts : ∀ part ∈ old.kind.parts,
          shiftFrom (layAll regs).1.size (places name).graph.size r part = r part := fun part hpart =>
        shiftFrom_lt ((layAll_regular regs).lt_of_kind (kind_eq_ok_iff.2 ⟨old, hold, rfl⟩)
          part hpart)
      rw [shiftFrom_lt hlt, TypeKind.rename_congr hparts]
      exact hfound.node hold
    · obtain ⟨origin, hn', horigin⟩ := hembeds.node hge hn
      exact ⟨origin, hkept _ _ hn', horigin⟩
  · rcases Nat.lt_or_ge id (layAll regs).1.size with hlt | hge
    · rw [shiftFrom_lt hlt]
      rcases hfound.range hlt with hunit | ⟨other, reg', hmem, hrange⟩
      · exact .inl hunit
      · exact .inr ⟨other, reg', mem_cons_of_mem _ hmem, hrange⟩
    · exact .inr ⟨name, reg, mem_cons_self, hnewIds hge hid⟩
  · rcases mem_cons.1 hmem with heq | hmem
    · cases heq
      exact ⟨_, by rw [Signature.typesOf, layAll, lookup_cons_self]; rfl, htype⟩
    · have hne : other ≠ name := fun heq => hnew (heq ▸ mem_map_of_mem hmem)
      obtain ⟨type, htypes, hat⟩ := hfound.types hmem
      obtain ⟨sig, hsig, rfl⟩ := Option.map_eq_some_iff.1 htypes
      refine ⟨sig.type, ?_, ?_⟩
      · rw [Signature.typesOf, layAll, lookup_other hne]
        exact htypes
      · rw [shiftFrom_lt (layAll_lt hsig), hat]

/-- All functions are found. -/
theorem of_records (h : s.Records places known)
    (hknown : ∀ {name reg}, (name, reg) ∈ regs → known name = some reg)
    (hnodup : (regs.map Prod.fst).Nodup) : ∃ r, Found places s.types regs r := by
  induction regs with
  | nil => exact ⟨_, nil h⟩
  | cons entry regs ih =>
    obtain ⟨name, reg⟩ := entry
    obtain ⟨hnew, hnodup⟩ := nodup_cons.1 hnodup
    have hrest : ∀ {name reg}, (name, reg) ∈ regs → known name = some reg := fun hmem =>
      hknown (mem_cons_of_mem _ hmem)
    obtain ⟨r, hfound⟩ := ih hrest hnodup
    exact ⟨_, hfound.cons h hrest (hknown mem_cons_self) hnew⟩

/-- New types get new numbers in both graphs. -/
theorem embeds {g : TypeGraph} (h : Found places g regs r) :
    (layAll regs).1.Embeds (shiftFrom (layAll regs).1.size g.size r) 0 g := by
  have hempty := embeds_empty regs g h.unit
  have hlt : ∀ {id : TypeId}, id < (layAll regs).1.size → r id < g.size := by
    intro id hid
    obtain ⟨node, hn⟩ := exists_node hid
    obtain ⟨origin, hn', -⟩ := h.node hn
    exact lt_size_of_node hn'
  have hapart : ∀ {a b : TypeId}, a < (layAll regs).1.size → (layAll regs).1.size ≤ b → True →
      r a ≠ shiftFrom (layAll regs).1.size g.size r b := by
    intro a b ha hb _ heq
    rw [shiftFrom_ge hb] at heq
    exact absurd (hlt ha) (Nat.not_lt_of_le (heq ▸ Nat.le_add_right _ _))
  refine ⟨fun {a b} _ _ heq => ?_, hempty.unit, hempty.succ, hempty.size, fun {id node} _ hn => ?_⟩
  · exact shiftFrom_inj h.inj hapart trivial trivial heq
  · have hparts : ∀ part ∈ node.kind.parts, shiftFrom (layAll regs).1.size g.size r part = r part :=
      fun part hpart => shiftFrom_lt ((layAll_regular regs).lt_of_kind
        (kind_eq_ok_iff.2 ⟨node, hn, rfl⟩) part hpart)
    rw [shiftFrom_lt (lt_size_of_node hn), TypeKind.rename_congr hparts]
    exact h.node hn

end Found

/-! ## Twins of the home -/

/-- The numbers of contexts in a session where `n` is the next one. -/
def contextsFrom (n : ContextId) : ContextId → ContextId
  | 0 => 0
  | id + 1 => id + n

theorem contextsFrom_inj {n : ContextId} (h : 0 < n) : Function.Injective (contextsFrom n) := by
  intro a b heq
  cases a with
  | zero =>
    cases b with
    | zero => rfl
    | succ b => exact absurd heq (Nat.ne_of_lt (Nat.add_pos_right b h))
  | succ a =>
    cases b with
    | zero => exact absurd heq.symm (Nat.ne_of_lt (Nat.add_pos_right a h))
    | succ b => exact congrArg Nat.succ (Nat.add_right_cancel heq)

theorem contextsFrom_succ (n : ContextId) {id : ContextId} (h : 0 < id) :
    contextsFrom n (id + 1) = contextsFrom n id + 1 := by
  cases id with
  | zero => cases h
  | succ id => exact Nat.succ_add id n

/-- No function is being lowered at home. -/
theorem home_firm (regs : List (String × Registration)) : (home regs).scope.Firm (home regs).types where
  vars := fun hentry => by simp [home, Scope.initial] at hentry
  locals := fun l hl => by simp [home, Scope.initial] at hl
  known := fun {c id} hc hid => by
    obtain rfl : c = .new 0 := mem_singleton.1 hc
    cases hid
  functions := layAll_lt
  contexts := Nat.zero_lt_one

/-- An idle scope is the scope at home under other numbers. -/
theorem Scope.Idle.eq_renumber {s : Scope} (h : s.Idle) (hroot : s.current.id = 0) {r : Renumbering}
    (hcontexts : r.contexts = contextsFrom s.nextContext) (hloops : r.loops = (· + s.nextLoop))
    (regs : List (String × Registration)) : s = (home regs).scope.renumber r s.functions := by
  obtain ⟨hcurrent, houter⟩ := cons_eq_cons.1 h.contexts
  have hvars := h.vars
  have hlocals := h.locals
  rw [hroot] at hcurrent
  obtain ⟨current, outer, nextContext, nextLoop, vars, locals, functions⟩ := s
  subst hcurrent houter hvars hlocals
  simp [home, Scope.initial, Scope.renumber, Context.renumber, Context.new, hcontexts, hloops,
    contextsFrom]

/-- Every session in which the functions are registered is a twin of their home. -/
theorem Session.Records.twins {places : String → Place} {s : Session} (h : s.Records places known)
    (hknown : ∀ {name reg}, (name, reg) ∈ regs → known name = some reg)
    (hnodup : (regs.map Prod.fst).Nodup)
    (hnames : ∀ name ∈ names, ∀ reg, known name = some reg → (name, reg) ∈ regs) :
    ∃ r : Renumbering, (home regs).Twins r names s ∧ r.loops = (· + s.scope.nextLoop) := by
  obtain ⟨q, hfound⟩ := Found.of_records h hknown hnodup
  have hembeds := hfound.embeds
  have hpos : 0 < s.scope.nextContext := Nat.lt_of_le_of_lt (Nat.zero_le _) h.idle.below
  let r : Renumbering :=
    { types := Found.shiftFrom (layAll regs).1.size s.types.size q
      contexts := contextsFrom s.scope.nextContext
      loops := (· + s.scope.nextLoop)
      types_inj := fun a b => hembeds.inj (Nat.zero_le a) (Nat.zero_le b)
      types_void := hembeds.unit (show TypeId.void < 4 by decide)
      contexts_inj := contextsFrom_inj hpos
      contexts_succ := fun id => contextsFrom_succ _
      loops_succ := fun id => Nat.succ_add id _ }
  refine ⟨r, ⟨layAll_regular regs, home_firm regs, hembeds, s.scope.functions,
    h.idle.eq_renumber h.root rfl rfl regs, fun name hname => ?_⟩, rfl⟩
  cases hreg : known name with
  | none =>
    have habsent : name ∉ regs.map Prod.fst := by
      intro hmem
      obtain ⟨⟨other, reg⟩, hentry, rfl⟩ := mem_map.1 hmem
      rw [hknown hentry] at hreg
      cases hreg
    rw [Signature.typesOf, Signature.typesOf, h.absent hreg]
    exact congrArg (fun sig => Option.map r.types (Option.map Signature.type sig))
      (layAll_absent habsent).symm
  | some reg =>
    obtain ⟨type, htype, hat⟩ := hfound.types (hnames name hname reg hreg)
    obtain ⟨sig, hsig, rfl⟩ := Option.map_eq_some_iff.1 htype
    have hplace : r.types sig.type = (reg.at (places name)).1 :=
      (Found.shiftFrom_lt (layAll_lt hsig)).trans hat.symm
    rw [Signature.typesOf, (h.present hreg).1, ← hplace]
    exact congrArg (Option.map r.types) htype.symm

/-! ## Histories -/

/-- What the functions with these names are registered as. -/
def registrations (known : String → Option Registration) (names : List String) :
    List (String × Registration) :=
  names.dedup.filterMap fun name => (known name).map (Prod.mk name)

theorem mem_registrations :
    (name, reg) ∈ registrations known names ↔ name ∈ names ∧ known name = some reg := by
  simp only [registrations, mem_filterMap, mem_dedup, Option.map_eq_some_iff, Prod.mk.injEq]
  constructor
  · rintro ⟨other, hmem, reg', hreg, rfl, rfl⟩
    exact ⟨hmem, hreg⟩
  · rintro ⟨hmem, hreg⟩
    exact ⟨name, hmem, reg, hreg, rfl, rfl⟩

theorem nodup_registrations (known : String → Option Registration) (names : List String) :
    ((registrations known names).map Prod.fst).Nodup := by
  rw [registrations, map_filterMap]
  refine names.nodup_dedup.filterMap fun a b name ha hb => ?_
  simp only [Option.map_map, Option.mem_def, Option.map_eq_some_iff, Function.comp_apply] at ha hb
  obtain ⟨-, -, rfl⟩ := ha
  obtain ⟨-, -, rfl⟩ := hb
  rfl

/-- The session that a history leads to is a twin of the home of the functions with these names. -/
theorem twins_after (requests : List Request)
    (h : ∀ name ∈ names, registered requests name = known name) :
    ∃ r : Renumbering, (home (registrations known names)).Twins r names (Session.after requests) ∧
      r.loops = (· + (Session.after requests).scope.nextLoop) := by
  obtain ⟨places, hrecords⟩ := records_after requests
  refine hrecords.twins (fun {name reg} hmem => ?_) (nodup_registrations known names)
    fun name hname reg hreg => ?_
  · obtain ⟨hname, hreg⟩ := mem_registrations.1 hmem
    rw [h name hname, hreg]
  · exact mem_registrations.2 ⟨hname, h name hname ▸ hreg⟩

/-- A function is lowered after a history as it is at home. -/
theorem lowerFunction_home (requests : List Request) {decl : FnDecl}
    (h : ∀ name ∈ decl.name :: decl.body.callees, registered requests name = known name) :
    ∃ r : Renumbering, r.loops = (· + (Session.after requests).scope.nextLoop) ∧
      Lockstep (TypesAlike r) (SameFunction r)
        (lowerFunction decl (home (registrations known (decl.name :: decl.body.callees))))
        (lowerFunction decl (Session.after requests)) := by
  obtain ⟨r, htwins, hloops⟩ := twins_after requests h
  exact ⟨r, hloops, lowerFunction_lockstep htwins mem_cons_self (subset_cons_self _ _)⟩

end SlotCode
