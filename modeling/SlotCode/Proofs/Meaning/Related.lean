import SlotCode.Proofs.Lowering.Results
import SlotCode.Proofs.Meaning.Evaluation
import SlotCode.Proofs.Meaning.Fits
import SlotCode.Proofs.Meaning.Runs

/-!
# Trees and code related

When a store has what a tree has: a variable *holds* a content if its slots hold the words of the
content (`Holds`), a value *means* a content if its operands stand for those words (`Means`), and the
names in scope hold what the environment says (`Scoped`).

All of this stays true while code runs that *preserves* the variables there are, that is, writes new
variables and variables reserved for open loops only (`Preserved`).
-/

namespace SlotCode

open Outline

section

variable (A : Arithmetic) (g : TypeGraph)

def Holds (o : Outline) (σ : Store) (id : VarId) (content : Content) : Prop :=
  ∃ type, o.typeOf id = some type ∧ g.Fits content type ∧
    (type = .void ∨ σ.Has (o.slots id) content.words)

structure Means (σ : Store) (v : Value) (content : Content) : Prop where
  fits : g.Fits content v.type
  words : v.type ≠ .void → Operand.evalAll A σ v.leaves = some content.words

def Scoped (o : Outline) (σ : Store) (names : List (String × VarId)) (env : Env) : Prop :=
  List.Forall₂ (fun x y => x.1 = y.1 ∧ Holds g o σ x.2 y.2) names env

end

/-- Between the two stores only variables changed that `o` does not have yet or that `o'` reserves for
the values of loops. -/
def Preserved (o o' : Outline) (σ σ' : Store) : Prop :=
  ∀ x, x < o.vars.length → ¬ o'.Reserved x → σ' x = σ x

variable {A : Arithmetic} {p : Program} {g : TypeGraph} {o o' : Outline} {σ σ' : Store}
  {names : List (String × VarId)} {env : Env} {v : Value} {id : VarId} {content : Content}

/-! ## What is preserved -/

theorem Preserved.refl (o o' : Outline) (σ : Store) : Preserved o o' σ σ :=
  fun _ _ _ => rfl

theorem Runs.preserved {code : Code} {m m' : Machine} {x : Exit} (h : Runs A p code m x m')
    (hs : Code.Spares o o' code) : Preserved o o' m.store m'.store := by
  intro id hid hres
  refine h.frame fun hmem => ?_
  rcases hs id hmem with hnew | hr
  · exact Nat.not_lt.2 hnew hid
  · exact hres hr

theorem preserved_of_writeAll {ids : List VarId} {words : List Word}
    (h : σ.writeAll ids words = some σ') (hnew : ∀ id ∈ ids, o.vars.length ≤ id) :
    Preserved o o' σ σ' :=
  fun _ hx _ => Store.writeAll_of_not_mem h fun hmem => Nat.not_lt.2 (hnew _ hmem) hx

/-! ## Variables -/

theorem Outline.Good.slots_lt (hg : o.Good) {l : VarId} {type : TypeId}
    (ht : o.typeOf id = some type) (hl : l ∈ o.slots id) : l < o.vars.length := by
  obtain ⟨t, -, hlt⟩ := TypeGraph.exists_of_forall₂ (hg.slots_typed ht) hl
  exact lt_of_typeOf hlt

/-- The slots of a variable that can be read are not reserved. -/
theorem Outline.Readable.slot_not_reserved (hg : o.Good) {l : VarId} (h : o.Readable id)
    (hl : l ∈ o.slots id) : ¬ o.Reserved l := by
  cases hls : o.leavesOf id with
  | none =>
    rw [slots_of_none hls, List.mem_singleton] at hl
    exact hl ▸ h.plain.1
  | some ls =>
    rw [slots_of_some hls] at hl
    exact h.leaf_not_reserved hg hls hl

theorem Holds.mono (hg : o.Good) (h : o.Grows o') (hg' : o'.Good) (hh : Holds g o σ id content) :
    Holds g o' σ id content := by
  obtain ⟨type, ht, hfits, hslots⟩ := hh
  refine ⟨type, h.typeOf ht, hfits, ?_⟩
  rw [h.slots hg hg' ht]
  exact hslots

/-- What a variable with a type holds can be said with fewer variables around. -/
theorem Holds.back (hg : o.Good) (h : o.Grows o') (hg' : o'.Good) {type : TypeId}
    (ht : o.typeOf id = some type) (hh : Holds g o' σ id content) : Holds g o σ id content := by
  obtain ⟨type', ht', hfits, hslots⟩ := hh
  cases (h.typeOf ht).symm.trans ht'
  rw [h.slots hg hg' ht] at hslots
  exact ⟨type, ht, hfits, hslots⟩

theorem Holds.preserved (hg : o.Good) (hk : o.Keeps o') (hread : o.Readable id)
    (hp : Preserved o o' σ σ') (hh : Holds g o σ id content) : Holds g o' σ' id content := by
  refine Holds.mono hg hk.grows hk.good ?_
  obtain ⟨type, ht, hfits, hslots⟩ := hh
  refine ⟨type, ht, hfits, hslots.imp_right fun hhas => hhas.congr fun l hl => ?_⟩
  have hlt := hg.slots_lt ht hl
  exact hp l hlt fun hres =>
    hread.slot_not_reserved hg hl (hres.of_grows hg hk.grows hk.loops hlt)

/-! ## Scopes -/

theorem Scoped.imp (hs : Scoped g o σ names env)
    (h : ∀ name id content, (name, id) ∈ names → Holds g o σ id content → Holds g o' σ' id content) :
    Scoped g o' σ' names env := by
  induction hs with
  | nil => exact .nil
  | @cons x y names env hxy _ ih =>
    refine .cons ⟨hxy.1, h x.1 x.2 y.2 List.mem_cons_self hxy.2⟩ (ih ?_)
    intro name id content hmem
    exact h name id content (List.mem_cons_of_mem _ hmem)

theorem Scoped.mono (hs : Scoped g o σ names env) (hg : o.Good) (h : o.Grows o') (hg' : o'.Good) :
    Scoped g o' σ names env :=
  hs.imp fun _ _ _ _ => Holds.mono hg h hg'

theorem Scoped.preserved (hs : Scoped g o σ o.names env) (hg : o.Good) (hk : o.Keeps o')
    (hp : Preserved o o' σ σ') : Scoped g o' σ' o.names env :=
  hs.imp fun _ _ _ hmem => Holds.preserved hg hk (readable_of_name hg hmem) hp

/-- Names that were added can be forgotten. -/
theorem Scoped.split {new : List (String × VarId)} (hs : Scoped g o σ (new ++ names) env) :
    ∃ added rest, env = added ++ rest ∧ added.length = new.length ∧ Scoped g o σ names rest := by
  induction new generalizing env with
  | nil => exact ⟨[], env, rfl, rfl, hs⟩
  | cons x new ih =>
    cases hs with
    | @cons _ y _ env _ hs =>
      obtain ⟨added, rest, rfl, hlen, hs⟩ := ih hs
      exact ⟨y :: added, rest, rfl, congrArg Nat.succ hlen, hs⟩

/-- A scope seen again with the variables that were there before. -/
theorem Scoped.back {env' : Env} (hs : Scoped g o σ names env) (hg : o.Good) (h : o.Grows o')
    (hg' : o'.Good) (hs' : Scoped g o' σ' names env') : Scoped g o σ' names env' := by
  refine hs'.imp fun name id content hmem => ?_
  obtain ⟨y, -, -, type, ht, -⟩ := TypeGraph.exists_of_forall₂ hs hmem
  exact Holds.back hg h hg' ht

theorem Scoped.lookup (hs : Scoped g o σ names env) {name : String}
    (hid : names.lookup name = some id) (hc : env.lookup name = some content) :
    Holds g o σ id content := by
  induction hs with
  | nil => cases hid
  | @cons x y names env hxy _ ih =>
    rw [List.lookup_cons] at hid hc
    rw [← hxy.1] at hc
    split at hid
    · next heq =>
      rw [heq] at hc
      cases hid
      cases hc
      exact hxy.2
    · next hne =>
      rw [hne] at hc
      exact ih hid hc

/-! ## Values -/

theorem Means.preserved (hm : Means A g σ v content) (hg : o.Good) (hv : v.Ok o) (hk : o.Keeps o')
    (hp : Preserved o o' σ σ') : Means A g σ' v content where
  fits := hm.fits
  words hne := by
    rw [← hm.words hne]
    refine Operand.evalAll_congr v.leaves fun x hx => ?_
    have hlt := hv.lt_of_reads hx
    exact hp x hlt fun hres => (hv.reads x hx).1 (hres.of_grows hg hk.grows hk.loops hlt)

/-- Reading a variable gives what it holds. -/
theorem Value.IsRead.means (h : v.IsRead o id) (hh : Holds g o σ id content) :
    Means A g σ v content := by
  obtain ⟨type, ht, hfits, hslots⟩ := hh
  cases h.type.symm.trans ht
  refine ⟨hfits, fun hne => ?_⟩
  rw [h.leaves hne, Operand.evalAll_vars]
  exact hslots.resolve_left hne

theorem means_void (hg : g.Regular) (hv : v.type = .void) :
    Means A g σ v content ↔ content = .nothing := by
  rw [← TypeGraph.fits_void_iff hg, ← hv]
  exact ⟨Means.fits, fun hfits => ⟨hfits, fun hne => absurd hv hne⟩⟩

/-- A value of a type of data is one operand that stands for a datum. -/
theorem Means.datum {operand : Operand} (hm : Means A g σ v content)
    (hs : v.shape = .scalar operand) {kind : TypeKind} (hk : g.kind v.type = .ok kind)
    (hb : kind.isBase = true) (hne : v.type ≠ .void) :
    ∃ value, content = .datum value ∧ operand.eval A σ = some (.datum value) := by
  obtain ⟨value, rfl⟩ := hm.fits.exists_datum hk hb hne
  have hwords := hm.words hne
  rw [Value.leaves, hs, Operand.evalAll_eq_some_iff] at hwords
  obtain _ | ⟨hword, -⟩ := hwords
  exact ⟨value, rfl, hword⟩

end SlotCode
