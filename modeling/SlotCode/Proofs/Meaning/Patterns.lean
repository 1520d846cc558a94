import SlotCode.Proofs.Meaning.Follows

/-!
# Patterns follow their binding

Storing a content into a pattern, slot by slot, does to the store what binding the names of the
pattern does to the environment: with new names (`Declared.scoped`) and with the one name of a `set`
(`Scoped.update`).  A value that is stored does not read slots that were stored before
(`Value.Ok.parallel`).
-/

namespace SlotCode

open Outline Lower List

variable {A : Arithmetic} {p : Program} {g : TypeGraph} {o o' : Outline} {σ σ' : Store}
  {pattern : Pattern} {id : VarId} {type : TypeId} {slots : List VarId} {content : Content}

/-! ## Slots of names -/

/-- Two variables that are no leaves have no slot in common. -/
theorem Outline.Good.slots_disjoint (hg : o.Good) {x y : VarId} (hne : x ≠ y)
    (hx : ∀ r ls, o.leavesOf r = some ls → x ∉ ls) (hy : ∀ r ls, o.leavesOf r = some ls → y ∉ ls) :
    (o.slots x).Disjoint (o.slots y) := by
  cases hlx : o.leavesOf x with
  | none =>
    rw [slots_of_none hlx, singleton_disjoint]
    cases hly : o.leavesOf y with
    | none =>
      rw [slots_of_none hly, mem_singleton]
      exact hne
    | some ls =>
      rw [slots_of_some hly]
      exact hx y ls hly
  | some ls =>
    rw [slots_of_some hlx]
    cases hly : o.leavesOf y with
    | none =>
      rw [slots_of_none hly, disjoint_singleton]
      exact hy x ls hlx
    | some ls' =>
      rw [slots_of_some hly]
      exact hg.disjoint x y ls ls' hlx hly hne

theorem Store.Has.split {ids ids' : List VarId} {words words' : List Word}
    (hlen : ids.length = words.length) (h : σ.Has (ids ++ ids') (words ++ words')) :
    σ.Has ids words ∧ σ.Has ids' words' := by
  induction ids generalizing words with
  | nil =>
    cases words with
    | nil => exact ⟨.nil, h⟩
    | cons => cases hlen
  | cons id ids ih =>
    cases words with
    | nil => cases hlen
    | cons word words =>
      obtain _ | ⟨hw, h⟩ := h
      obtain ⟨hhead, htail⟩ := ih (Nat.succ.inj hlen) h
      exact ⟨.cons hw hhead, htail⟩

/-! ## New names -/

namespace Outline

theorem names_declare (hf : o.frames ≠ []) (name : String) :
    (o.declare name).names = (name, o.vars.length) :: o.names := by
  obtain ⟨frame, rest, hframes⟩ := exists_cons_of_ne_nil hf
  rw [names, names, frames_declare hframes, hframes]
  rfl

theorem frames_declare_ne (hf : o.frames ≠ []) (name : String) : (o.declare name).frames ≠ [] := by
  obtain ⟨frame, rest, hframes⟩ := exists_cons_of_ne_nil hf
  rw [frames_declare hframes]
  nofun

mutual

/-- The variables of the pattern have got names, and the names before are still there. -/
theorem Declared.mem_names {target : Expr} {pattern : Pattern} {o o' : Outline}
    (h : Declared target pattern o o') (hf : o.frames ≠ []) :
    o'.frames ≠ [] ∧ (∀ x ∈ o.names, x ∈ o'.names) ∧
      ∀ x ∈ pattern.vars, ∃ name, (name, x) ∈ o'.names := by
  cases h with
  | var span name =>
    rw [names_declare hf]
    refine ⟨frames_declare_ne hf name, fun x => mem_cons_of_mem _, fun x hx => ⟨name, ?_⟩⟩
    cases mem_singleton.1 hx
    exact mem_cons_self
  | tuple span h => exact DeclaredEach.mem_names h hf
termination_by sizeOf pattern

theorem DeclaredEach.mem_names {targets : List Expr} {items : List Pattern} {o o' : Outline}
    (h : DeclaredEach targets items o o') (hf : o.frames ≠ []) :
    o'.frames ≠ [] ∧ (∀ x ∈ o.names, x ∈ o'.names) ∧
      ∀ x ∈ Pattern.varsAll items, ∃ name, (name, x) ∈ o'.names := by
  cases h with
  | nil => exact ⟨hf, fun _ hx => hx, nofun⟩
  | cons h hs =>
    obtain ⟨hf₁, hkeep, hvars⟩ := Declared.mem_names h hf
    obtain ⟨hf', hkeep', hvars'⟩ := DeclaredEach.mem_names hs hf₁
    refine ⟨hf', fun x hx => hkeep' x (hkeep x hx), fun x hx => ?_⟩
    rcases mem_append.1 hx with hx | hx
    · obtain ⟨name, hname⟩ := hvars x hx
      exact ⟨name, hkeep' _ hname⟩
    · exact hvars' x hx
termination_by sizeOf items

end

/-- Different variables of a pattern have different slots. -/
theorem Fills.nodup (hg : o.Good) (h : o.Fills pattern type slots) (hvars : pattern.vars.Nodup)
    (hnames : ∀ x ∈ pattern.vars, ∃ name, (name, x) ∈ o.names) : slots.Nodup := by
  rw [h.slots_eq, nodup_flatMap]
  refine ⟨fun x _ => hg.slots_nodup x, hvars.imp_of_mem fun {x y} hx hy hne => ?_⟩
  obtain ⟨name, hx⟩ := hnames x hx
  obtain ⟨name', hy⟩ := hnames y hy
  exact hg.slots_disjoint hne (readable_of_name hg hx).1 (readable_of_name hg hy).1

end Outline

section

variable (hr : g.Regular) (hg : o.Good) (hext : o.types.Extends g)

include hr hg hext

/-- What fits the type of a pattern fits its slots. -/
theorem Outline.Fills.length_words (hvalue : o.types.IsValue type) (h : o.Fills pattern type slots)
    (hfits : g.Fits content type) : slots.length = content.words.length := by
  rw [hfits.length_words hr, TypeGraph.leafTypes_extend hg.types.toSound hext hvalue.lt_size]
  exact (h.takes hg).length_eq

omit hg in
theorem Outline.Receives.holds (h : o.Receives id type slots) (hfits : g.Fits content type)
    (hhas : σ.Has slots content.words) : Holds g o σ id content := by
  obtain ⟨⟨t, ht, halike⟩, rfl⟩ := h
  exact ⟨t, ht, hfits.alike hr (halike.symm.extend hext), .inr hhas⟩

mutual

theorem Outline.Declared.scoped {target : Expr} {pattern : Pattern} {o₀ o₁ : Outline}
    (h : Declared target pattern o₀ o₁) (hf : o₀.frames ≠ []) {type : TypeId} {slots : List VarId}
    (hfills : o.Fills pattern type slots) {content : Content} (hfits : g.Fits content type)
    (hhas : σ.Has slots content.words) {env env' : Env}
    (hbind : bindContent Env.declare target content env = some env')
    (hs : Scoped g o σ o₀.names env) : Scoped g o σ o₁.names env' := by
  cases h with
  | var span name =>
    rw [bindContent] at hbind
    cases hbind
    cases hfills with
    | var _ hreceives =>
      rw [names_declare hf]
      exact .cons ⟨rfl, hreceives.holds hr hext hfits hhas⟩ hs
  | tuple span hdeclared =>
    cases hfills with
    | tuple _ hk hfills =>
      cases content with
      | tuple contents =>
        rw [bindContent] at hbind
        obtain ⟨types, hk', hfits⟩ := hfits
        cases TypeGraph.kind_unique (hext _ _ hk) hk'
        have hparts := fun t ht => hg.types.parts type t ⟨_, hk, ht⟩
        exact DeclaredEach.scoped hdeclared hf hfills hparts hfits hhas hbind hs
      | nothing | datum | box => cases hbind
termination_by sizeOf pattern

theorem Outline.DeclaredEach.scoped {targets : List Expr} {items : List Pattern} {o₀ o₁ : Outline}
    (h : DeclaredEach targets items o₀ o₁) (hf : o₀.frames ≠ []) {types : List TypeId}
    {slots : List VarId} (hfills : o.FillsEach items types slots)
    (hvalue : ∀ t ∈ types, o.types.IsValue t) {contents : List Content}
    (hfits : g.FitsEach contents types) (hhas : σ.Has slots (Content.wordsAll contents))
    {env env' : Env} (hbind : bindContents Env.declare targets contents env = some env')
    (hs : Scoped g o σ o₀.names env) : Scoped g o σ o₁.names env' := by
  cases h with
  | nil =>
    cases contents with
    | nil => cases hbind; exact hs
    | cons => cases hbind
  | cons hdeclared hdeclareds =>
    cases hfills with
    | cons hfill hfills =>
      cases contents with
      | nil => cases hbind
      | cons content contents =>
        rw [bindContents, Option.bind_eq_some_iff] at hbind
        obtain ⟨env₁, hbind, hbinds⟩ := hbind
        obtain ⟨hhead, hrest⟩ :=
          hhas.split (hfill.length_words hr hg hext (hvalue _ mem_cons_self) hfits.1)
        have hscoped := Declared.scoped hdeclared hf hfill hfits.1 hhead hbind hs
        exact DeclaredEach.scoped hdeclareds (hdeclared.mem_names hf).1 hfills
          (fun t ht => hvalue t (mem_cons_of_mem _ ht)) hfits.2 hrest hbinds hscoped
termination_by sizeOf items

end

end

/-- New names, with code that stores a content into their slots. -/
theorem follows_declare {pre : Store → Prop} {target : Expr} {o₁ : Outline} {code : Code}
    (hr : g.Regular) (hg : o.Good) (hf : o.frames ≠ []) (hdeclared : Declared target pattern o o₁)
    (hsteps : o₁.Steps o') (hext : o'.types.Extends g) (hfills : o'.Fills pattern type slots)
    (h : ∀ m, pre m.store → g.Fits content type ∧ ∃ m', Runs A p code m .done m' ∧
      m'.printed = m.printed ∧ m.store.writeAll slots content.words = some m'.store) :
    Follows A p g pre (Eval.modifyEnv (bindContent Env.declare target content)) code o o'
      (fun _ _ => True) := by
  intro w m ht hp ending w' he
  obtain ⟨env', hbind, heq⟩ := Option.map_eq_some_iff.1 he
  cases heq
  obtain ⟨new, hadds, count, hvars, -⟩ := hdeclared.adds hg hf
  obtain ⟨-, -, hnames⟩ := hdeclared.mem_names hf
  rw [← hsteps.names] at hnames
  have hnodup : slots.Nodup := hfills.nodup hsteps.good (hvars ▸ nodup_range') hnames
  obtain ⟨hfits, m', hruns, hprinted, hwrite⟩ := h m hp
  have hpres : Preserved o o' m.store m'.store :=
    preserved_of_writeAll hwrite fun l hl =>
      hdeclared.le_of_mem_slots hg hf hsteps.good hfills hl
  have hold := ht.names.preserved hg (hadds.keeps.trans hsteps.keeps) hpres
  refine ⟨.done, m', hruns, rfl, ⟨hprinted.trans ht.printed, ?_⟩, trivial⟩
  rw [hsteps.names]
  exact hdeclared.scoped hr hsteps.good hext hf hfills hfits (Store.writeAll_has hwrite hnodup) hbind hold

/-! ## The name of a `set` -/

/-- The content of one variable changes, and its name means the new content. -/
theorem Scoped.update {names : List (String × VarId)} {env env' : Env} {name : String}
    (hs : Scoped g o σ names env) (hnodup : (names.map Prod.snd).Nodup)
    (hid : names.lookup name = some id) (hup : Env.update name content env = some env')
    (hnew : Holds g o' σ' id content)
    (hold : ∀ other x c, (other, x) ∈ names → x ≠ id → Holds g o σ x c → Holds g o' σ' x c) :
    Scoped g o' σ' names env' := by
  induction hs generalizing env' with
  | nil => cases hid
  | @cons x y names env hxy hs ih =>
    rw [map_cons, nodup_cons] at hnodup
    rw [lookup_cons] at hid
    rw [Env.update] at hup
    by_cases heq : name = x.1
    · rw [if_pos (heq.trans hxy.1)] at hup
      rw [beq_iff_eq.2 heq] at hid
      cases hid
      cases hup
      refine .cons ⟨hxy.1, hnew⟩ (Scoped.imp hs fun other z c hmem => ?_)
      refine hold other z c (mem_cons_of_mem _ hmem) fun hz => hnodup.1 ?_
      exact mem_map.2 ⟨(other, z), hmem, hz⟩
    · rw [if_neg fun h => heq (h.trans hxy.1.symm)] at hup
      rw [beq_eq_false_iff_ne.2 heq] at hid
      obtain ⟨env₁, hup₁, rfl⟩ := Option.map_eq_some_iff.1 hup
      have hmem : (name, id) ∈ names := by
        obtain ⟨l₁, l₂, rfl, -⟩ := lookup_eq_some_iff.1 hid
        exact mem_append_right _ mem_cons_self
      refine .cons ⟨hxy.1, hold x.1 x.2 y.2 mem_cons_self (fun hx => hnodup.1 ?_) hxy.2⟩
        (ih hnodup.2 hid hup₁ fun other z c hmem => hold other z c (mem_cons_of_mem _ hmem))
      exact mem_map.2 ⟨(name, id), hmem, hx.symm⟩

/-- A value that fits a variable reads all of its slots in order, or, if it has several, none of
them: no tuple is a part of itself. -/
theorem Value.Ok.parallel {v : Value} (hv : v.Ok o) (hg : o.Good) (ht : o.Takes id v.type)
    (hvoid : v.shape ≠ .void) : Parallel (o.slots id) v.leaves := by
  obtain ⟨t, ht, halike⟩ := ht
  cases hls : o.leavesOf id with
  | none =>
    have hlen := (hg.slots_typed ht).length_eq
    rw [(halike.leafTypes hg.types.toSound).length_eq, ← (hv.typed hvoid).length_eq] at hlen
    rw [slots_of_none hls] at hlen ⊢
    obtain ⟨operand, hleaves⟩ := length_eq_one_iff.1 hlen.symm
    rw [hleaves]
    exact ⟨nofun, trivial⟩
  | some ls =>
    rw [slots_of_some hls]
    by_cases hreads : ∃ x ∈ ls, x ∈ Operand.readsAll v.leaves
    · obtain ⟨x, hx, hread⟩ := hreads
      obtain ⟨t', ht', hself | hpart⟩ := (hv.reads x hread).2 id ls hls hx
      · rw [hself.1, ← slots_of_some hls]
        exact parallel_self (hg.slots_nodup id)
      · cases ht.symm.trans ht'
        exact absurd halike.symm (TypeGraph.not_alike_component hg.types.toSound hpart)
    · exact parallel_of_disjoint fun x hx hread => hreads ⟨x, hx, hread⟩

theorem follows_update {v : Value} {name : String} {span : Span} (hr : g.Regular) (hg : o.Good)
    (hsteps : o.Steps o') (hext : o'.types.Extends g) (hid : o.lookup name = some id)
    (hreceives : o'.Receives id v.type slots) (hv : v.Ok o') (hvoid : v.shape ≠ .void) :
    Follows A p g (fun σ => Means A g σ v content) (Eval.modifyEnv (Env.update name content))
      (assignments span slots v.leaves) o o' (fun _ _ => True) := by
  intro w m ht hm ending w' he
  obtain ⟨env', hup, heq⟩ := Option.map_eq_some_iff.1 he
  cases heq
  have hlen : slots.length = v.leaves.length := by
    rw [(hreceives.takes hsteps.good).length_eq, (hv.typed hvoid).length_eq]
  obtain ⟨htakes, rfl⟩ := hreceives
  obtain ⟨σ, hwrite, hruns⟩ := runs_assignments (p := p) span
    (hv.parallel hsteps.good htakes hvoid) hlen (hm.words fun htype => hvoid (hv.void.2 htype))
  have hnew : Holds g o' σ id content :=
    Receives.holds hr hext ⟨htakes, rfl⟩ hm.fits (Store.writeAll_has hwrite (hsteps.good.slots_nodup id))
  have hreadable : (name, id) ∈ o'.names := hsteps.names ▸ mem_names_of_lookup hid
  refine ⟨.done, _, hruns, rfl, ⟨ht.printed, ?_⟩, trivial⟩
  rw [hsteps.names]
  refine ht.names.update hg.distinct hid hup hnew fun other x c hmem hne hx => ?_
  -- The slots of the other names are none of those that were written.
  obtain ⟨type, htype, hfits, hslots⟩ := hx.mono hg hsteps.grows hsteps.good
  refine ⟨type, htype, hfits, hslots.imp_right fun hhas => hhas.congr fun l hl => ?_⟩
  rw [← hsteps.names] at hmem
  have hdisjoint := hsteps.good.slots_disjoint hne (readable_of_name hsteps.good hmem).1
    (readable_of_name hsteps.good hreadable).1
  exact Store.writeAll_of_not_mem hwrite fun hl' => hdisjoint hl hl'

end SlotCode
