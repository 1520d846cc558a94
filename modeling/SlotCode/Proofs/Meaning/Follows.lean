import SlotCode.Proofs.Meaning.Related

/-!
# Code that follows an evaluation

Code *follows* an evaluation if, wherever the evaluation gets, the code gets to the same place
(`Follows`): it prints the same lines, leaves the names in scope with the same contents, and ends in
the same way.  What is said of the result is a condition on the store, before and after.

The rules below build such code up: one after the other (`Follows.bind`), next to a condition that it
does not touch (`Follows.frame`), in a context of its own (`Follows.within`).
-/

namespace SlotCode

open Outline

/-- The machine is where the evaluation is. -/
structure Tracks (g : TypeGraph) (o : Outline) (w : World) (m : Machine) : Prop where
  printed : m.printed = w.printed
  names : Scoped g o m.store o.names w.env

/-- The machine is on its way out to the loop that the label means, whose variable has the content.
Names that were added on the way are of no interest. -/
structure Departs (g : TypeGraph) (o o' : Outline) (label : Option String) (content : Content)
    (w : World) (x : Exit) (m : Machine) : Prop where
  printed : m.printed = w.printed
  names : ∃ env, env <:+ w.env ∧ Scoped g o' m.store o.names env
  target : ∃ ref, o.target label = some ref ∧ x = .leave ref.loop ∧ Holds g o' m.store ref.var content

section

variable (A : Arithmetic) (p : Program) (g : TypeGraph)

/-- The machine ended as the evaluation did. -/
def Arrives {α : Type} (o o' : Outline) (post : α → Store → Prop) (w : World) (x : Exit)
    (m : Machine) : Ending α → Prop
  | .value a => x = .done ∧ Tracks g o' w m ∧ post a m.store
  | .leave label content => Departs g o o' label content w x m

def Follows {α : Type} (pre : Store → Prop) (e : Eval α) (code : Code) (o o' : Outline)
    (post : α → Store → Prop) : Prop :=
  ∀ w m, Tracks g o w m → pre m.store → ∀ ending w', e w = some (ending, w') →
    ∃ x m', Runs A p code m x m' ∧ Arrives g o o' post w' x m' ending

end

variable {A : Arithmetic} {p : Program} {g : TypeGraph} {o o₁ o' : Outline} {α β : Type}
  {new : List (String × VarId)}

theorem Tracks.mono {w : World} {m : Machine} (hg : o.Good) (h : o.Steps o') (ht : Tracks g o w m) :
    Tracks g o' w m where
  printed := ht.printed
  names := by
    rw [h.names]
    exact ht.names.mono hg h.grows h.good

theorem Tracks.preserved {w : World} {m m' : Machine} (ht : Tracks g o w m) (hg : o.Good)
    (h : o.Steps o') (hprinted : m'.printed = m.printed)
    (hp : Preserved o o' m.store m'.store) : Tracks g o' w m' where
  printed := hprinted.trans ht.printed
  names := by
    rw [h.names]
    exact ht.names.preserved hg h.keeps hp

theorem Outline.target_congr (h : o'.loops = o.loops) (label : Option String) :
    o'.target label = o.target label := by
  cases label <;> simp only [target, h]

namespace Follows

variable {pre : Store → Prop} {e : Eval α} {code : Code} {post : α → Store → Prop}

theorem imp {pre' : Store → Prop} {post' : α → Store → Prop} (h : Follows A p g pre e code o o' post)
    (hpre : ∀ σ, pre' σ → pre σ) (hpost : ∀ a σ, post a σ → post' a σ) :
    Follows A p g pre' e code o o' post' := by
  intro w m ht hp ending w' he
  obtain ⟨x, m', hruns, harrives⟩ := h w m ht (hpre _ hp) ending w' he
  refine ⟨x, m', hruns, ?_⟩
  cases ending with
  | value a => exact ⟨harrives.1, harrives.2.1, hpost _ _ harrives.2.2⟩
  | leave label content => exact harrives

theorem stuck : Follows A p g pre (Eval.stuck : Eval α) code o o' post := by
  intro w m _ _ ending w' he
  cases he

/-- Code that only computes. -/
theorem pure {a : α} (h : ∀ w m, Tracks g o w m → pre m.store →
      ∃ m', Runs A p code m .done m' ∧ Tracks g o' w m' ∧ post a m'.store) :
    Follows A p g pre (Pure.pure a) code o o' post := by
  intro w m ht hp ending w' he
  cases he
  obtain ⟨m', hruns, ht', hpost⟩ := h w m ht hp
  exact ⟨.done, m', hruns, rfl, ht', hpost⟩

/-- No code, and nothing to do. -/
theorem done (hg : o.Good) (hs : o.Steps o') {a : α} (hpost : ∀ σ, pre σ → post a σ) :
    Follows A p g pre (Pure.pure a) [] o o' post :=
  pure fun _ m ht hp => ⟨m, .nil m, ht.mono hg hs, hpost _ hp⟩

/-- Code that stores into new variables. -/
theorem fresh (hg : o.Good) (hs : o.Steps o') (hspares : Code.Spares o o' code) {a : α}
    (h : ∀ m, pre m.store → ∃ m', Runs A p code m .done m' ∧ m'.printed = m.printed ∧ post a m'.store) :
    Follows A p g pre (Pure.pure a) code o o' post := by
  refine pure fun w m ht hp => ?_
  obtain ⟨m', hruns, hprinted, hpost⟩ := h m hp
  exact ⟨m', hruns, ht.preserved hg hs hprinted (hruns.preserved hspares), hpost⟩

theorem bind {f : α → Eval β} {code' : Code} {mid : α → Store → Prop} {post : β → Store → Prop}
    (h : Follows A p g pre e code o o₁ mid) (hadds : o.Adds o₁ new) (hk : o₁.Keeps o')
    (hf : ∀ a, Follows A p g (mid a) (f a) code' o₁ o' post) :
    Follows A p g pre (e >>= f) (code ++ code') o o' post := by
  intro w m ht hp ending w' he
  have he : Eval.bind e f w = some (ending, w') := he
  unfold Eval.bind at he
  split at he
  · cases he
  · next a w₁ he₁ =>
    obtain ⟨_, m₁, hruns, rfl, ht₁, hmid⟩ := h w m ht hp _ _ he₁
    obtain ⟨x, m', hruns', harrives⟩ := hf a w₁ m₁ ht₁ hmid _ _ he
    refine ⟨x, m', hruns.append hruns', ?_⟩
    cases ending with
    | value b => exact harrives
    | leave label content =>
      obtain ⟨hprinted, ⟨env, hsuffix, hscoped⟩, hloop⟩ := harrives
      refine ⟨hprinted, ?_, ?_⟩
      · rw [hadds.names] at hscoped
        obtain ⟨added, rest, rfl, -, hscoped⟩ := hscoped.split
        exact ⟨rest, (List.suffix_append _ _).trans hsuffix, hscoped⟩
      · rwa [target_congr hadds.loops label] at hloop
  · next label content w₁ he₁ =>
    cases he
    obtain ⟨x, m₁, hruns, hprinted, ⟨env, hsuffix, hscoped⟩, ref, htarget, rfl, hholds⟩ :=
      h w m ht hp _ _ he₁
    exact ⟨_, m₁, hruns.append_leave code', hprinted,
      ⟨env, hsuffix, hscoped.mono hadds.good hk.grows hk.good⟩, ref, htarget, rfl,
      hholds.mono hadds.good hk.grows hk.good⟩

theorem bind_ofOption {a? : Option α} {f : α → Eval β} {post : β → Store → Prop}
    (h : ∀ a, a? = some a → Follows A p g pre (f a) code o o' post) :
    Follows A p g pre (Eval.ofOption a? >>= f) code o o' post := by
  cases a? with
  | none => exact stuck
  | some a => exact h a rfl

/-- More code after the evaluation is over. -/
theorem andThen {code' : Code} {mid : α → Store → Prop} (h : Follows A p g pre e code o o₁ mid)
    (hadds : o.Adds o₁ new) (hk : o₁.Keeps o')
    (h' : ∀ a, Follows A p g (mid a) (Pure.pure a) code' o₁ o' post) :
    Follows A p g pre e (code ++ code') o o' post := by
  have hbind : e >>= Pure.pure = e := by
    funext w
    show Eval.bind e Eval.pure w = e w
    unfold Eval.bind
    split <;> simp_all [Eval.pure]
  rw [← hbind]
  exact h.bind hadds hk h'

/-- A condition on what the code does not touch. -/
theorem frame {R : Store → Prop} (h : Follows A p g pre e code o o' post)
    (hspares : Code.Spares o o' code) (hR : ∀ σ σ', Preserved o o' σ σ' → R σ → R σ') :
    Follows A p g (fun σ => pre σ ∧ R σ) e code o o' (fun a σ => post a σ ∧ R σ) := by
  intro w m ht hp ending w' he
  obtain ⟨x, m', hruns, harrives⟩ := h w m ht hp.1 ending w' he
  refine ⟨x, m', hruns, ?_⟩
  cases ending with
  | value a =>
    exact ⟨harrives.1, harrives.2.1, harrives.2.2, hR _ _ (hruns.preserved hspares) hp.2⟩
  | leave label content => exact harrives

/-- The evaluation begins where there are fewer variables. -/
theorem after (hg : o.Good) (hs : o.Steps o₁) (h : Follows A p g pre e code o₁ o' post) :
    Follows A p g pre e code o o' post := by
  intro w m ht hp ending w' he
  obtain ⟨x, m', hruns, harrives⟩ := h w m (ht.mono hg hs) hp ending w' he
  refine ⟨x, m', hruns, ?_⟩
  cases ending with
  | value a => exact harrives
  | leave label content =>
    obtain ⟨hprinted, hnames, htarget⟩ := harrives
    rw [hs.names] at hnames
    rw [target_congr hs.loops label] at htarget
    exact ⟨hprinted, hnames, htarget⟩

/-- The evaluation ends where there are more variables. -/
theorem before (h : Follows A p g pre e code o o₁ post) (hg : o₁.Good) (hs : o₁.Steps o') :
    Follows A p g pre e code o o' post := by
  intro w m ht hp ending w' he
  obtain ⟨x, m', hruns, harrives⟩ := h w m ht hp ending w' he
  refine ⟨x, m', hruns, ?_⟩
  cases ending with
  | value a => exact ⟨harrives.1, harrives.2.1.mono hg hs, harrives.2.2⟩
  | leave label content =>
    obtain ⟨hprinted, ⟨env, hsuffix, hscoped⟩, ref, htarget, hx, hholds⟩ := harrives
    exact ⟨hprinted, ⟨env, hsuffix, hscoped.mono hg hs.grows hs.good⟩, ref, htarget, hx,
      hholds.mono hg hs.grows hs.good⟩

/-- Code in a context of its own. -/
theorem within (hadds : o.enter.Adds o₁ new) (hs : o.Steps o') (hk : o₁.Keeps o')
    (h : Follows A p g pre e code o.enter o₁ post) :
    Follows A p g pre (Eval.within e) code o o' post := by
  intro w m ht hp ending w' he
  obtain ⟨⟨ending₁, w₁⟩, hinner, heq⟩ := Option.map_eq_some_iff.1 he
  cases heq
  obtain ⟨x, m', hruns, harrives⟩ := h w m ⟨ht.printed, ht.names⟩ hp _ _ hinner
  -- The names added are the first ones, and as many as there are more of now.
  have hlen := ht.names.length_eq
  have hdrop : ∀ added rest : Env, rest.length = o.names.length →
      (added ++ rest).drop ((added ++ rest).length - w.env.length) = rest := by
    intro added rest hrest
    rw [List.length_append, hrest, hlen, Nat.add_sub_cancel, List.drop_left]
  refine ⟨x, m', hruns, ?_⟩
  cases ending with
  | value a =>
    obtain ⟨hx, ht', hpost⟩ := harrives
    have hscoped := ht'.names
    rw [hadds.names] at hscoped
    obtain ⟨added, rest, henv, -, hscoped⟩ := hscoped.split
    refine ⟨hx, ⟨ht'.printed, ?_⟩, hpost⟩
    rw [henv, hdrop added rest hscoped.length_eq.symm, hs.names]
    exact hscoped.mono hadds.good hk.grows hk.good
  | leave label content =>
    obtain ⟨hprinted, ⟨env, ⟨added, henv⟩, hscoped⟩, ref, htarget, hx, hholds⟩ := harrives
    refine ⟨hprinted, ⟨env, ?_, hscoped.mono hadds.good hk.grows hk.good⟩, ref, htarget, hx,
      hholds.mono hadds.good hk.grows hk.good⟩
    rw [← henv, hdrop added env hscoped.length_eq.symm]

end Follows

end SlotCode
