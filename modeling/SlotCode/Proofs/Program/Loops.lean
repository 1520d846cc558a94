import SlotCode.Proofs.Lowering.Jumps
import SlotCode.Proofs.Program.Resting

/-!
# Loops of programs

The loops of a lowered program are numbered from `0` in the order in which they begin, and the loops of
each function, with the ways out of them, are those of its declaration
(`lowerProgram_numbers_loops`).
-/

namespace SlotCode

variable {s s' : Session}

open Outline Lower

/-! ## Functions -/

theorem declareParams_mirrors {mode : BindMode} {params : List Param} {types : List TypeId}
    {ids : List VarId} (h : declareParams mode params types s = .ok ids s') :
    s.outline.Mirrors s'.outline (some []) [] := by
  induction params generalizing mode types ids s with
  | nil =>
    cases h
    exact .refl _
  | cons param params ih =>
    cases types with
    | nil =>
      cases h
      exact .refl _
    | cons type types =>
      simp only [declareParams, bind_eq_ok_iff, pure_eq_ok_iff, Prod.exists] at h
      obtain ⟨id, mode, s₁, hname, head, s₂, hexpand, rest, s₃, hrest, -, rfl⟩ := h
      have hshaped : s₁.outline.Mirrors s₂.outline (some []) [] :=
        EitherWayAt.mirrors (expandVar_edits trivial _ _ s₁) hexpand (List.forall_mem_nil _)
      exact (bindName_mirrors hname).andPlain (hshaped.andPlain (ih hrest))

/-- Between functions no loop can be left, and the next function goes on with the next number. -/
theorem lowerFunction_mirrors {decl : FnDecl} {f : Function} (hidle : s.outline.frames = [.empty])
    (h : lowerFunction decl s = .ok f s') :
    s'.outline.frames = [.empty] ∧ s.outline.Mirrors s'.outline (decl.body.jumps []) f.code := by
  obtain ⟨s₀, c, s₁, s₂, v, htypes, hscope, hl⟩ := lowerFunction_cases h
  have houtline := Session.outline_congr htypes hscope
  rw [← houtline] at hidle ⊢
  have hn : s₀.outline.Numbered := by
    have hids : s₀.outline.loopIds = [] := by
      rw [loopIds, Outline.loops, hidle]
      rfl
    exact ⟨hids ▸ .nil, by simp [hids]⟩
  have hlabels : s₀.outline.labels = [] := by
    rw [labels, Outline.loops, hidle]
    rfl
  have hparams := declareParams_mirrors hl.params
  have hbody := mirrored.forall_block decl.body (hparams.numbered hn.enter) hl.body
  rw [hparams.labels, show s₀.enter.outline.labels = [] from hlabels] at hbody
  have hall := (hparams.afterPlain hbody).within
  -- Emptying the contexts takes no loops away that were still there.
  have hframes : s₂.exit.outline.frames.length = 1 := by
    have hlen := congrArg List.length hall.frames
    rwa [List.length_map, List.length_map, hidle] at hlen
  have hdrained : s'.outline.frames = [.empty] := by
    have hmap : s'.outline.frames = s₂.exit.outline.frames.map fun _ => .empty := by
      have := congrArg Outline.frames (outline_drain s₂.exit)
      rwa [Session.outline, ← hl.scope] at this
    obtain ⟨frame, hframe⟩ := List.length_eq_one_iff.1 hframes
    rw [hmap, hframe]
    rfl
  refine ⟨hdrained, by rw [hdrained, hidle], hall.jumps, ?_⟩
  have hnext : s'.outline.nextLoop = s₂.exit.outline.nextLoop := by
    simp only [Session.outline, hl.scope, Scope.drain]
  rw [hnext]
  exact hall.numbers

theorem lowerFunctions_numbers_loops {decls : List FnDecl} {fs : List Function}
    (hidle : s.outline.frames = [.empty]) (h : lowerFunctions decls s = .ok fs s') :
    (∃ count, fs.flatMap (fun f => Command.loopIdsAll f.code) = List.range' s.outline.nextLoop count) ∧
      List.Forall₂ (fun decl f => ∃ js, decl.body.jumps [] = some js ∧
        Command.jumpsAll [] f.code = some js) decls fs := by
  induction decls generalizing s fs with
  | nil =>
    cases h
    exact ⟨⟨0, rfl⟩, .nil⟩
  | cons decl decls ih =>
    simp only [lowerFunctions, bind_eq_ok_iff, pure_eq_ok_iff] at h
    obtain ⟨f, s₁, hf, fs, s₂, hfs, rfl, rfl⟩ := h
    obtain ⟨hidle₁, hmirrors⟩ := lowerFunction_mirrors hidle hf
    obtain ⟨⟨rest, hrest⟩, hjumps⟩ := ih hidle₁ hfs
    obtain ⟨count, hcount, hids⟩ := hmirrors.numbers
    refine ⟨⟨count + rest, ?_⟩, .cons ?_ hjumps⟩
    · rw [List.flatMap_cons, hids, hrest, hcount, List.range'_append_1]
    · have hnone : s.outline.loopIds = [] := by
        rw [loopIds, Outline.loops, hidle]
        rfl
      rw [← hnone]
      exact hmirrors.jumps

/-! ## Programs -/

theorem declare_frames {decl : FnDecl} {type : TypeId} (h : declare decl s = .ok type s') :
    s'.outline.frames = s.outline.frames ∧ s'.outline.nextLoop = s.outline.nextLoop := by
  obtain ⟨-, -, hs'⟩ := declare_ok h
  rw [hs']
  exact ⟨rfl, rfl⟩

theorem declareAll_frames {decls : List FnDecl} {u : Unit} (h : declareAll decls s = .ok u s') :
    s'.outline.frames = s.outline.frames ∧ s'.outline.nextLoop = s.outline.nextLoop := by
  induction decls generalizing s with
  | nil =>
    cases h
    exact ⟨rfl, rfl⟩
  | cons decl decls ih =>
    simp only [declareAll, bind_eq_ok_iff] at h
    obtain ⟨type, s₁, hdecl, h⟩ := h
    obtain ⟨hframes, hnext⟩ := declare_frames hdecl
    obtain ⟨hframes', hnext'⟩ := ih h
    exact ⟨hframes'.trans hframes, hnext'.trans hnext⟩

/-- The loops of a lowered program are numbered in order, every `leave` is inside its loop, and it goes
where the declaration says.  A program with a `leave` that is inside no such loop is not lowered. -/
theorem lowerProgram_numbers_loops (config : Config) (decls : List FnDecl) :
    (∀ p s, lowerProgram config decls .initial = .ok p s →
      (∃ count, p.functions.flatMap (fun f => Command.loopIdsAll f.code) = List.range count) ∧
      (∀ f ∈ p.functions, Command.allBracketed [] f.code = true) ∧
      List.Forall₂ (fun decl f => ∃ js, decl.body.jumps [] = some js ∧
        Command.jumpsAll [] f.code = some js) decls p.functions) ∧
    ((∃ decl ∈ decls, decl.body.jumps [] = none) →
      ∃ e s, lowerProgram config decls .initial = .error (.error e) s) := by
  have hlowered : ∀ p s, lowerProgram config decls .initial = .ok p s →
      (∃ count, p.functions.flatMap (fun f => Command.loopIdsAll f.code) = List.range count) ∧
      List.Forall₂ (fun decl f => ∃ js, decl.body.jumps [] = some js ∧
        Command.jumpsAll [] f.code = some js) decls p.functions := by
    intro p s h
    obtain ⟨s₁, s₂, s₃, fs, hstart, hdeclare, hlower, rfl⟩ := lowerProgram_cases h
    have hstart : s₁.outline.frames = [.empty] ∧ s₁.outline.nextLoop = 0 := by
      rcases hstart with hn | rfl
      · cases hn
        exact ⟨rfl, rfl⟩
      · exact ⟨rfl, rfl⟩
    obtain ⟨hframes, hnext⟩ := declareAll_frames hdeclare
    obtain ⟨⟨count, hids⟩, hjumps⟩ := lowerFunctions_numbers_loops (hframes.trans hstart.1) hlower
    refine ⟨⟨count, ?_⟩, hjumps⟩
    rw [hids, hnext, hstart.2, List.range_eq_range']
  refine ⟨fun p s h => ?_, fun ⟨decl, hdecl, hnone⟩ => ?_⟩
  · obtain ⟨hids, hjumps⟩ := hlowered p s h
    refine ⟨hids, fun f hf => ?_, hjumps⟩
    obtain ⟨decl, -, js, -, hcode⟩ := TypeGraph.exists_of_forall₂ hjumps.flip hf
    rw [← Command.isSome_jumpsAll, hcode]
    rfl
  · cases hrun : lowerProgram config decls .initial with
    | error failure s =>
      obtain ⟨e, rfl⟩ := lowerProgram_error hrun
      exact ⟨e, s, rfl⟩
    | ok p s =>
      obtain ⟨f, -, js, hjs, -⟩ := TypeGraph.exists_of_forall₂ (hlowered p s hrun).2 hdecl
      rw [hnone] at hjs
      cases hjs

/-- Two functions with loops.  The first leaves its outer loop from inside the inner one. -/
def nestedDecls : List FnDecl :=
  let at0 : Span := ⟨0, 0⟩
  [{  name := "search"
      params := [⟨"found", at0, .boolean at0⟩]
      result := .void at0
      body := .mk at0
        [.eval at0 (.loop at0 (some "outer") (.mk at0
          [.eval at0 (.loop at0 none (.mk at0
            [.eval at0 (.cond at0 (.var at0 "found") (.leave at0 (some "outer") none)
              (some (.leave at0 none none)))]))]))]
      span := at0 },
    { name := "once"
      params := []
      result := .integer at0
      body := .mk at0
        [.yield at0 (.loop at0 none (.mk at0 [.eval at0 (.leave at0 none (some (.int at0 1)))]))]
      span := at0 }]

/-- A function that leaves a loop it is not in. -/
def strayDecls : List FnDecl :=
  let at0 : Span := ⟨0, 0⟩
  [{  name := "stray"
      params := []
      result := .void at0
      body := .mk at0
        [.eval at0 (.loop at0 (some "inner") (.mk at0 [.eval at0 (.leave at0 (some "outer") none)]))]
      span := at0 }]

theorem lowerProgram_numbers_loops_nested :
    (∃ p s, lowerProgram .library nestedDecls .initial = .ok p s ∧
      (∃ count, p.functions.flatMap (fun f => Command.loopIdsAll f.code) = List.range count) ∧
      (∀ f ∈ p.functions, Command.allBracketed [] f.code = true) ∧
      List.Forall₂ (fun js f => Command.jumpsAll [] f.code = some js)
        [[.loop [.loop [.leave 1, .leave 0]]], [.loop [.leave 0]]] p.functions) ∧
    ∃ e s, lowerProgram .library strayDecls .initial = .error (.error e) s := by
  have hrun : succeeds (fun p : Program => p.functions.length == 2)
      (lowerProgram .library nestedDecls .initial) = true := by
    decide +kernel
  obtain ⟨p, s, h, -⟩ := exists_ok_of_succeeds hrun
  obtain ⟨hids, hbracketed, hjumps⟩ := (lowerProgram_numbers_loops .library nestedDecls).1 p s h
  refine ⟨⟨p, s, h, hids, hbracketed, ?_⟩,
    (lowerProgram_numbers_loops .library strayDecls).2 ⟨_, List.mem_cons_self, by decide⟩⟩
  obtain ⟨f, fs, ⟨js, hjs, hf⟩, hfs, hp⟩ := List.forall₂_cons_left_iff.1 hjumps
  obtain ⟨g, gs, ⟨js', hjs', hg⟩, hgs, rfl⟩ := List.forall₂_cons_left_iff.1 hfs
  cases hgs
  cases hjs
  cases hjs'
  rw [hp]
  exact .cons hf (.cons hg .nil)

end SlotCode
