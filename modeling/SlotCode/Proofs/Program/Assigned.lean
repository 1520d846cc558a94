import SlotCode.Proofs.Lowering.Assigned
import SlotCode.Proofs.Lowering.Programs

/-!
# Programs write before they read

No execution of a lowered function reads a variable that is neither an argument nor has been written
(`lowerProgram_writes_before_reads`).
-/

namespace SlotCode

open Outline Lower Operand

/-- Parameters are ready when the arguments have been written. -/
theorem Outline.Bound.ready {params : List Param} {types : List TypeId} {slots : List VarId}
    {o o' : Outline} {A : Set VarId} (h : Bound params types slots o o') (hg : o.Good)
    (hf : o.frames ≠ []) (hready : o.Ready A) : o'.Ready (A ∪ {x | x ∈ slots}) := by
  induction h generalizing A with
  | nil o => exact hready.more Set.subset_union_left
  | @cons param params type types rest o o₁ o' hsteps htype h ih =>
    have hadds := Adds.shaped hg hf hsteps
    have hready₁ : o₁.Ready (A ∪ {x | x ∈ o₁.slots o.vars.length}) := by
      refine hready.grows hg hsteps.good hadds.grows Set.subset_union_left fun name id hmem => ?_
      rw [hadds.names] at hmem
      rcases List.mem_cons.1 hmem with heq | hmem
      · cases heq
        exact .inr ⟨⟨type, htype⟩, fun x hx => .inr (held_subset_slots o₁ _ hx)⟩
      · exact .inl hmem
    refine (ih hsteps.good hadds.frames_ne hready₁).more ?_
    rintro x ((hx | hx) | hx)
    · exact .inl hx
    · exact .inr (List.mem_append_left _ hx)
    · exact .inr (List.mem_append_right _ hx)

/-- The plan for the body of a function: real variables are stored into, and no loop is around it. -/
def Outline.plan (o : Outline) : Plan :=
  { stores := {x | o.Real x}, left := fun _ => ∅ }

theorem Outline.Good.serves_plan {o : Outline} (hg : o.Good) : o.Serves o.plan where
  stores := fun _ hx => hx
  left := fun _ _ _ => ⟨o, .refl o, hg, fun _ hx => nomatch hx⟩

/-- The code of a function writes before it reads. -/
theorem Compiled.assigns {decls : List FnDecl} {decl : FnDecl} {f : Function} {params : List TypeId}
    {s s₁ s₂ : Session} {v : Value} (hc : Compiled decls decl f params s s₁ s₂ v) :
    Code.Assigns s₂.outline.plan {x | x ∈ f.args} f.code (readSet f.value) := by
  have hgood := hc.prepared.good.enter
  obtain ⟨new, hadds⟩ := hc.adds
  have hready : s.outline.enter.Ready ∅ := by
    intro name id hmem
    rw [Outline.names, Outline.enter, hc.prepared.frames] at hmem
    cases hmem
  have hready₁ := hc.bound.ready hgood s.enter.frames_ne hready
  rw [Set.empty_union] at hready₁
  rw [hc.value]
  exact assigned.forall_block decl.body hadds.good hc.body hready₁ hc.lowered.1.good.serves_plan

/-- No command of a lowered function reads a variable that has not been written before, wherever an
execution gets to, and what the function returns has been written when it ends. -/
theorem lowerProgram_writes_before_reads (config : Config) (decls : List FnDecl) (p : Program)
    (s : Session) (h : lowerProgram config decls .initial = .ok p s) :
    ∀ f ∈ p.functions, ∀ point, Point.Reaches ⟨f.code, [], f.args⟩ point →
      (∀ c rest, point.code = c :: rest → ∀ x ∈ c.reads, x ∈ point.written) ∧
      (point.code = [] → point.pending = [] → ∀ x ∈ Operand.readsAll f.value, x ∈ point.written) := by
  obtain ⟨d, hb⟩ := built_of_lowerProgram h
  intro f hf point hreach
  obtain ⟨decl, -, params, t, t₁, t₂, v, hc, -⟩ := TypeGraph.exists_of_forall₂ hb.functions.flip hf
  exact hc.assigns.reaches hreach

/-- A function with a loop that is left with a pair from two places. -/
def pickDecls : List FnDecl :=
  let at0 : Span := ⟨0, 0⟩
  [{  name := "pick"
      params := [⟨"first", at0, .boolean at0⟩]
      result := .tuple at0 [.integer at0, .boolean at0]
      body := .mk at0
        [.yield at0 (.loop at0 none (.mk at0
          [.eval at0 (.cond at0 (.var at0 "first")
            (.leave at0 none (some (.tuple at0 [.int at0 1, .var at0 "first"])))
            (some (.leave at0 none (some (.tuple at0 [.int at0 2, .var at0 "first"])))))]))]
      span := at0 }]

/-- What it is lowered to. -/
def pickCode : Code :=
  let at0 : Span := ⟨0, 0⟩
  [.loop at0 0
    [.branch at0 (.var 0)
      [.assign at0 2 (.int 1), .assign at0 3 (.var 0), .leave at0 0]
      [.assign at0 2 (.int 2), .assign at0 3 (.var 0), .leave at0 0]]]

/-- An execution that leaves the loop from the second place. -/
theorem pickCode_reaches : Point.Reaches ⟨pickCode, [], [0]⟩ ⟨[], [], [3, 2, 0]⟩ :=
  .head .loop (.head .no (.head (.plain rfl) (.head (.plain rfl) (.single (.leave rfl)))))

theorem lowerProgram_writes_before_reads_pick :
    ∃ p s f, lowerProgram .library pickDecls .initial = .ok p s ∧ f ∈ p.functions ∧
      Point.Reaches ⟨f.code, [], f.args⟩ ⟨[], [], [3, 2, 0]⟩ ∧
      ∀ x ∈ Operand.readsAll f.value, x ∈ [3, 2, 0] := by
  have hrun : succeeds (fun p : Program => decide (p.functions.map Function.code = [pickCode] ∧
      p.functions.map Function.args = [[0]])) (lowerProgram .library pickDecls .initial) = true := by
    decide +kernel
  obtain ⟨p, s, h, hcheck⟩ := exists_ok_of_succeeds hrun
  obtain ⟨hcode, hargs⟩ := of_decide_eq_true hcheck
  obtain ⟨f, hf⟩ := List.length_eq_one_iff.1 ((List.length_map _).symm.trans (congrArg List.length hcode))
  rw [hf, List.map_singleton, List.cons_eq_cons] at hcode hargs
  have hmem : f ∈ p.functions := hf ▸ List.mem_cons_self
  have hreach : Point.Reaches ⟨f.code, [], f.args⟩ ⟨[], [], [3, 2, 0]⟩ := by
    rw [hcode.1, hargs.1]
    exact pickCode_reaches
  exact ⟨p, s, f, h, hmem, hreach,
    (lowerProgram_writes_before_reads .library pickDecls p s h f hmem _ hreach).2 rfl rfl⟩

end SlotCode
