import SlotCode.Proofs.Program.Resting

/-!
# Mismatches that tell

A program that is refused because of its types is told which type was expected and which was found.  The
two texts are never the same (`lowerProgram_mismatch_texts_differ`), provided that the names of
placeholders contain no brackets and no commas.

Lowering keeps the type graph legible: it adds placeholders only where they are written, and unit types
never.  A copy that fails may leave a unit type behind, but then the error is another one.
-/

namespace SlotCode

open Lower

variable {s : Session} {decl : FnDecl} {decls : List FnDecl}

/-- The types that are written in a declaration. -/
def FnDecl.types (decl : FnDecl) : List TypeExpr :=
  decl.params.map Param.type ++ decl.result :: decl.body.annotations

/-- The names of placeholders contain no brackets and no commas. -/
def FnDecl.HasPlainNames (decl : FnDecl) : Prop :=
  ∀ type ∈ decl.types, ∀ name ∈ type.placeholders, IsPlainName name

/-! ## Failures -/

/-- The failure is not about two types. -/
def IsNoMismatch : Failure LoweringError → Prop
  | .error ⟨.typeMismatch _, _⟩ => False
  | _ => True

/-- If the failure is about two types, it shows different texts. -/
def IsTelling : Failure LoweringError → Prop
  | .error ⟨.typeMismatch error, _⟩ =>
    ∃ expected found, error.texts? = some (expected, found) ∧ expected ≠ found
  | _ => True

theorem IsNoMismatch.isTelling {failure : Failure LoweringError} (h : IsNoMismatch failure) :
    IsTelling failure := by
  cases failure with
  | fault => trivial
  | error e =>
    obtain ⟨cause, span⟩ := e
    cases cause with
    | typeMismatch => exact h.elim
    | _ => trivial

/-! ## Legible graphs -/

def TypeGraph.StaysLegible (g g' : TypeGraph) : Prop :=
  g.Legible → g'.Legible

instance : Std.Refl TypeGraph.StaysLegible where
  refl _ h := h

instance : IsTrans TypeGraph TypeGraph.StaysLegible where
  trans _ _ _ h h' hg := h' (h hg)

theorem Instantiation.Stops.isNoMismatch {e : Failure TypeError} (h : Stops e) :
    IsNoMismatch (e.map .ofTypeError) := by
  cases e with
  | fault => trivial
  | error error =>
    cases error with
    | unboundPlaceholder => trivial
    | _ => exact h.elim

instance : TypeGraph.Upheld IsNoMismatch TypeGraph.StaysLegible where
  tuple _ _ origin h := TypeGraph.LegibleBut.add h (by rintro ⟨⟩) origin
  box _ _ origin h := TypeGraph.LegibleBut.add h (by rintro ⟨⟩) origin
  list _ item origin h := TypeGraph.LegibleBut.addList h item origin
  copy g type b span := by
    have hends : g.Legible → _ := fun hg =>
      TypeGraph.instantiate_holds TypeGraph.legibleBut_invariant hg type b span
    cases hrun : TypeGraph.instantiate type b span g with
    | ok id g' =>
      rw [hrun] at hends
      exact hends
    | error e g' =>
      rw [hrun] at hends
      by_cases hg : g.Legible
      · exact .inl (hends hg).1.isNoMismatch
      · exact .inr fun h => absurd h hg

/-- The type of a function is legible if the types that are written in it are. -/
theorem FnDecl.HasPlainNames.lay (h : decl.HasPlainNames) {g : TypeGraph} (hg : g.Legible)
    (origin : Option Span) : (decl.registration.lay origin g).2.Legible := by
  obtain ⟨hparams, hrest⟩ := List.forall_mem_append.1 h
  obtain ⟨hresult, -⟩ := List.forall_mem_cons.1 hrest
  have hinputs : (g.layInputs (decl.params.map Param.type)).2.Legible := by
    unfold TypeGraph.layInputs
    split
    · exact hg
    · exact hg.resolveAll _ (TypeExpr.forall_placeholdersAll.2 hparams)
  exact TypeGraph.LegibleBut.add (hinputs.resolve _ hresult) (by rintro ⟨⟩) origin

theorem FnDecl.HasPlainNames.admits (h : decl.HasPlainNames) :
    ∀ type ∈ decl.body.annotations, TypeGraph.Admits TypeGraph.StaysLegible type :=
  fun type htype _ hg =>
    hg.resolve type (h type (List.mem_append_right _ (List.mem_cons_of_mem _ htype)))

/-! ## Sessions -/

/-- The session rests, and its graph is legible. -/
structure Session.Tidy (s : Session) : Prop where
  resting : s.Resting
  legible : s.types.Legible

namespace Session.Tidy

theorem initial : Session.initial.Tidy :=
  ⟨.initial, TypeGraph.legible_initial⟩

theorem natives (h : s.Tidy) : (stateAfter (registerNatives s)).Tidy := by
  refine ⟨h.resting.natives, ?_⟩
  rw [stateAfter_registerNatives]
  exact TypeGraph.LegibleBut.add h.legible (by rintro ⟨⟩) none

theorem declare (h : s.Tidy) (hdecl : decl.HasPlainNames) :
    EndsIn Session.Tidy (fun e _ => IsTelling e) (Lower.declare decl s) := by
  have hresting := h.resting.declare decl
  have hlegible : (stateAfter (Lower.declare decl s)).types.Legible := by
    rw [stateAfter_declare]
    exact hdecl.lay h.legible _
  cases hrun : Lower.declare decl s with
  | ok type t =>
    rw [hrun] at hresting hlegible
    exact ⟨hresting, hlegible⟩
  | error e t =>
    obtain ⟨previous, rfl⟩ := declare_error hrun
    trivial

theorem entry (h : s.Tidy) (name : String) :
    EndsIn Session.Tidy (fun e _ => IsTelling e) (checkEntryPoint name s) := by
  refine (checkEntryPoint_endsIn h.resting name).mono (fun _ ht => ht ▸ h) ?_
  rintro _ _ ⟨cause, span, rfl, rfl | ⟨found, rfl⟩⟩ <;> trivial

/-- A function that fails leaves a legible graph, unless the failure is not about two types. -/
theorem lower (h : s.Tidy) (hdecl : decl.HasPlainNames) :
    EndsIn Session.Tidy (fun e _ => IsTelling e) (lowerFunction decl s) := by
  have hways : EitherWayAt IsNoMismatch (Session.Rests TypeGraph.StaysLegible) s (lowerFunction decl) :=
    lowerFunction_eitherWay hdecl.admits s
  have hresting := h.resting.lower decl
  rw [EitherWayAt] at hways
  cases hrun : lowerFunction decl s with
  | ok f t =>
    rw [hrun] at hways hresting
    exact ⟨hresting, (hways h.resting.idle).1 h.legible⟩
  | error failure t =>
    rw [hrun] at hways
    obtain ⟨⟨cause, span⟩, rfl, hexpected, -⟩ := h.resting.error_of_lower hrun
    rcases hways with hother | hrests
    · exact hother.isTelling
    · have hlegible := (hrests h.resting.idle).1 h.legible
      cases cause with
      | typeMismatch error =>
        obtain ⟨expected, found, htexts, hne⟩ := hexpected
        exact ⟨expected, found, htexts, hne hlegible⟩
      | _ => trivial

end Session.Tidy

/-! ## Programs -/

theorem lowerProgram_tells (config : Config) (hdecls : ∀ decl ∈ decls, decl.HasPlainNames) :
    EndsIn (fun _ => True) (fun e _ => IsTelling e) (lowerProgram config decls .initial) :=
  lowerProgram_endsIn (P := Session.Tidy) config .initial (fun _ hs => hs.natives)
    (fun decl hdecl _ hs => hs.declare (hdecls decl hdecl)) (fun name _ hs => hs.entry name)
    fun decl hdecl _ hs => hs.lower (hdecls decl hdecl)

/-- If a program fails because two types do not match, the text of the type that is expected is not the
text of the type that is found. -/
theorem lowerProgram_mismatch_texts_differ (config : Config) (decls : List FnDecl)
    (hnames : ∀ decl ∈ decls, ∀ type ∈ decl.types, ∀ name ∈ type.placeholders, IsPlainName name)
    {error : TypeError} {span : Span} {s : Session}
    (h : lowerProgram config decls .initial = .error (.error ⟨.typeMismatch error, span⟩) s) :
    ∃ expected found, error.texts? = some (expected, found) ∧ expected ≠ found := by
  have htells := lowerProgram_tells config hnames
  rw [h] at htells
  exact htells

/-- What the run says about two types, if it fails because of them. -/
def mismatch? {α : Type} : EStateM.Result (Failure LoweringError) Session α → Option LoweringError
  | .error (.error ⟨.typeMismatch error, span⟩) _ => some ⟨.typeMismatch error, span⟩
  | _ => none

theorem eq_error_of_mismatch? {α : Type} {r : EStateM.Result (Failure LoweringError) Session α}
    {e : LoweringError} (h : mismatch? r = some e) : ∃ s, r = .error (.error e) s := by
  unfold mismatch? at h
  split at h
  · next s =>
    cases h
    exact ⟨s, rfl⟩
  · cases h

/-- A function of pairs that is called with three values. -/
def tripleDecls : List FnDecl :=
  [{  name := "first"
      params := [⟨"pair", ⟨3, 4⟩, .tuple ⟨5, 6⟩ [.placeholder ⟨7, 8⟩ "T", .integer ⟨9, 10⟩]⟩]
      result := .void ⟨11, 12⟩
      body := .mk ⟨13, 14⟩ []
      span := ⟨1, 15⟩ },
    { name := "main"
      params := []
      result := .void ⟨17, 18⟩
      body := .mk ⟨19, 30⟩
        [.eval ⟨20, 29⟩ (.call ⟨20, 29⟩ (.var ⟨20, 21⟩ "first")
          [.tuple ⟨22, 28⟩ [.wrap ⟨23, 24⟩ (.int ⟨23, 24⟩ 1), .int ⟨25, 26⟩ 2, .int ⟨27, 28⟩ 3]])]
      span := ⟨16, 31⟩ }]

theorem lowerProgram_mismatch_texts_differ_triple :
    ∃ s, lowerProgram .standard tripleDecls .initial = .error (.error ⟨.typeMismatch
        (.tupleArity "(GenericBox<T>, Integer)" "(Box(Integer), Integer, Integer)" ⟨5, 6⟩ ⟨22, 28⟩),
        ⟨22, 28⟩⟩) s ∧
      ∃ expected found,
        (TypeError.tupleArity "(GenericBox<T>, Integer)" "(Box(Integer), Integer, Integer)"
          ⟨5, 6⟩ ⟨22, 28⟩).texts? = some (expected, found) ∧ expected ≠ found := by
  have hrun : mismatch? (lowerProgram .standard tripleDecls .initial) = some ⟨.typeMismatch
      (.tupleArity "(GenericBox<T>, Integer)" "(Box(Integer), Integer, Integer)" ⟨5, 6⟩ ⟨22, 28⟩),
      ⟨22, 28⟩⟩ := by
    decide +kernel
  obtain ⟨s, h⟩ := eq_error_of_mismatch? hrun
  have hnames : ∀ decl ∈ tripleDecls, ∀ type ∈ decl.types, ∀ name ∈ type.placeholders,
      IsPlainName name := by
    decide +kernel
  exact ⟨s, h, lowerProgram_mismatch_texts_differ .standard tripleDecls hnames h⟩

end SlotCode
