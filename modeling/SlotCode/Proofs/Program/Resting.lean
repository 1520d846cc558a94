import SlotCode.Proofs.Lowering.Blame
import SlotCode.Proofs.Program.Histories

/-!
# Between requests

A session *rests* between two requests (`Session.Resting`): no function is being lowered, the type graph
is regular, and every function is declared with the type of a function.  Whatever a request does, and
whether or not it succeeds, the session rests after it.

So lowering a function always starts in a settled outline, and if it fails the program is to blame
(`expected_of_error`).  The same goes for a whole program (`lowerProgram_error`).
-/

namespace SlotCode

variable {g : TypeGraph} {name : String} {decls : List FnDecl} {s : Session}

open Outline Lower List TypeGraph

/-! ## Declared functions -/

namespace TypeGraph

variable {g g' : TypeGraph}

/-- A function of that name can be declared with the type.  Only `print` is built in. -/
structure Declares (g : TypeGraph) (name : String) (id : TypeId) : Prop where
  function : ∃ params result native, g.kind id = .ok (.function params result native) ∧
    (native = true → name = "print" ∧ params = [.string] ∧ result = .void)
  whole : g.Whole true id

theorem Declares.lt_size {id : TypeId} (h : g.Declares name id) : id < g.size := by
  obtain ⟨params, result, native, hk, -⟩ := h.function
  exact lt_size_of_kind hk

theorem Declares.extend {id : TypeId} (hg : g.Sound) (hext : g.Extends g') (h : g.Declares name id) :
    g'.Declares name id := by
  refine ⟨?_, h.whole.extend hg hext h.lt_size⟩
  obtain ⟨params, result, native, hk, hnative⟩ := h.function
  exact ⟨params, result, native, hext _ _ hk, hnative⟩

end TypeGraph

theorem TypeGraph.layInputs_whole (hg : g.Regular) (params : List TypeExpr) :
    ∀ id ∈ (g.layInputs params).1, (g.layInputs params).2.Whole true id := by
  unfold layInputs
  split
  · intro id hid
    cases mem_singleton.1 hid
    exact hg.unit_whole (by decide)
  · exact DenotesEach.whole (resolveAll_grown hg params).regular params (by rintro ⟨⟩)
      (resolveAll_denotes hg params)

/-- What a registration lays is the type of a function. -/
theorem Registration.lay_declares (reg : Registration) (origin : Option Span) (hg : g.Regular)
    (hname : reg = .native → name = "print") :
    (reg.lay origin g).2.Declares name (reg.lay origin g).1 := by
  cases reg with
  | native =>
    have hparts : ∀ part ∈ [TypeId.string, TypeId.void], part < g.size ∧ g.Whole true part := by
      intro part hpart
      rcases mem_pair.1 hpart with rfl | rfl
      · exact ⟨lt_size_of_kind hg.string, hg.unit_whole (by decide)⟩
      · exact ⟨lt_size_of_kind hg.void, hg.unit_whole (by decide)⟩
    refine ⟨⟨[.string], .void, true, ?_, fun _ => ⟨hname rfl, rfl, rfl⟩⟩, ?_⟩
    · exact (kind_add g _ none _).trans (if_pos rfl)
    · exact .add hg.toSound none (by rintro ⟨⟩) (by rintro _ ⟨⟩) hparts
  | declared params result =>
    have hinputs := layInputs_grown params hg
    have houtput := resolve_grown hinputs.regular result
    have hparts : ∀ part ∈ (g.layInputs params).1 ++ [((g.layInputs params).2.resolve result).1],
        part < ((g.layInputs params).2.resolve result).2.size ∧
          ((g.layInputs params).2.resolve result).2.Whole true part := by
      intro part hpart
      rcases mem_append.1 hpart with hpart | hpart
      · have hlt := (hinputs.values part hpart).lt_size
        exact ⟨houtput.ext.lt_size hlt, (layInputs_whole hg params part hpart).extend
          hinputs.regular.toSound houtput.ext hlt⟩
      · cases mem_singleton.1 hpart
        exact ⟨(houtput.values _ mem_cons_self).lt_size,
          resolve_whole hinputs.regular result (by rintro ⟨⟩)⟩
    refine ⟨⟨(g.layInputs params).1, ((g.layInputs params).2.resolve result).1, false, ?_, ?_⟩, ?_⟩
    · exact (kind_add _ _ origin _).trans (if_pos rfl)
    · rintro ⟨⟩
    · exact .add houtput.regular.toSound origin (by rintro ⟨⟩) (by rintro _ ⟨⟩) hparts

/-! ## Sessions at rest -/

structure Session.Resting (s : Session) : Prop where
  idle : s.scope.Idle
  types : s.types.Regular
  functions : ∀ name sig, s.scope.functions.lookup name = some sig → s.types.Declares name sig.type

namespace Session.Resting

variable {s t : Session}

theorem initial : Session.initial.Resting where
  idle := Scope.initial_idle
  types := regular_initial
  functions := by rintro name sig ⟨⟩

section

variable (h : s.Resting)

include h

/-- Without variables and names there is little that could be wrong with an outline. -/
theorem settled : s.outline.Settled := by
  have hvars : s.outline.vars = [] := by
    rw [Session.outline, Scope.infos, h.idle.vars]
    rfl
  have hframes : s.outline.frames = [.empty] := by
    rw [Session.outline, h.idle.contexts]
    rfl
  have hinfo : ∀ id, s.outline.info id = none := fun id => by rw [Outline.info, hvars]; rfl
  have hleaves : ∀ id, s.outline.leavesOf id = none := fun id => by rw [Outline.leavesOf, hinfo]; rfl
  have hnames : s.outline.names = [] := by rw [Outline.names, hframes]; rfl
  have hloops : s.outline.loops = [] := by rw [Outline.loops, hframes]; rfl
  refine ⟨⟨h.types, ?_, ?_, ?_, ?_, ?_, ?_⟩, ?_⟩
  · intro id i hi
    cases (hinfo id).symm.trans hi
  · intro id id' ls ls' hls
    cases (hleaves id).symm.trans hls
  · exact fun name sig hsig => (h.functions name sig hsig).function
  · intro name id hmem
    rw [hnames] at hmem
    cases hmem
  · rw [hnames]
    exact nodup_nil
  · intro label ref hmem
    rw [hloops] at hmem
    cases hmem
  · intro name id hmem
    rw [hnames] at hmem
    cases hmem

/-- Types may be added. -/
theorem retype (hg : g.Regular) (hext : s.types.Extends g) : ({ s with types := g } : Session).Resting :=
  ⟨h.idle, hg, fun name sig hsig => (h.functions name sig hsig).extend h.types.toSound hext⟩

/-- A function is registered. -/
theorem register {sig : Signature} (hsig : s.types.Declares name sig.type) :
    ({ s with scope := { s.scope with functions := (name, sig) :: s.scope.functions } } :
      Session).Resting := by
  refine ⟨h.idle.setFunctions _, h.types, fun other sig' hlookup => ?_⟩
  by_cases heq : other = name
  · subst heq
    rw [lookup_cons_self] at hlookup
    exact Option.some.inj hlookup ▸ hsig
  · rw [lookup_other heq] at hlookup
    exact h.functions other sig' hlookup

theorem natives : (stateAfter (registerNatives s)).Resting := by
  rw [stateAfter_registerNatives]
  have hlaid := h.retype (Registration.native.lay_regular none s.types h.types)
    (Registration.native.keptIn_lay none s.types).extends
  exact hlaid.register (Registration.lay_declares .native none h.types fun _ => rfl)

theorem declare (decl : FnDecl) : (stateAfter (Lower.declare decl s)).Resting := by
  rw [stateAfter_declare]
  have hlaid := h.retype (decl.registration.lay_regular (some decl.span) s.types h.types)
    (decl.registration.keptIn_lay (some decl.span) s.types).extends
  split
  · exact hlaid
  · exact hlaid.register (Registration.lay_declares _ _ h.types (by rintro ⟨⟩))

/-- If lowering a function fails, the program is to blame. -/
theorem error_of_lower {decl : FnDecl} {failure : Failure LoweringError}
    (hrun : lowerFunction decl s = .error failure t) :
    ∃ e, failure = .error e ∧ e.cause.IsExpected t.types ∧ t.types.Regular := by
  have hblames := lowerFunction_blames h.settled decl
  rw [Blames, hrun] at hblames
  cases failure with
  | error e => exact ⟨e, rfl, hblames⟩
  | fault what => exact hblames.elim

theorem lower (decl : FnDecl) : (stateAfter (lowerFunction decl s)).Resting := by
  have hregular : (stateAfter (lowerFunction decl s)).types.Regular := by
    cases hrun : lowerFunction decl s with
    | ok f t => exact lowerFunction_regular h.settled hrun
    | error e t =>
      obtain ⟨-, -, -, hregular⟩ := h.error_of_lower hrun
      exact hregular
  obtain ⟨hkept, hidle, -, hfunctions⟩ := lowerFunction_rests decl s h.idle
  refine ⟨hidle, hregular, fun name sig hsig => ?_⟩
  rw [hfunctions] at hsig
  exact (h.functions name sig hsig).extend h.types.toSound hkept.extends

theorem run (request : Request) : (request.run s).Resting := by
  cases request with
  | natives => exact h.natives
  | declare decl => exact h.declare decl
  | lower decl => exact h.lower decl

end

end Session.Resting

theorem resting_after (requests : List Request) : (Session.after requests).Resting := by
  induction requests using List.reverseRecOn with
  | nil => exact .initial
  | append_singleton requests request ih =>
    have hafter : Session.after (requests ++ [request]) = request.run (Session.after requests) :=
      foldl_concat ..
    rw [hafter]
    exact ih.run request

/-! ## Programs -/

/-- The function was lowered when nothing else was and all functions were declared.  Its types are in `g`. -/
def LoweredAtRest (decls : List FnDecl) (g : TypeGraph) (decl : FnDecl) (f : Function) : Prop :=
  ∃ s s', s.Resting ∧ s.outline.Prepared decls ∧ lowerFunction decl s = .ok f s' ∧ s'.types.Extends g

theorem declareAll_resting {u : Unit} {s' : Session} (hs : s.Resting)
    (h : declareAll decls s = .ok u s') : s'.Resting := by
  induction decls generalizing s with
  | nil =>
    obtain ⟨-, rfl⟩ := pure_eq_ok_iff.1 h
    exact hs
  | cons decl decls ih =>
    obtain ⟨type, s₁, hdeclare, hrest⟩ := bind_eq_ok_iff.1 h
    have hs₁ := hs.declare decl
    rw [hdeclare] at hs₁
    exact ih hs₁ hrest

theorem lowerFunctions_atRest {todo : List FnDecl} {fs : List Function} {s' : Session}
    (hs : s.Resting) (hp : s.outline.Prepared decls) (hsub : todo ⊆ decls)
    (h : lowerFunctions todo s = .ok fs s') :
    s.types.Extends s'.types ∧ Forall₂ (LoweredAtRest decls s'.types) todo fs := by
  induction todo generalizing s fs with
  | nil =>
    cases h
    exact ⟨.refl _, .nil⟩
  | cons decl todo ih =>
    simp only [lowerFunctions, bind_eq_ok_iff, pure_eq_ok_iff] at h
    obtain ⟨f, s₁, hf, fs', s₂, hfs, rfl, rfl⟩ := h
    obtain ⟨hp₁, hext, -⟩ := lowerFunction_compiled hp (hsub mem_cons_self) hf
    have hs₁ := hs.lower decl
    rw [hf] at hs₁
    obtain ⟨hext', hrest⟩ := ih hs₁ hp₁ (fun d hd => hsub (mem_cons_of_mem _ hd)) hfs
    exact ⟨hext.trans hext', .cons ⟨s, s₁, hs, hp, hf, hext'⟩ hrest⟩

/-- Every function of a program was lowered at rest. -/
theorem lowerProgram_atRest {config : Config} {p : Program}
    (h : lowerProgram config decls .initial = .ok p s) :
    (decls.map FnDecl.name).Nodup ∧ Forall₂ (LoweredAtRest decls p.types) decls p.functions := by
  obtain ⟨s₁, s₂, s₃, fs, hstart, hdeclare, hlower, rfl⟩ := lowerProgram_cases h
  obtain ⟨hprepared, -⟩ := declarations_prepared hstart hdeclare
  have hs₁ : s₁.Resting := by
    rcases hstart with hn | rfl
    · have hnatives := Session.Resting.initial.natives
      rw [hn] at hnatives
      exact hnatives
    · exact .initial
  have hs₂ := declareAll_resting hs₁ hdeclare
  exact ⟨hprepared.names, (lowerFunctions_atRest hs₂ hprepared (Subset.refl _) hlower).2⟩

/-! ## Failures -/

/-- A declaration fails only if the name is taken. -/
theorem declare_error {decl : FnDecl} {e : Failure LoweringError} {t : Session}
    (h : Lower.declare decl s = .error e t) :
    ∃ previous, e = .error ⟨.duplicateFunction decl.name previous, decl.span⟩ := by
  simp only [Lower.declare] at h
  split at h
  all_goals
    simp only [bind, EStateM.bind, pure, EStateM.pure, updateTypes, search, Scope.register] at h
    cases hlookup : s.scope.functions.lookup decl.name with
    | none =>
      rw [hlookup] at h
      cases h
    | some previous =>
      rw [hlookup] at h
      cases h
      exact ⟨_, rfl⟩

/-- Neither is there a fault in looking for the entry point. -/
theorem checkEntryPoint_endsIn (h : s.Resting) (name : String) :
    EndsIn (· = s) (fun e _ => ∃ cause span, e = .error ⟨cause, span⟩ ∧
      (cause = .missingEntryPoint name ∨ ∃ found, cause = .invalidEntryPoint name found))
      (checkEntryPoint name s) := by
  cases hsig : s.scope.functions.lookup name with
  | none =>
    have hrun : checkEntryPoint name s = .error (.error ⟨.missingEntryPoint name, ⟨0, 0⟩⟩) s := by
      simp [checkEntryPoint, bind, EStateM.bind, search, Scope.signature, hsig, Except.mapError]
    rw [hrun]
    exact ⟨_, _, rfl, .inl rfl⟩
  | some sig =>
    have hlt := (h.functions name sig hsig).lt_size
    obtain ⟨node, hnode⟩ := exists_node hlt
    obtain ⟨text, htext⟩ := text_ok h.types.toSound hlt
    have hrun : checkEntryPoint name s = if node.kind.isEntry then .ok () s
        else .error (.error ⟨.invalidEntryPoint name text, node.origin.getD ⟨0, 0⟩⟩) s := by
      simp only [checkEntryPoint, bind, EStateM.bind, search, Scope.signature, hsig, Except.mapError,
        askTypes, query, hnode]
      split
      · rfl
      · simp only [EStateM.bind, askTypes, query, htext]
        rfl
    rw [hrun]
    split
    · rfl
    · exact ⟨_, _, rfl, .inr ⟨_, rfl⟩⟩

/-- What holds from step to step of a program holds of the program. -/
theorem lowerProgram_endsIn {P : Session → Prop} {Q : Failure LoweringError → Session → Prop}
    (config : Config) (initial : P .initial) (natives : ∀ s, P s → P (stateAfter (registerNatives s)))
    (declare : ∀ decl ∈ decls, ∀ s, P s → EndsIn P Q (Lower.declare decl s))
    (entry : ∀ name s, P s → EndsIn P Q (checkEntryPoint name s))
    (lower : ∀ decl ∈ decls, ∀ s, P s → EndsIn P Q (lowerFunction decl s)) :
    EndsIn (fun _ => True) Q (lowerProgram config decls .initial) := by
  have hdeclare : ∀ ds ⊆ decls, ∀ s, P s → EndsIn P Q (declareAll ds s) := by
    intro ds
    induction ds with
    | nil => exact fun _ s hs => hs
    | cons decl ds ih =>
      intro hsub s hs
      obtain ⟨hdecl, hds⟩ := cons_subset.1 hsub
      exact .bind (declare decl hdecl s hs) fun _ t _ ht => ih hds t ht
  have hlower : ∀ ds ⊆ decls, ∀ s, P s → EndsIn P Q (lowerFunctions ds s) := by
    intro ds
    induction ds with
    | nil => exact fun _ s hs => hs
    | cons decl ds ih =>
      intro hsub s hs
      obtain ⟨hdecl, hds⟩ := cons_subset.1 hsub
      exact .bind (lower decl hdecl s hs) fun _ t _ ht => .bind (ih hds t ht) fun _ _ _ hu => hu
  have hrest : ∀ s, P s → EndsIn (fun _ => True) Q ((do
      let functions ← lowerFunctions decls
      report (.programDone functions.length)
      finish functions : Lower Program) s) :=
    fun s hs => .bind (hlower decls (Subset.refl _) s hs) fun _ _ _ _ => trivial
  have hstart : ∀ rest : Lower Program, (∀ s, P s → EndsIn (fun _ => True) Q (rest s)) →
      ∀ s, P s → EndsIn (fun _ => True) Q ((declareAll decls >>= fun _ => rest) s) :=
    fun rest hrest s hs =>
      .bind (hdeclare decls (Subset.refl _) s hs) fun _ t _ ht => hrest t ht
  rw [lowerProgram]
  cases config.entryPoint with
  | none =>
    split
    · exact hstart _ hrest _ (natives _ initial)
    · exact hstart _ hrest _ initial
  | some name =>
    split <;> refine hstart _ (fun t ht => .bind (entry name t ht) fun _ u _ hu => hrest u hu) _ ?_
    · exact natives _ initial
    · exact initial

/-- A program that fails is to blame for it. -/
theorem lowerProgram_error {config : Config} {failure : Failure LoweringError} {t : Session}
    (h : lowerProgram config decls .initial = .error failure t) : ∃ e, failure = .error e := by
  have hends : EndsIn (fun _ => True) (fun failure _ => ∃ e, failure = .error e)
      (lowerProgram config decls .initial) := by
    refine lowerProgram_endsIn (P := Session.Resting) config .initial (fun s hs => hs.natives)
      (fun decl _ s hs => ?_) (fun name s hs => ?_) fun decl _ s hs => ?_
    · have hresting := hs.declare decl
      cases hrun : Lower.declare decl s with
      | ok type t =>
        rw [hrun] at hresting
        exact hresting
      | error e t =>
        obtain ⟨previous, rfl⟩ := declare_error hrun
        exact ⟨_, rfl⟩
    · refine (checkEntryPoint_endsIn hs name).mono (fun _ ht => ht ▸ hs) fun e t he => ?_
      obtain ⟨cause, span, rfl, -⟩ := he
      exact ⟨_, rfl⟩
    · have hresting := hs.lower decl
      cases hrun : lowerFunction decl s with
      | ok f t =>
        rw [hrun] at hresting
        exact hresting
      | error failure t =>
        obtain ⟨e, rfl, -⟩ := hs.error_of_lower hrun
        exact ⟨e, rfl⟩
  rw [h] at hends
  exact hends

/-! ## Causes -/

/-- The cause of a failure after any history is one that a program can have. -/
theorem expected_of_error {requests : List Request} {decl : FnDecl} {failure : Failure LoweringError}
    {t : Session} (h : lowerFunction decl (Session.after requests) = .error failure t) :
    ∃ e, failure = .error e ∧ e.cause.IsExpected t.types := by
  obtain ⟨e, rfl, hexpected, -⟩ := (resting_after requests).error_of_lower h
  exact ⟨e, rfl, hexpected⟩

theorem not_unsupported {requests : List Request} {decl : FnDecl} {construct : String} {span : Span}
    {t : Session} (hnew : construct ∉ unsupportedConstructs) :
    lowerFunction decl (Session.after requests) ≠ .error (.error ⟨.unsupported construct, span⟩) t := by
  intro h
  obtain ⟨e, he, hexpected⟩ := expected_of_error h
  cases he
  exact hnew hexpected

theorem native_not_mem (name : String) :
    s!"native `{name}` without a primitive" ∉ unsupportedConstructs := by
  intro hmem
  have hstart : (s!"native `{name}` without a primitive").toList.take 3 = ['n', 'a', 't'] := by
    change ("native `" ++ name ++ "` without a primitive").toList.take 3 = _
    simp
  have hother : ∀ construct ∈ unsupportedConstructs, construct.toList.take 3 ≠ ['n', 'a', 't'] := by
    decide
  exact hother _ hmem hstart

/-- Lowering a function never ends with an error that stands for a mistake of lowering itself, nor with
a fault, whatever was declared and lowered before. -/
theorem lowerFunction_defensive_unreachable (requests : List Request) (decl : FnDecl) (span : Span)
    (t : Session) :
    let run := lowerFunction decl (Session.after requests)
    run ≠ .error (.error ⟨.unsupported "call to a non-function", span⟩) t ∧
      run ≠ .error (.error ⟨.unsupported "read of an untyped variable", span⟩) t ∧
      run ≠ .error (.error ⟨.unsupported "non-scalar operand", span⟩) t ∧
      (∀ name : String, run ≠ .error (.error ⟨.unsupported s!"native `{name}` without a primitive", span⟩) t) ∧
      ∀ what, run ≠ .error (.fault what) t := by
  refine ⟨not_unsupported (by decide), not_unsupported (by decide), not_unsupported (by decide),
    fun name => not_unsupported (native_not_mem name), fun what h => ?_⟩
  obtain ⟨e, he, -⟩ := expected_of_error h
  cases he

end SlotCode
