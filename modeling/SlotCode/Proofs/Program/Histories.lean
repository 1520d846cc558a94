import SlotCode.Proofs.Lowering.Idle

/-!
# Histories

A session is reached by a history of requests: the built-in functions are provided, functions are
declared and functions are lowered, in any order, and a request that fails keeps what it did to the
session.  What a function is *registered* as can be read off the history alone (`registered`).

In every session that is reached so, no function is being lowered, and each function that is registered
has a part of the type graph for itself, where its type was laid down (`Session.Records`).
-/

namespace SlotCode

open Lower List TypeGraph

/-! ## Requests -/

inductive Request where
  | natives
  | declare (decl : FnDecl)
  | lower (decl : FnDecl)

/-- The session after a request, whether or not it succeeds. -/
def Request.run (s : Session) : Request → Session
  | .natives => stateAfter (registerNatives s)
  | .declare decl => stateAfter (Lower.declare decl s)
  | .lower decl => stateAfter (lowerFunction decl s)

/-- The session that a history leads to. -/
def Session.after (requests : List Request) : Session :=
  requests.foldl Request.run .initial

/-- What a function is registered as: as built in, or with the types written in its declaration. -/
inductive Registration where
  | native
  | declared (params : List TypeExpr) (result : TypeExpr)

def FnDecl.registration (decl : FnDecl) : Registration :=
  .declared (decl.params.map Param.type) decl.result

/-- What the name is registered as after a request.  A declaration of a known name fails. -/
def Request.registers (name : String) (before : Option Registration) : Request → Option Registration
  | .natives => if name = "print" then some .native else before
  | .declare decl => if name = decl.name then before.or (some decl.registration) else before
  | .lower _ => before

def registered (requests : List Request) (name : String) : Option Registration :=
  requests.foldl (Request.registers name) none

/-! ## Types of functions -/

/-- Adds the types of parameters to a type graph.  No parameters stand for one of type `void`. -/
def TypeGraph.layInputs (g : TypeGraph) (params : List TypeExpr) : List TypeId × TypeGraph :=
  if params.isEmpty then ([.void], g) else g.resolveAll params

/-- Adds the type of a function to a type graph. -/
def Registration.lay (origin : Option Span) (g : TypeGraph) : Registration → TypeId × TypeGraph
  | .native => g.addNative [.string] .void
  | .declared params result =>
    let inputs := g.layInputs params
    let output := inputs.2.resolve result
    output.2.add (.function inputs.1 output.1 false) origin

namespace TypeGraph

variable {g g' : TypeGraph} (params : List TypeExpr)

theorem keptIn_layInputs : g.KeptIn (g.layInputs params).2 := by
  unfold layInputs
  split
  · exact .refl g
  · exact keptIn_resolveAll g params

theorem layInputs_grown (hg : g.Regular) : g.Grown (g.layInputs params).2 (g.layInputs params).1 := by
  unfold layInputs
  split
  · exact .unit hg hg.void rfl
  · exact resolveAll_grown hg params

theorem Embeds.layInputs {r : TypeId → TypeId} {base : TypeId} (h : g.Embeds r base g')
    (hb : base ≤ g.size) :
    (g'.layInputs params).1 = (g.layInputs params).1.map r ∧
      (g.layInputs params).2.Embeds r base (g'.layInputs params).2 := by
  unfold TypeGraph.layInputs
  split
  · refine ⟨?_, h⟩
    rw [map_singleton, h.unit (show .void < 4 by decide)]
  · exact h.resolveAll hb params

end TypeGraph

namespace Registration

variable (reg : Registration) (origin : Option Span) (g : TypeGraph)

theorem keptIn_lay : g.KeptIn (reg.lay origin g).2 := by
  cases reg with
  | native => exact keptIn_add g _ _
  | declared params result =>
    exact ((keptIn_layInputs params).trans (keptIn_resolve _ result)).trans (keptIn_add _ _ _)

theorem lay_lt : (reg.lay origin g).1 < (reg.lay origin g).2.size := by
  cases reg with
  | native => exact size_add g _ _ ▸ Nat.lt_succ_self _
  | declared params result => exact size_add _ _ _ ▸ Nat.lt_succ_self _

theorem lay_regular (hg : g.Regular) : (reg.lay origin g).2.Regular := by
  cases reg with
  | native =>
    refine hg.add _ (fun part hpart => ?_) rfl
    rcases mem_pair.1 hpart with rfl | rfl
    · exact ⟨_, hg.string, rfl⟩
    · exact ⟨_, hg.void, rfl⟩
  | declared params result =>
    have hinputs := layInputs_grown params hg
    have houtput := resolve_grown hinputs.regular result
    refine houtput.regular.add _ (fun part hpart => ?_) rfl
    rcases mem_append.1 hpart with hpart | hpart
    · exact (hinputs.values part hpart).extend houtput.ext
    · exact houtput.values part hpart

/-- The type of a function is laid in both graphs. -/
theorem lay_embeds {r : TypeId → TypeId} {base : TypeId} {g g' : TypeGraph} (h : g.Embeds r base g')
    (hb : base ≤ g.size) (origin origin' : Option Span) :
    (reg.lay origin' g').1 = r (reg.lay origin g).1 ∧
      (reg.lay origin g).2.Embeds r base (reg.lay origin' g').2 := by
  cases reg with
  | native =>
    have hadd := h.add (.function [.string] .void true) none
    rw [TypeKind.rename, map_singleton, h.unit (show .string < 4 by decide),
      h.unit (show .void < 4 by decide)] at hadd
    exact ⟨h.size, hadd⟩
  | declared params result =>
    obtain ⟨hinputs, hg⟩ := h.layInputs params hb
    have hb' := hb.trans (keptIn_layInputs (g := g) params).extends.size_le
    obtain ⟨houtput, hg⟩ := hg.resolve hb' result
    have horigin : (TypeKind.function (g.layInputs params).1 ((g.layInputs params).2.resolve result).1
        false).isFunction = false → origin' = origin := by
      intro hvalue
      cases hvalue
    have hadd := hg.addNode _ horigin
    rw [TypeKind.rename, ← hinputs, ← houtput] at hadd
    exact ⟨hg.size, hadd⟩

end Registration

/-! ## What requests do -/

theorem stateAfter_registerNatives (s : Session) : stateAfter (registerNatives s) =
    { s with
      types := (Registration.native.lay none s.types).2
      scope := s.scope.registerNative "print" (Registration.native.lay none s.types).1 } :=
  rfl

/-- A declaration lays the type of the function in any case, and registers it if it is new. -/
theorem stateAfter_declare (decl : FnDecl) (s : Session) : stateAfter (Lower.declare decl s) =
    { s with
      types := (decl.registration.lay (some decl.span) s.types).2
      scope :=
        if (s.scope.functions.lookup decl.name).isSome then s.scope
        else { s.scope with
          functions := (decl.name,
            ⟨(decl.registration.lay (some decl.span) s.types).1, some decl.span⟩) ::
              s.scope.functions } } := by
  have hempty : (decl.params.map Param.type).isEmpty = decl.params.isEmpty := isEmpty_map
  simp only [Lower.declare, FnDecl.registration, Registration.lay, layInputs, hempty]
  split
  · simp only [bind, EStateM.bind, pure, EStateM.pure, updateTypes, search, Scope.register]
    cases s.scope.functions.lookup decl.name <;> rfl
  · simp only [bind, EStateM.bind, updateTypes, search, Scope.register]
    cases s.scope.functions.lookup decl.name <;> rfl

/-! ## Records -/

/-- Where a registration was laid: the graph at that time, and the place in the source. -/
structure Place where
  graph : TypeGraph
  origin : Option Span

def Registration.at (reg : Registration) (place : Place) : TypeId × TypeGraph :=
  reg.lay place.origin place.graph

/-- What is known about the session that a history leads to.  The places tell where the type of each
function was laid. -/
structure Session.Records (places : String → Place) (known : String → Option Registration)
    (s : Session) : Prop where
  idle : s.scope.Idle
  root : s.scope.current.id = 0
  units : TypeGraph.initial.KeptIn s.types
  absent : ∀ {name : String}, known name = none → s.scope.functions.lookup name = none
  present : ∀ {name : String} {reg : Registration}, known name = some reg →
    (s.scope.functions.lookup name).map Signature.type = some (reg.at (places name)).1 ∧
      (reg.at (places name)).2.KeptIn s.types ∧ 4 ≤ (places name).graph.size
  apart : ∀ {name name' : String} {reg reg' : Registration}, known name = some reg →
    known name' = some reg' → name ≠ name' →
      (reg.at (places name)).2.size ≤ (places name').graph.size ∨
        (reg'.at (places name')).2.size ≤ (places name).graph.size

theorem lookup_other {name other : String} (h : other ≠ name) (sig : Signature)
    (fs : List (String × Signature)) : List.lookup other ((name, sig) :: fs) = fs.lookup other := by
  rw [lookup_cons, beq_eq_false_iff_ne.2 h]

namespace Session.Records

variable {places : String → Place} {known : String → Option Registration} {s : Session}

theorem initial (places : String → Place) : Session.initial.Records places fun _ => none where
  idle := Scope.initial_idle
  root := rfl
  units := .refl _
  absent := fun _ => rfl
  present := fun h => nomatch h
  apart := fun h => nomatch h

/-- Other nodes may be added. -/
theorem keep (h : s.Records places known) {t : Session} (hrests : s.Rests KeptIn t) :
    t.Records places known := by
  obtain ⟨htypes, hidle, hid, hfunctions⟩ := hrests h.idle
  refine ⟨hidle, hid.trans h.root, h.units.trans htypes, fun hname => ?_, fun hname => ?_, h.apart⟩
  · rw [hfunctions]
    exact h.absent hname
  · obtain ⟨hlookup, hkept, hsize⟩ := h.present hname
    rw [hfunctions]
    exact ⟨hlookup, hkept.trans htypes, hsize⟩

/-- The type of a function is laid, and the name registered. -/
theorem register (h : s.Records places known) (name : String) (reg : Registration)
    (origin declared : Option Span) (log : Array Event) :
    Records (Function.update places name ⟨s.types, origin⟩) (Function.update known name (some reg))
      { types := (reg.lay origin s.types).2
        scope := { s.scope with
          functions := (name, ⟨(reg.lay origin s.types).1, declared⟩) :: s.scope.functions }
        log := log } := by
  have hkept := reg.keptIn_lay origin s.types
  have hunits : 4 ≤ s.types.size := h.units.extends.size_le
  -- What was laid before ends before the new type begins.
  have hbefore : ∀ {other : String} {reg' : Registration}, known other = some reg' →
      (reg'.at (places other)).2.size ≤ s.types.size := fun hother =>
    (h.present hother).2.1.extends.size_le
  refine ⟨h.idle.setFunctions _, h.root, h.units.trans hkept, fun {other} hother => ?_,
    fun {other reg'} hother => ?_, fun {a b rega regb} ha hb hne => ?_⟩
  · by_cases heq : other = name
    · rw [heq, Function.update_self] at hother
      cases hother
    · rw [Function.update_of_ne heq] at hother
      rw [lookup_other heq]
      exact h.absent hother
  · by_cases heq : other = name
    · subst heq
      rw [Function.update_self] at hother ⊢
      cases hother
      exact ⟨by rw [lookup_cons_self]; rfl, .refl _, hunits⟩
    · rw [Function.update_of_ne heq] at hother ⊢
      obtain ⟨hlookup, hkept', hsize⟩ := h.present hother
      rw [lookup_other heq]
      exact ⟨hlookup, hkept'.trans hkept, hsize⟩
  · by_cases heqa : a = name
    · have hneb : b ≠ name := fun heqb => hne (heqa.trans heqb.symm)
      rw [Function.update_of_ne hneb] at hb ⊢
      rw [heqa, Function.update_self]
      exact .inr (hbefore hb)
    · rw [Function.update_of_ne heqa] at ha ⊢
      by_cases heqb : b = name
      · rw [heqb, Function.update_self]
        exact .inl (hbefore ha)
      · rw [Function.update_of_ne heqb] at hb ⊢
        exact h.apart ha hb hne

theorem run (h : s.Records places known) (request : Request) :
    ∃ places', (request.run s).Records places' fun name => request.registers name (known name) := by
  cases request with
  | lower decl => exact ⟨places, h.keep (lowerFunction_rests decl s)⟩
  | natives =>
    have hknown : (fun name => Request.natives.registers name (known name)) =
        Function.update known "print" (some .native) := by
      funext name
      rw [Function.update_apply, Request.registers]
    rw [hknown]
    exact ⟨_, h.register "print" .native none none s.log⟩
  | declare decl =>
    rw [Request.run, stateAfter_declare]
    cases hlookup : s.scope.functions.lookup decl.name with
    | some previous =>
      -- The name is known already, and stays what it was.
      have hknown : (fun name => (Request.declare decl).registers name (known name)) = known := by
        funext name
        rw [Request.registers]
        split
        · next heq =>
          subst heq
          cases hname : known decl.name with
          | some reg => rfl
          | none =>
            rw [h.absent hname] at hlookup
            cases hlookup
        · rfl
      rw [hknown]
      refine ⟨places, h.keep fun hidle => ⟨decl.registration.keptIn_lay _ _, ?_⟩⟩
      exact ⟨hidle, rfl, rfl⟩
    | none =>
      have hnone : known decl.name = none := by
        cases hname : known decl.name with
        | none => rfl
        | some reg =>
          have hpresent := (h.present hname).1
          rw [hlookup] at hpresent
          cases hpresent
      have hknown : (fun name => (Request.declare decl).registers name (known name)) =
          Function.update known decl.name (some decl.registration) := by
        funext name
        rw [Function.update_apply, Request.registers]
        split
        · next heq => rw [heq, hnone, Option.none_or]
        · rfl
      rw [hknown]
      exact ⟨_, h.register decl.name decl.registration (some decl.span) (some decl.span) s.log⟩

end Session.Records

/-- Every history is recorded. -/
theorem records_after (requests : List Request) :
    ∃ places, (Session.after requests).Records places (registered requests) := by
  induction requests using List.reverseRecOn with
  | nil => exact ⟨fun _ => ⟨.initial, none⟩, .initial _⟩
  | append_singleton requests request ih =>
    obtain ⟨places, h⟩ := ih
    have hafter : Session.after (requests ++ [request]) = request.run (Session.after requests) :=
      foldl_concat ..
    have hregistered : registered (requests ++ [request]) =
        fun name => request.registers name (registered requests name) := by
      funext name
      exact foldl_concat ..
    rw [hafter, hregistered]
    exact h.run request

/-- The functions of a session are those that are registered. -/
theorem isSome_lookup_after (requests : List Request) (name : String) :
    ((Session.after requests).scope.functions.lookup name).isSome =
      (registered requests name).isSome := by
  obtain ⟨places, h⟩ := records_after requests
  cases hname : registered requests name with
  | none => rw [h.absent hname]; rfl
  | some reg =>
    obtain ⟨sig, hsig, -⟩ := Option.map_eq_some_iff.1 (h.present hname).1
    rw [hsig]
    rfl

end SlotCode
