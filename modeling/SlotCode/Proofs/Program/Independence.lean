import SlotCode.Proofs.Program.Home

/-!
# Functions are lowered independently

What lowering a function gives depends on what the function and those that it calls are registered as,
and on nothing else that a session was asked before (`lowerFunction_independent`).  The types have
other numbers, and the loops are numbered on from another one.

Both sessions are compared with one that knows these functions only.
-/

namespace SlotCode

open Lower

/-! ## Types under other numbers -/

/-- The types `ids` of `g` are those of `g'` under other numbers, node by node. -/
structure TypeGraph.Renames (q : TypeId → TypeId) (ids : Set TypeId) (g g' : TypeGraph) : Prop where
  inj : Set.InjOn q ids
  units : ∀ id < 4, id ∈ ids ∧ q id = id
  nodes : ∀ id ∈ ids, ∃ node, g.node id = .ok node ∧ (∀ part ∈ node.kind.parts, part ∈ ids) ∧
    g'.node (q id) = .ok ⟨node.kind.rename q, node.origin⟩

/-- A graph that is inside two others says which of their types are the same. -/
theorem TypeGraph.Embeds.renames {g g₁ g₂ : TypeGraph} {r₁ r₂ : TypeId → TypeId} (hg : g.Regular)
    (h₁ : g.Embeds r₁ 0 g₁) (h₂ : g.Embeds r₂ 0 g₂) :
    TypeGraph.Renames (fun id => r₂ (Function.invFun r₁ id)) (r₁ '' {id | g.IsValue id}) g₁ g₂ := by
  have hback : ∀ id, Function.invFun r₁ (r₁ id) = id := Function.leftInverse_invFun h₁.injective
  refine ⟨?_, fun id hid => ?_, ?_⟩
  · rintro _ ⟨a, -, rfl⟩ _ ⟨b, -, rfl⟩ heq
    simp only [hback] at heq
    rw [h₂.injective heq]
  · have hfix := h₁.unit hid
    refine ⟨⟨id, hg.unit hid, hfix⟩, ?_⟩
    rw [← hfix, hback, hfix, h₂.unit hid]
  · rintro _ ⟨id, ⟨kind, hkind, hvalue⟩, rfl⟩
    obtain ⟨node, hn, rfl⟩ := TypeGraph.kind_eq_ok_iff.1 hkind
    refine ⟨_, h₁.node_value (Nat.zero_le id) hn hvalue, ?_, ?_⟩
    · rw [TypeKind.parts_rename]
      exact List.forall_mem_map.2 fun part hpart => ⟨part, hg.parts id part ⟨node.kind, hkind, hpart⟩, rfl⟩
    · simp only [TypeKind.rename_rename, hback]
      exact h₂.node_value (Nat.zero_le id) hn hvalue

/-! ## Independence -/

/-- What is the same under two renumberings is the same up to renaming. -/
theorem SameFunction.rename {r r' : Renumbering} {n n' : LoopId} (hn : r.loops = (· + n))
    (hn' : r'.loops = (· + n')) {s : Session} {f f₁ f₂ : Function} (h₁ : SameFunction r s f f₁)
    (h₂ : SameFunction r' s f f₂) :
    f₂.rename id (· + n) = f₁.rename (fun type => r'.types (Function.invFun r.types type)) (· + n') := by
  have hback : ∀ type, Function.invFun r.types (r.types type) = type :=
    Function.leftInverse_invFun r.types_inj
  rw [h₁.eq, h₂.eq, hn, hn', Function.rename_rename, Function.rename_rename]
  simp only [hback, id_eq, Nat.add_right_comm]

/-- After any two histories that registered a function and those that it calls in the same way, the
function is lowered in the same way: it fails with the same error, or both results are the same up to a
renaming of the types and a shift of the loops. -/
theorem lowerFunction_independent (before before' : List Request) (decl : FnDecl)
    (h : ∀ name ∈ decl.name :: decl.body.callees, registered before name = registered before' name) :
    (∃ e t t', lowerFunction decl (Session.after before) = .error (.error e) t ∧
      lowerFunction decl (Session.after before') = .error (.error e) t') ∨
    ∃ f t f' t', lowerFunction decl (Session.after before) = .ok f t ∧
      lowerFunction decl (Session.after before') = .ok f' t' ∧
      ∃ q ids, t.types.Renames q ids t'.types ∧ (∀ type ∈ f.types, type ∈ ids) ∧
        f'.rename id (· + (Session.after before).scope.nextLoop) =
          f.rename q (· + (Session.after before').scope.nextLoop) := by
  obtain ⟨r, hloops, hrun⟩ := lowerFunction_home before h
  obtain ⟨r', hloops', hrun'⟩ := lowerFunction_home before' fun name _ => Eq.refl _
  rcases hrun.cases with ⟨f, u, f₁, t, hu, ht, halike, hsame⟩ | ⟨e, u, t, hu, ht⟩
  · rcases hrun'.cases with ⟨g, u', f₂, t', hu', ht', halike', hsame'⟩ | ⟨e, u', t', hu', ht'⟩
    · obtain ⟨rfl, rfl⟩ := EStateM.Result.ok.inj (hu.symm.trans hu')
      refine .inr ⟨f₁, t, f₂, t', ht, ht', _, _, halike.embeds.renames halike.regular halike'.embeds,
        ?_, hsame.rename hloops hloops' hsame'⟩
      rw [hsame.eq, Function.types_rename]
      exact List.forall_mem_map.2 fun type hmem => ⟨type, hsame.values type hmem, rfl⟩
    · cases hu.symm.trans hu'
  · rcases hrun'.cases with ⟨g, u', f₂, t', hu', ht', -⟩ | ⟨e', u', t', hu', ht'⟩
    · cases hu.symm.trans hu'
    · cases hu.symm.trans hu'
      exact .inl ⟨e, t, t', ht, ht'⟩

/-- A function with a loop that calls another one and a built-in one, and wraps what it gets. -/
def tickDecl : FnDecl :=
  let at0 : Span := ⟨0, 0⟩
  { name := "tick"
    params := [⟨"count", at0, .integer at0⟩]
    result := .box at0 (.integer at0)
    body := .mk at0
      [.bind at0 (.var at0 "next") (.wrap at0 (.call at0 (.var at0 "step") [.var at0 "count"])),
        .eval at0 (.loop at0 none (.mk at0
          [.eval at0 (.call at0 (.var at0 "print") [.str at0 "tick"]),
            .eval at0 (.leave at0 none none)])),
        .yield at0 (.var at0 "next")]
    span := at0 }

def stepDecl : FnDecl :=
  let at0 : Span := ⟨0, 0⟩
  { name := "step"
    params := [⟨"count", at0, .integer at0⟩]
    result := .integer at0
    body := .mk at0 [.yield at0 (.arith at0 .add [.var at0 "count", .int at0 1])]
    span := at0 }

/-- A function that has nothing to do with the other ones. -/
def waitDecl : FnDecl :=
  let at0 : Span := ⟨0, 0⟩
  { name := "wait"
    params := [⟨"pair", at0, .tuple at0 [.boolean at0, .boolean at0]⟩]
    result := .void at0
    body := .mk at0 [.eval at0 (.loop at0 none (.mk at0 [.eval at0 (.leave at0 none none)]))]
    span := at0 }

/-- In the second history the functions are declared in another order, a function is lowered before
those that it calls are there, and a declaration is repeated. -/
theorem lowerFunction_independent_tick :
    let early : List Request := [.natives, .declare stepDecl, .declare tickDecl]
    let late : List Request := [.declare waitDecl, .declare tickDecl, .lower tickDecl, .lower waitDecl,
      .declare stepDecl, .declare tickDecl, .natives]
    (∀ name ∈ tickDecl.name :: tickDecl.body.callees, registered early name = registered late name) ∧
      (Session.after early).scope.nextLoop = 0 ∧ (Session.after late).scope.nextLoop = 1 ∧
      ∃ f t f' t', lowerFunction tickDecl (Session.after early) = .ok f t ∧
        lowerFunction tickDecl (Session.after late) = .ok f' t' ∧
        ∃ q ids, t.types.Renames q ids t'.types ∧ (∀ type ∈ f.types, type ∈ ids) ∧
          f'.rename id (· + (Session.after early).scope.nextLoop) =
            f.rename q (· + (Session.after late).scope.nextLoop) := by
  intro early late
  have hsame : ∀ name ∈ tickDecl.name :: tickDecl.body.callees,
      registered early name = registered late name := by
    have hcallees : tickDecl.body.callees = ["step", "print"] := rfl
    rw [hcallees]
    simp [early, late, registered, Request.registers, tickDecl, stepDecl, waitDecl]
  have hrun : succeeds (fun _ => true) (lowerFunction tickDecl (Session.after early)) = true := by
    decide +kernel
  refine ⟨hsame, by decide +kernel, by decide +kernel, ?_⟩
  rcases lowerFunction_independent early late tickDecl hsame with ⟨e, t, t', he, -⟩ | hok
  · rw [he] at hrun
    cases hrun
  · exact hok

end SlotCode
