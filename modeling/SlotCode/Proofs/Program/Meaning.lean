import SlotCode.Proofs.Meaning.Functions

/-!
# Meaning of programs

A lowered function does what its declaration says: where evaluating the declaration on arguments of the
types of its parameters gives a content, running the function on the words of the arguments gives the
words of the content, and it prints the same lines (`lowerProgram_keeps_meaning`).  This is said of
programs whose bodies are sequenced, and nothing is assumed of the operators.
-/

namespace SlotCode

/-! ## Contents of written types -/

mutual

/-- The content is one of the written type.  A list is empty, or it has a head and a tail. -/
inductive Content.IsOf : Content → TypeExpr → Prop
  | nothing (span : Span) : IsOf .nothing (.void span)
  | int (value : Int) (span : Span) : IsOf (.datum (.int value)) (.integer span)
  | bool (value : Bool) (span : Span) : IsOf (.datum (.bool value)) (.boolean span)
  | str (value : String) (span : Span) : IsOf (.datum (.str value)) (.string span)
  | tuple {items : List Content} {types : List TypeExpr} {span : Span} (h : IsOfEach items types) :
      IsOf (.tuple items) (.tuple span types)
  | empty (type : TypeExpr) (span : Span) : IsOf (.box none) (.box span type)
  | full {payload : Content} {type : TypeExpr} {span : Span} (h : IsOf payload type) :
      IsOf (.box (some payload)) (.box span type)
  | nil (type : TypeExpr) (span : Span) : IsOf (.box none) (.list span type)
  | cons {head tail : Content} {type : TypeExpr} {span : Span} (hhead : IsOf head type)
      (htail : IsOf tail (.list span type)) :
      IsOf (.box (some (.tuple [head, tail]))) (.list span type)

inductive Content.IsOfEach : List Content → List TypeExpr → Prop
  | nil : IsOfEach [] []
  | cons {item : Content} {type : TypeExpr} {items : List Content} {types : List TypeExpr}
      (h : IsOf item type) (hs : IsOfEach items types) : IsOfEach (item :: items) (type :: types)

end

mutual

/-- A content of a written type fits the node that the type denotes. -/
theorem Content.IsOf.fits {g : TypeGraph} {content : Content} {type : TypeExpr} {id : TypeId}
    (h : content.IsOf type) (hd : g.Denotes type id) : g.Fits content id := by
  match h with
  | .nothing _ => exact hd
  | .int _ _ => exact .inl hd
  | .bool _ _ => exact .inr (.inl hd)
  | .str _ _ => exact .inr (.inr hd)
  | .tuple hs =>
    obtain ⟨ids, hk, hids⟩ := hd
    exact ⟨ids, hk, Content.IsOfEach.fits hs hids⟩
  | .empty _ _ =>
    obtain ⟨payload, hk, -⟩ := hd
    exact ⟨_, payload, hk, rfl, trivial⟩
  | .full h =>
    obtain ⟨payload, hk, hpayload⟩ := hd
    exact ⟨_, payload, hk, rfl, Content.IsOf.fits h hpayload⟩
  | .nil _ _ =>
    obtain ⟨item, pair, hk, -, -⟩ := hd
    exact ⟨_, pair, hk, rfl, trivial⟩
  | .cons hhead htail =>
    -- The tail is of the same type, and so of the same node.
    have ⟨item, pair, hk, hpair, hitem⟩ := hd
    exact ⟨_, pair, hk, rfl, _, hpair, Content.IsOf.fits hhead hitem, Content.IsOf.fits htail hd, trivial⟩

theorem Content.IsOfEach.fits {g : TypeGraph} {items : List Content} {types : List TypeExpr}
    {ids : List TypeId} (h : Content.IsOfEach items types) (hd : g.DenotesEach types ids) :
    g.FitsEach items ids := by
  match h, ids with
  | .nil, [] => exact trivial
  | .cons h hs, id :: ids => exact ⟨Content.IsOf.fits h hd.1, Content.IsOfEach.fits hs hd.2⟩
  | .nil, _ :: _ | .cons _ _, [] => exact hd.elim

end

/-! ## Functions -/

/-- A machine with enough steps gives what the function computes. -/
theorem Function.Computes.runFunction {A : Arithmetic} {p : Program} {f : Function}
    {args : List Content} {content : Content} {printed : List String}
    (h : f.Computes A p args [] content printed) :
    ∃ fuel, ∀ k ≥ fuel,
      SlotCode.runFunction A p k f (Content.wordsAll args) = some (content.returned, printed) := by
  obtain ⟨-, σ, m, hargs, hruns, rfl, hvalue⟩ := h
  obtain ⟨fuel, hexec⟩ := hruns.exec
  refine ⟨fuel, fun k hk => ?_⟩
  simp [SlotCode.runFunction, hargs, exec_mono hk hexec, hvalue]

/-- A lowered function computes what its declaration is evaluated to. -/
theorem lowerProgram_keeps_meaning (A : Arithmetic) (config : Config) (decls : List FnDecl)
    (p : Program) (s : Session) (h : lowerProgram config decls .initial = .ok p s)
    (horderly : Orderly decls) :
    ∀ decl ∈ decls, ∃ f, p.function? decl.name = some f ∧
      ∀ args, Content.IsOfEach args (decl.params.map Param.type) →
        ∀ n content w, evalFunction A decls n decl args ⟨[], []⟩ = some (.value content, w) →
          ∃ fuel, ∀ k ≥ fuel,
            runFunction A p k f (Content.wordsAll args) = some (content.returned, w.printed) := by
  obtain ⟨d, hb⟩ := built_of_lowerProgram h
  intro decl hdecl
  obtain ⟨f, hf, params, t, t₁, t₂, v, hc, hfunctions, -, hext⟩ :=
    TypeGraph.exists_of_forall₂ hb.functions hdecl
  refine ⟨f, hc.name ▸ hb.function?_eq hf, fun args hargs n content w he => ?_⟩
  obtain ⟨new, hadds⟩ := hc.adds
  have hfits : List.Forall₂ p.types.Fits args params := TypeGraph.fitsEach_iff.1
    (hargs.fits (hc.denoted.extend ((hadds.grows.types.trans hc.lowered.1.grows.types).trans hext)))
  obtain ⟨_, hvalue, -, hcomputes⟩ := hc.computes hb.regular (fun k _ => Expr.faithful hb horderly k)
    hfunctions hext (horderly.sequenced decl hdecl) hfits he
  cases hvalue
  exact hcomputes.runFunction

/-- A function that counts up to its argument and prints a line for each step. -/
def countDecls : List FnDecl :=
  let at0 : Span := ⟨0, 0⟩
  [{  name := "count"
      params := [⟨"n", at0, .integer at0⟩]
      result := .tuple at0 [.integer at0, .boolean at0]
      body := .mk at0
        [.bind at0 (.var at0 "i") (.int at0 0),
          .eval at0 (.loop at0 none (.mk at0
            [.eval at0 (.cond at0
              (.compare at0 [.operands [.var at0 "i"], .operator at0 .lt, .operands [.var at0 "n"]])
              (.block at0 (.mk at0
                [.set at0 (.var at0 "i") (.arith at0 .add [.var at0 "i", .int at0 1]),
                  .eval at0 (.call at0 (.var at0 "print") [.str at0 "step"])]))
              (some (.leave at0 none none)))])),
          .yield at0 (.tuple at0 [.var at0 "i", .bool at0 true])]
      span := at0 }]

/-- Sums integers, and takes the conjunction of anything else. -/
def sumOrAll : Arithmetic
  | .add, data => .int (data.foldl (fun n d => match d with | .int k => n + k | _ => n) 0)
  | _, data => .bool (data.all (· ≠ .bool false))

theorem lowerProgram_keeps_meaning_count :
    ∃ p s f fuel, lowerProgram .library countDecls .initial = .ok p s ∧ p.functions = [f] ∧
      ∀ k ≥ fuel, runFunction sumOrAll p k f [.datum (.int 2)] =
        some ([.datum (.int 2), .datum (.bool true)], ["step", "step"]) := by
  have hrun : succeeds (fun p : Program => p.functions.length == 1)
      (lowerProgram .library countDecls .initial) = true := by
    decide +kernel
  obtain ⟨p, s, h, hlen⟩ := exists_ok_of_succeeds hrun
  obtain ⟨f, hf⟩ := List.length_eq_one_iff.1 (beq_iff_eq.1 hlen)
  have horderly : Orderly countDecls := ⟨by decide, by decide, by decide⟩
  obtain ⟨g, hg, hmeaning⟩ :=
    lowerProgram_keeps_meaning sumOrAll .library countDecls p s h horderly _ List.mem_cons_self
  have hfg : g = f := by
    have := List.mem_of_find?_eq_some hg
    rwa [hf, List.mem_singleton] at this
  obtain ⟨fuel, hfuel⟩ := hmeaning [.datum (.int 2)] (.cons (.int 2 _) .nil) 20
    (.tuple [.datum (.int 2), .datum (.bool true)]) ⟨[], ["step", "step"]⟩ rfl
  exact ⟨p, s, f, fuel, h, hf, hfg ▸ hfuel⟩

end SlotCode
