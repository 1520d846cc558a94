import SlotCode.Proofs.Lowering.Effects

/-!
# Types that are written in a body

A type that is written in a tree is the payload of an empty box or the item of an empty list.  The box or
list is stored into a variable, so once the tree is lowered the type can be read off the types of the
variables (`Outline.Shows`).  Nothing that is lowered later takes it away.
-/

namespace SlotCode

variable {s s₁ s' : Session} {code : Code}

open Outline Lower List

/-- Each of the types is a part of the type of some variable. -/
def Outline.Shows (o : Outline) (types : List TypeExpr) : Prop :=
  ∀ type ∈ types, ∃ id t part, o.typeOf id = some t ∧ o.types.Part t part ∧ o.types.Denotes type part

namespace Outline.Shows

variable {o o' : Outline} {types types' : List TypeExpr}

theorem nil (o : Outline) : o.Shows [] :=
  forall_mem_nil _

theorem append (h : o.Shows types) (h' : o.Shows types') : o.Shows (types ++ types') :=
  forall_mem_append.2 ⟨h, h'⟩

theorem mono (hgrows : o.Grows o') (h : o.Shows types) : o'.Shows types := by
  intro type htype
  obtain ⟨id, t, part, ht, ⟨kind, hk, hpart⟩, hdenotes⟩ := h type htype
  exact ⟨id, t, part, hgrows.typeOf ht, ⟨kind, hgrows.types _ _ hk, hpart⟩,
    hdenotes.extend hgrows.types type⟩

/-- The type is written first and kept. -/
theorem seq {o₁ : Outline} (h : o₁.Shows types) (hgrows : o₁.Grows o') (h' : o'.Shows types') :
    o'.Shows (types ++ types') :=
  (h.mono hgrows).append h'

/-- The type of a new temporary has the type for a part. -/
theorem temp {s : Session} {g : TypeGraph} {type : TypeExpr} {t part : TypeId} {kind : TypeKind}
    (hk : g.kind t = .ok kind) (hpart : part ∈ kind.parts) (hdenotes : g.Denotes type part) :
    (withTemp s g t).Shows [type] := by
  intro type' htype
  cases mem_singleton.1 htype
  refine ⟨s.outline.vars.length, t, part, ?_, ⟨kind, hk, hpart⟩, hdenotes⟩
  exact typeOf_temps (o := { s.outline with types := g }) Nat.one_pos

end Outline.Shows

/-! ## Parts of trees -/

def Expr.Exhibits (e : Expr) : Prop :=
  ∀ ⦃s s' : Session⦄ ⦃code : Code⦄ ⦃v : Value⦄, s.outline.Settled → lowerExpr e s = .ok (code, v) s' →
    s'.outline.Shows e.annotations

def Block.Exhibits (b : Block) : Prop :=
  ∀ ⦃s s' : Session⦄ ⦃code : Code⦄ ⦃v : Value⦄, s.outline.Settled → lowerBlock b s = .ok (code, v) s' →
    s'.outline.Shows b.annotations

def Stmt.Exhibits (stmt : Stmt) : Prop :=
  ∀ ⦃s s' : Session⦄ ⦃code : Code⦄ ⦃value v : Value⦄, s.outline.Settled →
    lowerStmt value stmt s = .ok (code, v) s' → s'.outline.Shows stmt.annotations

theorem InTurn.shows {held : Bool} {es : List Expr} {parts : List Part}
    (h : InTurn held es s code s' parts) (hes : ∀ e ∈ es, e.Exhibits) (hs : s.outline.Settled) :
    s'.outline.Shows (Expr.annotationsAll es) := by
  induction h with
  | nil => exact .nil _
  | cons hpart hrest ih =>
    obtain ⟨he, hes⟩ := forall_mem_cons.1 hes
    obtain ⟨first, v, s₁, holding, hlower, -, hsteps, -⟩ := hpart.begins hs.good
    have hs₁ := (lowerExpr_settles hs hlower).step hsteps
    obtain ⟨hsteps', -⟩ := hrest.respects (respecting.forall_exprs _) hs₁
    exact (he hs hlower).seq (hsteps.trans hsteps').grows (ih hes hs₁)

theorem Combined.shows {e : Expr} (h : Combined e s code s')
    (hes : ∀ operand ∈ e.operands, operand.Exhibits) (hs : s.outline.Settled) :
    s'.outline.Shows (Expr.annotationsAll e.operands) := by
  obtain ⟨first, last, s₁, parts, -, hparts, hsteps, -⟩ := h
  exact (hparts.shows hes hs).mono hsteps.grows

theorem Link.annotationsAll_eq (links : List Link) :
    Link.annotationsAll links = Expr.annotationsAll (Link.allOperands links) := by
  have happend (es es' : List Expr) :
      Expr.annotationsAll (es ++ es') = Expr.annotationsAll es ++ Expr.annotationsAll es' := by
    induction es with
    | nil => rfl
    | cons e es ih => rw [cons_append, Expr.annotationsAll, Expr.annotationsAll, ih, append_assoc]
  induction links with
  | nil => rfl
  | cons link links ih =>
    cases link with
    | operands group => rw [annotationsAll, allOperands, happend, ih]
    | operator span op => rw [annotationsAll, allOperands, ih]

/-- The second branch is lowered, and then the two are joined. -/
theorem joinBranches_shows {no : Option Expr} {types : List TypeExpr} {yesCode yesCode' noCode : Code}
    {yesValue v : Value} {span : Span} {lowered : Option (Code × Value)} (hno : ∀ e ∈ no, e.Exhibits)
    (hs : s.outline.Settled) (hyes : yesValue.Ok s.outline) (hshows : s.outline.Shows types)
    (hlowerNo : lowerElse no s = .ok lowered s₁)
    (hjoin : joinBranches (yesCode, yesValue) lowered span s₁ = .ok (yesCode', noCode, v) s') :
    s'.outline.Shows (types ++ Expr.annotationsIn no) := by
  obtain ⟨hsteps, -, hv⟩ := lowerElse_emits (Expr.lowersIn no) hs.good hlowerNo
  obtain ⟨hsteps', -⟩ := joinBranches_appends hsteps.good (hyes.mono hs.good hsteps.keeps) hv hjoin
  refine (hshows.seq hsteps.grows ?_).mono hsteps'.grows
  rcases lowerElse_cases hlowerNo with ⟨rfl, -, -⟩ | ⟨e, c, v, rfl, -, hexpr⟩
  · exact .nil _
  · exact hno e rfl hs hexpr

theorem lowerStmts_shows {stmts : List Stmt} {value v : Value} (hstmts : ∀ stmt ∈ stmts, stmt.Exhibits)
    (hs : s.outline.Settled) (h : lowerStmts value stmts s = .ok (code, v) s') :
    s'.outline.Shows (Stmt.annotationsAll stmts) := by
  induction stmts generalizing s code value with
  | nil => exact .nil _
  | cons stmt stmts ih =>
    obtain ⟨hstmt, hstmts⟩ := forall_mem_cons.1 hstmts
    obtain ⟨c, w, s₁, cs, hfirst, hrest, -⟩ := lowerStmts_cons h
    have hs₁ := Stmt.settles hs hfirst
    exact (hstmt hs hfirst).seq (lowerStmts_later hs₁ hrest).grows (ih hstmts hs₁ hrest)

/-- A type is written in the expression of a statement only. -/
theorem Stmt.Exhibits.of_expr {stmt : Stmt} (he : stmt.expr.Exhibits) : stmt.Exhibits := by
  intro s s' code value v hs h
  obtain ⟨first, stored, s₁, stores, hexpr, -, hlater, -⟩ := lowerStmt_stores hs h
  have hshows := (he hs hexpr).mono hlater.grows
  cases stmt <;> exact hshows

/-! ## All trees -/

theorem exhibits : Hereditary Expr.Exhibits Block.Exhibits Stmt.Exhibits where
  var span name s s' code v hs h := .nil _
  int span value s s' code v hs h := .nil _
  bool span value s s' code v hs h := .nil _
  str span value s s' code v hs h := .nil _
  tuple span items hitems s s' code v hs h := (Combined.tuple hs.good h).shows hitems hs
  arith span op operands hoperands s s' code v hs h := (Combined.arith hs.good h).shows hoperands hs
  compare span chain hchain s s' code v hs h := by
    rw [Expr.annotations, Link.annotationsAll_eq]
    exact (Combined.compare hs.good h).shows (Link.forall_allOperands hchain) hs
  not span operand _ s s' code v hs h := absurd h unsupported_ne_ok
  call span target args hargs s s' code v hs h := by
    have hshows := (Combined.call hs.good h).shows hargs hs
    cases lowerExpr_cases h with
    | call => exact hshows
  block span body hbody s s' code v hs h := by
    cases lowerExpr_cases h with
    | block hlower hkeep =>
      obtain ⟨hsteps, -, hv⟩ := body.lowers hs.good hlower
      obtain ⟨hsteps', -⟩ := keepValue_fresh hsteps.good hv hkeep
      exact (hbody hs hlower).mono hsteps'.grows
  cond span test yes no htest hyes hno s s' code v hs h := by
    cases lowerExpr_cases h with
    | cond hlower _ _ hlowerYes hlowerNo hjoin =>
      have hs₁ := lowerExpr_settles hs hlower
      obtain ⟨hsteps, -, hv⟩ := yes.lowers hs₁.good hlowerYes
      have hboth := (htest hs hlower).seq hsteps.grows (hyes hs₁ hlowerYes)
      exact joinBranches_shows hno (hs₁.step hsteps) hv hboth hlowerNo hjoin
  ifFull span boxed target yes no hboxed hyes hno s s' code v hs h := by
    cases lowerExpr_cases h with
    | ifFull hlower hunboxed hlowerYes hlowerNo hjoin =>
      have hs₁ := lowerExpr_settles hs hlower
      obtain ⟨hsteps₂, -⟩ := hunboxed.fills hs₁.good
      obtain ⟨-, hs₄, -⟩ := hunboxed.settles hs₁
      obtain ⟨hsteps₅, -, hexit, hs₅, hv⟩ := hunboxed.exits hs₁ hlowerYes
      have hboth := (hboxed hs hlower).seq (hsteps₂.trans hsteps₅).grows
        ((hyes hs₄ hlowerYes).mono hexit.grows)
      exact joinBranches_shows hno hs₅ hv hboth hlowerNo hjoin
  loop span label body hbody s s' code v hs h := by
    cases lowerExpr_cases h with
    | loop hloop hlower hvalue =>
      obtain ⟨-, -, -, -, -, hkeeps, -⟩ := loopBody_opens body.lowers hs.good hloop hlower
      exact (hbody (newLoop_settles hs hloop) hlower).mono hkeeps.grows
  leave span label value hvalue s s' code v hs h := by
    cases lowerExpr_cases h with
    | leave hleave => exact .nil _
    | leaveWith hlower hleave =>
      obtain ⟨hsteps, -, hv⟩ := Expr.lowers _ hs.good hlower
      obtain ⟨hsteps', -⟩ := leaveWith_takes hsteps.good hv hleave
      exact (hvalue _ rfl hs hlower).mono hsteps'.grows
  wrap span payload hpayload s s' code v hs h := by
    cases lowerExpr_cases h with
    | wrap hlower hwrap =>
      obtain ⟨hsteps, -, hv⟩ := payload.lowers hs.good hlower
      obtain ⟨hsteps', -⟩ := wrapValue_value hsteps.good hv hwrap
      exact (hpayload hs hlower).mono hsteps'.grows
  wrapEmpty span payload _ s s' code v hs h := by
    cases lowerExpr_cases h with
    | wrapEmpty hwrap =>
      rw [(wrapNothing_ok hwrap).1]
      exact .temp ((TypeGraph.kind_add _ _ _ _).trans (if_pos rfl)) mem_cons_self
        ((TypeGraph.resolve_denotes hs.good.types payload).extend (TypeGraph.extends_add _ _ _) payload)
  cons span head tail hhead htail s s' code v hs h := by
    have hshows := (Combined.cons hs.good h).shows (by simpa [Expr.operands] using ⟨hhead, htail⟩) hs
    simpa [Expr.annotations, Expr.operands, Expr.annotationsAll] using hshows
  consEmpty span item _ s s' code v hs h := by
    cases lowerExpr_cases h with
    | consEmpty hcons =>
      rw [(consNothing_ok hcons).1]
      exact .temp ((TypeGraph.kind_addList _ _ _ _).trans (if_pos rfl)) mem_cons_self
        ((TypeGraph.resolve_denotes hs.good.types item).extend (TypeGraph.extends_addList _ _ _) item)
  body span stmts hstmts s s' code v hs h := by
    obtain ⟨s₁, hlower, rfl⟩ := lowerBlock_cases h
    obtain ⟨⟨new, hadds⟩, -⟩ := lowerStmts_emits (s := s.enter) (Stmt.lowersAll stmts) hs.enter.good
      (Value.ok_void hs.enter.good span) hlower
    exact (lowerStmts_shows (s := s.enter) hstmts hs.enter hlower).mono (exit_later hadds).grows
  bind _ _ _ hvalue := .of_expr hvalue
  set _ _ _ hvalue := .of_expr hvalue
  yield _ _ hvalue := .of_expr hvalue
  ret _ _ hvalue := .of_expr hvalue
  eval _ _ hvalue := .of_expr hvalue

end SlotCode
