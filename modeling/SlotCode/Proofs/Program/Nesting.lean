import SlotCode.Proofs.Lowering.Effects
import SlotCode.Proofs.Program.Sites

/-!
# Code inside code

When a tree has been lowered, so have its parts, and their code is part of its code (`Site.Leads`,
`Placed`).  What the code around a part stores into was there before the part, or else it is still in use
after it: a name or an open loop stands for it.  So no code around a part stores into a variable that the
part has made and is done with (`Outline.Dead`).

This is proved of one step from a tree to a part of it, and carries over to all trees inside the body of
a function (`FnDecl.Leads.within`).  Unlike `Visited`, which takes in the bodies of all functions after all
histories, `FnDecl.Leads` keeps to one function that is lowered in one session.
-/

namespace SlotCode

variable {code : Code} {x : VarId} {before after : List Stmt} {value v : Value} {decl : FnDecl}
  {s s' : Session}

open Outline Lower List Code

/-! ## Variables that are done with -/

namespace Outline

variable {o o' : Outline} {x : VarId}

/-- Neither a name nor an open loop stands for the variable. -/
structure Dead (o : Outline) (x : VarId) : Prop where
  lt : x < o.vars.length
  named : ¬ o.Named x
  reserved : ¬ o.Reserved x

theorem Precedes.dead (h : o.Precedes o') (hs : o.Settled) (hloops : o'.loops ⊆ o.loops)
    (hx : o.Dead x) : o'.Dead x where
  lt := Nat.lt_of_lt_of_le hx.lt h.grows.length_le
  named := fun hnamed => (h.named hs hnamed).elim (Nat.not_le_of_lt hx.lt) hx.named
  reserved := fun hreserved => hx.reserved (hreserved.of_grows hs.good h.grows hloops hx.lt)

theorem Later.dead (h : o.Later o') (hs : o.Settled) (hx : o.Dead x) : o'.Dead x :=
  h.toPrecedes.dead hs (h.loops ▸ Subset.refl _) hx

end Outline

/-- Code does not store into a variable that is done with and remains so. -/
theorem Code.Honours.not_dead {o o' : Outline} (h : code.Honours o o') (hs : o.Settled)
    (hlater : o.Later o') (hx : x ∈ code.writes) : ¬ o.Dead x := by
  intro hdead
  rcases h.writes x hx with hnew | hnamed | howed
  · exact Nat.not_lt_of_le hnew hdead.lt
  · exact hdead.named hnamed
  · exact (hlater.dead hs hdead).reserved howed.reserved

theorem Command.WellTyped.writes_typed {t : Typing} {c : Command} (h : c.WellTyped t)
    (hx : x ∈ c.writes) : ∃ type, t.var x = some type := by
  cases h with
  | assign hd | wrap _ hd | wrapEmpty hd | full _ _ hd =>
    cases mem_singleton.1 hx
    exact ⟨_, hd⟩
  | call _ ho | unwrap _ _ ho =>
    obtain ⟨type, -, htype⟩ := TypeGraph.exists_of_forall₂ ho hx
    exact ⟨type, htype⟩
  | print | branch | loop | leave => cases hx

theorem Code.Ok.lt_of_mem_writes {o : Outline} (h : Ok o code) (hx : x ∈ code.writes) :
    x < o.vars.length := by
  obtain ⟨c, hc, hx⟩ := mem_flatMap.1 hx
  obtain ⟨type, htype⟩ := (h c hc).writes_typed hx
  exact lt_of_typeOf htype

/-! ## Parts of trees -/

/-- Lowering the first tree gets to the second, which is a part of it. -/
inductive Site.Leads : Site → Site → Prop where
  | operand {e operand : Expr} {before after : List Expr} {s s₁ : Session} {code : Code}
      {parts : List Part} (he : e.operands = before ++ operand :: after)
      (h : InTurn e.isCompare before s code s₁ parts) : Leads (.expr e s) (.expr operand s₁)
  | payload {span : Span} {payload : Expr} {s : Session} :
      Leads (.expr (.wrap span payload) s) (.expr payload s)
  | left {span : Span} {label : Option String} {value : Expr} {s : Session} :
      Leads (.expr (.leave span label (some value)) s) (.expr value s)
  | nested {span : Span} {body : Block} {s : Session} : Leads (.expr (.block span body) s) (.block body s)
  | test {span : Span} {test yes : Expr} {no : Option Expr} {s : Session} :
      Leads (.expr (.cond span test yes no) s) (.expr test s)
  | yes {span : Span} {test yes : Expr} {no : Option Expr} {s s₁ : Session} {r : Code × Value}
      (htest : lowerExpr test s = .ok r s₁) : Leads (.expr (.cond span test yes no) s) (.expr yes s₁)
  | no {span : Span} {test yes no : Expr} {s s₁ s₂ : Session} {r r' : Code × Value}
      (htest : lowerExpr test s = .ok r s₁) (hyes : lowerExpr yes s₁ = .ok r' s₂) :
      Leads (.expr (.cond span test yes (some no)) s) (.expr no s₂)
  | boxed {span : Span} {boxed target yes : Expr} {no : Option Expr} {s : Session} :
      Leads (.expr (.ifFull span boxed target yes no) s) (.expr boxed s)
  | full {span : Span} {boxed target yes : Expr} {no : Option Expr} {s s₁ s₂ s₃ s₄ : Session}
      {code : Code} {box : Value} {payload : TypeId} {operand : Operand} {id : VarId}
      {pattern : Pattern} {mode : BindMode} {slots : List VarId}
      (hboxed : lowerExpr boxed s = .ok (code, box) s₁)
      (hunboxed : Unboxed span box target payload operand id pattern mode slots s₁ s₂ s₃ s₄) :
      Leads (.expr (.ifFull span boxed target yes no) s) (.expr yes s₄)
  | empty {span : Span} {boxed target yes no : Expr} {s s₁ s₂ s₃ s₄ s₅ : Session} {code : Code}
      {box : Value} {payload : TypeId} {operand : Operand} {id : VarId} {pattern : Pattern}
      {mode : BindMode} {slots : List VarId} {r : Code × Value}
      (hboxed : lowerExpr boxed s = .ok (code, box) s₁)
      (hunboxed : Unboxed span box target payload operand id pattern mode slots s₁ s₂ s₃ s₄)
      (hyes : lowerExpr yes s₄ = .ok r s₅) :
      Leads (.expr (.ifFull span boxed target yes (some no)) s) (.expr no s₅.exit)
  | loop {span : Span} {label : Option String} {body : Block} {s s₁ : Session} {ref : LoopRef}
      (h : updateScope (·.newLoop label span) s.enter = .ok ref s₁) :
      Leads (.expr (.loop span label body) s) (.block body s₁)
  | stmt {span : Span} {before after : List Stmt} {stmt : Stmt} {s s₁ : Session} {code : Code}
      {value : Value} (h : lowerStmts (.void span) before s.enter = .ok (code, value) s₁) :
      Leads (.block (.mk span (before ++ stmt :: after)) s) (.stmt value stmt s₁)
  | expr {value : Value} {stmt : Stmt} {s : Session} : Leads (.stmt value stmt s) (.expr stmt.expr s)

def Site.outline : Site → Outline
  | .expr _ s | .links _ _ _ _ s | .block _ s | .stmt _ _ s => s.outline

inductive Site.Lowered : Site → Code → Value → Session → Prop where
  | expr {e : Expr} {s s' : Session} {code : Code} {v : Value} (h : lowerExpr e s = .ok (code, v) s') :
      Lowered (.expr e s) code v s'
  | block {b : Block} {s s' : Session} {code : Code} {v : Value} (h : lowerBlock b s = .ok (code, v) s') :
      Lowered (.block b s) code v s'
  | stmt {stmt : Stmt} {s s' : Session} {code : Code} {value v : Value}
      (h : lowerStmt value stmt s = .ok (code, v) s') : Lowered (.stmt value stmt s) code v s'

/-- The code `inner` is made between `t` and `t'`, as a part of `code` between `o` and `o'`. -/
structure Placed (t t' : Outline) (inner : Code) (o o' : Outline) (code : Code) : Prop where
  begins : o.vars.length ≤ t.vars.length
  nested : Command.nestedAll inner ⊆ Command.nestedAll code
  /-- What the rest of `code` stores into was there before, or is still in use afterwards. -/
  writes : ∀ x ∈ code.writes, x ∈ inner.writes ∨ x < t.vars.length ∨ ¬ t'.Dead x
  dead : ∀ x, t'.Dead x → o'.Dead x

namespace Placed

variable {t t' u u' o o' : Outline} {inner mid code : Code}

theorem refl (o o' : Outline) (code : Code) : Placed o o' code o o' code :=
  ⟨Nat.le_refl _, Subset.refl _, fun _ hx => .inl hx, fun _ hx => hx⟩

theorem trans (h : Placed t t' inner u u' mid) (h' : Placed u u' mid o o' code) :
    Placed t t' inner o o' code where
  begins := h'.begins.trans h.begins
  nested := Subset.trans h.nested h'.nested
  writes x hx := by
    rcases h'.writes x hx with hmid | hlt | hdead
    · exact h.writes x hmid
    · exact .inr (.inl (Nat.lt_of_lt_of_le hlt h.begins))
    · exact .inr (.inr fun hx => hdead (h.dead x hx))
  dead := fun x hx => h'.dead x (h.dead x hx)

section

variable {a b c d : Code} (hbegins : o.vars.length ≤ t.vars.length) (hs : t'.Settled)
  (hlater : t'.Later o') (ha : ∀ x ∈ a.writes, x < t.vars.length)

include hbegins hs hlater ha

/-- Whatever `code` stores into by itself, it stores into with `a` before `t` or with `b` after `t'`. -/
theorem around (hnested : Command.nestedAll inner ⊆ Command.nestedAll code) (hb : b.Honours t' o')
    (hwrites : ∀ x ∈ code.writes, x ∈ a.writes ∨ x ∈ inner.writes ∨ x ∈ b.writes) :
    Placed t t' inner o o' code where
  begins := hbegins
  nested := hnested
  writes x hx := by
    rcases hwrites x hx with hx | hx | hx
    · exact .inr (.inl (ha x hx))
    · exact .inl hx
    · exact .inr (.inr (hb.not_dead hs hlater hx))
  dead := fun _ hx => hlater.dead hs hx

/-- Code that is made after `a` and before `b`. -/
theorem between (hb : b.Honours t' o') : Placed t t' inner o o' (a ++ inner ++ b) := by
  refine around hbegins hs hlater ha (fun command hcommand => ?_) hb fun x hx => ?_
  · simp [hcommand]
  · simpa only [writes_append, mem_append, or_assoc] using hx

/-- Code of the first branch, after `b` and before `c`. -/
theorem yes (hb : ∀ x ∈ b.writes, x < t.vars.length) (hc : c.Honours t' o') (hd : d.Honours t' o')
    (span : Span) (test : Operand) :
    Placed t t' inner o o' (a ++ [.branch span test (b ++ inner ++ c) d]) := by
  refine around (a := a ++ b) hbegins hs hlater ?_ (fun command hcommand => ?_) (hc.append hd)
    fun x hx => ?_
  · exact writes_append a b ▸ forall_mem_append.2 ⟨ha, hb⟩
  · simp [Command.nestedAll, Command.nested, hcommand]
  · simpa only [writes_append, mem_append, mem_writes_branch, or_assoc] using hx

/-- Code of the second branch.  In the first branch, `b` is made before it and `c` after it. -/
theorem no (hb : ∀ x ∈ b.writes, x < t.vars.length) (hc : c.Honours t' o') (hd : d.Honours t' o')
    (span : Span) (test : Operand) :
    Placed t t' inner o o' (a ++ [.branch span test (b ++ c) (inner ++ d)]) := by
  refine around (a := a ++ b) hbegins hs hlater ?_ (fun command hcommand => ?_) (hc.append hd)
    fun x hx => ?_
  · exact writes_append a b ▸ forall_mem_append.2 ⟨ha, hb⟩
  · simp [Command.nestedAll, Command.nested, hcommand]
  · simp only [writes_append, mem_append, mem_writes_branch, or_assoc] at hx ⊢
    tauto

end

end Placed

/-! ## Operands and statements -/

section

variable {held : Bool} {es es' : List Expr} {s s₁ s' : Session} {code : Code} {parts : List Part}

theorem InTurn.cons_inv {e : Expr} (h : InTurn held (e :: es) s code s' parts) :
    ∃ (part : Part) (rest : Code) (parts' : List Part), part.expr = e ∧ part.before = s ∧
      part.Lowered held ∧ InTurn held es part.after rest s' parts' ∧ code = part.code ++ rest := by
  generalize hl : e :: es = l at h
  cases h with
  | nil => cases hl
  | @cons part _ rest _ parts' hpart hrest =>
    cases hl
    exact ⟨part, rest, parts', rfl, rfl, hpart, hrest, rfl⟩

theorem InTurn.split (h : InTurn held (es ++ es') s code s' parts) :
    ∃ first s₁ parts₁ last parts₂, InTurn held es s first s₁ parts₁ ∧
      InTurn held es' s₁ last s' parts₂ ∧ code = first ++ last := by
  induction es generalizing s code parts with
  | nil => exact ⟨[], s, [], code, parts, .nil, h, rfl⟩
  | cons e es ih =>
    obtain ⟨part, rest, parts', rfl, rfl, hpart, hrest, rfl⟩ := h.cons_inv
    obtain ⟨first, s₁, parts₁, last, parts₂, hfirst, hlast, rfl⟩ := ih hrest
    exact ⟨_, s₁, _, last, parts₂, .cons hpart hfirst, hlast, (append_assoc _ _ _).symm⟩

theorem Part.Lowered.after_unique {part part' : Part} (h : part.Lowered held) (h' : part'.Lowered held)
    (hexpr : part.expr = part'.expr) (hbefore : part.before = part'.before) :
    part.after = part'.after := by
  cases h with
  | value h =>
    cases h' with
    | value h' =>
      cases hexpr
      cases hbefore
      cases h.symm.trans h'
      rfl
  | held h _ hhold =>
    cases h' with
    | held h' _ hhold' =>
      cases hexpr
      cases hbefore
      cases h.symm.trans h'
      cases hhold.symm.trans hhold'
      rfl

/-- Lowering expressions in turn ends in one session. -/
theorem InTurn.unique {s'' : Session} {code' : Code} {parts' : List Part}
    (h : InTurn held es s code s' parts) (h' : InTurn held es s code' s'' parts') : s' = s'' := by
  induction es generalizing s code parts code' parts' with
  | nil =>
    cases h
    cases h'
    rfl
  | cons e es ih =>
    obtain ⟨part, rest, _, rfl, rfl, hpart, hrest, rfl⟩ := h.cons_inv
    obtain ⟨part', rest', _, hexpr, hbefore, hpart', hrest', rfl⟩ := h'.cons_inv
    rw [hpart'.after_unique hpart hexpr hbefore] at hrest'
    exact ih hrest hrest'

theorem InTurn.ok (h : InTurn held es s code s' parts) (hg : s.outline.Good) :
    s.outline.Steps s'.outline ∧ Ok s'.outline code := by
  induction h with
  | nil => exact ⟨.refl hg, .nil⟩
  | cons hpart _ ih =>
    obtain ⟨first, v, s₁, holding, hlower, hcode, hsteps', hholding, -⟩ := hpart.begins hg
    obtain ⟨hsteps, hfirst, -⟩ := Expr.lowers _ hg hlower
    obtain ⟨hrest, hok⟩ := ih hsteps'.good
    refine ⟨(hsteps.trans hsteps').trans hrest, .append ?_ hok⟩
    rw [hcode]
    exact ((hfirst.ok.mono hsteps.good hsteps'.grows).append hholding).mono hsteps'.good hrest.grows

theorem lowerStmts_concat {w : Value} {first last : Code}
    (h : lowerStmts value before s = .ok (first, w) s₁)
    (h' : lowerStmts w after s₁ = .ok (last, v) s') :
    lowerStmts value (before ++ after) s = .ok (first ++ last, v) s' := by
  induction before generalizing s value first with
  | nil =>
    cases h
    exact h'
  | cons stmt before ih =>
    obtain ⟨c, u, s₂, cs, hhead, htail, rfl⟩ := lowerStmts_cons h
    rw [append_assoc]
    exact bind_eq_ok_iff.2 ⟨(c, u), s₂, hhead, bind_eq_ok_iff.2 ⟨(cs ++ last, v), s', ih htail, rfl⟩⟩

theorem lowerStmts_append (h : lowerStmts value (before ++ after) s = .ok (code, v) s') :
    ∃ first w s₁ last, lowerStmts value before s = .ok (first, w) s₁ ∧
      lowerStmts w after s₁ = .ok (last, v) s' ∧ code = first ++ last := by
  induction before generalizing s value code with
  | nil => exact ⟨[], value, s, code, rfl, h, rfl⟩
  | cons stmt before ih =>
    obtain ⟨c, w, s₁, cs, hhead, htail, rfl⟩ := lowerStmts_cons h
    obtain ⟨first, u, s₂, last, hfirst, hlast, rfl⟩ := ih htail
    refine ⟨c ++ first, u, s₂, last, ?_, hlast, (append_assoc _ _ _).symm⟩
    exact bind_eq_ok_iff.2 ⟨(c, w), s₁, hhead, bind_eq_ok_iff.2 ⟨(first, u), s₂, hfirst, rfl⟩⟩

end

/-! ## One step -/

/-- The site has been lowered, to code that is a part of `code`. -/
def Site.Within (site : Site) (o o' : Outline) (code : Code) : Prop :=
  site.Settled ∧ ∃ inner v s', site.Lowered inner v s' ∧ Placed site.outline s'.outline inner o o' code

namespace Site.Within

variable {s s₁ s' : Session} {code : Code} {v : Value} {span : Span}

theorem operand {e operand : Expr} {before after : List Expr} {first : Code} {parts : List Part}
    (he : e.operands = before ++ operand :: after) (hbefore : InTurn e.isCompare before s first s₁ parts)
    (hs : s.outline.Settled) (h : lowerExpr e s = .ok (code, v) s') :
    (Site.expr operand s₁).Within s.outline s'.outline code := by
  have hmem : operand ∈ e.operands := he ▸ mem_append_right _ mem_cons_self
  obtain ⟨all, last, s₂, parts', rfl, hall, hsteps₂, hlast⟩ := Combined.of_operand hmem hs.good h
  rw [he] at hall
  obtain ⟨first', t, _, rest, _, hfirst, hrest, rfl⟩ := hall.split
  -- the operands before this one lead to one session only
  obtain rfl := hbefore.unique hfirst
  obtain ⟨part, more, _, rfl, rfl, hpart, hmore, rfl⟩ := hrest.cons_inv
  obtain ⟨hsteps, hok⟩ := hfirst.ok hs.good
  have hs₁ := hs.step hsteps
  obtain ⟨inner, w, t', holding, hlower, hcode, hsteps', -, hholding⟩ := hpart.begins hs₁.good
  have hs' := lowerExpr_settles hs₁ hlower
  obtain ⟨hsteps'', hmore⟩ := hmore.respects (respecting.forall_exprs _) (hs'.step hsteps')
  have hafter : Honours t'.outline s'.outline (holding ++ more ++ last) :=
    ((Honours.of_fresh hholding).seq hs' hsteps'.later hsteps''.later hmore.honours).seq hs'
      (hsteps'.trans hsteps'').later hsteps₂.later (.of_fresh hlast)
  have hassoc : first' ++ (part.code ++ more) ++ last = first' ++ inner ++ (holding ++ more ++ last) := by
    simp only [hcode, append_assoc]
  rw [hassoc]
  exact ⟨hs₁, inner, w, t', .expr hlower, .between hsteps.grows.length_le hs'
    ((hsteps'.trans hsteps'').trans hsteps₂).later (fun x hx => hok.lt_of_mem_writes hx) hafter⟩

section

variable (hs : s.outline.Settled)

include hs

/-- An expression whose code comes first. -/
theorem first {e : Expr} {inner last : Code} {w : Value} {o' : Outline}
    (h : lowerExpr e s = .ok (inner, w) s₁) (hlater : s₁.outline.Later o')
    (hlast : last.Honours s₁.outline o') : (Site.expr e s).Within s.outline o' (inner ++ last) :=
  ⟨hs, inner, w, s₁, .expr h, .between (a := []) (Nat.le_refl _) (lowerExpr_settles hs h) hlater
    (forall_mem_nil _) hlast⟩

theorem payload {payload : Expr} (h : lowerExpr (.wrap span payload) s = .ok (code, v) s') :
    (Site.expr payload s).Within s.outline s'.outline code := by
  cases lowerExpr_cases h with
  | wrap hlower hwrap =>
    obtain ⟨hsteps, -, hv⟩ := payload.lowers hs.good hlower
    obtain ⟨hsteps', -⟩ := wrapValue_value hsteps.good hv hwrap
    obtain ⟨-, -, rfl, -⟩ := wrapValue_ok hwrap
    exact first hs hlower hsteps'.later (.of_fresh (.box _ _ _ _))

theorem left {label : Option String} {value : Expr}
    (h : lowerExpr (.leave span label (some value)) s = .ok (code, v) s') :
    (Site.expr value s).Within s.outline s'.outline code := by
  cases lowerExpr_cases h with
  | leaveWith hlower hleave =>
    obtain ⟨hsteps, -, hv⟩ := value.lowers hs.good hlower
    obtain ⟨hsteps', -⟩ := leaveWith_takes hsteps.good hv hleave
    exact first hs hlower hsteps'.later (leaveWith_honours hsteps.good hv hleave)

theorem nested {body : Block} (h : lowerExpr (.block span body) s = .ok (code, v) s') :
    (Site.block body s).Within s.outline s'.outline code := by
  cases lowerExpr_cases h with
  | block hlower hkeep =>
    obtain ⟨hsteps, -, hv⟩ := body.lowers hs.good hlower
    obtain ⟨hsteps', hcopy⟩ := keepValue_fresh hsteps.good hv hkeep
    exact ⟨hs, _, _, _, .block hlower, .between (a := []) (Nat.le_refl _) (hs.step hsteps) hsteps'.later
      (forall_mem_nil _) (.of_fresh hcopy)⟩

theorem test {test yes : Expr} {no : Option Expr}
    (h : lowerExpr (.cond span test yes no) s = .ok (code, v) s') :
    (Site.expr test s).Within s.outline s'.outline code := by
  cases lowerExpr_cases h with
  | cond hlower _ _ hyes hno hjoin =>
    obtain ⟨hsteps, hbranch⟩ := Expr.Respecting.branches (respecting.forall_expr yes)
      (respecting.forall_exprIn no) (lowerExpr_settles hs hlower) hyes hno hjoin _
    exact first hs hlower hsteps.later hbranch.honours

theorem yes {test yes : Expr} {no : Option Expr} {r : Code × Value} (htest : lowerExpr test s = .ok r s₁)
    (h : lowerExpr (.cond span test yes no) s = .ok (code, v) s') :
    (Site.expr yes s₁).Within s.outline s'.outline code := by
  cases lowerExpr_cases h with
  | cond hlower _ _ hyes hno hjoin =>
    cases htest.symm.trans hlower
    obtain ⟨hsteps₁, hemits, -⟩ := test.lowers hs.good hlower
    have hs₁ := hs.step hsteps₁
    obtain ⟨hsteps₂, -, hv₂⟩ := yes.lowers hs₁.good hyes
    have hs₂ := hs₁.step hsteps₂
    obtain ⟨hsteps₃, -, hv₃⟩ := lowerElse_emits (Expr.lowersIn no) hsteps₂.good hno
    obtain ⟨hsteps₄, a, b, rfl, rfl, ha, hb⟩ :=
      joinBranches_appends hsteps₃.good (hv₂.mono hsteps₂.good hsteps₃.keeps) hv₃ hjoin
    have hnoCode := (lowerElse_respects (respecting.forall_exprIn no) hs₂ hno).seq_fresh hsteps₃
      hsteps₄.later hb
    exact ⟨hs₁, _, _, _, .expr hyes, .yes (b := []) hsteps₁.grows.length_le hs₂
      (hsteps₃.trans hsteps₄).later (fun x hx => hemits.ok.lt_of_mem_writes hx) (forall_mem_nil _)
      (.of_fresh (ha.after hsteps₃.grows)) hnoCode.honours _ _⟩

theorem no {test yes no : Expr} {r r' : Code × Value} {s₂ : Session} (htest : lowerExpr test s = .ok r s₁)
    (hyes : lowerExpr yes s₁ = .ok r' s₂)
    (h : lowerExpr (.cond span test yes (some no)) s = .ok (code, v) s') :
    (Site.expr no s₂).Within s.outline s'.outline code := by
  cases lowerExpr_cases h with
  | cond hlower _ _ hlowerYes hno hjoin =>
    cases htest.symm.trans hlower
    cases hyes.symm.trans hlowerYes
    obtain ⟨hsteps₁, hemits₁, -⟩ := test.lowers hs.good hlower
    obtain ⟨hsteps₂, hemits₂, hv₂⟩ := yes.lowers hsteps₁.good hyes
    have hs₂ := hs.step (hsteps₁.trans hsteps₂)
    obtain ⟨hsteps₃, -, hv₃⟩ := lowerElse_emits (Expr.lowersIn (some no)) hsteps₂.good hno
    obtain ⟨hsteps₄, a, b, rfl, rfl, ha, hb⟩ :=
      joinBranches_appends hsteps₃.good (hv₂.mono hsteps₂.good hsteps₃.keeps) hv₃ hjoin
    rcases lowerElse_cases hno with ⟨hnone, -⟩ | ⟨_, noCode, w, hsome, rfl, hlowerNo⟩
    · cases hnone
    cases hsome
    have hbefore := hemits₁.ok.mono hsteps₁.good hsteps₂.grows
    exact ⟨hs₂, _, _, _, .expr hlowerNo, .no (hsteps₁.trans hsteps₂).grows.length_le (hs₂.step hsteps₃)
      hsteps₄.later (fun x hx => hbefore.lt_of_mem_writes hx)
      (fun x hx => hemits₂.ok.lt_of_mem_writes hx) (.of_fresh ha) (.of_fresh hb) _ _⟩

theorem boxed {boxed target yes : Expr} {no : Option Expr}
    (h : lowerExpr (.ifFull span boxed target yes no) s = .ok (code, v) s') :
    (Site.expr boxed s).Within s.outline s'.outline code := by
  cases lowerExpr_cases h with
  | ifFull hlower hunboxed hyes hno hjoin =>
    obtain ⟨hsteps, hbranches⟩ := Expr.Respecting.fullBranches (respecting.forall_expr yes)
      (respecting.forall_exprIn no) (lowerExpr_settles hs hlower) hunboxed hyes hno hjoin
    exact first hs hlower hsteps.later hbranches.honours

end

section

variable {boxed target yes : Expr} {s₂ s₃ s₄ : Session} {boxCode : Code} {box : Value}
  {payload : TypeId} {operand : Operand} {id : VarId} {pattern : Pattern} {mode : BindMode}
  {slots : List VarId} (hs : s.outline.Settled) (hboxed : lowerExpr boxed s = .ok (boxCode, box) s₁)
  (hunboxed : Unboxed span box target payload operand id pattern mode slots s₁ s₂ s₃ s₄)

include hs hboxed hunboxed

/-- What is stored into before the branch for a full box. -/
theorem before_full :
    s.outline.Grows s₄.outline ∧
      (∀ x ∈ writes (boxCode ++ [.native span .full [operand] [id]]), x < s₄.outline.vars.length) ∧
      ∀ x ∈ writes [.native pattern.span .unwrap [operand] slots], x < s₄.outline.vars.length := by
  obtain ⟨hsteps₁, hemits, -⟩ := boxed.lowers hs.good hboxed
  have hs₁ := hs.step hsteps₁
  obtain ⟨hsteps₂, -, -, hfills⟩ := hunboxed.fills hs₁.good
  obtain ⟨-, hs₄, new, hadds⟩ := hunboxed.settles hs₁
  have hgrows : s₂.outline.Grows s₄.outline := (Grows.reframe _ _).trans hadds.grows
  refine ⟨(hsteps₁.grows.trans hsteps₂.grows).trans hgrows, fun x hx => ?_, fun x hx => ?_⟩
  · rw [writes_append, mem_append] at hx
    rcases hx with hx | hx
    · exact (hemits.ok.mono hsteps₁.good (hsteps₂.grows.trans hgrows)).lt_of_mem_writes hx
    · cases mem_singleton.1 hx
      obtain ⟨rfl, hs₂⟩ := newTyped_ok hunboxed.tests
      refine Nat.lt_of_lt_of_le ?_ hgrows.length_le
      simp [hs₂, Outline.push]
  · have hslot : x ∈ slots := append_nil slots ▸ hx
    obtain ⟨type, -, t, ht, -⟩ := TypeGraph.exists_of_forall₂ (hfills.takes hs₄.good) hslot
    exact lt_of_typeOf ht

theorem full {no : Option Expr} (h : lowerExpr (.ifFull span boxed target yes no) s = .ok (code, v) s') :
    (Site.expr yes s₄).Within s.outline s'.outline code := by
  obtain ⟨hgrows, hbox, hunwrap⟩ := before_full hs hboxed hunboxed
  cases lowerExpr_cases h with
  | ifFull hboxed' hunboxed' hyes hno hjoin =>
    cases hboxed.symm.trans hboxed'
    cases hunboxed.opens.symm.trans hunboxed'.opens
    cases hunboxed.tests.symm.trans hunboxed'.tests
    cases hunboxed.binds.symm.trans hunboxed'.binds
    cases hunboxed.expands.symm.trans hunboxed'.expands
    have hs₁ := lowerExpr_settles hs hboxed
    obtain ⟨-, hs₄, -⟩ := hunboxed.settles hs₁
    obtain ⟨-, hs₅, hexit, hsout, hv⟩ := hunboxed.exits hs₁ hyes
    obtain ⟨hsteps₆, -, hv₆⟩ := lowerElse_emits (Expr.lowersIn no) hsout.good hno
    obtain ⟨hsteps₇, a, b, rfl, rfl, ha, hb⟩ :=
      joinBranches_appends hsteps₆.good (hv.mono hsout.good hsteps₆.keeps) hv₆ hjoin
    have hgrows₆ := hexit.grows.trans hsteps₆.grows
    have hnoCode := (lowerElse_respects (respecting.forall_exprIn no) hsout hno).honours.after hs₅
      hexit.toPrecedes
    rw [append_cons]
    exact ⟨hs₄, _, _, _, .expr hyes, .yes (b := [_]) hgrows.length_le hs₅
      (hexit.trans (hsteps₆.trans hsteps₇).later) hbox hunwrap
      (.of_fresh (ha.after hgrows₆))
      ((hnoCode.before hsteps₆.good hsteps₇.later).append (.of_fresh (hb.after hgrows₆))) _ _⟩

theorem empty {no : Expr} {r : Code × Value} {s₅ : Session} (hyes : lowerExpr yes s₄ = .ok r s₅)
    (h : lowerExpr (.ifFull span boxed target yes (some no)) s = .ok (code, v) s') :
    (Site.expr no s₅.exit).Within s.outline s'.outline code := by
  obtain ⟨hgrows, hbox, hunwrap⟩ := before_full hs hboxed hunboxed
  cases lowerExpr_cases h with
  | ifFull hboxed' hunboxed' hyes' hno hjoin =>
    cases hboxed.symm.trans hboxed'
    cases hunboxed.opens.symm.trans hunboxed'.opens
    cases hunboxed.tests.symm.trans hunboxed'.tests
    cases hunboxed.binds.symm.trans hunboxed'.binds
    cases hunboxed.expands.symm.trans hunboxed'.expands
    cases hyes.symm.trans hyes'
    have hs₁ := lowerExpr_settles hs hboxed
    obtain ⟨-, hs₄, -⟩ := hunboxed.settles hs₁
    obtain ⟨-, -, hexit, hs₅, hv⟩ := hunboxed.exits hs₁ hyes
    obtain ⟨hsteps, hemits, -⟩ := yes.lowers hs₄.good hyes
    obtain ⟨hsteps₆, -, hv₆⟩ := lowerElse_emits (Expr.lowersIn (some no)) hs₅.good hno
    obtain ⟨hsteps₇, a, b, rfl, rfl, ha, hb⟩ :=
      joinBranches_appends hsteps₆.good (hv.mono hs₅.good hsteps₆.keeps) hv₆ hjoin
    rcases lowerElse_cases hno with ⟨hnone, -⟩ | ⟨_, noCode, w, hsome, rfl, hlowerNo⟩
    · cases hnone
    cases hsome
    have hgrows' : s₄.outline.Grows s₅.exit.outline := hsteps.grows.trans hexit.grows
    have hyesCode := hemits.ok.mono hsteps.good hexit.grows
    rw [append_cons]
    refine ⟨hs₅, _, _, _, .expr hlowerNo, .no (hgrows.trans hgrows').length_le (hs₅.step hsteps₆)
      hsteps₇.later (fun x hx => Nat.lt_of_lt_of_le (hbox x hx) hgrows'.length_le) (fun x hx => ?_)
      (.of_fresh ha) (.of_fresh hb) _ _⟩
    rcases mem_writes_cons.1 hx with hx | hx
    · exact Nat.lt_of_lt_of_le (hunwrap x hx) hgrows'.length_le
    · exact hyesCode.lt_of_mem_writes hx

end

theorem loop {label : Option String} {body : Block} {ref : LoopRef} (hs : s.outline.Settled)
    (hloop : updateScope (·.newLoop label span) s.enter = .ok ref s₁)
    (h : lowerExpr (.loop span label body) s = .ok (code, v) s') :
    (Site.block body s₁).Within s.outline s'.outline code := by
  cases lowerExpr_cases h with
  | @loop _ _ _ _ _ s₂ _ inner w _ hloop' hlower hvalue =>
    cases hloop.symm.trans hloop'
    obtain ⟨rfl, hopen, hgood, -, hout, hkeeps, -⟩ := loopBody_opens body.lowers hs.good hloop hlower
    have hs₁ := newLoop_settles hs hloop
    obtain ⟨hsteps, -⟩ := body.lowers hgood hlower
    have hnames : s₂.outline.names = s.outline.names := by
      rw [hsteps.names, hopen, names_openLoop]
    -- `Later` would not do, as the loop is closed here
    have hprecedes : s₂.outline.Precedes s₂.exit.outline := by
      refine ⟨hkeeps.grows, hkeeps.good, fun name id hmem => .inl ?_⟩
      rwa [hnames, ← hout.names]
    refine ⟨hs₁, inner, w, s₂, .block hlower, ?_, ?_, fun x hx => .inl (mem_writes_loop.1 hx), ?_⟩
    · exact (hopen ▸ (Grows.reframe _ _).trans (.openLoop _ _) : s.outline.Grows s₁.outline).length_le
    · exact subset_cons_of_subset _ (subset_append_left _ _)
    · exact fun x hx => hprecedes.dead (hs₁.step hsteps) hkeeps.loops hx

theorem stmt {stmt : Stmt} {first : Code} (hs : s.outline.Settled)
    (hbefore : lowerStmts (.void span) before s.enter = .ok (first, value) s₁)
    (h : lowerBlock (.mk span (before ++ stmt :: after)) s = .ok (code, v) s') :
    (Site.stmt value stmt s₁).Within s.outline s'.outline code := by
  obtain ⟨s₃, hlower, rfl⟩ := lowerBlock_cases h
  have hvoid := Value.ok_void hs.enter.good span
  obtain ⟨⟨new, hadds⟩, -⟩ := lowerStmts_emits (s := s.enter) (Stmt.lowersAll _) hs.enter.good hvoid hlower
  obtain ⟨_, _, _, last, hbefore', hrest, rfl⟩ := lowerStmts_append hlower
  cases hbefore.symm.trans hbefore'
  obtain ⟨inner, w, s₂, more, hstmt, hmore, rfl⟩ := lowerStmts_cons hrest
  obtain ⟨⟨_, hadds₁⟩, hemits, hvalue⟩ :=
    lowerStmts_emits (s := s.enter) (Stmt.lowersAll before) hs.enter.good hvoid hbefore
  have hs₁ := lowerStmts_settles (s := s.enter) hs.enter hbefore
  have hs₂ := Stmt.settles hs₁ hstmt
  have hexit := exit_later hadds
  have hafter := (lowerStmts_respects (respecting.forall_stmts after) hs₂ hmore).before hadds.good hexit
  rw [← append_assoc]
  exact ⟨⟨hs₁, hvalue⟩, inner, w, s₂, .stmt hstmt, .between hadds₁.grows.length_le hs₂
    ((lowerStmts_later hs₂ hmore).trans hexit) (fun x hx => hemits.ok.lt_of_mem_writes hx) hafter.honours⟩

theorem expr {stmt : Stmt} (hs : s.outline.Settled) (h : lowerStmt value stmt s = .ok (code, v) s') :
    (Site.expr stmt.expr s).Within s.outline s'.outline code := by
  obtain ⟨inner, stored, s₁, stores, hexpr, rfl, hlater, -, -, hstores⟩ := lowerStmt_stores hs h
  exact first hs hexpr hlater hstores.honours

end Site.Within

/-- The parts of a tree that has been lowered have been lowered too, to parts of its code. -/
theorem Site.Leads.within {site part : Site} (hleads : site.Leads part) (hs : site.Settled)
    (h : site.Lowered code v s') : part.Within site.outline s'.outline code := by
  cases h with
  | expr h =>
    cases hleads with
    | operand he hbefore => exact .operand he hbefore hs h
    | payload => exact .payload hs h
    | left => exact .left hs h
    | nested => exact .nested hs h
    | test => exact .test hs h
    | yes htest => exact .yes hs htest h
    | no htest hyes => exact .no hs htest hyes h
    | boxed => exact .boxed hs h
    | full hboxed hunboxed => exact .full hs hboxed hunboxed h
    | empty hboxed hunboxed hyes =>
      exact .empty hs hboxed hunboxed hyes h
    | loop hloop => exact .loop hs hloop h
  | block h =>
    cases hleads with
    | stmt hbefore => exact .stmt hs hbefore h
  | stmt h =>
    cases hleads with
    | expr => exact .expr hs.1 h

/-! ## Functions -/

/-- Lowering the function in the session gets to the site. -/
inductive FnDecl.Leads (decl : FnDecl) (s : Session) : Site → Prop where
  | body {s₀ s₁ : Session} {c : Callee} {args : List VarId}
      (hbegun : report (.functionBegun decl.name) s = .ok () s₀)
      (hcallee : callee decl.name decl.span s₀ = .ok c s₀)
      (hparams : declareParams (.declare []) decl.params c.params s₀.enter = .ok args s₁) :
      decl.Leads s (.block decl.body s₁)
  | part {site part : Site} (h : decl.Leads s site) (hpart : site.Leads part) : decl.Leads s part

theorem FnDecl.Leads.settled {s₀ s₁ : Session} {c : Callee} {args : List VarId}
    (hs : s.outline.Settled) (hbegun : report (.functionBegun decl.name) s = .ok () s₀)
    (hcallee : callee decl.name decl.span s₀ = .ok c s₀)
    (hparams : declareParams (.declare []) decl.params c.params s₀.enter = .ok args s₁) :
    s₁.outline.Settled := by
  rw [report_eq_ok_iff] at hbegun
  have hs₀ : s₀.outline.Settled := by
    rw [hbegun]
    exact hs
  obtain ⟨-, hvalues, -⟩ := callee_values hs₀.good hcallee
  exact (declareParams_settles (s := s₀.enter) hs₀.enter hvalues hparams).2

theorem lowerFunction_begins {f : Function} (h : lowerFunction decl s = .ok f s') :
    ∃ s₀ c s₁ v s₂, report (.functionBegun decl.name) s = .ok () s₀ ∧
      callee decl.name decl.span s₀ = .ok c s₀ ∧
      declareParams (.declare []) decl.params c.params s₀.enter = .ok f.args s₁ ∧
      lowerBlock decl.body s₁ = .ok (f.code, v) s₂ ∧ f.value = v.leaves := by
  simp only [lowerFunction, bind_eq_ok_iff, pure_eq_ok_iff, Prod.exists] at h
  obtain ⟨_, s₀, hbegun, c, s₁, hcallee, _, s₂, hcheck, body, table, locals, s₃, hdrain, _, s₄, -, rfl,
    -⟩ := h
  obtain ⟨rfl, -⟩ := callee_ok hcallee
  obtain ⟨rfl, -⟩ := checkParams_ok hcheck
  obtain ⟨s₅, hbody, -⟩ := draining_ok hdrain
  obtain ⟨s₆, s₇, v, hparams, hblock, -, hvalue, -⟩ := lowerBody_ok hbody
  exact ⟨_, c, s₆, v, s₇, hbegun, hcallee, hparams, hblock, hvalue⟩

/-- All that lowering gets to in a function that can be lowered has become a part of its code. -/
theorem FnDecl.Leads.within {f : Function} {site : Site} (h : decl.Leads s site)
    (hs : s.outline.Settled) (hf : lowerFunction decl s = .ok f s') :
    ∃ o o', site.Within o o' f.code := by
  induction h with
  | body hbegun hcallee hparams =>
    obtain ⟨_, _, _, v, s₂, hbegun', hcallee', hparams', hblock, -⟩ := lowerFunction_begins hf
    cases hbegun.symm.trans hbegun'
    cases hcallee.symm.trans hcallee'
    cases hparams.symm.trans hparams'
    exact ⟨_, _, settled hs hbegun hcallee hparams, f.code, v, s₂, .block hblock, .refl _ _ _⟩
  | part _ hpart ih =>
    obtain ⟨o, o', hsettled, code, v, t, hlowered, hplaced⟩ := ih
    obtain ⟨hsettled', inner, w, t', hlowered', hplaced'⟩ := hpart.within hsettled hlowered
    exact ⟨o, o', hsettled', inner, w, t', hlowered', hplaced'.trans hplaced⟩

end SlotCode
