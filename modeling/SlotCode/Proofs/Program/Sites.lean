import SlotCode.Proofs.Program.Resting

/-!
# Sites

Where lowering gets to.  A *site* is a tree that is about to be lowered, with the session in which that
happens.  `Visited` follows lowering from the body of a function, whatever the history of requests before
it: each part of a tree is lowered in the session that the parts before it leave.  Whether the function
can be lowered to its end makes no difference.  Checks between two parts and entries in the log are left
out, so that every site of lowering is visited, and perhaps some more.

The outline of a session at a site is settled (`Visited.settled`).
-/

namespace SlotCode

open Outline Lower

/-- A tree that is about to be lowered. -/
inductive Site where
  | expr (e : Expr) (s : Session)
  /-- The rest of a comparison, after the group `left`. -/
  | links (span : Span) (left : List VarId) (before : List Comparison) (links : List Link) (s : Session)
  | block (b : Block) (s : Session)
  /-- A statement of a block whose value so far is `value`. -/
  | stmt (value : Value) (stmt : Stmt) (s : Session)

inductive Visited : Site → Prop where
  | body {requests : List Request} {decl : FnDecl} {c : Callee} {args : List VarId} {s s₁ : Session}
      (htypes : s.types = (Session.after requests).types)
      (hscope : s.scope = (Session.after requests).scope)
      (hcallee : callee decl.name decl.span s = .ok c s)
      (hparams : declareParams (.declare []) decl.params c.params s.enter = .ok args s₁) :
      Visited (.block decl.body s₁)
  | item {span : Span} {before after : List Expr} {e : Expr} {s s₁ : Session} {r : Code × List Value}
      (h : Visited (.expr (.tuple span (before ++ e :: after)) s))
      (hbefore : lowerItems before s = .ok r s₁) : Visited (.expr e s₁)
  | operand {span : Span} {op : ArithOp} {before after : List Expr} {e : Expr} {s s₁ : Session}
      {r : Code × List Operand} (h : Visited (.expr (.arith span op (before ++ e :: after)) s))
      (hbefore : lowerOperands op.type span before s = .ok r s₁) : Visited (.expr e s₁)
  | first {span : Span} {before after : List Expr} {e : Expr} {links : List Link} {s s₁ : Session}
      {r : Code × List VarId}
      (h : Visited (.expr (.compare span (.operands (before ++ e :: after) :: links)) s))
      (hbefore : lowerGroup span before s = .ok r s₁) : Visited (.expr e s₁)
  | chain {span : Span} {group : List Expr} {links : List Link} {s s₁ : Session} {code : Code}
      {left : List VarId} (h : Visited (.expr (.compare span (.operands group :: links)) s))
      (hgroup : lowerGroup span group s = .ok (code, left) s₁) : Visited (.links span left [] links s₁)
  | next {span opSpan : Span} {left : List VarId} {cs : List Comparison} {op : CmpOp}
      {before after : List Expr} {e : Expr} {links : List Link} {s s₁ : Session} {r : Code × List VarId}
      (h : Visited (.links span left cs
        (.operator opSpan op :: .operands (before ++ e :: after) :: links) s))
      (hbefore : lowerGroup span before s = .ok r s₁) : Visited (.expr e s₁)
  | links {span opSpan : Span} {left right : List VarId} {cs : List Comparison} {op : CmpOp}
      {group : List Expr} {links : List Link} {s s₁ : Session} {code : Code}
      (h : Visited (.links span left cs (.operator opSpan op :: .operands group :: links) s))
      (hgroup : lowerGroup span group s = .ok (code, right) s₁) :
      Visited (.links span right (cs ++ comparePairs left op opSpan right) links s₁)
  | arg {span targetSpan : Span} {name : String} {before after : List Expr} {e : Expr} {c : Callee}
      {s s₁ : Session} {r : Code × List Operand × Bindings}
      (h : Visited (.expr (.call span (.var targetSpan name) (before ++ e :: after)) s))
      (hcallee : callee name targetSpan s = .ok c s)
      (hlen : c.params.length = (before ++ e :: after).length)
      (hbefore : lowerArgs targetSpan [] before (c.params.take before.length) s = .ok r s₁) :
      Visited (.expr e s₁)
  | nested {span : Span} {body : Block} {s : Session} (h : Visited (.expr (.block span body) s)) :
      Visited (.block body s)
  | test {span : Span} {test yes : Expr} {no : Option Expr} {s : Session}
      (h : Visited (.expr (.cond span test yes no) s)) : Visited (.expr test s)
  | yes {span : Span} {test yes : Expr} {no : Option Expr} {s s₁ : Session} {r : Code × Value}
      (h : Visited (.expr (.cond span test yes no) s)) (htest : lowerExpr test s = .ok r s₁) :
      Visited (.expr yes s₁)
  | no {span : Span} {test yes no : Expr} {s s₁ s₂ : Session} {r r' : Code × Value}
      (h : Visited (.expr (.cond span test yes (some no)) s)) (htest : lowerExpr test s = .ok r s₁)
      (hyes : lowerExpr yes s₁ = .ok r' s₂) : Visited (.expr no s₂)
  | boxed {span : Span} {boxed target yes : Expr} {no : Option Expr} {s : Session}
      (h : Visited (.expr (.ifFull span boxed target yes no) s)) : Visited (.expr boxed s)
  | full {span : Span} {boxed target yes : Expr} {no : Option Expr} {s s₁ s₂ s₃ s₄ : Session}
      {code : Code} {box : Value} {payload : TypeId} {operand : Operand} {id : VarId}
      {pattern : Pattern} {mode : BindMode} {slots : List VarId}
      (h : Visited (.expr (.ifFull span boxed target yes no) s))
      (hboxed : lowerExpr boxed s = .ok (code, box) s₁)
      (hunboxed : Unboxed span box target payload operand id pattern mode slots s₁ s₂ s₃ s₄) : Visited (.expr yes s₄)
  | empty {span : Span} {boxed target yes no : Expr} {s s₁ s₂ s₃ s₄ s₅ : Session} {code : Code}
      {box : Value} {payload : TypeId} {operand : Operand} {id : VarId} {pattern : Pattern}
      {mode : BindMode} {slots : List VarId} {r : Code × Value}
      (h : Visited (.expr (.ifFull span boxed target yes (some no)) s))
      (hboxed : lowerExpr boxed s = .ok (code, box) s₁)
      (hunboxed : Unboxed span box target payload operand id pattern mode slots s₁ s₂ s₃ s₄)
      (hyes : lowerExpr yes s₄ = .ok r s₅) : Visited (.expr no s₅.exit)
  | loop {span : Span} {label : Option String} {body : Block} {s s₁ : Session} {ref : LoopRef}
      (h : Visited (.expr (.loop span label body) s))
      (hloop : updateScope (·.newLoop label span) s.enter = .ok ref s₁) : Visited (.block body s₁)
  | left {span : Span} {label : Option String} {e : Expr} {s : Session}
      (h : Visited (.expr (.leave span label (some e)) s)) : Visited (.expr e s)
  | payload {span : Span} {e : Expr} {s : Session} (h : Visited (.expr (.wrap span e) s)) :
      Visited (.expr e s)
  | head {span : Span} {head tail : Expr} {s : Session} (h : Visited (.expr (.cons span head tail) s)) :
      Visited (.expr head s)
  | tail {span : Span} {head tail : Expr} {s s₁ : Session} {r : Code × Value}
      (h : Visited (.expr (.cons span head tail) s)) (hhead : lowerExpr head s = .ok r s₁) :
      Visited (.expr tail s₁)
  | stmt {span : Span} {before after : List Stmt} {stmt : Stmt} {s s₁ : Session} {code : Code}
      {value : Value} (h : Visited (.block (.mk span (before ++ stmt :: after)) s))
      (hbefore : lowerStmts (.void span) before s.enter = .ok (code, value) s₁) :
      Visited (.stmt value stmt s₁)
  | bind {value : Value} {span : Span} {target e : Expr} {s : Session}
      (h : Visited (.stmt value (.bind span target e) s)) : Visited (.expr e s)
  | set {value : Value} {span : Span} {target e : Expr} {s : Session}
      (h : Visited (.stmt value (.set span target e) s)) : Visited (.expr e s)
  | yield {value : Value} {span : Span} {e : Expr} {s : Session}
      (h : Visited (.stmt value (.yield span e) s)) : Visited (.expr e s)
  | eval {value : Value} {span : Span} {e : Expr} {s : Session}
      (h : Visited (.stmt value (.eval span e) s)) : Visited (.expr e s)

/-- The session is settled, and the value of the block so far can be handed on. -/
def Site.Settled : Site → Prop
  | .expr _ s | .links _ _ _ _ s | .block _ s => s.outline.Settled
  | .stmt value _ s => s.outline.Settled ∧ value.Ok s.outline

/-- Whatever lowering gets to, it finds a settled outline. -/
theorem Visited.settled {site : Site} (h : Visited site) : site.Settled := by
  induction h with
  | @body requests decl c args s s₁ htypes hscope hcallee hparams =>
    have hs : s.outline.Settled := Session.outline_congr htypes hscope ▸ (resting_after requests).settled
    obtain ⟨-, hvalues, -⟩ := callee_values hs.good hcallee
    exact (declareParams_settles (s := s.enter) hs.enter hvalues hparams).2
  | item _ hbefore ih => exact ih.step (lowerItems_emits (Expr.lowersAll _) ih.good hbefore).1
  | operand _ hbefore ih => exact ih.step (lowerOperands_emits (Expr.lowersAll _) ih.good hbefore).1
  | first _ hbefore ih | next _ hbefore ih => exact lowerGroup_settles ih hbefore
  | chain _ hgroup ih | links _ hgroup ih => exact lowerGroup_settles ih hgroup
  | arg _ _ hlen hbefore ih =>
    refine ih.step (lowerArgs_steps ?_ ih.good hbefore)
    rw [List.length_take, hlen, List.length_append]
    exact Nat.min_eq_left (Nat.le_add_right _ _)
  | nested _ ih | test _ ih | boxed _ ih | left _ ih | payload _ ih | head _ ih => exact ih
  | yes _ htest ih => exact lowerExpr_settles ih htest
  | no _ htest hyes ih => exact lowerExpr_settles (lowerExpr_settles ih htest) hyes
  | full _ hboxed hunboxed ih =>
    exact (hunboxed.settles (lowerExpr_settles ih hboxed)).2.1
  | empty _ hboxed hunboxed hyes ih =>
    obtain ⟨hs, hs₄, new, hadds⟩ :=
      hunboxed.settles (lowerExpr_settles ih hboxed)
    have hsteps := (Expr.lowers _ hs₄.good hyes).1
    exact hs.step (exit_adds (hadds.trans (hsteps.adds hadds.frames_ne))).1
  | @loop span label body s s₁ _ _ hloop ih =>
    obtain ⟨rfl, hs₁⟩ := newLoop_ok hloop
    have hopen : s₁.outline = s.outline.enter.openLoop label := hs₁
    rw [Site.Settled, hopen]
    exact Settled.openLoop ih.enter (by rintro ⟨⟩) label
  | tail _ hhead ih => exact lowerExpr_settles ih hhead
  | @stmt span before after stmt s s₁ code value _ hbefore ih =>
    refine ⟨lowerStmts_settles (s := s.enter) ih.enter hbefore, ?_⟩
    exact (lowerStmts_emits (s := s.enter) (Stmt.lowersAll before) ih.enter.good
      (Value.ok_void ih.enter.good span) hbefore).2.2
  | bind _ ih | set _ ih | yield _ ih | eval _ ih => exact ih.1

/-- The first statement of a block. -/
theorem Visited.head_stmt {span : Span} {stmt : Stmt} {stmts : List Stmt} {s : Session}
    (h : Visited (.block (.mk span (stmt :: stmts)) s)) : Visited (.stmt (.void span) stmt s.enter) := by
  have hsplit : Visited (.block (.mk span ([] ++ stmt :: stmts)) s) := h
  exact .stmt hsplit rfl

/-- The body of a function that can be lowered. -/
theorem visited_of_lowerFunction {requests : List Request} {decl : FnDecl} {f : Function} {s' : Session}
    (h : lowerFunction decl (Session.after requests) = .ok f s') :
    ∃ s v s₁, Visited (.block decl.body s) ∧ lowerBlock decl.body s = .ok (f.code, v) s₁ ∧
      f.value = v.leaves := by
  obtain ⟨s₀, c, s₁, s₂, v, htypes, hscope, hlowered⟩ := lowerFunction_cases h
  exact ⟨s₁, v, s₂, .body htypes hscope hlowered.callee hlowered.params, hlowered.body, hlowered.value⟩

end SlotCode
