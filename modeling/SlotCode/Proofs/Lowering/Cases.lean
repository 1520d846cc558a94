import SlotCode.Proofs.Lowering.Steps
import SlotCode.Proofs.Source.Induction

/-!
# Trees that are lowered

What has happened if lowering a tree succeeds, one level deep: how its parts were lowered, and which
steps were taken in between (`lowerExpr_cases`, `lowerStmt_cases` and so on).  There is one case for
each form of tree that can be lowered at all.
-/

namespace SlotCode

variable {span : Span} {e : Expr} {v : Value} {es : List Expr} {s s' : Session} {code : Code}

open Lower

-- Their equations are made here, once, and not by the first of the lemmas below that gets to them.
attribute [local simp] lowerExpr lowerStmt

/-- The box has been opened: `full` is to tell whether it is full, and the names of the target stand for
its payload. -/
structure Unboxed (span : Span) (box : Value) (target : Expr) (payload : TypeId) (operand : Operand)
    (full : VarId) (pattern : Pattern) (mode : BindMode) (slots : List VarId) (s s₁ s₂ s' : Session) :
    Prop where
  opens : openBox box s = .ok (payload, operand) s
  tests : newTyped .boolean span s = .ok full s₁
  binds : bindPattern (.declare []) target s₁.enter = .ok (pattern, mode) s₂
  expands : expand box.span pattern payload s₂ = .ok slots s'

inductive LoweredExpr : Expr → Session → Code → Value → Session → Prop where
  | var {span : Span} {name : String} {s : Session} {id : VarId} {v : Value}
      (hid : s.outline.lookup name = some id) (hv : valueOf id span s = .ok v s) :
      LoweredExpr (.var span name) s [] v s
  | int {span : Span} {value : Int} {s : Session} :
      LoweredExpr (.int span value) s [] (.scalar .integer span (.int value)) s
  | bool {span : Span} {value : Bool} {s : Session} :
      LoweredExpr (.bool span value) s [] (.scalar .boolean span (.bool value)) s
  | str {span : Span} {value : String} {s : Session} :
      LoweredExpr (.str span value) s [] (.scalar .string span (.str value)) s
  | tuple {span : Span} {items : List Expr} {s s₁ s' : Session} {code : Code} {values : List Value}
      {v : Value} (hitems : lowerItems items s = .ok (code, values) s₁)
      (htuple : tupleOf values span s₁ = .ok v s') : LoweredExpr (.tuple span items) s code v s'
  | arith {span : Span} {op : ArithOp} {operands : List Expr} {s s' : Session} {code : Code}
      {lowered : List Operand} (hoperands : lowerOperands op.type span operands s = .ok (code, lowered) s') :
      LoweredExpr (.arith span op operands) s code
        (.scalar op.type span (.arith op op.type lowered)) s'
  | compare {span : Span} {group : List Expr} {links : List Link} {s s₁ s₂ s' : Session}
      {first rest tests : Code} {left : List VarId} {cs : List Comparison} {outcomes : List Operand}
      (hgroup : lowerGroup span group s = .ok (first, left) s₁)
      (hlinks : lowerLinks span left [] links s₁ = .ok (rest, cs) s₂)
      (hrun : runComparisons cs s₂ = .ok (tests, outcomes) s') :
      LoweredExpr (.compare span (.operands group :: links)) s (first ++ rest ++ tests)
        (.scalar .boolean span (.arith .and .boolean outcomes)) s'
  | call {span targetSpan : Span} {name : String} {args : List Expr} {s s₁ s₂ s' : Session}
      {c : Callee} {code : Code} {inputs : List Operand} {b : Bindings} {outputs : List VarId}
      {v : Value} {command : Command} (hcallee : callee name targetSpan s = .ok c s)
      (hlen : c.params.length = args.length)
      (hargs : lowerArgs targetSpan [] args c.params s = .ok (code, inputs, b) s₁)
      (hresult : callResult c.result b span s₁ = .ok (outputs, v) s₂)
      (hcommand : callCommand name c.native inputs outputs targetSpan span s₂ = .ok command s') :
      LoweredExpr (.call span (.var targetSpan name) args) s (code ++ [command]) v s'
  | block {span : Span} {body : Block} {s s₁ s' : Session} {code copy : Code} {v w : Value}
      (hbody : lowerBlock body s = .ok (code, v) s₁)
      (hkeep : keepValue v body.span s₁ = .ok (copy, w) s') :
      LoweredExpr (.block span body) s (code ++ copy) w s'
  | cond {span : Span} {test yes : Expr} {no : Option Expr} {s s₁ s₂ s₃ s' : Session}
      {testCode yesCode yesCode' noCode : Code} {testValue yesValue v : Value} {operand : Operand}
      {lowered : Option (Code × Value)} (htest : lowerExpr test s = .ok (testCode, testValue) s₁)
      (htype : expectType .boolean testValue test.span s₁ = .ok () s₁)
      (hshape : testValue.shape = .scalar operand)
      (hyes : lowerExpr yes s₁ = .ok (yesCode, yesValue) s₂)
      (hno : lowerElse no s₂ = .ok lowered s₃)
      (hjoin : joinBranches (yesCode, yesValue) lowered span s₃ = .ok (yesCode', noCode, v) s') :
      LoweredExpr (.cond span test yes no) s (testCode ++ [.branch span operand yesCode' noCode]) v s'
  | ifFull {span : Span} {boxed target yes : Expr} {no : Option Expr}
      {s s₁ s₂ s₃ s₄ s₅ s₆ s' : Session} {boxCode yesCode yesCode' noCode : Code}
      {box yesValue v : Value} {payload : TypeId} {operand : Operand} {full : VarId}
      {pattern : Pattern} {mode : BindMode} {slots : List VarId} {lowered : Option (Code × Value)}
      (hboxed : lowerExpr boxed s = .ok (boxCode, box) s₁)
      (hunboxed : Unboxed span box target payload operand full pattern mode slots s₁ s₂ s₃ s₄)
      (hyes : lowerExpr yes s₄ = .ok (yesCode, yesValue) s₅)
      (hno : lowerElse no s₅.exit = .ok lowered s₆)
      (hjoin : joinBranches (.native pattern.span .unwrap [operand] slots :: yesCode, yesValue)
        lowered span s₆ = .ok (yesCode', noCode, v) s') :
      LoweredExpr (.ifFull span boxed target yes no) s
        (boxCode ++ [.native span .full [operand] [full], .branch span (.var full) yesCode' noCode]) v s'
  | loop {span : Span} {label : Option String} {body : Block} {s s₁ s₂ : Session} {ref : LoopRef}
      {code : Code} {v w : Value} (hloop : updateScope (·.newLoop label span) s.enter = .ok ref s₁)
      (hbody : lowerBlock body s₁ = .ok (code, v) s₂)
      (hvalue : loopValue ref.var span s₂.exit = .ok w s₂.exit) :
      LoweredExpr (.loop span label body) s [.loop span ref.loop code] w s₂.exit
  | leave {span : Span} {label : Option String} {s s' : Session} {code : Code} {v : Value}
      (hleave : leaveWith label (.void span) span s = .ok (code, v) s') :
      LoweredExpr (.leave span label none) s code v s'
  | leaveWith {span : Span} {label : Option String} {value : Expr} {s s₁ s' : Session}
      {code leaving : Code} {v w : Value} (hvalue : lowerExpr value s = .ok (code, v) s₁)
      (hleave : leaveWith label v span s₁ = .ok (leaving, w) s') :
      LoweredExpr (.leave span label (some value)) s (code ++ leaving) w s'
  | wrap {span : Span} {payload : Expr} {s s₁ s' : Session} {code wrapping : Code} {v w : Value}
      (hpayload : lowerExpr payload s = .ok (code, v) s₁)
      (hwrap : wrapValue v payload.span span s₁ = .ok (wrapping, w) s') :
      LoweredExpr (.wrap span payload) s (code ++ wrapping) w s'
  | wrapEmpty {span : Span} {payload : TypeExpr} {s s' : Session} {code : Code} {v : Value}
      (hwrap : wrapNothing payload span s = .ok (code, v) s') :
      LoweredExpr (.wrapEmpty span payload) s code v s'
  | cons {span : Span} {head tail : Expr} {s s₁ s₂ s' : Session} {headCode tailCode wrapping : Code}
      {v w u : Value} (hhead : lowerExpr head s = .ok (headCode, v) s₁)
      (htail : lowerExpr tail s₁ = .ok (tailCode, w) s₂)
      (hcons : consValue v w span s₂ = .ok (wrapping, u) s') :
      LoweredExpr (.cons span head tail) s (headCode ++ tailCode ++ wrapping) u s'
  | consEmpty {span : Span} {item : TypeExpr} {s s' : Session} {code : Code} {v : Value}
      (hcons : consNothing item span s = .ok (code, v) s') :
      LoweredExpr (.consEmpty span item) s code v s'

theorem loopValue_state {id : VarId} (h : loopValue id span s = .ok v s') : s' = s := by
  obtain ⟨i, -, ⟨-, -, rfl⟩ | ⟨-, hv⟩⟩ := loopValue_ok h
  · rfl
  · exact (valueOf_ok hv).1

theorem lowerExpr_cases (h : lowerExpr e s = .ok (code, v) s') : LoweredExpr e s code v s' := by
  cases e with
  | var span name =>
    simp only [lowerExpr, bind_eq_ok_iff, search_eq_ok_iff, pure_eq_ok_iff, Prod.mk.injEq] at h
    obtain ⟨id, s₁, ⟨hid, rfl⟩, v', s₂, hv, ⟨rfl, rfl⟩, rfl⟩ := h
    obtain ⟨rfl, -⟩ := valueOf_ok hv
    exact .var (lookup_ok hid) hv
  | int span value =>
    cases h
    exact .int
  | bool span value =>
    cases h
    exact .bool
  | str span value =>
    cases h
    exact .str
  | tuple span items =>
    simp only [lowerExpr, bind_eq_ok_iff, pure_eq_ok_iff, Prod.exists, Prod.mk.injEq] at h
    obtain ⟨_, values, s₁, hitems, _, s₂, htuple, ⟨rfl, rfl⟩, rfl⟩ := h
    exact .tuple hitems htuple
  | arith span op operands =>
    simp only [lowerExpr, bind_eq_ok_iff, pure_eq_ok_iff, Prod.exists, Prod.mk.injEq] at h
    obtain ⟨_, lowered, s₁, hoperands, ⟨rfl, rfl⟩, rfl⟩ := h
    exact .arith hoperands
  | compare span chain =>
    simp only [lowerExpr, bind_eq_ok_iff, pure_eq_ok_iff, Prod.exists, Prod.mk.injEq] at h
    obtain ⟨_, cs, s₁, hchain, tests, outcomes, s₂, hrun, ⟨rfl, rfl⟩, rfl⟩ := h
    rcases chain with _ | ⟨group | _, links⟩
    -- Only a chain that begins with operands is lowered.
    case cons.operands =>
      simp only [lowerChain, bind_eq_ok_iff, pure_eq_ok_iff, Prod.exists, Prod.mk.injEq] at hchain
      obtain ⟨first, left, s₃, hgroup, rest, _, s₄, hlinks, ⟨rfl, rfl⟩, rfl⟩ := hchain
      exact .compare hgroup hlinks hrun
    all_goals
      simp only [lowerChain] at hchain
      exact absurd hchain failAt_ne_ok
  | not span operand => exact absurd h unsupported_ne_ok
  | call span target args =>
    cases target with
    | var targetSpan name =>
      simp only [lowerExpr, bind_eq_ok_iff, pure_eq_ok_iff, Prod.exists, Prod.mk.injEq] at h
      obtain ⟨c, s₁, hcallee, _, s₂, harity, code₁, inputs, b, s₃, hargs, outputs, _, s₄, hresult,
        command, s₅, hcommand, ⟨rfl, rfl⟩, rfl⟩ := h
      obtain ⟨rfl, -⟩ := callee_ok hcallee
      obtain ⟨rfl, hlen⟩ := checkArity_ok harity
      exact .call hcallee hlen hargs hresult hcommand
    | _ =>
      simp only [lowerExpr] at h
      exact absurd h unsupported_ne_ok
  | block span body =>
    simp only [lowerExpr, bind_eq_ok_iff, pure_eq_ok_iff, Prod.exists, Prod.mk.injEq] at h
    obtain ⟨code₁, v₁, s₁, hbody, copy, _, s₂, hkeep, ⟨rfl, rfl⟩, rfl⟩ := h
    exact .block hbody hkeep
  | cond span test yes no =>
    simp only [lowerExpr, bind_eq_ok_iff, pure_eq_ok_iff, Prod.exists, Prod.mk.injEq] at h
    obtain ⟨testCode, testValue, s₁, htest, _, s₂, htype, operand, s₃, hscalar, yesCode, yesValue, s₄,
      hyes, lowered, s₅, hno, yesCode', noCode, _, s₆, hjoin, ⟨rfl, rfl⟩, rfl⟩ := h
    obtain ⟨rfl, -⟩ := expectType_ok htype
    obtain ⟨rfl, hshape⟩ := scalarOf_ok hscalar
    exact .cond htest htype hshape hyes hno hjoin
  | ifFull span boxed target yes no =>
    simp only [lowerExpr, bind_eq_ok_iff, Prod.exists] at h
    obtain ⟨boxCode, box, s₁, hboxed, payload, operand, s₂, hopen, full, s₃, hfull, yesCode, yesValue,
      s₄, hbranch, lowered, s₅, hno, yesCode', noCode, v', s₆, hjoin, hret⟩ := h
    simp only [pure_eq_ok_iff, Prod.mk.injEq] at hret
    obtain ⟨⟨rfl, rfl⟩, rfl⟩ := hret
    obtain ⟨rfl, -⟩ := openBox_ok hopen
    simp only [inContext_eq_ok_iff, bind_eq_ok_iff, pure_eq_ok_iff, Prod.exists, Prod.mk.injEq] at hbranch
    obtain ⟨_, ⟨pattern, mode, s₇, hbind, slots, s₈, hexpand, code₁, v₁, s₉, hyes, ⟨rfl, rfl⟩, rfl⟩,
      rfl⟩ := hbranch
    exact .ifFull hboxed ⟨hopen, hfull, hbind, hexpand⟩ hyes hno hjoin
  | loop span label body =>
    simp only [lowerExpr, bind_eq_ok_iff, Prod.exists] at h
    obtain ⟨ref, code₁, s₁, hcontext, v', s₂, hvalue, hret⟩ := h
    simp only [pure_eq_ok_iff, Prod.mk.injEq] at hret
    obtain ⟨⟨rfl, rfl⟩, rfl⟩ := hret
    simp only [inContext_eq_ok_iff, bind_eq_ok_iff, pure_eq_ok_iff, Prod.exists, Prod.mk.injEq]
      at hcontext
    obtain ⟨_, ⟨ref', s₃, hloop, code₂, v₂, s₄, hbody, ⟨rfl, rfl⟩, rfl⟩, rfl⟩ := hcontext
    obtain rfl := loopValue_state hvalue
    exact .loop hloop hbody hvalue
  | leave span label value =>
    cases value with
    | none => exact .leave h
    | some value =>
      simp only [lowerExpr, bind_eq_ok_iff, pure_eq_ok_iff, Prod.exists, Prod.mk.injEq] at h
      obtain ⟨code₁, v₁, s₁, hvalue, leaving, _, s₂, hleave, ⟨rfl, rfl⟩, rfl⟩ := h
      exact .leaveWith hvalue hleave
  | wrap span payload =>
    simp only [lowerExpr, bind_eq_ok_iff, pure_eq_ok_iff, Prod.exists, Prod.mk.injEq] at h
    obtain ⟨code₁, v₁, s₁, hpayload, wrapping, _, s₂, hwrap, ⟨rfl, rfl⟩, rfl⟩ := h
    exact .wrap hpayload hwrap
  | wrapEmpty span payload => exact .wrapEmpty h
  | cons span head tail =>
    simp only [lowerExpr, bind_eq_ok_iff, pure_eq_ok_iff, Prod.exists, Prod.mk.injEq] at h
    obtain ⟨code₁, v₁, s₁, hhead, code₂, v₂, s₂, htail, code₃, _, s₃, hcons, ⟨rfl, rfl⟩, rfl⟩ := h
    exact .cons hhead htail hcons
  | consEmpty span item => exact .consEmpty h

/-! ## Lists of trees -/

/-- How the first of several expressions was lowered, and what came after it. -/
theorem lowerItems_cons {values : List Value} (h : lowerItems (e :: es) s = .ok (code, values) s') :
    ∃ c v s₁ cs vs, lowerExpr e s = .ok (c, v) s₁ ∧ lowerItems es s₁ = .ok (cs, vs) s' ∧
      code = c ++ cs ∧ values = v :: vs := by
  simp only [lowerItems, bind_eq_ok_iff, pure_eq_ok_iff, Prod.exists, Prod.mk.injEq] at h
  obtain ⟨c, v, s₁, hhead, cs, vs, s₂, htail, ⟨rfl, rfl⟩, rfl⟩ := h
  exact ⟨c, v, s₁, cs, vs, hhead, htail, rfl, rfl⟩

theorem lowerOperands_cons {type : TypeId} {operands : List Operand}
    (h : lowerOperands type span (e :: es) s = .ok (code, operands) s') :
    ∃ c v s₁ operand cs ops, lowerExpr e s = .ok (c, v) s₁ ∧
      expectType type v span s₁ = .ok () s₁ ∧ v.shape = .scalar operand ∧
      lowerOperands type span es s₁ = .ok (cs, ops) s' ∧ code = c ++ cs ∧ operands = operand :: ops := by
  simp only [lowerOperands, bind_eq_ok_iff, pure_eq_ok_iff, Prod.exists, Prod.mk.injEq] at h
  obtain ⟨c, v, s₁, hhead, _, s₂, htype, operand, s₃, hscalar, cs, ops, s₄, htail, ⟨rfl, rfl⟩, rfl⟩ := h
  obtain ⟨rfl, -⟩ := expectType_ok htype
  obtain ⟨rfl, hshape⟩ := scalarOf_ok hscalar
  exact ⟨c, v, s₃, operand, cs, ops, hhead, htype, hshape, htail, rfl, rfl⟩

theorem lowerGroup_cons {ids : List VarId} (h : lowerGroup span (e :: es) s = .ok (code, ids) s') :
    ∃ c v s₁ holding id s₂ cs rest, lowerExpr e s = .ok (c, v) s₁ ∧
      expectType .integer v span s₁ = .ok () s₁ ∧
      holdInteger v e.span s₁ = .ok (holding, id) s₂ ∧ lowerGroup span es s₂ = .ok (cs, rest) s' ∧
      code = c ++ holding ++ cs ∧ ids = id :: rest := by
  simp only [lowerGroup, bind_eq_ok_iff, pure_eq_ok_iff, Prod.exists, Prod.mk.injEq] at h
  obtain ⟨c, v, s₁, hhead, _, s₂, htype, holding, id, s₃, hhold, cs, rest, s₄, htail, ⟨rfl, rfl⟩,
    rfl⟩ := h
  obtain ⟨rfl, -⟩ := expectType_ok htype
  exact ⟨c, v, s₂, holding, id, s₃, cs, rest, hhead, htype, hhold, htail, rfl, rfl⟩

/-- A chain ends, or it has an operator and a group of operands next. -/
theorem lowerLinks_cases {left : List VarId} {before cs : List Comparison} {links : List Link}
    (h : lowerLinks span left before links s = .ok (code, cs) s') :
    links = [] ∧ code = [] ∧ cs = before ∧ s' = s ∨
      ∃ opSpan op group rest first right s₁ codes,
        links = .operator opSpan op :: .operands group :: rest ∧
        lowerGroup span group s = .ok (first, right) s₁ ∧
        lowerLinks span right (before ++ comparePairs left op opSpan right) rest s₁ =
          .ok (codes, cs) s' ∧ code = first ++ codes := by
  rcases links with _ | ⟨group | ⟨opSpan, op⟩, links⟩
  case nil =>
    simp only [lowerLinks] at h
    split at h
    · exact absurd h failAt_ne_ok
    · cases h
      exact .inl ⟨rfl, rfl, rfl, rfl⟩
  case cons.operands =>
    simp only [lowerLinks] at h
    exact absurd h failAt_ne_ok
  case cons.operator =>
    rcases links with _ | ⟨group | _, links⟩
    case cons.operands =>
      simp only [lowerLinks, bind_eq_ok_iff, pure_eq_ok_iff, Prod.exists, Prod.mk.injEq] at h
      obtain ⟨first, right, s₁, hgroup, codes, _, s₂, hrest, ⟨rfl, rfl⟩, rfl⟩ := h
      exact .inr ⟨opSpan, op, group, links, first, right, s₁, codes, rfl, hgroup, hrest, rfl⟩
    all_goals
      simp only [lowerLinks] at h
      exact absurd h failAt_ne_ok

/-- Links that were lowered come in pairs of an operator and a group of operands.  The comparisons `cs` and
the session `s'` are those at the end. -/
inductive LoweredLinks (span : Span) (cs : List Comparison) (s' : Session) :
    List VarId → List Comparison → List Link → Session → Code → Prop where
  | nil {left : List VarId} : LoweredLinks span cs s' left cs [] s' []
  | pair {left right : List VarId} {before : List Comparison} {opSpan : Span} {op : CmpOp}
      {group : List Expr} {rest : List Link} {s s₁ : Session} {first codes : Code}
      (hgroup : lowerGroup span group s = .ok (first, right) s₁)
      (hrest : lowerLinks span right (before ++ comparePairs left op opSpan right) rest s₁ =
        .ok (codes, cs) s')
      (h : LoweredLinks span cs s' right (before ++ comparePairs left op opSpan right) rest s₁ codes) :
      LoweredLinks span cs s' left before (.operator opSpan op :: .operands group :: rest) s
        (first ++ codes)

theorem lowerLinks_lowered {left : List VarId} {before cs : List Comparison} {links : List Link}
    (h : lowerLinks span left before links s = .ok (code, cs) s') :
    LoweredLinks span cs s' left before links s code := by
  induction links using Link.induction generalizing left before s code with
  | nil =>
    rcases lowerLinks_cases h with ⟨-, rfl, rfl, rfl⟩ | ⟨_, _, _, _, _, _, _, _, hlinks, -⟩
    · exact .nil
    · cases hlinks
  | operands | last | twice => exact absurd h failAt_ne_ok
  | pair opSpan op group links ih =>
    rcases lowerLinks_cases h with ⟨hlinks, -⟩ | ⟨_, _, _, _, _, _, _, _, hlinks, hgroup, hrest, rfl⟩
    · cases hlinks
    · cases hlinks
      exact .pair hgroup hrest (ih hrest)

theorem lowerArgs_cons {targetSpan : Span} {b b' : Bindings} {param : TypeId} {params : List TypeId}
    {inputs : List Operand}
    (h : lowerArgs targetSpan b (e :: es) (param :: params) s = .ok (code, inputs, b') s') :
    ∃ c v s₁ span b₁ cs ins, lowerExpr e s = .ok (c, v) s₁ ∧
      bindArgument param v span b s₁ = .ok b₁ s₁ ∧
      lowerArgs targetSpan b₁ es params s₁ = .ok (cs, ins, b') s' ∧ code = c ++ cs ∧
      inputs = v.leaves ++ ins := by
  simp only [lowerArgs, bind_eq_ok_iff, askTypes_eq_ok_iff, pure_eq_ok_iff, Prod.exists,
    Prod.mk.injEq] at h
  obtain ⟨c, v, s₁, hhead, origin, s₂, ⟨-, rfl⟩, b₁, s₃, hbind, cs, ins, b₂, s₄, htail,
    ⟨rfl, rfl, rfl⟩, rfl⟩ := h
  obtain ⟨rfl, -⟩ := bindArgument_ok hbind
  exact ⟨c, v, s₃, _, b₁, cs, ins, hhead, hbind, htail, rfl, rfl⟩

theorem lowerElse_cases {no : Option Expr} {r : Option (Code × Value)}
    (h : lowerElse no s = .ok r s') :
    no = none ∧ r = none ∧ s' = s ∨
      ∃ e c v, no = some e ∧ r = some (c, v) ∧ lowerExpr e s = .ok (c, v) s' := by
  cases no with
  | none =>
    cases h
    exact .inl ⟨rfl, rfl, rfl⟩
  | some e =>
    simp only [lowerElse, bind_eq_ok_iff, pure_eq_ok_iff, Prod.exists] at h
    obtain ⟨c, v, s₁, hlower, rfl, rfl⟩ := h
    exact .inr ⟨e, c, v, rfl, rfl, hlower⟩

/-! ## Blocks and statements -/

theorem lowerBlock_cases {stmts : List Stmt} (h : lowerBlock (.mk span stmts) s = .ok (code, v) s') :
    ∃ s₁, lowerStmts (.void span) stmts s.enter = .ok (code, v) s₁ ∧ s' = s₁.exit := by
  simp only [lowerBlock, inContext_eq_ok_iff] at h
  obtain ⟨s₁, h, rfl⟩ := h
  exact ⟨s₁, h, rfl⟩

theorem lowerStmts_cons {value : Value} {stmt : Stmt} {stmts : List Stmt}
    (h : lowerStmts value (stmt :: stmts) s = .ok (code, v) s') :
    ∃ c w s₁ cs, lowerStmt value stmt s = .ok (c, w) s₁ ∧ lowerStmts w stmts s₁ = .ok (cs, v) s' ∧
      code = c ++ cs := by
  simp only [lowerStmts, bind_eq_ok_iff, pure_eq_ok_iff, Prod.exists, Prod.mk.injEq] at h
  obtain ⟨c, w, s₁, hhead, cs, _, s₂, htail, ⟨rfl, rfl⟩, rfl⟩ := h
  exact ⟨c, w, s₁, cs, hhead, htail, rfl⟩

/-- A statement that was lowered.  The value of its block so far is the first one named. -/
inductive LoweredStmt : Value → Stmt → Session → Code → Value → Session → Prop where
  | bind {value stored : Value} {span : Span} {target expr : Expr} {s s₁ s₂ s' : Session}
      {code stores : Code} {pattern : Pattern} {mode : BindMode}
      (hexpr : lowerExpr expr s = .ok (code, stored) s₁)
      (hbind : bindPattern (.declare []) target s₁ = .ok (pattern, mode) s₂)
      (hstore : storeInto pattern stored span s₂ = .ok stores s') :
      LoweredStmt value (.bind span target expr) s (code ++ stores) value s'
  | set {value stored : Value} {span : Span} {target expr : Expr} {s s₁ s₂ s' : Session}
      {code stores : Code} {pattern : Pattern} {mode : BindMode}
      (hexpr : lowerExpr expr s = .ok (code, stored) s₁)
      (hbind : bindPattern .resolve target s₁ = .ok (pattern, mode) s₂)
      (hstore : storeInto pattern stored span s₂ = .ok stores s') :
      LoweredStmt value (.set span target expr) s (code ++ stores) value s'
  | yield {value v : Value} {span : Span} {expr : Expr} {s s' : Session} {code : Code}
      (hexpr : lowerExpr expr s = .ok (code, v) s') :
      LoweredStmt value (.yield span expr) s code v s'
  | eval {value v : Value} {span : Span} {expr : Expr} {s s' : Session} {code : Code}
      (hexpr : lowerExpr expr s = .ok (code, v) s') :
      LoweredStmt value (.eval span expr) s code value s'

theorem lowerStmt_cases {value : Value} {stmt : Stmt}
    (h : lowerStmt value stmt s = .ok (code, v) s') : LoweredStmt value stmt s code v s' := by
  cases stmt with
  | bind span target expr =>
    simp only [lowerStmt, bind_eq_ok_iff, pure_eq_ok_iff, Prod.exists, Prod.mk.injEq] at h
    obtain ⟨code₁, stored, s₁, hexpr, pattern, mode, s₂, hbind, stores, s₃, hstore, ⟨rfl, rfl⟩, rfl⟩ := h
    exact .bind hexpr hbind hstore
  | set span target expr =>
    simp only [lowerStmt, bind_eq_ok_iff, pure_eq_ok_iff, Prod.exists, Prod.mk.injEq] at h
    obtain ⟨code₁, stored, s₁, hexpr, pattern, mode, s₂, hbind, stores, s₃, hstore, ⟨rfl, rfl⟩, rfl⟩ := h
    exact .set hexpr hbind hstore
  | yield span expr => exact .yield h
  | ret span expr => exact absurd h unsupported_ne_ok
  | eval span expr =>
    simp only [lowerStmt, bind_eq_ok_iff, pure_eq_ok_iff, Prod.exists, Prod.mk.injEq] at h
    obtain ⟨code₁, w, s₁, hexpr, ⟨rfl, rfl⟩, rfl⟩ := h
    exact .eval hexpr

end SlotCode
