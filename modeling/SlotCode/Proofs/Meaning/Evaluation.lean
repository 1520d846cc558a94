import SlotCode.Proofs.Meaning.Values

/-!
# The meaning of source trees

A tree is evaluated directly: from left to right, arguments before calls, names by lexical scoping.
Evaluation can be left by a `leave`, which carries a value outwards to the loop that it means.  It
is a function of a bound on its depth; a tree has a value if it has one for some bound.
-/

namespace SlotCode

/-- The names in scope with what they hold, newest first. -/
abbrev Env := List (String × Content)

/-- What evaluation can change. -/
structure World where
  env : Env
  /-- The lines printed so far. -/
  printed : List String

/-- How an evaluation ends: with a result, or on its way out to a loop. -/
inductive Ending (α : Type) where
  | value (result : α)
  | leave (label : Option String) (value : Content)

/-- An evaluation.  It gives nothing if it is stuck or deeper than its bound. -/
def Eval (α : Type) : Type :=
  World → Option (Ending α × World)

namespace Eval

def pure {α : Type} (a : α) : Eval α := fun w =>
  some (.value a, w)

def bind {α β : Type} (x : Eval α) (f : α → Eval β) : Eval β := fun w =>
  match x w with
  | none => none
  | some (.value a, w) => f a w
  | some (.leave label value, w) => some (.leave label value, w)

instance : Monad Eval where
  pure := pure
  bind := bind

def stuck {α : Type} : Eval α := fun _ =>
  none

/-- A result that need not exist. -/
def ofOption {α : Type} : Option α → Eval α
  | some a => pure a
  | none => stuck

/-- Changes the names in scope, if that is possible. -/
def modifyEnv (f : Env → Option Env) : Eval Unit := fun w =>
  (f w.env).map fun env => (.value (), { w with env := env })

def read (name : String) : Eval Content := fun w =>
  (w.env.lookup name).map fun content => (.value content, w)

def print (line : String) : Eval Content := fun w =>
  some (.value .nothing, { w with printed := w.printed ++ [line] })

/-- Forgets the names that an evaluation adds. -/
def within {α : Type} (x : Eval α) : Eval α := fun w =>
  (x w).map fun (ending, w') =>
    (ending, { w' with env := w'.env.drop (w'.env.length - w.env.length) })

/-- Evaluates in an environment of its own. -/
def apart {α : Type} (env : Env) (x : Eval α) : Eval α := fun w =>
  match x { w with env := env } with
  | some (.value a, w') => some (.value a, { w' with env := w.env })
  | _ => none

end Eval

namespace Env

/-- Stores into the newest variable of the name. -/
def update (name : String) (content : Content) : Env → Option Env
  | [] => none
  | (other, old) :: env =>
    if name = other then some ((other, content) :: env)
    else (update name content env).map ((other, old) :: ·)

end Env

mutual

/-- Binds the names of a target to the parts of a content, from left to right, in the way `bind`
binds one name. -/
def bindContent (bind : String → Content → Env → Option Env) : Expr → Content → Env → Option Env
  | .var _ name, content, env => bind name content env
  | .tuple _ targets, .tuple items, env => bindContents bind targets items env
  | _, _, _ => none

def bindContents (bind : String → Content → Env → Option Env) :
    List Expr → List Content → Env → Option Env
  | [], [], env => some env
  | target :: targets, item :: items, env =>
    (bindContent bind target item env).bind (bindContents bind targets items)
  | _, _, _ => none

end

/-- A new variable. -/
def Env.declare (name : String) (content : Content) (env : Env) : Option Env :=
  some ((name, content) :: env)

/-- Whether a loop with a label is what a `leave` means: without a label it means the innermost one. -/
def catches (loop label : Option String) : Bool :=
  label = none ∨ label = loop

/-- The outcomes of all comparisons of a chain: every member of a group with every member of the
next. -/
def outcomes : List Int → List (CmpOp × List Int) → List Datum
  | _, [] => []
  | left, (op, right) :: rest =>
    (left.flatMap fun a => right.map fun b => .bool (op.holds a b)) ++ outcomes right rest

def Content.int? : Content → Option Int
  | .datum (.int value) => some value
  | _ => none

section

variable (A : Arithmetic) (decls : List FnDecl)

open Eval

mutual

def evalExpr : Nat → Expr → Eval Content
  | 0, _ => stuck
  | _ + 1, .var _ name => read name
  | _ + 1, .int _ value => return .datum (.int value)
  | _ + 1, .bool _ value => return .datum (.bool value)
  | _ + 1, .str _ value => return .datum (.str value)
  | n + 1, .tuple _ items => do
    let items ← evalAll n items
    return .tuple items
  | n + 1, .arith _ op operands => do
    let operands ← evalAll n operands
    let data ← ofOption (operands.mapM Content.datum?)
    return .datum (A op data)
  | n + 1, .compare _ chain =>
    match chain with
    | .operands group :: links => do
      let first ← evalAll n group
      let first ← ofOption (first.mapM Content.int?)
      let rest ← evalLinks n links
      return .datum (A .and (outcomes first rest))
    | _ => stuck
  | _ + 1, .not _ _ => stuck
  | n + 1, .call _ target args =>
    match target with
    | .var _ name => do
      let args ← evalAll n args
      evalCall n name args
    | _ => stuck
  | n + 1, .block _ body => evalBlock n body
  | n + 1, .cond _ test yes no => do
    let test ← evalExpr n test
    match test with
    | .datum (.bool true) => evalExpr n yes
    | .datum (.bool false) => evalIn n no
    | _ => stuck
  | n + 1, .ifFull _ boxed pattern yes no => do
    let boxed ← evalExpr n boxed
    match boxed with
    | .box (some payload) => within do
      modifyEnv (bindContent Env.declare pattern payload)
      evalExpr n yes
    | .box none => evalIn n no
    | _ => stuck
  | n + 1, .loop span label body => fun w =>
    match evalBlock n body w with
    | some (.value _, w) => evalExpr n (.loop span label body) w
    | some (.leave target value, w) =>
      if catches label target then some (.value value, w) else some (.leave target value, w)
    | none => none
  | n + 1, .leave _ label value => do
    let value ← evalIn n value
    fun w => some (.leave label value, w)
  | n + 1, .wrap _ payload => do
    let payload ← evalExpr n payload
    return .box (some payload)
  | _ + 1, .wrapEmpty _ _ => return .box none
  | n + 1, .cons _ head tail => do
    let head ← evalExpr n head
    let tail ← evalExpr n tail
    return .box (some (.tuple [head, tail]))
  | _ + 1, .consEmpty _ _ => return .box none

/-- An expression that may be missing. -/
def evalIn : Nat → Option Expr → Eval Content
  | 0, _ => stuck
  | _ + 1, none => return .nothing
  | n + 1, some expr => evalExpr n expr

def evalAll : Nat → List Expr → Eval (List Content)
  | 0, _ => stuck
  | _ + 1, [] => return []
  | n + 1, expr :: exprs => do
    let head ← evalExpr n expr
    let tail ← evalAll n exprs
    return head :: tail

/-- The operators of a chain, each with the integers after it. -/
def evalLinks : Nat → List Link → Eval (List (CmpOp × List Int))
  | 0, _ => stuck
  | _ + 1, [] => return []
  | n + 1, link :: links =>
    match link, links with
    | .operator _ op, .operands group :: links => do
      let right ← evalAll n group
      let right ← ofOption (right.mapM Content.int?)
      let rest ← evalLinks n links
      return (op, right) :: rest
    | _, _ => stuck

/-- A call of a declared function; `print` is the only other one. -/
def evalCall : Nat → String → List Content → Eval Content
  | 0, _, _ => stuck
  | n + 1, name, args =>
    match decls.find? fun decl => decl.name = name with
    | some decl => evalFunction n decl args
    | none =>
      match args with
      | [.datum (.str line)] => if name = "print" then print line else stuck
      | _ => stuck

/-- A function sees its parameters and nothing else. -/
def evalFunction : Nat → FnDecl → List Content → Eval Content
  | 0, _, _ => stuck
  | n + 1, decl, args =>
    if decl.params.length = args.length then
      apart ((decl.params.map Param.name).zip args).reverse (evalBlock n decl.body)
    else
      stuck

def evalBlock : Nat → Block → Eval Content
  | 0, _ => stuck
  | n + 1, .mk _ stmts => within (evalStmts n .nothing stmts)

/-- Statements of a block whose value so far is `value`. -/
def evalStmts : Nat → Content → List Stmt → Eval Content
  | 0, _, _ => stuck
  | _ + 1, value, [] => return value
  | n + 1, value, stmt :: stmts => do
    let value ← evalStmt n value stmt
    evalStmts n value stmts

def evalStmt : Nat → Content → Stmt → Eval Content
  | 0, _, _ => stuck
  | n + 1, value, .bind _ target expr => do
    let content ← evalExpr n expr
    modifyEnv (bindContent Env.declare target content)
    return value
  | n + 1, value, .set _ target expr => do
    let content ← evalExpr n expr
    modifyEnv (bindContent Env.update target content)
    return value
  | n + 1, _, .yield _ expr => evalExpr n expr
  | _ + 1, _, .ret _ _ => stuck
  | n + 1, value, .eval _ expr => do
    let _ ← evalExpr n expr
    return value

end

end

end SlotCode
