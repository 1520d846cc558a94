import SlotCode.Lowering.Expr

/-!
# Lowering programs

All functions are declared before any is lowered, so a body may call a function that is written
after it.  Bodies are lowered one at a time, each from an empty table of variables.
-/

namespace SlotCode

structure Config where
  /-- A function that must exist and take and return nothing. -/
  entryPoint : Option String
  /-- Whether the built-in functions are there. -/
  natives : Bool
deriving DecidableEq

namespace Config

def standard : Config :=
  { entryPoint := some "main", natives := true }

/-- Without an entry point. -/
def library : Config :=
  { standard with entryPoint := none }

end Config

namespace Lower

/-- Provides `print`, the only built-in function. -/
def registerNatives : Lower Unit := do
  let print ← updateTypes (·.addNative [TypeId.string] TypeId.void)
  modifyScope (·.registerNative "print" print)

/-- Declares a function.  One without parameters takes `void`. -/
def declare (decl : FnDecl) : Lower TypeId := do
  let params ←
    if decl.params.isEmpty then pure [TypeId.void]
    else updateTypes (·.resolveAll (decl.params.map Param.type))
  let result ← updateTypes (·.resolve decl.result)
  let type ← updateTypes (·.add (.function params result false) (some decl.span))
  let scope ← search (·.register decl.name type decl.span)
  modifyScope fun _ => scope
  return type

/-- Requires the function to exist and to have the type `void -> void`. -/
def checkEntryPoint (name : String) : Lower Unit := do
  let nowhere : Span := ⟨0, 0⟩
  let type ← search fun s =>
    (s.signature name nowhere).mapError fun _ => ⟨.missingEntryPoint name, nowhere⟩
  let node ← askTypes (·.node type)
  if node.kind.isEntry then
    return ()
  else
    let found ← askTypes (·.text type)
    failAt (.invalidEntryPoint name found) (node.origin.getD nowhere)

/-- Declares the parameters of a function and returns the variables that receive the arguments. -/
def declareParams (mode : BindMode) : List Param → List TypeId → Lower (List VarId)
  | param :: params, type :: types => do
    let (id, mode) ← bindName param.name param.span mode
    let head ← expand param.type.span (.var id param.span) type
    let rest ← declareParams mode params types
    return head ++ rest
  | _, _ => return []

/-- What lowering the body of a function gives. -/
structure Body where
  args : List VarId
  code : Code
  value : List Operand

/-- Parameters and body of a function in a context of their own. -/
def lowerBody (decl : FnDecl) (callee : Callee) : Lower Body := inContext do
  let args ← declareParams (.declare []) decl.params callee.params
  let (code, value) ← lowerBlock decl.body
  requireMatch (some callee.result) value.type decl.result.span value.span
  return ⟨args, code, value.leaves⟩

/-- Takes the variables of a function out of the scope, whether or not the step succeeds. -/
def draining {α : Type} (step : Lower α) : Lower (α × VarTable × List Local) := fun s =>
  match step s with
  | .ok a s => .ok (a, s.scope.table, s.scope.locals.toList) { s with scope := s.scope.drain }
  | .error e s => .error e { s with scope := s.scope.drain }

/-- A single parameter of type `void` cannot be told from the mark of an empty list. -/
def checkParams (decl : FnDecl) (callee : Callee) : Lower Unit :=
  match decl.params, callee.params with
  | [param], [] => unsupported "named `void` parameter" param.span
  | _, _ => return ()

/-- Lowers a function that has been declared. -/
def lowerFunction (decl : FnDecl) : Lower Function := do
  report (.functionBegun decl.name)
  let callee ← callee decl.name decl.span
  checkParams decl callee
  let (body, vars, locals) ← draining (lowerBody decl callee)
  report (.functionDone decl.name body.code.length locals.length)
  return {
    name := decl.name
    result := callee.result
    vars := vars
    locals := locals
    args := body.args
    code := body.code
    value := body.value
    span := decl.span }

def declareAll : List FnDecl → Lower Unit
  | [] => return ()
  | decl :: decls => do
    let _ ← declare decl
    declareAll decls

def lowerFunctions : List FnDecl → Lower (List Function)
  | [] => return []
  | decl :: decls => do
    let function ← lowerFunction decl
    let functions ← lowerFunctions decls
    return function :: functions

/-- The program made of functions that were lowered in this session. -/
def finish (functions : List Function) : Lower Program := fun s =>
  .ok { types := s.types, functions := functions } s

end Lower

open Lower

/-- Lowers a whole program.  The first error ends it. -/
def lowerProgram (config : Config) (decls : List FnDecl) : Lower Program := do
  if config.natives then
    registerNatives
  declareAll decls
  match config.entryPoint with
  | some name => checkEntryPoint name
  | none => pure ()
  let functions ← lowerFunctions decls
  report (.programDone functions.length)
  finish functions

end SlotCode
