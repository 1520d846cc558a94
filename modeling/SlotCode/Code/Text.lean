import SlotCode.Code.Function
import SlotCode.Text.Quoted
import SlotCode.Types.Walk

/-!
# The text of flat code

Flat code is written one command a line, with four blanks more for each level of nesting.
-/

namespace SlotCode

def VarId.text (id : VarId) : String :=
  "_" ++ toString id

def LoopId.text (id : LoopId) : String :=
  "#" ++ toString id

def VarId.texts (ids : List VarId) : String :=
  ", ".intercalate (ids.map VarId.text)

namespace Operand

mutual

def text : Operand → String
  | .var id => VarId.text id
  | .int value => toString value
  | .bool value => if value then "true" else "false"
  | .str value => Text.quoted value
  | .arith op _ operands => "(" ++ (" " ++ op.symbol ++ " ").intercalate (textEach operands) ++ ")"
  | .compare left op right => VarId.text left ++ " " ++ op.symbol ++ " " ++ VarId.text right

def textEach : List Operand → List String
  | [] => []
  | operand :: operands => text operand :: textEach operands

end

def texts (operands : List Operand) : String :=
  ", ".intercalate (textEach operands)

end Operand

/-- The blanks in front of a line. -/
def margin (depth : Nat) : String :=
  String.ofList (List.replicate (4 * depth) ' ')

/-- Lines in braces, of which the first stands behind other text and the last on a line of its own. -/
def braced (depth : Nat) (lines : String) : String :=
  r" {" ++ "\n" ++ lines ++ margin depth ++ r"}"

namespace Command

mutual

/-- The lines of a command, each with its line break. -/
def text (depth : Nat) : Command → String
  | .assign _ dest value => margin depth ++ VarId.text dest ++ " = " ++ value.text ++ "\n"
  | .call _ target inputs outputs =>
    margin depth ++ "(" ++ VarId.texts outputs ++ ") = call " ++ target ++ "("
      ++ Operand.texts inputs ++ ")\n"
  | .native _ primitive inputs outputs =>
    margin depth ++ "(" ++ VarId.texts outputs ++ ") = native " ++ primitive.name ++ "("
      ++ Operand.texts inputs ++ ")\n"
  | .branch _ test yes [] =>
    margin depth ++ "if " ++ test.text ++ braced depth (textAll (depth + 1) yes) ++ "\n"
  | .branch _ test yes no =>
    margin depth ++ "if " ++ test.text ++ braced depth (textAll (depth + 1) yes)
      ++ " else" ++ braced depth (textAll (depth + 1) no) ++ "\n"
  | .loop _ id body =>
    margin depth ++ "loop " ++ LoopId.text id ++ braced depth (textAll (depth + 1) body) ++ "\n"
  | .leave _ id => margin depth ++ "break " ++ LoopId.text id ++ "\n"

def textAll (depth : Nat) : List Command → String
  | [] => ""
  | command :: commands => text depth command ++ textAll depth commands

end

end Command

/-- The line that declares a stored variable. -/
def Local.text (types : TypeGraph) (vars : VarTable) (l : Local) : Except Fault String :=
  match vars[l.var]? with
  | none => .error (.unknownVar l.var)
  | some var => do
    let type ← types.text l.type
    let comment := match var.name with
      | some name => "  // " ++ name
      | none => ""
    return "    let " ++ VarId.text l.var ++ " @" ++ toString l.slot ++ ": " ++ type ++ comment ++ "\n"

def Function.text (types : TypeGraph) (f : Function) : Except Fault String := do
  let result ← types.text f.result
  let locals ← f.locals.mapM (Local.text types f.vars)
  let lines := String.join locals ++ Command.textAll 1 f.code
    ++ "    return (" ++ Operand.texts f.value ++ ")\n"
  return "fn " ++ f.name ++ "(" ++ VarId.texts f.args ++ ") -> " ++ result ++ braced 0 lines ++ "\n"

/-- The functions with an empty line between them. -/
def Program.text (p : Program) : Except Fault String := do
  return "\n".intercalate (← p.functions.mapM (Function.text p.types))

end SlotCode
