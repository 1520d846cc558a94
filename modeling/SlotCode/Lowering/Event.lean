import SlotCode.Scope

/-!
# The log

What lowering reports about its work while it goes on.  `Event.text` is the line of the log.
-/

namespace SlotCode

inductive Event where
  | functionBegun (name : String)
  | contextClosed (id : ContextId) (slots : Nat)
  /-- The first `leave` of a loop decides the type of the loop. -/
  | loopTyped (loop : LoopId) (type : String)
  | called (function : String) (inputs : Nat)
  | functionDone (name : String) (commands slots : Nat)
  | programDone (functions : Nat)
deriving DecidableEq

/-- How much detail the event is. -/
def Event.level : Event → String
  | .functionBegun _ | .functionDone _ _ _ | .programDone _ => "DEBUG"
  | .contextClosed _ _ | .loopTyped _ _ | .called _ _ => "TRACE"

def Event.message : Event → String
  | .functionBegun name => s!"flattening function `{name}`"
  | .contextClosed id slots => s!"context {id} closed, {slots} slot(s) assigned"
  | .loopTyped loop type => s!"loop {loop} fixed to `{type}`"
  | .called function inputs => s!"call `{function}` with {inputs} input(s)"
  | .functionDone name commands slots => s!"`{name}`: {commands} command(s), {slots} slot(s)"
  | .programDone functions => s!"flattened {functions} function(s)"

def Event.text (e : Event) : String :=
  e.level ++ " " ++ e.message

/-- What closing the current context is reported as; the outermost context does not close. -/
def Scope.closing? (s : Scope) : Option Event :=
  match s.outer with
  | [] => none
  | _ :: _ => some (.contextClosed s.current.id (s.pop.locals.size - s.locals.size))

end SlotCode
