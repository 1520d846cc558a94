import SlotCode.Source.Tree

/-!
# Loops and ways out of them

The *jumps* of a tree are its loops and the ways out of them, nested and ordered as they are written.
A way out is given by the number of loops between it and the loop that it leaves: without a label that
is the innermost loop around it, and with a label the innermost one that carries the label.  A tree
with a `leave` that is inside no such loop has no jumps.
-/

namespace SlotCode

inductive Jump where
  | loop (body : List Jump)
  /-- Leaves the loop with that number of loops in between. -/
  | leave (depth : Nat)

namespace Jump

/-- Jumps one after the other, if all of them are there. -/
def join (first second : Option (List Jump)) : Option (List Jump) :=
  first.bind fun js => second.map fun ks => js ++ ks

theorem join_nil_right (js : Option (List Jump)) : join js (some []) = js := by
  cases js <;> simp [join]

theorem join_nil_left (js : Option (List Jump)) : join (some []) js = js := by
  cases js <;> simp [join]

theorem join_assoc (a b c : Option (List Jump)) : join (join a b) c = join a (join b c) := by
  cases a <;> cases b <;> cases c <;> simp [join]

end Jump

/-- How many loops lie between a `leave` and the one that it means, where the loops around it have
these labels, innermost first. -/
def depthOf (labels : List (Option String)) : Option String → Option Nat
  | none => if labels.isEmpty then none else some 0
  | some label => labels.findIdx? (· = some label)

open Jump

mutual

/-- The jumps of an expression inside loops with these labels. -/
def Expr.jumps (labels : List (Option String)) : Expr → Option (List Jump)
  | .var _ _ | .int _ _ | .bool _ _ | .str _ _ | .wrapEmpty _ _ | .consEmpty _ _ => some []
  | .tuple _ items => Expr.jumpsAll labels items
  | .arith _ _ operands => Expr.jumpsAll labels operands
  | .compare _ chain => Link.jumpsAll labels chain
  | .not _ operand => operand.jumps labels
  | .call _ target args => join (target.jumps labels) (Expr.jumpsAll labels args)
  | .block _ body => body.jumps labels
  | .cond _ test yes no =>
    join (test.jumps labels) (join (yes.jumps labels) (Expr.jumpsIn labels no))
  | .ifFull _ boxed pattern yes no =>
    join (boxed.jumps labels)
      (join (join (pattern.jumps labels) (yes.jumps labels)) (Expr.jumpsIn labels no))
  | .loop _ label body => (body.jumps (label :: labels)).map fun js => [.loop js]
  | .leave _ label value =>
    join (Expr.jumpsIn labels value) ((depthOf labels label).map fun depth => [.leave depth])
  | .wrap _ payload => payload.jumps labels
  | .cons _ head tail => join (head.jumps labels) (tail.jumps labels)

def Expr.jumpsIn (labels : List (Option String)) : Option Expr → Option (List Jump)
  | none => some []
  | some expr => expr.jumps labels

def Expr.jumpsAll (labels : List (Option String)) : List Expr → Option (List Jump)
  | [] => some []
  | expr :: exprs => join (expr.jumps labels) (Expr.jumpsAll labels exprs)

def Link.jumpsAll (labels : List (Option String)) : List Link → Option (List Jump)
  | [] => some []
  | .operands group :: links => join (Expr.jumpsAll labels group) (Link.jumpsAll labels links)
  | .operator _ _ :: links => Link.jumpsAll labels links

def Block.jumps (labels : List (Option String)) : Block → Option (List Jump)
  | .mk _ stmts => Stmt.jumpsAll labels stmts

def Stmt.jumpsAll (labels : List (Option String)) : List Stmt → Option (List Jump)
  | [] => some []
  | stmt :: stmts => join (stmt.jumps labels) (Stmt.jumpsAll labels stmts)

def Stmt.jumps (labels : List (Option String)) : Stmt → Option (List Jump)
  | .bind _ target value | .set _ target value => join (value.jumps labels) (target.jumps labels)
  | .yield _ value | .ret _ value | .eval _ value => value.jumps labels

end

end SlotCode
