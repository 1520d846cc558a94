import SlotCode.Source.Tree

/-!
# Functions that are called

The *callees* of a tree are the names of the functions that are called in it.  A target of an
assignment calls nothing.
-/

namespace SlotCode

mutual

/-- The functions that an expression calls. -/
def Expr.callees : Expr → List String
  | .var _ _ | .int _ _ | .bool _ _ | .str _ _ | .wrapEmpty _ _ | .consEmpty _ _ => []
  | .tuple _ items => Expr.calleesAll items
  | .arith _ _ operands => Expr.calleesAll operands
  | .compare _ chain => Link.calleesAll chain
  | .not _ operand => operand.callees
  | .call _ (.var _ name) args => name :: Expr.calleesAll args
  | .call _ target args => target.callees ++ Expr.calleesAll args
  | .block _ body => body.callees
  | .cond _ test yes no => test.callees ++ yes.callees ++ Expr.calleesIn no
  | .ifFull _ boxed _ yes no => boxed.callees ++ yes.callees ++ Expr.calleesIn no
  | .loop _ _ body => body.callees
  | .leave _ _ value => Expr.calleesIn value
  | .wrap _ payload => payload.callees
  | .cons _ head tail => head.callees ++ tail.callees

def Expr.calleesIn : Option Expr → List String
  | none => []
  | some expr => expr.callees

def Expr.calleesAll : List Expr → List String
  | [] => []
  | expr :: exprs => expr.callees ++ Expr.calleesAll exprs

def Link.calleesAll : List Link → List String
  | [] => []
  | .operands group :: links => Expr.calleesAll group ++ Link.calleesAll links
  | .operator _ _ :: links => Link.calleesAll links

def Block.callees : Block → List String
  | .mk _ stmts => Stmt.calleesAll stmts

def Stmt.calleesAll : List Stmt → List String
  | [] => []
  | stmt :: stmts => stmt.callees ++ Stmt.calleesAll stmts

def Stmt.callees : Stmt → List String
  | .bind _ _ value | .set _ _ value => value.callees
  | .yield _ value | .ret _ value | .eval _ value => value.callees

end

theorem Expr.callees_subset_all {e : Expr} {es : List Expr} (he : e ∈ es) :
    e.callees ⊆ calleesAll es := by
  induction es with
  | nil => cases he
  | cons head es ih =>
    rw [calleesAll]
    rcases List.mem_cons.1 he with rfl | he
    · exact List.subset_append_left _ _
    · exact List.subset_append_of_subset_right _ (ih he)

/-- A group calls what the chain calls. -/
theorem Link.callees_subset_all {e : Expr} {group : List Expr} {links : List Link}
    (hgroup : .operands group ∈ links) (he : e ∈ group) : e.callees ⊆ calleesAll links := by
  induction links with
  | nil => cases hgroup
  | cons link links ih =>
    rcases List.mem_cons.1 hgroup with rfl | hrest
    · rw [calleesAll]
      exact List.subset_append_of_subset_left _ (Expr.callees_subset_all he)
    · cases link with
      | operands other =>
        rw [calleesAll]
        exact List.subset_append_of_subset_right _ (ih hrest)
      | operator span op => exact ih hrest

theorem Stmt.callees_subset_all {stmt : Stmt} {stmts : List Stmt} (h : stmt ∈ stmts) :
    stmt.callees ⊆ calleesAll stmts := by
  induction stmts with
  | nil => cases h
  | cons head stmts ih =>
    rw [calleesAll]
    rcases List.mem_cons.1 h with rfl | h
    · exact List.subset_append_left _ _
    · exact List.subset_append_of_subset_right _ (ih h)

end SlotCode
