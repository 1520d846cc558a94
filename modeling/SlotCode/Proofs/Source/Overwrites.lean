import SlotCode.Source.Tree

/-!
# What trees overwrite

A tree *overwrites* a name if a `set` in it stores into the variable that the name stands for outside the
tree.  A name that the tree has declared anew by then stands for another variable.

The *operands* of an expression are the expressions whose values it puts together, from left to right.
-/

namespace SlotCode

mutual

/-- The name is one of those in the target of an assignment. -/
def Expr.targets (name : String) : Expr → Bool
  | .var _ other => other == name
  | .tuple _ items => Expr.targetsAny name items
  | _ => false

def Expr.targetsAny (name : String) : List Expr → Bool
  | [] => false
  | expr :: exprs => expr.targets name || Expr.targetsAny name exprs

end

/-- The name means a new variable after the statement. -/
def Stmt.declares (name : String) : Stmt → Bool
  | .bind _ target _ => target.targets name
  | .set _ _ _ | .yield _ _ | .ret _ _ | .eval _ _ => false

mutual

/-- The expression stores into what the name stands for outside of it. -/
def Expr.overwrites (name : String) : Expr → Bool
  | .var _ _ | .int _ _ | .bool _ _ | .str _ _ | .wrapEmpty _ _ | .consEmpty _ _ => false
  | .tuple _ items => Expr.overwritesAny name items
  | .arith _ _ operands => Expr.overwritesAny name operands
  | .compare _ chain => Link.overwritesAny name chain
  | .not _ operand => operand.overwrites name
  | .call _ _ args => Expr.overwritesAny name args
  | .block _ body => body.overwrites name
  | .cond _ test yes no => test.overwrites name || yes.overwrites name || Expr.overwritesIn name no
  | .ifFull _ boxed target yes no =>
    boxed.overwrites name || (!target.targets name && yes.overwrites name) || Expr.overwritesIn name no
  | .loop _ _ body => body.overwrites name
  | .leave _ _ value => Expr.overwritesIn name value
  | .wrap _ payload => payload.overwrites name
  | .cons _ head tail => head.overwrites name || tail.overwrites name

def Expr.overwritesIn (name : String) : Option Expr → Bool
  | none => false
  | some expr => expr.overwrites name

def Expr.overwritesAny (name : String) : List Expr → Bool
  | [] => false
  | expr :: exprs => expr.overwrites name || Expr.overwritesAny name exprs

def Link.overwritesAny (name : String) : List Link → Bool
  | [] => false
  | .operands group :: links => Expr.overwritesAny name group || Link.overwritesAny name links
  | .operator _ _ :: links => Link.overwritesAny name links

def Block.overwrites (name : String) : Block → Bool
  | .mk _ stmts => Stmt.overwritesAny name stmts

def Stmt.overwritesAny (name : String) : List Stmt → Bool
  | [] => false
  | stmt :: stmts => stmt.overwrites name || (!stmt.declares name && Stmt.overwritesAny name stmts)

def Stmt.overwrites (name : String) : Stmt → Bool
  | .set _ target value => value.overwrites name || target.targets name
  | .bind _ _ value | .yield _ value | .ret _ value | .eval _ value => value.overwrites name

end

/-- The expressions of all groups of a chain. -/
def Link.allOperands : List Link → List Expr
  | [] => []
  | .operands group :: links => group ++ Link.allOperands links
  | .operator _ _ :: links => Link.allOperands links

/-- The expressions whose values are put together. -/
def Expr.operands : Expr → List Expr
  | .tuple _ items => items
  | .arith _ _ operands => operands
  | .compare _ chain => Link.allOperands chain
  | .call _ _ args => args
  | .cons _ head tail => [head, tail]
  | _ => []

def Expr.isCompare : Expr → Bool
  | .compare _ _ => true
  | _ => false

theorem Expr.overwritesAny_append (name : String) (es es' : List Expr) :
    Expr.overwritesAny name (es ++ es') = (Expr.overwritesAny name es || Expr.overwritesAny name es') := by
  induction es with
  | nil => rfl
  | cons e es ih => rw [List.cons_append, overwritesAny, overwritesAny, ih, Bool.or_assoc]

/-- A chain overwrites what its operands do. -/
theorem Link.overwritesAny_eq (name : String) (links : List Link) :
    Link.overwritesAny name links = Expr.overwritesAny name (Link.allOperands links) := by
  induction links with
  | nil => rfl
  | cons link links ih =>
    cases link with
    | operands group => rw [overwritesAny, allOperands, Expr.overwritesAny_append, ih]
    | operator span op => rw [overwritesAny, allOperands, ih]

theorem Expr.overwrites_of_operands {name : String} {e : Expr}
    (h : Expr.overwritesAny name e.operands = true) : e.overwrites name = true := by
  cases e with
  | tuple | arith | call => exact h
  | compare span chain => rwa [overwrites, Link.overwritesAny_eq]
  | cons span head tail => simpa [overwrites, operands, overwritesAny] using h
  | _ => cases h

theorem Link.forall_allOperands {P : Expr → Prop} {links : List Link}
    (h : ∀ group, .operands group ∈ links → ∀ e ∈ group, P e) : ∀ e ∈ Link.allOperands links, P e := by
  induction links with
  | nil => exact List.forall_mem_nil _
  | cons link links ih =>
    have hlinks := ih fun group hgroup => h group (List.mem_cons_of_mem _ hgroup)
    cases link with
    | operands group => exact List.forall_mem_append.2 ⟨h group List.mem_cons_self, hlinks⟩
    | operator span op => exact hlinks

end SlotCode
