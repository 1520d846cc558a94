import SlotCode.Code.Function

/-!
# Functions under other numbers

The types that a function mentions, and the function with its types renamed and its loops numbered
anew.
-/

namespace SlotCode

open List

/-! ## Operands and values -/

namespace Operand

mutual

/-- The types that an operand mentions. -/
def types : Operand → List TypeId
  | .var _ | .int _ | .bool _ | .str _ | .compare _ _ _ => []
  | .arith _ type operands => type :: typesAll operands

def typesAll : List Operand → List TypeId
  | [] => []
  | operand :: rest => operand.types ++ typesAll rest

end

theorem typesAll_append (a b : List Operand) : typesAll (a ++ b) = typesAll a ++ typesAll b := by
  induction a with
  | nil => rfl
  | cons operand a ih => rw [cons_append, typesAll, typesAll, ih, append_assoc]

/-- The types that operands mention are those that one of them does. -/
theorem mem_typesAll {type : TypeId} {operands : List Operand} :
    type ∈ typesAll operands ↔ ∃ operand ∈ operands, type ∈ operand.types := by
  induction operands with
  | nil => simp [typesAll]
  | cons operand operands ih => simp [typesAll, ih]

mutual

def rename (r : TypeId → TypeId) : Operand → Operand
  | .var id => .var id
  | .int value => .int value
  | .bool value => .bool value
  | .str value => .str value
  | .arith op type operands => .arith op (r type) (renameAll r operands)
  | .compare left op right => .compare left op right

def renameAll (r : TypeId → TypeId) : List Operand → List Operand
  | [] => []
  | operand :: rest => operand.rename r :: renameAll r rest

end

theorem renameAll_eq_map (r : TypeId → TypeId) (operands : List Operand) :
    renameAll r operands = operands.map (rename r) := by
  induction operands with
  | nil => rfl
  | cons operand rest ih => rw [renameAll, ih, map_cons]

mutual

theorem rename_rename (q r : TypeId → TypeId) (operand : Operand) :
    (operand.rename r).rename q = operand.rename fun id => q (r id) := by
  cases operand with
  | var | int | bool | str | compare => rfl
  | arith op type operands => rw [rename, rename, rename, renameAll_renameAll q r operands]

theorem renameAll_renameAll (q r : TypeId → TypeId) (operands : List Operand) :
    renameAll q (renameAll r operands) = renameAll (fun id => q (r id)) operands := by
  cases operands with
  | nil => rfl
  | cons operand rest =>
    rw [renameAll, renameAll, renameAll, rename_rename q r operand, renameAll_renameAll q r rest]

end

mutual

theorem types_rename (r : TypeId → TypeId) (operand : Operand) :
    (operand.rename r).types = operand.types.map r := by
  cases operand with
  | var | int | bool | str | compare => rfl
  | arith op type operands => rw [rename, types, types, typesAll_renameAll r operands, map_cons]

theorem typesAll_renameAll (r : TypeId → TypeId) (operands : List Operand) :
    typesAll (renameAll r operands) = (typesAll operands).map r := by
  cases operands with
  | nil => rfl
  | cons operand rest =>
    rw [renameAll, typesAll, typesAll, types_rename r operand, typesAll_renameAll r rest, map_append]

end

theorem typesAll_map_rename (r : TypeId → TypeId) (operands : List Operand) :
    typesAll (operands.map (rename r)) = (typesAll operands).map r := by
  rw [← renameAll_eq_map, typesAll_renameAll]

theorem map_rename_rename (q r : TypeId → TypeId) (operands : List Operand) :
    (operands.map (rename r)).map (rename q) = operands.map (rename fun id => q (r id)) := by
  rw [map_map]
  exact map_congr_left fun operand _ => rename_rename q r operand

end Operand

def Shape.rename (r : TypeId → TypeId) : Shape → Shape
  | .void => .void
  | .scalar operand => .scalar (operand.rename r)
  | .tuple leaves => .tuple (leaves.map (Operand.rename r))

/-- A value under other numbers of types. -/
def Value.rename (r : TypeId → TypeId) (v : Value) : Value :=
  { v with type := r v.type, shape := v.shape.rename r }

namespace Value

variable (r : TypeId → TypeId) (v : Value)

theorem leaves_rename : (v.rename r).leaves = v.leaves.map (Operand.rename r) := by
  simp only [leaves, rename]
  cases v.shape <;> rfl

theorem isVoid_rename : (v.rename r).isVoid = v.isVoid := by
  refine decide_eq_decide.2 ?_
  simp only [rename]
  cases v.shape <;> simp [Shape.rename]

/-- A variable is read under any numbers. -/
theorem asVar?_rename : (v.rename r).asVar? = v.asVar? := by
  simp only [asVar?, rename]
  cases v.shape with
  | scalar operand => cases operand <;> rfl
  | void | tuple => rfl

end Value

/-! ## Code -/

namespace Command

mutual

/-- The types that a command mentions. -/
def types : Command → List TypeId
  | .assign _ _ value => value.types
  | .call _ _ inputs _ | .native _ _ inputs _ => Operand.typesAll inputs
  | .branch _ test yes no => test.types ++ (typesAll yes ++ typesAll no)
  | .loop _ _ body => typesAll body
  | .leave _ _ => []

/-- The types that code mentions. -/
def typesAll : List Command → List TypeId
  | [] => []
  | command :: rest => command.types ++ typesAll rest

end

theorem typesAll_append (a b : Code) : typesAll (a ++ b) = typesAll a ++ typesAll b := by
  induction a with
  | nil => rfl
  | cons c a ih => rw [cons_append, typesAll, typesAll, ih, append_assoc]

mutual

def rename (r : TypeId → TypeId) (l : LoopId → LoopId) : Command → Command
  | .assign span dest value => .assign span dest (value.rename r)
  | .call span target inputs outputs => .call span target (inputs.map (Operand.rename r)) outputs
  | .native span primitive inputs outputs =>
    .native span primitive (inputs.map (Operand.rename r)) outputs
  | .branch span test yes no => .branch span (test.rename r) (renameAll r l yes) (renameAll r l no)
  | .loop span id body => .loop span (l id) (renameAll r l body)
  | .leave span id => .leave span (l id)

/-- Code with its types renamed and its loops numbered anew. -/
def renameAll (r : TypeId → TypeId) (l : LoopId → LoopId) : List Command → List Command
  | [] => []
  | command :: rest => command.rename r l :: renameAll r l rest

end

theorem renameAll_append (r : TypeId → TypeId) (l : LoopId → LoopId) (a b : Code) :
    renameAll r l (a ++ b) = renameAll r l a ++ renameAll r l b := by
  induction a with
  | nil => rfl
  | cons c a ih => rw [cons_append, renameAll, renameAll, ih, cons_append]

mutual

theorem rename_rename (q r : TypeId → TypeId) (k l : LoopId → LoopId) (c : Command) :
    (c.rename r l).rename q k = c.rename (fun id => q (r id)) fun id => k (l id) := by
  cases c with
  | assign span dest value => rw [rename, rename, rename, Operand.rename_rename]
  | call span target inputs outputs => rw [rename, rename, rename, Operand.map_rename_rename]
  | native span primitive inputs outputs => rw [rename, rename, rename, Operand.map_rename_rename]
  | branch span test yes no =>
    rw [rename, rename, rename, Operand.rename_rename, renameAll_renameAll q r k l yes,
      renameAll_renameAll q r k l no]
  | loop span id body => rw [rename, rename, rename, renameAll_renameAll q r k l body]
  | leave span id => rfl

theorem renameAll_renameAll (q r : TypeId → TypeId) (k l : LoopId → LoopId) (code : List Command) :
    renameAll q k (renameAll r l code) = renameAll (fun id => q (r id)) (fun id => k (l id)) code := by
  cases code with
  | nil => rfl
  | cons c code =>
    rw [renameAll, renameAll, renameAll, rename_rename q r k l c, renameAll_renameAll q r k l code]

end

mutual

theorem types_rename (r : TypeId → TypeId) (l : LoopId → LoopId) (c : Command) :
    (c.rename r l).types = c.types.map r := by
  cases c with
  | assign span dest value => rw [rename, types, types, Operand.types_rename]
  | call span target inputs outputs => rw [rename, types, types, Operand.typesAll_map_rename]
  | native span primitive inputs outputs => rw [rename, types, types, Operand.typesAll_map_rename]
  | branch span test yes no =>
    rw [rename, types, types, Operand.types_rename, typesAll_renameAll r l yes,
      typesAll_renameAll r l no, map_append, map_append]
  | loop span id body => rw [rename, types, types, typesAll_renameAll r l body]
  | leave span id => rfl

theorem typesAll_renameAll (r : TypeId → TypeId) (l : LoopId → LoopId) (code : List Command) :
    typesAll (renameAll r l code) = (typesAll code).map r := by
  cases code with
  | nil => rfl
  | cons c code =>
    rw [renameAll, typesAll, typesAll, types_rename r l c, typesAll_renameAll r l code, map_append]

end

end Command

/-! ## Functions -/

/-- An entry of the table under other numbers of types. -/
def Var.rename (r : TypeId → TypeId) (v : Var) : Var :=
  { v with type := v.type.map r }

def Local.rename (r : TypeId → TypeId) (l : Local) : Local :=
  { l with type := r l.type }

/-- The types that a function mentions. -/
def Function.types (f : Function) : List TypeId :=
  f.result :: f.vars.toList.filterMap Var.type ++ f.locals.map Local.type ++
    Command.typesAll f.code ++ Operand.typesAll f.value

/-- The function with its types renamed and its loops numbered anew. -/
def Function.rename (r : TypeId → TypeId) (l : LoopId → LoopId) (f : Function) : Function :=
  { f with
    result := r f.result
    vars := f.vars.map (Var.rename r)
    locals := f.locals.map (Local.rename r)
    code := Command.renameAll r l f.code
    value := f.value.map (Operand.rename r) }

/-- Renaming twice is renaming once. -/
theorem Function.rename_rename (q r : TypeId → TypeId) (k l : LoopId → LoopId) (f : Function) :
    (f.rename r l).rename q k = f.rename (fun id => q (r id)) fun id => k (l id) := by
  have hvar : ∀ v : Var, (v.rename r).rename q = v.rename fun id => q (r id) := by
    intro v
    simp only [Var.rename, Option.map_map]
    rfl
  simp only [rename, Array.map_map, Command.renameAll_renameAll, Operand.map_rename_rename]
  rw [map_map]
  congr 2
  exact funext hvar

theorem Function.types_rename (r : TypeId → TypeId) (l : LoopId → LoopId) (f : Function) :
    (f.rename r l).types = f.types.map r := by
  have hvars : (f.vars.map (Var.rename r)).toList.filterMap Var.type =
      (f.vars.toList.filterMap Var.type).map r := by
    rw [Array.toList_map, filterMap_map, map_filterMap]
    rfl
  have hlocals : (f.locals.map (Local.rename r)).map Local.type = (f.locals.map Local.type).map r := by
    rw [map_map, map_map]
    rfl
  simp only [types, rename, hvars, hlocals, Command.typesAll_renameAll, Operand.typesAll_map_rename,
    map_append, map_cons]

end SlotCode
