import SlotCode.Lowering.Steps
import SlotCode.Proofs.Types.Leaves

/-!
# Typed code

What it means for flat code to be well typed, against a *typing*: a type graph, the types of the
variables, which types count as equal and which calls are allowed.  Operands have one type, which is
read off them; only stores compare two types, so only there equality matters.

What is typed stays typed when the typing grows (`Command.WellTyped.mono`).
-/

namespace SlotCode

/-! ## Variables of code -/

namespace Operand

mutual

/-- The variables that an operand reads. -/
def reads : Operand → List VarId
  | .var id => [id]
  | .int _ | .bool _ | .str _ => []
  | .arith _ _ operands => readsAll operands
  | .compare left _ right => [left, right]

def readsAll : List Operand → List VarId
  | [] => []
  | operand :: operands => reads operand ++ readsAll operands

end

theorem mem_readsAll {x : VarId} {operands : List Operand} :
    x ∈ readsAll operands ↔ ∃ operand ∈ operands, x ∈ operand.reads := by
  induction operands with
  | nil => simp [readsAll]
  | cons operand operands ih => simp [readsAll, ih]

end Operand

namespace Command

/-- The variables that a command stores into by itself. -/
def writes : Command → List VarId
  | .assign _ dest _ => [dest]
  | .call _ _ _ outputs | .native _ _ _ outputs => outputs
  | .branch _ _ _ _ | .loop _ _ _ | .leave _ _ => []

mutual

/-- The command and all commands inside it. -/
def nested : Command → List Command
  | .assign span dest value => [.assign span dest value]
  | .call span target inputs outputs => [.call span target inputs outputs]
  | .native span primitive inputs outputs => [.native span primitive inputs outputs]
  | .branch span test yes no => .branch span test yes no :: (nestedAll yes ++ nestedAll no)
  | .loop span id body => .loop span id body :: nestedAll body
  | .leave span id => [.leave span id]

/-- The commands at any depth of code. -/
def nestedAll : List Command → List Command
  | [] => []
  | command :: commands => nested command ++ nestedAll commands

end

@[simp] theorem nestedAll_append (a b : Code) : nestedAll (a ++ b) = nestedAll a ++ nestedAll b := by
  induction a with
  | nil => rfl
  | cons c a ih => simp [nestedAll, ih]

end Command

/-! ## Typings -/

/-- What code is typed against. -/
structure Typing where
  types : TypeGraph
  var : VarId → Option TypeId
  same : TypeId → TypeId → Prop
  /-- The calls allowed: a function with the types of its inputs and its outputs. -/
  callable : String → List TypeId → List TypeId → Prop

/-- Everything that `t` knows, `t'` knows too. -/
structure Typing.Grows (t t' : Typing) : Prop where
  types : t.types.Extends t'.types
  var : ∀ id type, t.var id = some type → t'.var id = some type
  same : ∀ a b, t.same a b → t'.same a b
  callable : ∀ target ins outs, t.callable target ins outs → t'.callable target ins outs

inductive Operand.HasType (t : Typing) : Operand → TypeId → Prop where
  | var {id : VarId} {type : TypeId} (h : t.var id = some type) : HasType t (.var id) type
  | int (value : Int) : HasType t (.int value) .integer
  | bool (value : Bool) : HasType t (.bool value) .boolean
  | str (value : String) : HasType t (.str value) .string
  | arith (op : ArithOp) {operands : List Operand}
      (h : ∀ operand, operand ∈ operands → HasType t operand op.type) :
      HasType t (.arith op op.type operands) op.type
  | compare {left right : VarId} (op : CmpOp) (hl : t.var left = some .integer)
      (hr : t.var right = some .integer) : HasType t (.compare left op right) .boolean

variable {t : Typing} {type : TypeId} {types : List TypeId}

theorem Operand.HasType.mono {t' : Typing}
    (hvar : ∀ id type, t.var id = some type → t'.var id = some type) {operand : Operand}
    (h : operand.HasType t type) : operand.HasType t' type := by
  induction h with
  | var h => exact .var (hvar _ _ h)
  | int value => exact .int value
  | bool value => exact .bool value
  | str value => exact .str value
  | arith op _ ih => exact .arith op ih
  | compare op hl hr => exact .compare op (hvar _ _ hl) (hvar _ _ hr)

/-- What an operand reads has a type. -/
theorem Operand.HasType.reads_typed {operand : Operand} (h : operand.HasType t type) {x : VarId}
    (hx : x ∈ operand.reads) : ∃ type, t.var x = some type := by
  induction h with
  | var h =>
    cases List.mem_singleton.1 hx
    exact ⟨_, h⟩
  | int | bool | str => cases hx
  | arith op _ ih =>
    obtain ⟨operand, hmem, hx⟩ := mem_readsAll.1 hx
    exact ih operand hmem hx
  | compare op hl hr =>
    rcases List.mem_pair.1 hx with rfl | rfl
    · exact ⟨_, hl⟩
    · exact ⟨_, hr⟩

/-- A box or list with that payload. -/
def Typing.Boxes (t : Typing) (type payload : TypeId) : Prop :=
  ∃ kind, t.types.kind type = .ok kind ∧ kind.payload? = some payload

/-- The types are pairwise those of the leaves of a type. -/
def Typing.Spreads (t : Typing) (type : TypeId) (types : List TypeId) : Prop :=
  ∃ leaves, t.types.leaves type = .ok leaves ∧ List.Forall₂ t.same leaves types

inductive Command.WellTyped (t : Typing) : Command → Prop where
  | assign {span : Span} {dest : VarId} {value : Operand} {type found : TypeId}
      (hd : t.var dest = some type) (hv : value.HasType t found) (hs : t.same type found) :
      WellTyped t (.assign span dest value)
  | call {span : Span} {target : String} {inputs : List Operand} {outputs : List VarId}
      {ins outs : List TypeId} (hi : List.Forall₂ (Operand.HasType t) inputs ins)
      (ho : List.Forall₂ (fun id type => t.var id = some type) outputs outs)
      (hc : t.callable target ins outs) : WellTyped t (.call span target inputs outputs)
  | wrap {span : Span} {inputs : List Operand} {dest : VarId} {ins : List TypeId}
      {type payload : TypeId} (hi : List.Forall₂ (Operand.HasType t) inputs ins)
      (hd : t.var dest = some type) (hb : t.Boxes type payload) (hs : t.Spreads payload ins) :
      WellTyped t (.native span .wrap inputs [dest])
  | wrapEmpty {span : Span} {dest : VarId} {type payload : TypeId} (hd : t.var dest = some type)
      (hb : t.Boxes type payload) : WellTyped t (.native span .wrapEmpty [] [dest])
  | unwrap {span : Span} {input : Operand} {outputs : List VarId} {outs : List TypeId}
      {type payload : TypeId} (hi : input.HasType t type) (hb : t.Boxes type payload)
      (ho : List.Forall₂ (fun id type => t.var id = some type) outputs outs)
      (hs : t.Spreads payload outs) : WellTyped t (.native span .unwrap [input] outputs)
  | full {span : Span} {input : Operand} {dest : VarId} {type payload : TypeId}
      (hi : input.HasType t type) (hb : t.Boxes type payload)
      (hd : t.var dest = some .boolean) : WellTyped t (.native span .full [input] [dest])
  | print {span : Span} {input : Operand} (hi : input.HasType t .string) :
      WellTyped t (.native span .print [input] [])
  | branch {span : Span} {test : Operand} {yes no : Code} (ht : test.HasType t .boolean) :
      WellTyped t (.branch span test yes no)
  | loop {span : Span} {id : LoopId} {body : Code} : WellTyped t (.loop span id body)
  | leave {span : Span} {id : LoopId} : WellTyped t (.leave span id)

namespace Typing.Grows

variable {t t' : Typing} (h : t.Grows t')

include h

theorem boxes {payload : TypeId} (hb : t.Boxes type payload) : t'.Boxes type payload := by
  obtain ⟨kind, hk, hp⟩ := hb
  exact ⟨kind, h.types _ _ hk, hp⟩

theorem spreads (hs : t.Spreads type types) : t'.Spreads type types := by
  obtain ⟨leaves, hl, hs⟩ := hs
  exact ⟨leaves, TypeGraph.leaves_extend h.types hl, hs.imp h.same⟩

theorem operands {operands : List Operand} (ho : List.Forall₂ (Operand.HasType t) operands types) :
    List.Forall₂ (Operand.HasType t') operands types :=
  ho.imp fun _ _ => Operand.HasType.mono h.var

theorem vars {ids : List VarId} (hv : List.Forall₂ (fun id type => t.var id = some type) ids types) :
    List.Forall₂ (fun id type => t'.var id = some type) ids types :=
  hv.imp h.var

end Typing.Grows

theorem Command.WellTyped.mono {t' : Typing} (h : t.Grows t') {c : Command} (hc : c.WellTyped t) :
    c.WellTyped t' := by
  cases hc with
  | assign hd hv hs => exact .assign (h.var _ _ hd) (hv.mono h.var) (h.same _ _ hs)
  | call hi ho hc => exact .call (h.operands hi) (h.vars ho) (h.callable _ _ _ hc)
  | wrap hi hd hb hs => exact .wrap (h.operands hi) (h.var _ _ hd) (h.boxes hb) (h.spreads hs)
  | wrapEmpty hd hb => exact .wrapEmpty (h.var _ _ hd) (h.boxes hb)
  | unwrap hi hb ho hs => exact .unwrap (hi.mono h.var) (h.boxes hb) (h.vars ho) (h.spreads hs)
  | full hi hb hd => exact .full (hi.mono h.var) (h.boxes hb) (h.var _ _ hd)
  | print hi => exact .print (hi.mono h.var)
  | branch ht => exact .branch (ht.mono h.var)
  | loop => exact .loop
  | leave => exact .leave

end SlotCode
