import SlotCode.Proofs.Source.Annotations

/-!
# Induction over trees

What passes from the parts of a tree to the tree holds for all trees.  Trees contain lists of trees,
and what is assumed of such a list is assumed of each of its members.  Where only some types may be
written, it holds for the trees whose annotations are among them.
-/

namespace SlotCode

open List

/-- The properties pass from the parts of each form of tree to the tree, as far as it is `ok` to write
the types in it. -/
structure Hereditary (P : Expr → Prop) (Q : Block → Prop) (R : Stmt → Prop)
    (ok : TypeExpr → Prop := fun _ => True) : Prop where
  var : ∀ span name, P (.var span name)
  int : ∀ span value, P (.int span value)
  bool : ∀ span value, P (.bool span value)
  str : ∀ span value, P (.str span value)
  tuple : ∀ span items, (∀ e ∈ items, P e) → P (.tuple span items)
  arith : ∀ span op operands, (∀ e ∈ operands, P e) → P (.arith span op operands)
  compare : ∀ span chain, (∀ group, .operands group ∈ chain → ∀ e ∈ group, P e) → P (.compare span chain)
  not : ∀ span operand, P operand → P (.not span operand)
  call : ∀ span target args, (∀ e ∈ args, P e) → P (.call span target args)
  block : ∀ span body, Q body → P (.block span body)
  cond : ∀ span test yes no, P test → P yes → (∀ e ∈ no, P e) → P (.cond span test yes no)
  ifFull : ∀ span boxed pattern yes no, P boxed → P yes → (∀ e ∈ no, P e) →
    P (.ifFull span boxed pattern yes no)
  loop : ∀ span label body, Q body → P (.loop span label body)
  leave : ∀ span label value, (∀ e ∈ value, P e) → P (.leave span label value)
  wrap : ∀ span payload, P payload → P (.wrap span payload)
  wrapEmpty : ∀ span payload, ok payload → P (.wrapEmpty span payload)
  cons : ∀ span head tail, P head → P tail → P (.cons span head tail)
  consEmpty : ∀ span item, ok item → P (.consEmpty span item)
  body : ∀ span stmts, (∀ stmt ∈ stmts, R stmt) → Q (.mk span stmts)
  bind : ∀ span target value, P value → R (.bind span target value)
  set : ∀ span target value, P value → R (.set span target value)
  yield : ∀ span value, P value → R (.yield span value)
  ret : ∀ span value, P value → R (.ret span value)
  eval : ∀ span value, P value → R (.eval span value)

namespace Hereditary

variable {P : Expr → Prop} {Q : Block → Prop} {R : Stmt → Prop} {ok : TypeExpr → Prop}

mutual

/-- The induction over trees of which all annotations are `ok`. -/
theorem exprOn (h : Hereditary P Q R ok) (e : Expr) (he : ∀ type ∈ e.annotations, ok type) : P e := by
  cases e with
  | var span name => exact h.var span name
  | int span value => exact h.int span value
  | bool span value => exact h.bool span value
  | str span value => exact h.str span value
  | tuple span items => exact h.tuple span items (exprsOn h items he)
  | arith span op operands => exact h.arith span op operands (exprsOn h operands he)
  | compare span chain => exact h.compare span chain (linksOn h chain he)
  | not span operand => exact h.not span operand (exprOn h operand he)
  | call span target args => exact h.call span target args (exprsOn h args (forall_mem_append.1 he).2)
  | block span body => exact h.block span body (blockOn h body he)
  | cond span test yes no =>
    obtain ⟨hboth, hno⟩ := forall_mem_append.1 he
    obtain ⟨htest, hyes⟩ := forall_mem_append.1 hboth
    exact h.cond span test yes no (exprOn h test htest) (exprOn h yes hyes) (exprInOn h no hno)
  | ifFull span boxed pattern yes no =>
    obtain ⟨hboth, hno⟩ := forall_mem_append.1 he
    obtain ⟨hboxed, hyes⟩ := forall_mem_append.1 hboth
    exact h.ifFull span boxed pattern yes no (exprOn h boxed hboxed) (exprOn h yes hyes) (exprInOn h no hno)
  | loop span label body => exact h.loop span label body (blockOn h body he)
  | leave span label value => exact h.leave span label value (exprInOn h value he)
  | wrap span payload => exact h.wrap span payload (exprOn h payload he)
  | wrapEmpty span payload => exact h.wrapEmpty span payload (he payload mem_cons_self)
  | cons span head tail =>
    obtain ⟨hhead, htail⟩ := forall_mem_append.1 he
    exact h.cons span head tail (exprOn h head hhead) (exprOn h tail htail)
  | consEmpty span item => exact h.consEmpty span item (he item mem_cons_self)

theorem exprInOn (h : Hereditary P Q R ok) (e : Option Expr)
    (he : ∀ type ∈ Expr.annotationsIn e, ok type) : ∀ e' ∈ e, P e' := by
  cases e with
  | none => simp
  | some e =>
    rintro _ ⟨⟩
    exact exprOn h e he

theorem exprsOn (h : Hereditary P Q R ok) (es : List Expr)
    (hes : ∀ type ∈ Expr.annotationsAll es, ok type) : ∀ e ∈ es, P e := by
  cases es with
  | nil => simp
  | cons e es =>
    obtain ⟨he, hes⟩ := forall_mem_append.1 hes
    exact forall_mem_cons.2 ⟨exprOn h e he, exprsOn h es hes⟩

theorem linksOn (h : Hereditary P Q R ok) (chain : List Link)
    (hlinks : ∀ type ∈ Link.annotationsAll chain, ok type) :
    ∀ group, .operands group ∈ chain → ∀ e ∈ group, P e := by
  cases chain with
  | nil => simp
  | cons link chain =>
    cases link with
    | operands group =>
      obtain ⟨hgroup, hlinks⟩ := forall_mem_append.1 hlinks
      have hself := exprsOn h group hgroup
      have hchain := linksOn h chain hlinks
      intro other hmem
      rcases mem_cons.1 hmem with heq | hmem
      · cases heq
        exact hself
      · exact hchain other hmem
    | operator span op =>
      have hchain := linksOn h chain hlinks
      intro other hmem
      exact hchain other (by simpa using hmem)

theorem blockOn (h : Hereditary P Q R ok) (b : Block) (hb : ∀ type ∈ b.annotations, ok type) : Q b := by
  cases b with
  | mk span stmts => exact h.body span stmts (stmtsOn h stmts hb)

theorem stmtsOn (h : Hereditary P Q R ok) (stmts : List Stmt)
    (hstmts : ∀ type ∈ Stmt.annotationsAll stmts, ok type) : ∀ stmt ∈ stmts, R stmt := by
  cases stmts with
  | nil => simp
  | cons stmt stmts =>
    obtain ⟨hstmt, hstmts⟩ := forall_mem_append.1 hstmts
    exact forall_mem_cons.2 ⟨stmtOn h stmt hstmt, stmtsOn h stmts hstmts⟩

theorem stmtOn (h : Hereditary P Q R ok) (stmt : Stmt) (hstmt : ∀ type ∈ stmt.annotations, ok type) :
    R stmt := by
  cases stmt with
  | bind span target value => exact h.bind span target value (exprOn h value hstmt)
  | set span target value => exact h.set span target value (exprOn h value hstmt)
  | yield span value => exact h.yield span value (exprOn h value hstmt)
  | ret span value => exact h.ret span value (exprOn h value hstmt)
  | eval span value => exact h.eval span value (exprOn h value hstmt)

end

/-! All types may be written. -/

section

variable (h : Hereditary P Q R)

include h

theorem forall_expr (e : Expr) : P e :=
  h.exprOn e fun _ _ => trivial

theorem forall_exprIn (e : Option Expr) : ∀ e' ∈ e, P e' :=
  h.exprInOn e fun _ _ => trivial

theorem forall_exprs (es : List Expr) : ∀ e ∈ es, P e :=
  h.exprsOn es fun _ _ => trivial

theorem forall_block (b : Block) : Q b :=
  h.blockOn b fun _ _ => trivial

theorem forall_stmts (stmts : List Stmt) : ∀ stmt ∈ stmts, R stmt :=
  h.stmtsOn stmts fun _ _ => trivial

end

end Hereditary

/-- Induction over the links of a comparison, an operator and its group at a time. -/
@[elab_as_elim]
theorem Link.induction {motive : List Link → Prop} (nil : motive [])
    (operands : ∀ group links, motive (.operands group :: links))
    (last : ∀ span op, motive [.operator span op])
    (twice : ∀ span op span' op' links, motive (.operator span op :: .operator span' op' :: links))
    (pair : ∀ span op group links, motive links → motive (.operator span op :: .operands group :: links)) :
    ∀ links, motive links
  | [] => nil
  | .operands group :: links => operands group links
  | [.operator span op] => last span op
  | .operator span op :: .operator span' op' :: links => twice span op span' op' links
  | .operator span op :: .operands group :: links =>
    pair span op group links (Link.induction nil operands last twice pair links)

end SlotCode
