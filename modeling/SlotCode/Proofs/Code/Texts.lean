import SlotCode.Code.Text
import SlotCode.Proofs.Code.Renamed
import SlotCode.Proofs.Text.Reading

/-!
# What the text of flat code tells

Code that is *legible* can be read back from its text, up to the places that commands come from and the
types of operations, which are not written (`textAll_eq_iff_bareAll_eq`).
-/

namespace SlotCode

open List

namespace Operand

/-- The operand without the types in it. -/
def untyped (operand : Operand) : Operand :=
  operand.rename fun _ => .void

mutual

/-- Every operation shows its operator, which stands between operands. -/
def isLegible : Operand → Bool
  | .arith _ _ operands => 2 ≤ operands.length && areLegible operands
  | _ => true

def areLegible : List Operand → Bool
  | [] => true
  | operand :: operands => operand.isLegible && areLegible operands

end

end Operand

namespace Command

mutual

/-- The command without the place that it comes from and without types. -/
def bare : Command → Command
  | .assign _ dest value => .assign ⟨0, 0⟩ dest value.untyped
  | .call _ target inputs outputs => .call ⟨0, 0⟩ target (inputs.map Operand.untyped) outputs
  | .native _ primitive inputs outputs =>
    .native ⟨0, 0⟩ primitive (inputs.map Operand.untyped) outputs
  | .branch _ test yes no => .branch ⟨0, 0⟩ test.untyped (bareAll yes) (bareAll no)
  | .loop _ id body => .loop ⟨0, 0⟩ id (bareAll body)
  | .leave _ id => .leave ⟨0, 0⟩ id

def bareAll : List Command → List Command
  | [] => []
  | command :: commands => command.bare :: bareAll commands

end

mutual

/-- The operands are legible, and the names of called functions contain no bracket. -/
def isLegible : Command → Bool
  | .assign _ _ value => value.isLegible
  | .call _ target inputs _ => !target.toList.contains '(' && Operand.areLegible inputs
  | .native _ _ inputs _ => Operand.areLegible inputs
  | .branch _ test yes no => test.isLegible && areLegible yes && areLegible no
  | .loop _ _ body => areLegible body
  | .leave _ _ => true

def areLegible : List Command → Bool
  | [] => true
  | command :: commands => command.isLegible && areLegible commands

end

end Command

/-! ## The text shows neither places nor types -/

namespace Operand

theorem untyped_arith (op : ArithOp) (type : TypeId) (operands : List Operand) :
    (arith op type operands).untyped = arith op .void (operands.map untyped) := by
  rw [untyped, rename, renameAll_eq_map]
  rfl

mutual

/-- Types are not printed. -/
theorem text_untyped (operand : Operand) : operand.untyped.text = operand.text := by
  cases operand with
  | var | int | bool | str | compare => rfl
  | arith op type operands => rw [untyped_arith, text, text, textEach_untyped operands]

theorem textEach_untyped (operands : List Operand) :
    textEach (operands.map untyped) = textEach operands := by
  cases operands with
  | nil => rfl
  | cons operand operands =>
    rw [map_cons, textEach, textEach, text_untyped operand, textEach_untyped operands]

end

end Operand

namespace Command

/-- A block of code and the bracket that closes it, with what follows. -/
def block (depth : Nat) (body : Code) (rest : List Char) : List Char :=
  (textAll (depth + 1) body).toList ++ ((margin depth).toList ++ '}' :: rest)

/-- What stands behind the first block of a conditional. -/
def otherwise (depth : Nat) (rest : List Char) : Code → List Char
  | [] => '\n' :: rest
  | no => ' ' :: 'e' :: 'l' :: 's' :: 'e' :: ' ' :: '{' :: '\n' :: block depth no ('\n' :: rest)

/-- A command behind its margin, with what follows. -/
def line (depth : Nat) (rest : List Char) : Command → List Char
  | .assign _ dest value =>
    (VarId.text dest).toList ++ ' ' :: '=' :: ' ' :: (value.text.toList ++ '\n' :: rest)
  | .call _ target inputs outputs =>
    '(' :: ((VarId.texts outputs).toList ++ ')' :: ' ' :: '=' :: ' ' :: 'c' :: 'a' :: 'l' :: 'l' :: ' ' ::
      (target.toList ++ '(' :: ((Operand.texts inputs).toList ++ ')' :: '\n' :: rest)))
  | .native _ primitive inputs outputs =>
    '(' :: ((VarId.texts outputs).toList ++ ')' :: ' ' :: '=' :: ' ' :: 'n' :: 'a' :: 't' :: 'i' :: 'v' ::
      'e' :: ' ' :: (primitive.name.toList ++ '(' :: ((Operand.texts inputs).toList ++ ')' :: '\n' :: rest)))
  | .branch _ test yes no =>
    'i' :: 'f' :: ' ' :: (test.text.toList ++ ' ' :: '{' :: '\n' ::
      block depth yes (otherwise depth rest no))
  | .loop _ id body =>
    'l' :: 'o' :: 'o' :: 'p' :: ' ' :: ((LoopId.text id).toList ++ ' ' :: '{' :: '\n' ::
      block depth body ('\n' :: rest))
  | .leave _ id => 'b' :: 'r' :: 'e' :: 'a' :: 'k' :: ' ' :: ((LoopId.text id).toList ++ '\n' :: rest)

theorem toList_text (depth : Nat) (rest : List Char) (command : Command) :
    (text depth command).toList ++ rest = (margin depth).toList ++ line depth rest command := by
  cases command with
  | branch span test yes no => cases no <;> simp [text, braced, line, block, otherwise]
  | _ => simp [text, braced, line, block]

theorem text_eq_of_line {depth : Nat} {a b : Command} (h : line depth [] a = line depth [] b) :
    text depth a = text depth b := by
  apply String.toList_inj.1
  rw [← append_nil (text depth a).toList, toList_text, h, ← toList_text, append_nil]

mutual

/-- Neither places nor types are printed. -/
theorem text_bare (depth : Nat) (command : Command) :
    text depth command.bare = text depth command := by
  apply text_eq_of_line
  cases command with
  | assign span dest value => rw [bare, line, line, value.text_untyped]
  | call | native => rw [bare, line, line, Operand.texts, Operand.texts, Operand.textEach_untyped]
  | branch span test yes no =>
    have hno := textAll_bareAll (depth + 1) no
    rw [bare, line, line, test.text_untyped, block, block, textAll_bareAll (depth + 1) yes]
    cases no with
    | nil => rfl
    | cons command no => rw [bareAll, otherwise, otherwise, block, block, ← bareAll, hno] <;> simp
  | loop span id body => rw [bare, line, line, block, block, textAll_bareAll (depth + 1) body]
  | leave span id => rfl

theorem textAll_bareAll (depth : Nat) (commands : List Command) :
    textAll depth (bareAll commands) = textAll depth commands := by
  cases commands with
  | nil => rfl
  | cons command commands =>
    rw [bareAll, textAll, textAll, text_bare depth command, textAll_bareAll depth commands]

end

end Command

/-! ## Reading operands -/

variable {rest rest' : List Char}

theorem marked_told {mark : String} {m n : Nat} (hrest : NoDigit rest) (hrest' : NoDigit rest')
    (h : (mark ++ toString m).toList ++ rest = (mark ++ toString n).toList ++ rest') :
    m = n ∧ rest = rest' := by
  simp only [String.toList_append, append_assoc] at h
  exact number_told hrest hrest' (append_cancel_left h)

theorem ArithOp.symbol_told {a b : ArithOp}
    (h : a.symbol.toList ++ ' ' :: rest = b.symbol.toList ++ ' ' :: rest') : a = b ∧ rest = rest' := by
  cases a <;> cases b <;> simp [symbol] at h ⊢ <;> exact h

theorem CmpOp.symbol_told {a b : CmpOp}
    (h : a.symbol.toList ++ ' ' :: rest = b.symbol.toList ++ ' ' :: rest') : a = b ∧ rest = rest' := by
  cases a <;> cases b <;> simp [symbol] at h ⊢ <;> exact h

/-- The text goes on neither with a digit nor with a comparison, so an operand can end before it. -/
def IsEnd (rest : List Char) : Prop :=
  NoDigit rest ∧ ∀ (op : CmpOp) tail, rest ≠ ' ' :: (op.symbol.toList ++ tail)

theorem noDigit_blank (tail : List Char) : NoDigit (' ' :: tail) := by
  simp [NoDigit]

theorem isEnd_cons {c : Char} (hdigit : c.isDigit = false) (hblank : c ≠ ' ') (tail : List Char) :
    IsEnd (c :: tail) :=
  ⟨fun _ hc => Option.some.inj hc ▸ hdigit, fun _ _ h => hblank (List.cons.inj h).1⟩

/-- Texts with a separator between them, up to a closing bracket. -/
theorem joined_told {α β : Type} {text : α → List Char} {key : α → β} {as bs : List α} {sep : List Char}
    (hsep : ∀ tail, IsEnd (sep ++ tail) ∧ ∀ tail', sep ++ tail ≠ ')' :: tail')
    (hhead : ∀ a tail tail', text a ++ tail ≠ ')' :: tail')
    (htold : ∀ a ∈ as, ∀ b ∈ bs, Told IsEnd text key a b)
    (h : sep.intercalate (as.map text) ++ ')' :: rest =
      sep.intercalate (bs.map text) ++ ')' :: rest') :
    as.map key = bs.map key ∧ rest = rest' := by
  have hends : ∀ (as : List α) tail, IsEnd (as.flatMap (sep ++ text ·) ++ ')' :: tail) := by
    intro as tail
    cases as with
    | nil => exact isEnd_cons (by decide) (by decide) tail
    | cons a as =>
      rw [flatMap_cons, append_assoc, append_assoc]
      exact (hsep _).1
  cases as with
  | nil =>
    cases bs with
    | nil => exact ⟨rfl, (List.cons.inj h).2⟩
    | cons b bs =>
      rw [map_cons, intercalate_cons_eq, append_assoc] at h
      exact absurd h.symm (hhead b _ _)
  | cons a as =>
    rw [map_cons, intercalate_cons_eq, append_assoc] at h
    cases bs with
    | nil => exact absurd h (hhead a _ _)
    | cons b bs =>
      rw [map_cons, intercalate_cons_eq, append_assoc, flatMap_map, flatMap_map] at h
      obtain ⟨hab, h⟩ := htold a mem_cons_self b mem_cons_self _ _ (hends as rest)
        (hends bs rest') h
      have hrest : ∀ a ∈ as, ∀ b ∈ bs, Told IsEnd (sep ++ text ·) key a b := by
        intro a ha b hb rest rest' hrest hrest' heq
        rw [append_assoc, append_assoc] at heq
        exact htold a (mem_cons_of_mem _ ha) b (mem_cons_of_mem _ hb) rest rest' hrest hrest'
          (append_cancel_left heq)
      obtain ⟨hkeys, h⟩ := flatMap_told hends (fun a tail => by
        rw [append_assoc]
        exact (hsep _).2) hrest h
      exact ⟨by rw [map_cons, map_cons, hab, hkeys], h⟩

theorem comma_ends (tail : List Char) :
    IsEnd (", ".toList ++ tail) ∧ ∀ tail', ", ".toList ++ tail ≠ ')' :: tail' :=
  ⟨isEnd_cons (by decide) (by decide) _, fun _ h => absurd (List.cons.inj h).1 (by decide)⟩

namespace Operand

def chars (operand : Operand) : List Char :=
  operand.text.toList

/-- The character that a text of an operand begins with, one for each form. -/
def lead : Operand → Char
  | .var _ | .compare _ _ _ => '_'
  | .int _ => '0'
  | .bool _ => 't'
  | .str _ => '"'
  | .arith _ _ _ => '('

/-- The form of the operands whose texts begin with the character. -/
def leadOf (c : Char) : Char :=
  if c = '-' ∨ c.isDigit then '0' else if c = 'f' then 't' else c

theorem exists_lead (operand : Operand) : ∃ c cs, operand.chars = c :: cs ∧ leadOf c = operand.lead := by
  rw [chars]
  cases operand with
  | var | compare => simp [text, VarId.text, lead, leadOf]
  | int value =>
    rw [text]
    rcases integer_cases value with ⟨n, -, h⟩ | ⟨n, -, h⟩ <;> rw [h]
    · obtain ⟨c, cs, hn, hdigit⟩ := number_head n
      exact ⟨c, cs, hn, if_pos (Or.inr hdigit)⟩
    · exact ⟨_, _, rfl, rfl⟩
  | bool value => cases value <;> simp [text, lead, leadOf]
  | str value => simp [text, Text.quoted, lead, leadOf]
  | arith => simp [text, lead, leadOf]

/-- No operand begins with a closing bracket. -/
theorem chars_ne_close (operand : Operand) (tail tail' : List Char) :
    operand.chars ++ tail ≠ ')' :: tail' := by
  obtain ⟨c, cs, hchars, hlead⟩ := operand.exists_lead
  rw [hchars]
  intro h
  cases (List.cons.inj h).1
  cases operand <;> cases hlead

theorem toList_textEach (operands : List Operand) :
    (textEach operands).map String.toList = operands.map chars := by
  induction operands with
  | nil => rfl
  | cons operand operands ih => rw [textEach, map_cons, ih, map_cons, chars]

theorem of_areLegible {operands : List Operand} (h : areLegible operands = true) :
    ∀ operand ∈ operands, operand.isLegible = true := by
  induction operands with
  | nil => exact forall_mem_nil _
  | cons operand operands ih =>
    rw [areLegible, Bool.and_eq_true] at h
    exact forall_mem_cons.2 ⟨h.1, ih h.2⟩

/-- An operator between two operands. -/
def separator (op : ArithOp) : List Char :=
  ' ' :: (op.symbol.toList ++ [' '])

theorem separator_ends (op : ArithOp) (tail : List Char) :
    IsEnd (separator op ++ tail) ∧ ∀ tail', separator op ++ tail ≠ ')' :: tail' := by
  refine ⟨⟨noDigit_blank _, fun op' tail' h => ?_⟩, fun tail' h => ?_⟩
  · cases op <;> cases op' <;> simp [separator, ArithOp.symbol, CmpOp.symbol] at h
  · simp [separator] at h

theorem chars_arith (op : ArithOp) (type : TypeId) (operands : List Operand) (rest : List Char) :
    (arith op type operands).chars ++ rest =
      '(' :: ((separator op).intercalate (operands.map chars) ++ ')' :: rest) := by
  simp [chars, text, separator, toList_textEach]

theorem chars_compare (left right : VarId) (op : CmpOp) (rest : List Char) :
    (compare left op right).chars ++ rest = (VarId.text left).toList ++
      ' ' :: (op.symbol.toList ++ ' ' :: ((VarId.text right).toList ++ rest)) := by
  simp [chars, text]

def ReadBack (a b : Operand) : Prop :=
  Told IsEnd chars untyped a b

theorem exists_two {operands : List Operand} (h : 2 ≤ operands.length) :
    ∃ a b others, operands = a :: b :: others := by
  rcases operands with - | ⟨a, - | ⟨b, others⟩⟩
  · simp at h
  · simp at h
  · exact ⟨a, b, others, rfl⟩

theorem arith_told {op op' : ArithOp} {type type' : TypeId} {as bs : List Operand} (ha : 2 ≤ as.length)
    (hb : 2 ≤ bs.length) (htold : ∀ a ∈ as, ∀ b ∈ bs, ReadBack a b) :
    ReadBack (arith op type as) (arith op' type' bs) := by
  intro rest rest' _ _ h
  rw [chars_arith, chars_arith] at h
  replace h := (List.cons.inj h).2
  -- The operator is read behind the first operand; then all operands are, with that operator between them.
  have hop : op = op' := by
    obtain ⟨a, a', as, rfl⟩ := exists_two ha
    obtain ⟨b, b', bs, rfl⟩ := exists_two hb
    simp only [map_cons, intercalate_cons_cons, append_assoc] at h
    obtain ⟨-, h⟩ := htold a mem_cons_self b mem_cons_self _ _ (separator_ends op _).1
      (separator_ends op' _).1 h
    simp only [separator, cons_append, append_assoc, List.cons.injEq, true_and] at h
    exact (ArithOp.symbol_told h).1
  subst hop
  obtain ⟨hoperands, h⟩ := joined_told (separator_ends op) chars_ne_close htold h
  rw [untyped_arith, untyped_arith, hoperands]
  exact ⟨rfl, h⟩

mutual

theorem text_told (a b : Operand) (ha : a.isLegible = true) (hb : b.isLegible = true) : ReadBack a b := by
  intro rest rest' hrest hrest' h
  have hlead : a.lead = b.lead := by
    obtain ⟨c, cs, hc, hca⟩ := a.exists_lead
    obtain ⟨d, ds, hd, hdb⟩ := b.exists_lead
    rw [hc, hd] at h
    rw [← hca, ← hdb, (List.cons.inj h).1]
  cases a with
  | var id =>
    cases b with
    | var id' =>
      obtain ⟨hid, h⟩ := marked_told hrest.1 hrest'.1 h
      exact ⟨congrArg var hid, h⟩
    | compare left op right =>
      rw [chars_compare] at h
      obtain ⟨-, h⟩ := marked_told hrest.1 (noDigit_blank _) h
      exact absurd h (hrest.2 op _)
    | _ => simp [lead] at hlead
  | compare left op right =>
    rw [chars_compare] at h
    cases b with
    | var id =>
      obtain ⟨-, h⟩ := marked_told (noDigit_blank _) hrest'.1 h
      exact absurd h.symm (hrest'.2 op _)
    | compare left' op' right' =>
      rw [chars_compare] at h
      obtain ⟨hleft, h⟩ := marked_told (noDigit_blank _) (noDigit_blank _) h
      obtain ⟨hop, h⟩ := CmpOp.symbol_told (List.cons.inj h).2
      obtain ⟨hright, h⟩ := marked_told hrest.1 hrest'.1 h
      exact ⟨congrArg untyped (congr (congr (congrArg compare hleft) hop) hright), h⟩
    | _ => simp [lead] at hlead
  | int value =>
    cases b with
    | int value' =>
      obtain ⟨hvalue, h⟩ := integer_told hrest.1 hrest'.1 h
      exact ⟨congrArg int hvalue, h⟩
    | _ => simp [lead] at hlead
  | bool value =>
    cases b with
    | bool value' => cases value <;> cases value' <;> simp [chars, text] at h <;> exact ⟨rfl, h⟩
    | _ => simp [lead] at hlead
  | str value =>
    cases b with
    | str value' =>
      obtain ⟨hvalue, h⟩ := Text.quoted_told h
      exact ⟨congrArg str hvalue, h⟩
    | _ => simp [lead] at hlead
  | arith op type operands =>
    cases b with
    | arith op' type' operands' =>
      rw [isLegible, Bool.and_eq_true, decide_eq_true_eq] at ha hb
      have hoperands := each_told operands ha.2
      exact arith_told ha.1 hb.1 (fun a ha b hmem => hoperands a ha b (of_areLegible hb.2 b hmem))
        rest rest' hrest hrest' h
    | _ => simp [lead] at hlead

theorem each_told (as : List Operand) (ha : areLegible as = true) :
    ∀ a ∈ as, ∀ b, b.isLegible = true → ReadBack a b := by
  cases as with
  | nil => exact forall_mem_nil _
  | cons a as =>
    rw [areLegible, Bool.and_eq_true] at ha
    exact forall_mem_cons.2 ⟨fun b hb => text_told a b ha.1 hb, each_told as ha.2⟩

end

end Operand

/-! ## Reading commands -/

/-- A list of variables can be read back from its text. -/
theorem VarId.texts_told {as bs : List VarId}
    (h : (VarId.texts as).toList ++ ')' :: rest = (VarId.texts bs).toList ++ ')' :: rest') :
    as = bs ∧ rest = rest' := by
  simp only [VarId.texts, String.toList_intercalate, map_map] at h
  have htold : ∀ a ∈ as, ∀ b ∈ bs, Told IsEnd (fun id => (VarId.text id).toList) id a b :=
    fun a _ b _ rest rest' hrest hrest' => marked_told hrest.1 hrest'.1
  obtain ⟨hids, h⟩ := joined_told comma_ends (fun a tail tail' => by simp [VarId.text]) htold h
  rw [map_id, map_id] at hids
  exact ⟨hids, h⟩

/-- So can a list of operands. -/
theorem Operand.texts_told {as bs : List Operand} (ha : areLegible as = true)
    (hb : areLegible bs = true)
    (h : (texts as).toList ++ ')' :: rest = (texts bs).toList ++ ')' :: rest') :
    as.map untyped = bs.map untyped ∧ rest = rest' := by
  simp only [texts, String.toList_intercalate, toList_textEach] at h
  exact joined_told comma_ends chars_ne_close
    (fun a hmem b hmem' => text_told a b (of_areLegible ha a hmem) (of_areLegible hb b hmem')) h

theorem Primitive.name_told {a b : Primitive}
    (h : a.name.toList ++ '(' :: rest = b.name.toList ++ '(' :: rest') : a = b ∧ rest = rest' := by
  cases a <;> cases b <;> simp [name] at h ⊢ <;> exact h

namespace Command

/-- Code of the depth ends before the text. -/
def IsOutside (depth : Nat) (rest : List Char) : Prop :=
  rest = [] ∨ ¬ (margin depth).toList <+: rest

theorem isOutside_close (depth : Nat) (rest : List Char) :
    IsOutside (depth + 1) ((margin depth).toList ++ '}' :: rest) := by
  refine Or.inr ?_
  have hmargin : (margin (depth + 1)).toList = (margin depth).toList ++ [' ', ' ', ' ', ' '] := by
    simp only [margin, String.toList_ofList, Nat.mul_succ, ← replicate_append_replicate]
    rfl
  rw [hmargin, prefix_append_right_inj]
  simp

/-- The first character of a command. -/
def lead : Command → Char
  | .assign _ _ _ => '_'
  | .call _ _ _ _ | .native _ _ _ _ => '('
  | .branch _ _ _ _ => 'i'
  | .loop _ _ _ => 'l'
  | .leave _ _ => 'b'

theorem exists_lead (depth : Nat) (rest : List Char) (command : Command) :
    ∃ cs, line depth rest command = command.lead :: cs := by
  cases command <;> simp [line, lead, VarId.text]

theorem IsOutside.ne_textAll {depth : Nat} {rest : List Char} (h : IsOutside depth rest)
    (command : Command) (code : Code) (tail : List Char) :
    rest ≠ (textAll depth (command :: code)).toList ++ tail := by
  rw [textAll, String.toList_append, append_assoc, toList_text]
  obtain ⟨cs, hline⟩ := command.exists_lead depth ((textAll depth code).toList ++ tail)
  rintro rfl
  rcases h with h | h
  · rw [hline] at h
    exact absurd (append_eq_nil_iff.1 h).2 (cons_ne_nil _ _)
  · exact h (prefix_append _ _)

/-- Two pieces of code of one depth can be told apart. -/
def ReadBack (depth : Nat) (as bs : Code) : Prop :=
  Told (IsOutside depth) (fun code => (textAll depth code).toList) bareAll as bs

variable {depth : Nat}

/-- A block ends where its bracket is closed. -/
theorem block_told {as bs : Code} (htold : ReadBack (depth + 1) as bs)
    (h : block depth as rest = block depth bs rest') : bareAll as = bareAll bs ∧ rest = rest' := by
  obtain ⟨hcode, h⟩ := htold _ _ (isOutside_close depth rest) (isOutside_close depth rest') h
  exact ⟨hcode, (List.cons.inj (append_cancel_left h)).2⟩

theorem otherwise_told {as bs : Code} (htold : ReadBack (depth + 1) as bs)
    (h : otherwise depth rest as = otherwise depth rest' bs) : bareAll as = bareAll bs ∧ rest = rest' := by
  cases as with
  | nil =>
    cases bs with
    | nil => exact ⟨rfl, (List.cons.inj h).2⟩
    | cons b bs => simp [otherwise] at h
  | cons a as =>
    cases bs with
    | nil => simp [otherwise] at h
    | cons b bs =>
      simp only [otherwise, List.cons.injEq, true_and] at h
      obtain ⟨hcode, h⟩ := block_told htold h
      exact ⟨hcode, (List.cons.inj h).2⟩

theorem isEnd_open (tail : List Char) : IsEnd (' ' :: '{' :: tail) :=
  ⟨noDigit_blank _, fun op tail' h => by cases op <;> simp [CmpOp.symbol] at h⟩

theorem isEnd_feed (tail : List Char) : IsEnd ('\n' :: tail) :=
  isEnd_cons (by decide) (by decide) tail

mutual

theorem text_told (depth : Nat) (a b : Command) (ha : a.isLegible = true) (hb : b.isLegible = true)
    {rest rest' : List Char} (h : (text depth a).toList ++ rest = (text depth b).toList ++ rest') :
    a.bare = b.bare ∧ rest = rest' := by
  rw [toList_text, toList_text] at h
  replace h := append_cancel_left h
  have hlead : a.lead = b.lead := by
    obtain ⟨cs, hc⟩ := a.exists_lead depth rest
    obtain ⟨ds, hd⟩ := b.exists_lead depth rest'
    rw [hc, hd] at h
    exact (List.cons.inj h).1
  cases a with
  | assign span dest value =>
    cases b with
    | assign span' dest' value' =>
      obtain ⟨hdest, h⟩ := marked_told (noDigit_blank _) (noDigit_blank _) h
      simp only [List.cons.injEq, true_and] at h
      obtain ⟨hvalue, h⟩ := Operand.text_told value value' ha hb _ _ (isEnd_feed _) (isEnd_feed _) h
      rw [bare, bare, hdest, hvalue]
      exact ⟨rfl, (List.cons.inj h).2⟩
    | _ => simp [lead] at hlead
  | call span target inputs outputs =>
    cases b with
    | call span' target' inputs' outputs' =>
      simp only [isLegible, Bool.and_eq_true, Bool.not_eq_true'] at ha hb
      obtain ⟨houtputs, h⟩ := VarId.texts_told (List.cons.inj h).2
      simp only [List.cons.injEq, true_and] at h
      have hplain : ∀ {name : String}, name.toList.contains '(' = false →
          ∀ c ∈ name.toList, (c != '(') = true := by
        intro name hname c hc
        rw [bne_iff_ne]
        rintro rfl
        rw [contains_iff_mem.2 hc] at hname
        cases hname
      obtain ⟨htarget, h⟩ := append_inj_of_head (hplain ha.1) (hplain hb.1) (by simp) (by simp) h
      obtain ⟨hinputs, h⟩ := Operand.texts_told ha.2 hb.2 (List.cons.inj h).2
      rw [bare, bare, houtputs, String.toList_inj.1 htarget, hinputs]
      exact ⟨rfl, (List.cons.inj h).2⟩
    -- Both begin with their outputs; what comes next tells them apart.
    | native =>
      obtain ⟨-, h⟩ := VarId.texts_told (List.cons.inj h).2
      simp at h
    | _ => simp [lead] at hlead
  | native span primitive inputs outputs =>
    cases b with
    | native span' primitive' inputs' outputs' =>
      obtain ⟨houtputs, h⟩ := VarId.texts_told (List.cons.inj h).2
      simp only [List.cons.injEq, true_and] at h
      obtain ⟨hprimitive, h⟩ := Primitive.name_told h
      obtain ⟨hinputs, h⟩ := Operand.texts_told ha hb h
      rw [bare, bare, houtputs, hprimitive, hinputs]
      exact ⟨rfl, (List.cons.inj h).2⟩
    | call =>
      obtain ⟨-, h⟩ := VarId.texts_told (List.cons.inj h).2
      simp at h
    | _ => simp [lead] at hlead
  | branch span test yes no =>
    cases b with
    | branch span' test' yes' no' =>
      simp only [isLegible, Bool.and_eq_true] at ha hb
      simp only [line, List.cons.injEq, true_and] at h
      obtain ⟨htest, h⟩ := Operand.text_told test test' ha.1.1 hb.1.1 _ _ (isEnd_open _) (isEnd_open _) h
      simp only [List.cons.injEq, true_and] at h
      obtain ⟨hyes, h⟩ := block_told (textAll_told (depth + 1) yes yes' ha.1.2 hb.1.2) h
      obtain ⟨hno, h⟩ := otherwise_told (textAll_told (depth + 1) no no' ha.2 hb.2) h
      rw [bare, bare, htest, hyes, hno]
      exact ⟨rfl, h⟩
    | _ => simp [lead] at hlead
  | loop span id body =>
    cases b with
    | loop span' id' body' =>
      simp only [line, List.cons.injEq, true_and] at h
      obtain ⟨hid, h⟩ := marked_told (noDigit_blank _) (noDigit_blank _) h
      simp only [List.cons.injEq, true_and] at h
      obtain ⟨hbody, h⟩ := block_told (textAll_told (depth + 1) body body' ha hb) h
      rw [bare, bare, hid, hbody]
      exact ⟨rfl, (List.cons.inj h).2⟩
    | _ => simp [lead] at hlead
  | leave span id =>
    cases b with
    | leave span' id' =>
      simp only [line, List.cons.injEq, true_and] at h
      obtain ⟨hid, h⟩ := marked_told (isEnd_feed _).1 (isEnd_feed _).1 h
      rw [bare, bare, hid]
      exact ⟨rfl, (List.cons.inj h).2⟩
    | _ => simp [lead] at hlead

theorem textAll_told (depth : Nat) (as bs : List Command) (ha : areLegible as = true)
    (hb : areLegible bs = true) : ReadBack depth as bs := by
  intro rest rest' hrest hrest' h
  dsimp only at h
  cases as with
  | nil =>
    cases bs with
    | nil => exact ⟨rfl, h⟩
    | cons b bs => exact absurd h (hrest.ne_textAll b bs rest')
  | cons a as =>
    cases bs with
    | nil => exact absurd h.symm (hrest'.ne_textAll a as rest)
    | cons b bs =>
      rw [areLegible, Bool.and_eq_true] at ha hb
      simp only [textAll, String.toList_append, append_assoc] at h
      obtain ⟨hab, h⟩ := text_told depth a b ha.1 hb.1 h
      obtain ⟨hcode, h⟩ := textAll_told depth as bs ha.2 hb.2 _ _ hrest hrest' h
      rw [bareAll, bareAll, hab, hcode]
      exact ⟨rfl, h⟩

end

/-- Legible code has the same text, at one depth, exactly if it is the same up to the places that commands
come from and the types of operations. -/
theorem textAll_eq_iff_bareAll_eq (depth : Nat) (as bs : Code) (ha : areLegible as = true)
    (hb : areLegible bs = true) : textAll depth as = textAll depth bs ↔ bareAll as = bareAll bs := by
  constructor
  · intro h
    have hread := textAll_told depth as bs ha hb [] [] (Or.inl rfl) (Or.inl rfl)
    exact (hread (congrArg (fun text => text.toList ++ []) h)).1
  · intro h
    rw [← textAll_bareAll depth as, h, textAll_bareAll]

/-- A loop that compares, computes and calls, at one place and with operations of one type. -/
def countdown (span : Span) (type : TypeId) : Code :=
  [.loop span 3
    [.branch span (.compare 0 .eq 1) [.leave span 3] [],
      .assign span 2 (.arith .sub type [.int (-1), .arith .mul type [.var 2, .int 5]]),
      .call span "next" [.str "say \"two\"", .bool true] [0, 4]]]

theorem textAll_countdown :
    areLegible (countdown ⟨0, 4⟩ 1) = true ∧ areLegible (countdown ⟨7, 9⟩ 3) = true ∧
      textAll 1 (countdown ⟨0, 4⟩ 1) = textAll 1 (countdown ⟨7, 9⟩ 3) ∧
      bareAll (countdown ⟨0, 4⟩ 1) = bareAll (countdown ⟨7, 9⟩ 3) :=
  ⟨rfl, rfl, rfl, (textAll_eq_iff_bareAll_eq 1 _ _ rfl rfl).1 rfl⟩

end Command

end SlotCode
