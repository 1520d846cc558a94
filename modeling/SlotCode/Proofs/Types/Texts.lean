import SlotCode.Proofs.Types.Leaves

/-!
# What the text of a type tells

The text of a type begins with a word that tells its kind (`TypeKind.word`).  The number of commas that
stand outside of all inner brackets tells how many items a tuple has (`length_eq_of_tupled`), provided
that the names of placeholders have no commas and no brackets in them.
-/

namespace SlotCode

open List

/-! ## Commas outside of brackets -/

/-- Counts the commas that stand outside of all brackets.  So many brackets are open before. -/
def commas : Nat → List Char → Nat
  | _, [] => 0
  | depth, c :: cs =>
    if c = '(' then commas (depth + 1) cs
    else if c = ')' then commas (depth - 1) cs
    else if c = ',' ∧ depth = 0 then commas depth cs + 1
    else commas depth cs

/-- Neither a bracket nor a comma. -/
def isPlainChar (c : Char) : Bool :=
  c != '(' && c != ')' && c != ','

/-- No comma of the text counts inside of `depth` brackets, and those that it opens are closed in it. -/
def Neutral (depth : Nat) (cs : List Char) : Prop :=
  ∀ rest d, depth ≤ d → commas d (cs ++ rest) = commas d rest

namespace Neutral

variable {depth : Nat} {cs ds : List Char}

theorem mono {depth' : Nat} (h : Neutral depth cs) (hle : depth ≤ depth') : Neutral depth' cs :=
  fun rest d hd => h rest d (hle.trans hd)

theorem append (hcs : Neutral depth cs) (hds : Neutral depth ds) : Neutral depth (cs ++ ds) := by
  intro rest d hd
  rw [append_assoc, hcs _ d hd, hds rest d hd]

theorem plain (h : cs.all isPlainChar = true) : Neutral 0 cs := by
  intro rest d hd
  induction cs with
  | nil => rfl
  | cons c cs ih =>
    simp only [all_cons, isPlainChar, Bool.and_eq_true, bne_iff_ne] at h
    obtain ⟨⟨⟨hopen, hclose⟩, hcomma⟩, h⟩ := h
    rw [cons_append, commas, if_neg hopen, if_neg hclose, if_neg fun hc => hcomma hc.1]
    exact ih h

theorem bracket (h : Neutral 1 cs) : Neutral 0 ('(' :: cs ++ [')']) := by
  intro rest d _
  simp only [cons_append, append_assoc, nil_append, commas, if_pos]
  rw [h _ (d + 1) (Nat.le_add_left 1 d), commas, if_neg (by decide), if_pos rfl, Nat.add_sub_cancel]

theorem separator : Neutral 1 [',', ' '] := by
  intro rest d hd
  simp [commas, show d ≠ 0 by omega]

theorem intercalate {texts : List (List Char)} (h : ∀ text ∈ texts, Neutral 1 text) :
    Neutral 1 ([',', ' '].intercalate texts) := by
  induction texts with
  | nil => exact fun _ _ _ => rfl
  | cons text texts ih =>
    obtain ⟨htext, h⟩ := forall_mem_cons.1 h
    cases texts with
    | nil => simpa using htext
    | cons next texts =>
      rw [intercalate_cons_cons]
      exact (htext.append separator).append (ih h)

end Neutral

theorem commas_intercalate {texts : List (List Char)} (h : ∀ text ∈ texts, Neutral 0 text) :
    commas 0 ([',', ' '].intercalate texts) = texts.length - 1 := by
  induction texts with
  | nil => rfl
  | cons text texts ih =>
    obtain ⟨htext, h⟩ := forall_mem_cons.1 h
    cases texts with
    | nil => simpa [commas] using htext [] 0 (Nat.le_refl 0)
    | cons next texts =>
      rw [intercalate_cons_cons, append_assoc, htext _ 0 (Nat.le_refl 0)]
      simp [commas, ih h]

/-! ## Texts of tuples -/

/-- A text that can stand for an item. -/
structure IsItemText (text : String) : Prop where
  nonempty : text ≠ ""
  neutral : Neutral 0 text.toList

theorem IsItemText.plain {text : String} (hne : text ≠ "")
    (h : text.toList.all isPlainChar = true) : IsItemText text :=
  ⟨hne, .plain h⟩

theorem IsItemText.append {text text' : String} (h : IsItemText text) (h' : IsItemText text') :
    IsItemText (text ++ text') where
  nonempty := fun hempty => h.nonempty (String.append_eq_empty_iff.1 hempty).1
  neutral := by
    rw [String.toList_append]
    exact h.neutral.append h'.neutral

def tupled (texts : List String) : String :=
  "(" ++ ", ".intercalate texts ++ ")"

theorem toList_tupled (texts : List String) :
    (tupled texts).toList = '(' :: [',', ' '].intercalate (texts.map String.toList) ++ [')'] := by
  simp [tupled]

theorem isItemText_tupled {texts : List String} (h : ∀ text ∈ texts, IsItemText text) :
    IsItemText (tupled texts) where
  nonempty hempty := by
    have hlist := toList_tupled texts
    rw [hempty] at hlist
    cases hlist
  neutral := by
    rw [toList_tupled]
    exact .bracket (.intercalate (forall_mem_map.2 fun text ht => (h text ht).neutral.mono (by decide)))

/-- Tuples of different lengths have different texts. -/
theorem length_eq_of_tupled {texts texts' : List String} (h : ∀ text ∈ texts, IsItemText text)
    (h' : ∀ text ∈ texts', IsItemText text) (heq : tupled texts = tupled texts') :
    texts.length = texts'.length := by
  have hjoined : [',', ' '].intercalate (texts.map String.toList) =
      [',', ' '].intercalate (texts'.map String.toList) := by
    have hlist := congrArg String.toList heq
    rw [toList_tupled, toList_tupled] at hlist
    exact append_cancel_right (List.cons.inj hlist).2
  have hcount := congrArg (commas 0) hjoined
  rw [commas_intercalate (forall_mem_map.2 fun text ht => (h text ht).neutral),
    commas_intercalate (forall_mem_map.2 fun text ht => (h' text ht).neutral),
    length_map, length_map] at hcount
  -- No item and one item have no comma each.
  have hempty : ∀ {us : List String}, (∀ text ∈ us, IsItemText text) →
      [',', ' '].intercalate (us.map String.toList) = [] → us = [] := by
    intro us hus hnil
    cases us with
    | nil => rfl
    | cons text us =>
      have htext : text.toList = [] := by
        cases us with
        | nil => simpa using hnil
        | cons next us => simp [intercalate_cons_cons] at hnil
      exact absurd (String.toList_eq_nil_iff.1 htext) (hus text mem_cons_self).nonempty
  cases texts with
  | nil =>
    rw [hempty h' hjoined.symm]
  | cons text texts =>
    cases texts' with
    | nil => cases hempty h hjoined
    | cons text' texts' => simpa using hcount

/-! ## Texts of types -/

/-- The word that the text of a type begins with.  It ends at the first bracket. -/
def TypeKind.word : TypeKind → String
  | .void => "void"
  | .integer => "Integer"
  | .boolean => "Boolean"
  | .string => "String"
  | .tuple _ | .function _ _ _ => ""
  | .box _ => "Box"
  | .list _ _ => "List"
  | .placeholder _ => "GenericBox"

def firstWord (text : String) : List Char :=
  text.toList.takeWhile fun c => c ≠ '(' && c ≠ '<'

/-- The texts of types that are no functions, with those of the parts as `shown` has them. -/
inductive TypeKind.Shown (shown : TypeId → String → Prop) : TypeKind → String → Prop where
  | void : Shown shown .void "void"
  | integer : Shown shown .integer "Integer"
  | boolean : Shown shown .boolean "Boolean"
  | string : Shown shown .string "String"
  | tuple {items : List TypeId} {texts : List String} (h : List.Forall₂ shown items texts) :
      Shown shown (.tuple items) (tupled texts)
  | box {payload : TypeId} {text : String} (h : shown payload text) :
      Shown shown (.box payload) ("Box" ++ tupled [text])
  | list {item payload : TypeId} {text : String} (h : shown item text) :
      Shown shown (.list item payload) ("List" ++ tupled [text])
  | placeholder (name : String) : Shown shown (.placeholder name) ("GenericBox<" ++ name ++ ">")

variable {kind : TypeKind} {text : String}

theorem headed_eq (word text : String) : word ++ tupled [text] = word ++ "(" ++ text ++ ")" := by
  simp [tupled, String.append_assoc]

theorem TypeKind.Shown.firstWord_eq {shown : TypeId → String → Prop} (h : kind.Shown shown text) :
    firstWord text = kind.word.toList := by
  cases h <;> simp [firstWord, TypeKind.word, tupled]

namespace TypeGraph

variable {g : TypeGraph} {id : TypeId} {fuel : Nat}

theorem textWithin_shown (hk : g.kind id = .ok kind) (hvalue : kind.isFunction = false)
    (h : g.textWithin (fuel + 1) id = .ok text) :
    kind.Shown (fun part text => g.textWithin fuel part = .ok text) text := by
  simp only [textWithin, hk, bind, Except.bind] at h
  cases kind with
  | void | integer | boolean | string =>
    cases h
    constructor
  | tuple items =>
    dsimp only at h
    cases htexts : items.mapM (g.textWithin fuel) with
    | error fault =>
      rw [htexts] at h
      cases h
    | ok texts =>
      rw [htexts] at h
      cases h
      exact .tuple (mapM_eq_ok_iff.1 htexts)
  | box payload =>
    dsimp only at h
    cases htext : g.textWithin fuel payload with
    | error fault =>
      rw [htext] at h
      cases h
    | ok text =>
      rw [htext] at h
      cases h
      exact headed_eq "Box" text ▸ .box htext
  | list item payload =>
    dsimp only at h
    cases htext : g.textWithin fuel item with
    | error fault =>
      rw [htext] at h
      cases h
    | ok text =>
      rw [htext] at h
      cases h
      exact headed_eq "List" text ▸ .list htext
  | placeholder name =>
    cases h
    exact .placeholder name
  | function => cases hvalue

end TypeGraph

end SlotCode
