import SlotCode.Proofs.Types.Additions
import SlotCode.Proofs.Types.Substitution
import SlotCode.Proofs.Types.Texts

/-!
# Types that differ in their texts

Two types of values that differ right away, and not only in their parts, have different texts
(`text_ne`).  That needs a *legible* graph: no unit type has a second node, and the name of a placeholder
contains no bracket and no comma.  So an error of matching shows two different texts.

Whatever adds to a graph keeps it legible, if the names that are written are plain.
-/

namespace SlotCode

open List

/-- The name contains no bracket and no comma. -/
def IsPlainName (name : String) : Prop :=
  ∀ c ∈ name.toList, c ∉ ['<', '>', '(', ')', ',']

theorem isPlainName_iff {name : String} :
    (name.toList.all fun c => !(['<', '>', '(', ')', ','].contains c)) = true ↔ IsPlainName name := by
  simp [IsPlainName]

instance : DecidablePred IsPlainName := fun _ =>
  decidable_of_iff _ isPlainName_iff

theorem IsPlainName.all_isPlainChar {name : String} (h : IsPlainName name) :
    name.toList.all isPlainChar = true := by
  refine all_eq_true.2 fun c hc => ?_
  have hplain := h c hc
  simp only [mem_cons, not_or] at hplain
  obtain ⟨-, -, hopen, hclose, hcomma, -⟩ := hplain
  simp [isPlainChar, hopen, hclose, hcomma]

mutual

/-- The names of the placeholders that are written. -/
def TypeExpr.placeholders : TypeExpr → List String
  | .void _ | .integer _ | .boolean _ | .string _ => []
  | .tuple _ items => TypeExpr.placeholdersAll items
  | .box _ part | .list _ part => part.placeholders
  | .placeholder _ name => [name]

def TypeExpr.placeholdersAll : List TypeExpr → List String
  | [] => []
  | type :: types => type.placeholders ++ TypeExpr.placeholdersAll types

end

theorem TypeExpr.forall_placeholdersAll {types : List TypeExpr} {P : String → Prop} :
    (∀ name ∈ TypeExpr.placeholdersAll types, P name) ↔
      ∀ type ∈ types, ∀ name ∈ type.placeholders, P name := by
  induction types with
  | nil => simp [placeholdersAll]
  | cons type types ih => rw [placeholdersAll, forall_mem_append, ih, forall_mem_cons]

/-- A node of the kind can have the number in a legible graph. -/
def TypeKind.LegibleAt (id : TypeId) : TypeKind → Prop
  | .placeholder name => IsPlainName name
  | kind => kind.isBase = true → id < 4

theorem TypeKind.legibleAt_of_compound {kind : TypeKind} (h : kind.isCompound = true) (id : TypeId) :
    kind.LegibleAt id := by
  cases kind with
  | tuple | box | list | function => rintro ⟨⟩
  | _ => cases h

/-- Kinds with the same word have the same constructor, but for boxes and lists. -/
theorem TypeKind.cases_of_word {k k' : TypeKind} (hk : k.isFunction = false) (hk' : k'.isFunction = false)
    (h : k.word = k'.word) :
    (k = k' ∧ k.isBase = true) ∨ (∃ items items', k = .tuple items ∧ k' = .tuple items') ∨
      (∃ p q, k.payload? = some p ∧ k'.payload? = some q) ∨
      ∃ name name', k = .placeholder name ∧ k' = .placeholder name' := by
  cases k <;> cases k' <;> simp_all [word, isBase, isFunction, payload?]

namespace TypeGraph

variable {g : TypeGraph} {id e a : TypeId} {kind : TypeKind} {opens : TypeId → Prop} {fuel : Nat}
  {text expected found : String} {error : TypeError} {sp sp' : Span}

/-- All nodes are legible, up to those that are open. -/
def LegibleBut (opens : TypeId → Prop) (g : TypeGraph) : Prop :=
  ∀ id kind, g.kind id = .ok kind → opens id ∨ kind.LegibleAt id

abbrev Legible (g : TypeGraph) : Prop :=
  g.LegibleBut fun _ => False

theorem Legible.node (h : g.Legible) (hk : g.kind id = .ok kind) : kind.LegibleAt id :=
  (h id kind hk).resolve_left not_false

def unitKinds : List TypeKind :=
  [.void, .integer, .boolean, .string]

/-- A unit type has one node. -/
theorem Legible.unit_unique (hl : g.Legible) (hg : g.Regular) (he : g.kind e = .ok kind)
    (ha : g.kind a = .ok kind) (hbase : kind.isBase = true) : e = a := by
  have hnumber : ∀ id, g.kind id = .ok kind → id < 4 := by
    intro id hk
    have hnode := hl.node hk
    cases kind with
    | placeholder => cases hbase
    | _ => exact hnode hbase
  have hlisted : ∀ id : Nat, g.kind id = .ok kind → unitKinds[id]? = some kind := by
    intro id hk
    have hlt : id < 4 := hnumber id hk
    obtain rfl | rfl | rfl | rfl : id = 0 ∨ id = 1 ∨ id = 2 ∨ id = 3 := by omega
    · exact congrArg some (kind_unique hg.void hk)
    · exact congrArg some (kind_unique hg.integer hk)
    · exact congrArg some (kind_unique hg.boolean hk)
    · exact congrArg some (kind_unique hg.string hk)
  exact (getElem?_inj (hnumber e he) (by decide)).1 ((hlisted e he).trans (hlisted a ha).symm)

/-! ## Texts of values -/

theorem textWithin_isItemText (hg : g.Regular) (hl : g.Legible) (hv : g.IsValue id)
    (h : g.textWithin fuel id = .ok text) : IsItemText text := by
  induction fuel generalizing id text with
  | zero => cases h
  | succ fuel ih =>
    obtain ⟨kind, hk, hvalue⟩ := hv
    have hpart : ∀ part ∈ kind.parts, ∀ text, g.textWithin fuel part = .ok text → IsItemText text :=
      fun part hp text => ih (hg.parts id part ⟨kind, hk, hp⟩)
    have htupled : ∀ items texts, items ⊆ kind.parts →
        Forall₂ (fun part text => g.textWithin fuel part = .ok text) items texts →
        IsItemText (tupled texts) :=
      fun items texts hsub htexts => isItemText_tupled
        (forall_of_forall₂ htexts fun item hitem => hpart item (hsub hitem))
    cases textWithin_shown hk hvalue h with
    | void | integer | boolean | string => exact .plain (by decide) (by decide)
    | tuple htexts => exact htupled _ _ (Subset.refl _) htexts
    | box htext =>
      exact (IsItemText.plain (by decide) (by decide)).append
        (htupled _ _ (Subset.refl _) (.cons htext .nil))
    | list htext =>
      exact (IsItemText.plain (by decide) (by decide)).append
        (htupled _ _ (cons_subset_cons _ (nil_subset _)) (.cons htext .nil))
    | placeholder name =>
      have hname : IsPlainName name := hl.node hk
      refine ⟨by simp, ?_⟩
      rw [String.toList_append, String.toList_append]
      exact ((Neutral.plain (by decide)).append (.plain hname.all_isPlainChar)).append (.plain (by decide))

/-- The texts of the items of a tuple. -/
theorem forall_isItemText (hg : g.Regular) (hl : g.Legible) {items : List TypeId} {texts : List String}
    (hk : g.kind id = .ok (.tuple items))
    (h : Forall₂ (fun part text => g.textWithin fuel part = .ok text) items texts) :
    ∀ text ∈ texts, IsItemText text :=
  forall_of_forall₂ h fun item hitem _ => textWithin_isItemText hg hl (hg.parts id item ⟨_, hk, hitem⟩)

/-- Types that differ right away have different texts. -/
theorem text_ne (hg : g.Regular) (hl : g.Legible) (he : g.IsValue e) (ha : g.IsValue a)
    (hexpected : g.text e = .ok expected) (hfound : g.text a = .ok found)
    (h : ∀ R, ¬ g.Agree false R e a) : expected ≠ found := by
  intro heq
  obtain ⟨ke, hke, hve⟩ := he
  obtain ⟨ka, hka, hva⟩ := ha
  have hse := textWithin_shown hke hve hexpected
  have hsa := textWithin_shown hka hva hfound
  have hword : ke.word = ka.word :=
    String.toList_inj.1 (hse.firstWord_eq.symm.trans (heq ▸ hsa.firstWord_eq))
  apply h fun _ _ => True
  rcases TypeKind.cases_of_word hve hva hword with
    ⟨rfl, hbase⟩ | ⟨items, items', rfl, rfl⟩ | ⟨p, q, hp, hq⟩ | ⟨name, name', rfl, rfl⟩
  · exact hl.unit_unique hg hke hka hbase ▸ .same e
  · cases hse with | tuple htexts =>
    cases hsa with | tuple htexts' =>
    have hlen := length_eq_of_tupled (forall_isItemText hg hl hke htexts)
      (forall_isItemText hg hl hka htexts') heq
    refine .tuple hke hka (forall₂_iff_zip.2 ⟨?_, fun _ => trivial⟩)
    rw [htexts.length_eq, hlen, htexts'.length_eq]
  · exact .box hke hka hp hq trivial
  · cases hse
    cases hsa
    have hname : name = name' := by simpa using heq
    exact .placeholder hke (hname ▸ hka)

/-- The text of a tuple tells how many items it has. -/
theorem tupled_ne_text (hg : g.Regular) (hl : g.Legible) (ha : g.IsValue a) (hfound : g.text a = .ok found)
    {texts : List String} (htexts : ∀ text ∈ texts, IsItemText text)
    (h : ∀ items, g.kind a = .ok (.tuple items) → items.length ≠ texts.length) : tupled texts ≠ found := by
  intro heq
  obtain ⟨ka, hka, hva⟩ := ha
  have hsa := textWithin_shown hka hva hfound
  have hword : ka.word = "" := by
    rw [← String.toList_inj, ← hsa.firstWord_eq, ← heq]
    simp [firstWord, tupled]
  cases hsa with
  | tuple hshown =>
    apply h _ hka
    rw [hshown.length_eq]
    exact (length_eq_of_tupled htexts (forall_isItemText hg hl hka hshown) heq).symm
  | _ => simp [TypeKind.word] at hword

/-! ## Errors of matching -/

/-- The error shows two texts, which are different ones if the graph is legible. -/
def Tells (g : TypeGraph) (error : TypeError) : Prop :=
  ∃ expected found, error.texts? = some (expected, found) ∧ (g.Legible → expected ≠ found)

theorem Contrasts.tells (hg : g.Regular) (he : g.IsValue e) (ha : g.IsValue a)
    (hcontrasts : g.Contrasts e a error) (h : ∀ R, ¬ g.Agree false R e a) : g.Tells error := by
  obtain ⟨expected, found, htexts, hexpected, hfound⟩ := hcontrasts
  exact ⟨expected, found, htexts, fun hl => text_ne hg hl he ha hexpected hfound h⟩

theorem Agree.free {R : TypeId → TypeId → Prop} {free : Bool} (h : g.Agree false R e a) :
    g.Agree free R e a := by
  cases h with
  | same => exact .same e
  | tuple he ha h => exact .tuple he ha h
  | box he ha hp hq h => exact .box he ha hp hq h
  | placeholder he ha => exact .placeholder he ha
  | bound hfree => cases hfree

theorem matchWithin_tells (hg : g.Regular) {state after : Matching} (he : g.IsValue e) (ha : g.IsValue a)
    (h : g.matchWithin fuel e a sp sp' state = .error (.error error) after) : g.Tells error := by
  induction fuel generalizing e a sp sp' state with
  | zero => cases h
  | succ fuel ih =>
    have hstep := matchWithin_step hg.toSound fuel he.lt_size ha.lt_size sp sp' state
    generalize g.matchWithin (fuel + 1) e a sp sp' state = r at hstep h
    cases hstep with
    | same | bind | entered | placeholder => cases h
    | mismatch herror hdiffer =>
      cases h
      exact herror.tells hg he ha fun R hagree => hdiffer R hagree.free
    | tuple hke hka hlen =>
      obtain ⟨p, q, s, hpq, hs, hrun⟩ := matchItems_error hg.toSound hke hka fuel _ _ h
      obtain ⟨hp, hq⟩ := part_of_mem_zip hke hka hpq
      exact ih (hg.parts _ _ hp) (hg.parts _ _ hq) hrun
    | box hke hka hp hq hmem =>
      exact ih (hg.parts _ _ (.payload hke hp))
        (hg.parts _ _ (.payload hka hq)) h

theorem matchTypes_tells (hg : g.Regular) (he : g.IsValue e) (ha : g.IsValue a)
    {bindings after : Option Bindings}
    (h : g.matchTypes (some e) a sp sp' bindings = .error (.error error) after) : g.Tells error := by
  simp only [matchTypes] at h
  split at h
  · cases h
  · next hrun =>
    cases h
    exact matchWithin_tells hg he ha hrun

/-! ## What keeps a graph legible -/

theorem LegibleBut.add (h : g.LegibleBut opens) (hkind : kind.LegibleAt g.size) (origin : Option Span) :
    (g.add kind origin).2.LegibleBut opens := by
  intro id k hk
  rw [kind_add] at hk
  split at hk
  · next heq =>
    cases hk
    exact .inr (heq ▸ hkind)
  · exact h id k hk

theorem legibleBut_invariant : Instantiation.Invariant LegibleBut where
  add origin hkind h := h.add (TypeKind.legibleAt_of_compound hkind _) origin
  take origin h id k hk := by
    rw [kind_add] at hk
    split at hk
    · next heq => exact .inl (.inr heq)
    · exact (h id k hk).imp_left .inl
  finish hkind h id k hk := by
    obtain ⟨node, hnode, rfl⟩ := kind_eq_ok_iff.1 hk
    rw [node_setKind] at hnode
    split at hnode
    · simp only [Except.map] at hnode
      split at hnode <;> cases hnode
      exact .inr (TypeKind.legibleAt_of_compound hkind id)
    · next hne =>
      refine (h id node.kind (kind_eq_ok_iff.2 ⟨node, hnode, rfl⟩)).imp_left fun hopen => ?_
      exact hopen.resolve_right hne

theorem LegibleBut.addList (h : g.LegibleBut opens) (item : TypeId) (origin : Option Span) :
    (g.addList item origin).2.LegibleBut opens :=
  legibleBut_invariant.finish rfl
    (legibleBut_invariant.add origin rfl (legibleBut_invariant.take origin h))

mutual

theorem Legible.resolve {g : TypeGraph} (h : g.Legible) (type : TypeExpr)
    (hnames : ∀ name ∈ type.placeholders, IsPlainName name) : (g.resolve type).2.Legible := by
  cases type with
  | void | integer | boolean | string => exact h
  | tuple span items => exact (h.resolveAll items hnames).add (by rintro ⟨⟩) _
  | box span payload => exact (h.resolve payload hnames).add (by rintro ⟨⟩) _
  | list span item => exact (h.resolve item hnames).addList _ _
  | placeholder span name =>
    have hname : TypeKind.LegibleAt g.size (.placeholder name) := hnames name mem_cons_self
    exact LegibleBut.add h hname _

theorem Legible.resolveAll {g : TypeGraph} (h : g.Legible) (types : List TypeExpr)
    (hnames : ∀ name ∈ TypeExpr.placeholdersAll types, IsPlainName name) :
    (g.resolveAll types).2.Legible := by
  cases types with
  | nil => exact h
  | cons type types =>
    obtain ⟨htype, htypes⟩ := forall_mem_append.1 hnames
    exact (h.resolve type htype).resolveAll types htypes

end

theorem legible_initial : initial.Legible := by
  intro (id : Nat) kind hk
  have hlt : id < 4 := lt_size_of_kind hk
  refine .inr ?_
  obtain rfl | rfl | rfl | rfl : id = 0 ∨ id = 1 ∨ id = 2 ∨ id = 3 := by omega
  · exact kind_unique regular_initial.void hk ▸ fun _ => hlt
  · exact kind_unique regular_initial.integer hk ▸ fun _ => hlt
  · exact kind_unique regular_initial.boolean hk ▸ fun _ => hlt
  · exact kind_unique regular_initial.string hk ▸ fun _ => hlt

end TypeGraph

end SlotCode
