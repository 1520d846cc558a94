import SlotCode.Proofs.Code.Jumps
import SlotCode.Proofs.Code.Typing

/-!
# Sections of code

The *sections* of code are the lists of commands in it: the code itself, the branches of its
conditionals and the bodies of its loops, at any depth.  What comes right before a command is said
within its section.

In bracketed code whose loops have different numbers, a loop is left from sections of its body only
(`Code.BeforeLeaves.of_body`).
-/

namespace SlotCode

open List Command

variable {code : Code} {id : LoopId}

mutual

/-- The code inside a command, at any depth. -/
def Command.bodies : Command → List Code
  | .assign _ _ _ | .call _ _ _ _ | .native _ _ _ _ | .leave _ _ => []
  | .branch _ _ yes no => (yes :: Command.bodiesAll yes) ++ (no :: Command.bodiesAll no)
  | .loop _ _ body => body :: Command.bodiesAll body

def Command.bodiesAll : List Command → List Code
  | [] => []
  | command :: rest => command.bodies ++ Command.bodiesAll rest

end

namespace Code

def sections (code : Code) : List Code :=
  code :: Command.bodiesAll code

theorem bodiesAll_append (a b : Code) :
    bodiesAll (a ++ b) = bodiesAll a ++ bodiesAll b := by
  induction a with
  | nil => rfl
  | cons c a ih => rw [cons_append, bodiesAll, bodiesAll, ih, append_assoc]

theorem bodiesAll_of_plain (h : ∀ c ∈ code, c.isPlain = true) : bodiesAll code = [] := by
  induction code with
  | nil => rfl
  | cons c code ih =>
    obtain ⟨hc, hrest⟩ := forall_mem_cons.1 h
    rw [bodiesAll, ih hrest, append_nil]
    cases c with
    | assign | call | native => rfl
    | branch | loop | leave => cases hc

/-! ## What comes before a `leave` -/

/-- Whatever comes before a `leave`, within its section, has the property. -/
def BeforeLeaves (P : Code → LoopId → Prop) (code : Code) : Prop :=
  ∀ part ∈ code.sections, ∀ before span id after, part = before ++ .leave span id :: after → P before id

namespace BeforeLeaves

variable {P Q : Code → LoopId → Prop} {a b : Code}

theorem imp (himp : ∀ before id, P before id → Q before id) (h : BeforeLeaves P a) : BeforeLeaves Q a :=
  fun part hpart before span id after heq => himp before id (h part hpart before span id after heq)

theorem of_plain (h : ∀ c ∈ a, c.isPlain = true) : BeforeLeaves P a := by
  intro part hpart before span id after heq
  rw [sections, bodiesAll_of_plain h] at hpart
  cases mem_singleton.1 hpart
  cases h (.leave span id) (heq ▸ mem_append_right _ mem_cons_self)

/-- Code that only moves data, and then a `leave`. -/
theorem leave (h : ∀ c ∈ a, c.isPlain = true) (hP : P a id) (span : Span) :
    BeforeLeaves P (a ++ [.leave span id]) := by
  intro part hpart before span' id' after heq
  rw [sections, bodiesAll_append, bodiesAll_of_plain h] at hpart
  cases mem_singleton.1 hpart
  rcases append_eq_append_iff.1 heq with ⟨rest, rfl, hrest⟩ | ⟨rest, ha, hrest⟩
  · cases rest with
    | nil =>
      cases hrest
      rwa [append_nil]
    | cons c rest => cases rest <;> cases hrest
  · cases rest with
    | nil =>
      cases hrest
      rw [append_nil] at ha
      exact ha ▸ hP
    | cons c rest =>
      cases hrest
      cases h (.leave span' id') (ha ▸ mem_append_right _ mem_cons_self)

/-- The property has to hold also after more code. -/
theorem append (hP : ∀ first before id, P before id → P (first ++ before) id) (ha : BeforeLeaves P a)
    (hb : BeforeLeaves P b) : BeforeLeaves P (a ++ b) := by
  intro part hpart before span id after heq
  rw [sections, bodiesAll_append, mem_cons, mem_append] at hpart
  rcases hpart with rfl | hpart | hpart
  · rcases append_eq_append_iff.1 heq with ⟨rest, rfl, hrest⟩ | ⟨rest, hrest, htail⟩
    · exact hP a rest id (hb b mem_cons_self rest span id after hrest)
    · cases rest with
      | nil =>
        rw [append_nil] at hrest
        have hnil := hb b mem_cons_self [] span id after htail.symm
        rw [← hrest, ← append_nil a]
        exact hP a [] id hnil
      | cons c rest =>
        cases htail
        exact ha a mem_cons_self before span id rest hrest
  · exact ha part (mem_cons_of_mem _ hpart) before span id after heq
  · exact hb part (mem_cons_of_mem _ hpart) before span id after heq

theorem branch (ha : BeforeLeaves P a) (hb : BeforeLeaves P b) (span : Span) (test : Operand) :
    BeforeLeaves P [.branch span test a b] := by
  intro part hpart before span' id after heq
  rcases mem_cons.1 hpart with rfl | hpart
  · cases before with
    | nil => cases heq
    | cons c before => cases before <;> cases heq
  · rw [bodiesAll, bodiesAll, append_nil, bodies, mem_append] at hpart
    exact hpart.elim (ha part · before span' id after heq) (hb part · before span' id after heq)

theorem loop (ha : BeforeLeaves P a) (span : Span) (id : LoopId) : BeforeLeaves P [.loop span id a] := by
  intro part hpart before span' id' after heq
  rcases mem_cons.1 hpart with rfl | hpart
  · cases before with
    | nil => cases heq
    | cons c before => cases before <;> cases heq
  · rw [bodiesAll, bodiesAll, append_nil, bodies] at hpart
    exact ha part hpart before span' id' after heq

end BeforeLeaves

/-! ## Where a loop is left -/

/-- A `leave` that is not inside a loop of the code leaves a loop around the code. -/
theorem mem_of_bracketed {ids : List LoopId} (h : allBracketed ids code = true)
    {span : Span} (hmem : .leave span id ∈ code) : id ∈ ids := by
  induction code with
  | nil => cases hmem
  | cons c code ih =>
    rw [allBracketed, Bool.and_eq_true] at h
    rcases mem_cons.1 hmem with rfl | hmem
    · exact contains_iff_mem.1 h.1
    · exact ih h.2 hmem

end Code

mutual

theorem Command.section_of_leave {ids : List LoopId} (c : Command) (h : c.bracketed ids = true)
    {part : Code} (hpart : part ∈ c.bodies) {span : Span} {id : LoopId} (hleave : .leave span id ∈ part) :
    id ∈ ids ∨ ∃ sp body, .loop sp id body ∈ c.nested ∧ part ∈ Code.sections body := by
  cases c with
  | assign | call | native | leave => cases hpart
  | branch sp test yes no =>
    rw [bracketed, Bool.and_eq_true] at h
    rw [nested]
    rcases mem_append.1 hpart with hpart | hpart
    · rcases Code.section_of_leave yes h.1 hpart hleave with hid | ⟨sp', body, hloop, hbody⟩
      · exact .inl hid
      · exact .inr ⟨sp', body, mem_cons_of_mem _ (mem_append_left _ hloop), hbody⟩
    · rcases Code.section_of_leave no h.2 hpart hleave with hid | ⟨sp', body, hloop, hbody⟩
      · exact .inl hid
      · exact .inr ⟨sp', body, mem_cons_of_mem _ (mem_append_right _ hloop), hbody⟩
  | loop sp other body =>
    rw [nested]
    rcases Code.section_of_leave body h hpart hleave with hid | ⟨sp', inner, hloop, hinner⟩
    · rcases mem_cons.1 hid with rfl | hid
      · exact .inr ⟨sp, body, mem_cons_self, hpart⟩
      · exact .inl hid
    · exact .inr ⟨sp', inner, mem_cons_of_mem _ hloop, hinner⟩

/-- A `leave` in bracketed code is in a section of the body of a loop with its number, or that number is
among `ids`. -/
theorem Code.section_of_leave {ids : List LoopId} (code : List Command)
    (h : allBracketed ids code = true) {part : Code} (hpart : part ∈ Code.sections code)
    {span : Span} {id : LoopId} (hleave : .leave span id ∈ part) :
    id ∈ ids ∨ ∃ sp body, .loop sp id body ∈ nestedAll code ∧ part ∈ Code.sections body := by
  cases code with
  | nil =>
    cases mem_singleton.1 hpart
    cases hleave
  | cons c rest =>
    rw [Code.sections, bodiesAll, mem_cons, mem_append] at hpart
    rcases hpart with rfl | hpart | hpart
    · exact .inl (Code.mem_of_bracketed h hleave)
    · rw [allBracketed, Bool.and_eq_true] at h
      rcases Command.section_of_leave c h.1 hpart hleave with hid | ⟨sp, body, hloop, hbody⟩
      · exact .inl hid
      · exact .inr ⟨sp, body, mem_append_left _ hloop, hbody⟩
    · rw [allBracketed, Bool.and_eq_true] at h
      have hrest : part ∈ Code.sections rest := mem_cons_of_mem _ hpart
      rcases Code.section_of_leave rest h.2 hrest hleave with hid | ⟨sp, body, hloop, hbody⟩
      · exact .inl hid
      · exact .inr ⟨sp, body, mem_append_right _ hloop, hbody⟩

end

/-- The number of a loop. -/
def Command.loopId? : Command → Option LoopId
  | .loop _ id _ => some id
  | _ => none

mutual

theorem Command.loopIds_eq (c : Command) : c.loopIds = c.nested.filterMap loopId? := by
  cases c with
  | assign | call | native | leave => rfl
  | branch span test yes no =>
    rw [loopIds, loopIdsAll_eq yes, loopIdsAll_eq no, ← filterMap_append]
    rfl
  | loop span id body =>
    rw [loopIds, loopIdsAll_eq body]
    rfl

theorem Command.loopIdsAll_eq (code : List Command) :
    loopIdsAll code = (nestedAll code).filterMap loopId? := by
  cases code with
  | nil => rfl
  | cons c rest =>
    rw [loopIdsAll, loopIds_eq c, loopIdsAll_eq rest, ← filterMap_append]
    rfl

end

/-- Loops with different numbers are told apart by them. -/
theorem Command.eq_of_loopId? {commands : List Command}
    (h : (commands.filterMap loopId?).Nodup) {c d : Command} (hc : c ∈ commands)
    (hd : d ∈ commands) (hcid : c.loopId? = some id) (hdid : d.loopId? = some id) : c = d := by
  induction commands with
  | nil => cases hc
  | cons e rest ih =>
    have hother : ∀ {c : Command}, c ∈ rest → c.loopId? = some id → e.loopId? ≠ some id := by
      intro c hc hcid heid
      rw [filterMap_cons_some heid, nodup_cons] at h
      exact h.1 (mem_filterMap.2 ⟨c, hc, hcid⟩)
    rcases mem_cons.1 hc with rfl | hcrest
    · rcases mem_cons.1 hd with rfl | hdrest
      · rfl
      · exact absurd hcid (hother hdrest hdid)
    · rcases mem_cons.1 hd with rfl | hdrest
      · exact absurd hdid (hother hcrest hcid)
      · exact ih (h.sublist ((sublist_cons_self e rest).filterMap _)) hcrest hdrest

/-- A loop of bracketed code, whose loops have different numbers, is left from its body only. -/
theorem Code.BeforeLeaves.of_body {P : Code → Prop} {body : Code} {span : Span}
    (hbracketed : allBracketed [] code = true) (hnodup : (loopIdsAll code).Nodup)
    (hloop : .loop span id body ∈ nestedAll code)
    (h : body.BeforeLeaves fun before other => other = id → P before) :
    code.BeforeLeaves fun before other => other = id → P before := by
  rintro part hpart before span' other after heq rfl
  have hleave : .leave span' other ∈ part := heq ▸ mem_append_right _ mem_cons_self
  rcases Code.section_of_leave code hbracketed hpart hleave with hid | ⟨sp, inner, hinner, hpart⟩
  · cases hid
  · rw [loopIdsAll_eq] at hnodup
    cases eq_of_loopId? hnodup hloop hinner rfl rfl
    exact h part hpart before span' other after heq rfl

end SlotCode
