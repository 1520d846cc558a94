import SlotCode.Proofs.Code.Jumps
import SlotCode.Proofs.Code.Typing

/-!
# Code that reads what it has written

An execution of code is followed here only as to where it is and what it has written
(`Point.Step`).  Conditions may turn out either way, so every execution of the code is among these.

Whether code reads only what it has written is said by a judgement on the code itself
(`Code.Assigns`).  It is sound: no execution of such code gets to a command that reads anything else
(`Code.Assigns.reaches`).
-/

namespace SlotCode

open List

namespace Command

/-- The variables that a command reads by itself. -/
def reads : Command → List VarId
  | .assign _ _ value => value.reads
  | .call _ _ inputs _ | .native _ _ inputs _ => Operand.readsAll inputs
  | .branch _ test _ _ => test.reads
  | .loop _ _ _ | .leave _ _ => []

end Command

/-! ## Executions -/

/-- What is run after the code at hand has ended. -/
inductive Pending where
  | rest (code : Code)
  /-- The body of a loop is run again; `after` comes after the loop. -/
  | again (id : LoopId) (body after : Code)

/-- Where an execution is: the code at hand, what comes after it, innermost first, and the variables
that have been written. -/
structure Point where
  code : Code
  pending : List Pending
  written : List VarId

/-- What comes after the innermost loop with that number. -/
def unwind (id : LoopId) : List Pending → Option (Code × List Pending)
  | [] => none
  | .rest _ :: pending => unwind id pending
  | .again other _ after :: pending => if other = id then some (after, pending) else unwind id pending

inductive Point.Step : Point → Point → Prop where
  | plain {c : Command} {rest : Code} {pending : List Pending} {written : List VarId}
      (h : c.isPlain = true) : Step ⟨c :: rest, pending, written⟩ ⟨rest, pending, c.writes ++ written⟩
  | yes {span : Span} {test : Operand} {yes no rest : Code} {pending : List Pending}
      {written : List VarId} :
      Step ⟨.branch span test yes no :: rest, pending, written⟩ ⟨yes, .rest rest :: pending, written⟩
  | no {span : Span} {test : Operand} {yes no rest : Code} {pending : List Pending}
      {written : List VarId} :
      Step ⟨.branch span test yes no :: rest, pending, written⟩ ⟨no, .rest rest :: pending, written⟩
  | loop {span : Span} {id : LoopId} {body rest : Code} {pending : List Pending}
      {written : List VarId} :
      Step ⟨.loop span id body :: rest, pending, written⟩ ⟨body, .again id body rest :: pending, written⟩
  | leave {span : Span} {id : LoopId} {rest after : Code} {pending outer : List Pending}
      {written : List VarId} (h : unwind id pending = some (after, outer)) :
      Step ⟨.leave span id :: rest, pending, written⟩ ⟨after, outer, written⟩
  | resume {code : Code} {pending : List Pending} {written : List VarId} :
      Step ⟨[], .rest code :: pending, written⟩ ⟨code, pending, written⟩
  | again {id : LoopId} {body after : Code} {pending : List Pending} {written : List VarId} :
      Step ⟨[], .again id body after :: pending, written⟩
        ⟨body, .again id body after :: pending, written⟩

/-- The points that executions get to. -/
def Point.Reaches : Point → Point → Prop :=
  Relation.ReflTransGen Point.Step

/-! ## Judgement -/

/-- What code around it promises to a piece of code. -/
structure Plan where
  /-- The variables that may be stored into. -/
  stores : Set VarId
  /-- What has been written whenever a loop is left. -/
  left : LoopId → Set VarId

/-- The plan for the body of a loop. -/
def Plan.within (P : Plan) (id : LoopId) (C : Set VarId) : Plan :=
  { P with left := Function.update P.left id C }

theorem Plan.left_within_self (P : Plan) (id : LoopId) (C : Set VarId) : (P.within id C).left id = C :=
  Function.update_self _ _ _

theorem Plan.left_within_of_ne (P : Plan) {id other : LoopId} (h : other ≠ id) (C : Set VarId) :
    (P.within id C).left other = P.left other :=
  Function.update_of_ne h _ _

namespace Code

/-- From where `A` has been written, the code reads nothing but that and what it has written itself, and
`B` has been written where it ends. -/
inductive Assigns : Plan → Set VarId → Code → Set VarId → Prop where
  | nil {P : Plan} {A B : Set VarId} (h : B ⊆ A) : Assigns P A [] B
  | plain {P : Plan} {A B : Set VarId} {c : Command} {rest : Code} (hc : c.isPlain = true)
      (hreads : ∀ x ∈ c.reads, x ∈ A) (hwrites : ∀ x ∈ c.writes, x ∈ P.stores)
      (h : Assigns P (A ∪ {x | x ∈ c.writes}) rest B) : Assigns P A (c :: rest) B
  | branch {P : Plan} {A B C : Set VarId} {span : Span} {test : Operand} {yes no rest : Code}
      (htest : ∀ x ∈ test.reads, x ∈ A) (hyes : Assigns P A yes C) (hno : Assigns P A no C)
      (h : Assigns P (A ∪ C) rest B) : Assigns P A (.branch span test yes no :: rest) B
  | loop {P : Plan} {A B C D : Set VarId} {span : Span} {id : LoopId} {body rest : Code}
      (hstores : C ⊆ P.stores) (hbody : Assigns (P.within id C) A body D)
      (h : Assigns P (A ∪ C) rest B) : Assigns P A (.loop span id body :: rest) B
  | leave {P : Plan} {A B : Set VarId} {span : Span} {id : LoopId} {rest : Code}
      (hleft : P.left id ⊆ A) (h : Assigns P A rest B) : Assigns P A (.leave span id :: rest) B

namespace Assigns

variable {P : Plan} {A A' B B' C : Set VarId} {a b : Code}

section

variable (h : Assigns P A a B)

include h

/-- More may have been written before. -/
theorem more (hsub : A ⊆ A') : Assigns P A' a B := by
  induction h generalizing A' with
  | nil h => exact .nil (h.trans hsub)
  | plain hc hreads hwrites _ ih =>
    exact .plain hc (fun x hx => hsub (hreads x hx)) hwrites (ih (Set.union_subset_union_left _ hsub))
  | branch htest _ _ _ ihyes ihno ih =>
    exact .branch (fun x hx => hsub (htest x hx)) (ihyes hsub) (ihno hsub)
      (ih (Set.union_subset_union_left _ hsub))
  | loop hstores _ _ ihbody ih =>
    exact .loop hstores (ihbody hsub) (ih (Set.union_subset_union_left _ hsub))
  | leave hleft _ ih => exact .leave (hleft.trans hsub) (ih hsub)

/-- Less may be needed after. -/
theorem less (hsub : B' ⊆ B) : Assigns P A a B' := by
  induction h with
  | nil h => exact .nil (hsub.trans h)
  | plain hc hreads hwrites _ ih => exact .plain hc hreads hwrites (ih hsub)
  | branch htest hyes hno _ _ _ ih => exact .branch htest hyes hno (ih hsub)
  | loop hstores hbody _ _ ih => exact .loop hstores hbody (ih hsub)
  | leave hleft _ ih => exact .leave hleft (ih hsub)

/-- What was written stays written. -/
theorem keep : Assigns P A a (A ∪ B) := by
  induction h with
  | nil h => exact .nil (Set.union_subset (Set.Subset.refl _) h)
  | plain hc hreads hwrites _ ih =>
    exact .plain hc hreads hwrites (ih.less (Set.union_subset_union_left _ Set.subset_union_left))
  | branch htest hyes hno _ _ _ ih =>
    exact .branch htest hyes hno (ih.less (Set.union_subset_union_left _ Set.subset_union_left))
  | loop hstores hbody _ _ ih =>
    exact .loop hstores hbody (ih.less (Set.union_subset_union_left _ Set.subset_union_left))
  | leave hleft _ ih => exact .leave hleft ih

theorem append (h' : Assigns P B b C) : Assigns P A (a ++ b) C := by
  induction h with
  | nil h => exact h'.more h
  | plain hc hreads hwrites _ ih => exact .plain hc hreads hwrites (ih h')
  | branch htest hyes hno _ _ _ ih => exact .branch htest hyes hno (ih h')
  | loop hstores hbody _ _ ih => exact .loop hstores hbody (ih h')
  | leave hleft _ ih => exact .leave hleft (ih h')

/-- Code that is run after other code, with what both have written. -/
theorem seq (h' : Assigns P (A ∪ B) b C) : Assigns P A (a ++ b) (B ∪ C) :=
  (h.keep.append h'.keep).less (Set.union_subset_union_left _ Set.subset_union_right)

end

theorem single {c : Command} (hc : c.isPlain = true) (hreads : ∀ x ∈ c.reads, x ∈ A)
    (hwrites : ∀ x ∈ c.writes, x ∈ P.stores) : Assigns P A [c] {x | x ∈ c.writes} :=
  .plain hc hreads hwrites (.nil Set.subset_union_right)

/-- All that the code mentions may be stored into, if that holds of what was written before. -/
theorem mentions (h : Assigns P A a B) (hA : A ⊆ P.stores) :
    B ⊆ P.stores ∧ ∀ c ∈ Command.nestedAll a, ∀ x ∈ c.reads ++ c.writes, x ∈ P.stores := by
  induction h with
  | nil h => exact ⟨h.trans hA, by simp [Command.nestedAll]⟩
  | @plain P A B c rest hc hreads hwrites _ ih =>
    obtain ⟨hB, hrest⟩ := ih (Set.union_subset hA hwrites)
    refine ⟨hB, fun d hd x hx => ?_⟩
    have hnested : c.nested = [c] := by
      cases c with
      | assign | call | native => rfl
      | branch | loop | leave => cases hc
    rw [Command.nestedAll, hnested, singleton_append, mem_cons] at hd
    rcases hd with rfl | hd
    · rcases mem_append.1 hx with hx | hx
      · exact hA (hreads x hx)
      · exact hwrites x hx
    · exact hrest d hd x hx
  | @branch P A B C span test yes no rest htest _ _ _ ihyes ihno ih =>
    obtain ⟨hC, hyes⟩ := ihyes hA
    obtain ⟨-, hno⟩ := ihno hA
    obtain ⟨hB, hrest⟩ := ih (Set.union_subset hA hC)
    refine ⟨hB, fun d hd x hx => ?_⟩
    simp only [Command.nestedAll, Command.nested, cons_append, mem_cons, mem_append] at hd
    rcases hd with rfl | (hd | hd) | hd
    · rw [Command.writes, append_nil] at hx
      exact hA (htest x hx)
    · exact hyes d hd x hx
    · exact hno d hd x hx
    · exact hrest d hd x hx
  | @loop P A B C D span id body rest hstores _ _ ihbody ih =>
    obtain ⟨-, hbody⟩ := ihbody hA
    obtain ⟨hB, hrest⟩ := ih (Set.union_subset hA hstores)
    refine ⟨hB, fun d hd x hx => ?_⟩
    simp only [Command.nestedAll, Command.nested, cons_append, mem_cons, mem_append] at hd
    rcases hd with rfl | hd | hd
    · cases hx
    · exact hbody d hd x hx
    · exact hrest d hd x hx
  | @leave P A B span id rest hleft _ ih =>
    obtain ⟨hB, hrest⟩ := ih hA
    refine ⟨hB, fun d hd x hx => ?_⟩
    simp only [Command.nestedAll, Command.nested, cons_append, nil_append, mem_cons] at hd
    rcases hd with rfl | hd
    · cases hx
    · exact hrest d hd x hx

end Assigns

end Code

/-! ## Soundness -/

/-- What comes after the code at hand is assigned too, once `B` has been written; `W` has been written
already, and `F` has been when all ends. -/
inductive Awaits (F W : Set VarId) : Plan → Set VarId → List Pending → Prop where
  | nil {P : Plan} : Awaits F W P F []
  | rest {P : Plan} {A B C : Set VarId} {code : Code} {pending : List Pending} (hA : A ⊆ W)
      (h : Code.Assigns P (A ∪ C) code B) (hpending : Awaits F W P B pending) :
      Awaits F W P C (.rest code :: pending)
  -- Nothing is needed from one pass for the next: a pass begins with what the first began with.
  | again {P : Plan} {A B C D D' : Set VarId} {id : LoopId} {body after : Code}
      {pending : List Pending} (hA : A ⊆ W) (hbody : Code.Assigns (P.within id C) A body D)
      (h : Code.Assigns P (A ∪ C) after B) (hpending : Awaits F W P B pending) :
      Awaits F W (P.within id C) D' (.again id body after :: pending)

theorem Awaits.more {F W W' : Set VarId} {P : Plan} {B : Set VarId} {pending : List Pending}
    (h : Awaits F W P B pending) (hsub : W ⊆ W') : Awaits F W' P B pending := by
  induction h with
  | nil => exact .nil
  | rest hA h _ ih => exact .rest (hA.trans hsub) h ih
  | again hA hbody h _ ih => exact .again (hA.trans hsub) hbody h ih

/-- Every execution from this point on is assigned. -/
def Point.Safe (F : Set VarId) (p : Point) : Prop :=
  ∃ P A B, A ⊆ {x | x ∈ p.written} ∧ Code.Assigns P A p.code B ∧
    Awaits F {x | x ∈ p.written} P B p.pending

/-- A loop that is left has its promise kept. -/
theorem Awaits.unwind {F W : Set VarId} {P : Plan} {B : Set VarId} {pending outer : List Pending}
    {id : LoopId} {after : Code} (h : Awaits F W P B pending) (hleft : P.left id ⊆ W)
    (hunwind : SlotCode.unwind id pending = some (after, outer)) :
    ∃ P A B, A ⊆ W ∧ Code.Assigns P A after B ∧ Awaits F W P B outer := by
  induction h with
  | nil => cases hunwind
  | rest _ _ _ ih => exact ih hleft hunwind
  | @again P A B C D D' other body after' pending hA hbody h hpending ih =>
    rw [SlotCode.unwind] at hunwind
    split at hunwind
    · next heq =>
      subst heq
      cases hunwind
      rw [Plan.left_within_self] at hleft
      exact ⟨P, A ∪ C, B, Set.union_subset hA hleft, h, hpending⟩
    · next hne =>
      rw [Plan.left_within_of_ne P (Ne.symm hne)] at hleft
      exact ih hleft hunwind

namespace Point

variable {F : Set VarId} {p p' : Point}

theorem Safe.step (h : p.Safe F) (hstep : p.Step p') : p'.Safe F := by
  obtain ⟨P, A, B, hA, hcode, hpending⟩ := h
  cases hstep with
  | @plain c rest pending written hc =>
    have hmore : {x | x ∈ written} ⊆ {x | x ∈ c.writes ++ written} :=
      fun x hx => mem_append_right _ hx
    cases hcode with
    | plain _ _ _ h =>
      refine ⟨P, _, B, Set.union_subset (hA.trans hmore) fun x hx => ?_, h, hpending.more hmore⟩
      exact mem_append_left _ hx
    | branch | loop | leave => cases hc
  | yes =>
    cases hcode with
    | plain hc => cases hc
    | branch _ hyes _ h => exact ⟨P, A, _, hA, hyes, .rest hA h hpending⟩
  | no =>
    cases hcode with
    | plain hc => cases hc
    | branch _ _ hno h => exact ⟨P, A, _, hA, hno, .rest hA h hpending⟩
  | loop =>
    cases hcode with
    | plain hc => cases hc
    | loop _ hbody h => exact ⟨_, A, _, hA, hbody, .again hA hbody h hpending⟩
  | leave hunwind =>
    cases hcode with
    | plain hc => cases hc
    | leave hleft _ => exact hpending.unwind (hleft.trans hA) hunwind
  | resume =>
    cases hcode with
    | nil hB =>
      cases hpending with
      | rest hA' h hpending =>
        exact ⟨P, _, _, Set.union_subset hA' (hB.trans hA), h, hpending⟩
  | again =>
    cases hcode with
    | nil hB =>
      cases hpending with
      | again hA' hbody h hpending =>
        exact ⟨_, _, _, hA', hbody, .again hA' hbody h hpending⟩

theorem Safe.reaches (h : p.Safe F) (hreach : p.Reaches p') : p'.Safe F := by
  induction hreach with
  | refl => exact h
  | tail _ hstep ih => exact ih.step hstep

/-- A command reads only what has been written. -/
theorem Safe.reads (h : p.Safe F) {c : Command} {rest : Code} (hcode : p.code = c :: rest) :
    ∀ x ∈ c.reads, x ∈ p.written := by
  obtain ⟨P, A, B, hA, hassigns, -⟩ := h
  rw [hcode] at hassigns
  cases hassigns with
  | plain _ hreads => exact fun x hx => hA (hreads x hx)
  | branch htest => exact fun x hx => hA (htest x hx)
  | loop | leave => exact forall_mem_nil _

theorem Safe.ends (h : p.Safe F) (hcode : p.code = []) (hpending : p.pending = []) :
    ∀ x ∈ F, x ∈ p.written := by
  obtain ⟨P, A, B, hA, hassigns, hawaits⟩ := h
  rw [hcode] at hassigns
  rw [hpending] at hawaits
  cases hawaits
  cases hassigns with
  | nil hB => exact fun x hx => hA (hB hx)

end Point

/-- No execution of assigned code reads anything that it has not written, and what the code is to write
has been written where an execution ends. -/
theorem Code.Assigns.reaches {P : Plan} {args : List VarId} {code : Code} {F : Set VarId}
    (h : Code.Assigns P {x | x ∈ args} code F) {p : Point} (hreach : Point.Reaches ⟨code, [], args⟩ p) :
    (∀ c rest, p.code = c :: rest → ∀ x ∈ c.reads, x ∈ p.written) ∧
      (p.code = [] → p.pending = [] → ∀ x ∈ F, x ∈ p.written) := by
  have hsafe : Point.Safe F p := Point.Safe.reaches ⟨P, _, F, Set.Subset.refl _, h, .nil⟩ hreach
  exact ⟨fun c rest hcode => hsafe.reads hcode, hsafe.ends⟩

end SlotCode
