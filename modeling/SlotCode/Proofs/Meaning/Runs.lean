import SlotCode.Proofs.Lowering.Storing
import SlotCode.Proofs.Meaning.Machine

/-!
# Runs

The runs of flat code as a relation, one rule for each thing that a command can do.  The runs are those
of the machine (`Runs.exec`, `runs_of_exec`), so a proof about code counts no steps.  Runs compose
(`Runs.append`), and a run changes the variables that its code writes and no others (`Runs.frame`).
-/

namespace SlotCode

open List Option Code

section

variable (A : Arithmetic) (p : Program)

inductive Runs : Code → Machine → Exit → Machine → Prop where
  | nil (m : Machine) : Runs [] m .done m
  | assign {span : Span} {dest : VarId} {value : Operand} {rest : Code} {m m' : Machine} {x : Exit}
      {word : Word} (hv : value.eval A m.store = some word)
      (h : Runs rest { m with store := m.store.write dest word } x m') :
      Runs (.assign span dest value :: rest) m x m'
  | call {span : Span} {target : String} {inputs : List Operand} {outputs : List VarId} {rest : Code}
      {m m₁ m' : Machine} {x : Exit} {f : Function} {args results : List Word} {σ σ' : Store}
      (hf : p.function? target = some f) (hi : Operand.evalAll A m.store inputs = some args)
      (ha : Store.empty.writeAll f.args args = some σ)
      (hbody : Runs f.code ⟨σ, m.printed⟩ .done m₁)
      (hr : Operand.evalAll A m₁.store f.value = some results)
      (ho : m.store.writeAll outputs results = some σ') (h : Runs rest ⟨σ', m₁.printed⟩ x m') :
      Runs (.call span target inputs outputs :: rest) m x m'
  | native {span : Span} {primitive : Primitive} {inputs : List Operand} {outputs : List VarId}
      {rest : Code} {m m' : Machine} {x : Exit} {args results : List Word} {lines : List String}
      {σ : Store} (hi : Operand.evalAll A m.store inputs = some args)
      (hp : primitive.run args = some (results, lines))
      (ho : m.store.writeAll outputs results = some σ) (h : Runs rest ⟨σ, m.printed ++ lines⟩ x m') :
      Runs (.native span primitive inputs outputs :: rest) m x m'
  | branch {span : Span} {test : Operand} {yes no rest : Code} {m m₁ m' : Machine} {x : Exit}
      {b : Bool} (ht : test.eval A m.store = some (.datum (.bool b)))
      (hb : Runs (if b then yes else no) m .done m₁) (h : Runs rest m₁ x m') :
      Runs (.branch span test yes no :: rest) m x m'
  | branchLeave {span : Span} {test : Operand} {yes no rest : Code} {m m' : Machine} {loop : LoopId}
      {b : Bool} (ht : test.eval A m.store = some (.datum (.bool b)))
      (hb : Runs (if b then yes else no) m (.leave loop) m') :
      Runs (.branch span test yes no :: rest) m (.leave loop) m'
  | again {span : Span} {id : LoopId} {body rest : Code} {m m₁ m' : Machine} {x : Exit}
      (hb : Runs body m .done m₁) (h : Runs (.loop span id body :: rest) m₁ x m') :
      Runs (.loop span id body :: rest) m x m'
  | loopDone {span : Span} {id : LoopId} {body rest : Code} {m m₁ m' : Machine} {x : Exit}
      (hb : Runs body m (.leave id) m₁) (h : Runs rest m₁ x m') :
      Runs (.loop span id body :: rest) m x m'
  | loopLeave {span : Span} {id loop : LoopId} {body rest : Code} {m m' : Machine}
      (hb : Runs body m (.leave loop) m') (hne : loop ≠ id) :
      Runs (.loop span id body :: rest) m (.leave loop) m'
  | leave (span : Span) (loop : LoopId) (rest : Code) (m : Machine) :
      Runs (.leave span loop :: rest) m (.leave loop) m

end

variable {A : Arithmetic} {p : Program} {n : Nat} {code : Code} {m m' : Machine} {x : Exit}
  {id : VarId} {slots : List VarId} {operands : List Operand} {words : List Word}

/-! ## Runs of the machine -/

theorem exec_succ {r : Exit × Machine} (h : exec A p n code m = some r) :
    exec A p (n + 1) code m = some r := by
  induction n generalizing code m r with
  | zero => cases h
  | succ n ih =>
    cases code with
    | nil => exact h
    | cons c rest =>
      cases c with
      | assign span dest value =>
        rw [exec] at h ⊢
        simp only [bind_eq_bind, bind_eq_some_iff] at h ⊢
        obtain ⟨word, hv, h⟩ := h
        exact ⟨word, hv, ih h⟩
      | call span target inputs outputs =>
        rw [exec] at h ⊢
        simp only [bind_eq_bind, bind_eq_some_iff] at h ⊢
        obtain ⟨f, hf, args, hi, σ, ha, ⟨x, m₁⟩, hbody, h⟩ := h
        refine ⟨f, hf, args, hi, σ, ha, (x, m₁), ih hbody, ?_⟩
        cases x with
        | leave loop => cases h
        | done =>
          simp only [bind_eq_some_iff] at h ⊢
          obtain ⟨results, hr, σ', ho, h⟩ := h
          exact ⟨results, hr, σ', ho, ih h⟩
      | native span primitive inputs outputs =>
        rw [exec] at h ⊢
        simp only [bind_eq_bind, bind_eq_some_iff] at h ⊢
        obtain ⟨args, hi, results, hp, σ, ho, h⟩ := h
        exact ⟨args, hi, results, hp, σ, ho, ih h⟩
      | branch span test yes no =>
        rw [exec] at h ⊢
        simp only [bind_eq_bind, bind_eq_some_iff] at h ⊢
        obtain ⟨word, ht, h⟩ := h
        refine ⟨word, ht, ?_⟩
        split at h
        · simp only [bind_eq_some_iff] at h ⊢
          obtain ⟨⟨x, m₁⟩, hb, h⟩ := h
          refine ⟨(x, m₁), ih hb, ?_⟩
          cases x with
          | done => exact ih h
          | leave loop => exact h
        · cases h
      | loop span id body =>
        rw [exec] at h ⊢
        simp only [bind_eq_bind, bind_eq_some_iff] at h ⊢
        obtain ⟨⟨x, m₁⟩, hb, h⟩ := h
        refine ⟨(x, m₁), ih hb, ?_⟩
        cases x with
        | done => exact ih h
        | leave loop =>
          simp only at h ⊢
          split at h
          · next heq => rw [if_pos heq]; exact ih h
          · next hne => rw [if_neg hne]; exact h
      | leave span loop => exact h

theorem exec_mono {k : Nat} (hnk : n ≤ k) {r : Exit × Machine} (h : exec A p n code m = some r) :
    exec A p k code m = some r := by
  induction hnk with
  | refl => exact h
  | step _ ih => exact exec_succ ih

theorem Runs.exec (h : Runs A p code m x m') : ∃ n, SlotCode.exec A p n code m = some (x, m') := by
  -- Where a rule has two runs, the machine gets the steps of both.
  induction h with
  | nil m => exact ⟨1, rfl⟩
  | assign hv _ ih =>
    obtain ⟨n, hn⟩ := ih
    exact ⟨n + 1, by simp [SlotCode.exec, hv, hn]⟩
  | call hf hi ha _ hr ho _ ihb ih =>
    obtain ⟨k, hk⟩ := ihb
    obtain ⟨n, hn⟩ := ih
    have hk := exec_mono (Nat.le_add_right k n) hk
    have hn := exec_mono (Nat.le_add_left n k) hn
    exact ⟨k + n + 1, by simp [SlotCode.exec, hf, hi, ha, hk, hr, ho, hn]⟩
  | native hi hp ho _ ih =>
    obtain ⟨n, hn⟩ := ih
    exact ⟨n + 1, by simp [SlotCode.exec, hi, hp, ho, hn]⟩
  | branch ht _ _ ihb ih =>
    obtain ⟨k, hk⟩ := ihb
    obtain ⟨n, hn⟩ := ih
    have hk := exec_mono (Nat.le_add_right k n) hk
    have hn := exec_mono (Nat.le_add_left n k) hn
    exact ⟨k + n + 1, by simp [SlotCode.exec, ht, hk, hn]⟩
  | branchLeave ht _ ihb =>
    obtain ⟨k, hk⟩ := ihb
    exact ⟨k + 1, by simp [SlotCode.exec, ht, hk]⟩
  | again _ _ ihb ih =>
    obtain ⟨k, hk⟩ := ihb
    obtain ⟨n, hn⟩ := ih
    have hk := exec_mono (Nat.le_add_right k n) hk
    have hn := exec_mono (Nat.le_add_left n k) hn
    exact ⟨k + n + 1, by rw [SlotCode.exec, hk]; exact hn⟩
  | loopDone _ _ ihb ih =>
    obtain ⟨k, hk⟩ := ihb
    obtain ⟨n, hn⟩ := ih
    have hk := exec_mono (Nat.le_add_right k n) hk
    have hn := exec_mono (Nat.le_add_left n k) hn
    exact ⟨k + n + 1, by rw [SlotCode.exec, hk]; simpa using hn⟩
  | loopLeave _ hne ihb =>
    obtain ⟨k, hk⟩ := ihb
    exact ⟨k + 1, by rw [SlotCode.exec, hk]; simp [hne]⟩
  | leave span loop rest m => exact ⟨1, rfl⟩

/-- The machine does what the rules allow. -/
theorem runs_of_exec (h : exec A p n code m = some (x, m')) : Runs A p code m x m' := by
  induction n generalizing code m x m' with
  | zero => cases h
  | succ n ih =>
    cases code with
    | nil =>
      cases h
      exact .nil m
    | cons c rest =>
      cases c with
      | assign span dest value =>
        rw [exec] at h
        simp only [bind_eq_bind, bind_eq_some_iff] at h
        obtain ⟨word, hv, h⟩ := h
        exact .assign hv (ih h)
      | call span target inputs outputs =>
        rw [exec] at h
        simp only [bind_eq_bind, bind_eq_some_iff] at h
        obtain ⟨f, hf, args, hi, σ, ha, ⟨y, m₁⟩, hbody, h⟩ := h
        cases y with
        | leave loop => cases h
        | done =>
          simp only [bind_eq_some_iff] at h
          obtain ⟨results, hr, σ', ho, h⟩ := h
          exact .call hf hi ha (ih hbody) hr ho (ih h)
      | native span primitive inputs outputs =>
        rw [exec] at h
        simp only [bind_eq_bind, bind_eq_some_iff] at h
        obtain ⟨args, hi, ⟨results, lines⟩, hp, σ, ho, h⟩ := h
        exact .native hi hp ho (ih h)
      | branch span test yes no =>
        rw [exec] at h
        simp only [bind_eq_bind, bind_eq_some_iff] at h
        obtain ⟨word, ht, h⟩ := h
        split at h
        · simp only [bind_eq_some_iff] at h
          obtain ⟨⟨y, m₁⟩, hb, h⟩ := h
          cases y with
          | done => exact .branch ht (ih hb) (ih h)
          | leave loop =>
            cases h
            exact .branchLeave ht (ih hb)
        · cases h
      | loop span id body =>
        rw [exec] at h
        simp only [bind_eq_bind, bind_eq_some_iff] at h
        obtain ⟨⟨y, m₁⟩, hb, h⟩ := h
        cases y with
        | done => exact .again (ih hb) (ih h)
        | leave loop =>
          simp only at h
          split at h
          · next heq =>
            subst heq
            exact .loopDone (ih hb) (ih h)
          · next hne =>
            cases h
            exact .loopLeave (ih hb) hne
      | leave span loop =>
        cases h
        exact .leave span loop rest m

/-! ## Composition -/

theorem Runs.append {a b : Code} {m₁ : Machine} (ha : Runs A p a m .done m₁)
    (hb : Runs A p b m₁ x m') : Runs A p (a ++ b) m x m' := by
  generalize hdone : Exit.done = y at ha
  induction ha with
  | nil m => exact hb
  | assign hv _ ih => exact .assign hv (ih hb hdone)
  | call hf hi ha hbody hr ho _ _ ih => exact .call hf hi ha hbody hr ho (ih hb hdone)
  | native hi hp ho _ ih => exact .native hi hp ho (ih hb hdone)
  | branch ht hbranch _ _ ih => exact .branch ht hbranch (ih hb hdone)
  | again hbody _ _ ih => exact .again hbody (ih hb hdone)
  | loopDone hbody _ _ ih => exact .loopDone hbody (ih hb hdone)
  | branchLeave | loopLeave | leave => cases hdone

/-- What comes after a `leave` does not run. -/
theorem Runs.append_leave {a : Code} {loop : LoopId} (ha : Runs A p a m (.leave loop) m') (b : Code) :
    Runs A p (a ++ b) m (.leave loop) m' := by
  generalize hleave : Exit.leave loop = y at ha
  induction ha with
  | nil m => cases hleave
  | assign hv _ ih => exact .assign hv (ih hleave)
  | call hf hi ha hbody hr ho _ _ ih => exact .call hf hi ha hbody hr ho (ih hleave)
  | native hi hp ho _ ih => exact .native hi hp ho (ih hleave)
  | branch ht hbranch _ _ ih => exact .branch ht hbranch (ih hleave)
  | branchLeave ht hbranch => exact .branchLeave ht hbranch
  | again hbody _ _ ih => exact .again hbody (ih hleave)
  | loopDone hbody _ _ ih => exact .loopDone hbody (ih hleave)
  | loopLeave hbody hne => exact .loopLeave hbody hne
  | leave span loop rest m => exact .leave span loop _ m

/-! ## Stores -/

namespace Store

variable {σ σ' : Store} {ids : List VarId} {words : List Word}

/-- The variables hold the words. -/
def Has (σ : Store) (ids : List VarId) (words : List Word) : Prop :=
  List.Forall₂ (fun id word => σ id = some word) ids words

theorem write_self (σ : Store) (id : VarId) (word : Word) : σ.write id word id = some word :=
  if_pos rfl

theorem write_of_ne (σ : Store) {other : VarId} (word : Word) (h : other ≠ id) :
    σ.write id word other = σ other :=
  if_neg h

theorem exists_writeAll (σ : Store) (h : ids.length = words.length) :
    ∃ σ', σ.writeAll ids words = some σ' := by
  induction ids generalizing σ words with
  | nil =>
    cases words with
    | nil => exact ⟨σ, rfl⟩
    | cons => cases h
  | cons id ids ih =>
    cases words with
    | nil => cases h
    | cons word words => exact ih (σ.write id word) (Nat.succ.inj h)

theorem writeAll_of_not_mem (h : σ.writeAll ids words = some σ') (hid : id ∉ ids) :
    σ' id = σ id := by
  induction ids generalizing σ words with
  | nil =>
    cases words with
    | nil => cases h; rfl
    | cons => cases h
  | cons other ids ih =>
    cases words with
    | nil => cases h
    | cons word words =>
      rw [mem_cons, not_or] at hid
      rw [ih h hid.2, write_of_ne σ word hid.1]

theorem writeAll_has (h : σ.writeAll ids words = some σ') (hnodup : ids.Nodup) :
    σ'.Has ids words := by
  induction ids generalizing σ words with
  | nil =>
    cases words with
    | nil => exact .nil
    | cons => cases h
  | cons id ids ih =>
    cases words with
    | nil => cases h
    | cons word words =>
      rw [nodup_cons] at hnodup
      have hrest : (σ.write id word).writeAll ids words = some σ' := h
      refine .cons ?_ (ih hrest hnodup.2)
      rw [writeAll_of_not_mem hrest hnodup.1, write_self]

theorem Has.congr (h : σ.Has ids words) (heq : ∀ id ∈ ids, σ' id = σ id) : σ'.Has ids words := by
  induction h with
  | nil => exact .nil
  | cons hw _ ih =>
    refine .cons ((heq _ mem_cons_self).trans hw) (ih fun id hid => heq id ?_)
    exact mem_cons_of_mem _ hid

end Store

/-! ## Operands -/

namespace Operand

variable {σ σ' : Store}

theorem evalAll_eq_some_iff :
    evalAll A σ operands = some words ↔
      Forall₂ (fun operand word => operand.eval A σ = some word) operands words := by
  induction operands generalizing words with
  | nil => cases words <;> simp [evalAll]
  | cons operand operands ih =>
    cases words <;> simp [evalAll, bind_eq_some_iff, ih]

theorem evalAll_vars {ids : List VarId} :
    evalAll A σ (ids.map .var) = some words ↔ σ.Has ids words := by
  rw [evalAll_eq_some_iff, forall₂_map_left_iff]
  rfl

theorem evalAll_append {as bs : List Operand} {ws vs : List Word} (ha : evalAll A σ as = some ws)
    (hb : evalAll A σ bs = some vs) : evalAll A σ (as ++ bs) = some (ws ++ vs) := by
  rw [evalAll_eq_some_iff] at ha hb ⊢
  exact rel_append ha hb

mutual

theorem eval_congr {σ σ' : Store} (operand : Operand) (h : ∀ x ∈ operand.reads, σ' x = σ x) :
    operand.eval A σ' = operand.eval A σ := by
  match operand with
  | .var id => exact h id mem_cons_self
  | .int _ | .bool _ | .str _ => rfl
  | .arith op type operands => rw [eval, eval, evalAll_congr operands h]
  | .compare left op right =>
    have hl : σ' left = σ left := h left mem_cons_self
    have hr : σ' right = σ right := h right (mem_cons_of_mem _ mem_cons_self)
    rw [eval, eval, hl, hr]

theorem evalAll_congr {σ σ' : Store} (operands : List Operand)
    (h : ∀ x ∈ readsAll operands, σ' x = σ x) : evalAll A σ' operands = evalAll A σ operands := by
  match operands with
  | [] => rfl
  | operand :: operands =>
    have hhead := eval_congr operand fun x hx => h x (mem_append_left _ hx)
    have htail := evalAll_congr operands fun x hx => h x (mem_append_right _ hx)
    rw [evalAll, evalAll, hhead, htail]

end

end Operand

/-! ## The frame of a run -/

/-- Code stores into what it writes and leaves everything else as it is. -/
theorem Runs.frame (h : Runs A p code m x m') (hid : id ∉ code.writes) :
    m'.store id = m.store id := by
  have hbranch : ∀ {span test yes no} {b : Bool}, id ∉ writes [.branch span test yes no] →
      id ∉ writes (if b then yes else no) := by
    intro span test yes no b hid
    rw [mem_writes_branch, not_or] at hid
    cases b
    · exact hid.2
    · exact hid.1
  induction h with
  | nil m => rfl
  | @assign span dest value rest m m' x word _ _ ih =>
    rw [mem_writes_cons, not_or] at hid
    have hdest : id ∉ [dest] := hid.1
    rw [ih hid.2]
    exact Store.write_of_ne _ _ (ne_of_not_mem_cons hdest)
  | @call span target inputs outputs _ _ _ _ _ _ _ _ _ _ _ _ _ _ _ ho _ _ ih =>
    rw [mem_writes_cons, not_or] at hid
    have houtputs : id ∉ outputs := by
      simpa [writes, Command.nestedAll, Command.nested, Command.writes] using hid.1
    rw [ih hid.2]
    exact Store.writeAll_of_not_mem ho houtputs
  | @native span primitive inputs outputs _ _ _ _ _ _ _ _ _ _ ho _ ih =>
    rw [mem_writes_cons, not_or] at hid
    have houtputs : id ∉ outputs := by
      simpa [writes, Command.nestedAll, Command.nested, Command.writes] using hid.1
    rw [ih hid.2]
    exact Store.writeAll_of_not_mem ho houtputs
  | branch _ _ _ ihb ih =>
    rw [mem_writes_cons, not_or] at hid
    rw [ih hid.2, ihb (hbranch hid.1)]
  | branchLeave _ _ ihb =>
    rw [mem_writes_cons, not_or] at hid
    exact ihb (hbranch hid.1)
  | again _ _ ihb ih =>
    rw [ih hid]
    rw [mem_writes_cons, not_or, mem_writes_loop] at hid
    exact ihb hid.1
  | loopDone _ _ ihb ih =>
    rw [mem_writes_cons, not_or, mem_writes_loop] at hid
    rw [ih hid.2, ihb hid.1]
  | loopLeave _ _ ihb =>
    rw [mem_writes_cons, not_or, mem_writes_loop] at hid
    exact ihb hid.1
  | leave => rfl

/-! ## Assignments -/

/-- No operand reads a variable that was assigned before it, so the assignments can be made one after
the other. -/
def Parallel : List VarId → List Operand → Prop
  | slot :: slots, _ :: operands => slot ∉ Operand.readsAll operands ∧ Parallel slots operands
  | _, _ => True

theorem parallel_of_disjoint (h : ∀ slot ∈ slots, slot ∉ Operand.readsAll operands) :
    Parallel slots operands := by
  induction slots generalizing operands with
  | nil => trivial
  | cons slot slots ih =>
    cases operands with
    | nil => trivial
    | cons operand operands =>
      refine ⟨fun hmem => h slot mem_cons_self (mem_append_right _ hmem), ih ?_⟩
      intro other hother hmem
      exact h other (mem_cons_of_mem _ hother) (mem_append_right _ hmem)

/-- A copy of variables onto themselves. -/
theorem parallel_self (h : slots.Nodup) : Parallel slots (slots.map .var) := by
  induction slots with
  | nil => trivial
  | cons slot slots ih =>
    rw [nodup_cons] at h
    refine ⟨fun hmem => h.1 ?_, ih h.2⟩
    obtain ⟨operand, hoperand, hreads⟩ := Operand.mem_readsAll.1 hmem
    obtain ⟨other, hother, rfl⟩ := mem_map.1 hoperand
    cases mem_singleton.1 hreads
    exact hother

theorem runs_assignments (span : Span) (hparallel : Parallel slots operands)
    (hlen : slots.length = operands.length) (h : Operand.evalAll A m.store operands = some words) :
    ∃ σ, m.store.writeAll slots words = some σ ∧
      Runs A p (Lower.assignments span slots operands) m .done { m with store := σ } := by
  induction slots generalizing operands words m with
  | nil =>
    cases operands with
    | nil => cases h; exact ⟨m.store, rfl, .nil m⟩
    | cons => cases hlen
  | cons slot slots ih =>
    cases operands with
    | nil => cases hlen
    | cons operand operands =>
      rw [Operand.evalAll_eq_some_iff] at h
      obtain _ | ⟨hword, hwords⟩ := h
      rename_i word words
      rw [← Operand.evalAll_eq_some_iff] at hwords
      -- The first assignment changes nothing that the others read.
      have hsame : Operand.evalAll A (m.store.write slot word) operands = some words := by
        rw [← hwords]
        refine Operand.evalAll_congr operands fun x hx => Store.write_of_ne _ _ ?_
        rintro rfl
        exact hparallel.1 hx
      obtain ⟨σ, hσ, hruns⟩ :=
        ih (m := { m with store := m.store.write slot word }) hparallel.2 (Nat.succ.inj hlen) hsame
      exact ⟨σ, hσ, .assign hword hruns⟩

end SlotCode
