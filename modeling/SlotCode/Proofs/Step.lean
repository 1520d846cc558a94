import SlotCode.Fault

/-!
# Steps with state

How a sequence of steps ends, read off the ends of its parts.  A sequence succeeds exactly if each
of its steps does, each in the state that the one before it leaves.
-/

namespace SlotCode

open List

variable {ε σ α β : Type} {s s' : σ}

theorem bind_eq_ok_iff {x : EStateM ε σ α} {f : α → EStateM ε σ β} {b : β} :
    (x >>= f) s = .ok b s' ↔ ∃ a s₁, x s = .ok a s₁ ∧ f a s₁ = .ok b s' := by
  simp only [bind, EStateM.bind]
  cases h : x s with
  | ok a s₁ =>
    constructor
    · exact fun hf => ⟨a, s₁, rfl, hf⟩
    · rintro ⟨a', s₁', heq, hf⟩
      cases heq
      exact hf
  | error e s₁ => simp

/-- A sequence fails in its first step, or in the rest after the first step has succeeded. -/
theorem bind_eq_error_iff {x : EStateM ε σ α} {f : α → EStateM ε σ β} {e : ε} :
    (x >>= f) s = .error e s' ↔
      x s = .error e s' ∨ ∃ a s₁, x s = .ok a s₁ ∧ f a s₁ = .error e s' := by
  simp only [bind, EStateM.bind]
  cases h : x s with
  | ok a s₁ =>
    constructor
    · exact fun hf => .inr ⟨a, s₁, rfl, hf⟩
    · rintro (heq | ⟨a', s₁', heq, hf⟩)
      · cases heq
      · cases heq
        exact hf
  | error e' s₁ => simp

theorem pure_eq_ok_iff {a b : α} : (pure a : EStateM ε σ α) s = .ok b s' ↔ a = b ∧ s = s' := by
  simp [pure, EStateM.pure]

/-- A step that is only taken under a condition. -/
theorem ite_bind_eq_ok_iff {c : Prop} [Decidable c] {x : EStateM ε σ Unit} {f : EStateM ε σ β}
    {b : β} : (if c then x >>= fun _ => f else f) s = .ok b s' ↔
      ∃ s₁, (c ∧ x s = .ok () s₁ ∨ ¬ c ∧ s₁ = s) ∧ f s₁ = .ok b s' := by
  by_cases hc : c
  · rw [if_pos hc, bind_eq_ok_iff]
    constructor
    · rintro ⟨_, s₁, hx, hf⟩
      exact ⟨s₁, .inl ⟨hc, hx⟩, hf⟩
    · rintro ⟨s₁, ⟨-, hx⟩ | ⟨hn, -⟩, hf⟩
      · exact ⟨(), s₁, hx, hf⟩
      · exact absurd hc hn
  · simp [hc]

theorem query_eq_ok_iff {q : Except Fault α} {a : α} :
    (query q : EStateM (Failure ε) σ α) s = .ok a s' ↔ q = .ok a ∧ s = s' := by
  cases q <;> simp [query]

theorem fail_ne_ok {cause : ε} {a : α} : ¬ (fail cause : EStateM (Failure ε) σ α) s = .ok a s' := by
  simp [fail]

@[simp] theorem query_ok_bind {a : α} {f : α → EStateM (Failure ε) σ β} :
    (query (.ok a) >>= f) s = f a s :=
  rfl

@[simp] theorem get_bind {f : σ → EStateM ε σ β} : (get >>= f) s = f s s :=
  rfl

@[simp] theorem set_bind {f : PUnit → EStateM ε σ β} : (set s' >>= f) s = f ⟨⟩ s' :=
  rfl

/-! ## What a step leaves behind -/

/-- The state in which a step ends, whether or not it succeeds. -/
def stateAfter : EStateM.Result ε σ α → σ
  | .ok _ s | .error _ s => s

section

variable {f : α → EStateM ε σ Unit} {Keeps : σ → σ → Prop}

theorem forM_cons_apply (a : α) (l : List α) (s : σ) :
    (a :: l).forM f s = (f a >>= fun _ => l.forM f) s :=
  rfl

/-- What every step of a sequence keeps is kept by the sequence. -/
theorem forM_keeps (hrefl : ∀ s, Keeps s s) (htrans : ∀ s t u, Keeps s t → Keeps t u → Keeps s u)
    (l : List α) (hstep : ∀ a ∈ l, ∀ s, Keeps s (stateAfter (f a s))) (s : σ) :
    Keeps s (stateAfter (l.forM f s)) := by
  induction l generalizing s with
  | nil => exact hrefl s
  | cons a l ih =>
    have ha := hstep a mem_cons_self s
    rw [forM_cons_apply]
    simp only [bind, EStateM.bind]
    cases h : f a s with
    | ok _ s₁ =>
      rw [h] at ha
      exact htrans s s₁ _ ha (ih (fun b hb => hstep b (mem_cons_of_mem a hb)) s₁)
    | error e s₁ =>
      rw [h] at ha
      exact ha

/-- What every successful step of a sequence keeps is kept if the sequence succeeds. -/
theorem forM_ok_keeps (hrefl : ∀ s, Keeps s s)
    (htrans : ∀ s t u, Keeps s t → Keeps t u → Keeps s u) (l : List α)
    (hstep : ∀ a ∈ l, ∀ s t, f a s = .ok () t → Keeps s t) (h : l.forM f s = .ok () s') :
    Keeps s s' := by
  induction l generalizing s with
  | nil =>
    cases h
    exact hrefl _
  | cons a l ih =>
    rw [forM_cons_apply, bind_eq_ok_iff] at h
    obtain ⟨_, t, ha, hl⟩ := h
    exact htrans s t s' (hstep a mem_cons_self s t ha)
      (ih (fun b hb => hstep b (mem_cons_of_mem a hb)) hl)

/-- Every step of a sequence that succeeds has succeeded, in between its two ends. -/
theorem forM_ok (hrefl : ∀ s, Keeps s s) (htrans : ∀ s t u, Keeps s t → Keeps t u → Keeps s u)
    (l : List α) (hstep : ∀ a ∈ l, ∀ s, Keeps s (stateAfter (f a s))) (h : l.forM f s = .ok () s')
    (a : α) (ha : a ∈ l) : ∃ s₁ s₂, Keeps s s₁ ∧ f a s₁ = .ok () s₂ ∧ Keeps s₂ s' := by
  induction l generalizing s with
  | nil => cases ha
  | cons b l ih =>
    rw [forM_cons_apply, bind_eq_ok_iff] at h
    obtain ⟨_, t, hb, hl⟩ := h
    have hst := hstep b mem_cons_self s
    rw [hb] at hst
    have hrest : ∀ c ∈ l, ∀ s, Keeps s (stateAfter (f c s)) :=
      fun c hc => hstep c (mem_cons_of_mem b hc)
    rcases mem_cons.1 ha with rfl | ha
    · have := forM_keeps hrefl htrans l hrest t
      rw [hl] at this
      exact ⟨s, t, hrefl s, hb, this⟩
    · obtain ⟨s₁, s₂, h₁, hf, h₂⟩ := ih hrest hl ha
      exact ⟨s₁, s₂, htrans s t s₁ hst h₁, hf, h₂⟩

/-- A sequence that fails does so in one of its steps. -/
theorem forM_error (hrefl : ∀ s, Keeps s s) (htrans : ∀ s t u, Keeps s t → Keeps t u → Keeps s u)
    (l : List α) (hstep : ∀ a ∈ l, ∀ s, Keeps s (stateAfter (f a s))) {e : ε}
    (h : l.forM f s = .error e s') : ∃ a ∈ l, ∃ s₁, Keeps s s₁ ∧ f a s₁ = .error e s' := by
  induction l generalizing s with
  | nil => cases h
  | cons b l ih =>
    rw [forM_cons_apply] at h
    simp only [bind, EStateM.bind] at h
    have hst := hstep b mem_cons_self s
    cases hb : f b s with
    | ok _ t =>
      rw [hb] at h hst
      obtain ⟨a, ha, s₁, h₁, hf⟩ := ih (fun c hc => hstep c (mem_cons_of_mem b hc)) h
      exact ⟨a, mem_cons_of_mem b ha, s₁, htrans s t s₁ hst h₁, hf⟩
    | error e' t =>
      rw [hb] at h
      cases h
      exact ⟨b, mem_cons_self, s, hrefl s, hb⟩

end

/-! ## Runs on fixed inputs -/

/-- Whether a run ends well, with a result that passes the check. -/
def succeeds {ε σ α : Type} (check : α → Bool) : EStateM.Result ε σ α → Bool
  | .ok a _ => check a
  | .error _ _ => false

theorem exists_ok_of_succeeds {check : α → Bool} {r : EStateM.Result ε σ α}
    (h : succeeds check r = true) : ∃ a s, r = .ok a s ∧ check a = true := by
  cases r with
  | ok a s => exact ⟨a, s, rfl, h⟩
  | error e s => cases h

end SlotCode
