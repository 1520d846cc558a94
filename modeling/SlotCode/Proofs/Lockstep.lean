import SlotCode.Proofs.Step

/-!
# Two runs

Two runs are in lockstep if they end in the same way: both with a result, or both with the same error.
Neither ends in a fault.  A sequence of steps is in lockstep with another one if each of its steps is.
-/

namespace SlotCode

variable {ε σ σ' α α' β β' : Type}

/-- Both runs succeed, in states that `S` relates and with results that `V` relates, or both end with
the same error. -/
def Lockstep (S : σ → σ' → Prop) (V : σ → α → α' → Prop) :
    EStateM.Result (Failure ε) σ α → EStateM.Result (Failure ε) σ' α' → Prop
  | .ok a s, .ok a' s' => S s s' ∧ V s a a'
  | .error (.error e) _, .error (.error e') _ => e = e'
  | _, _ => False

namespace Lockstep

variable {S T : σ → σ' → Prop} {V W : σ → α → α' → Prop} {r : EStateM.Result (Failure ε) σ α}
  {r' : EStateM.Result (Failure ε) σ' α'}

theorem cases (h : Lockstep S V r r') :
    (∃ a s a' s', r = .ok a s ∧ r' = .ok a' s' ∧ S s s' ∧ V s a a') ∨
      ∃ e s s', r = .error (.error e) s ∧ r' = .error (.error e) s' := by
  cases r with
  | ok a s =>
    cases r' with
    | ok a' s' => exact .inl ⟨a, s, a', s', rfl, rfl, h⟩
    | error e s' => exact False.elim h
  | error e s =>
    cases r' with
    | ok a' s' => cases e <;> exact False.elim h
    | error e' s' =>
      cases e with
      | fault what => exact False.elim h
      | error cause =>
        cases e' with
        | fault what => exact False.elim h
        | error cause' =>
          obtain rfl : cause = cause' := h
          exact .inr ⟨cause, s, s', rfl, rfl⟩

theorem mono (h : Lockstep S V r r') (hS : ∀ s s', S s s' → T s s')
    (hV : ∀ s s' a a', S s s' → V s a a' → W s a a') : Lockstep T W r r' := by
  rcases h.cases with ⟨a, s, a', s', rfl, rfl, hs, ha⟩ | ⟨e, s, s', rfl, rfl⟩
  · exact ⟨hS s s' hs, hV s s' a a' hs ha⟩
  · exact rfl

theorem bind {U : σ → β → β' → Prop} {x : EStateM (Failure ε) σ α} {x' : EStateM (Failure ε) σ' α'}
    {f : α → EStateM (Failure ε) σ β} {f' : α' → EStateM (Failure ε) σ' β'} {s : σ} {s' : σ'}
    (h : Lockstep S V (x s) (x' s'))
    (hf : ∀ a a' t t', S t t' → V t a a' → Lockstep T U (f a t) (f' a' t')) :
    Lockstep T U ((x >>= f) s) ((x' >>= f') s') := by
  simp only [Bind.bind, EStateM.bind]
  rcases h.cases with ⟨a, t, a', t', hx, hx', ht, ha⟩ | ⟨e, t, t', hx, hx'⟩
  · rw [hx, hx']
    exact hf a a' t t' ht ha
  · rw [hx, hx']
    exact rfl

end Lockstep

end SlotCode
