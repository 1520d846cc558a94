import Mathlib.Order.Defs.Unbundled
import SlotCode.Proofs.Step

/-!
# Steps that end either way

What holds of the state in which a step ends, whether or not it succeeds (`EitherWay`).  Failures of some
kinds may be exempt: nothing is said then of the state that such a failure leaves.
-/

namespace SlotCode

variable {ε σ α β : Type} {E : ε → Prop} {R : σ → σ → Prop} {s : σ}

/-- The run ends with a result in a state that has the one property, or with an error that has, together
with the state it leaves, the other. -/
def EndsIn (P : σ → Prop) (Q : ε → σ → Prop) : EStateM.Result ε σ α → Prop
  | .ok _ t => P t
  | .error e t => Q e t

namespace EndsIn

variable {P P' : σ → Prop} {Q Q' : ε → σ → Prop} {r : EStateM.Result ε σ α}

theorem bind {x : EStateM ε σ α} {f : α → EStateM ε σ β} (hx : EndsIn P Q (x s))
    (hf : ∀ a t, x s = .ok a t → P t → EndsIn P' Q (f a t)) : EndsIn P' Q ((x >>= f) s) := by
  simp only [Bind.bind, EStateM.bind]
  cases hrun : x s with
  | ok a t =>
    rw [hrun] at hx
    exact hf a t hrun hx
  | error e t =>
    rw [hrun] at hx
    exact hx

theorem mapM {f : α → EStateM ε σ β} (hf : ∀ a s, P s → EndsIn P Q (f a s)) (l : List α) (hs : P s) :
    EndsIn P Q (l.mapM f s) := by
  induction l generalizing s with
  | nil => exact hs
  | cons a l ih =>
    rw [List.mapM_cons]
    exact .bind (hf a s hs) fun _ t _ ht => .bind (ih ht) fun _ _ _ hu => hu

theorem mono (h : EndsIn P Q r) (hP : ∀ t, P t → P' t) (hQ : ∀ e t, Q e t → Q' e t) :
    EndsIn P' Q' r := by
  cases r with
  | ok a t => exact hP t h
  | error e t => exact hQ e t h

end EndsIn

/-- From `s` the step ends in a state that `R` relates to `s`, unless it fails for a reason in `E`. -/
def EitherWayAt (E : ε → Prop) (R : σ → σ → Prop) (s : σ) (x : EStateM ε σ α) : Prop :=
  EndsIn (R s) (fun e t => E e ∨ R s t) (x s)

namespace EitherWayAt

variable {x : EStateM ε σ α}

theorem bind [IsTrans σ R] {f : α → EStateM ε σ β} (hx : EitherWayAt E R s x)
    (hf : ∀ a t, x s = .ok a t → EitherWayAt E R t (f a)) : EitherWayAt E R s (x >>= f) :=
  EndsIn.bind hx fun a t hrun ht =>
    (hf a t hrun).mono (fun _ => trans_of R ht) fun _ _ => Or.imp_right (trans_of R ht)

/-- The step goes on as another one does from another state. -/
theorem via {S : σ → σ → Prop} {y : EStateM ε σ α} {t : σ} (hy : EitherWayAt E S t y)
    (h : ∀ u, S t u → R s u) (hxy : x s = y t) : EitherWayAt E R s x := by
  rw [EitherWayAt, hxy]
  exact hy.mono h fun _ u => Or.imp_right (h u)

/-- In particular if the step succeeds. -/
theorem ok {a : α} {t : σ} (hx : EitherWayAt E R s x) (h : x s = .ok a t) : R s t := by
  rw [EitherWayAt, h] at hx
  exact hx

/-- With no failure exempt it holds of the state after the step, however that ends. -/
theorem stateAfter (hx : EitherWayAt (fun _ => False) R s x) : R s (stateAfter (x s)) := by
  rw [EitherWayAt] at hx
  cases hrun : x s with
  | ok a t =>
    rw [hrun] at hx
    exact hx
  | error e t =>
    rw [hrun] at hx
    exact hx.resolve_left id

end EitherWayAt

/-- The same from every state. -/
def EitherWay (E : ε → Prop) (R : σ → σ → Prop) (x : EStateM ε σ α) : Prop :=
  ∀ s, EitherWayAt E R s x

namespace EitherWay

theorem pure [Std.Refl R] (a : α) : EitherWay E R (pure a : EStateM ε σ α) :=
  fun s => refl_of R s

theorem bind [IsTrans σ R] {x : EStateM ε σ α} {f : α → EStateM ε σ β} (hx : EitherWay E R x)
    (hf : ∀ a, EitherWay E R (f a)) : EitherWay E R (x >>= f) :=
  fun s => .bind (hx s) fun a t _ => hf a t

theorem fail [Std.Refl R] {E : Failure ε → Prop} (cause : ε) :
    EitherWay E R (fail cause : EStateM (Failure ε) σ α) :=
  fun s => .inr (refl_of R s)

theorem query [Std.Refl R] {E : Failure ε → Prop} (q : Except Fault α) :
    EitherWay E R (query q : EStateM (Failure ε) σ α) := by
  intro s
  cases q with
  | ok a => exact refl_of R s
  | error fault => exact .inr (refl_of R s)

end EitherWay

end SlotCode
