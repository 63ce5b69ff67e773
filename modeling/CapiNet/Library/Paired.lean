import Mathlib.Data.List.Forall2

namespace SideBySide

variable {ε α β γ δ : Type}

/-- The same failure, or related results. -/
inductive Paired (R : α → β → Prop) : Except ε α → Except ε β → Prop
  | ok {a : α} {b : β} : R a b → Paired R (.ok a) (.ok b)
  | error (e : ε) : Paired R (.error e) (.error e)

theorem Paired.refl {R : α → α → Prop} (h : ∀ a, R a a) (x : Except ε α) : Paired R x x := by
  cases x with
  | error e => exact .error e
  | ok a => exact .ok (h a)

theorem Paired.mono {R S : α → β → Prop} {x : Except ε α} {y : Except ε β} (h : Paired R x y)
    (hRS : ∀ a b, R a b → S a b) : Paired S x y := by
  cases h with
  | ok hab => exact .ok (hRS _ _ hab)
  | error e => exact .error e

/-- Related continuations keep two computations paired. -/
theorem Paired.bind {R : α → β → Prop} {S : γ → δ → Prop} {x : Except ε α} {y : Except ε β}
    {f : α → Except ε γ} {g : β → Except ε δ} (h : Paired R x y)
    (hfg : ∀ a b, R a b → Paired S (f a) (g b)) : Paired S (x >>= f) (y >>= g) := by
  cases h with
  | ok hab => exact hfg _ _ hab
  | error e => exact .error e

/-- Another way to report the failures. -/
theorem Paired.mapError {ε' : Type} {R : α → β → Prop} {x : Except ε α} {y : Except ε β}
    (h : Paired R x y) (f : ε → ε') : Paired R (x.mapError f) (y.mapError f) := by
  cases h with
  | ok hab => exact .ok hab
  | error e => exact .error (f e)

/-- Two lists computed element by element. -/
theorem Paired.mapM {R : γ → δ → Prop} {S : α → β → Prop} {f : α → Except ε γ}
    {g : β → Except ε δ} {xs : List α} {ys : List β} (h : List.Forall₂ S xs ys)
    (hfg : ∀ a b, a ∈ xs → S a b → Paired R (f a) (g b)) :
    Paired (List.Forall₂ R) (xs.mapM f) (ys.mapM g) := by
  induction h with
  | nil => exact .ok .nil
  | cons hab _ ih =>
    rw [List.mapM_cons, List.mapM_cons]
    refine (hfg _ _ (by simp) hab).bind fun c d hcd => ?_
    refine (ih fun a b ha => hfg a b (by simp [ha])).bind fun cs ds hrest => ?_
    exact .ok (.cons hcd hrest)

end SideBySide
