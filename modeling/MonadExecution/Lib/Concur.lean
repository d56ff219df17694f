import Mathlib.Logic.Basic

/-!
# Two computations that concur

Two computations that may fail concur when, if both succeed, their results are related. Nothing is said
when one of them fails. The rules follow the way computations are put together.
-/

namespace MonadExecution

variable {ε α β α' β' : Type}

def Concur (R : α → β → Prop) (x : Except ε α) (y : Except ε β) : Prop := ∀ a b, x = .ok a → y = .ok b → R a b

namespace Concur

variable {R : α → β → Prop} {S : α' → β' → Prop} {x : Except ε α} {y : Except ε β}

theorem ok {a : α} {b : β} (h : R a b) : Concur R (.ok a : Except ε α) (.ok b) := by
  rintro _ _ ⟨⟩ ⟨⟩
  exact h

theorem error {e e' : ε} : Concur R (.error e) (.error e') := by rintro _ _ ⟨⟩

theorem same (x : Except ε α) : Concur Eq x x := by
  rintro a b ha hb
  exact Except.ok.inj (ha.symm.trans hb)

variable {f : α → Except ε α'}

theorem bind {g : β → Except ε β'} (h : Concur R x y) (hf : ∀ a b, R a b → Concur S (f a) (g b)) :
    Concur S (x >>= f) (y >>= g) := by
  intro a' b' ha hb
  match x, y with
  | .ok a, .ok b => exact hf a b (h a b rfl rfl) a' b' ha hb
  | .error _, _ => cases ha
  | _, .error _ => cases hb

/-- Both begin with the same computation. -/
theorem bind_same {g : α → Except ε β'} (hf : ∀ a, Concur S (f a) (g a)) : Concur S (x >>= f) (x >>= g) :=
  (same x).bind fun a _ hab => hab ▸ hf a

theorem ite {c : Prop} [Decidable c] {x' : Except ε α} {y' : Except ε β} (h : c → Concur R x y)
    (h' : ¬c → Concur R x' y') : Concur R (if c then x else x') (if c then y else y') := by
  split
  · exact h ‹_›
  · exact h' ‹_›

end Concur

end MonadExecution
