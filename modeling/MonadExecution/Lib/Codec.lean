import Mathlib.Data.List.Basic
import Mathlib.Logic.Function.Basic

/-!
# Decoders

A decoder takes a value off the front of its input and leaves the rest, or it stops. `Reads` says that a
decoder takes given symbols for a given value, whatever follows them, and `Confirms` that only these
symbols are taken for the value: the two halves of being the inverse of an encoder. Both carry over from
a decoder to the loop that decodes until the input is used up.
-/

namespace MonadExecution.Codec

open List

variable {σ ε α : Type}

abbrev Decoder (σ ε α : Type) := StateT (List σ) (Except ε) α

namespace Decoder

/-- The symbols `e` are read as `x`, whatever follows. -/
def Reads (m : Decoder σ ε α) (e : List σ) (x : α) : Prop := ∀ rest, m (e ++ rest) = .ok (x, rest)

/-- Only the symbols `e` are read as `x`. -/
def Confirms (m : Decoder σ ε α) (e : List σ) (x : α) : Prop :=
  ∀ input rest, m input = .ok (x, rest) → input = e ++ rest

/-! ## Decoding until nothing is left -/

/-- The values of an input that is used up by them. The fuel is the number of values at most, `stuck`
stands for a loop that is still running then. -/
def many (stuck : ε) (m : Decoder σ ε α) : (fuel : Nat) → List σ → Except ε (List α)
  | _, [] => .ok []
  | 0, _ :: _ => .error stuck
  | fuel + 1, b :: bs => do
    let p ← m (b :: bs)
    let more ← many stuck m fuel p.2
    return p.1 :: more

/-- The loop over the whole input. -/
def exhaust (stuck : ε) (m : Decoder σ ε α) (input : List σ) : Except ε (List α) := many stuck m input.length input

variable {stuck : ε} {m : Decoder σ ε α} {fuel : Nat} {xs : List α} {enc : α → List σ} {input : List σ}

theorem many_step {b : σ} {bs : List σ} (h : many stuck m (fuel + 1) (b :: bs) = .ok xs) :
    ∃ x more rest, m (b :: bs) = .ok (x, rest) ∧ many stuck m fuel rest = .ok more ∧ xs = x :: more := by
  simp only [many, bind, Except.bind, pure, Except.pure] at h
  split at h
  · cases h
  rename_i p hp
  split at h
  · cases h
  rename_i more hmore
  cases h
  exact ⟨p.1, more, p.2, hp, hmore, rfl⟩

/-- Values one after the other, each with at least one symbol. -/
theorem many_reads (enc : α → List σ) (hrds : ∀ x ∈ xs, Reads m (enc x) x) (hpos : ∀ x ∈ xs, enc x ≠ [])
    (hfuel : xs.length ≤ fuel) : many stuck m fuel (xs.flatMap enc) = .ok xs := by
  induction xs generalizing fuel with
  | nil => cases fuel <;> rfl
  | cons x xs ih =>
    obtain ⟨fuel, rfl⟩ := Nat.exists_eq_add_of_lt hfuel
    have hx := hrds x (by simp) (xs.flatMap enc)
    have hrest := ih (fun y hy => hrds y (by simp [hy])) (fun y hy => hpos y (by simp [hy]))
      (Nat.le_add_right xs.length fuel)
    rw [flatMap_cons]
    cases henc : enc x ++ xs.flatMap enc with
    | nil => exact absurd (append_eq_nil_iff.mp henc).1 (hpos x (by simp))
    | cons b bs =>
      rw [henc] at hx
      simp only [many, hx, bind, Except.bind, hrest]
      rfl

theorem length_le_flatMap (hpos : ∀ x ∈ xs, enc x ≠ []) : xs.length ≤ (xs.flatMap enc).length := by
  induction xs with
  | nil => exact Nat.le_refl _
  | cons x xs ih =>
    have hx := length_pos_of_ne_nil (hpos x (by simp))
    have hxs := ih fun y hy => hpos y (by simp [hy])
    rw [flatMap_cons, length_append, length_cons]
    omega

theorem exhaust_reads (enc : α → List σ) (hrds : ∀ x ∈ xs, Reads m (enc x) x) (hpos : ∀ x ∈ xs, enc x ≠ []) :
    exhaust stuck m (xs.flatMap enc) = .ok xs :=
  many_reads enc hrds hpos (length_le_flatMap hpos)

theorem many_confirms (hconf : ∀ x ∈ xs, Confirms m (enc x) x) (h : many stuck m fuel input = .ok xs) :
    input = xs.flatMap enc := by
  induction fuel generalizing input xs with
  | zero =>
    cases input with
    | nil =>
      cases h
      rfl
    | cons b bs => cases h
  | succ fuel ih =>
    cases input with
    | nil =>
      cases h
      rfl
    | cons b bs =>
      obtain ⟨x, more, rest, hx, hmore, rfl⟩ := many_step h
      have hrest := ih (fun y hy => hconf y (by simp [hy])) hmore
      rw [hconf x (by simp) _ _ hx, hrest, flatMap_cons]

theorem exhaust_confirms (hconf : ∀ x ∈ xs, Confirms m (enc x) x) (h : exhaust stuck m input = .ok xs) :
    input = xs.flatMap enc := many_confirms hconf h

end Decoder

end MonadExecution.Codec
