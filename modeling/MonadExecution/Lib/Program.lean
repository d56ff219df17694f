import Mathlib.Logic.Basic

/-!
# Stateful programs that can fail

A program is an `EStateM`: it takes a state and either returns a value with a new state or stops
with an error and the state it had reached. `Program.wp` is its weakest precondition, with one
postcondition for each way of ending; the rules below push it through the control operators, so
that a function is verified by rewriting with the rules and with the specifications of the
functions it calls. `Program.orRevert` is the transaction around a program: an error undoes what
the program did, except for the part of the state that a caller chooses to keep.
-/

namespace MonadExecution

variable {ε σ α β : Type}

namespace Program

/-! ## Control operators -/

/-- Go on if `c` holds, stop with `e` otherwise. -/
def require (c : Prop) [Decidable c] (e : ε) : EStateM ε σ Unit := if c then pure () else throw e

/-- Run `m` only if `c` holds. -/
def onlyIf (c : Prop) [Decidable c] (m : EStateM ε σ Unit) : EStateM ε σ Unit := if c then m else pure ()

/-- Read a part of the state. -/
def load (f : σ → α) : EStateM ε σ α := fun s => .ok (f s) s

/-- Change the state. -/
def update (f : σ → σ) : EStateM ε σ Unit := fun s => .ok () (f s)

/-- A computation without state. -/
def lift (x : Except ε α) : EStateM ε σ α := fun s =>
  match x with
  | .ok a => .ok a s
  | .error e => .error e s

/-! ## Running a program step by step -/

theorem bind_run (x : EStateM ε σ α) (f : α → EStateM ε σ β) (s : σ) : (x >>= f) s = match x s with
    | .ok a s' => f a s'
    | .error e s' => .error e s' := rfl

theorem pure_run (a : α) (s : σ) : (pure a : EStateM ε σ α) s = .ok a s := by simp only [pure, EStateM.pure]

/-! ## Weakest preconditions -/

/-- `m` started in `s` either returns and `Q` holds, or fails and `E` holds. -/
def wp (m : EStateM ε σ α) (Q : α → σ → Prop) (E : ε → σ → Prop) (s : σ) : Prop := match m s with
  | .ok a s' => Q a s'
  | .error e s' => E e s'

variable {Q Q' : α → σ → Prop} {E E' : ε → σ → Prop} {s s' : σ}

theorem wp_mono {m : EStateM ε σ α} (h : wp m Q E s) (hQ : ∀ a s', Q a s' → Q' a s')
    (hE : ∀ e s', E e s' → E' e s') : wp m Q' E' s := by
  unfold wp at *
  split at h
  · exact hQ _ _ h
  · exact hE _ _ h

@[simp] theorem wp_pure (a : α) : wp (pure a : EStateM ε σ α) Q E s ↔ Q a s := Iff.rfl

@[simp] theorem wp_throw (e : ε) : wp (throw e : EStateM ε σ α) Q E s ↔ E e s := Iff.rfl

@[simp] theorem wp_bind (x : EStateM ε σ β) (f : β → EStateM ε σ α) :
    wp (x >>= f) Q E s ↔ wp x (fun b s' => wp (f b) Q E s') E s := by
  unfold wp
  rw [bind_run]
  cases x s <;> exact Iff.rfl

@[simp] theorem wp_map (x : EStateM ε σ β) (f : β → α) : wp (f <$> x) Q E s ↔ wp x (fun b s' => Q (f b) s') E s := by
  rw [map_eq_pure_bind, wp_bind]
  rfl

@[simp] theorem wp_load (f : σ → α) : wp (load f) Q E s ↔ Q (f s) s := Iff.rfl

@[simp] theorem wp_update {Q : Unit → σ → Prop} (f : σ → σ) : wp (update f) Q E s ↔ Q () (f s) := Iff.rfl

theorem wp_ite (c : Prop) [Decidable c] (m n : EStateM ε σ α) :
    wp (if c then m else n) Q E s ↔ (c → wp m Q E s) ∧ (¬ c → wp n Q E s) := by
  by_cases h : c <;> simp [h]

@[simp] theorem wp_require {Q : Unit → σ → Prop} (c : Prop) [Decidable c] (e : ε) :
    wp (require c e) Q E s ↔ (c → Q () s) ∧ (¬ c → E e s) := by
  unfold require
  rw [wp_ite, wp_pure, wp_throw]

@[simp] theorem wp_onlyIf {Q : Unit → σ → Prop} (c : Prop) [Decidable c] (m : EStateM ε σ Unit) :
    wp (onlyIf c m) Q E s ↔ (c → wp m Q E s) ∧ (¬ c → Q () s) := by
  unfold onlyIf
  rw [wp_ite, wp_pure]

/-- A change of the state under a condition is a change of the state. -/
theorem wp_onlyIf_update {Q : Unit → σ → Prop} (c : Prop) [Decidable c] (f : σ → σ) :
    wp (onlyIf c (update f)) Q E s ↔ Q () (if c then f s else s) := by
  by_cases h : c <;> simp [h]

@[simp] theorem wp_lift_ok (a : α) : wp (lift (.ok a) : EStateM ε σ α) Q E s ↔ Q a s := Iff.rfl

@[simp] theorem wp_lift_error (e : ε) : wp (lift (.error e) : EStateM ε σ α) Q E s ↔ E e s := Iff.rfl

/-- Two facts about a program that are proved separately. -/
theorem wp_and {m : EStateM ε σ α} (h : wp m Q E s) (h' : wp m Q' E' s) :
    wp m (fun a s' => Q a s' ∧ Q' a s') (fun e s' => E e s' ∧ E' e s') s := by
  unfold wp at *
  split at h <;> simp_all

/-! ## Frames -/

/-- Where `m` returns, it has not changed what `f` reads. -/
def Keeps {γ : Type} (f : σ → γ) (m : EStateM ε σ α) : Prop := ∀ s, wp m (fun _ s' => f s' = f s) (fun _ _ => True) s

namespace Keeps

variable {γ : Type} {f : σ → γ}

theorem pure {a : α} : Keeps f (Pure.pure a : EStateM ε σ α) := fun _ => rfl

theorem throw {e : ε} : Keeps f (MonadExcept.throw e : EStateM ε σ α) := fun _ => trivial

theorem load {g : σ → α} : Keeps f (load g : EStateM ε σ α) := fun _ => rfl

theorem update {g : σ → σ} (h : f ∘ g = f) : Keeps f (update g : EStateM ε σ Unit) := fun s => congrFun h s

theorem lift {x : Except ε α} : Keeps f (lift x : EStateM ε σ α) := by
  intro s
  cases x with
  | ok a => rfl
  | error e => trivial

theorem bind {x : EStateM ε σ β} {g : β → EStateM ε σ α} (hx : Keeps f x)
    (hg : ∀ {b}, Keeps f (g b)) : Keeps f (x >>= g) := by
  intro s
  rw [wp_bind]
  refine wp_mono (hx s) (fun b s' hs' => ?_) fun _ _ h => h
  exact wp_mono (hg s') (fun _ _ h => h.trans hs') fun _ _ h => h

theorem ite {c : Prop} [Decidable c] {m n : EStateM ε σ α} (hm : Keeps f m) (hn : Keeps f n) :
    Keeps f (if c then m else n) := by
  split
  · exact hm
  · exact hn

theorem require {c : Prop} [Decidable c] {e : ε} : Keeps f (require c e : EStateM ε σ Unit) := .ite .pure .throw

theorem onlyIf {c : Prop} [Decidable c] {m : EStateM ε σ Unit} (hm : Keeps f m) :
    Keeps f (onlyIf c m) := .ite hm .pure

end Keeps

/-! ## Transactions -/

/-- Run `m`; on an error go back to the state before it, keeping what `keep` takes from the state
the program had reached. -/
def orRevert (keep : σ → σ → σ) (m : EStateM ε σ α) (s : σ) : Except ε α × σ := match m s with
  | .ok a s' => (.ok a, s')
  | .error e s' => (.error e, keep s s')

/-- What holds after a transaction: the postcondition of the program where it returned, and
where it failed whatever holds of every reverted state. -/
theorem orRevert_of_wp {keep : σ → σ → σ} {m : EStateM ε σ α} {P : σ → Prop}
    (h : wp m (fun _ s' => P s') (fun _ s' => P (keep s s')) s) : P (orRevert keep m s).2 := by
  unfold orRevert
  unfold wp at h
  split at h <;> exact h

/-- A program that cannot fail succeeds as a transaction. -/
theorem orRevert_eq_ok {keep : σ → σ → σ} {m : EStateM ε σ α} {b : α}
    (h : wp m (fun a _ => a = b) (fun _ _ => False) s) : (orRevert keep m s).1 = .ok b := by
  unfold orRevert
  unfold wp at h
  split at h
  · rw [h]
  · exact h.elim

end Program

end MonadExecution
