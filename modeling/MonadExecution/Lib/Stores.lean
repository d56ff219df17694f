import Mathlib.Logic.Basic
import Mathlib.Data.Option.Basic
import Mathlib.Tactic.SplitIfs

/-!
# Programs of single stores

A `Stores` program changes a memory by single stores. A failed assertion ends the run where it stands,
and the program then has no value. `exec` is what a completed run returns and leaves. The rules are one
equation for each operator and `exec`, and one rule for each operator and `Completes`.
-/

namespace MonadExecution

variable {σ τ α β ι : Type}

/-- What a program did: the memory it left, and its value unless it was aborted. -/
structure Stores.Run (σ α : Type) where
  final : σ
  value : Option α

/-- A program on a memory `σ` that returns an `α`. -/
def Stores (σ α : Type) : Type := σ → Stores.Run σ α

namespace Stores

/-- Go on with `k` when the first program has returned. -/
protected def bind (m : Stores σ α) (k : α → Stores σ β) : Stores σ β := fun s =>
  match (m s).value with
  | none => { final := (m s).final, value := none }
  | some a => k a (m s).final

instance : Monad (Stores σ) where
  pure a := fun s => { final := s, value := some a }
  bind := Stores.bind

/-! ## Operators -/

/-- One store. -/
def store (f : σ → σ) : Stores σ Unit := fun s => { final := f s, value := some () }

/-- Read a part of the memory. -/
def load (f : σ → α) : Stores σ α := fun s => { final := s, value := some (f s) }

/-- An assertion. -/
def require (c : Prop) [Decidable c] : Stores σ Unit := fun s =>
  { final := s, value := if c then some () else none }

/-- Run `m` only if `c` holds. -/
def onlyIf (c : Prop) [Decidable c] (m : Stores σ Unit) : Stores σ Unit := if c then m else pure ()

/-- Run a program for each entry of a list, in order. -/
def each : List ι → (ι → Stores σ Unit) → Stores σ Unit
  | [], _ => pure ()
  | i :: is, m => do
    m i
    each is m

/-- Run a program on a part of the memory. -/
def focus (get : σ → τ) (set : σ → τ → σ) (m : Stores τ α) : Stores σ α := fun s =>
  { final := set s (m (get s)).final, value := (m (get s)).value }

/-! ## Completed runs -/

/-- The value and the memory of a completed run. -/
def exec (m : Stores σ α) (s : σ) : Option (α × σ) := (m s).value.map (·, (m s).final)

@[simp] theorem exec_pure (a : α) (s : σ) : exec (pure a) s = some (a, s) := rfl

@[simp] theorem exec_bind (m : Stores σ α) (k : α → Stores σ β) (s : σ) :
    exec (m >>= k) s = (exec m s).bind fun r => exec (k r.1) r.2 := by
  show (Stores.bind m k s).value.map (·, (Stores.bind m k s).final) = _
  unfold Stores.bind exec
  cases (m s).value with
  | none => rfl
  | some a => rfl

variable {m : Stores σ α} {k : α → Stores σ β} {s s' : σ} {Q : β → σ → Prop}

/-- A completed sequence: both parts have completed. -/
theorem exec_bind_some {b : β} : exec (m >>= k) s = some (b, s') ↔
    ∃ a t, exec m s = some (a, t) ∧ exec (k a) t = some (b, s') := by
  rw [exec_bind, Option.bind_eq_some_iff, Prod.exists]

@[simp] theorem exec_store (f : σ → σ) (s : σ) : exec (store f) s = some ((), f s) := rfl

@[simp] theorem exec_load (f : σ → α) (s : σ) : exec (load f) s = some (f s, s) := rfl

@[simp] theorem exec_require (c : Prop) [Decidable c] (s : σ) :
    exec (require c) s = if c then some ((), s) else none := by
  unfold exec require
  split_ifs <;> rfl

@[simp] theorem exec_onlyIf (c : Prop) [Decidable c] (m : Stores σ Unit) (s : σ) :
    exec (onlyIf c m) s = if c then exec m s else some ((), s) := by
  unfold onlyIf
  split_ifs <;> rfl

@[simp] theorem exec_ite (c : Prop) [Decidable c] (m n : Stores σ α) (s : σ) :
    exec (if c then m else n) s = if c then exec m s else exec n s := by split_ifs <;> rfl

@[simp] theorem exec_each_cons (i : ι) (is : List ι) (m : ι → Stores σ Unit) (s : σ) :
    exec (each (i :: is) m) s = (exec (m i) s).bind fun r => exec (each is m) r.2 :=
  exec_bind (m i) (fun _ => each is m) s

theorem exec_each_append (is js : List ι) (m : ι → Stores σ Unit) (s : σ) :
    exec (each (is ++ js) m) s = (exec (each is m) s).bind fun r => exec (each js m) r.2 := by
  induction is generalizing s with
  | nil => rfl
  | cons i is ih =>
    rw [List.cons_append, exec_each_cons, exec_each_cons]
    cases exec (m i) s with
    | none => rfl
    | some r => exact ih r.2

theorem exec_focus (get : σ → τ) (set : σ → τ → σ) (m : Stores τ α) (s : σ) :
    exec (focus get set m) s = (exec m (get s)).map fun r => (r.1, set s r.2) := by
  unfold exec focus
  cases (m (get s)).value with
  | none => rfl
  | some a => rfl

/-- A completed run on a part of the memory. -/
theorem exec_focus_some {get : σ → τ} {set : σ → τ → σ} {m : Stores τ α} {a : α} :
    exec (focus get set m) s = some (a, s') ↔ ∃ t, exec m (get s) = some (a, t) ∧ s' = set s t := by
  rw [exec_focus, Option.map_eq_some_iff]
  constructor
  · rintro ⟨⟨b, t⟩, ht, hs⟩
    cases hs
    exact ⟨t, ht, rfl⟩
  · rintro ⟨t, ht, rfl⟩
    exact ⟨(a, t), ht, rfl⟩

/-- The program is not aborted, and ends in `Q`. -/
def Completes (m : Stores σ α) (s : σ) (Q : α → σ → Prop) : Prop := ∃ a s', exec m s = some (a, s') ∧ Q a s'

theorem Completes.mono {Q R : α → σ → Prop} (h : Completes m s Q) (himp : ∀ a s', Q a s' → R a s') :
    Completes m s R := by
  obtain ⟨a, s', hexec, hQ⟩ := h
  exact ⟨a, s', hexec, himp a s' hQ⟩

theorem Completes.bind {P : α → σ → Prop} (hm : Completes m s P) (hk : ∀ a s', P a s' → Completes (k a) s' Q) :
    Completes (m >>= k) s Q := by
  obtain ⟨a, s', hexec, hP⟩ := hm
  obtain ⟨b, s'', hexec', hQ⟩ := hk a s' hP
  exact ⟨b, s'', exec_bind_some.mpr ⟨a, s', hexec, hexec'⟩, hQ⟩

/-- The first part has been run already. -/
theorem completes_exec {a : α} (hexec : exec m s = some (a, s')) (h : Completes (k a) s' Q) :
    Completes (m >>= k) s Q := by
  obtain ⟨b, s'', hexec', hQ⟩ := h
  exact ⟨b, s'', exec_bind_some.mpr ⟨a, s', hexec, hexec'⟩, hQ⟩

theorem completes_load {f : σ → α} (h : Completes (k (f s)) s Q) : Completes (load f >>= k) s Q :=
  completes_exec rfl h

theorem completes_require {c : Prop} [Decidable c] {k : Unit → Stores σ β} (hc : c) (h : Completes (k ()) s Q) :
    Completes (require c >>= k) s Q := by
  refine completes_exec ?_ h
  rw [exec_require, if_pos hc]

theorem completes_onlyIf {c : Prop} [Decidable c] {m : Stores σ Unit} {Q : Unit → σ → Prop}
    (hpos : c → Completes m s Q) (hneg : ¬ c → Q () s) : Completes (onlyIf c m) s Q := by
  unfold onlyIf
  split_ifs with hc
  · exact hpos hc
  · exact ⟨(), s, rfl, hneg hc⟩

/-! ## What a program does not touch -/

/-- A completed run leaves `f` as it is. -/
def Fixes (f : σ → β) (m : Stores σ α) : Prop := ∀ s a s', exec m s = some (a, s') → f s' = f s

section Fixes

variable {κ : Type} {f : σ → κ}

theorem Fixes.pure {a : α} : Fixes f (pure a) := by
  intro s b s' h
  rw [exec_pure] at h
  cases h
  rfl

theorem Fixes.load {g : σ → α} : Fixes f (load g) := by
  intro s a s' h
  rw [exec_load] at h
  cases h
  rfl

theorem Fixes.require {c : Prop} [Decidable c] : Fixes f (require c) := by
  intro s a s' h
  rw [exec_require] at h
  split_ifs at h
  cases h
  rfl

theorem Fixes.store {g : σ → σ} (h : f ∘ g = f) : Fixes f (store g) := by
  intro s a s' hs
  rw [exec_store] at hs
  cases hs
  exact congrFun h s

/-- The rest of a run, from where the first part has left `f` as it was. -/
theorem Fixes.rest {m : Stores σ α} {k : α → Stores σ β} {s s' : σ} {b : β} {x : κ} (hm : Fixes f m) (hs : f s = x)
    (h : exec (m >>= k) s = some (b, s')) : ∃ a t, f t = x ∧ exec (k a) t = some (b, s') := by
  obtain ⟨a, t, ht, h⟩ := exec_bind_some.mp h
  exact ⟨a, t, (hm s a t ht).trans hs, h⟩

theorem Fixes.bind {m : Stores σ α} {k : α → Stores σ β} (hm : Fixes f m) (hk : ∀ {a}, Fixes f (k a)) :
    Fixes f (m >>= k) := by
  intro s b s' h
  obtain ⟨a, t, ht, h⟩ := exec_bind_some.mp h
  exact (hk t b s' h).trans (hm s a t ht)

theorem Fixes.onlyIf {c : Prop} [Decidable c] {m : Stores σ Unit} (hm : Fixes f m) : Fixes f (onlyIf c m) := by
  unfold Stores.onlyIf
  split_ifs
  · exact hm
  · exact .pure

theorem Fixes.each {m : ι → Stores σ Unit} (hm : ∀ i, Fixes f (m i)) (is : List ι) : Fixes f (each is m) := by
  induction is with
  | nil => exact .pure
  | cons i is ih => exact .bind (hm i) ih

theorem Fixes.focus {get : σ → τ} {set : σ → τ → σ} {m : Stores τ α} {g : τ → β} (hm : Fixes g m)
    (hset : ∀ s t, g t = g (get s) → f (set s t) = f s) : Fixes f (focus get set m) := by
  intro s a s' h
  obtain ⟨t, ht, rfl⟩ := exec_focus_some.mp h
  exact hset s t (hm (get s) a t ht)

end Fixes

end Stores

end MonadExecution
