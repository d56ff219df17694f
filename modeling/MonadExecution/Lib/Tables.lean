import Mathlib.Data.List.AList

/-!
# Finite tables

A table is an association list without duplicate keys, read with `lookup`. Two operations are added
to those of `AList`: `alter` rewrites what a table holds at one key, and `alterAll` does so at every
key of a list. Both are described by what `lookup` finds afterwards, so that a proof about a loop
over a table never has to look at the order of its entries.
-/

namespace MonadExecution

open AList

/-- A finite table from `κ` to `ν`. -/
abbrev Table (κ ν : Type) := AList (fun _ : κ => ν)

namespace Table

variable {κ ν : Type} [DecidableEq κ]

theorem lookup_insert_ite (t : Table κ ν) (a b : κ) (x : ν) :
    (t.insert a x).lookup b = if b = a then some x else t.lookup b := by
  split_ifs with h
  · subst h
    exact lookup_insert t
  · exact lookup_insert_ne h

/-- Rewrite the entry at `a`: `none` stands for no entry, before and after. -/
def alter (t : Table κ ν) (a : κ) (f : Option ν → Option ν) : Table κ ν :=
  match f (t.lookup a) with
  | some x => t.insert a x
  | none => t.erase a

theorem lookup_alter (t : Table κ ν) (a b : κ) (f : Option ν → Option ν) :
    (t.alter a f).lookup b = if b = a then f (t.lookup a) else t.lookup b := by
  unfold alter
  rcases eq_or_ne b a with rfl | hne
  · rw [if_pos rfl]
    cases h : f (t.lookup b) with
    | none => exact lookup_erase b t
    | some x => exact lookup_insert t
  · rw [if_neg hne]
    cases f (t.lookup a) with
    | none => exact lookup_erase_ne hne
    | some x => exact lookup_insert_ne hne

/-- Rewrite the entries at all keys of a list. -/
def alterAll (f : κ → Option ν → Option ν) : List κ → Table κ ν → Table κ ν
  | [], t => t
  | a :: l, t => alterAll f l (t.alter a (f a))

/-- A list without duplicates rewrites each of its entries once, and no other. -/
theorem lookup_alterAll (f : κ → Option ν → Option ν) {l : List κ} (hl : l.Nodup) (t : Table κ ν) (b : κ) :
    (alterAll f l t).lookup b = if b ∈ l then f b (t.lookup b) else t.lookup b := by
  induction l generalizing t with
  | nil => simp [alterAll]
  | cons a l ih =>
    obtain ⟨ha, hl⟩ := List.nodup_cons.mp hl
    show (alterAll f l (t.alter a (f a))).lookup b = _
    rw [ih hl, lookup_alter]
    rcases eq_or_ne b a with rfl | hne
    · simp [ha]
    · simp [hne]

variable {t : Table κ ν}

/-- A property of entries that each rewriting keeps. -/
theorem forall_alterAll {P : κ → ν → Prop} {f : κ → Option ν → Option ν} {l : List κ}
    (ht : ∀ a x, t.lookup a = some x → P a x) (hf : ∀ a x y, (∀ z, x = some z → P a z) → f a x = some y → P a y) :
    ∀ a x, (alterAll f l t).lookup a = some x → P a x := by
  induction l generalizing t with
  | nil => exact ht
  | cons b l ih =>
    refine ih ?_
    intro a x hx
    rw [lookup_alter] at hx
    split_ifs at hx with hab
    · subst hab
      exact hf a _ x (fun z hz => ht a z hz) hx
    · exact ht a x hx

/-- Does every entry of the table pass the test? -/
def all (t : Table κ ν) (p : κ → ν → Bool) : Bool := t.entries.all fun e => p e.1 e.2

theorem all_iff {p : κ → ν → Bool} : t.all p = true ↔ ∀ a x, t.lookup a = some x → p a x = true := by
  unfold all
  rw [List.all_eq_true]
  constructor
  · intro h a x hx
    exact h ⟨a, x⟩ (mem_lookup_iff.mp hx)
  · intro h e he
    exact h e.1 e.2 (mem_lookup_iff.mpr he)

theorem mem_keys_iff {a : κ} : a ∈ t.keys ↔ ∃ x, t.lookup a = some x := by
  rw [← mem_keys, ← lookup_isSome, Option.isSome_iff_exists]

end Table

end MonadExecution
