import Mathlib
import MonadExecution.Lib.Finite

/-!
# The weighted LRU cache

Threads call `find`, `insert` and `try_insert` on one cache. A call changes the map, the list and `weight_` one after
the other, and what it evicts depends on `weight_` as it is then. If new keys have weights above zero, the cache is
exact and within its limit whenever no call is running. A new key of weight zero can leave it above the limit.
-/

namespace MonadExecution.LruWeightCache

open Function Finset

/-! ## The calls -/

/-- Where a thread is in its call, between two operations on the map, the list or `weight_`. -/
inductive Thread (Key : Type)
  | idle
  -- in `try_update_lru`, with the entry locked; a writer goes on with the change of the weight
  | touching (key : Key) (delta : Option Int)
  -- before `push_front`
  | pushing (key : Key) (weight : Nat)
  -- `adjust_by_delta_weight`
  | adding (delta : Int)
  | evicting (delta evicted : Int)
  | erasing (key : Key) (delta evicted : Int)
  | subtracting (weight : Nat) (delta evicted : Int)

structure Cache (ι Key : Type) where
  -- `hmap_`: its keys, and `cache_weight_` of the entries
  keys : Finset Key
  weightOf : Key → Nat
  -- `lru_`, from the front
  list : List Key
  weight : Int
  threads : ι → Thread Key

namespace Cache

variable {ι Key : Type}

def start : Cache ι Key where
  keys := ∅
  weightOf _ := 0
  list := []
  weight := 0
  threads _ := .idle

/-- Nobody writes the entry. -/
def Readable (c : Cache ι Key) (k : Key) : Prop := ∀ i d, c.threads i ≠ .touching k (some d)

/-- Nobody has an accessor to the entry. -/
def Unlocked (c : Cache ι Key) (k : Key) : Prop := ∀ i d, c.threads i ≠ .touching k d

end Cache

/-- A reader is done, a writer adjusts the weight. -/
@[simp]
def released {Key : Type} : Option Int → Thread Key
  | none => .idle
  | some delta => .adding delta

section Step

variable {ι Key : Type} [DecidableEq ι] [DecidableEq Key] (maxWeight : Nat) (allowed : Nat → Prop)

/-- One operation of a thread, where new keys have weights that are `allowed`. -/
inductive Step : Cache ι Key → Cache ι Key → Prop
  -- `find`, or `try_insert`, of a key that is there
  | read {c i k} : c.threads i = .idle → k ∈ c.keys → c.Readable k →
      Step c { c with threads := update c.threads i (.touching k none) }
  -- `insert` of a key that is there
  | overwrite {c i k} (w : Nat) : c.threads i = .idle → k ∈ c.keys → c.Unlocked k →
      Step c { c with
        weightOf := update c.weightOf k w
        threads := update c.threads i (.touching k (some (w - c.weightOf k))) }
  -- `insert` or `try_insert` of a new key
  | insert {c i k} {w : Nat} : c.threads i = .idle → k ∉ c.keys → allowed w →
      Step c { c with
        keys := insert k c.keys
        weightOf := update c.weightOf k w
        threads := update c.threads i (.pushing k w) }
  | updateLru {c i k d} : c.threads i = .touching k d → k ∈ c.list →
      Step c { c with list := k :: c.list.erase k, threads := update c.threads i (released d) }
  -- the time has not come, or the entry is not in the list
  | release {c i k d} : c.threads i = .touching k d → Step c { c with threads := update c.threads i (released d) }
  | pushFront {c i k} {w : Nat} : c.threads i = .pushing k w →
      Step c { c with list := k :: c.list, threads := update c.threads i (.adding w) }
  | add {c i d} : c.threads i = .adding d →
      Step c { c with
        weight := c.weight + d
        threads := update c.threads i (if maxWeight < c.weight + d ∧ 0 < d then .evicting d 0 else .idle) }
  | evict {c i d e l k} : c.threads i = .evicting d e → c.list = l ++ [k] →
      Step c { c with list := l, threads := update c.threads i (.erasing k d e) }
  | evictNone {c i d e} : c.threads i = .evicting d e → c.list = [] →
      Step c { c with threads := update c.threads i .idle }
  | erase {c i k d e} : c.threads i = .erasing k d e → k ∈ c.keys → c.Unlocked k →
      Step c { c with
        keys := c.keys.erase k
        threads := update c.threads i (.subtracting (c.weightOf k) d e) }
  | subtract {c i d e} {n : Nat} : c.threads i = .subtracting n d e →
      Step c { c with
        weight := c.weight - n
        threads := update c.threads i (if e + n < d then .evicting d (e + n) else .idle) }

def Reachable : Cache ι Key → Prop := Relation.ReflTransGen (Step maxWeight allowed) .start

end Step

/-! ## What a thread still has to do -/

namespace Thread

variable {Key : Type}

/-- How far `weight_` is ahead of the entries because of the thread. -/
@[simp]
def pending : Thread Key → Int
  | touching _ (some d) | adding d => -d
  | pushing _ w => -w
  | subtracting n _ _ => n
  | _ => 0

/-- The key of an entry that is not in the list because of the thread. -/
@[simp]
def place [DecidableEq Key] (k : Key) : Thread Key → Int
  | pushing k' _ | erasing k' _ _ => if k' = k then 1 else 0
  | _ => 0

/-- What the thread means to evict. -/
@[simp]
def obligation : Thread Key → Int
  | evicting d e | erasing _ d e | subtracting _ d e => max 0 (d - e)
  | _ => 0

/-- Whether the thread is going to take an entry from the list if `weight_` is still too large. -/
@[simp]
def claims : Thread Key → Int
  | touching _ (some d) | adding d => if 0 < d then 1 else 0
  | evicting _ _ => 1
  | _ => 0

theorem obligation_nonneg (t : Thread Key) : 0 ≤ t.obligation := by
  cases t <;> simp [obligation]

theorem claims_nonneg (t : Thread Key) : 0 ≤ t.claims := by
  unfold claims
  split <;> try split_ifs
  all_goals decide

theorem place_nonneg [DecidableEq Key] (k : Key) (t : Thread Key) : 0 ≤ t.place k := by
  unfold place
  split <;> try split_ifs
  all_goals decide

end Thread

/-! ## The invariant -/

variable {ι Key : Type} [DecidableEq Key] {maxWeight : Nat} {c c' : Cache ι Key}

/-- The weight of the entries. -/
@[simp]
def Cache.total (c : Cache ι Key) : Int := ∑ k ∈ c.keys, (c.weightOf k : Int)

theorem total_overwrite {k : Key} (hk : k ∈ c.keys) (w : Nat) :
    ∑ j ∈ c.keys, (update c.weightOf k w j : Int) = c.total + (w - c.weightOf k) := by
  rw [Cache.total, ← add_sum_erase _ _ hk, ← add_sum_erase _ (fun j => (c.weightOf j : Int)) hk,
    update_self, sum_congr rfl fun j hj => by rw [update_of_ne (ne_of_mem_erase hj)]]
  ring

variable [Fintype ι]

structure Ok (maxWeight : Nat) (c : Cache ι Key) : Prop where
  weight_eq : c.weight = c.total + ∑ i, (c.threads i).pending
  -- an entry has one place: in the list, or at a thread
  placed : ∀ k, c.list.count k + ∑ i, (c.threads i).place k = if k ∈ c.keys then (1 : Int) else 0
  positive : ∀ i k, c.threads i ≠ .pushing k 0
  -- an eviction that stopped at an empty list leaves too much, but nothing that is in the list
  bound : c.weight ≤ maxWeight + ∑ i, (c.threads i).obligation ∨ (c.list.length : Int) ≤ ∑ i, (c.threads i).claims

theorem Ok.mem_keys (h : Ok maxWeight c) {i : ι} {k : Key} (hi : 0 < (c.threads i).place k) : k ∈ c.keys := by
  have hle := single_le_sum (fun j _ => (c.threads j).place_nonneg k) (mem_univ i)
  have hplaced := h.placed k
  by_contra hk
  rw [if_neg hk] at hplaced
  omega

theorem ok_start : Ok maxWeight (.start : Cache ι Key) := by constructor <;> simp [Cache.start]

variable [DecidableEq ι]

/-- An operation is right if it is right for the thread and what it changes. -/
theorem Ok.move (h : Ok maxWeight c) {i : ι} {s t : Thread Key} (hi : c.threads i = s)
    (ht : c'.threads = update c.threads i t)
    (hweight : c'.weight - c'.total - t.pending = c.weight - c.total - s.pending)
    (hplace : ∀ k, c'.list.count k + t.place k - (if k ∈ c'.keys then (1 : Int) else 0) =
      c.list.count k + s.place k - if k ∈ c.keys then 1 else 0)
    (hpos : ∀ k, t ≠ .pushing k 0)
    (hbound : c'.weight ≤ maxWeight ∨ c'.list = [] ∨ c'.weight - t.obligation ≤ c.weight - s.obligation ∧
      c'.list.length - t.claims ≤ c.list.length - s.claims) : Ok maxWeight c' := by
  subst hi
  have hsum (f : Thread Key → Int) := sum_update f c.threads i t
  constructor
  · rw [ht]
    linarith [h.weight_eq, hsum Thread.pending]
  · intro k
    rw [ht]
    linarith [h.placed k, hplace k, hsum (Thread.place k)]
  · intro j k
    rw [ht]
    rcases eq_or_ne j i with rfl | hj
    · rw [update_self]
      exact hpos k
    · rw [update_of_ne hj]
      exact h.positive j k
  · rcases hbound with hlow | hemp | ⟨hob, hcl⟩
    · have hsum := sum_nonneg fun j (_ : j ∈ univ) => (c'.threads j).obligation_nonneg
      exact .inl (by linarith)
    · right
      rw [hemp]
      exact sum_nonneg fun j _ => (c'.threads j).claims_nonneg
    · rw [ht]
      exact h.bound.imp (fun h => by linarith [hsum Thread.obligation]) fun h => by linarith [hsum Thread.claims]

/-- Every operation keeps the invariant, if new keys have weights above zero. -/
theorem Ok.step (h : Ok maxWeight c) (hs : Step maxWeight (0 < ·) c c') : Ok maxWeight c' := by
  cases hs with
  | read hi => exact h.move hi rfl (by simp) (by simp) (by simp) (.inr (.inr (by simp)))
  | overwrite w hi hk =>
    refine h.move hi rfl ?_ (by simp) (by simp) (.inr (.inr ⟨by simp, ?_⟩))
    · rw [Cache.total, total_overwrite hk]
      simp only [Thread.pending]
      ring
    · simp only [Thread.claims]
      split_ifs <;> omega
  | @insert _ k w hi hk hw =>
    refine h.move hi rfl ?_ (fun k' => ?_) ?_ (.inr (.inr (by simp)))
    · simp only [Cache.total, Thread.pending, sum_insert hk, update_self]
      rw [sum_congr rfl fun j hj => by rw [update_of_ne (ne_of_mem_of_not_mem hj hk)]]
      ring
    · rcases eq_or_ne k k' with rfl | hne
      · simp [hk]
      · simp [hne, hne.symm]
    · simp only [ne_eq, Thread.pushing.injEq]
      omega
  | @updateLru _ k d hi hk =>
    have hperm := List.perm_cons_erase hk
    refine h.move hi rfl ?_ (fun k' => ?_) ?_ (.inr (.inr ?_))
    · cases d <;> simp
    · rw [← hperm.count_eq k']
      cases d <;> simp
    · cases d <;> simp
    · rw [← hperm.length_eq]
      cases d <;> simp
  | @release _ _ d hi => refine h.move hi rfl ?_ ?_ ?_ (.inr (.inr ?_)) <;> cases d <;> simp
  | @pushFront i k w hi =>
    have hw : w ≠ 0 := fun h0 => h.positive i k (h0 ▸ hi)
    refine h.move hi rfl (by simp) (fun k' => ?_) (by simp) (.inr (.inr ?_))
    · simp only [Thread.place, List.count_cons, beq_iff_eq]
      push_cast
      ring
    · simp [Nat.pos_of_ne_zero hw]
  | @add _ d hi =>
    refine h.move hi rfl ?_ (fun k => ?_) (fun k => ?_) ?_
    · split_ifs <;> simp <;> ring
    · split_ifs <;> simp
    · split_ifs <;> simp
    · rcases le_or_gt (c.weight + d) maxWeight with hle | hgt
      · exact .inl hle
      · by_cases hd : 0 < d
        · exact .inr (.inr (by simp [hgt, hd, hd.le]))
        · exact .inr (.inr (by simp [hd, not_lt.mp hd]))
  | evict hi hl =>
    refine h.move hi rfl (by simp) (fun k' => ?_) (by simp) (.inr (.inr (by simp [hl])))
    simp [hl, List.count_append, List.count_singleton]
  | evictNone hi hl => exact h.move hi rfl (by simp) (by simp) (by simp) (.inr (.inl hl))
  | @erase _ k d e hi hk =>
    refine h.move hi rfl ?_ (fun k' => ?_) (by simp) (.inr (.inr (by simp)))
    · simp only [Cache.total, Thread.pending]
      rw [← add_sum_erase _ (fun j => (c.weightOf j : Int)) hk]
      ring
    · rcases eq_or_ne k k' with rfl | hne
      · simp [hk]
      · simp [hne, hne.symm]
  | subtract hi =>
    refine h.move hi rfl ?_ (fun k => ?_) (fun k => ?_) (.inr (.inr ⟨?_, ?_⟩))
    · split_ifs <;> simp <;> ring
    · split_ifs <;> simp
    · split_ifs <;> simp
    · split_ifs <;> simp <;> omega
    · split_ifs <;> simp

/-- **The weight is exact.** If new keys have weights above zero, an entry that is evicted is in the map, and whenever
no call is running, the list has exactly the keys of the map, and `weight_` is their weight and within the limit. -/
theorem weight_exact (h : Reachable maxWeight (0 < ·) c) :
    (∀ i k d e, c.threads i = .erasing k d e → k ∈ c.keys) ∧
      ((∀ i, c.threads i = .idle) → c.list.Nodup ∧ (∀ k, k ∈ c.list ↔ k ∈ c.keys) ∧
        c.weight = ∑ k ∈ c.keys, (c.weightOf k : Int) ∧ c.weight ≤ maxWeight) := by
  have hok : Ok maxWeight c := by
    induction h with
    | refl => exact ok_start
    | tail _ hs ih => exact ih.step hs
  refine ⟨fun i k d e hi => hok.mem_keys (i := i) (by simp [hi]), fun hidle => ?_⟩
  have hplaced (k : Key) : (c.list.count k : Int) = if k ∈ c.keys then 1 else 0 := by
    simpa [hidle] using hok.placed k
  have hmem (k : Key) : k ∈ c.list ↔ k ∈ c.keys := by
    have hcount := hplaced k
    rw [← List.count_pos_iff]
    split_ifs at hcount with hk <;> simp only [hk, iff_true, iff_false] <;> omega
  have hweight : c.weight = c.total := by simpa [hidle] using hok.weight_eq
  refine ⟨List.nodup_iff_count_le_one.mpr fun k => ?_, hmem, hweight, ?_⟩
  · have hcount := hplaced k
    split_ifs at hcount <;> omega
  · rcases hok.bound with hle | hlen
    · simpa [hidle] using hle
    · -- nobody is going to evict, so nothing is left
      have hnil : c.list = [] := List.length_eq_zero_iff.mp (by simpa [hidle] using hlen)
      have hkeys : c.keys = ∅ := Finset.eq_empty_of_forall_notMem fun k hk => by
        rw [← hmem, hnil] at hk
        cases hk
      rw [hweight, Cache.total, hkeys]
      simp

/-- Two threads insert a key each, one overwrites the key of the other before its weight has been added, and evicts
its own key. -/
theorem weight_exact_insert : ∃ c : Cache Bool Bool, c.list = [false] ∧ (∀ i, c.threads i = .idle) ∧ c.weight = 7 ∧
    c.weight = ∑ k ∈ c.keys, (c.weightOf k : Int) ∧ c.weight ≤ 10 := by
  have h1 : Reachable 10 (0 < ·) _ := .tail .refl (.insert (i := false) (k := false) (w := 5) rfl
    (by simp [Cache.start]) (by decide))
  have h2 := h1.tail (.insert (i := true) (k := true) (w := 4) rfl (by simp [Cache.start]) (by decide))
  have h3 := (h2.tail (.pushFront (i := false) rfl)).tail (.pushFront (i := true) rfl)
  have h4 := h3.tail (.add (i := true) rfl)
  have h5 := h4.tail (.overwrite (i := true) (k := false) 7 rfl (by simp) fun i d => by cases i <;> simp [Cache.start])
  have h6 := (h5.tail (.add (i := false) rfl)).tail (.updateLru (i := true) rfl (by simp [Cache.start]))
  have h7 := (h6.tail (.add (i := true) rfl)).tail (.evict (i := true) (l := [false]) rfl rfl)
  have h8 := h7.tail (.erase (i := true) rfl (by simp) fun i d => by cases i <;> simp [Cache.start])
  have h9 := h8.tail (.subtract (i := true) rfl)
  obtain ⟨-, -, hweight, hle⟩ := (weight_exact h9).2 fun i => by cases i <;> rfl
  exact ⟨_, rfl, fun i => by cases i <;> rfl, rfl, hweight, hle⟩

/-- A new key of weight zero is overwritten before it is in the list: the second thread finds nothing to evict, and
the first one has nothing to make up for. -/
theorem insert_zero_exceeds : ∃ c : Cache Bool Unit, Reachable 10 (fun _ => True) c ∧ (∀ i, c.threads i = .idle) ∧
    10 < c.weight := by
  have h1 : Reachable 10 (fun _ => True) _ := .tail .refl (.insert (i := false) (k := ()) (w := 0) rfl
    (by simp [Cache.start]) trivial)
  have h2 := h1.tail (.overwrite (i := true) (k := ()) 100 rfl (by simp) fun i d => by cases i <;> simp [Cache.start])
  have h3 := h2.tail (.release (i := true) rfl)
  have h4 := h3.tail (.add (i := true) rfl)
  have h5 := h4.tail (.evictNone (i := true) rfl rfl)
  have h6 := h5.tail (.pushFront (i := false) rfl)
  have h7 := h6.tail (.add (i := false) rfl)
  exact ⟨_, h7, fun i => by cases i <;> rfl, by decide⟩

end MonadExecution.LruWeightCache
