import Mathlib.Data.List.Nodup
import Mathlib.Logic.Function.Basic

/-!
# Intrusive doubly linked lists

A table of links gives every pointer a `prev` and a `next` pointer. A list hangs off a `sentinel`
and ends with the pointer `empty`; a pointer is in the list exactly if it has a `prev` pointer, so
that membership is decided with one read. `IsList` ties such a table to the list of its entries, and
the operations below act on that list: insertion at the front, removal, and reading it page by page.
-/

namespace MonadExecution

open Function List

structure Links (α : Type) where
  prev : α → α
  next : α → α

namespace Links

variable {α : Type}

/-! ## Paths -/

/-- From `s`, the links visit `xs` one after the other, in both directions, and arrive at `t`. -/
inductive Path (l : Links α) : α → List α → α → Prop
  | nil {s : α} : Path l s [] s
  | cons {s x t : α} {xs : List α} (hnext : l.next s = x) (hprev : l.prev x = s)
      (h : Path l x xs t) : Path l s (x :: xs) t

namespace Path

variable {l l' : Links α} {s t u : α} {xs ys : List α}

theorem append (h : Path l s xs t) (h' : Path l t ys u) : Path l s (xs ++ ys) u := by
  induction h with
  | nil => exact h'
  | cons hnext hprev _ ih => exact .cons hnext hprev (ih h')

theorem split (h : Path l s (xs ++ ys) u) : ∃ t, Path l s xs t ∧ Path l t ys u := by
  induction xs generalizing s with
  | nil => exact ⟨s, .nil, h⟩
  | cons x xs ih =>
    cases h with
    | cons hnext hprev h =>
      obtain ⟨t, hxs, hys⟩ := ih h
      exact ⟨t, .cons hnext hprev hxs, hys⟩

/-- A path arrives at one of the pointers it visits, or has not left. -/
theorem mem_cons (h : Path l s xs t) : t ∈ s :: xs := by
  induction h with
  | nil => exact mem_cons_self
  | cons _ _ _ ih => exact mem_cons_of_mem _ ih

/-- A path depends on the `next` links of all pointers but the last one, and on the `prev` links of
all but the first one. -/
theorem congr (h : Path l s xs t) (hnd : (s :: xs).Nodup) (hnext : ∀ x ∈ s :: xs, x ≠ t → l'.next x = l.next x)
    (hprev : ∀ x ∈ xs, l'.prev x = l.prev x) : Path l' s xs t := by
  induction h with
  | nil => exact .nil
  | @cons s x t xs hn hp h ih =>
    obtain ⟨hs, hxs⟩ := nodup_cons.mp hnd
    have hst : s ≠ t := fun heq => hs (heq ▸ h.mem_cons)
    refine .cons ?_ ?_ (ih hxs ?_ ?_)
    · rw [hnext s mem_cons_self hst, hn]
    · rw [hprev x mem_cons_self, hp]
    · exact fun y hy => hnext y (mem_cons_of_mem _ hy)
    · exact fun y hy => hprev y (mem_cons_of_mem _ hy)

end Path

/-! ## Lists -/

/-- The links hold the list `xs`. -/
structure IsList (l : Links α) (sentinel empty : α) (xs : List α) : Prop where
  nodup : (sentinel :: xs).Nodup
  path : ∃ t, Path l sentinel xs t ∧ l.next t = empty
  mem_iff : ∀ x, x ∈ xs ↔ l.prev x ≠ empty
  prev_empty : l.prev empty = empty

section Lists

variable {l : Links α} {sentinel empty : α} {xs : List α}

namespace IsList

section

variable (h : IsList l sentinel empty xs)

include h

theorem sentinel_notMem : sentinel ∉ xs := (nodup_cons.mp h.nodup).1

theorem nodup_list : xs.Nodup := (nodup_cons.mp h.nodup).2

theorem empty_notMem : empty ∉ xs := fun hmem => (h.mem_iff empty).mp hmem h.prev_empty

/-- The first entry, or none. -/
theorem next_sentinel : l.next sentinel = xs.headD empty := by
  obtain ⟨t, hpath, hend⟩ := h.path
  cases hpath with
  | nil => exact hend
  | cons hnext _ _ => exact hnext

/-- The links around an entry. -/
theorem around {x : α} (hx : x ∈ xs) :
    ∃ ys zs, xs = ys ++ x :: zs ∧ Path l sentinel ys (l.prev x) ∧ l.next (l.prev x) = x ∧
      l.next x = zs.headD empty ∧ ∀ z zs', zs = z :: zs' → l.prev z = x ∧ ∃ t, Path l z zs' t ∧ l.next t = empty := by
  obtain ⟨ys, zs, rfl⟩ := append_of_mem hx
  obtain ⟨t, hpath, hend⟩ := h.path
  obtain ⟨s, hys, hzs⟩ := hpath.split
  cases hzs with
  | cons hnext hprev hzs =>
    subst hprev
    refine ⟨ys, zs, rfl, hys, hnext, ?_, ?_⟩
    · cases hzs with
      | nil => exact hend
      | cons hn _ _ => exact hn
    · rintro z zs' rfl
      cases hzs with
      | cons _ hp hrest => exact ⟨hp, t, hrest, hend⟩

end

end IsList

variable [DecidableEq α]

/-- Put `x` in front. -/
def pushFront (sentinel empty x : α) (l : Links α) : Links α where
  prev := update (if l.next sentinel = empty then l.prev else update l.prev (l.next sentinel) x) x sentinel
  next := update (update l.next x (l.next sentinel)) sentinel x

variable {x z : α} {limit : Nat}

theorem IsList.pushFront (h : IsList l sentinel empty xs) (hx : x ∉ xs) (hs : x ≠ sentinel) (he : x ≠ empty)
    (hse : sentinel ≠ empty) : IsList (l.pushFront sentinel empty x) sentinel empty (x :: xs) := by
  have hhead := h.next_sentinel
  obtain ⟨t, hpath, hend⟩ := h.path
  have hsx : (l.pushFront sentinel empty x).next sentinel = x := by simp [Links.pushFront]
  have hxs : (l.pushFront sentinel empty x).next x = xs.headD empty := by simp [Links.pushFront, hs, hhead]
  have hprev : ∀ y, y ≠ x → y ≠ l.next sentinel → (l.pushFront sentinel empty x).prev y = l.prev y := by
    intro y hy hy'
    unfold Links.pushFront
    dsimp only
    split_ifs <;> simp [hy, hy']
  have hnext : ∀ y, y ≠ x → y ≠ sentinel → (l.pushFront sentinel empty x).next y = l.next y := by
    intro y hy hy'
    simp [Links.pushFront, hy, hy']
  have hself : (l.pushFront sentinel empty x).prev x = sentinel := by simp [Links.pushFront]
  -- the head of the old list is the only other pointer whose `prev` link changes
  have hold : ∀ y ys, xs = y :: ys → (l.pushFront sentinel empty x).prev y = x := by
    rintro y ys rfl
    have hy : l.next sentinel = y := hhead
    have hyx : y ≠ x := fun heq => hx (heq ▸ mem_cons_self)
    have hye : y ≠ empty := fun heq => h.empty_notMem (heq ▸ mem_cons_self)
    simp [Links.pushFront, hy, hyx, hye]
  refine ⟨?_, ?_, ?_, ?_⟩
  · have hnd := h.nodup
    simp only [nodup_cons, mem_cons, not_or] at hnd ⊢
    exact ⟨⟨hs.symm, hnd.1⟩, hx, hnd.2⟩
  · cases hpath with
    | nil => exact ⟨x, .cons hsx hself .nil, hxs⟩
    | @cons _ y _ ys hn hp hrest =>
      have hnd := h.nodup_list
      have hne : ∀ z ∈ y :: ys, z ≠ x := fun z hz heq => hx (heq ▸ hz)
      have hns : ∀ z ∈ y :: ys, z ≠ sentinel := fun z hz heq => h.sentinel_notMem (heq ▸ hz)
      refine ⟨t, .cons hsx hself (.cons hxs (hold y ys rfl) (hrest.congr hnd ?_ ?_)), ?_⟩
      · exact fun z hz _ => hnext z (hne z hz) (hns z hz)
      · intro z hz
        refine hprev z (hne z (mem_cons_of_mem _ hz)) fun heq => ?_
        exact (nodup_cons.mp hnd).1 (hn ▸ heq ▸ hz)
      · rw [hnext t (hne t hrest.mem_cons) (hns t hrest.mem_cons), hend]
  · intro y
    rcases eq_or_ne y x with rfl | hyx
    · simp [hself, hse]
    rw [mem_cons, or_iff_right hyx]
    by_cases hy : y = l.next sentinel
    · cases xs with
      | nil =>
        -- the old list is empty, so `y` is the empty pointer
        have hye : y = empty := hy.trans hhead
        have hp : (l.pushFront sentinel empty x).prev y = l.prev y := by
          have h0 : l.next sentinel = empty := hhead
          simp [Links.pushFront, h0, hyx]
        rw [hp, hye, h.prev_empty]
        simp
      | cons z zs =>
        have hyz : y = z := hy.trans hhead
        rw [hyz, hold z zs rfl]
        simp [he]
    · rw [hprev y hyx hy]
      exact h.mem_iff y
  · by_cases h0 : l.next sentinel = empty
    · simp [Links.pushFront, h0, he.symm, h.prev_empty]
    · rw [hprev empty he.symm (Ne.symm h0), h.prev_empty]

/-- Take `x` out. -/
def unlink (empty x : α) (l : Links α) : Links α where
  prev := update (if l.next x = empty then l.prev else update l.prev (l.next x) (l.prev x)) x empty
  next := update (update l.next (l.prev x) (l.next x)) x empty

theorem IsList.unlink (h : IsList l sentinel empty xs) (hx : x ∈ xs) :
    IsList (l.unlink empty x) sentinel empty (xs.erase x) := by
  have hprev0 : l.prev x ≠ empty := (h.mem_iff x).mp hx
  obtain ⟨ys, zs, rfl, hys, hnextp, hnextx, hzs⟩ := h.around hx
  -- all the pointers involved are different
  have hnd := h.nodup
  rw [← cons_append, nodup_append] at hnd
  obtain ⟨hnd1, hnd2, hdisjoint⟩ := hnd
  have hxzs : x ∉ zs := (nodup_cons.mp hnd2).1
  have hleft : ∀ y ∈ sentinel :: ys, y ≠ x := fun y hy => hdisjoint y hy x mem_cons_self
  have hright : ∀ y ∈ zs, y ≠ x := fun y hy heq => hxzs (heq ▸ hy)
  have hcross : ∀ y ∈ sentinel :: ys, ∀ z ∈ zs, y ≠ z := fun y hy z hz => hdisjoint y hy z (mem_cons_of_mem _ hz)
  have hxys : x ∉ ys := fun hmem => hleft x (mem_cons_of_mem _ hmem) rfl
  have herase : (ys ++ x :: zs).erase x = ys ++ zs := by rw [erase_append_right _ hxys, erase_cons_head]
  have hnext : ∀ y, y ≠ x → y ≠ l.prev x → (l.unlink empty x).next y = l.next y := by
    intro y hy hy'
    simp [Links.unlink, hy, hy']
  have hnextp' : (l.unlink empty x).next (l.prev x) = zs.headD empty := by
    simp [Links.unlink, hleft _ hys.mem_cons, hnextx]
  have hprev : ∀ y, y ≠ x → (zs = [] ∨ y ∉ zs.head?) → (l.unlink empty x).prev y = l.prev y := by
    intro y hy hy'
    unfold Links.unlink
    dsimp only
    cases zs with
    | nil =>
      have h0 : l.next x = empty := hnextx
      rw [if_pos h0, update_of_ne hy]
    | cons z zs =>
      have hyz : y ≠ l.next x := by
        rintro rfl
        simp [hnextx] at hy'
      split_ifs <;> simp [hy, hyz]
  have hpath1 : Path (l.unlink empty x) sentinel ys (l.prev x) := by
    refine hys.congr hnd1 (fun y hy hne => hnext y (hleft y hy) hne) fun y hy => ?_
    refine hprev y (hleft y (mem_cons_of_mem _ hy)) (.inr fun hmem => ?_)
    exact hcross y (mem_cons_of_mem _ hy) y (mem_of_head? hmem) rfl
  rw [herase]
  refine ⟨?_, ?_, ?_, ?_⟩
  · rw [← cons_append, nodup_append]
    exact ⟨hnd1, (nodup_cons.mp hnd2).2, hcross⟩
  · cases zs with
    | nil => exact ⟨l.prev x, by rwa [append_nil], hnextp'⟩
    | cons z zs =>
      obtain ⟨hpz, t, hrest, hend⟩ := hzs z zs rfl
      have hze : z ≠ empty := fun heq => h.empty_notMem (heq ▸ by simp)
      have hz : (l.unlink empty x).prev z = l.prev x := by
        have hzx : z ≠ x := hright z mem_cons_self
        have h0 : l.next x = z := hnextx
        simp [Links.unlink, h0, hzx, hze]
      have hnodupz := (nodup_cons.mp hnd2).2
      have hnep : ∀ y ∈ z :: zs, y ≠ l.prev x := fun y hy => (hcross _ hys.mem_cons y hy).symm
      refine ⟨t, hpath1.append (.cons hnextp' hz (hrest.congr hnodupz ?_ ?_)), ?_⟩
      · exact fun y hy _ => hnext y (hright y hy) (hnep y hy)
      · intro y hy
        refine hprev y (hright y (mem_cons_of_mem _ hy)) (.inr fun hmem => ?_)
        have hyz : z = y := by simpa using hmem
        exact (nodup_cons.mp hnodupz).1 (hyz ▸ hy)
      · rw [hnext t (hright t hrest.mem_cons) (hnep t hrest.mem_cons), hend]
  · intro y
    rcases eq_or_ne y x with rfl | hyx
    · have hself : (l.unlink empty y).prev y = empty := by simp [Links.unlink]
      simp [hself, hxys, hxzs]
    have hmem : y ∈ ys ++ zs ↔ y ∈ ys ++ x :: zs := by simp [hyx]
    rw [hmem, h.mem_iff y]
    by_cases hhead : zs = [] ∨ y ∉ zs.head?
    · rw [hprev y hyx hhead]
    -- `y` follows `x`, and now follows what `x` followed
    obtain ⟨hne, hin⟩ := not_or.mp hhead
    obtain ⟨z, zs', rfl⟩ := exists_cons_of_ne_nil hne
    have hyz : z = y := by simpa using hin
    have h0 : l.next x = z := hnextx
    have hze : z ≠ empty := fun heq => h.empty_notMem (heq ▸ by simp)
    have hy : (l.unlink empty x).prev y = l.prev x := by
      rw [← hyz]
      simp [Links.unlink, h0, hze, hyz ▸ hyx]
    rw [hy, ← hyz, (hzs z zs' rfl).1]
    have hxe : x ≠ empty := fun heq => h.empty_notMem (heq ▸ by simp)
    simp [hprev0, hxe]
  · have hex : empty ≠ x := fun heq => h.empty_notMem (heq ▸ by simp)
    rw [hprev empty hex (.inr fun hmem => ?_), h.prev_empty]
    exact h.empty_notMem (mem_append_right _ (mem_cons_of_mem _ (mem_of_head? hmem)))

/-! ## Reading a list -/

/-- Follow the `next` links, at most `limit` pointers. -/
def walk (l : Links α) (empty ptr : α) : Nat → α × List α
  | 0 => (ptr, [])
  | limit + 1 =>
    if ptr = empty then (ptr, [])
    else
      let rest := walk l empty (l.next ptr) limit
      (rest.1, ptr :: rest.2)

variable {zs ys : List α}

/-- A walk reads the entries ahead and stops in front of the next one. -/
theorem walk_path {s t : α} (h : Path l s zs t) (hend : l.next t = empty) (hemp : empty ∉ zs) (limit : Nat) :
    l.walk empty (l.next s) limit = ((zs.drop limit).headD empty, zs.take limit) := by
  induction limit generalizing s zs with
  | zero =>
    cases h with
    | nil => simp [walk, hend]
    | cons hnext _ _ => simp [walk, hnext]
  | succ limit ih =>
    cases h with
    | nil => simp [walk, hend]
    | @cons _ z _ zs hnext hprev h =>
      obtain ⟨hz, hzs⟩ := not_or.mp (fun hm => hemp (mem_cons.mpr hm))
      have hrest := ih h hzs
      simp [walk, hnext, Ne.symm hz, hrest]

/-- One page: whether it is the last one, where the next one starts, and its entries. -/
def page (l : Links α) (sentinel empty start : α) (limit : Nat) : Bool × α × List α :=
  let ptr := if start = empty then l.next sentinel else start
  if l.prev ptr = empty then (true, ptr, [])
  else
    let walked := l.walk empty ptr limit
    (walked.1 = empty, walked.1, walked.2)

/-- All pages from `start` on, if `fuel` pages are enough. -/
def pages (l : Links α) (sentinel empty : α) (limit : Nat) : Nat → α → Option (List α)
  | 0, _ => none
  | fuel + 1, start =>
    let (done, next, entries) := l.page sentinel empty start limit
    if done then some entries
    else (pages l sentinel empty limit fuel next).map (entries ++ ·)

section

variable (h : IsList l sentinel empty xs)

include h

/-- A page that starts at an entry. -/
theorem IsList.page_of_append (hxs : xs = ys ++ z :: zs) (limit : Nat) : l.page sentinel empty z limit =
    (decide (((z :: zs).drop limit).headD empty = empty), ((z :: zs).drop limit).headD empty,
      (z :: zs).take limit) := by
  obtain ⟨t, hpath, hend⟩ := h.path
  have hmem : z ∈ xs := by simp [hxs]
  have hze : z ≠ empty := fun heq => h.empty_notMem (heq ▸ hmem)
  have hprev := (h.mem_iff z).mp hmem
  have hemp : empty ∉ z :: zs := fun hm => h.empty_notMem (by rw [hxs]; simp [hm])
  rw [hxs] at hpath
  obtain ⟨s, -, hzs⟩ := hpath.split
  have hwalk := walk_path hzs hend hemp limit
  cases hzs with
  | cons hnext _ _ =>
    rw [hnext] at hwalk
    simp [page, hze, hprev, hwalk]

/-- The pages from an entry on are the rest of the list. -/
theorem IsList.pages_of_append (hl : limit ≠ 0) (fuel : Nat) (hxs : xs = ys ++ z :: zs) (hfuel : zs.length < fuel) :
    l.pages sentinel empty limit fuel z = some (z :: zs) := by
  induction fuel generalizing ys z zs with
  | zero => exact absurd hfuel (Nat.not_lt_zero _)
  | succ fuel ih =>
    unfold pages
    rw [h.page_of_append hxs limit]
    match hrest : (z :: zs).drop limit with
    | [] =>
      have htake : (z :: zs).take limit = z :: zs := take_of_length_le (drop_eq_nil_iff.mp hrest)
      simp [htake]
    | u :: us =>
      have hspl : (z :: zs).take limit ++ u :: us = z :: zs := by rw [← hrest, take_append_drop]
      have hue : u ≠ empty := by
        intro heq
        apply h.empty_notMem
        rw [hxs, ← hspl, heq]
        simp
      have hlen : us.length < fuel := by
        have hdrop := congrArg List.length hrest
        simp only [length_drop, length_cons] at hdrop
        omega
      have hxs' : xs = (ys ++ (z :: zs).take limit) ++ u :: us := by rw [append_assoc, hspl, hxs]
      have hih := ih hxs' hlen
      simp [hue, hih, hspl]

/-- Reading page by page from the beginning gives the whole list. -/
theorem IsList.pages_eq (hl : limit ≠ 0) {fuel : Nat} (hfuel : xs.length < fuel) :
    l.pages sentinel empty limit fuel empty = some xs := by
  have hhead := h.next_sentinel
  match fuel, xs, h with
  | fuel + 1, [], h =>
    have hnext : l.next sentinel = empty := hhead
    simp [pages, page, hnext, h.prev_empty]
  | fuel + 1, x :: xs, h =>
    have hnext : l.next sentinel = x := hhead
    have hxe : x ≠ empty := fun heq => h.empty_notMem (heq ▸ mem_cons_self)
    have hxs : x :: xs = [] ++ x :: xs := rfl
    have hfst := h.pages_of_append hl (fuel + 1) hxs (Nat.lt_of_succ_lt hfuel)
    have hpage : l.page sentinel empty empty limit = l.page sentinel empty x limit := by simp [page, hnext, hxe]
    rw [← hfst]
    simp only [pages, hpage]

end

end Lists

end Links

end MonadExecution
