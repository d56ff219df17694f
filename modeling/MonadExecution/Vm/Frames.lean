import Mathlib
import MonadExecution.Vm.Memory

/-!
# Every frame has a memory of its own

The buffer of the running frame holds the windows of all frames on the stack, one after the other, and
zeros behind them. The older buffers are still there as long as a frame's call data may lie in them:
a frame never frees the buffer it began with, and no frame below it began with a buffer that it frees.
-/

namespace MonadExecution.Vm

open Function List Option Nat

variable {heap heap' : Heap} {bytes bytes' : Nat → UInt8} {pool : Handle} {capacity : Nat}

/-- The sizes of the windows of some frames together. -/
def total (stack : List Frame) : Nat := (stack.map (·.memory.size)).sum

@[simp] theorem total_cons (f : Frame) (rest : List Frame) : total (f :: rest) = f.memory.size + total rest := by
  simp [total]

/-! ## The invariant -/

/-- The call data of a frame lies below its window, in a buffer that holds what was passed. -/
def InputOk (f : Frame) (parent : Buffer) : Prop :=
  match f.input with
  | .outside data _ => f.passed = data
  | .pointer handle offset size => handle = f.memory.parentHandle ∧ offset + size ≤ f.memory.data ∧
      ∀ j, j < size → parent.bytes (offset + j) = f.passed j

/-- The buffer a frame began with: the one its caller has, or the one from the pool. -/
def BeganWith (pool : Handle) (capacity : Nat) (parentHandle : Handle) (parentCapacity : Nat) : List Frame → Prop
  | [] => parentHandle = pool ∧ parentCapacity = capacity
  | p :: _ => parentHandle = p.memory.dataHandle

/-- A frame on the stack, when the bytes of the running frame's buffer are `bytes`. -/
structure FrameOk (pool : Handle) (capacity : Nat) (heap : Heap) (bytes : Nat → UInt8) (f : Frame)
    (rest : List Frame) : Prop where
  data : f.memory.data = total rest
  fits : f.memory.size ≤ f.memory.capacity
  alive : ∃ b, heap f.memory.dataHandle = some b ∧ b.capacity = f.memory.data + f.memory.capacity
  input : ∃ b, heap f.memory.parentHandle = some b ∧
    b.capacity = f.memory.data + f.memory.parentCapacity ∧ InputOk f b
  contents : ∀ i, i < f.memory.size → bytes (f.memory.data + i) = f.written i
  beyond : ∀ i, f.memory.size ≤ i → f.written i = 0
  apart : f.memory.dataHandle ≠ f.memory.parentHandle → ∀ g ∈ rest, f.memory.dataHandle ≠ g.memory.parentHandle
  began : BeganWith pool capacity f.memory.parentHandle f.memory.parentCapacity rest

def StackOk (pool : Handle) (capacity : Nat) (heap : Heap) (bytes : Nat → UInt8) : List Frame → Prop
  | [] => True
  | f :: rest => FrameOk pool capacity heap bytes f rest ∧ StackOk pool capacity heap bytes rest

/-- A frame that waits for its callee remembers its memory. -/
def SavedOk (f : Frame) : Prop := f.saved.1 = f.memory.size ∧ ∀ i, i < f.memory.size → f.saved.2 i = f.written i

/-- The running frame and its buffer. -/
structure Running (pool : Handle) (capacity : Nat) (heap : Heap) (f : Frame) (rest : List Frame)
    (b : Buffer) : Prop where
  buffer : heap f.memory.dataHandle = some b
  stack : StackOk pool capacity heap b.bytes (f :: rest)
  zeros : ∀ i, f.memory.data + f.memory.size ≤ i → i < b.capacity → b.bytes i = 0
  saved : ∀ g ∈ rest, SavedOk g

/-- The invariant of a transaction. -/
def Good (pool : Handle) (capacity : Nat) (m : Machine) : Prop :=
  match m.stack with
  | [] => ∃ b, m.heap pool = some b ∧ b.capacity = capacity ∧ ∀ i, i < capacity → b.bytes i = 0
  | f :: rest => ∃ b, Running pool capacity m.heap f rest b

/-! ## What keeps the frames below -/

/-- A buffer is still there, with the same first `n` bytes. -/
def Kept (heap heap' : Heap) (h : Handle) (n : Nat) : Prop :=
  ∀ b, heap h = some b → ∃ b', heap' h = some b' ∧ b'.capacity = b.capacity ∧ ∀ i, i < n → b'.bytes i = b.bytes i

variable {h : Handle} {n : Nat} {f : Frame} {rest : List Frame}

theorem Kept.of_eq (heq : heap' h = heap h) : Kept heap heap' h n :=
  fun b hb => ⟨b, heq.trans hb, rfl, fun _ _ => rfl⟩

theorem Kept.mono {n' : Nat} (hk : Kept heap heap' h n) (hn : n' ≤ n) : Kept heap heap' h n' := fun b hb => by
  obtain ⟨b', hb', hcap, hby⟩ := hk b hb
  exact ⟨b', hb', hcap, fun i hi => hby i (lt_of_lt_of_le hi hn)⟩

variable {b b' : Buffer} {g : Frame}

/-- A buffer that changes from an offset on. -/
theorem Kept.update {k : Handle} (hb : heap h = some b) (hcap : b'.capacity = b.capacity)
    (hby : ∀ i, i < n → b'.bytes i = b.bytes i) : Kept heap (update heap h (some b')) k n := by
  by_cases hk : k = h
  · subst hk
    intro c hc
    obtain rfl : b = c := some.inj (hb.symm.trans hc)
    exact ⟨b', update_self _ _ _, hcap, hby⟩
  · exact .of_eq (update_of_ne hk _ _)

theorem InputOk.kept (h : InputOk f b) (hby : ∀ i, i < f.memory.data → b'.bytes i = b.bytes i) : InputOk f b' := by
  unfold InputOk at h ⊢
  split at h
  · exact h
  obtain ⟨hhandle, hsize, hpassed⟩ := h
  exact ⟨hhandle, hsize, fun j hj => (hby _ (by omega)).trans (hpassed j hj)⟩

theorem FrameOk.input_kept (h : FrameOk pool capacity heap bytes f rest)
    (hk : Kept heap heap' f.memory.parentHandle f.memory.data) :
    ∃ b, heap' f.memory.parentHandle = some b ∧
      b.capacity = f.memory.data + f.memory.parentCapacity ∧ InputOk f b := by
  obtain ⟨b, hb, hcap, hin⟩ := h.input
  obtain ⟨b', hb', hcap', hby⟩ := hk b hb
  exact ⟨b', hb', hcap'.trans hcap, hin.kept hby⟩

/-- The frames below the running one only depend on the buffers that frames began with, and on what is
below their windows' end. -/
theorem StackOk.below (h : StackOk pool capacity heap bytes (f :: rest))
    (hk : ∀ g ∈ f :: rest, Kept heap heap' g.memory.parentHandle (total rest))
    (hby : ∀ i, i < total rest → bytes' i = bytes i) : StackOk pool capacity heap' bytes' rest := by
  induction rest generalizing f with
  | nil => trivial
  | cons p rest ih =>
    obtain ⟨hf, hp, hrest⟩ := h
    have hle : total rest ≤ total (p :: rest) := by simp
    refine ⟨?_, ?_⟩
    · have hkp := hk p (by simp)
      have hkf := hk f (by simp)
      rw [show f.memory.parentHandle = p.memory.dataHandle from hf.began] at hkf
      have hdata := hp.data
      refine ⟨hp.data, hp.fits, ?_, hp.input_kept (hkp.mono (by omega)), fun i hi => ?_, hp.beyond, hp.apart,
        hp.began⟩
      · obtain ⟨b, hb, hcap⟩ := hp.alive
        obtain ⟨b', hb', hcap', _⟩ := hkf b hb
        exact ⟨b', hb', hcap'.trans hcap⟩
      · rw [hby _ (by rw [total_cons]; omega)]
        exact hp.contents i hi
    · exact ih (f := p) ⟨hp, hrest⟩ (fun g hg => (hk g (mem_cons_of_mem _ hg)).mono hle)
        fun i hi => hby i (lt_of_lt_of_le hi hle)

/-- Every frame began with a buffer that is still there. -/
theorem StackOk.parent_alive {stack : List Frame} (h : StackOk pool capacity heap bytes stack) (hg : g ∈ stack) :
    ∃ b, heap g.memory.parentHandle = some b := by
  induction stack with
  | nil => cases hg
  | cons f rest ih =>
    rcases mem_cons.mp hg with rfl | hmem
    · obtain ⟨b, hb, _⟩ := h.1.input
      exact ⟨b, hb⟩
    · exact ih h.2 hmem

/-- Releasing the buffer of a frame leaves the buffers alone that the frames from it on began with. -/
theorem FrameOk.release_eq (h : FrameOk pool capacity heap bytes f rest) (hg : g ∈ f :: rest) :
    f.memory.release heap' g.memory.parentHandle = heap' g.memory.parentHandle := by
  unfold Memory.release
  split
  · rename_i hne
    rcases mem_cons.mp hg with rfl | hmem
    · exact update_of_ne hne.symm _ _
    · exact update_of_ne (h.apart hne g hmem).symm _ _
  · rfl

/-! ## The steps -/

section Steps

variable {f : Frame} {rest : List Frame} {b : Buffer}

theorem le_wordSize (n : Nat) : n ≤ wordSize n := by
  unfold wordSize
  omega

theorem Running.capacity_eq (h : Running pool capacity heap f rest b) :
    b.capacity = f.memory.data + f.memory.capacity := by
  obtain ⟨b', hb', hcap⟩ := h.stack.1.alive
  obtain rfl : b = b' := some.inj (h.buffer.symm.trans hb')
  exact hcap

theorem Running.expand (h : Running pool capacity heap f rest b) (hn : f.memory.size < n)
    (hcap : wordSize n ≤ f.memory.capacity) :
    Running pool capacity heap { f with memory := { f.memory with size := wordSize n } } rest b := by
  obtain ⟨hf, hrest⟩ := h.stack
  have hle := le_wordSize n
  have hbcap := h.capacity_eq
  refine ⟨h.buffer, ⟨⟨hf.data, hcap, hf.alive, hf.input, fun i hi => ?_, fun i hi => ?_, hf.apart,
    hf.began⟩, hrest⟩, fun i hi => ?_, h.saved⟩
  · change i < wordSize n at hi
    by_cases hold : i < f.memory.size
    · exact hf.contents i hold
    -- the window grows over zeros
    exact (h.zeros _ (by simp only; omega) (by simp only; omega)).trans (hf.beyond i (by omega)).symm
  · change wordSize n ≤ i at hi
    exact hf.beyond i (by omega)
  · change f.memory.data + wordSize n ≤ i at hi
    exact h.zeros i (by omega)

theorem Running.write {i : Nat} {v : UInt8} (h : Running pool capacity heap f rest b) (hi : i < f.memory.size) :
    Running pool capacity (update heap f.memory.dataHandle (some (b.store (f.memory.data + i) v)))
      { f with written := update f.written i v } rest (b.store (f.memory.data + i) v) := by
  obtain ⟨hf, hrest⟩ := h.stack
  have hkept : ∀ k, Kept heap
      (update heap f.memory.dataHandle (some (b.store (f.memory.data + i) v))) k f.memory.data :=
    fun k => .update h.buffer rfl fun j hj => update_of_ne (by omega) _ _
  have hbel := h.stack.below (fun g _ => (hkept _).mono (le_of_eq hf.data.symm))
    (fun j hj => update_of_ne (by have := hf.data; omega) _ _ :
      ∀ j, j < total rest → (b.store (f.memory.data + i) v).bytes j = b.bytes j)
  refine ⟨update_self _ _ _, ⟨⟨hf.data, hf.fits, ?_, hf.input_kept (hkept _), fun j hj => ?_,
    fun j hj => ?_, hf.apart, hf.began⟩, hbel⟩, fun j hj hjc => ?_, h.saved⟩
  · exact ⟨_, update_self _ _ _, h.capacity_eq⟩
  · by_cases hji : j = i
    · subst hji
      simp [Buffer.store]
    · have hne : f.memory.data + j ≠ f.memory.data + i := by omega
      simpa [Buffer.store, update_of_ne hji, update_of_ne hne] using hf.contents j hj
  · have hji : j ≠ i := by
      rintro rfl
      exact absurd hi (not_lt.mpr hj)
    simpa [update_of_ne hji] using hf.beyond j hj
  · change f.memory.data + f.memory.size ≤ j at hj
    have hne : j ≠ f.memory.data + i := by omega
    simpa [Buffer.store, update_of_ne hne] using h.zeros j hj hjc

theorem Running.call {offset size : Nat} (h : Running pool capacity heap f rest b)
    (hsize : offset + size ≤ f.memory.size) :
    Running pool capacity heap (f.callee b offset size) (f.calling b :: rest) b := by
  obtain ⟨hf, hrest⟩ := h.stack
  have hbcap := h.capacity_eq
  have hfits := hf.fits
  have hdata := hf.data
  refine ⟨h.buffer, ⟨⟨?_, zero_le _, ⟨b, h.buffer, ?_⟩, ⟨b, h.buffer, ?_, rfl, ?_, fun j _ => rfl⟩,
    fun i hi => absurd hi (not_lt_zero i), fun i _ => rfl, fun hne => absurd rfl hne, rfl⟩,
    ⟨hf.data, hf.fits, hf.alive, hf.input, hf.contents, hf.beyond, hf.apart, hf.began⟩, hrest⟩,
    fun i hi => ?_, ?_⟩
  · change f.memory.data + f.memory.size = total (f.calling b :: rest)
    rw [total_cons, hdata]
    exact add_comm _ _
  · change b.capacity = f.memory.data + f.memory.size + (f.memory.capacity - f.memory.size)
    omega
  · change b.capacity = f.memory.data + f.memory.size + (f.memory.capacity - f.memory.size)
    omega
  · change f.memory.data + offset + size ≤ f.memory.data + f.memory.size
    omega
  · exact h.zeros i hi
  · intro g hg
    rcases mem_cons.mp hg with rfl | hmem
    · exact ⟨rfl, hf.contents⟩
    · exact h.saved g hmem

theorem Running.grow {newHandle : Handle} (h : Running pool capacity heap f rest b) (hn : f.memory.size < n)
    (hnew : heap newHandle = none) :
    Running pool capacity (f.memory.release (update heap newHandle
        (some (f.memory.grownBuffer b f.memory.size (wordSize n)))))
      { f with memory := f.memory.grown newHandle (wordSize n) } rest
      (f.memory.grownBuffer b f.memory.size (wordSize n)) := by
  obtain ⟨hf, hrest⟩ := h.stack
  have hle := le_wordSize n
  have hnotNew : ∀ g ∈ f :: rest, g.memory.parentHandle ≠ newHandle := by
    intro g hg hsame
    obtain ⟨c, hc⟩ := h.stack.parent_alive hg
    rw [hsame, hnew] at hc
    cases hc
  have hkept : ∀ g ∈ f :: rest, ∀ k, Kept heap (f.memory.release (update heap newHandle
        (some (f.memory.grownBuffer b f.memory.size (wordSize n))))) g.memory.parentHandle k := by
    intro g hg k
    refine .of_eq ((hf.release_eq hg).trans ?_)
    exact update_of_ne (hnotNew g hg) _ _
  have hbuf : f.memory.release (update heap newHandle
      (some (f.memory.grownBuffer b f.memory.size (wordSize n)))) newHandle =
        some (f.memory.grownBuffer b f.memory.size (wordSize n)) := by
    have hne : newHandle ≠ f.memory.dataHandle := by
      rintro rfl
      exact absurd (h.buffer.symm.trans hnew) (by simp)
    unfold Memory.release
    split
    · rw [update_of_ne hne, update_self]
    · rw [update_self]
  have hbel := h.stack.below (fun g hg => hkept g hg _) (fun j hj => if_pos (by have := hf.data; omega) :
      ∀ j, j < total rest → (f.memory.grownBuffer b f.memory.size (wordSize n)).bytes j = b.bytes j)
  refine ⟨hbuf, ⟨⟨hf.data, ?_, ⟨_, hbuf, ?_⟩, hf.input_kept (hkept f (by simp) _), fun i hi => ?_,
    fun i hi => ?_, fun _ g hg => (hnotNew g (mem_cons_of_mem _ hg)).symm, hf.began⟩, hbel⟩,
    fun i hi _ => ?_, h.saved⟩
  · change wordSize n ≤ 2 * (f.memory.data + wordSize n) - f.memory.data
    omega
  · change 2 * (f.memory.data + wordSize n) = f.memory.data + (2 * (f.memory.data + wordSize n) - f.memory.data)
    omega
  · change (if f.memory.data + i < f.memory.data + f.memory.size then b.bytes (f.memory.data + i) else 0) =
      f.written i
    split
    · exact hf.contents i (by omega)
    · exact (hf.beyond i (by omega)).symm
  · change wordSize n ≤ i at hi
    exact hf.beyond i (by omega)
  · change f.memory.data + wordSize n ≤ i at hi
    exact if_neg (by omega)

variable {p : Frame}

/-- The running frame returns, and its caller goes on in the same buffer. -/
theorem Running.returnSame (h : Running pool capacity heap f (p :: rest) b)
    (hsame : f.memory.dataHandle = f.memory.parentHandle) :
    Running pool capacity (update heap f.memory.dataHandle (some (b.bzero f.memory.data f.memory.size))) p rest
      (b.bzero f.memory.data f.memory.size) := by
  obtain ⟨hf, hp, hrest⟩ := h.stack
  have hbegan : f.memory.parentHandle = p.memory.dataHandle := hf.began
  have hdata := hf.data
  rw [total_cons, ← hp.data] at hdata
  have hby : ∀ i, i < total (p :: rest) → (b.bzero f.memory.data f.memory.size).bytes i = b.bytes i :=
    fun i hi => if_neg (by rw [← hf.data] at hi; omega)
  have hkept : ∀ k, Kept heap (update heap f.memory.dataHandle
      (some (b.bzero f.memory.data f.memory.size))) k (total (p :: rest)) :=
    fun k => .update h.buffer rfl hby
  have hbel := h.stack.below (fun g _ => hkept _) hby
  refine ⟨?_, hbel, fun i hi hcap => ?_, fun g hg => h.saved g (mem_cons_of_mem _ hg)⟩
  · rw [← hbegan, ← hsame, update_self]
  change (if _ then 0 else b.bytes i) = 0
  split
  · rfl
  · exact h.zeros i (by omega) hcap

/-- The running frame returns, and its caller takes over the larger buffer. -/
theorem Running.returnOther (h : Running pool capacity heap f (p :: rest) b)
    (hne : f.memory.dataHandle ≠ f.memory.parentHandle) :
    Running pool capacity (p.memory.release
        (update heap f.memory.dataHandle (some (b.bzero f.memory.data f.memory.size))))
      { p with memory := p.memory.adopt f.memory } rest (b.bzero f.memory.data f.memory.size) := by
  obtain ⟨hf, hp, hrest⟩ := h.stack
  have hbegan : f.memory.parentHandle = p.memory.dataHandle := hf.began
  have hdata := hf.data
  rw [total_cons, ← hp.data] at hdata
  have hby : ∀ i, i < f.memory.data → (b.bzero f.memory.data f.memory.size).bytes i = b.bytes i :=
    fun i hi => if_neg (by omega)
  have hkept : ∀ g ∈ p :: rest, Kept heap (p.memory.release
      (update heap f.memory.dataHandle (some (b.bzero f.memory.data f.memory.size))))
      g.memory.parentHandle f.memory.data := by
    intro g hg
    refine .of_eq ((hp.release_eq hg).trans ?_)
    exact update_of_ne (hf.apart hne g hg).symm _ _
  have hbuf : p.memory.release (update heap f.memory.dataHandle (some (b.bzero f.memory.data f.memory.size)))
      f.memory.dataHandle = some (b.bzero f.memory.data f.memory.size) := by
    unfold Memory.release
    split
    · rw [update_of_ne (hbegan ▸ hne), update_self]
    · rw [update_self]
  have hstack : StackOk pool capacity heap b.bytes (p :: rest) := ⟨hp, hrest⟩
  have hbel := hstack.below (fun g hg => (hkept g hg).mono (by rw [← hp.data]; omega))
    (fun i hi => hby i (by rw [← hp.data] at hi; omega))
  have hbcap := h.capacity_eq
  have hpdata : f.memory.data - p.memory.size = p.memory.data := by omega
  refine ⟨hbuf, ⟨⟨?_, ?_, ⟨_, hbuf, ?_⟩, ?_, fun i hi => ?_, hp.beyond, fun _ g hg => ?_, hp.began⟩,
    hbel⟩, fun i hi hcap => ?_, fun g hg => h.saved g (mem_cons_of_mem _ hg)⟩
  · exact hpdata.trans hp.data
  · exact le_add_left _ _
  · change b.capacity = f.memory.data - p.memory.size + (f.memory.capacity + p.memory.size)
    omega
  · obtain ⟨c, hc, hccap, hin⟩ := hp.input_kept ((hkept p (by simp)).mono (by omega))
    refine ⟨c, hc, hccap.trans (congrArg (· + p.memory.parentCapacity) hpdata.symm), ?_⟩
    unfold InputOk at hin ⊢
    change (match p.input with
      | .outside data _ => p.passed = data
      | .pointer handle offset size => handle = p.memory.parentHandle ∧
          offset + size ≤ f.memory.data - p.memory.size ∧
          ∀ j, j < size → c.bytes (offset + j) = p.passed j)
    rwa [hpdata]
  · change (b.bzero f.memory.data f.memory.size).bytes (f.memory.data - p.memory.size + i) = p.written i
    change i < p.memory.size at hi
    rw [hpdata, hby _ (by omega)]
    exact hp.contents i hi
  · exact hf.apart hne g (mem_cons_of_mem _ hg)
  · change f.memory.data - p.memory.size + p.memory.size ≤ i at hi
    change (if _ then 0 else b.bytes i) = 0
    split
    · rfl
    · exact h.zeros i (by omega) hcap

/-- When the outermost frame returns, the pool has its buffer of zeros back. -/
theorem Running.clear (h : Running pool capacity heap f [] b) (hsame : f.memory.parentHandle = f.memory.dataHandle) :
    Good pool capacity ⟨update heap f.memory.dataHandle (some (b.bzero 0 f.memory.size)), []⟩ := by
  obtain ⟨hf, _⟩ := h.stack
  obtain ⟨hpool, hcapacity⟩ := hf.began
  obtain ⟨c, hc, hcap, _⟩ := hf.input
  obtain rfl : b = c := some.inj (h.buffer.symm.trans (hsame ▸ hc))
  have hdata : f.memory.data = 0 := hf.data
  refine ⟨b.bzero 0 f.memory.size, ?_, ?_, fun i hi => ?_⟩
  · rw [← hpool, hsame]
    exact update_self _ _ _
  · change b.capacity = capacity
    omega
  · change (if _ then 0 else b.bytes i) = 0
    split
    · rfl
    · exact h.zeros i (by omega) (by omega)

theorem Running.clearOther {c : Buffer} (h : Running pool capacity heap f [] b)
    (hc : heap f.memory.parentHandle = some c) (hne : f.memory.parentHandle ≠ f.memory.dataHandle) :
    Good pool capacity ⟨update (update heap f.memory.parentHandle
        (some (c.bzero 0 f.memory.parentCapacity))) f.memory.dataHandle none, []⟩ := by
  obtain ⟨hf, _⟩ := h.stack
  obtain ⟨hpool, hcapacity⟩ := hf.began
  obtain ⟨c', hc', hcap, _⟩ := hf.input
  obtain rfl : c = c' := some.inj (hc.symm.trans hc')
  have hdata : f.memory.data = 0 := hf.data
  refine ⟨c.bzero 0 f.memory.parentCapacity, ?_, ?_, fun i hi => ?_⟩
  · rw [← hpool]
    exact (update_of_ne hne _ _).trans (update_self _ _ _)
  · change c.capacity = capacity
    omega
  · exact if_pos (by omega)

end Steps

/-! ## Every run -/

theorem Good.start (heap : Heap) (data : Nat → UInt8) (size : Nat) :
    Good pool capacity (Machine.start heap pool capacity data size) := by
  have hpool : (Machine.start heap pool capacity data size).heap pool = some ⟨capacity, fun _ => 0⟩ :=
    update_self _ _ _
  refine ⟨_, hpool, ⟨⟨rfl, zero_le _, ⟨_, hpool, ?_⟩, ⟨_, hpool, ?_, rfl⟩, ?_, fun _ _ => rfl,
    fun hne => absurd rfl hne, rfl, rfl⟩, trivial⟩, fun _ _ _ => rfl, ?_⟩
  · exact (zero_add _).symm
  · exact (zero_add _).symm
  · exact fun i hi => absurd hi (not_lt_zero i)
  · exact fun g hg => by cases hg

variable {m m' : Machine} {rest : List Frame}

theorem running_of_buffer {b : Buffer} (h : ∃ b, Running pool capacity heap f rest b)
    (hb : heap f.memory.dataHandle = some b) : Running pool capacity heap f rest b := by
  obtain ⟨b', hr⟩ := h
  obtain rfl := some.inj (hr.buffer.symm.trans hb)
  exact hr

theorem Good.ret (h : Good pool capacity m) (hs : Return m m') : Good pool capacity m' := by
  cases hs with
  | same hb hsame =>
    have hr := running_of_buffer h hb
    exact ⟨_, hr.returnSame hsame⟩
  | other hb hne =>
    have hr := running_of_buffer h hb
    exact ⟨_, hr.returnOther hne⟩

theorem Good.step (h : Good pool capacity m) (hs : Step m m') : Good pool capacity m' := by
  cases hs with
  | expand hn hcap =>
    obtain ⟨b, hr⟩ := h
    exact ⟨b, hr.expand hn hcap⟩
  | grow hn _ hold hnew =>
    have hr := running_of_buffer h hold
    exact ⟨_, hr.grow hn hnew⟩
  | write hi hb =>
    have hr := running_of_buffer h hb
    exact ⟨_, hr.write hi⟩
  | call hi hb =>
    have hr := running_of_buffer h hb
    exact ⟨_, hr.call hi⟩
  | ret hret => exact h.ret hret
  | clear hb hsame =>
    have hr := running_of_buffer h hb
    exact hr.clear hsame
  | clearOther hb hne =>
    obtain ⟨b', hr⟩ := h
    exact hr.clearOther hb hne

theorem Reach.good (h : Reach pool capacity m) : Good pool capacity m := by
  induction h with
  | start heap data size => exact Good.start heap data size
  | step _ hs ih => exact ih.step hs

variable {b : Buffer}

theorem Running.load (h : Running pool capacity heap f rest b) {i : Nat} (hi : i < f.memory.size) :
    f.load heap i = some (f.written i) := by
  unfold Frame.load
  rw [h.buffer, map_some, h.stack.1.contents i hi]

theorem Running.loadInput (h : Running pool capacity heap f rest b) {j : Nat} (hj : j < f.input.size) :
    f.input.load heap j = some (f.passed j) := by
  obtain ⟨c, hc, _, hin⟩ := h.stack.1.input
  unfold InputOk at hin
  cases hinput : f.input with
  | outside data size =>
    rw [hinput] at hin
    exact congrArg some (congrFun hin j).symm
  | pointer handle offset size =>
    rw [hinput] at hin hj
    obtain ⟨rfl, _, hpassed⟩ := hin
    exact (congrArg (Option.map _) hc).trans (congrArg some (hpassed j hj))

/-- A frame that has been returned to reads what it had when it called. -/
theorem Good.returned {p : Frame} (h : Good pool capacity m) (hret : Return m m') (hstack : m'.stack = p :: rest) :
    p.memory.size = p.saved.1 ∧ ∀ i, i < p.saved.1 → p.load m'.heap i = some (p.saved.2 i) := by
  cases hret with
  | same hb hsame =>
    have hr := running_of_buffer h hb
    cases hstack
    obtain ⟨hsize, hcontents⟩ := hr.saved p (by simp)
    refine ⟨hsize.symm, fun i hi => ?_⟩
    rw [(hr.returnSame hsame).load (hsize ▸ hi), hcontents i (hsize ▸ hi)]
  | @other _ f q _ b hb hne =>
    have hr := running_of_buffer h hb
    cases hstack
    obtain ⟨hsize, hcontents⟩ := hr.saved q (by simp)
    refine ⟨hsize.symm, fun i hi => ?_⟩
    change i < q.saved.1 at hi
    rw [hsize] at hi
    exact ((hr.returnOther hne).load hi).trans (congrArg some (hcontents i hi).symm)

/-- On every run of a transaction's frames: the running frame reads what it wrote itself, or zero, and its
call data as it was passed; after a return the caller's memory has the size and the contents of the moment
of the call; and in the end the pool's buffer is zero. -/
theorem frames_private {m : Machine} (h : Reach pool capacity m) : (∀ f rest, m.stack = f :: rest →
      (∀ i, i < f.memory.size → f.load m.heap i = some (f.written i)) ∧
      ∀ j, j < f.input.size → f.input.load m.heap j = some (f.passed j)) ∧
    (∀ m' p rest, Return m m' → m'.stack = p :: rest → p.memory.size = p.saved.1 ∧
      ∀ i, i < p.saved.1 → p.load m'.heap i = some (p.saved.2 i)) ∧
    (m.stack = [] → ∃ b, m.heap pool = some b ∧ b.capacity = capacity ∧ ∀ i, i < capacity → b.bytes i = 0) := by
  have hgood := h.good
  refine ⟨?_, ?_, ?_⟩
  · intro f rest hstack
    unfold Good at hgood
    rw [hstack] at hgood
    obtain ⟨b, hr⟩ := hgood
    exact ⟨fun i hi => hr.load hi, fun j hj => hr.loadInput hj⟩
  · intro m' p rest hret hstack
    exact hgood.returned hret hstack
  · intro hstack
    unfold Good at hgood
    rwa [hstack] at hgood

/-- A frame writes a byte and passes it on; its callee moves to a larger buffer and still reads it. -/
theorem frames_private_callee : ∃ m f rest, Reach 0 64 m ∧ m.stack = f :: rest ∧
    f.memory.dataHandle ≠ f.memory.parentHandle ∧ f.input.load m.heap 0 = some 7 := by
  have h0 : Reach 0 64 (Machine.start (fun _ => none) 0 64 (fun _ => 0) 0) := .start _ _ _
  have h1 := h0.step (.expand (n := 1) (by decide) (by decide))
  have h2 := h1.step (.write (i := 0) (v := 7) (by decide) rfl)
  have hargs : 0 + 1 ≤ wordSize 1 := by decide
  have h3 := h2.step (.call hargs rfl)
  have hfree : ∀ heap : Heap, ∀ b, heap 1 = none → update heap 0 (some b) 1 = none := fun heap b h => by simpa using h
  have h4 := h3.step (.grow (n := 64) (by decide) (by decide) rfl (hfree _ _ (hfree _ _ rfl)))
  refine ⟨_, _, _, h4, rfl, by decide, ?_⟩
  have := ((frames_private h4).1 _ _ rfl).2 0 (by decide)
  exact this

end MonadExecution.Vm
