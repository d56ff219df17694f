import Mathlib
import MonadExecution.Ethereum.PartialTrie

/-!
# Hex-prefix paths

`compact_encode` writes the nibbles of a view one by one behind the flags, into a buffer that may hold
anything before, and `compact_decode` reads them back. A view begins at the high or at the low nibble of its
first byte. What the buffer holds is known by its nibbles; bytes come back from these only at the end.
-/

namespace MonadExecution.Mpt.CompactEncode

open Function List
open Ethereum (Bytes)
open Ethereum.PartialTrie (Nibbles nibblesOf nibblesOf_length compactDecode)

/-- Bytes in memory. -/
abbrev Buffer := Nat → UInt8

def getNibble (d : Buffer) (n : Nat) : UInt8 := if n % 2 = 0 then d (n / 2) >>> 4 else d (n / 2) &&& 0xF

def setNibble (d : Buffer) (n : Nat) (v : UInt8) : Buffer :=
  let r := d (n / 2)
  update d (n / 2) (if n % 2 = 0 then r &&& (0xF : UInt8) ||| v <<< (4 : UInt8) else r &&& 0xF0 ||| v &&& 0xF)

/-- Nibbles set one after the other, from the `n`-th on. -/
def setNibbles (d : Buffer) (n : Nat) : Nibbles → Buffer
  | [] => d
  | v :: vs => setNibbles (setNibble d n v) (n + 1) vs

/-- `res[0]`: the flags, and the first nibble if their number is odd. -/
def firstByte (odd terminating : Bool) (v : UInt8) : UInt8 :=
  let res := if terminating then 0x20 else 0x00
  if odd then res ||| (0x10 ||| v) else res

/-- A view, with the limits that its constructor asserts. -/
structure NibblesView where
  data : Buffer
  beginNibble : Bool
  endNibble : Nat
  begin_le_end : beginNibble.toNat ≤ endNibble
  end_le : endNibble ≤ 255

namespace NibblesView

def nibbleSize (path : NibblesView) : Nat := path.endNibble - path.beginNibble.toNat

def get (path : NibblesView) (i : Nat) : UInt8 := getNibble path.data (path.beginNibble.toNat + i)

/-- The path that is viewed. -/
def nibbles (path : NibblesView) : Nibbles := (range path.nibbleSize).map path.get

/-- The view of `Nibbles` that have been filled with a path. -/
def ofNibbles (path : Nibbles) (h : path.length ≤ 255) : NibblesView where
  data := setNibbles (fun _ => 0) 0 path
  beginNibble := false
  endNibble := path.length
  begin_le_end := path.length.zero_le
  end_le := h

/-- `compact_encode` into the buffer `res`; nothing if its assertion fails. -/
def compactEncode (res : Buffer) (path : NibblesView) (terminating : Bool) : Option Bytes :=
  if path.nibbleSize = 0 ∧ terminating = false then none
  else
    let odd := path.nibbleSize % 2
    let res := update res 0 (firstByte (odd = 1) terminating (path.get 0))
    some ((range (path.nibbleSize / 2 + 1)).map (setNibbles res 2 (path.nibbles.drop odd)))

end NibblesView

/-! ## Bytes and nibbles -/

theorem setNibble_bits (r v : UInt8) :
    (r &&& (0xF : UInt8) ||| v <<< (4 : UInt8)) >>> 4 = v &&& 0xF ∧
    (r &&& (0xF : UInt8) ||| v <<< (4 : UInt8)) &&& 0xF = r &&& 0xF ∧
    (r &&& 0xF0 ||| v &&& 0xF) >>> 4 = r >>> 4 ∧ (r &&& 0xF0 ||| v &&& 0xF) &&& 0xF = v &&& 0xF := by
  refine ⟨?_, ?_, ?_, ?_⟩
  all_goals
    apply UInt8.toBitVec_inj.mp
    apply BitVec.eq_of_getElem_eq
    intro i hi
    interval_cases i <;> simp

/-- The two nibbles of a byte, and the flags in front of a path. -/
theorem byte_nibbles : ∀ b : UInt8, b >>> 4 <<< (4 : UInt8) ||| b &&& (0xF : UInt8) = b ∧ b >>> 4 &&& (0xF : UInt8) = b >>> 4 ∧
    (b &&& 0xc0 = 0 → (b &&& 0x10 != 0 ∨ b &&& 0xF = 0) → firstByte (b &&& 0x10 != 0) (b &&& 0x20 != 0) (b &&& 0xF) = b) ∧
    (b &&& 0xF = b → ∀ odd t, firstByte odd t b &&& 0xc0 = 0 ∧ (firstByte odd t b &&& 0x10 != 0) = odd ∧
      (firstByte odd t b &&& 0x20 != 0) = t ∧ firstByte odd t b &&& 0xF = if odd then b else 0) := by decide +kernel

theorem getNibble_setNibble (d : Buffer) (n m : Nat) (v : UInt8) :
    getNibble (setNibble d n v) m = if m = n then v &&& 0xF else getNibble d m := by
  obtain ⟨hhigh, hkeepLow, hkeepHigh, hlow⟩ := setNibble_bits (d (n / 2)) v
  unfold getNibble setNibble
  by_cases hbyte : m / 2 = n / 2
  · rw [hbyte, update_self]
    split_ifs <;> first | assumption | omega
  · have hne : m ≠ n := fun h => hbyte (congrArg (· / 2) h)
    rw [update_of_ne hbyte, if_neg hne]

theorem getNibble_setNibbles_of_lt (vs : Nibbles) {d : Buffer} {n m : Nat} (h : m < n) :
    getNibble (setNibbles d n vs) m = getNibble d m := by
  induction vs generalizing d n with
  | nil => rfl
  | cons v vs ih => rw [setNibbles, ih (by omega), getNibble_setNibble, if_neg (by omega)]

/-- The nibbles that have been set are read back. -/
theorem map_getNibble_setNibbles {vs : Nibbles} (hvs : ∀ v ∈ vs, v &&& 0xF = v) (d : Buffer) (n : Nat) :
    (range' n vs.length).map (getNibble (setNibbles d n vs)) = vs := by
  induction vs generalizing d n with
  | nil => rfl
  | cons v vs ih =>
    obtain ⟨hv, hvs⟩ := forall_mem_cons.mp hvs
    rw [length_cons, range'_succ, map_cons, setNibbles, ih hvs, getNibble_setNibbles_of_lt _ (by omega),
      getNibble_setNibble, if_pos rfl, hv]

theorem nibblesOf_map (d : Buffer) (s m : Nat) :
    nibblesOf ((range' s m).map d) = (range' (2 * s) (2 * m)).map (getNibble d) := by
  induction m generalizing s with
  | zero => rfl
  | succ m ih =>
    have hhigh : getNibble d (2 * s) = d s >>> 4 := by simp [getNibble]
    have hlow : getNibble d (2 * s + 1) = d s &&& 0xF := by simp [getNibble, Nat.mul_add_div]
    have hrest := ih (s + 1)
    rw [mul_add, mul_one] at hrest
    rw [mul_add, range'_succ, map_cons, range'_succ, range'_succ, map_cons, map_cons, ← hrest, hhigh, hlow]
    rfl

theorem nibblesOf_injective : Injective nibblesOf := by
  intro bs
  induction bs with
  | nil =>
    intro cs h
    cases cs with
    | nil => rfl
    | cons c cs => cases h
  | cons b bs ih =>
    intro cs h
    cases cs with
    | nil => cases h
    | cons c cs =>
      obtain ⟨hhigh, hlow, hrest⟩ : b >>> 4 = c >>> 4 ∧ b &&& 0xF = c &&& 0xF ∧ nibblesOf bs = nibblesOf cs := by
        simpa [nibblesOf] using h
      rw [ih hrest, ← (byte_nibbles b).1, hhigh, hlow, (byte_nibbles c).1]

theorem and_of_mem_nibblesOf {bs : Bytes} {v : UInt8} (h : v ∈ nibblesOf bs) : v &&& 0xF = v := by
  obtain ⟨b, -, hv⟩ := mem_flatMap.mp h
  rcases mem_pair.mp hv with rfl | rfl
  · exact (byte_nibbles b).2.1
  · rw [UInt8.and_assoc, UInt8.and_self]

/-! ## Encoding -/

namespace NibblesView

variable (path : NibblesView)

theorem length_nibbles : path.nibbles.length = path.nibbleSize := by simp [nibbles]

theorem and_get (i : Nat) : path.get i &&& 0xF = path.get i := by
  unfold get getNibble
  split
  · exact (byte_nibbles _).2.1
  · rw [UInt8.and_assoc, UInt8.and_self]

theorem and_of_mem_nibbles {v : UInt8} (h : v ∈ path.nibbles) : v &&& 0xF = v := by
  obtain ⟨i, -, rfl⟩ := mem_map.mp h
  exact path.and_get i

/-- An odd path begins with a nibble of its own. -/
theorem nibbles_eq : path.nibbles = (if decide (path.nibbleSize % 2 = 1) then [path.get 0] else []) ++
    path.nibbles.drop (path.nibbleSize % 2) := by
  rcases Nat.mod_two_eq_zero_or_one path.nibbleSize with hpar | hpar
  · rw [hpar]
    rfl
  · rw [hpar]
    unfold nibbles
    rw [← Nat.succ_pred (by omega : path.nibbleSize ≠ 0), range_succ_eq_map]
    rfl

theorem nibbles_ofNibbles {vs : Nibbles} (hvs : ∀ v ∈ vs, v &&& 0xF = v) (h : vs.length ≤ 255) :
    (ofNibbles vs h).nibbles = vs := by
  have hread := map_getNibble_setNibbles hvs (fun _ => 0) 0
  unfold nibbles get nibbleSize ofNibbles
  simpa [← range_eq_range'] using hread

/-- The flags are in the first byte and the nibbles behind them. -/
theorem compactEncode_spec (res : Buffer) {t : Bool} (h : path.nibbleSize ≠ 0 ∨ t = true) :
    ∃ rest, path.compactEncode res t = some (firstByte (path.nibbleSize % 2 = 1) t (path.get 0) :: rest) ∧
      nibblesOf rest = path.nibbles.drop (path.nibbleSize % 2) := by
  have hlen : (path.nibbles.drop (path.nibbleSize % 2)).length = 2 * (path.nibbleSize / 2) := by
    rw [length_drop, length_nibbles]
    omega
  have hbyte (d : Buffer) : getNibble d 0 <<< 4 ||| getNibble d 1 = d 0 := (byte_nibbles _).1
  have hnot : ¬ (path.nibbleSize = 0 ∧ t = false) := by
    rintro ⟨h0, rfl⟩
    exact h.elim (· h0) Bool.false_ne_true
  unfold compactEncode
  rw [if_neg hnot]
  refine ⟨(range' 1 (path.nibbleSize / 2)).map (setNibbles (update res 0 (firstByte (path.nibbleSize % 2 = 1) t
    (path.get 0))) 2 (path.nibbles.drop (path.nibbleSize % 2))), congrArg some ?_, ?_⟩
  · rw [range_eq_range', range'_succ, map_cons, ← hbyte (setNibbles _ _ _), getNibble_setNibbles_of_lt _ (by decide),
      getNibble_setNibbles_of_lt _ (by decide), hbyte, update_self]
  · rw [nibblesOf_map, ← hlen]
    exact map_getNibble_setNibbles (fun v hv => path.and_of_mem_nibbles (mem_of_mem_drop hv)) _ 2

end NibblesView

/-! ## Decoding -/

theorem length_joined (odd : Bool) (v : UInt8) (rest : Bytes) :
    ((if odd then [v] else []) ++ nibblesOf rest).length = rest.length * 2 + odd.toNat := by
  rw [length_append, nibblesOf_length, add_comm]
  cases odd <;> rfl

/-- What `compact_decode` accepts, and what it returns then. -/
theorem compactDecode_iff {enc : Bytes} {vs : Nibbles} {t : Bool} : compactDecode enc = .ok (vs, t) ↔
    ∃ odd v rest, v &&& 0xF = v ∧ enc = firstByte odd t v :: rest ∧
      vs = (if odd then [v] else []) ++ nibblesOf rest ∧ vs.length ≤ 255 ∧ (vs.length ≠ 0 ∨ t = true) := by
  constructor
  · intro h
    cases enc with
    | nil => cases h
    | cons b rest =>
      have hlen := length_joined (b &&& 0x10 != 0) (b &&& 0xF) rest
      unfold compactDecode at h
      dsimp only at h
      generalize hvs : (if b &&& 0x10 != 0 then [b &&& 0xF] else []) ++ nibblesOf rest = vs' at h hlen
      split_ifs at h with hbits hpad hempty hlong
      cases h
      rw [← hlen] at hempty hlong
      refine ⟨b &&& 0x10 != 0, b &&& 0xF, rest, ?_, ?_, hvs.symm, not_lt.mp hlong, ?_⟩
      · rw [UInt8.and_assoc, UInt8.and_self]
      · refine congrArg (· :: rest) ((byte_nibbles b).2.2.1 (not_not.mp hbits) ?_).symm
        simpa [or_iff_not_imp_left] using hpad
      · rwa [not_and_or, Bool.not_eq_false] at hempty
  · rintro ⟨odd, v, rest, hv, rfl, rfl, hlen, hne⟩
    obtain ⟨hbits, hodd, hterm, hlow⟩ := (byte_nibbles v).2.2.2 hv odd t
    rw [length_joined] at hlen hne
    unfold compactDecode
    dsimp only
    rw [hbits, hodd, hterm, hlow, if_neg (not_not.mpr rfl), if_neg, if_neg, if_neg (not_lt.mpr hlen)]
    · cases odd <;> rfl
    · rwa [not_and_or, Bool.not_eq_false]
    · cases odd <;> simp

theorem compactDecode_injective {enc enc' : Bytes} {vs : Nibbles} {t : Bool} (h : compactDecode enc = .ok (vs, t))
    (h' : compactDecode enc' = .ok (vs, t)) : enc = enc' := by
  obtain ⟨odd, v, rest, -, rfl, hvs, -⟩ := compactDecode_iff.mp h
  obtain ⟨odd', v', rest', -, rfl, hvs', -⟩ := compactDecode_iff.mp h'
  have hjoined := hvs.symm.trans hvs'
  have hlen := congrArg length hjoined
  rw [length_joined, length_joined] at hlen
  obtain rfl : odd = odd' := by
    cases odd <;> cases odd' <;> first | rfl | (simp only [Bool.toNat_true, Bool.toNat_false] at hlen; omega)
  cases odd with
  | false =>
    rw [nibblesOf_injective hjoined]
    rfl
  | true =>
    obtain ⟨rfl, hrest⟩ := cons.inj hjoined
    rw [nibblesOf_injective hrest]

theorem compactDecode_compactEncode (res : Buffer) (path : NibblesView) {t : Bool}
    (h : path.nibbleSize ≠ 0 ∨ t = true) :
    ∃ enc, path.compactEncode res t = some enc ∧ compactDecode enc = .ok (path.nibbles, t) := by
  obtain ⟨rest, henc, hrest⟩ := path.compactEncode_spec res h
  have hsize := path.length_nibbles
  have hend := path.end_le
  have hle : path.nibbleSize ≤ path.endNibble := Nat.sub_le _ _
  refine ⟨_, henc, compactDecode_iff.mpr ⟨_, _, rest, path.and_get 0, rfl, ?_, by omega, hsize ▸ h⟩⟩
  rw [hrest]
  exact path.nibbles_eq

/-- A path is read back from its encoding, whatever the alignment of the view, and every encoding that is
accepted is the one of the path that is read. -/
theorem compact_coding_bijective :
    (∀ (res : Buffer) (path : NibblesView) (t : Bool), (path.nibbleSize ≠ 0 ∨ t = true) →
      ∃ enc, path.compactEncode res t = some enc ∧ compactDecode enc = .ok (path.nibbles, t)) ∧
    ∀ (res : Buffer) (enc : Bytes) (vs : Nibbles) (t : Bool), compactDecode enc = .ok (vs, t) →
      ∃ h : vs.length ≤ 255, (NibblesView.ofNibbles vs h).nibbles = vs ∧
        (NibblesView.ofNibbles vs h).compactEncode res t = some enc := by
  refine ⟨fun res path t => compactDecode_compactEncode res path, fun res enc vs t h => ?_⟩
  obtain ⟨odd, v, rest, hv, -, hvs, hlen, hne⟩ := compactDecode_iff.mp h
  have hmem : ∀ u ∈ vs, u &&& 0xF = u := by
    rw [hvs]
    intro u hu
    rcases mem_append.mp hu with hu | hu
    · cases odd <;> simp_all
    · exact and_of_mem_nibblesOf hu
  have hview := NibblesView.nibbles_ofNibbles hmem hlen
  obtain ⟨enc', henc, hdec⟩ := compactDecode_compactEncode res (NibblesView.ofNibbles vs hlen) hne
  rw [hview] at hdec
  rw [compactDecode_injective h hdec]
  exact ⟨hlen, hview, henc⟩

theorem compact_coding_bijective_leaf : compactDecode [0x31, 0x23] = .ok ([1, 2, 3], true) ∧
    ∃ h : [1, 2, 3].length ≤ 255, (NibblesView.ofNibbles [1, 2, 3] h).nibbles = [1, 2, 3] ∧
      (NibblesView.ofNibbles [1, 2, 3] h).compactEncode (fun _ => 0xFF) true = some [0x31, 0x23] :=
  ⟨rfl, compact_coding_bijective.2 _ _ _ _ rfl⟩

end MonadExecution.Mpt.CompactEncode
