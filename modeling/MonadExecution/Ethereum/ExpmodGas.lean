import MonadExecution.Ethereum.RlpItems
import MonadExecution.Ethereum.TransactionGas

/-!
# The price of modular exponentiation

The input of the precompile gives three lengths of up to 256 bits, so its price is computed in arithmetic
that can wrap around. `expmodCost` is the price of the revision over natural numbers, and
`expmod_gas_cost` returns it, or at least `2 ^ 62` where it is not smaller than that.
-/

namespace MonadExecution.Ethereum.Gas

open List Rlp Nat

variable (traits : Traits)

/-! ## The function -/

def multComplexity (maxLen : Nat) : Nat :=
  if .osaka ≤ traits.evmRev then
    let words := wrap256 (maxLen + 7) / 8
    if 32 < maxLen then wrap256 (2 * words * words) else 16
  else if .berlin ≤ traits.evmRev then
    let words := wrap256 (maxLen + 7) / 8
    wrap256 (words * words)
  else
    let maxLenSquared := wrap256 (maxLen * maxLen)
    if maxLen ≤ 64 then maxLenSquared
    else if maxLen ≤ 1024 then wrap256 (maxLenSquared / 4 + 96 * maxLen + (uint256Size - 3072))
    else wrap256 (maxLenSquared / 16 + 480 * maxLen + (uint256Size - 199680))

def expmodGasDenominator : Nat := if .osaka ≤ traits.evmRev then 1 else if .berlin ≤ traits.evmRev then 3 else 20

def expmodMinGas : Nat := if .osaka ≤ traits.evmRev then 500 else if .berlin ≤ traits.evmRev then 200 else 0

def expmodIterationCount (expLen bitLen : Nat) : Nat :=
  let adjusted := if 32 < expLen then wrap256 ((if .osaka ≤ traits.evmRev then 16 else 8) * (expLen - 32)) else 0
  max (if 1 < bitLen then wrap256 (adjusted + (bitLen - 1)) else adjusted) 1

/-- `from_bytes`: the first `n` bytes, with zeros behind those that are missing. -/
def fromBytes (n : Nat) (src : Bytes) : Nat := ofBigEndian (src.take n ++ replicate (n - src.length) 0)

def uint256LoadPartialBe (input : Bytes) (len : Nat) : Nat := if input.isEmpty then 0 else fromBytes len input

/-- The 64-bit words of a 256-bit integer, the lowest first. -/
def wordAt (x i : Nat) : Nat := x / 2 ^ (64 * i) % 2 ^ 64

def countSignificantWords (x : Nat) : Nat → Nat
  | 0 => 0
  | i + 1 => if wordAt x i ≠ 0 then i + 1 else countSignificantWords x i

def countSignificantBytes (x : Nat) : Nat :=
  let words := countSignificantWords x 4
  if words = 0 then 0 else ((wordAt x (words - 1)).size + 7) / 8 + (words - 1) * 8

/-- The leading zero bits of a 256-bit integer. -/
def countlZero (x : Nat) : Nat := 256 - x.size

def uint64Max : Nat := 2 ^ 64 - 1

def expmodGasCost (input : Bytes) : Option Nat :=
  let baseLen := uint256LoadPartialBe input 32
  let expLen := if 32 ≤ input.length then uint256LoadPartialBe (input.drop 32) 32 else 0
  let modLen := if 64 ≤ input.length then uint256LoadPartialBe (input.drop 64) 32 else 0
  if ¬ .osaka ≤ traits.evmRev ∧ baseLen = 0 ∧ modLen = 0 then some (expmodMinGas traits)
  else if .osaka ≤ traits.evmRev ∧ (1024 < baseLen ∨ 1024 < expLen ∨ 1024 < modLen) then none
  else if ¬ .osaka ≤ traits.evmRev ∧ (8 < countSignificantBytes baseLen ∨
      8 < countSignificantBytes expLen ∨ 8 < countSignificantBytes modLen) then some uint64Max
  else
    let expIndex := (96 + baseLen % 2 ^ 64) % 2 ^ 64
    let expHead :=
      if expIndex < input.length then
        uint256LoadPartialBe (input.drop expIndex) (min 32 (expLen % 2 ^ 64))
      else 0
    let iterationCount := expmodIterationCount traits expLen (256 - countlZero expHead)
    let gas := wrap256 (multComplexity traits (max modLen baseLen) * iterationCount) / expmodGasDenominator traits
    if uint64Max < gas then some uint64Max else some (max (expmodMinGas traits) gas)

/-! ## The price -/

/-- The `n` bytes at `k` of the input extended by zero bytes. -/
def zeroExtended (input : Bytes) (k n : Nat) : Bytes := (range n).map fun i => input.getD (k + i) 0

/-- The lengths of base, exponent and modulus, at their offsets. -/
def lengthAt (input : Bytes) (k : Nat) : Nat := ofBigEndian (zeroExtended input k 32)

/-- The multiplication complexity of the revision. -/
def complexity (x : Nat) : Nat :=
  if .osaka ≤ traits.evmRev then if x ≤ 32 then 16 else 2 * ((x + 7) / 8) ^ 2
  else if .berlin ≤ traits.evmRev then ((x + 7) / 8) ^ 2
  else if x ≤ 64 then x ^ 2
  else if x ≤ 1024 then x ^ 2 / 4 + 96 * x - 3072
  else x ^ 2 / 16 + 480 * x - 199680

/-- The iteration count for the bit length of the head of the exponent. -/
def iterations (expLen bitLen : Nat) : Nat :=
  max 1 ((if .osaka ≤ traits.evmRev then 16 else 8) * (expLen - 32) + (bitLen - 1))

/-- The least price of EIP-198, EIP-2565 and EIP-7883. -/
def leastPrice : EthRevision → Nat
  | .osaka => 500
  | .berlin | .london | .paris | .shanghai | .cancun | .prague => 200
  | .petersburg | .istanbul => 0

/-- Their divisors. -/
def divisor : EthRevision → Nat
  | .osaka => 1
  | .berlin | .london | .paris | .shanghai | .cancun | .prague => 3
  | .petersburg | .istanbul => 20

/-- The price of the revision. -/
def expmodCost (input : Bytes) : Nat :=
  let head := zeroExtended input (96 + lengthAt input 0) (min 32 (lengthAt input 32))
  max (leastPrice traits.evmRev) (complexity traits (max (lengthAt input 64) (lengthAt input 0)) *
      iterations traits (lengthAt input 32) (ofBigEndian head).size / divisor traits.evmRev)

/-! ## Reading the input -/

theorem load_eq (input : Bytes) (k n : Nat) :
    uint256LoadPartialBe (input.drop k) n = ofBigEndian (zeroExtended input k n) := by
  have bytes : (input.drop k).take n ++ replicate (n - (input.drop k).length) 0 = zeroExtended input k n := by
    apply List.ext_getElem
    · simp [zeroExtended]
      omega
    intro i h₁ h₂
    simp only [zeroExtended, getElem_map, getElem_range, getElem_append, length_take, length_drop]
    split
    · rw [getElem_take, getElem_drop, getD_eq_getElem _ _ (by omega)]
    · rw [getElem_replicate, getD_eq_default _ _ (by simp [zeroExtended] at h₂; omega)]
  unfold uint256LoadPartialBe fromBytes
  rw [bytes]
  split
  · rename_i h
    rw [← bytes, isEmpty_iff.mp h]
    simp [ofBigEndian_zeros]
  · rfl

/-- Where the input ends before the field, the guard gives what the zero bytes give. -/
theorem load_guard {input : Bytes} {k n : Nat} {c : Prop} [Decidable c] (h : ¬ c → input.length ≤ k) :
    (if c then uint256LoadPartialBe (input.drop k) n else 0) = ofBigEndian (zeroExtended input k n) := by
  rw [← load_eq]
  split
  · rfl
  rename_i hc
  rw [drop_eq_nil_of_le (h hc)]
  rfl

theorem ofBigEndian_zeroExtended_lt (input : Bytes) {k n : Nat} (hn : n ≤ 32) :
    ofBigEndian (zeroExtended input k n) < 2 ^ 256 := by
  have h := ofBigEndian_lt (zeroExtended input k n)
  have hpow : 256 ^ n ≤ 256 ^ 32 := Nat.pow_le_pow_right (by decide) hn
  simp only [zeroExtended, length_map, length_range] at h ⊢
  omega

/-- More than eight significant bytes. -/
theorem lt_countSignificantBytes {x : Nat} (hx : x < 2 ^ 256) : 8 < countSignificantBytes x ↔ 2 ^ 64 ≤ x := by
  have size_pos (i : Nat) (h : wordAt x i ≠ 0) : 0 < (wordAt x i).size := size_pos.mpr (pos_of_ne_zero h)
  have size_le (i : Nat) : (wordAt x i).size ≤ 64 := size_le.mpr (mod_lt _ (by decide))
  have h0 := size_le 0
  have h1 := size_pos 1
  have h2 := size_pos 2
  have h3 := size_pos 3
  have hwds : 2 ^ 64 ≤ x ↔ wordAt x 1 ≠ 0 ∨ wordAt x 2 ≠ 0 ∨ wordAt x 3 ≠ 0 := by
    unfold wordAt
    omega
  rw [hwds]
  by_cases e3 : wordAt x 3 = 0 <;> by_cases e2 : wordAt x 2 = 0 <;> by_cases e1 : wordAt x 1 = 0 <;>
    by_cases e0 : wordAt x 0 = 0 <;>
    simp [countSignificantBytes, countSignificantWords, e3, e2, e1, e0] <;> omega

/-! ## Arithmetic without wrap-around -/

variable {traits}

theorem square_lt {y : Nat} (hy : y < 2 ^ 64) : y ^ 2 < 2 ^ 128 := by nlinarith

theorem multComplexity_eq {x : Nat} (hx : x < 2 ^ 64) : multComplexity traits x = complexity traits x := by
  have hsum : wrap256 (x + 7) = x + 7 := wrap256_of_lt (by unfold uint256Size; omega)
  have hsquare := square_lt hx
  have hwds : ((x + 7) / 8) ^ 2 < 2 ^ 128 := square_lt (by omega)
  unfold multComplexity complexity
  simp only [hsum, mul_assoc, ← pow_two]
  simp only [wrap256, uint256Size]
  split_ifs <;> omega

theorem iterations_eq {e b : Nat} (he : e < 2 ^ 64) (hb : b ≤ 256) :
    expmodIterationCount traits e b = iterations traits e b := by
  unfold expmodIterationCount iterations
  simp only [wrap256, uint256Size]
  split_ifs <;> omega

theorem complexity_lt {x : Nat} (hx : x < 2 ^ 64) : complexity traits x < 2 ^ 130 := by
  have hsquare := square_lt hx
  have hwds : ((x + 7) / 8) ^ 2 < 2 ^ 128 := square_lt (by omega)
  unfold complexity
  split_ifs <;> omega

theorem iterations_lt {e b : Nat} (he : e < 2 ^ 64) (hb : b ≤ 256) : iterations traits e b < 2 ^ 70 := by
  unfold iterations
  split_ifs <;> omega

/-! ## Where the price is large -/

theorem complexity_pos (h : ¬ .osaka ≤ traits.evmRev) {x : Nat} (hx : 0 < x) : 0 < complexity traits x := by
  have hwds : 0 < ((x + 7) / 8) ^ 2 := Nat.pow_pos (by omega)
  have hsquare : 0 < x ^ 2 := Nat.pow_pos hx
  unfold complexity
  split_ifs <;> omega

theorem le_square {y n : Nat} (hy : n ≤ y) : n * n ≤ y ^ 2 := Nat.pow_two y ▸ Nat.mul_le_mul hy hy

theorem le_complexity (h : ¬ .osaka ≤ traits.evmRev) {x : Nat} (hx : 2 ^ 63 ≤ x) : 2 ^ 70 ≤ complexity traits x := by
  have hwds : 2 ^ 60 * 2 ^ 60 ≤ ((x + 7) / 8) ^ 2 := le_square (by omega)
  have hsquare := le_square hx
  unfold complexity
  split_ifs <;> omega

theorem expmodMinGas_eq : expmodMinGas traits = leastPrice traits.evmRev := by
  unfold expmodMinGas
  cases traits.evmRev <;> rfl

theorem expmodGasDenominator_eq : expmodGasDenominator traits = divisor traits.evmRev := by
  unfold expmodGasDenominator
  cases traits.evmRev <;> rfl

theorem expmodGasDenominator_bounds : 0 < expmodGasDenominator traits ∧ expmodGasDenominator traits ≤ 20 := by
  unfold expmodGasDenominator
  split_ifs <;> omega

/-- A complexity of `2 ^ 70`, or a nonzero one with an exponent of `2 ^ 64` bytes, makes the price large. -/
theorem le_price {c t : Nat} (h : 2 ^ 70 ≤ c ∧ 0 < t ∨ 0 < c ∧ 2 ^ 67 - 256 ≤ t) :
    2 ^ 62 ≤ c * t / expmodGasDenominator traits := by
  obtain ⟨hpos, hle⟩ := @expmodGasDenominator_bounds traits
  rw [Nat.le_div_iff_mul_le hpos]
  have hprod : 2 ^ 67 - 256 ≤ c * t := by
    rcases h with ⟨hc, ht⟩ | ⟨hc, ht⟩
    · exact le_trans (by omega) (Nat.le_mul_of_pos_right c ht)
    · exact le_trans ht (Nat.le_mul_of_pos_left t hc)
  calc 2 ^ 62 * expmodGasDenominator traits ≤ 2 ^ 62 * 20 := Nat.mul_le_mul_left _ hle
    _ ≤ c * t := by omega

theorem iterations_pos {e b : Nat} : 0 < iterations traits e b := lt_of_lt_of_le (by decide) (le_max_left _ _)

theorem le_iterations {e b : Nat} (he : 2 ^ 64 ≤ e) : 2 ^ 67 - 256 ≤ iterations traits e b := by
  unfold iterations
  split_ifs <;> omega

/-! ## The function returns the price -/

theorem size_le_of_lt {x : Nat} (hx : x < 2 ^ 256) : 256 - countlZero x = x.size := by
  have : x.size ≤ 256 := size_le.mpr hx
  unfold countlZero
  omega

/-- What the last lines compute for lengths of 64 bits. -/
theorem product_eq {x e h : Nat} (hx : x < 2 ^ 64) (he : e < 2 ^ 64) (hh : h < 2 ^ 256) :
    wrap256 (multComplexity traits x * expmodIterationCount traits e (256 - countlZero h)) =
      complexity traits x * iterations traits e h.size := by
  have hsize : h.size ≤ 256 := size_le.mpr hh
  rw [size_le_of_lt hh, multComplexity_eq hx, iterations_eq he hsize]
  refine wrap256_of_lt (lt_trans (mul_lt_mul'' (complexity_lt hx) (iterations_lt he hsize)) ?_)
  decide

/-- The last test: what was computed is the price, or both are large. -/
theorem charged_eq {minGas g price gas : Nat} (h : g = price ∨ 2 ^ 62 ≤ g ∧ 2 ^ 62 ≤ price)
    (hgas : (if uint64Max < g then some uint64Max else some (max minGas g)) = some gas) :
    (max minGas price < 2 ^ 62 → gas = max minGas price) ∧ (2 ^ 62 ≤ max minGas price → 2 ^ 62 ≤ gas) := by
  unfold uint64Max at hgas
  split_ifs at hgas <;> cases hgas <;> omega

/-- **The precompile is not undercharged.** It is refused exactly where a length is above the limit of
EIP-7823, and otherwise its price is returned, or at least `2 ^ 62` where the price is not smaller. -/
theorem expmodGasCost_price (traits : Traits) (input : Bytes) :
    (expmodGasCost traits input = none ↔ .osaka ≤ traits.evmRev ∧
      (1024 < lengthAt input 0 ∨ 1024 < lengthAt input 32 ∨ 1024 < lengthAt input 64)) ∧
    ∀ gas, expmodGasCost traits input = some gas →
      (expmodCost traits input < 2 ^ 62 → gas = expmodCost traits input) ∧
      (2 ^ 62 ≤ expmodCost traits input → 2 ^ 62 ≤ gas) := by
  have hbase : uint256LoadPartialBe input 32 = lengthAt input 0 := load_eq input 0 32
  have hexp : (if 32 ≤ input.length then uint256LoadPartialBe (input.drop 32) 32 else 0) =
      lengthAt input 32 := load_guard (by omega)
  have hmod : (if 64 ≤ input.length then uint256LoadPartialBe (input.drop 64) 32 else 0) =
      lengthAt input 64 := load_guard (by omega)
  have hlt (k : Nat) : lengthAt input k < 2 ^ 256 := ofBigEndian_zeroExtended_lt input le_rfl
  have hhead {k n : Nat} (hn : n ≤ 32) := ofBigEndian_zeroExtended_lt input (k := k) hn
  unfold expmodGasCost
  simp only [hbase, hexp, hmod, lt_countSignificantBytes (hlt _), load_guard not_lt.mp]
  unfold expmodCost
  rw [← expmodMinGas_eq, ← expmodGasDenominator_eq]
  dsimp only
  generalize lengthAt input 0 = b
  generalize lengthAt input 32 = e
  generalize lengthAt input 64 = m
  by_cases h1 : ¬ .osaka ≤ traits.evmRev ∧ b = 0 ∧ m = 0
  · -- no base and no modulus: the complexity is zero
    have hzero : complexity traits 0 = 0 := by simp [complexity, h1.1]
    simp [h1, hzero]
  rw [if_neg h1]
  by_cases h2 : .osaka ≤ traits.evmRev ∧ (1024 < b ∨ 1024 < e ∨ 1024 < m)
  · simp [h2]
  rw [if_neg h2]
  by_cases h3 : ¬ .osaka ≤ traits.evmRev ∧ (2 ^ 64 ≤ b ∨ 2 ^ 64 ≤ e ∨ 2 ^ 64 ≤ m)
  · -- a length of more than 64 bits
    have hlarge (t : Nat) : 2 ^ 62 ≤
        complexity traits (max m b) * iterations traits e t / expmodGasDenominator traits := by
      apply le_price
      have hsome : ¬ (b = 0 ∧ m = 0) := fun h => h1 ⟨h3.1, h⟩
      rcases h3.2 with h | h | h
      · exact .inl ⟨le_complexity h3.1 (by omega), iterations_pos⟩
      · exact .inr ⟨complexity_pos h3.1 (by omega), le_iterations h⟩
      · exact .inl ⟨le_complexity h3.1 (by omega), iterations_pos⟩
    rw [if_pos h3]
    refine ⟨by simp [h2], fun gas hgas => ?_⟩
    refine charged_eq (g := 2 ^ 64) (.inr ⟨by decide, hlarge _⟩) ?_
    rwa [if_pos (by decide)]
  rw [if_neg h3]
  have hlimit : .osaka ≤ traits.evmRev → b ≤ 1024 ∧ e ≤ 1024 ∧ m ≤ 1024 := by
    intro hosaka
    simp only [hosaka, true_and] at h2
    omega
  obtain ⟨hb, he, hm⟩ : b < 2 ^ 64 ∧ e < 2 ^ 64 ∧ m < 2 ^ 64 := by
    by_cases hosaka : .osaka ≤ traits.evmRev
    · have := hlimit hosaka
      omega
    · simp only [hosaka, not_false_eq_true, true_and] at h3
      omega
  have hx : max m b < 2 ^ 64 := max_lt hm hb
  rw [product_eq hx he (hhead (Nat.min_le_left _ _)), Nat.mod_eq_of_lt he, Nat.mod_eq_of_lt hb]
  refine ⟨by split_ifs <;> simp [h2], fun gas hgas => charged_eq ?_ hgas⟩
  by_cases hwrap : 96 + b < 2 ^ 64
  · rw [Nat.mod_eq_of_lt hwrap]
    exact .inl rfl
  -- the index of the exponent has wrapped around, for a base of almost 2 ^ 64 bytes
  have hold : ¬ .osaka ≤ traits.evmRev := by
    intro hosaka
    have := hlimit hosaka
    omega
  have hc := le_complexity hold (show 2 ^ 63 ≤ max m b by omega)
  exact .inr ⟨le_price (.inl ⟨hc, iterations_pos⟩), le_price (.inl ⟨hc, iterations_pos⟩)⟩

end MonadExecution.Ethereum.Gas
