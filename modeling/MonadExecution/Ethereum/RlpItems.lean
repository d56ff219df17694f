import Mathlib
import MonadExecution.Ethereum.Rlp
import MonadExecution.Lib.Codec

/-!
# Encoding RLP

`encode_string2` and `encode_list2` build a new byte string; they keep the size of a string in a
`uint32_t`, that of a list in a `size_t`. An item that is parsed by `parse_metadata` was written by them,
and the other way round, as long as the size of every string fits into its 32 bits.
-/

namespace MonadExecution.Ethereum.Rlp

open List Nat

/-! ## Big-endian numbers -/

theorem foldl_bigEndian (bs : Bytes) (n : Nat) :
    bs.foldl (fun n b => n * 256 + b.toNat) n = n * 256 ^ bs.length + ofBigEndian bs := by
  induction bs generalizing n with
  | nil => simp [ofBigEndian]
  | cons b bs ih =>
    unfold ofBigEndian
    rw [foldl_cons, foldl_cons, ih, ih (0 * 256 + b.toNat), length_cons, pow_succ]
    ring

theorem ofBigEndian_cons (b : UInt8) (bs : Bytes) :
    ofBigEndian (b :: bs) = b.toNat * 256 ^ bs.length + ofBigEndian bs := by
  conv_lhs => unfold ofBigEndian
  rw [foldl_cons, foldl_bigEndian, zero_mul, zero_add]

theorem ofBigEndian_zeros (k : Nat) : ofBigEndian (replicate k 0) = 0 := by
  induction k with
  | zero => rfl
  | succ k ih =>
    rw [replicate_succ, ofBigEndian_cons, ih]
    simp

theorem ofBigEndian_lt (bs : Bytes) : ofBigEndian bs < 256 ^ bs.length := by
  induction bs with
  | nil => simp [ofBigEndian]
  | cons b bs ih =>
    have hb : b.toNat + 1 ≤ 256 := b.toNat_lt
    rw [ofBigEndian_cons, length_cons, pow_succ]
    calc b.toNat * 256 ^ bs.length + ofBigEndian bs
        < b.toNat * 256 ^ bs.length + 256 ^ bs.length := by omega
      _ = (b.toNat + 1) * 256 ^ bs.length := by ring
      _ ≤ 256 * 256 ^ bs.length := mul_le_mul_right _ hb
      _ = 256 ^ bs.length * 256 := mul_comm _ _

@[simp] theorem length_toBigEndian (size n : Nat) : (toBigEndian size n).length = size := by simp [toBigEndian]

@[simp] theorem toBigEndian_zero (n : Nat) : toBigEndian 0 n = [] := rfl

theorem toBigEndian_succ (size n : Nat) :
    toBigEndian (size + 1) n = UInt8.ofNat (n / 256 ^ size) :: toBigEndian size n := by
  unfold toBigEndian
  rw [range_succ_eq_map, map_cons, map_map]
  refine congrArg₂ _ (by simp) (map_congr_left fun i hi => ?_)
  simp only [Function.comp_apply]
  rw [show size + 1 - 1 - (i + 1) = size - 1 - i by omega]

theorem ofBigEndian_toBigEndian (size n : Nat) : ofBigEndian (toBigEndian size n) = n % 256 ^ size := by
  induction size with
  | zero => simp [ofBigEndian, mod_one]
  | succ size ih =>
    have hbyte : (UInt8.ofNat (n / 256 ^ size)).toNat = n / 256 ^ size % 256 := UInt8.toNat_ofNat'
    rw [toBigEndian_succ, ofBigEndian_cons, length_toBigEndian, ih, hbyte, pow_succ, mod_mul, mul_comm, add_comm]

/-- The bytes of a number that has been read are the bytes it was read from, with zeros in front. -/
theorem toBigEndian_ofBigEndian (zeros : Nat) (bs : Bytes) :
    toBigEndian (zeros + bs.length) (ofBigEndian bs) = replicate zeros 0 ++ bs := by
  induction zeros with
  | zero =>
    rw [zero_add, replicate_zero, nil_append]
    induction bs with
    | nil => rfl
    | cons b bs ih =>
      have hlow : toBigEndian bs.length (b.toNat * 256 ^ bs.length + ofBigEndian bs) =
          toBigEndian bs.length (ofBigEndian bs) := by
        refine map_congr_left fun i hi => ?_
        have hi := mem_range.mp hi
        have hspl : 256 ^ bs.length = 256 ^ i * 256 * 256 ^ (bs.length - 1 - i) := by
          rw [← pow_succ, ← pow_add]
          congr 1
          omega
        have hdiv : (b.toNat * 256 ^ bs.length + ofBigEndian bs) / 256 ^ (bs.length - 1 - i) =
            ofBigEndian bs / 256 ^ (bs.length - 1 - i) + b.toNat * 256 ^ i * 256 := by
          rw [hspl, add_comm, ← mul_assoc, ← mul_assoc, Nat.add_mul_div_right _ _ (Nat.pow_pos (by decide))]
        rw [hdiv]
        apply UInt8.toNat_inj.mp
        rw [UInt8.toNat_ofNat', UInt8.toNat_ofNat', Nat.add_mul_mod_self_right]
      rw [length_cons, toBigEndian_succ, ofBigEndian_cons, hlow, ih,
        add_comm, Nat.add_mul_div_right _ _ (Nat.pow_pos (by decide)),
        Nat.div_eq_of_lt (ofBigEndian_lt bs), zero_add, UInt8.ofNat_toNat]
  | succ zeros ih =>
    rw [Nat.succ_add, toBigEndian_succ, ih, replicate_succ, cons_append]
    have hlt : ofBigEndian bs < 256 ^ (zeros + bs.length) :=
      lt_of_lt_of_le (ofBigEndian_lt bs) (Nat.pow_le_pow_right (by decide) (Nat.le_add_left _ _))
    rw [Nat.div_eq_of_lt hlt]
    rfl

/-! ## Numbers without leading zeros -/

def zerolessView (bs : Bytes) : Bytes := bs.dropWhile (· == 0)

/-- `to_big_compact` of an integer of `size` bytes. -/
def toBigCompact (size n : Nat) : Bytes := zerolessView (toBigEndian size n)

theorem ofBigEndian_zerolessView (bs : Bytes) : ofBigEndian (zerolessView bs) = ofBigEndian bs := by
  induction bs with
  | nil => rfl
  | cons b bs ih =>
    unfold zerolessView at ih ⊢
    rw [dropWhile_cons]
    split
    · rename_i hb
      obtain rfl := eq_of_beq hb
      rw [ih, ofBigEndian_cons]
      simp
    · rfl

variable {bs : Bytes} {size n : Nat}

theorem zerolessView_replicate (zeros : Nat) (h : bs.head? ≠ some 0) :
    zerolessView (replicate zeros 0 ++ bs) = bs := by
  unfold zerolessView
  induction zeros with
  | zero =>
    cases bs with
    | nil => rfl
    | cons b bs =>
      have hb : (b == 0) = false := by
        rw [beq_eq_false_iff_ne]
        exact fun hb => h (by rw [hb]; rfl)
      rw [replicate_zero, nil_append, dropWhile_cons, hb]
      rfl
  | succ zeros ih => exact ih

theorem head_zerolessView (bs : Bytes) : (zerolessView bs).head? ≠ some 0 := by
  induction bs with
  | nil => simp [zerolessView]
  | cons b bs ih =>
    unfold zerolessView at ih ⊢
    rw [dropWhile_cons]
    split
    · exact ih
    rename_i hb
    simpa using hb

theorem ofBigEndian_toBigCompact (h : n < 256 ^ size) : ofBigEndian (toBigCompact size n) = n := by
  rw [toBigCompact, ofBigEndian_zerolessView, ofBigEndian_toBigEndian, mod_eq_of_lt h]

theorem length_toBigCompact (size n : Nat) : (toBigCompact size n).length ≤ size := by
  have h := (dropWhile_sublist (fun b : UInt8 => b == 0) (l := toBigEndian size n)).length_le
  rwa [length_toBigEndian] at h

/-- A number read from bytes without a leading zero is written back as these bytes. -/
theorem toBigCompact_ofBigEndian (hlen : bs.length ≤ size) (hhead : bs.head? ≠ some 0) :
    toBigCompact size (ofBigEndian bs) = bs := by
  obtain ⟨zeros, rfl⟩ := Nat.exists_eq_add_of_le' hlen
  rw [toBigCompact, toBigEndian_ofBigEndian, zerolessView_replicate zeros hhead]

theorem toBigCompact_size {size' : Nat} (h : n < 256 ^ size) (hle : size ≤ size') :
    toBigCompact size' n = toBigCompact size n := by
  have hlen := (length_toBigCompact size n).trans hle
  have hback := toBigCompact_ofBigEndian hlen (head_zerolessView _)
  rwa [ofBigEndian_toBigCompact h] at hback

theorem decodeRawNum_toBigCompact (h : n < 256 ^ size) : decodeRawNum size (toBigCompact size n) = .ok n := by
  have hlen := length_toBigCompact size n
  have hhead := head_zerolessView (toBigEndian size n)
  have hval := ofBigEndian_toBigCompact h
  unfold decodeRawNum
  rw [if_neg (not_lt.mpr hlen)]
  change (toBigCompact size n).head? ≠ some 0 at hhead
  cases hbs : toBigCompact size n with
  | nil =>
    rw [hbs] at hval
    rw [← hval]
    rfl
  | cons b bs =>
    rw [hbs] at hval hhead
    simp only
    rw [if_neg (fun hb => hhead (by rw [hb]; rfl)), hval]

theorem of_decodeRawNum (h : decodeRawNum size bs = .ok n) : bs = toBigCompact size n ∧ n < 256 ^ size := by
  unfold decodeRawNum at h
  split at h
  · cases h
  rename_i hlen
  have hlen := not_lt.mp hlen
  have hbd : ofBigEndian bs < 256 ^ size := lt_of_lt_of_le (ofBigEndian_lt bs) (Nat.pow_le_pow_right (by decide) hlen)
  cases bs with
  | nil =>
    cases h
    exact ⟨(toBigCompact_ofBigEndian hlen (by simp)).symm, hbd⟩
  | cons b bs =>
    simp only at h
    split at h
    · cases h
    rename_i hb
    cases h
    exact ⟨(toBigCompact_ofBigEndian hlen (by simpa using hb)).symm, hbd⟩

/-! ## The encoders that build a byte string -/

/-- `encode_string2`, which keeps the size in a `uint32_t`. -/
def encodeString2 (s : Bytes) : Bytes :=
  let size := s.length % 2 ^ 32
  if size = 1 ∧ s.headD 0 ≤ 0x7f then s
  else if 55 < size then
    let sizeStr := toBigCompact 4 size
    UInt8.ofNat (0xb7 + sizeStr.length) :: (sizeStr ++ s)
  else UInt8.ofNat (0x80 + size) :: s

/-- `encode_list2` of items whose encodings are `payload`, one after the other. -/
def encodeList2 (payload : Bytes) : Bytes :=
  let size := payload.length % 2 ^ 64
  if 55 < size then
    let sizeStr := toBigCompact 8 size
    UInt8.ofNat (0xf7 + sizeStr.length) :: (sizeStr ++ payload)
  else UInt8.ofNat (0xc0 + size) :: payload

/-- The size of a payload of more than 55 bytes, as it stands in front of it. -/
structure SizeStr (sizeStr payload : Bytes) : Prop where
  eq : sizeStr = toBigCompact 8 payload.length
  long : 56 ≤ payload.length
  fits : payload.length < 2 ^ 64

namespace SizeStr

variable {sizeStr payload : Bytes}

section

variable (h : SizeStr sizeStr payload)

include h

theorem length_le : sizeStr.length ≤ 8 := by
  rw [h.eq]
  exact length_toBigCompact 8 _

theorem value : ofBigEndian sizeStr = payload.length := by
  rw [h.eq]
  exact ofBigEndian_toBigCompact h.fits

theorem length_pos : 1 ≤ sizeStr.length := by
  by_contra hzero
  obtain rfl := eq_nil_of_length_eq_zero (by omega : sizeStr.length = 0)
  have hval := h.value
  have hlong := h.long
  simp only [ofBigEndian, foldl_nil] at hval
  omega

theorem decodes : decodeLength sizeStr = .ok payload.length := by
  rw [h.eq]
  exact decodeRawNum_toBigCompact h.fits

end

end SizeStr

theorem toNat_ofNat {k : Nat} (h : k < 256) : (UInt8.ofNat k).toNat = k := UInt8.toNat_ofNat_of_lt' h

/-! ## Payloads -/

theorem extractPayload_append (front payload rest : Bytes) :
    extractPayload (front ++ (payload ++ rest)) front.length payload.length = .ok (payload, rest) := by
  unfold extractPayload
  rw [if_neg (by simp only [length_append]; omega), drop_left, take_left, ← append_assoc, ← length_append, drop_left]

variable {enc payload rest sizeStr s : Bytes}

theorem of_extractPayload {i length : Nat} (h : extractPayload enc i length = .ok (payload, rest)) :
    enc = enc.take i ++ (payload ++ rest) ∧ payload.length = length ∧ i + length ≤ enc.length := by
  unfold extractPayload at h
  split at h
  · cases h
  cases h
  refine ⟨?_, ?_, by omega⟩
  · rw [← drop_drop, take_append_drop, take_append_drop]
  rw [length_take, length_drop]
  omega

theorem extractLong_append (h : SizeStr sizeStr payload) (b : UInt8) (rest : Bytes) :
    extractLong (b :: (sizeStr ++ (payload ++ rest))) sizeStr.length = .ok (payload, rest) := by
  have hlong := h.long
  unfold extractLong
  rw [if_neg (by simp only [length_cons, length_append]; omega)]
  simp only [drop_one, tail_cons, take_left, h.decodes, bind, Except.bind]
  rw [if_neg (by omega), add_comm]
  exact extractPayload_append (b :: sizeStr) payload rest

theorem of_extractLong {b : UInt8} {l : Nat} (h : extractLong (b :: enc) l = .ok (payload, rest)) :
    ∃ sizeStr, SizeStr sizeStr payload ∧ sizeStr.length = l ∧ enc = sizeStr ++ (payload ++ rest) := by
  unfold extractLong at h
  split at h
  · cases h
  rename_i hroom
  rw [length_cons] at hroom
  simp only [drop_one, tail_cons] at h
  cases hl : decodeLength (enc.take l) with
  | error e => simp only [hl, bind, Except.bind, reduceCtorEq] at h
  | ok length =>
    simp only [hl, bind, Except.bind] at h
    split at h
    · cases h
    obtain ⟨henc, hlen, -⟩ := of_extractPayload h
    obtain ⟨hstr, hfits⟩ := of_decodeRawNum hl
    rw [add_comm, take_succ_cons, cons_append] at henc
    refine ⟨enc.take l, ⟨?_, by omega, ?_⟩, ?_, (cons.inj henc).2⟩
    · rw [hlen]
      exact hstr
    · rw [hlen]
      exact hfits
    · rw [length_take]
      omega

/-! ## Strings -/

/-- What `encode_string2` writes for a string whose size fits. -/
theorem encodeString2_cases (h : s.length < 2 ^ 32) : (∃ b, s = [b] ∧ b < 0x80 ∧ encodeString2 s = [b]) ∨
    (s.length ≤ 55 ∧ (∀ b, s = [b] → ¬ b < 0x80) ∧ encodeString2 s = UInt8.ofNat (0x80 + s.length) :: s) ∨
    ∃ sizeStr, SizeStr sizeStr s ∧ encodeString2 s = UInt8.ofNat (0xb7 + sizeStr.length) :: (sizeStr ++ s) := by
  have hle (b : UInt8) : b ≤ 0x7f ↔ b < 0x80 := by exact Nat.lt_succ_iff.symm
  unfold encodeString2
  simp only [Nat.mod_eq_of_lt h]
  by_cases hone : s.length = 1 ∧ s.headD 0 ≤ 0x7f
  · rw [if_pos hone]
    obtain ⟨b, rfl⟩ := length_eq_one_iff.mp hone.1
    exact .inl ⟨b, rfl, (hle b).mp hone.2, rfl⟩
  rw [if_neg hone]
  by_cases hlong : 55 < s.length
  · rw [if_pos hlong]
    refine .inr (.inr ⟨toBigCompact 4 s.length, ⟨?_, hlong, by omega⟩, rfl⟩)
    exact (toBigCompact_size h (by decide)).symm
  · rw [if_neg hlong]
    refine .inr (.inl ⟨not_lt.mp hlong, ?_, rfl⟩)
    rintro b rfl hb
    exact hone ⟨rfl, (hle b).mpr hb⟩

theorem encodeString2_ne_nil (s : Bytes) : encodeString2 s ≠ [] := by
  unfold encodeString2
  simp only
  split
  · rename_i h
    intro hs
    rw [hs] at h
    simp at h
  · split <;> simp

theorem stringPayload_short (hlen : s.length ≤ 55) (hone : ∀ b, s = [b] → ¬ b < 0x80) (rest : Bytes) :
    stringPayload (UInt8.ofNat (0x80 + s.length)) (UInt8.ofNat (0x80 + s.length) :: (s ++ rest)) = .ok (s, rest) := by
  have hbyte : (UInt8.ofNat (0x80 + s.length)).toNat = 0x80 + s.length := toNat_ofNat (by omega)
  have hextract := extractPayload_append [UInt8.ofNat (0x80 + s.length)] s rest
  unfold stringPayload
  rw [if_neg (by rw [UInt8.lt_iff_toNat_lt, hbyte]; simp), if_pos (by
    rw [UInt8.lt_iff_toNat_lt, hbyte]
    exact lt_of_le_of_lt (Nat.add_le_add_left hlen _) (by decide)), hbyte, Nat.add_sub_cancel_left]
  split
  · rename_i hs heq
    obtain ⟨b, rfl⟩ := length_eq_one_iff.mp hs
    simp at heq
  · rename_i hs heq
    obtain ⟨b, rfl⟩ := length_eq_one_iff.mp hs
    simp only [singleton_append, cons.injEq] at heq
    obtain ⟨-, rfl, -⟩ := heq
    rw [if_neg (hone b rfl)]
    exact hextract
  · exact hextract

/-- A string of more than 55 bytes is read back, whatever 64 bits its size takes. -/
theorem parseStringMetadata_long (hsize : SizeStr sizeStr s) (rest : Bytes) :
    parseStringMetadata (UInt8.ofNat (0xb7 + sizeStr.length) :: (sizeStr ++ (s ++ rest))) = .ok (s, rest) := by
  have hle := hsize.length_le
  have hpos := hsize.length_pos
  have hbyte : (UInt8.ofNat (0xb7 + sizeStr.length)).toNat = 0xb7 + sizeStr.length := toNat_ofNat (by omega)
  have hlist : ¬ (0xc0 : UInt8) ≤ UInt8.ofNat (0xb7 + sizeStr.length) := by
    rw [UInt8.le_iff_toNat_le, hbyte, not_le]
    exact lt_of_le_of_lt (Nat.add_le_add_left hle _) (by decide)
  have hsh : ¬ UInt8.ofNat (0xb7 + sizeStr.length) < 0xb8 := by
    rw [UInt8.lt_iff_toNat_lt, hbyte, not_lt]
    exact le_trans (by decide) (Nat.add_le_add_left hpos _)
  have hone : ¬ UInt8.ofNat (0xb7 + sizeStr.length) < 0x80 := by
    rw [UInt8.lt_iff_toNat_lt, hbyte, not_lt]
    exact le_trans (by decide) (Nat.le_add_right _ _)
  simp only [parseStringMetadata, if_neg hlist]
  unfold stringPayload
  rw [if_neg hone, if_neg hsh, hbyte, Nat.add_sub_cancel_left]
  exact extractLong_append hsize _ rest

/-- A string is read back from its encoding. -/
theorem parseStringMetadata_encodeString2 (h : s.length < 2 ^ 32) (rest : Bytes) :
    parseStringMetadata (encodeString2 s ++ rest) = .ok (s, rest) := by
  rcases encodeString2_cases h with ⟨b, rfl, hb, henc⟩ | ⟨hlen, hone, henc⟩ | ⟨sizeStr, hsize, henc⟩
  · rw [henc, singleton_append]
    have hlist : ¬ (0xc0 : UInt8) ≤ b := by
      rw [UInt8.le_iff_toNat_le, not_le]
      exact lt_trans (UInt8.lt_iff_toNat_lt.mp hb) (by decide)
    simp only [parseStringMetadata, if_neg hlist]
    unfold stringPayload
    rw [if_pos hb]
    exact extractPayload_append [] [b] rest
  · have hbyte : (UInt8.ofNat (0x80 + s.length)).toNat = 0x80 + s.length := toNat_ofNat (by omega)
    have hlist : ¬ (0xc0 : UInt8) ≤ UInt8.ofNat (0x80 + s.length) := by
      rw [UInt8.le_iff_toNat_le, hbyte, not_le]
      exact lt_of_le_of_lt (Nat.add_le_add_left hlen _) (by decide)
    rw [henc, cons_append]
    simp only [parseStringMetadata, if_neg hlist]
    exact stringPayload_short hlen hone rest
  · rw [henc, cons_append, append_assoc]
    exact parseStringMetadata_long hsize rest

/-- What the parser accepts as a string of up to 55 bytes. -/
theorem of_stringPayload_short {b : UInt8} (hb : ¬ b < 0x80) (hb' : b < 0xb8)
    (h : stringPayload b (b :: enc) = .ok (s, rest)) :
    enc = s ++ rest ∧ b = UInt8.ofNat (0x80 + s.length) ∧ s.length ≤ 55 ∧ ∀ c, s = [c] → ¬ c < 0x80 := by
  rw [UInt8.lt_iff_toNat_lt, not_lt] at hb
  have hlow : 0x80 ≤ b.toNat := hb
  have hhigh : b.toNat < 0xb8 := hb'
  have hextract : extractPayload (b :: enc) 1 (b.toNat - 0x80) = .ok (s, rest) ∧ ∀ c, s = [c] → ¬ c < 0x80 := by
    unfold stringPayload at h
    rw [if_neg (by rwa [UInt8.lt_iff_toNat_lt, not_lt]), if_pos (by rwa [UInt8.lt_iff_toNat_lt])] at h
    split at h
    · cases h
    · rename_i hone heq
      split at h
      · cases h
      rename_i hc
      rw [hone]
      refine ⟨h, ?_⟩
      rintro c' rfl
      obtain ⟨henc, -, -⟩ := of_extractPayload h
      simp only [take_succ_cons, take_zero, singleton_append, cons.injEq, true_and] at henc
      obtain ⟨-, rfl⟩ := cons.inj heq
      obtain ⟨rfl, -⟩ := cons.inj henc
      exact hc
    · rename_i hfst hsnd
      refine ⟨h, ?_⟩
      rintro c rfl
      obtain ⟨henc, hlen, -⟩ := of_extractPayload h
      simp only [take_succ_cons, take_zero, singleton_append, cons.injEq, true_and] at henc
      subst henc
      exact absurd rfl (hsnd b c rest hlen.symm)
  obtain ⟨hextract, hone⟩ := hextract
  obtain ⟨henc, hlen, -⟩ := of_extractPayload hextract
  simp only [take_succ_cons, take_zero, singleton_append, cons.injEq, true_and] at henc
  refine ⟨henc, ?_, by omega, hone⟩
  rw [hlen, Nat.add_sub_cancel' hlow, UInt8.ofNat_toNat]

/-- A string that the parser accepts was written by `encode_string2`, if its size fits. -/
theorem of_parseStringMetadata (h : parseStringMetadata enc = .ok (s, rest)) (hfits : s.length < 2 ^ 32) :
    enc = encodeString2 s ++ rest := by
  cases enc with
  | nil => cases h
  | cons b enc =>
    simp only [parseStringMetadata] at h
    split at h
    · cases h
    by_cases hone : b < 0x80
    · unfold stringPayload at h
      rw [if_pos hone] at h
      obtain ⟨henc, hlen, -⟩ := of_extractPayload h
      obtain ⟨c, rfl⟩ := length_eq_one_iff.mp hlen
      obtain ⟨rfl, rfl⟩ := cons.inj henc
      rcases encodeString2_cases hfits with ⟨c, hc, -, henc⟩ | ⟨-, hnot, -⟩ | ⟨_, hsize, -⟩
      · rw [henc, ← hc]
        rfl
      · exact absurd hone (hnot b rfl)
      · exact absurd hsize.long (by simp)
    · by_cases hsh : b < 0xb8
      · obtain ⟨rfl, rfl, hlen, hnot⟩ := of_stringPayload_short hone hsh h
        rcases encodeString2_cases hfits with ⟨c, rfl, hc, -⟩ | ⟨-, -, henc⟩ | ⟨_, hsize, -⟩
        · exact absurd hc (hnot c rfl)
        · rw [henc]
          rfl
        · exact absurd hsize.long (by omega)
      unfold stringPayload at h
      rw [if_neg hone, if_neg hsh] at h
      obtain ⟨sizeStr, hsize, hlen, rfl⟩ := of_extractLong h
      have hlong := hsize.long
      rcases encodeString2_cases hfits with ⟨c, rfl, -, -⟩ | ⟨hle, -, -⟩ | ⟨sizeStr', hsize', henc⟩
      · exact absurd hlong (by simp)
      · omega
      obtain rfl := hsize.eq.trans hsize'.eq.symm
      have hb : 0xb8 ≤ b.toNat := not_lt.mp fun hlt => hsh (UInt8.lt_iff_toNat_lt.mpr hlt)
      have hfst : b = UInt8.ofNat (0xb7 + sizeStr.length) := by
        rw [hlen, Nat.add_sub_cancel' (by omega), UInt8.ofNat_toNat]
      rw [henc, ← hfst, cons_append, append_assoc]

/-! ## Lists -/

/-- What `encode_list2` writes for a payload whose size fits. -/
theorem encodeList2_cases (h : payload.length < 2 ^ 64) :
    (payload.length ≤ 55 ∧ encodeList2 payload = UInt8.ofNat (0xc0 + payload.length) :: payload) ∨
    ∃ sizeStr, SizeStr sizeStr payload ∧
      encodeList2 payload = UInt8.ofNat (0xf7 + sizeStr.length) :: (sizeStr ++ payload) := by
  unfold encodeList2
  simp only [mod_eq_of_lt h]
  by_cases hlong : 55 < payload.length
  · rw [if_pos hlong]
    exact .inr ⟨_, ⟨rfl, hlong, h⟩, rfl⟩
  · rw [if_neg hlong]
    exact .inl ⟨not_lt.mp hlong, rfl⟩

theorem encodeList2_ne_nil (payload : Bytes) : encodeList2 payload ≠ [] := by
  unfold encodeList2
  simp only
  split <;> simp

theorem length_le_encodeList2 (payload : Bytes) : payload.length ≤ (encodeList2 payload).length := by
  unfold encodeList2
  simp only
  split
  · simp only [length_cons, length_append]
    omega
  · simp only [length_cons]
    omega

/-- A list is read back from its encoding. -/
theorem parseListMetadata_encodeList2 (h : payload.length < 2 ^ 64) (rest : Bytes) :
    parseListMetadata (encodeList2 payload ++ rest) = .ok (payload, rest) := by
  rcases encodeList2_cases h with ⟨hlen, henc⟩ | ⟨sizeStr, hsize, henc⟩
  · have hbyte : (UInt8.ofNat (0xc0 + payload.length)).toNat = 0xc0 + payload.length := toNat_ofNat (by omega)
    have hlist : ¬ UInt8.ofNat (0xc0 + payload.length) < 0xc0 := by
      rw [UInt8.lt_iff_toNat_lt, hbyte, not_lt]
      exact Nat.le_add_right _ _
    have hsh : UInt8.ofNat (0xc0 + payload.length) < 0xf8 := by
      rw [UInt8.lt_iff_toNat_lt, hbyte]
      exact lt_of_le_of_lt (Nat.add_le_add_left hlen _) (by decide)
    rw [henc, cons_append]
    simp only [parseListMetadata, if_neg hlist, listPayload, if_pos hsh, hbyte, Nat.add_sub_cancel_left]
    exact extractPayload_append [UInt8.ofNat (0xc0 + payload.length)] payload rest
  · have hle := hsize.length_le
    have hpos := hsize.length_pos
    have hbyte : (UInt8.ofNat (0xf7 + sizeStr.length)).toNat = 0xf7 + sizeStr.length := toNat_ofNat (by omega)
    have hlist : ¬ UInt8.ofNat (0xf7 + sizeStr.length) < 0xc0 := by
      rw [UInt8.lt_iff_toNat_lt, hbyte, not_lt]
      exact le_trans (by decide) (Nat.le_add_right _ _)
    have hsh : ¬ UInt8.ofNat (0xf7 + sizeStr.length) < 0xf8 := by
      rw [UInt8.lt_iff_toNat_lt, hbyte, not_lt]
      exact le_trans (by decide) (Nat.add_le_add_left hpos _)
    rw [henc, cons_append, append_assoc]
    simp only [parseListMetadata, if_neg hlist, listPayload, if_neg hsh, hbyte, Nat.add_sub_cancel_left]
    exact extractLong_append hsize _ rest

/-- A list that the parser accepts was written by `encode_list2`. -/
theorem of_parseListMetadata (h : parseListMetadata enc = .ok (payload, rest)) :
    payload.length < 2 ^ 64 ∧ enc = encodeList2 payload ++ rest := by
  cases enc with
  | nil => cases h
  | cons b enc =>
    simp only [parseListMetadata] at h
    split at h
    · cases h
    rename_i hlist
    have hlow : 0xc0 ≤ b.toNat := not_lt.mp fun hlt => hlist (UInt8.lt_iff_toNat_lt.mpr hlt)
    unfold listPayload at h
    split at h
    · rename_i hsh
      have hhigh : b.toNat < 0xf8 := UInt8.lt_iff_toNat_lt.mp hsh
      obtain ⟨henc, hlen, -⟩ := of_extractPayload h
      simp only [take_succ_cons, take_zero, singleton_append, cons.injEq, true_and] at henc
      have hfits : payload.length < 2 ^ 64 := by omega
      refine ⟨hfits, ?_⟩
      rcases encodeList2_cases hfits with ⟨-, hwr⟩ | ⟨_, hsize, -⟩
      · rw [hwr, hlen, Nat.add_sub_cancel' hlow, UInt8.ofNat_toNat, cons_append, henc]
      have := hsize.long
      omega
    · rename_i hsh
      have hhigh : 0xf8 ≤ b.toNat := not_lt.mp fun hlt => hsh (UInt8.lt_iff_toNat_lt.mpr hlt)
      obtain ⟨sizeStr, hsize, hlen, rfl⟩ := of_extractLong h
      refine ⟨hsize.fits, ?_⟩
      rcases encodeList2_cases hsize.fits with ⟨hle, -⟩ | ⟨sizeStr', hsize', hwr⟩
      · have := hsize.long
        omega
      · obtain rfl := hsize.eq.trans hsize'.eq.symm
        rw [hwr, hlen, Nat.add_sub_cancel' (by omega), UInt8.ofNat_toNat, cons_append, append_assoc]

end MonadExecution.Ethereum.Rlp
