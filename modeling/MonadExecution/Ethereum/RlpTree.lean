import MonadExecution.Ethereum.RlpItems

/-!
# Trees of items

What `parse_metadata` makes of nested items, and the encoder that writes into a buffer. Encoding a tree and
parsing it again are inverse to each other on trees whose strings are shorter than `2 ^ 32` bytes.
-/

namespace MonadExecution.Ethereum.Rlp

open List

open Codec (Decoder)

/-! ## Trees -/

inductive Item
  | string (s : Bytes)
  | list (items : List Item)

namespace Item

mutual

def encode : Item → Bytes
  | .string s => encodeString2 s
  | .list items => encodeList2 (encodeAll items)

def encodeAll : List Item → Bytes
  | [] => []
  | item :: items => encode item ++ encodeAll items

end

mutual

/-- Every string has fewer than `2 ^ 32` bytes. -/
def Fits : Item → Prop
  | .string s => s.length < 2 ^ 32
  | .list items => AllFit items

def AllFit : List Item → Prop
  | [] => True
  | item :: items => item.Fits ∧ AllFit items

end

theorem encodeAll_eq (items : List Item) : encodeAll items = items.flatMap encode := by
  induction items with
  | nil => rfl
  | cons item items ih => rw [encodeAll, flatMap_cons, ih]

theorem allFit_iff {items : List Item} : AllFit items ↔ ∀ item ∈ items, item.Fits := by
  induction items with
  | nil => simp [AllFit]
  | cons item items ih => simp [AllFit, ih]

theorem encode_ne_nil (t : Item) : t.encode ≠ [] := by
  cases t with
  | string s => exact encodeString2_ne_nil s
  | list items => exact encodeList2_ne_nil _

/-- Parse an item and, if it is a list, the items inside it. Every level takes a byte, so that with the
length of the input as fuel it does not run out. -/
def parse : (fuel : Nat) → Decoder UInt8 DecodeError Item
  | 0, _ => .error .inputTooShort
  | fuel + 1, enc => do
    let (ty, payload, rest) ← parseMetadata enc
    match ty with
    | .string => return (.string payload, rest)
    | .list =>
      let items ← Decoder.exhaust .inputTooShort (parse fuel) payload
      return (.list items, rest)

end Item

variable {enc rest : Bytes}

theorem parseMetadata_string {s : Bytes} :
    parseMetadata enc = .ok (.string, s, rest) ↔ parseStringMetadata enc = .ok (s, rest) := by
  cases enc with
  | nil => simp [parseMetadata, parseStringMetadata]
  | cons b enc =>
    simp only [parseMetadata, parseStringMetadata]
    by_cases hb : b < 0xc0
    · rw [if_pos hb, if_neg (by rwa [UInt8.not_le])]
      cases stringPayload b (b :: enc) <;> simp [Except.map]
    · rw [if_neg hb, if_pos (by rwa [UInt8.not_lt] at hb)]
      cases listPayload b (b :: enc) <;> simp [Except.map]

theorem parseMetadata_list {payload : Bytes} :
    parseMetadata enc = .ok (.list, payload, rest) ↔ parseListMetadata enc = .ok (payload, rest) := by
  cases enc with
  | nil => simp [parseMetadata, parseListMetadata]
  | cons b enc =>
    simp only [parseMetadata, parseListMetadata]
    by_cases hb : b < 0xc0
    · rw [if_pos hb, if_pos hb]
      cases stringPayload b (b :: enc) <;> simp [Except.map]
    · rw [if_neg hb, if_neg hb]
      cases listPayload b (b :: enc) <;> simp [Except.map]

namespace Item

theorem length_encode_le {item : Item} {items : List Item} (h : item ∈ items) :
    item.encode.length ≤ (encodeAll items).length := by
  rw [encodeAll_eq, length_flatMap]
  exact le_sum_of_mem (mem_map_of_mem h)

variable {fuel : Nat} {t : Item}

/-- A tree is read back from its encoding. -/
theorem parse_encode (hfits : t.Fits) (hsize : t.encode.length < 2 ^ 64) (hfuel : t.encode.length ≤ fuel) :
    Decoder.Reads (parse fuel) t.encode t := by
  -- the fuel bounds the depth of the tree, as every list is longer than what is inside it
  induction fuel generalizing t with
  | zero => exact absurd (eq_nil_of_length_eq_zero (Nat.le_zero.mp hfuel)) t.encode_ne_nil
  | succ fuel ih =>
    intro rest
    cases t with
    | string s =>
      have hprs := parseMetadata_string.mpr (parseStringMetadata_encodeString2 hfits rest)
      simp only [parse, encode, hprs, bind, Except.bind]
      rfl
    | list items =>
      rw [encode] at hsize hfuel ⊢
      have hle := length_le_encodeList2 (encodeAll items)
      have hlt : (encodeAll items).length < 2 ^ 64 := lt_of_le_of_lt hle hsize
      have hshorter : (encodeAll items).length < (encodeList2 (encodeAll items)).length := by
        rcases encodeList2_cases hlt with ⟨-, henc⟩ | ⟨sizeStr, -, henc⟩
        · rw [henc, length_cons]
          exact Nat.lt_succ_self _
        · rw [henc, length_cons, length_append]
          omega
      have hprs := parseMetadata_list.mpr (parseListMetadata_encodeList2 hlt rest)
      have hitems : Decoder.exhaust .inputTooShort (parse fuel) (encodeAll items) = .ok items := by
        rw [encodeAll_eq]
        refine Decoder.exhaust_reads encode (fun item hitem => ?_) fun item _ => item.encode_ne_nil
        have hitem' := length_encode_le hitem
        exact ih (allFit_iff.mp hfits item hitem) (by omega) (by omega)
      simp only [parse, hprs, bind, Except.bind, hitems]
      rfl

/-- A tree that is accepted is the one the input encodes, if its strings fit. -/
theorem encode_parse (hfits : t.Fits) : Decoder.Confirms (parse fuel) t.encode t := by
  induction fuel generalizing t with
  | zero =>
    intro enc rest h
    cases h
  | succ fuel ih =>
    intro enc rest h
    simp only [parse, bind, Except.bind, pure, Except.pure] at h
    cases hprs : parseMetadata enc with
    | error e =>
      rw [hprs] at h
      cases h
    | ok p =>
      obtain ⟨ty, payload, rest'⟩ := p
      rw [hprs] at h
      cases ty with
      | string =>
        cases h
        exact of_parseStringMetadata (parseMetadata_string.mp hprs) hfits
      | list =>
        simp only at h
        split at h
        · cases h
        rename_i items hitems
        cases h
        obtain ⟨-, henc⟩ := of_parseListMetadata (parseMetadata_list.mp hprs)
        have hpayload := Decoder.exhaust_confirms (fun item hitem => ih (allFit_iff.mp hfits item hitem)) hitems
        rw [henc, hpayload, encode, encodeAll_eq]

end Item

/-! ## The encoder that writes into a buffer

A function of this encoder gets the span it may write to and returns the span behind what it has written.
The model returns what has been written and the contents of the remaining span, or nothing if an assumption
about the size of the span fails. -/

/-- The zero bytes in front of a `size_t`. -/
def lzBytes (n : Nat) : Nat := (64 - n.size) / 8

def lengthLength (n : Nat) : Nat := 8 - lzBytes n

/-- `encode_length`, which always stores eight bytes. -/
def encodeLength (d : Bytes) (n : Nat) : Option (Bytes × Bytes) :=
  let shifted := if n ≠ 0 then n * 2 ^ (lzBytes n * 8) % 2 ^ 64 else n
  let stored := toBigEndian 8 shifted
  if 8 ≤ d.length then some (stored.take (8 - lzBytes n), stored.drop (8 - lzBytes n) ++ d.drop 8)
  else none

/-- `std::copy` into a span that is assumed to be large enough. -/
def copy (d s : Bytes) : Option (Bytes × Bytes) := if s.length ≤ d.length then some (s, d.drop s.length) else none

def stringLength (s : Bytes) : Nat :=
  if s.length = 1 ∧ s.headD 0 ≤ 0x7f then 1
  else if s.length ≤ 55 then 1 + s.length
  else 1 + lengthLength s.length + s.length

def encodeString (d s : Bytes) : Option (Bytes × Bytes) :=
  match d with
  | [] => none
  | _ :: d =>
    if s.length = 1 ∧ s.headD 0 ≤ 0x7f then some ([s.headD 0], d)
    else if s.length ≤ 55 then do
      let (written, d) ← copy d s
      return (UInt8.ofNat (0x80 + s.length) :: written, d)
    else do
      let (size, d) ← encodeLength d s.length
      let (written, d) ← copy d s
      return (UInt8.ofNat (0xb7 + lengthLength s.length) :: (size ++ written), d)

def listLength (concatenatedSize : Nat) : Nat :=
  if concatenatedSize ≤ 55 then 1 + concatenatedSize
  else 1 + lengthLength concatenatedSize + concatenatedSize

def encodeListPrefix (d : Bytes) (payloadSize : Nat) : Option (Bytes × Bytes) :=
  match d with
  | [] => none
  | _ :: d =>
    if payloadSize ≤ 55 then some ([UInt8.ofNat (0xc0 + payloadSize)], d)
    else do
      let (size, d) ← encodeLength d payloadSize
      return (UInt8.ofNat (0xf7 + lengthLength payloadSize) :: size, d)

def encodeList (d s : Bytes) : Option (Bytes × Bytes) := do
  let (front, d) ← encodeListPrefix d s.length
  let (written, d) ← copy d s
  return (front ++ written, d)

theorem ofBigEndian_append (bs bs' : Bytes) :
    ofBigEndian (bs ++ bs') = ofBigEndian bs * 256 ^ bs'.length + ofBigEndian bs' := by
  conv_lhs => unfold ofBigEndian
  rw [foldl_append, foldl_bigEndian]
  rfl

section Sizes

variable {sizeStr payload : Bytes}

section

variable (h : SizeStr sizeStr payload)

include h

/-- The number of bytes without the zeros in front. -/
theorem SizeStr.lzBytes_eq : lzBytes payload.length = 8 - sizeStr.length := by
  have hpos := h.length_pos
  have hval := h.value
  have hupper : payload.length < 2 ^ (8 * sizeStr.length) := by
    rw [← hval, pow_mul]
    exact ofBigEndian_lt sizeStr
  have hlo : 2 ^ (8 * (sizeStr.length - 1)) ≤ payload.length := by
    have hhead : sizeStr.head? ≠ some 0 := by
      rw [h.eq]
      exact head_zerolessView _
    cases sizeStr with
    | nil => simp at hpos
    | cons b bs =>
      have hb : 1 ≤ b.toNat := by
        refine Nat.one_le_iff_ne_zero.mpr fun hzero => hhead ?_
        rw [show b = 0 from UInt8.toNat_inj.mp hzero]
        rfl
      rw [← hval, ofBigEndian_cons, length_cons, Nat.add_sub_cancel, pow_mul]
      exact (Nat.le_mul_of_pos_left _ hb).trans (Nat.le_add_right _ _)
  have hsize : payload.length.size ≤ 8 * sizeStr.length := Nat.size_le.mpr hupper
  have hsize' : 8 * (sizeStr.length - 1) < payload.length.size := Nat.lt_size.mpr hlo
  unfold lzBytes
  omega

theorem SizeStr.lengthLength_eq : lengthLength payload.length = sizeStr.length := by
  have hle := h.length_le
  rw [lengthLength, h.lzBytes_eq]
  omega

variable {d : Bytes}

/-- Of the eight bytes that are stored, the first ones are the size. -/
theorem SizeStr.encodeLength_eq (hd : 8 ≤ d.length) : encodeLength d payload.length =
    some (sizeStr, replicate (8 - sizeStr.length) 0 ++ d.drop 8) := by
  have hle := h.length_le
  have hlong := h.long
  have hval := h.value
  have hstored : payload.length * 2 ^ ((8 - sizeStr.length) * 8) =
      ofBigEndian (sizeStr ++ replicate (8 - sizeStr.length) 0) := by
    rw [ofBigEndian_append, ofBigEndian_zeros, hval, length_replicate, mul_comm _ 8, pow_mul]
    rfl
  have hlen : (sizeStr ++ replicate (8 - sizeStr.length) 0).length = 8 := by
    rw [length_append, length_replicate]
    omega
  have hfits := ofBigEndian_lt (sizeStr ++ replicate (8 - sizeStr.length) 0)
  have hby := toBigEndian_ofBigEndian 0 (sizeStr ++ replicate (8 - sizeStr.length) 0)
  rw [hlen] at hfits hby
  rw [zero_add, replicate_zero, nil_append] at hby
  have hmod : ofBigEndian (sizeStr ++ replicate (8 - sizeStr.length) 0) % 2 ^ 64 =
      ofBigEndian (sizeStr ++ replicate (8 - sizeStr.length) 0) := Nat.mod_eq_of_lt hfits
  unfold encodeLength
  rw [if_pos hd, if_pos (by omega), h.lzBytes_eq, hstored, hmod, hby,
    show 8 - (8 - sizeStr.length) = sizeStr.length by omega, take_left, drop_left]

/-- The payload lies over what was stored behind the size. -/
theorem SizeStr.copy_eq (hd : sizeStr.length + payload.length ≤ d.length) :
    copy (replicate (8 - sizeStr.length) 0 ++ d.drop 8) payload =
      some (payload, d.drop (sizeStr.length + payload.length)) := by
  have hle := h.length_le
  have hlong := h.long
  unfold copy
  rw [if_pos (by simp only [length_append, length_replicate, length_drop]; omega),
    drop_append, length_replicate, drop_drop,
    drop_eq_nil_of_le (by rw [length_replicate]; omega), nil_append,
    show 8 + (payload.length - (8 - sizeStr.length)) = sizeStr.length + payload.length by omega]

end

end Sizes

variable {s d : Bytes}

/-- `encode_string` writes what `encode_string2` returns, and nothing behind it. -/
theorem encodeString_eq (hs : s.length < 2 ^ 32) (hd : stringLength s ≤ d.length) :
    (encodeString2 s).length = stringLength s ∧
      encodeString d s = some (encodeString2 s, d.drop (stringLength s)) := by
  have hpos : 1 ≤ stringLength s := by
    unfold stringLength
    split_ifs <;> omega
  obtain ⟨b, d, rfl⟩ := exists_cons_of_length_pos (lt_of_lt_of_le hpos hd)
  have hsml (b : UInt8) : b ≤ 0x7f ↔ b < 0x80 := by exact Nat.lt_succ_iff.symm
  rcases encodeString2_cases hs with ⟨c, rfl, hc, henc⟩ | ⟨hlen, hone, henc⟩ | ⟨sizeStr, hsize, henc⟩
  · have hif : ([c] : Bytes).length = 1 ∧ ([c] : Bytes).headD 0 ≤ 0x7f := ⟨rfl, (hsml c).mpr hc⟩
    simp only [stringLength, encodeString, henc, if_pos hif]
    exact ⟨rfl, rfl⟩
  · have hif : ¬ (s.length = 1 ∧ s.headD 0 ≤ 0x7f) := by
      rintro ⟨hs1, hhead⟩
      obtain ⟨c, rfl⟩ := length_eq_one_iff.mp hs1
      exact hone c rfl ((hsml c).mp hhead)
    simp only [stringLength, if_neg hif, if_pos hlen, length_cons] at hd
    have hcopy : copy d s = some (s, d.drop s.length) := by
      unfold copy
      rw [if_pos (by omega)]
    simp only [stringLength, encodeString, henc, if_neg hif, if_pos hlen, hcopy, bind, Option.bind, pure, length_cons]
    exact ⟨add_comm _ _, by rw [add_comm 1, drop_succ_cons]⟩
  · have hlong := hsize.long
    have hif : ¬ (s.length = 1 ∧ s.headD 0 ≤ 0x7f) := by
      rintro ⟨hs1, -⟩
      omega
    have hsh : ¬ s.length ≤ 55 := by omega
    simp only [stringLength, if_neg hif, if_neg hsh, length_cons, hsize.lengthLength_eq] at hd
    have hstore := hsize.encodeLength_eq (d := d) (by omega)
    have hcopy := hsize.copy_eq (d := d) (by omega)
    simp only [stringLength, encodeString, henc, if_neg hif, if_neg hsh, hsize.lengthLength_eq,
      hstore, hcopy, bind, Option.bind, pure, length_cons, length_append]
    refine ⟨by omega, ?_⟩
    rw [show 1 + sizeStr.length + s.length = sizeStr.length + s.length + 1 by omega, drop_succ_cons]

/-- `encode_list` writes what `encode_list2` returns, and nothing behind it. -/
theorem encodeList_eq (hs : s.length < 2 ^ 64) (hd : listLength s.length ≤ d.length) :
    (encodeList2 s).length = listLength s.length ∧
      encodeList d s = some (encodeList2 s, d.drop (listLength s.length)) := by
  have hpos : 1 ≤ listLength s.length := by
    unfold listLength
    split_ifs <;> omega
  obtain ⟨b, d, rfl⟩ := exists_cons_of_length_pos (lt_of_lt_of_le hpos hd)
  rcases encodeList2_cases hs with ⟨hlen, henc⟩ | ⟨sizeStr, hsize, henc⟩
  · simp only [listLength, if_pos hlen, length_cons] at hd
    have hcopy : copy d s = some (s, d.drop s.length) := by
      unfold copy
      rw [if_pos (by omega)]
    simp only [listLength, encodeList, encodeListPrefix, henc, if_pos hlen, hcopy, bind, Option.bind,
      pure, length_cons, singleton_append]
    exact ⟨add_comm _ _, by rw [add_comm 1, drop_succ_cons]⟩
  · have hlong := hsize.long
    have hsh : ¬ s.length ≤ 55 := by omega
    simp only [listLength, if_neg hsh, length_cons, hsize.lengthLength_eq] at hd
    have hstore := hsize.encodeLength_eq (d := d) (by omega)
    have hcopy := hsize.copy_eq (d := d) (by omega)
    simp only [listLength, encodeList, encodeListPrefix, henc, if_neg hsh, hsize.lengthLength_eq,
      hstore, hcopy, bind, Option.bind, pure, length_cons, length_append, cons_append]
    refine ⟨by omega, ?_⟩
    rw [show 1 + sizeStr.length + s.length = sizeStr.length + s.length + 1 by omega, drop_succ_cons]

/-! ## The two layers agree -/

/-- Parse a tree off the front of the input. -/
def parseItem (enc : Bytes) : Result (Item × Bytes) := Item.parse enc.length enc

/-- **Trees and their encodings determine each other**, as long as the size of every string fits into a
`uint32_t`, and the two encoders write the same bytes, as many as the length functions say. -/
theorem items_bijective : (∀ (t : Item) (rest : Bytes), t.Fits → t.encode.length < 2 ^ 64 →
      parseItem (t.encode ++ rest) = .ok (t, rest)) ∧
    (∀ (enc : Bytes) (t : Item) (rest : Bytes), parseItem enc = .ok (t, rest) → t.Fits → enc = t.encode ++ rest) ∧
    (∀ s d : Bytes, s.length < 2 ^ 32 → stringLength s ≤ d.length → (encodeString2 s).length = stringLength s ∧
        encodeString d s = some (encodeString2 s, d.drop (stringLength s))) ∧
    ∀ s d : Bytes, s.length < 2 ^ 64 → listLength s.length ≤ d.length → (encodeList2 s).length = listLength s.length ∧
        encodeList d s = some (encodeList2 s, d.drop (listLength s.length)) := by
  refine ⟨?_, ?_, fun s d hs hd => encodeString_eq hs hd, fun s d hs hd => encodeList_eq hs hd⟩
  · intro t rest hfits hsize
    refine Item.parse_encode hfits hsize ?_ rest
    rw [length_append]
    exact Nat.le_add_right _ _
  · intro enc t rest h hfits
    exact Item.encode_parse hfits enc rest h

/-- A list of a byte, an empty string and an empty list. -/
def sampleItem : Item := .list [.string [7], .string [], .list []]

theorem items_bijective_sample : parseItem [0xc3, 7, 0x80, 0xc0, 1, 2] = .ok (sampleItem, [1, 2]) ∧
    [0xc3, 7, 0x80, 0xc0, 1, 2] = sampleItem.encode ++ [1, 2] ∧
    encodeString [0, 0, 0] [0x85] = some ([0x81, 0x85], [0]) ∧
    encodeList [0, 0, 0] [0x85] = some ([0xc1, 0x85], [0]) := by
  have hfits : sampleItem.Fits := by simp [sampleItem, Item.Fits, Item.AllFit]
  have hprs : parseItem [0xc3, 7, 0x80, 0xc0, 1, 2] = .ok (sampleItem, [1, 2]) :=
    items_bijective.1 sampleItem [1, 2] hfits (by decide)
  exact ⟨hprs, items_bijective.2.1 _ sampleItem [1, 2] hprs hfits,
    (items_bijective.2.2.1 [0x85] [0, 0, 0] (by decide) (by decide)).2,
    (items_bijective.2.2.2 [0x85] [0, 0, 0] (by decide) (by decide)).2⟩

/-- A string of `2 ^ 32` bytes is accepted, and its size is lost when it is written back. -/
theorem long_string_not_bijective : ∃ (enc : Bytes) (t : Item), parseItem enc = .ok (t, []) ∧ t.encode ≠ enc := by
  obtain ⟨s, hs⟩ : ∃ s : Bytes, s.length = 2 ^ 32 := ⟨replicate (2 ^ 32) 0, length_replicate⟩
  have hsize : SizeStr (toBigCompact 8 s.length) s := ⟨rfl, by rw [hs]; decide, by rw [hs]; decide⟩
  have hencode : encodeString2 s = 0x80 :: s := by
    unfold encodeString2
    simp [hs]
  refine ⟨UInt8.ofNat (0xb7 + (toBigCompact 8 s.length).length) :: (toBigCompact 8 s.length ++ s), .string s, ?_, ?_⟩
  · have hprs := parseMetadata_string.mpr (parseStringMetadata_long hsize [])
    rw [append_nil] at hprs
    simp only [parseItem, length_cons, Item.parse, hprs, bind, Except.bind]
    rfl
  · rw [Item.encode, hencode]
    intro heq
    have hlen := congrArg length heq
    have hpos := hsize.length_pos
    simp only [length_cons, length_append] at hlen
    omega

end MonadExecution.Ethereum.Rlp
