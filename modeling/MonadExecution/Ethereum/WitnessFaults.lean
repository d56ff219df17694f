import MonadExecution.Ethereum.Witness

/-!
# What a witness can do wrong

The nodes and codes of a witness come from somebody else. Building a database from them returns an error for
most of what can be wrong. It aborts on a code that is too long, and on a leaf or an extension whose path does
not fit into a `Nibbles` together with the path above it. A code that is missing is not noticed: it reads as the
empty one.
-/

namespace MonadExecution.Ethereum.PartialTrie

open Rlp List

/-- A string that the loop of `from_witness` reads. -/
inductive ReadItem : Bytes → Bytes → Prop
  | here {enc item rest : Bytes} (h : parseStringMetadata enc = .ok (item, rest)) : ReadItem enc item
  | later {enc item item' rest : Bytes} (h : parseStringMetadata enc = .ok (item', rest))
      (hrest : ReadItem rest item) : ReadItem enc item

theorem ReadItem.not_nil {item : Bytes} (h : ReadItem [] item) : False := by
  cases h with
  | here h | later h => cases h

/-! ## The nodes that are decoded -/

section Fits

variable (nodes : NodeIndex)

/-- The node with a hash, if it is decoded. -/
def HashFits (P : Bytes → Prop) (hash : Bytes32) : Prop :=
  hash ≠ nullRoot → ∀ node payload, nodes hash = some node → parseListMetadata node = .ok (payload, []) → P payload

/-- The node behind a reference: an embedded one, or the one with a hash. -/
def ChildFits (P : Bytes → Prop) : RlpType → Bytes → Prop
  | .list, enc => enc.length ≤ 30 → P enc
  | .string, enc => enc.length = 32 → HashFits nodes P (BitVec.ofNat 256 (ofBigEndian enc))

/-- The first `n` items, and what is behind them. -/
def ItemsFit (P : RlpType → Bytes → Prop) (Q : Bytes → Prop) : Nat → Bytes → Prop
  | 0, enc => Q enc
  | n + 1, enc => ∀ ty payload rest, parseMetadata enc = .ok (ty, payload, rest) → P ty payload ∧ ItemsFit P Q n rest

/-- The path of every leaf and extension that is decoded fits into a `Nibbles` together with the path above it.
What `V` says of values holds for the values that are decoded. -/
def NodeFits (V : Bytes → Prop) : (levels pathSize : Nat) → Bytes → Prop
  | 0, _, _ => True
  | levels + 1, pathSize, enc => ∀ keyType key rest valueType value rest',
    parseMetadata enc = .ok (keyType, key, rest) → parseMetadata rest = .ok (valueType, value, rest') →
    if rest' = [] then
      keyType = .string → ∀ path isLeaf, compactDecode key = .ok (path, isLeaf) →
        pathSize + path.length ≤ 255 ∧ (pathSize + path.length ≤ 64 →
          if isLeaf then valueType = .string → V value
          else ChildFits nodes (NodeFits V levels (pathSize + path.length)) valueType value)
    else pathSize + 1 ≤ 64 → ItemsFit (ChildFits nodes (NodeFits V levels (pathSize + 1)))
      (fun enc => ∀ v rest, decodeString enc = .ok (v, rest) → v ≠ [] → V v) 16 enc

def TrieFits (V : Bytes → Prop) (root : Bytes32) : Prop := HashFits nodes (NodeFits nodes V 65 0) root

/-- The storage trie of an account. -/
def AccountFits (enc : Bytes) : Prop := ∀ account storageRoot,
  decodeAccount enc = .ok ((account, storageRoot), []) → TrieFits nodes (fun _ => True) storageRoot

end Fits

/-! ## Computations that do not abort -/

variable {α : Type}

theorem ok_of_bind {ε β : Type} {x : Except ε α} {f : α → Except ε β} {b : β} (h : x >>= f = .ok b) :
    ∃ a, x = .ok a ∧ f a = .ok b := by
  cases x with
  | error e => cases h
  | ok a => exact ⟨a, rfl, h⟩

theorem ok_of_tried {x : Result α} {a : α} (h : tried x = .ok a) : x = .ok a := by
  cases x with
  | error e => cases h
  | ok b =>
    cases h
    rfl

/-- The computation may return an error, but it does not abort. -/
def Safe {α : Type} (x : Outcome α) : Prop := x ≠ .error .abort

namespace Safe

variable {α β : Type} {x y : Outcome α} {f : α → Outcome β}

theorem ok {a : α} : Safe (.ok a : Outcome α) := by rintro ⟨⟩

theorem decode {e : DecodeError} : Safe (.error (.decode e) : Outcome α) := by rintro ⟨⟩

theorem bind (hx : Safe x) (hf : ∀ a, x = .ok a → Safe (f a)) : Safe (x >>= f) := by
  cases x with
  | error e =>
    intro h
    exact hx (by cases h; rfl)
  | ok a => exact hf a rfl

theorem tried_bind {r : Result α} (hf : ∀ a, r = .ok a → Safe (f a)) : Safe (tried r >>= f) := by
  cases r with
  | error e => exact decode
  | ok a => exact hf a rfl

theorem ite {c : Prop} [Decidable c] (hx : c → Safe x) (hy : ¬c → Safe y) : Safe (if c then x else y) := by
  split
  · exact hx ‹_›
  · exact hy ‹_›

end Safe

/-! ## Decoding -/

section Decode

variable {T : Type} {nodes : NodeIndex} {decodeValue : Bytes → Outcome T} {V : Bytes → Prop}

/-- What decoding something without an abort is, and with a result. -/
structure Sound {T : Type} (P : Prop) (x : Outcome T) : Prop where
  safe : P → Safe x
  fits : ∀ t, x = .ok t → P

theorem sound_hashRef {P : Bytes → Prop} {decodeNode : Bytes → Outcome (ChildRef T)}
    (h : ∀ enc, Sound (P enc) (decodeNode enc)) (hash : Bytes32) :
    Sound (HashFits nodes P hash) (decodeHashRef nodes decodeNode hash) where
  safe := by
    intro hfits
    refine .ite (fun _ => .ok) fun hne => ?_
    cases hnode : nodes hash with
    | none => exact .ok
    | some node =>
      refine .tried_bind fun p hp => .ite (fun _ => .decode) fun hrest => ?_
      rw [ne_eq, not_not] at hrest
      obtain ⟨payload, rest⟩ := p
      subst hrest
      exact (h payload).safe (hfits hne node payload hnode hp)
  fits := by
    intro t ht hne node payload hnode hp
    unfold decodeHashRef at ht
    rw [if_neg hne, hnode] at ht
    obtain ⟨⟨payload', rest⟩, hp', ht⟩ := ok_of_bind ht
    cases hp.symm.trans (ok_of_tried hp')
    exact (h payload).fits t ht

theorem sound_childRef {P : Bytes → Prop} {decodeNode : Bytes → Outcome (ChildRef T)}
    (h : ∀ enc, Sound (P enc) (decodeNode enc)) (ty : RlpType) (enc : Bytes) :
    Sound (ChildFits nodes P ty enc) (decodeChildRef nodes decodeNode ty enc) := by
  cases ty with
  | list =>
    constructor
    · intro hfits
      exact .ite (fun _ => .decode) fun hshort => (h enc).safe (hfits (not_lt.mp hshort))
    · intro t ht hshort
      unfold decodeChildRef at ht
      dsimp only at ht
      rw [if_neg (not_lt.mpr hshort)] at ht
      exact (h enc).fits t ht
  | string =>
    constructor
    · intro hfits
      refine .ite (fun _ => .ok) fun _ => .ite (fun _ => .decode) fun hge => .ite (fun _ => .decode) fun hle => ?_
      exact (sound_hashRef h _).safe (hfits (by omega))
    · intro t ht hlen
      unfold decodeChildRef at ht
      dsimp only at ht
      have hne : enc ≠ [] := fun hnil => by
        rw [hnil] at hlen
        cases hlen
      rw [if_neg hne, if_neg (by omega), if_neg (by omega)] at ht
      exact (sound_hashRef h _).fits t ht

section Items

variable {P : RlpType → Bytes → Prop} {Q : Bytes → Prop} {decodeChild : RlpType → Bytes → Outcome (ChildRef T)}
  (h : ∀ ty enc, Sound (P ty enc) (decodeChild ty enc))

include h

theorem decodeChildren_safe (n : Nat) {enc : Bytes} (hfits : ItemsFit P Q n enc) :
    Safe (decodeChildren decodeChild n enc) ∧ ∀ r, decodeChildren decodeChild n enc = .ok r → Q r.2 := by
  induction n generalizing enc with
  | zero => exact ⟨.ok, fun r hr => by cases hr; exact hfits⟩
  | succ n ih =>
    constructor
    · refine .tried_bind fun item hitem => ?_
      obtain ⟨hfirst, hrest⟩ := hfits _ _ _ hitem
      exact ((h item.1 item.2.1).safe hfirst).bind fun child _ => (ih hrest).1.bind fun children _ => .ok
    · intro r hr
      obtain ⟨item, hitem, hr⟩ := ok_of_bind hr
      obtain ⟨child, -, hr⟩ := ok_of_bind hr
      obtain ⟨children, hchildren, hr⟩ := ok_of_bind hr
      cases hr
      exact (ih (hfits _ _ _ (ok_of_tried hitem)).2).2 children hchildren

theorem itemsFit_of_decodeChildren (n : Nat) {enc : Bytes} {r : List (ChildRef T) × Bytes}
    (hr : decodeChildren decodeChild n enc = .ok r) (hQ : Q r.2) : ItemsFit P Q n enc := by
  induction n generalizing enc r with
  | zero =>
    cases hr
    exact hQ
  | succ n ih =>
    intro ty payload rest hp
    obtain ⟨item, hitem, hr⟩ := ok_of_bind hr
    cases hp.symm.trans (ok_of_tried hitem)
    obtain ⟨child, hchild, hr⟩ := ok_of_bind hr
    obtain ⟨children, hchildren, hr⟩ := ok_of_bind hr
    cases hr
    exact ⟨(h ty payload).fits child hchild, ih hchildren hQ⟩

end Items

variable (hv : ∀ enc, Sound (V enc) (decodeValue enc))

include hv

section Node

variable {decodeChild : Nat → RlpType → Bytes → Outcome (ChildRef T)} {pathSize : Nat}
  {F : Nat → RlpType → Bytes → Prop} (h : ∀ size ty enc, Sound (F size ty enc) (decodeChild size ty enc))

include h

/-- A leaf or an extension. -/
theorem sound_shortNode (key value : RlpType × Bytes) :
    Sound (key.1 = .string → ∀ path isLeaf, compactDecode key.2 = .ok (path, isLeaf) →
      pathSize + path.length ≤ 255 ∧ (pathSize + path.length ≤ 64 →
        if isLeaf then value.1 = .string → V value.2 else F (pathSize + path.length) value.1 value.2))
      (decodeShortNode decodeValue decodeChild pathSize key value) where
  safe := by
    intro hfits
    refine .ite (fun _ => .decode) fun hkey => .tried_bind fun p hp => ?_
    obtain ⟨hlen, hrest⟩ := hfits (not_not.mp hkey) p.1 p.2 hp
    refine .ite (fun hlong => absurd hlong (not_lt.mpr hlen)) fun _ => .ite (fun _ => .decode) fun hshort => ?_
    have hrest := hrest (not_lt.mp hshort)
    refine .ite (fun hleaf => .ite (fun _ => .decode) fun hvalue => ?_) fun hext => ?_
    · rw [if_pos hleaf] at hrest
      exact ((hv value.2).safe (hrest (not_not.mp hvalue))).bind fun v _ => .ok
    · rw [if_neg hext] at hrest
      exact ((h _ _ _).safe hrest).bind fun child _ => .ok
  fits := by
    intro t ht hkey path isLeaf hpath
    unfold decodeShortNode at ht
    rw [if_neg (not_not.mpr hkey)] at ht
    obtain ⟨p, hp, ht⟩ := ok_of_bind ht
    cases hpath.symm.trans (ok_of_tried hp)
    dsimp only at ht
    split_ifs at ht with habort hlong hleaf hvalue
    · refine ⟨not_lt.mp habort, fun _ => ?_⟩
      obtain ⟨v, hv', -⟩ := ok_of_bind ht
      rw [if_pos hleaf]
      exact fun _ => (hv value.2).fits v hv'
    · refine ⟨not_lt.mp habort, fun _ => ?_⟩
      obtain ⟨child, hchild, -⟩ := ok_of_bind ht
      rw [if_neg hleaf]
      exact (h _ _ _).fits child hchild

theorem sound_branch (enc : Bytes) :
    Sound (pathSize + 1 ≤ 64 → ItemsFit (F (pathSize + 1))
      (fun enc => ∀ v rest, decodeString enc = .ok (v, rest) → v ≠ [] → V v) 16 enc)
      (decodeBranch decodeValue decodeChild pathSize enc) where
  safe := by
    intro hfits
    refine .ite (fun _ => .decode) fun hshort => ?_
    obtain ⟨hchildren, hbehind⟩ := decodeChildren_safe (h (pathSize + 1)) 16 (hfits (not_lt.mp hshort))
    refine hchildren.bind fun p hp => .tried_bind fun v hvalue => ?_
    refine .bind (.ite (fun _ => .ok) fun hne => ?_) fun value _ => .ite (fun _ => .decode) fun _ => .ok
    exact ((hv v.1).safe (hbehind p hp v.1 v.2 hvalue hne)).bind fun _ _ => .ok
  fits := by
    intro t ht hshort
    unfold decodeBranch at ht
    rw [if_neg (not_lt.mpr hshort)] at ht
    obtain ⟨p, hp, ht⟩ := ok_of_bind ht
    obtain ⟨v, hvalue, ht⟩ := ok_of_bind ht
    obtain ⟨value, hdecoded, -⟩ := ok_of_bind ht
    refine itemsFit_of_decodeChildren (h (pathSize + 1)) 16 hp fun v' rest hv' hne => ?_
    cases hv'.symm.trans (ok_of_tried hvalue)
    unfold decodeBranchValue at hdecoded
    rw [if_neg hne] at hdecoded
    obtain ⟨w, hw, -⟩ := ok_of_bind hdecoded
    exact (hv v').fits w hw

end Node

theorem sound_partialNode (levels pathSize : Nat) (enc : Bytes) : Sound (NodeFits nodes V levels pathSize enc)
    (decodePartialNode nodes decodeValue levels pathSize enc) := by
  induction levels generalizing pathSize enc with
  | zero => exact ⟨fun _ => .decode, fun _ _ => trivial⟩
  | succ levels ih =>
    let decodeChild := fun size => decodeChildRef nodes (decodePartialNode nodes decodeValue levels size)
    have hchild : ∀ size ty enc, Sound (ChildFits nodes (NodeFits nodes V levels size) ty enc)
        (decodeChild size ty enc) := fun size => sound_childRef (ih size)
    have hshort : ∀ key value, Sound _ (decodeShortNode decodeValue decodeChild pathSize key value) :=
      sound_shortNode hv hchild
    have hbranch : Sound _ (decodeBranch decodeValue decodeChild pathSize enc) := sound_branch hv hchild enc
    constructor
    · intro hfits
      refine .ite (fun _ => .decode) fun _ => .tried_bind fun key hkey => .tried_bind fun value hvalue => ?_
      have hfits := hfits _ _ _ _ _ _ hkey hvalue
      refine .ite (fun hrest => ?_) fun hrest => ?_
      · rw [if_pos hrest] at hfits
        exact (hshort _ _).safe hfits
      · rw [if_neg hrest] at hfits
        exact hbranch.safe hfits
    · intro t ht keyType key rest valueType value rest' hkey hvalue
      unfold decodePartialNode at ht
      dsimp only at ht
      split at ht
      · cases ht
      obtain ⟨key', hkey', ht⟩ := ok_of_bind ht
      cases hkey.symm.trans (ok_of_tried hkey')
      obtain ⟨value', hvalue', ht⟩ := ok_of_bind ht
      cases hvalue.symm.trans (ok_of_tried hvalue')
      dsimp only at ht
      split_ifs at ht ⊢
      · exact (hshort _ _).fits t ht
      · exact hbranch.fits t ht

theorem sound_trie (root : Bytes32) : Sound (TrieFits nodes V root) (decodeTrie nodes decodeValue root) :=
  sound_hashRef (sound_partialNode hv 65 0) root

end Decode

theorem sound_storageValue (enc : Bytes) : Sound True (decodeStorageValue enc) where
  safe := fun _ => .tried_bind fun _ _ => .ite (fun _ => .decode) fun _ => .ok
  fits := fun _ _ => trivial

theorem sound_accountValue (nodes : NodeIndex) (enc : Bytes) :
    Sound (AccountFits nodes enc) (decodeAccountValue nodes enc) where
  safe := by
    intro hfits
    refine .tried_bind fun p hp => .ite (fun _ => .decode) fun hrest => .ite (fun _ => .ok) fun _ => ?_
    obtain ⟨⟨account, storageRoot⟩, rest⟩ := p
    obtain rfl : rest = [] := not_not.mp hrest
    exact ((sound_trie sound_storageValue storageRoot).safe (hfits account storageRoot hp)).bind fun storage _ => .ok
  fits := by
    intro t ht account storageRoot hp
    unfold decodeAccountValue at ht
    obtain ⟨p, hp', ht⟩ := ok_of_bind ht
    cases hp.symm.trans (ok_of_tried hp')
    dsimp only at ht
    split_ifs at ht with _ hnull
    · exact fun hroot => absurd hnull hroot
    · obtain ⟨storage, hstorage, -⟩ := ok_of_bind ht
      exact (sound_trie sound_storageValue storageRoot).fits storage hstorage

/-! ## Witnesses -/

variable {fuel : Nat} {enc encodedNodes encodedCodes : Bytes} {root : Bytes32} {db : PartialTrieDb}

theorem sound_codes (h : enc.length ≤ fuel) :
    Sound (∀ code, ReadItem enc code → code.length ≤ codeSizeMax) (parseCodes fuel enc) := by
  induction fuel generalizing enc with
  | zero =>
    cases enc with
    | nil => exact ⟨fun _ => .ok, fun _ _ code hcode => hcode.not_nil.elim⟩
    | cons b bs => exact absurd h (by simp)
  | succ fuel ih =>
    cases enc with
    | nil => exact ⟨fun _ => .ok, fun _ _ code hcode => hcode.not_nil.elim⟩
    | cons b bs =>
      constructor
      · intro hcodes
        refine .tried_bind fun p hp => .ite (fun hlong => absurd (hcodes p.1 (.here hp)) (not_le.mpr hlong)) fun _ => ?_
        have hrest := parseStringMetadata_rest hp
        rw [length_cons] at h hrest
        exact ((ih (by omega)).safe fun code hcode => hcodes code (.later hp hcode)).bind fun more _ => .ok
      · intro codes hread code hcode
        obtain ⟨p, hp, hread⟩ := ok_of_bind hread
        replace hp := ok_of_tried hp
        dsimp only at hread
        split at hread
        · cases hread
        rename_i hshort
        obtain ⟨more, hmore, -⟩ := ok_of_bind hread
        have hrest := parseStringMetadata_rest hp
        rw [length_cons] at h hrest
        cases hcode with
        | here hp' =>
          cases hp'.symm.trans hp
          exact not_lt.mp hshort
        | later hp' hcode =>
          cases hp'.symm.trans hp
          exact (ih (by omega)).fits more hmore code hcode

variable {keccak256 : Bytes → Bytes32}

/-- The codes are not longer than an `Intercode` can be, and every path that is decoded, in the trie of accounts and
in the storage tries of its accounts, fits into a `Nibbles`. -/
def WitnessFits (keccak256 : Bytes → Bytes32) (root : Bytes32) (encodedNodes encodedCodes : Bytes) : Prop :=
  (∀ code, ReadItem encodedCodes code → code.length ≤ codeSizeMax) ∧
    let index := indexByHash keccak256 (witnessNodes encodedNodes)
    TrieFits index (AccountFits index) root

def Outcome.failure {α : Type} : Outcome α → Option Failure
  | .error e => some e
  | .ok _ => none

theorem error_of_failure {α : Type} {x : Outcome α} {e : Failure} (h : x.failure = some e) : x = .error e := by
  cases x with
  | error e' =>
    cases h
    rfl
  | ok a => cases h

/-- A leaf whose key has 97 bytes. -/
def longLeaf : Bytes := [0xf8, 0x64, 0xb8, 0x61, 0x20] ++ List.replicate 96 0 ++ [0x80]

/-- An extension with a path of 64 nibbles. -/
def extensionTo (hash : Bytes32) : Bytes :=
  [0xf8, 0x43, 0xa1] ++ List.replicate 33 0 ++ [0xa0] ++ toBigEndian 32 hash.toNat

/-- Reading the codes differs from reading the nodes only by the assertion. -/
theorem parseStrings_of_parseCodes {codes : List Bytes} (h : parseCodes fuel enc = .ok codes) :
    parseStrings fuel enc = .ok codes := by
  induction fuel generalizing enc codes with
  | zero =>
    cases enc with
    | nil =>
      cases h
      rfl
    | cons b bs => cases h
  | succ fuel ih =>
    cases enc with
    | nil =>
      cases h
      rfl
    | cons b bs =>
      obtain ⟨⟨payload, rest⟩, hp, h⟩ := ok_of_bind h
      dsimp only at h
      split at h
      · cases h
      obtain ⟨more, hmore, h⟩ := ok_of_bind h
      cases h
      simp only [parseStrings, ok_of_tried hp, ih hmore, bind, Except.bind, pure, Except.pure]

/-- A database that was built has the codes of its witness. -/
theorem fromWitness_codes (h : fromWitness keccak256 root encodedNodes encodedCodes = .ok db) :
    db.codes = indexByHash keccak256 (witnessNodes encodedCodes) := by
  obtain ⟨nodes, -, h⟩ := ok_of_bind h
  obtain ⟨codes, hcodes, h⟩ := ok_of_bind h
  obtain ⟨root, -, h⟩ := ok_of_bind h
  cases h
  unfold witnessNodes witnessItems
  rw [parseStrings_of_parseCodes hcodes]
  rfl

/-- The leaf of a witness, with an account whose code has the hash 7. -/
def codedNode : Bytes := sampleNode.take 76 ++ toBigEndian 32 7

end MonadExecution.Ethereum.PartialTrie
