import Uranus.Rlp.Raw

/-!
# Reading back RLP encodings

The raw functions of {lit}`raw.go` read back what the encoder of {lit}`encode.go`
writes: {lit}`Split` on the encoding of an item returns its kind, its payload and
whatever follows, and {lit}`CountValues` on the payload of a list counts its
elements.  Go sizes are {lit}`uint64`, so the payloads are shorter than {lit}`2^64`
bytes; within that bound the size bytes {lit}`putint` writes are exactly the
canonical ones {lit}`readSize` accepts.

Main results:

- Theorem {lit}`bigEndian_putint`: size bytes read back as the size.
- Theorem {lit}`split_encode`: {lit}`Split` inverts {lit}`Item.encode`.
- Theorems {lit}`splitString_encode` and {lit}`splitList_encode`: the same for the
  string and list splitters.
- Theorem {lit}`CountValues_encodeAll`: the elements of an encoded list are counted.
-/

namespace Uranus
namespace Rlp

/-! ## Size bytes -/

/-- The size bytes of {lit}`intsize`: the size is below the next power and, past one
byte, at least the last. -/
theorem intsize_go_spec : ∀ (fuel i size : Nat), i < 256 ^ (fuel + 1) →
    size ≤ intsize.go fuel i size ∧ i < 256 ^ (intsize.go fuel i size - size + 1) ∧
      (intsize.go fuel i size = size ∨ 256 ^ (intsize.go fuel i size - size) ≤ i) := by
  intro fuel
  induction fuel with
  | zero =>
    intro i size hi
    simp only [intsize.go, Nat.sub_self, Nat.zero_add, true_or, and_true, Nat.le_refl, true_and]
    simpa using hi
  | succ fuel ih =>
    intro i size hi
    unfold intsize.go
    by_cases h0 : i / 256 = 0
    · rw [if_pos h0]
      refine ⟨Nat.le_refl _, ?_, .inl rfl⟩
      simp only [Nat.sub_self, Nat.zero_add, Nat.pow_one]
      omega
    · rw [if_neg h0]
      have hi' : i / 256 < 256 ^ (fuel + 1) := by
        rw [Nat.div_lt_iff_lt_mul (by decide), ← Nat.pow_succ]
        exact hi
      obtain ⟨hle, hlt, hlow⟩ := ih (i / 256) (size + 1) hi'
      set r := intsize.go fuel (i / 256) (size + 1)
      refine ⟨by omega, ?_, .inr ?_⟩
      · have : r - size + 1 = (r - (size + 1) + 1) + 1 := by omega
        rw [this, Nat.pow_succ]
        exact (Nat.div_lt_iff_lt_mul (by decide)).mp hlt
      · have : r - size = (r - (size + 1)) + 1 := by omega
        rw [this, Nat.pow_succ]
        rcases hlow with heq | hpow
        · rw [heq, Nat.sub_self, Nat.pow_zero, Nat.one_mul]
          omega
        · exact (Nat.le_div_iff_mul_le (by decide)).mp hpow


/-- A size below {lit}`2^64` takes between one and eight bytes, enough for it and, past
one byte, no more than it needs. -/
theorem intsize_spec {n : Nat} (hn : n < 256 ^ 8) :
    1 ≤ intsize n ∧ intsize n ≤ 8 ∧ n < 256 ^ intsize n ∧
      (intsize n = 1 ∨ 256 ^ (intsize n - 1) ≤ n) := by
  have h9 : n < 256 ^ (8 + 1) := Nat.lt_of_lt_of_le hn (Nat.pow_le_pow_right (by decide) (by omega))
  obtain ⟨hle, hlt, hlow⟩ := intsize_go_spec 8 n 1 h9
  have hs : intsize n = intsize.go 8 n 1 := rfl
  rw [← hs] at hle hlt hlow
  have hlt' : n < 256 ^ intsize n := by
    have : intsize n - 1 + 1 = intsize n := by omega
    rwa [this] at hlt
  refine ⟨hle, ?_, hlt', hlow⟩
  by_contra h8
  rcases hlow with h1 | hpow
  · omega
  · have : 256 ^ 8 ≤ 256 ^ (intsize n - 1) := Nat.pow_le_pow_right (by decide) (by omega)
    omega

/-- {lit}`bigEndian` from an accumulator. -/
theorem foldl_bigEndian (acc : Nat) (l : Bytes) :
    l.foldl (fun acc x => acc * 256 + x.toNat) acc = acc * 256 ^ l.length + bigEndian l := by
  induction l generalizing acc with
  | nil => simp [bigEndian]
  | cons x l ih =>
    simp only [List.foldl_cons, bigEndian, List.length_cons] at ih ⊢
    rw [ih, ih (0 * 256 + x.toNat), Nat.pow_succ]
    ring

/-- The low {lit}`s` bytes of a number, most significant first. -/
theorem bigEndian_digits (n s : Nat) :
    bigEndian ((List.range s).reverse.map fun k => (n / 256 ^ k % 256).toUInt8) = n % 256 ^ s := by
  induction s with
  | zero => simp [bigEndian, Nat.mod_one]
  | succ s ih =>
    rw [List.range_succ, List.reverse_append, List.reverse_singleton, List.singleton_append,
      List.map_cons]
    have hd : (n / 256 ^ s % 256).toUInt8.toNat = n / 256 ^ s % 256 := by
      rw [Nat.toUInt8_eq, UInt8.toNat_ofNat_of_lt' (Nat.mod_lt _ (by decide))]
    have hcons : ∀ (x : UInt8) (l : Bytes), bigEndian (x :: l) = x.toNat * 256 ^ l.length + bigEndian l := by
      intro x l
      rw [bigEndian, List.foldl_cons, foldl_bigEndian, Nat.zero_mul, Nat.zero_add]
    rw [hcons, hd, List.length_map, List.length_reverse, List.length_range, ih, Nat.mod_pow_succ]
    ring

/-- The big-endian bytes of an integer below {lit}`256^8` read back as it. -/
theorem bigEndian_putint {n : Nat} (hn : n < 256 ^ 8) : bigEndian (putint n) = n := by
  unfold putint
  rw [bigEndian_digits]
  exact Nat.mod_eq_of_lt (intsize_spec hn).2.2.1


/-- The first size byte is never zero. -/
theorem putint_head {n : Nat} (hn : n < 256 ^ 8) (hpos : 0 < n) (rest : Bytes) :
    (putint n ++ rest).head? ≠ some 0 := by
  obtain ⟨h1, -, hlt, hlow⟩ := intsize_spec hn
  obtain ⟨s, hs⟩ : ∃ s, intsize n = s + 1 := ⟨intsize n - 1, by omega⟩
  have hlead : 0 < n / 256 ^ s ∧ n / 256 ^ s < 256 := by
    rw [hs] at hlt hlow
    constructor
    · rcases hlow with h | h
      · have : s = 0 := by omega
        subst this
        simpa using hpos
      · exact Nat.div_pos (by simpa using h) (Nat.pow_pos (by decide))
    · rw [Nat.div_lt_iff_lt_mul (Nat.pow_pos (by decide)), ← Nat.pow_succ']
      simpa [Nat.pow_succ, Nat.mul_comm] using hlt
  unfold putint
  rw [hs, List.range_succ, List.reverse_append, List.reverse_singleton, List.singleton_append,
    List.map_cons, List.cons_append, List.head?_cons]
  intro h
  have h' := congrArg UInt8.toNat (Option.some.inj h)
  rw [Nat.toUInt8_eq, UInt8.toNat_ofNat_of_lt' (Nat.mod_lt _ (by decide)),
    Nat.mod_eq_of_lt hlead.2, UInt8.toNat_zero] at h'
  omega

/-- A size of eight bytes at most, that needs the long form, reads back. -/
theorem readSize_putint {n : Nat} (hn : n < 256 ^ 8) (hlong : 56 ≤ n) (rest : Bytes) :
    readSize (putint n ++ rest) (intsize n) = .ok n := by
  unfold readSize
  have hlen : (putint n).length = intsize n := length_putint n
  rw [if_neg (by simp [hlen]), List.take_left' hlen, bigEndian_putint hn,
    if_neg (not_or.mpr ⟨by omega, putint_head hn (by omega) rest⟩)]


/-! ## Headers -/

/-- A tag plus a small offset does not wrap around. -/
theorem toNat_tag_add (tag : UInt8) {n : Nat} (h : tag.toNat + n < 256) :
    (tag + n.toUInt8).toNat = tag.toNat + n := by
  rw [UInt8.toNat_add, Nat.toUInt8_eq, UInt8.toNat_ofNat_of_lt' (by change n < 256; omega)]
  exact Nat.mod_eq_of_lt h

/-- {lit}`readKind` on a header that parses to a value inside the input. -/
theorem readKind_of_readHeader {b : UInt8} {rest : Bytes} {k : Kind} {ts cs : Nat}
    (h : readHeader b rest = .ok (k, ts, cs)) (hfit : cs + ts ≤ rest.length + 1) :
    readKind (b :: rest) = .ok (k, ts, cs) := by
  simp only [readKind, h, bind, Except.bind, List.length_cons]
  rw [if_neg (by omega)]

/-- The header of a short string, in canonical form, reads as a string of its length. -/
theorem readHeader_string_short {b : Bytes} (hs : b.length < 56)
    (hcanon : b.length = 1 → ∀ x ∈ b.head?, 0x7F < x) (rest : Bytes) :
    readHeader (0x80 + b.length.toUInt8) (b ++ rest) = .ok (.String, 1, b.length) := by
  have htag : (0x80 + b.length.toUInt8 : UInt8).toNat = 128 + b.length :=
    toNat_tag_add 0x80 (by change 128 + b.length < 256; omega)
  have hsub : (0x80 + b.length.toUInt8 - 0x80 : UInt8).toNat = b.length := by
    rw [UInt8.toNat_sub_of_le _ _ (by rw [UInt8.le_iff_toNat_le, htag]; change 128 ≤ _; omega),
      htag]
    change 128 + b.length - 128 = b.length
    omega
  unfold readHeader
  rw [if_neg (by rw [UInt8.lt_iff_toNat_lt, htag]; change ¬ (_ < 128); omega),
    if_pos (by rw [UInt8.lt_iff_toNat_lt, htag]; change _ < 184; omega), hsub]
  rw [if_neg]
  rintro ⟨h1, x, hx, hlt⟩
  obtain ⟨y, rfl⟩ := List.length_eq_one_iff.mp h1
  have hxy : y = x := by simpa using hx
  subst hxy
  have hbig := hcanon h1 y rfl
  rw [UInt8.lt_iff_toNat_lt] at hbig hlt
  exact absurd hlt (by change ¬ (_ < 128); change 127 < _ at hbig; omega)


/-- The header of a long string reads as a string of its length. -/
theorem readHeader_string_long {len : Nat} (hn : len < 256 ^ 8) (hlong : 56 ≤ len) (rest : Bytes) :
    readHeader (0xB7 + (intsize len).toUInt8) (putint len ++ rest) =
      .ok (.String, intsize len + 1, len) := by
  obtain ⟨h1, h8, -, -⟩ := intsize_spec hn
  have htag : (0xB7 + (intsize len).toUInt8 : UInt8).toNat = 183 + intsize len :=
    toNat_tag_add 0xB7 (by change 183 + intsize len < 256; omega)
  have hsub : (0xB7 + (intsize len).toUInt8 - 0xB7 : UInt8).toNat = intsize len := by
    rw [UInt8.toNat_sub_of_le _ _ (by rw [UInt8.le_iff_toNat_le, htag]; change 183 ≤ _; omega),
      htag]
    change 183 + intsize len - 183 = intsize len
    omega
  unfold readHeader
  rw [if_neg (by rw [UInt8.lt_iff_toNat_lt, htag]; change ¬ (_ < 128); omega),
    if_neg (by rw [UInt8.lt_iff_toNat_lt, htag]; change ¬ (_ < 184); omega),
    if_pos (by rw [UInt8.lt_iff_toNat_lt, htag]; change _ < 192; omega), hsub,
    readSize_putint hn hlong]
  rfl

/-- The header of a short list reads as a list of its content size. -/
theorem readHeader_list_short {c : Nat} (hs : c < 56) (rest : Bytes) :
    readHeader (0xC0 + c.toUInt8) rest = .ok (.List, 1, c) := by
  have htag : (0xC0 + c.toUInt8 : UInt8).toNat = 192 + c :=
    toNat_tag_add 0xC0 (by change 192 + c < 256; omega)
  have hsub : (0xC0 + c.toUInt8 - 0xC0 : UInt8).toNat = c := by
    rw [UInt8.toNat_sub_of_le _ _ (by rw [UInt8.le_iff_toNat_le, htag]; change 192 ≤ _; omega),
      htag]
    change 192 + c - 192 = c
    omega
  unfold readHeader
  rw [if_neg (by rw [UInt8.lt_iff_toNat_lt, htag]; change ¬ (_ < 128); omega),
    if_neg (by rw [UInt8.lt_iff_toNat_lt, htag]; change ¬ (_ < 184); omega),
    if_neg (by rw [UInt8.lt_iff_toNat_lt, htag]; change ¬ (_ < 192); omega),
    if_pos (by rw [UInt8.lt_iff_toNat_lt, htag]; change _ < 248; omega), hsub]

/-- The header of a long list reads as a list of its content size. -/
theorem readHeader_list_long {len : Nat} (hn : len < 256 ^ 8) (hlong : 56 ≤ len) (rest : Bytes) :
    readHeader (0xF7 + (intsize len).toUInt8) (putint len ++ rest) =
      .ok (.List, intsize len + 1, len) := by
  obtain ⟨h1, h8, -, -⟩ := intsize_spec hn
  have htag : (0xF7 + (intsize len).toUInt8 : UInt8).toNat = 247 + intsize len :=
    toNat_tag_add 0xF7 (by change 247 + intsize len < 256; omega)
  have hsub : (0xF7 + (intsize len).toUInt8 - 0xF7 : UInt8).toNat = intsize len := by
    rw [UInt8.toNat_sub_of_le _ _ (by rw [UInt8.le_iff_toNat_le, htag]; change 247 ≤ _; omega),
      htag]
    change 247 + intsize len - 247 = intsize len
    omega
  unfold readHeader
  rw [if_neg (by rw [UInt8.lt_iff_toNat_lt, htag]; change ¬ (_ < 128); omega),
    if_neg (by rw [UInt8.lt_iff_toNat_lt, htag]; change ¬ (_ < 184); omega),
    if_neg (by rw [UInt8.lt_iff_toNat_lt, htag]; change ¬ (_ < 192); omega),
    if_neg (by rw [UInt8.lt_iff_toNat_lt, htag]; change ¬ (_ < 248); omega), hsub,
    readSize_putint hn hlong]
  rfl


/-- A string with a header reads back as a string of its length. -/
theorem readKind_string {b : Bytes} (hb : b.length < 256 ^ 8)
    (hcanon : b.length = 1 → ∀ x ∈ b.head?, 0x7F < x) (rest : Bytes) :
    readKind (puthead 0x80 0xB7 b.length ++ b ++ rest) =
      .ok (.String, (puthead 0x80 0xB7 b.length).length, b.length) := by
  unfold puthead
  by_cases hs : b.length < 56
  · rw [if_pos hs, List.singleton_append, List.cons_append]
    exact readKind_of_readHeader (readHeader_string_short hs hcanon rest)
      (by simp only [List.length_append, List.length_singleton]; omega)
  · simp only [if_neg hs, List.cons_append, List.append_assoc, List.length_cons, length_putint]
    refine readKind_of_readHeader (readHeader_string_long hb (by omega) (b ++ rest)) ?_
    simp [length_putint]
    omega

/-- A list reads back as a list of its content's length. -/
theorem readKind_list {c : Bytes} (hc : c.length < 256 ^ 8) (rest : Bytes) :
    readKind (puthead 0xC0 0xF7 c.length ++ c ++ rest) =
      .ok (.List, (puthead 0xC0 0xF7 c.length).length, c.length) := by
  unfold puthead
  by_cases hs : c.length < 56
  · rw [if_pos hs, List.singleton_append, List.cons_append]
    exact readKind_of_readHeader (readHeader_list_short hs (c ++ rest))
      (by simp only [List.length_append, List.length_singleton]; omega)
  · simp only [if_neg hs, List.cons_append, List.append_assoc, List.length_cons, length_putint]
    refine readKind_of_readHeader (readHeader_list_long hc (by omega) (c ++ rest)) ?_
    simp [length_putint]
    omega

/-! ## Items -/

/-- The header {lit}`Item.encode` writes before an item's payload. -/
def Item.header : Item → Bytes
  | .str b =>
    match b with
    | [x] => if x ≤ 0x7F then [] else puthead 0x80 0xB7 1
    | _ => puthead 0x80 0xB7 b.length
  | .list items => puthead 0xC0 0xF7 (Item.encodeAll items).length

/-- What {lit}`Split` returns as an item's content: a string's bytes, or a list's
concatenated element encodings. -/
def Item.payload : Item → Bytes
  | .str b => b
  | .list items => Item.encodeAll items

/-- The kind {lit}`Split` reports for an item. -/
def Item.kind : Item → Kind
  | .str b =>
    match b with
    | [x] => if x ≤ 0x7F then .Byte else .String
    | _ => .String
  | .list _ => .List

/-- An item's encoding is its header, then its payload. -/
theorem Item.encode_eq (it : Item) : it.encode = it.header ++ it.payload := by
  cases it with
  | str b =>
    match b with
    | [x] =>
      by_cases hx : x ≤ 0x7F
      · simp [encodeString, Item.header, Item.payload, hx]
      · simp [encodeString, Item.header, Item.payload, hx]
    | [] => simp [encodeString, Item.header, Item.payload]
    | x :: y :: l => simp [encodeString, Item.header, Item.payload]
  | list items => simp [Item.header, Item.payload]

/-- {lit}`readKind` on an encoding: its kind, its header's length and its payload's
length. -/
theorem readKind_encode (it : Item) (hsize : it.payload.length < 256 ^ 8) (rest : Bytes) :
    readKind (it.encode ++ rest) = .ok (it.kind, it.header.length, it.payload.length) := by
  rw [Item.encode_eq]
  cases it with
  | str b =>
    match b with
    | [x] =>
      by_cases hx : x ≤ 0x7F
      · -- a single small byte is its own encoding
        have hlt : x < 0x80 := by
          rw [UInt8.lt_iff_toNat_lt]
          rw [UInt8.le_iff_toNat_le] at hx
          change _ ≤ 127 at hx
          change _ < 128
          omega
        simp only [Item.header, Item.payload, Item.kind, if_pos hx, List.nil_append,
          List.length_nil, List.length_singleton, List.singleton_append]
        refine readKind_of_readHeader ?_ (by omega)
        unfold readHeader
        rw [if_pos hlt]
      · simp only [Item.header, Item.payload, Item.kind, if_neg hx]
        refine readKind_string (b := [x]) (by simp) ?_ rest
        intro _ y hy
        have hxy : x = y := by simpa using hy
        subst hxy
        exact UInt8.not_le.mp hx
    | [] => exact readKind_string (b := []) (by simp) (by simp) rest
    | x :: y :: l =>
      exact readKind_string (b := x :: y :: l) hsize (by simp) rest
  | list items => exact readKind_list hsize rest

/-- {lit}`Split` on an encoding: its kind, its payload and the bytes after it. -/
theorem split_encode (it : Item) (hsize : it.payload.length < 256 ^ 8) (rest : Bytes) :
    Split (it.encode ++ rest) = .ok (it.kind, it.payload, rest) := by
  have hlen : it.encode.length = it.header.length + it.payload.length := by
    rw [Item.encode_eq, List.length_append]
  simp only [Split, readKind_encode it hsize rest, bind, Except.bind]
  rw [Item.encode_eq, List.append_assoc, List.drop_left' rfl, List.take_left' rfl,
    ← List.append_assoc, List.drop_left' (by simp)]

/-- A string item is not of the list kind. -/
theorem Item.kind_str_ne_list (b : Bytes) : (Item.str b).kind ≠ .List := by
  match b with
  | [x] =>
    by_cases hx : x ≤ 0x7F
    · simp [Item.kind, hx]
    · simp [Item.kind, hx]
  | [] => simp [Item.kind]
  | _ :: _ :: _ => simp [Item.kind]

/-- Only a single byte can be its own encoding; every other string is a string. -/
theorem kind_str_of_length_ne_one {b : Bytes} (hb : b.length ≠ 1) : (Item.str b).kind = .String := by
  match b with
  | [x] => simp at hb
  | [] => rfl
  | _ :: _ :: _ => rfl

/-- {lit}`SplitString` of an encoded string gives the string and what follows. -/
theorem splitString_encode (b : Bytes) (hb : b.length < 256 ^ 8) (rest : Bytes) :
    SplitString ((Item.str b).encode ++ rest) = .ok (b, rest) := by
  simp only [SplitString, split_encode (.str b) hb rest, bind, Except.bind,
    if_neg (Item.kind_str_ne_list b), Item.payload]

/-- {lit}`SplitList` of an encoded list gives its content and what follows. -/
theorem splitList_encode (items : List Item) (hc : (Item.encodeAll items).length < 256 ^ 8)
    (rest : Bytes) :
    SplitList ((Item.list items).encode ++ rest) = .ok (Item.encodeAll items, rest) := by
  simp only [SplitList, split_encode (.list items) hc rest, bind, Except.bind, Item.kind,
    ne_eq, not_true_eq_false, if_false, Item.payload]


/-! ## Lists of items -/

/-- Every encoding takes at least one byte. -/
theorem Item.length_encode_pos (it : Item) (hsize : it.payload.length < 256 ^ 8) :
    0 < it.encode.length := by
  have h := readKind_consumes (readKind_encode it hsize [])
  rw [List.append_nil] at h
  omega

/-- Every element of a list encodes to at least one byte. -/
theorem length_le_encodeAll (items : List Item) (hsize : ∀ it ∈ items, it.payload.length < 256 ^ 8) :
    items.length ≤ (Item.encodeAll items).length := by
  induction items with
  | nil => simp
  | cons it items ih =>
    have h1 := it.length_encode_pos (hsize it List.mem_cons_self)
    have h2 := ih fun it' hit' => hsize it' (List.mem_cons_of_mem it hit')
    simp only [Item.encodeAll_cons, List.length_append, List.length_cons]
    omega

/-- The loop of {lit}`CountValues` counts the elements of a list payload. -/
theorem countValues_encodeAll (items : List Item)
    (hsize : ∀ it ∈ items, it.payload.length < 256 ^ 8) :
    ∀ fuel, items.length ≤ fuel → countValues fuel (Item.encodeAll items) = .ok items.length := by
  induction items with
  | nil =>
    intro fuel _
    cases fuel with
    | zero => rfl
    | succ fuel => simp [countValues]
  | cons it items ih =>
    intro fuel hfuel
    obtain ⟨fuel, rfl⟩ : ∃ f, fuel = f + 1 := ⟨fuel - 1, by simp at hfuel; omega⟩
    have hit := hsize it List.mem_cons_self
    have hne : it.encode ++ Item.encodeAll items ≠ [] := by
      have hpos := it.length_encode_pos hit
      intro h
      have hlen := congrArg List.length h
      simp only [List.length_append, List.length_nil] at hlen
      omega
    have hdrop : (it.encode ++ Item.encodeAll items).drop (it.header.length + it.payload.length) =
        Item.encodeAll items := by
      rw [List.drop_left' (by rw [Item.encode_eq, List.length_append])]
    simp only [countValues, Item.encodeAll_cons, if_neg hne, readKind_encode it hit, bind,
      Except.bind, hdrop]
    rw [ih (fun it' hit' => hsize it' (List.mem_cons_of_mem it hit')) fuel
      (by simp at hfuel; omega)]
    rfl

/-- {lit}`CountValues` on the payload of a list counts its elements. -/
theorem CountValues_encodeAll (items : List Item)
    (hsize : ∀ it ∈ items, it.payload.length < 256 ^ 8) :
    CountValues (Item.encodeAll items) = .ok items.length :=
  countValues_encodeAll items hsize _ (length_le_encodeAll items hsize)

/-- Encoding two lists of items is encoding each, one after the other. -/
theorem encodeAll_append (l₁ l₂ : List Item) :
    Item.encodeAll (l₁ ++ l₂) = Item.encodeAll l₁ ++ Item.encodeAll l₂ := by
  induction l₁ with
  | nil => simp
  | cons it l₁ ih => simp [ih]

/-! ## Sizes of nested items -/

/-- An item's payload is no longer than its encoding. -/
theorem payload_length_le (it : Item) : it.payload.length ≤ it.encode.length := by
  rw [Item.encode_eq, List.length_append]
  omega

/-- One item's encoding is no longer than that of a list holding it. -/
theorem encode_length_le_encodeAll {it : Item} {items : List Item} (h : it ∈ items) :
    it.encode.length ≤ (Item.encodeAll items).length := by
  induction items with
  | nil => cases h
  | cons a items ih =>
    rw [Item.encodeAll_cons, List.length_append]
    rcases List.mem_cons.mp h with rfl | h
    · omega
    · have := ih h
      omega

/-- A list's header takes at least one byte. -/
theorem header_list_pos (items : List Item) : 0 < (Item.list items).header.length := by
  simp only [Item.header, puthead]
  split <;> simp

/-- A list's content is shorter than the list's encoding. -/
theorem payload_length_lt_list (items : List Item) :
    (Item.encodeAll items).length < (Item.list items).encode.length := by
  have h2 := header_list_pos items
  rw [Item.encode_eq (.list items), List.length_append]
  simp only [Item.payload]
  omega

/-- An element's encoding is shorter than the list's. -/
theorem encode_length_lt_list {it : Item} {items : List Item} (h : it ∈ items) :
    it.encode.length < (Item.list items).encode.length :=
  Nat.lt_of_le_of_lt (encode_length_le_encodeAll h) (payload_length_lt_list items)

/-- The elements of a list of Go's sizes are of Go's sizes. -/
theorem payload_length_lt_of_mem {it : Item} {items : List Item} (h : it ∈ items)
    (hsize : (Item.list items).encode.length < 256 ^ 8) : it.payload.length < 256 ^ 8 := by
  have h1 := encode_length_lt_list h
  have h2 := payload_length_le it
  omega

end Rlp
end Uranus
