import Uranus.Rlp.Encode

/-!
# Raw RLP splitting (`common/rlp/raw.go`)

Trie nodes are decoded without reflection: {lit}`decodeNode` splits the raw
bytes with {lit}`SplitList`, {lit}`SplitString`, {lit}`Split` and counts the
elements of a list with {lit}`CountValues`.  All of them rest on
{lit}`readKind`, which reads one header and rejects non-canonical sizes.

Main results:

- Theorem {lit}`readKind_consumes`: a header that parses covers at least one byte
  of the input and no more than the input.
-/

namespace Uranus
namespace Rlp

/-- {lit}`rlp.Kind`. -/
inductive Kind where
  | Byte
  | String
  | List
deriving DecidableEq, Repr

/-- The errors of the raw decoding functions. -/
inductive Error where
  /-- {lit}`io.ErrUnexpectedEOF` -/
  | ErrUnexpectedEOF
  /-- {lit}`ErrCanonSize`: a size with a leading zero, or one that fits a shorter form -/
  | ErrCanonSize
  /-- {lit}`ErrValueTooLarge`: the value extends past the end of the input -/
  | ErrValueTooLarge
  /-- {lit}`ErrExpectedString` -/
  | ErrExpectedString
  /-- {lit}`ErrExpectedList` -/
  | ErrExpectedList
deriving DecidableEq, Repr

/-- The number a big-endian byte string spells. -/
def bigEndian (b : Bytes) : Nat := b.foldl (fun acc x => acc * 256 + x.toNat) 0

/-- {lit}`readSize`: a big-endian size of {lit}`slen` bytes.  Sizes below 56 and
sizes with a leading zero byte are not canonical. -/
def readSize (b : Bytes) (slen : Nat) : Except Error Nat :=
  if b.length < slen then .error .ErrUnexpectedEOF
  else
    let s := bigEndian (b.take slen)
    if s < 56 ∨ b.head? = some 0 then .error .ErrCanonSize else .ok s

/-- The header of one value, before the check that the value fits in the input. -/
def readHeader (b : UInt8) (rest : Bytes) : Except Error (Kind × Nat × Nat) :=
  if b < 0x80 then .ok (.Byte, 0, 1)
  else if b < 0xB8 then
    -- reject strings that should have been single bytes
    if (b - 0x80).toNat = 1 ∧ ∃ x ∈ rest.head?, x < 128 then .error .ErrCanonSize
    else .ok (.String, 1, (b - 0x80).toNat)
  else if b < 0xC0 then
    (readSize rest (b - 0xB7).toNat).map fun cs => (.String, (b - 0xB7).toNat + 1, cs)
  else if b < 0xF8 then .ok (.List, 1, (b - 0xC0).toNat)
  else
    (readSize rest (b - 0xF7).toNat).map fun cs => (.List, (b - 0xF7).toNat + 1, cs)

/-- {lit}`readKind`: the kind, header size and content size of the first value. -/
def readKind (buf : Bytes) : Except Error (Kind × Nat × Nat) :=
  match buf with
  | [] => .error .ErrUnexpectedEOF
  | b :: rest => do
    let (k, tagsize, contentsize) ← readHeader b rest
    -- reject values larger than the input slice
    if buf.length - tagsize < contentsize then .error .ErrValueTooLarge
    else .ok (k, tagsize, contentsize)

/-- {lit}`Split`: the kind and content of the first value, and the bytes after it. -/
def Split (b : Bytes) : Except Error (Kind × Bytes × Bytes) := do
  let (k, ts, cs) ← readKind b
  .ok (k, (b.drop ts).take cs, b.drop (ts + cs))

/-- {lit}`SplitString`: the content of a leading string and the bytes after it. -/
def SplitString (b : Bytes) : Except Error (Bytes × Bytes) := do
  let (k, content, rest) ← Split b
  if k = .List then .error .ErrExpectedString else .ok (content, rest)

/-- {lit}`SplitList`: the content of a leading list and the bytes after it. -/
def SplitList (b : Bytes) : Except Error (Bytes × Bytes) := do
  let (k, content, rest) ← Split b
  if k ≠ .List then .error .ErrExpectedList else .ok (content, rest)

/-- A size that is read fits in the bytes it is read from. -/
theorem readSize_length {b : Bytes} {slen s : Nat} (h : readSize b slen = .ok s) :
    slen ≤ b.length := by
  unfold readSize at h
  split at h
  · cases h
  · omega

/-- A long-form header is followed by its size bytes. -/
theorem map_readSize_tagsize {rest : Bytes} {slen : Nat} {kind k : Kind} {ts cs : Nat}
    (h : (readSize rest slen).map (fun cs => (kind, slen + 1, cs)) = .ok (k, ts, cs)) :
    ts = slen + 1 ∧ slen ≤ rest.length := by
  cases hs : readSize rest slen with
  | error e => simp [hs, Except.map] at h
  | ok s =>
    simp only [hs, Except.map, Except.ok.injEq, Prod.mk.injEq] at h
    exact ⟨h.2.1.symm, readSize_length hs⟩

/-- A header is either a single byte below {lit}`0x80`, or at least one tag byte
followed by its size bytes. -/
theorem readHeader_shape {b : UInt8} {rest : Bytes} {k : Kind} {ts cs : Nat}
    (h : readHeader b rest = .ok (k, ts, cs)) :
    (ts = 0 ∧ cs = 1) ∨ (1 ≤ ts ∧ ts ≤ rest.length + 1) := by
  unfold readHeader at h
  split_ifs at h with h1 h2 h3 h4 h5
  · simp only [Except.ok.injEq, Prod.mk.injEq] at h
    exact .inl ⟨h.2.1.symm, h.2.2.symm⟩
  · simp only [Except.ok.injEq, Prod.mk.injEq] at h
    exact .inr ⟨by omega, by omega⟩
  · obtain ⟨rfl, hlen⟩ := map_readSize_tagsize h
    exact .inr ⟨by omega, by omega⟩
  · simp only [Except.ok.injEq, Prod.mk.injEq] at h
    exact .inr ⟨by omega, by omega⟩
  · obtain ⟨rfl, hlen⟩ := map_readSize_tagsize h
    exact .inr ⟨by omega, by omega⟩

/-- A header that parses covers at least one byte and stays inside the input. -/
theorem readKind_consumes {buf : Bytes} {k : Kind} {ts cs : Nat}
    (h : readKind buf = .ok (k, ts, cs)) : 0 < ts + cs ∧ ts + cs ≤ buf.length := by
  cases buf with
  | nil => simp [readKind] at h
  | cons b rest =>
    simp only [readKind, bind, Except.bind] at h
    cases hh : readHeader b rest with
    | error e => simp [hh] at h
    | ok r =>
      obtain ⟨k', ts', cs'⟩ := r
      simp only [hh] at h
      split at h
      · cases h
      · rename_i hfit
        simp only [Except.ok.injEq, Prod.mk.injEq] at h
        obtain ⟨-, rfl, rfl⟩ := h
        simp only [List.length_cons] at hfit ⊢
        rcases readHeader_shape hh with ⟨rfl, rfl⟩ | ⟨h1, h2⟩
        · omega
        · omega

/-- The loop of {lit}`CountValues`.  Each round consumes at least one byte, so the
length of the input is enough fuel; the fuel keeps the model structurally
recursive. -/
def countValues : Nat → Bytes → Except Error Nat
  | 0, _ => .ok 0
  | fuel + 1, b =>
    if b = [] then .ok 0
    else do
      let (_, tagsize, size) ← readKind b
      let n ← countValues fuel (b.drop (tagsize + size))
      .ok (n + 1)

/-- {lit}`CountValues`: the number of values encoded one after another. -/
def CountValues (b : Bytes) : Except Error Nat := countValues b.length b

end Rlp
end Uranus
