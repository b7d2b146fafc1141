import Uranus.Rlp.Encode

/-!
# The encoding buffer ({lit}`encbuf`)

The Go encoder does not know a list's size when it starts the list.  It writes all
string data into {lit}`str`, and {lit}`list` records a header at the current offset,
keeping in its size field the total size of the headers closed so far;
{lit}`listEnd` turns that into the list's payload size, counting the headers closed
inside the list, and adds the new header's own size to {lit}`lhsize`.  Only
{lit}`toBytes` interleaves the headers with the string data.

A buffer a writer produced from scratch can be appended to any buffer: the headers
move by the length of the string data in front.  Every writer of the codec has
this property ({lit}`Appends`), and {lit}`toBytes` maps appending to concatenation;
together they show that the buffer writes the bytes of the item tree.

Main results:

- Theorem {lit}`toBytes_append`: {lit}`toBytes` of an appended buffer is the
  concatenation.
- Theorem {lit}`Appends.wrapList`: a list around an appending writer appends.
- Theorem {lit}`toBytes_wrapList`: the header {lit}`listEnd` writes is that of the
  list's encoded payload.
-/

namespace Uranus
namespace Rlp

/-- {lit}`listhead`: where a list header goes in the string data, and the list's
size once it is closed. -/
structure Listhead where
  offset : Nat
  size : Nat

/-- {lit}`encbuf`; the auxiliary size buffer holds nothing between calls and is left
out. -/
structure Encbuf where
  str : Bytes
  lheads : List Listhead
  lhsize : Nat

/-- {lit}`headsize`: the size of the header of a value of the given size. -/
def headsize (size : Nat) : Nat := if size < 56 then 1 else 1 + intsize size

namespace Encbuf

/-- A buffer after {lit}`reset`. -/
def empty : Encbuf := ⟨[], [], 0⟩

/-- {lit}`size`: the length of the output. -/
def size (w : Encbuf) : Nat := w.str.length + w.lhsize

/-- Appending string data. -/
def write (w : Encbuf) (b : Bytes) : Encbuf := { w with str := w.str ++ b }

/-- {lit}`list`: a new header at the current offset, returned by its index. -/
def list (w : Encbuf) : Nat × Encbuf :=
  (w.lheads.length, { w with lheads := w.lheads ++ [⟨w.str.length, w.lhsize⟩] })

/-- {lit}`listEnd`: the header's size becomes everything written since it opened. -/
def listEnd (w : Encbuf) (i : Nat) : Encbuf :=
  match w.lheads[i]? with
  | none => w
  | some lh =>
    let size := w.size - lh.offset - lh.size
    { w with lheads := w.lheads.set i ⟨lh.offset, size⟩, lhsize := w.lhsize + headsize size }

/-- The copying loop of {lit}`toBytes`: the string data up to each header, the
header, and the data after the last one. -/
def pieces (str : Bytes) : List Listhead → Nat → Bytes
  | [], strpos => str.drop strpos
  | h :: hs, strpos =>
    (str.drop strpos).take (h.offset - strpos) ++ puthead 0xC0 0xF7 h.size ++ pieces str hs h.offset

/-- {lit}`toBytes`. -/
def toBytes (w : Encbuf) : Bytes := pieces w.str w.lheads 0

/-- A header seen from a buffer with {lit}`n` more bytes of string data in front. -/
def Listhead.shift (n : Nat) (h : Listhead) : Listhead := ⟨n + h.offset, h.size⟩

/-- The buffer {lit}`w` followed by what was written into {lit}`f`. -/
def append (w f : Encbuf) : Encbuf :=
  ⟨w.str ++ f.str, w.lheads ++ f.lheads.map (Listhead.shift w.str.length), w.lhsize + f.lhsize⟩

/-- Every header lies within the string data. -/
def Bounded (w : Encbuf) : Prop := ∀ h ∈ w.lheads, h.offset ≤ w.str.length

/-! ## Appending buffers -/

/-- Appending buffers appends their strings. -/
@[simp]
theorem str_append (w f : Encbuf) : (w.append f).str = w.str ++ f.str := rfl

/-- Appending buffers adds their list-header sizes. -/
@[simp]
theorem lhsize_append (w f : Encbuf) : (w.append f).lhsize = w.lhsize + f.lhsize := rfl

/-- Appending buffers appends their list headers, the second buffer's moved past the
first buffer's string. -/
@[simp]
theorem lheads_append (w f : Encbuf) :
    (w.append f).lheads = w.lheads ++ f.lheads.map (Listhead.shift w.str.length) := rfl

/-- No bytes in front shift no header. -/
theorem shift_zero : Listhead.shift 0 = id := by
  funext h
  simp [Listhead.shift]

/-- Shifting twice is shifting by the sum. -/
theorem shift_comp_shift (a b : Nat) : Listhead.shift a ∘ Listhead.shift b = Listhead.shift (a + b) := by
  funext h
  simp [Listhead.shift, Nat.add_assoc]

/-- Appending the empty buffer changes nothing. -/
theorem append_empty (w : Encbuf) : w.append empty = w := by
  simp [append, empty]

/-- The empty buffer followed by a buffer is that buffer. -/
theorem empty_append (f : Encbuf) : empty.append f = f := by
  simp [append, empty, shift_zero]

/-- Appending buffers is associative. -/
theorem append_assoc (w f g : Encbuf) : (w.append f).append g = w.append (f.append g) := by
  simp [append, List.map_map, shift_comp_shift, Nat.add_assoc]

/-- {lit}`write` appends a buffer holding the bytes and no header. -/
theorem write_eq_append (w : Encbuf) (b : Bytes) : w.write b = w.append ⟨b, [], 0⟩ := by
  simp [write, append]

/-! ## Rendering -/

/-- Headers that all moved by the same amount copy the same pieces of the data behind. -/
theorem pieces_shift (s₁ s₂ : Bytes) :
    ∀ (hs : List Listhead) (q : Nat),
      pieces (s₁ ++ s₂) (hs.map (Listhead.shift s₁.length)) (s₁.length + q) = pieces s₂ hs q
  | [], q => by simp [pieces, List.drop_append]
  | h :: hs, q => by
    simp only [List.map_cons, pieces, Listhead.shift, List.drop_append, List.drop_eq_nil_of_le
      (by omega : s₁.length ≤ s₁.length + q), List.nil_append, Nat.add_sub_add_left]
    rw [pieces_shift s₁ s₂ hs h.offset]
    simp

/-- After the headers of the first buffer, the pieces of the second one follow the
rest of the first buffer's data. -/
theorem pieces_append_shift (s₁ s₂ : Bytes) (hs : List Listhead) {q : Nat} (hq : q ≤ s₁.length) :
    pieces (s₁ ++ s₂) (hs.map (Listhead.shift s₁.length)) q = s₁.drop q ++ pieces s₂ hs 0 := by
  cases hs with
  | nil => simp [pieces, List.drop_append_of_le_length hq]
  | cons h hs =>
    have hrest := pieces_shift s₁ s₂ hs h.offset
    simp only [List.map_cons, pieces, Listhead.shift] at hrest ⊢
    rw [hrest, List.drop_append_of_le_length hq]
    -- the copy runs to the end of the first data and on into the second
    have hlen : (s₁.drop q).length ≤ s₁.length + h.offset - q := by
      simp only [List.length_drop]
      omega
    rw [List.take_append, List.take_of_length_le hlen, List.length_drop]
    simp [show s₁.length + h.offset - q - (s₁.length - q) = h.offset by omega]

/-- The copying loop over two strings with their headers is the loop over the first, then over the second. -/
theorem pieces_append (s₁ s₂ : Bytes) (H₂ : List Listhead) :
    ∀ (H₁ : List Listhead) (p : Nat), (∀ h ∈ H₁, h.offset ≤ s₁.length) → p ≤ s₁.length →
      pieces (s₁ ++ s₂) (H₁ ++ H₂.map (Listhead.shift s₁.length)) p = pieces s₁ H₁ p ++ pieces s₂ H₂ 0
  | [], p, _, hp => by simpa [pieces] using pieces_append_shift s₁ s₂ H₂ hp
  | h :: H₁, p, hb, hp => by
    have hh := hb h (List.mem_cons_self ..)
    have ih := pieces_append s₁ s₂ H₂ H₁ h.offset (fun h' hm => hb h' (List.mem_cons_of_mem _ hm)) hh
    simp only [List.cons_append, pieces, ih, List.append_assoc]
    -- the copy before the header stays inside the first data
    rw [List.drop_append_of_le_length hp, List.take_append_of_le_length (by simp; omega)]

/-- {lit}`toBytes` turns appending into concatenation. -/
theorem toBytes_append {w : Encbuf} (hw : w.Bounded) (f : Encbuf) :
    (w.append f).toBytes = w.toBytes ++ f.toBytes :=
  pieces_append w.str f.str f.lheads w.lheads 0 hw (Nat.zero_le _)

/-- Appending keeps every header within the string data. -/
theorem Bounded.append {w f : Encbuf} (hw : w.Bounded) (hf : f.Bounded) : (w.append f).Bounded := by
  intro h hh
  simp only [lheads_append, List.mem_append, List.mem_map] at hh
  rcases hh with hh | ⟨h', hh', rfl⟩
  · have := hw h hh
    simp
    omega
  · have := hf h' hh'
    simp [Listhead.shift]
    omega

/-- A buffer of bytes alone is bounded. -/
theorem bounded_write (b : Bytes) : (⟨b, [], 0⟩ : Encbuf).Bounded := by
  intro h hh
  cases hh

/-! ## Writers that append -/

/-- A writer whose effect on any buffer is to append what it writes into an empty
one. -/
def Appends {ε : Type} (op : Encbuf → Except ε Encbuf) : Prop :=
  ∀ w, op w = (op empty).map w.append

/-- A writer that leaves a bounded buffer from scratch. -/
def Bounds {ε : Type} (op : Encbuf → Except ε Encbuf) : Prop :=
  ∀ f, op empty = .ok f → f.Bounded

/-- {lit}`write` appends what it writes. -/
theorem appends_write {ε : Type} (b : Bytes) : Appends (ε := ε) fun w => .ok (w.write b) := by
  intro w
  simp [Except.map, write_eq_append, empty_append]

/-- Two writers that append, one after the other, append. -/
theorem Appends.bind {ε : Type} {f g : Encbuf → Except ε Encbuf} (hf : Appends f) (hg : Appends g) :
    Appends fun w => f w >>= g := by
  intro w
  show f w >>= g = (f empty >>= g).map w.append
  rw [hf w]
  cases hfe : f empty with
  | error e => rfl
  | ok F =>
    show g (w.append F) = (g F).map w.append
    rw [hg (w.append F), hg F]
    cases g empty with
    | error e => rfl
    | ok G => simp [Except.map, append_assoc]

/-- The writer of a list: open a header, run the elements' writer, close it. -/
def wrapList {ε : Type} (op : Encbuf → Except ε Encbuf) (w : Encbuf) : Except ε Encbuf :=
  let (lh, w) := w.list
  (op w).map fun w => w.listEnd lh

/-- The one computation behind {lit}`Appends.wrapList`: closing a header opened over
{lit}`w` after appending {lit}`F` is appending the closed list of {lit}`F`. -/
theorem listEnd_append (w F : Encbuf) :
    ((w.list).2.append F).listEnd (w.list).1 =
      w.append (((empty.list).2.append F).listEnd 0) := by
  have hl : ((w.list).2.append F).lheads[(w.list).1]? = some ⟨w.str.length, w.lhsize⟩ := by
    simp [list, append]
  have hl0 : ((empty.list).2.append F).lheads[0]? = some ⟨0, 0⟩ := by
    simp [list, append, empty]
  -- the list's size does not depend on what was written before it
  have hsize : F.str.length + (w.lhsize + F.lhsize) - w.lhsize = F.str.length + F.lhsize := by omega
  rw [listEnd, hl, listEnd, hl0]
  simp [list, append, empty, size, List.set_append_right, shift_comp_shift, Listhead.shift, hsize,
    Nat.add_assoc]

/-- The writer of a list appends when the writer of its elements does. -/
theorem Appends.wrapList {ε : Type} {op : Encbuf → Except ε Encbuf} (hop : Appends op) :
    Appends (wrapList op) := by
  intro w
  simp only [Encbuf.wrapList]
  rw [hop, hop (empty.list).2]
  cases op empty with
  | error e => rfl
  | ok F => simp [Except.map, listEnd_append, empty_append]

/-! ## Closed buffers -/

/-- The bookkeeping of a buffer whose lists are all closed: the headers come in
order within the string data, and {lit}`lhsize` is the total of their sizes. -/
structure Closed (w : Encbuf) : Prop where
  sorted : w.lheads.Pairwise fun a b => a.offset ≤ b.offset
  bounded : w.Bounded
  lhsize_eq : w.lhsize = (w.lheads.map fun h => headsize h.size).sum

/-- A list header takes {lit}`headsize` bytes. -/
theorem length_puthead (smalltag largetag : UInt8) (size : Nat) :
    (puthead smalltag largetag size).length = headsize size := by
  unfold puthead headsize
  split <;> simp [length_putint, Nat.add_comm]

/-- The copying loop over headers in order gives the string data and the headers' bytes. -/
theorem length_pieces (str : Bytes) :
    ∀ (hs : List Listhead) (p : Nat), hs.Pairwise (fun a b => a.offset ≤ b.offset) →
      (∀ h ∈ hs, p ≤ h.offset ∧ h.offset ≤ str.length) → p ≤ str.length →
      (pieces str hs p).length = str.length - p + (hs.map fun h => headsize h.size).sum
  | [], p, _, _, _ => by simp [pieces]
  | h :: hs, p, hsort, hb, hp => by
    obtain ⟨hph, hhs⟩ := hb h (List.mem_cons_self ..)
    have hrest := List.pairwise_cons.mp hsort
    have ih := length_pieces str hs h.offset hrest.2
      (fun h' hm => ⟨hrest.1 h' hm, (hb h' (List.mem_cons_of_mem _ hm)).2⟩) hhs
    simp only [pieces, List.length_append, List.length_take, List.length_drop, length_puthead, ih,
      List.map_cons, List.sum_cons]
    omega

/-- {lit}`toBytes` of a closed buffer has the length {lit}`size` reports. -/
theorem Closed.length_toBytes {w : Encbuf} (hw : w.Closed) : w.toBytes.length = w.size := by
  rw [toBytes, length_pieces w.str w.lheads 0 hw.sorted
    (fun h hm => ⟨Nat.zero_le _, hw.bounded h hm⟩) (Nat.zero_le _), size, hw.lhsize_eq]
  simp

/-- A buffer of bytes alone is closed. -/
theorem closed_write (b : Bytes) : (⟨b, [], 0⟩ : Encbuf).Closed :=
  ⟨List.Pairwise.nil, bounded_write b, rfl⟩

/-- Appending closed buffers gives a closed buffer. -/
theorem Closed.append {w f : Encbuf} (hw : w.Closed) (hf : f.Closed) : (w.append f).Closed where
  sorted := by
    simp only [lheads_append, List.pairwise_append, List.pairwise_map, List.mem_map]
    refine ⟨hw.sorted, hf.sorted.imp fun hab => ?_, ?_⟩
    · simp [Listhead.shift, hab]
    · rintro a ha _ ⟨b, -, rfl⟩
      have := hw.bounded a ha
      simp [Listhead.shift]
      omega
  bounded := hw.bounded.append hf.bounded
  lhsize_eq := by
    simp [hw.lhsize_eq, hf.lhsize_eq, List.map_map, Function.comp_def, Listhead.shift]

/-- The list writer around a closed payload: its bytes are the list header for the
payload's encoded length followed by the payload. -/
theorem toBytes_wrapList {ε : Type} {op : Encbuf → Except ε Encbuf} {F : Encbuf}
    (hop : op (empty.list).2 = .ok ((empty.list).2.append F)) (hF : F.Closed) :
    ∃ G, wrapList op empty = .ok G ∧ G.Closed ∧
      G.toBytes = puthead 0xC0 0xF7 F.toBytes.length ++ F.toBytes := by
  have hl0 : ((empty.list).2.append F).lheads[0]? = some ⟨0, 0⟩ := by
    simp [list, append, empty]
  refine ⟨((empty.list).2.append F).listEnd 0, by simp [Encbuf.wrapList, hop, Except.map]; rfl, ?_, ?_⟩
  all_goals rw [listEnd, hl0]
  · refine ⟨?_, ?_, ?_⟩
    · simp only [list, append, empty, List.length_nil, List.nil_append, List.cons_append,
        List.set_cons_zero, shift_zero, List.map_id_fun, id_eq, List.pairwise_cons]
      exact ⟨fun _ _ => Nat.zero_le _, hF.sorted⟩
    · intro h hm
      simp only [list, append, empty, List.length_nil, List.nil_append, List.cons_append,
        List.set_cons_zero, shift_zero, List.map_id_fun, id_eq, List.mem_cons] at hm
      rcases hm with rfl | hm
      · exact Nat.zero_le _
      · simpa [list, append, empty] using hF.bounded h hm
    · simp [list, append, empty, shift_zero, hF.lhsize_eq, Nat.add_comm]
  · have hlen : (pieces F.str F.lheads 0).length = F.str.length + F.lhsize := hF.length_toBytes
    simp [toBytes, pieces, list, append, empty, size, shift_zero, hlen]

end Encbuf

end Rlp
end Uranus
