import Uranus.Rlp.Writer
import Uranus.Rlp.Codec

/-!
# The encoder writes the item tree

Each writer of {lit}`makeWriter` refines the item semantics {lit}`Ty.items`: it
appends to any buffer what it writes into an empty one, and from scratch it leaves
a closed buffer whose bytes are the encodings of the value's items, or fails with
the error the item semantics names.  The proof follows the construction of the
writers: string writes, the element and field loops, and the list wrapper whose
header {lit}`listEnd` sizes from the payload written inside it.

Main results:

- Theorem {lit}`makeWriter_writesItems`: the refinement, for every type and tags.
- Theorem {lit}`EncodeToBytes_eq`: {lit}`EncodeToBytes` renders the item tree.
-/

namespace Uranus
namespace Rlp

open Encbuf

/-- A writer's result from an empty buffer against the items it should encode. -/
inductive Renders : Except CodecError Encbuf → Except CodecError (List Item) → Prop
  | ok {F : Encbuf} {is : List Item} : F.Closed → F.toBytes = Item.encodeAll is →
      Renders (.ok F) (.ok is)
  | error (e : CodecError) : Renders (.error e) (.error e)

/-- A writer refines an item semantics at every value. -/
def WritesItems (ew : Writer) (ei : ItemsOf) : Prop :=
  ∀ v, Appends (ew v) ∧ Renders (ew v Encbuf.empty) (ei v)

/-! ## String writes -/

/-- A buffer of bytes alone renders as those bytes. -/
theorem toBytes_frag (b : Bytes) : (⟨b, [], 0⟩ : Encbuf).toBytes = b := by
  simp [toBytes, pieces]

/-- Writing a string's encoding renders the string item. -/
theorem renders_str (c : Bytes) :
    Renders (.ok (Encbuf.empty.write (encodeString c))) (.ok [.str c]) :=
  .ok (closed_write _) (by simp [write, empty, toBytes_frag])

/-- The empty buffer is closed. -/
theorem closed_empty : Encbuf.empty.Closed := ⟨List.Pairwise.nil, fun _ h => (by cases h), rfl⟩

/-- The empty buffer renders no item. -/
theorem renders_empty : Renders (.ok Encbuf.empty) (.ok []) :=
  .ok closed_empty (by simp [toBytes, pieces, empty])

/-- An opened and closed list renders the empty list. -/
theorem renders_nil_list : Renders (wrapList (ε := CodecError) (.ok ·) Encbuf.empty) (.ok [.list []]) := by
  have hop : (fun w => (.ok w : Except CodecError Encbuf)) (empty.list).2 =
      .ok ((empty.list).2.append Encbuf.empty) := by
    simp [append_empty]
  obtain ⟨G, hG, hc, hb⟩ := toBytes_wrapList hop closed_empty
  rw [hG]
  exact .ok hc (by rw [hb]; simp [toBytes, pieces, empty])

/-- The loop of {lit}`intsize` never returns less than it starts from. -/
theorem size_le_intsize_go : ∀ (fuel i size : Nat), size ≤ intsize.go fuel i size
  | 0, _, _ => by simp [intsize.go]
  | fuel + 1, i, size => by
    unfold intsize.go
    split
    · exact Nat.le_refl _
    · exact Nat.le_of_succ_le (size_le_intsize_go fuel (i / 256) (size + 1))

/-- An integer below 256 is one byte. -/
theorem putint_of_lt {i : Nat} (h : i < 256) : putint i = [i.toUInt8] := by
  have hsize : intsize i = 1 := by
    simp [intsize, intsize.go, Nat.div_eq_of_lt h]
  simp [putint, hsize, Nat.mod_eq_of_lt h]

/-- An integer of 256 or more takes at least two bytes. -/
theorem one_lt_intsize {i : Nat} (h : 256 ≤ i) : 1 < intsize i := by
  have hdiv : i / 256 ≠ 0 := by omega
  have := size_le_intsize_go 7 (i / 256) (1 + 1)
  unfold intsize
  rw [intsize.go, if_neg hdiv]
  omega

/-- A string of other than one byte is its header and its bytes. -/
theorem encodeString_of_length_ne_one {b : Bytes} (h : b.length ≠ 1) :
    encodeString b = puthead 0x80 0xB7 b.length ++ b := by
  match b, h with
  | [], _ => rfl
  | _ :: _ :: _, _ => rfl

/-- {lit}`writeUint` writes the string of the integer's big-endian bytes. -/
theorem writeUint_eq (i : Nat) (w : Encbuf) : writeUint i w = w.write (encodeString (uintBytes i)) := by
  unfold writeUint uintBytes
  by_cases h0 : i = 0
  · simp [h0, encodeString, puthead]
  rw [if_neg h0, if_neg h0]
  by_cases hsmall : i < 128
  · -- a value below 128 is its own single byte
    have hx : i.toUInt8 ≤ 0x7F := by
      rw [UInt8.le_iff_toNat_le]
      simp [Nat.mod_eq_of_lt (by omega : i < 256)]
      omega
    rw [if_pos hsmall, putint_of_lt (by omega)]
    simp [encodeString, hx]
  rw [if_neg hsmall]
  by_cases hbyte : i < 256
  · -- one byte of 128 or more gets a one-byte string header
    have hx : ¬ i.toUInt8 ≤ 0x7F := by
      rw [UInt8.le_iff_toNat_le]
      simp [Nat.mod_eq_of_lt hbyte]
      omega
    rw [putint_of_lt hbyte]
    simp [encodeString, hx, puthead]
  · -- several bytes, never more than nine, so the header is one byte
    have hlen : (putint i).length ≠ 1 := by
      rw [length_putint]
      have := one_lt_intsize (by omega : 256 ≤ i)
      omega
    have hshort : (putint i).length < 56 := by
      have := intsize_le i
      rw [length_putint]
      omega
    rw [encodeString_of_length_ne_one hlen]
    simp [puthead, hshort]

/-! ## The loops -/

/-- The writer that writes nothing appends. -/
theorem appends_ok : Appends (ε := CodecError) fun w => .ok w := by
  intro w
  simp [Except.map, append_empty]

/-- A write followed by an appending one renders the two item lists in order. -/
theorem Renders.bind {x : Except CodecError Encbuf} {r : Except CodecError (List Item)}
    (hx : Renders x r) {op : Encbuf → Except CodecError Encbuf} (hop : Appends op)
    {s : Except CodecError (List Item)} (hs : Renders (op Encbuf.empty) s) :
    Renders (x >>= op) (do let is ← r; let rest ← s; pure (is ++ rest)) := by
  cases hx with
  | error e => exact .error e
  | @ok F is hF hb =>
    show Renders (op F) (do let rest ← s; pure (is ++ rest))
    rw [hop F]
    generalize op Encbuf.empty = y at hs ⊢
    cases hs with
    | error e => exact .error e
    | @ok G rest hG hbG =>
      exact .ok (hF.append hG) (by simp [toBytes_append hF.bounded, hb, hbG, encodeAll_append])

/-- Writing the elements one after another renders their items in order. -/
theorem writeElems_writesItems {ew : Writer} {ei : ItemsOf} :
    ∀ (vs : List Val), (∀ v ∈ vs, Appends (ew v) ∧ Renders (ew v Encbuf.empty) (ei v)) →
      Appends (writeElems ew vs) ∧ Renders (writeElems ew vs Encbuf.empty) (elemItems ei vs)
  | [], _ => ⟨appends_ok, by simpa [writeElems, elemItems] using renders_empty⟩
  | v :: vs, h => by
    obtain ⟨hav, hrv⟩ := h v (List.mem_cons_self ..)
    obtain ⟨has, hrs⟩ := writeElems_writesItems vs fun v' hm => h v' (List.mem_cons_of_mem _ hm)
    exact ⟨hav.bind has, hrv.bind has hrs⟩

/-- The pairing of field writers with the fields' item semantics. -/
def FieldsWrite : List (Tags × Writer) → List (Tags × ItemsOf) → Prop
  | [], [] => True
  | (ts, ew) :: fs, (ts', ei) :: gs => ts = ts' ∧ WritesItems ew ei ∧ FieldsWrite fs gs
  | _, _ => False

/-- Writing a struct's fields refines their item semantics, field by field. -/
theorem writeFields_writesItems :
    ∀ {fs : List (Tags × Writer)} {gs : List (Tags × ItemsOf)}, FieldsWrite fs gs →
      ∀ vs, Appends (writeFields fs vs) ∧ Renders (writeFields fs vs Encbuf.empty) (fieldItems gs vs)
  | [], [], _, [] => ⟨appends_ok, by simpa [writeFields, fieldItems] using renders_empty⟩
  | [], [], _, _ :: _ => ⟨fun _ => rfl, .error _⟩
  | (_, _) :: _, (_, _) :: _, ⟨rfl, _, _⟩, [] => ⟨fun _ => rfl, .error _⟩
  | (ts, ew) :: fs, (_, ei) :: gs, ⟨rfl, hw, hrest⟩, v :: vs => by
    obtain ⟨has, hrs⟩ := writeFields_writesItems hrest vs
    by_cases hig : ts.ignored
    · -- an ignored field writes nothing
      exact ⟨fun w => by simpa [writeFields, hig] using has w, by simpa [writeFields, fieldItems, hig] using hrs⟩
    · obtain ⟨hav, hrv⟩ := hw v
      refine ⟨fun w => by simpa [writeFields, hig] using (hav.bind has) w, ?_⟩
      simpa [writeFields, fieldItems, hig] using hrv.bind has hrs

/-! ## Lists -/

/-- A list around a payload that renders items renders the list item. -/
theorem wrapList_renders {op : Encbuf → Except CodecError Encbuf} {r : Except CodecError (List Item)}
    (hop : Appends op) (hr : Renders (op Encbuf.empty) r) :
    Renders (wrapList op Encbuf.empty) (r.map fun is => [.list is]) := by
  have hlist : op (empty.list).2 = (op Encbuf.empty).map ((empty.list).2.append ·) := hop _
  generalize op Encbuf.empty = y at hr hlist
  cases hr with
  | error e =>
    simp only [Encbuf.wrapList, hlist]
    exact .error e
  | @ok F is hF hb =>
    obtain ⟨G, hG, hc, hbG⟩ := toBytes_wrapList (F := F) hlist hF
    rw [hG]
    exact .ok hc (by simp [hbG, hb])

/-- {lit}`makeSliceWriter` refines {lit}`seqItems`. -/
theorem WritesItems.slice {ew : Writer} {ei : ItemsOf} (h : WritesItems ew ei) (ts : Tags) :
    WritesItems (makeSliceWriter ew ts) (seqItems ei ts) := by
  intro v
  cases v with
  | nil =>
    by_cases ht : ts.tail
    · exact ⟨fun w => by simpa [makeSliceWriter, ht] using appends_ok w, by
        simpa [makeSliceWriter, seqItems, ht] using renders_empty⟩
    · exact ⟨fun w => by simpa [makeSliceWriter, ht] using appends_ok.wrapList w, by
        simpa [makeSliceWriter, seqItems, ht] using renders_nil_list⟩
  | list vs =>
    obtain ⟨ha, hr⟩ := writeElems_writesItems vs fun v _ => h v
    by_cases ht : ts.tail
    · refine ⟨fun w => by simpa [makeSliceWriter, ht] using ha w, ?_⟩
      simp only [makeSliceWriter, seqItems, ht, if_true]
      generalize writeElems ew vs Encbuf.empty = x at hr ⊢
      generalize elemItems ei vs = y at hr ⊢
      cases hr with
      | error e => exact .error e
      | ok hF hb => exact .ok hF hb
    · refine ⟨fun w => by simpa [makeSliceWriter, ht] using ha.wrapList w, ?_⟩
      simpa [makeSliceWriter, seqItems, ht] using wrapList_renders ha hr
  | _ => exact ⟨fun _ => rfl, .error _⟩

/-- {lit}`makeStructWriter` refines {lit}`structItems`. -/
theorem WritesItems.struct {fs : List (Tags × Writer)} {gs : List (Tags × ItemsOf)}
    (h : FieldsWrite fs gs) : WritesItems (makeStructWriter fs) (structItems gs) := by
  intro v
  cases v with
  | list vs =>
    obtain ⟨ha, hr⟩ := writeFields_writesItems h vs
    exact ⟨fun w => by simpa [makeStructWriter] using ha.wrapList w,
      by simpa [makeStructWriter, structItems] using wrapList_renders ha hr⟩
  | _ => exact ⟨fun _ => rfl, .error _⟩

/-! ## Scalars and pointers -/

/-- The empty string is the byte 0x80. -/
@[simp]
theorem encodeString_nil : encodeString [] = [0x80] := rfl

/-- A writer of one string's encoding refines the string item. -/
theorem writesStr (c : Bytes) :
    Appends (ε := CodecError) (fun w => .ok (w.write (encodeString c))) ∧
      Renders (.ok (Encbuf.empty.write (encodeString c))) (.ok [.str c]) :=
  ⟨appends_write _, renders_str c⟩

/-- {lit}`writeBool` writes the string of the byte 1 for true and the empty string for false. -/
theorem writeBool_eq (b : Bool) (w : Encbuf) :
    writeBool b w = w.write (encodeString (if b then [1] else [])) := by
  cases b <;> rfl

/-- The writer of unsigned integers refines their item semantics. -/
theorem writesItems_uint (bits : Nat) (ts : Tags) :
    WritesItems (makeWriter (.uint bits) ts) ((Ty.uint bits).items ts) := by
  intro v
  cases v with
  | uint i =>
    have h := writesStr (uintBytes i)
    exact ⟨fun w => by simpa [makeWriter, writeUint_eq] using h.1 w,
      by simpa [makeWriter, Ty.items, writeUint_eq] using h.2⟩
  | _ => exact ⟨fun _ => rfl, .error _⟩

/-- The writer of booleans refines their item semantics. -/
theorem writesItems_bool (ts : Tags) : WritesItems (makeWriter .bool ts) (Ty.bool.items ts) := by
  intro v
  cases v with
  | bool b =>
    have h := writesStr (if b then [1] else [])
    exact ⟨fun w => by simpa [makeWriter, writeBool_eq] using h.1 w,
      by simpa [makeWriter, Ty.items, writeBool_eq] using h.2⟩
  | _ => exact ⟨fun _ => rfl, .error _⟩

/-- The writer of strings refines their item semantics. -/
theorem writesItems_string (ts : Tags) : WritesItems (makeWriter .string ts) (Ty.string.items ts) := by
  intro v
  cases v with
  | string c => exact writesStr c
  | _ => exact ⟨fun _ => rfl, .error _⟩

/-- The writer of big integers refines their item semantics. -/
theorem writesItems_bigInt (ts : Tags) : WritesItems (makeWriter .bigInt ts) (Ty.bigInt.items ts) := by
  intro v
  cases v with
  | nil => exact writesStr []
  | bigInt i =>
    by_cases hneg : i < 0
    · exact ⟨fun _ => by simp [makeWriter, writeBigIntPtr, writeBigInt, hneg, Except.map],
        by simpa [makeWriter, writeBigIntPtr, writeBigInt, Ty.items, bigIntItems, hneg] using .error _⟩
    · by_cases h0 : i = 0
      · have h := writesStr []
        exact ⟨fun w => by simpa [makeWriter, writeBigIntPtr, writeBigInt, h0] using h.1 w,
          by simpa [makeWriter, writeBigIntPtr, writeBigInt, Ty.items, bigIntItems, h0] using h.2⟩
      · have h := writesStr (bigBytes i.toNat)
        exact ⟨fun w => by simpa [makeWriter, writeBigIntPtr, writeBigInt, hneg, h0] using h.1 w,
          by simpa [makeWriter, writeBigIntPtr, writeBigInt, Ty.items, bigIntItems, hneg, h0] using h.2⟩
  | _ => exact ⟨fun _ => rfl, .error _⟩

/-- The writer of byte slices refines their item semantics. -/
theorem writesItems_bytes : WritesItems writeBytes bytesItems := by
  intro v
  cases v with
  | nil => exact writesStr []
  | bytes b => exact writesStr b
  | _ => exact ⟨fun _ => rfl, .error _⟩

/-- {lit}`makePtrWriter` refines {lit}`ptrItems`. -/
theorem WritesItems.ptr {ew : Writer} {ei : ItemsOf} (h : WritesItems ew ei) (elem : Ty) :
    WritesItems (makePtrWriter elem ew) (ptrItems elem ei) := by
  intro v
  cases v with
  | nil =>
    -- the nil handler depends on the element's kind
    cases elem with
    | array n e =>
      by_cases he : e.isByte
      · have hs := writesStr []
        exact ⟨fun w => by simpa [makePtrWriter, he] using hs.1 w,
          by simpa [makePtrWriter, ptrItems, he] using hs.2⟩
      · exact ⟨fun w => by simpa [makePtrWriter, he] using appends_ok.wrapList w,
          by simpa [makePtrWriter, ptrItems, he] using renders_nil_list⟩
    | struct fs =>
      exact ⟨fun w => by simpa [makePtrWriter] using appends_ok.wrapList w,
        by simpa [makePtrWriter, ptrItems] using renders_nil_list⟩
    | uint _ | bool | string | bigInt | slice _ | ptr _ => exact h _
  | ptr v => exact h v
  | _ => exact ⟨fun _ => rfl, .error _⟩

/-! ## The refinement -/

/-- Every writer {lit}`makeWriter` builds writes the encodings of the value's items. -/
theorem makeWriter_writesItems : ∀ (t : Ty) (ts : Tags), WritesItems (makeWriter t ts) (t.items ts)
  | .uint bits, ts => writesItems_uint bits ts
  | .bool, ts => writesItems_bool ts
  | .string, ts => writesItems_string ts
  | .bigInt, ts => writesItems_bigInt ts
  | .slice elem, ts => by
    by_cases he : elem.isByte
    · simpa [makeWriter, Ty.items, he] using writesItems_bytes
    · simpa [makeWriter, Ty.items, he] using (makeWriter_writesItems elem .none).slice ts
  | .array _ elem, ts => by
    by_cases he : elem.isByte
    · simpa [makeWriter, Ty.items, he] using writesItems_bytes
    · simpa [makeWriter, Ty.items, he] using (makeWriter_writesItems elem .none).slice ts
  | .struct fields, _ => by
    simpa [makeWriter, Ty.items] using WritesItems.struct (fieldsWrite fields)
  | .ptr elem, _ => (makeWriter_writesItems elem .none).ptr elem
where
  fieldsWrite : ∀ fs, FieldsWrite (makeWriter.fieldWriters fs) (Ty.items.fieldFns fs)
    | [] => trivial
    | (_, ts, t) :: fs => ⟨rfl, makeWriter_writesItems t ts, fieldsWrite fs⟩

/-- {lit}`EncodeToBytes` is the encoding of the value's items. -/
theorem EncodeToBytes_eq (t : Ty) (v : Val) :
    EncodeToBytes t v = (do t.check; let is ← t.items .none v; pure (Item.encodeAll is)) := by
  have hr := (makeWriter_writesItems t .none v).2
  unfold EncodeToBytes
  cases t.check with
  | error e => rfl
  | ok _ =>
    generalize makeWriter t .none v Encbuf.empty = x at hr ⊢
    generalize t.items .none v = y at hr ⊢
    cases hr with
    | error e => rfl
    | ok _ hb => simp [hb]

end Rlp
end Uranus
