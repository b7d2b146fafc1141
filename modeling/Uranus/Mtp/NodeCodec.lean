import Uranus.Mtp.Collapse
import Uranus.Rlp.Codec
import Uranus.Mtp.InsertSpec

/-!
# Decoding the blob of a node

The hasher stores a large node under the hash of its blob, the encoding of its
collapsed form, and {lit}`resolveHash` later reads the node back with
{lit}`decodeNode`.  This module proves that the round trip is faithful: the blob of
every inner node decodes to {lit}`Node.decoded`, which stores the same map and
collapses to the same form, provided the blobs of its large subnodes are stored
under their hashes.

Main results:

- Theorem {lit}`decodeRef_child`: a child reference reads back as
  {lit}`decodedChild`.
- Theorems {lit}`blobDecodes_short` and {lit}`blobDecodes_full`: one step of the
  round trip for each kind of inner node.
- Theorem {lit}`blobDecodes`: the round trip for every inner node, by induction on
  {lit}`Rep`.
- Theorem {lit}`decodeNode_empty_key_panics`: a two item list whose compact key is
  empty is not rejected but panics, as {lit}`compactToHex` reads the first byte of
  an empty key.
-/

namespace Uranus
namespace Mtp

open Rlp Lib

variable (sha : Bytes → Hash)

/-! ## Lists and references -/

/-- The ref decoder handed to {lit}`decodeShortWith` and {lit}`decodeFullWith` at fuel
{lit}`F + 1`. -/
abbrev refDecoder (F : Nat) (g : UInt16) : Bytes → Except DecodeError (Node × Bytes) :=
  decodeRefWith (fun b => decodeNodeFuel F none b g)

/-- The node decoder on the encoding of a list reads only that list. -/
theorem decodeNodeFuel_list (F : Nat) (hopt : Option Hash) (items : List Item)
    (hsize : (Item.encodeAll items).length < 256 ^ 8) (rest : Bytes) (g : UInt16) :
    decodeNodeFuel (F + 1) hopt ((Item.list items).encode ++ rest) g =
      match (CountValues (Item.encodeAll items)).toOption.getD 0 with
      | 2 => (decodeShortWith (refDecoder F g) hopt (Item.encodeAll items) g).mapError
          (wrapError "short")
      | 17 => (decodeFullWith (refDecoder F g) hopt (Item.encodeAll items) g).mapError
          (wrapError "full")
      | c => .error (.fail (.invalidElemCount c)) := by
  have hne : (Item.list items).encode ++ rest ≠ [] := by
    have hpos := (Item.list items).length_encode_pos hsize
    intro h
    have hlen := congrArg List.length h
    simp only [List.length_append, List.length_nil] at hlen
    omega
  -- the statement's match is the definition's own only when both are elaborated in one file
  rewrite [decodeNodeFuel, if_neg hne, splitList_encode items hsize rest]
  rfl

/-- A short node whose key is terminated holds a value. -/
theorem decodeShortWith_value (ref : Bytes → Except DecodeError (Node × Bytes))
    (hopt : Option Hash) (g : UInt16) {k : Bytes} (hk : k.length < 256 ^ 8) {key : List Nibble}
    (hkey : compactToHex k = some key) (hterm : hasTerm key = true) {v : Bytes}
    (hv : v.length < 256 ^ 8) :
    decodeShortWith ref hopt (Item.encodeAll [.str k, .str v]) g =
      .ok (.short key (.value v) ⟨hopt, g, false⟩) := by
  simp only [Item.encodeAll_cons, Item.encodeAll_nil]
  rw [decodeShortWith, splitString_encode k hk]
  simp only [hkey, hterm, if_true]
  rw [List.append_nil, ← List.append_nil (Item.str v).encode, splitString_encode v hv]

/-- A short node whose key is not terminated holds a reference. -/
theorem decodeShortWith_ref (ref : Bytes → Except DecodeError (Node × Bytes))
    (hopt : Option Hash) (g : UInt16) {k : Bytes} (hk : k.length < 256 ^ 8) {key : List Nibble}
    (hkey : compactToHex k = some key) (hterm : hasTerm key = false) {it : Item} {d : Node}
    {r : Bytes} (href : ref (it.encode ++ []) = .ok (d, r)) :
    decodeShortWith ref hopt (Item.encodeAll [.str k, it]) g =
      .ok (.short key d ⟨hopt, g, false⟩) := by
  simp only [Item.encodeAll_cons, Item.encodeAll_nil]
  rw [decodeShortWith, splitString_encode k hk]
  simp only [hkey, hterm, Bool.false_eq_true, if_false, href]

/-- A short node whose compact key is the empty string: {lit}`compactToHex` indexes the
empty hex key and panics, whatever follows the key. -/
theorem decodeShortWith_empty_key (ref : Bytes → Except DecodeError (Node × Bytes))
    (hopt : Option Hash) (g : UInt16) (it : Item) :
    decodeShortWith ref hopt (Item.encodeAll [.str [], it]) g = .error (.fail .panic) := by
  have hkey : compactToHex [] = none := rfl
  simp only [Item.encodeAll_cons, Item.encodeAll_nil]
  rw [decodeShortWith, splitString_encode [] (by norm_num)]
  simp only [hkey]

/-- {lit}`decodeNode` is not total: the encoding of a two-element list whose first
element is the empty string, a short node with an empty compact key, makes it
panic, for every second element, hash and cache generation. -/
theorem decodeNode_empty_key_panics (hopt : Option Hash) (g : UInt16) (it : Item)
    (hit : it.payload.length < 256 ^ 8)
    (hsize : (Item.encodeAll [.str [], it]).length < 256 ^ 8) :
    decodeNode hopt (Item.list [.str [], it]).encode g = .error (.fail .panic) := by
  have hcount : CountValues (Item.encodeAll [.str [], it]) = .ok 2 := by
    refine CountValues_encodeAll _ fun x hx => ?_
    simp only [List.mem_cons, List.not_mem_nil, or_false] at hx
    rcases hx with rfl | rfl
    · simp [Item.payload]
    · exact hit
  have hlist := decodeNodeFuel_list (Item.list [.str [], it]).encode.length hopt
    [.str [], it] hsize [] g
  rw [List.append_nil, hcount] at hlist
  rw [decodeNode, hlist]
  simp only [Except.toOption, Option.getD_some, decodeShortWith_empty_key, Except.mapError,
    wrapError, DecodeError.fail, if_true]

/-- The panic at the smallest such node, {lit}`0xc2 0x80 0x80`. -/
theorem decodeNode_empty_key_panics_smallest :
    (Item.list [.str [], .str []]).encode = [0xc2, 0x80, 0x80] ∧
      decodeNode none (Item.list [.str [], .str []]).encode 0 = .error (.fail .panic) :=
  ⟨by decide, decodeNode_empty_key_panics none 0 (.str []) (by decide) (by decide)⟩

/-- The loop of {lit}`decodeFull` reads one reference per item. -/
theorem decodeChildren_encodeAll (ref : Bytes → Except DecodeError (Node × Bytes)) :
    ∀ (items : List Item) (ds : List Node), ds.length = items.length →
      (∀ k (hk : k < items.length) (hd : k < ds.length) r,
        ref (items[k].encode ++ r) = .ok (ds[k], r)) →
      ∀ tail i, decodeChildren ref items.length i (Item.encodeAll items ++ tail) = .ok (ds, tail)
  | [], [], _, _, tail, i => rfl
  | it :: items, d :: ds, hlen, href, tail, i => by
    have h0 := href 0 (by simp) (by simp) (Item.encodeAll items ++ tail)
    simp only [List.getElem_cons_zero] at h0
    have ih := decodeChildren_encodeAll ref items ds (by simpa using hlen)
      (fun k hk hd r => by
        have h := href (k + 1) (by simpa using hk) (by simpa using hd) r
        rwa [List.getElem_cons_succ, List.getElem_cons_succ] at h)
      tail (i + 1)
    simp only [List.length_cons, Item.encodeAll_cons, List.append_assoc]
    rw [decodeChildren, h0]
    simp only [ih]
    rfl

/-- The node decoder on a list reads the same with bytes after it. -/
theorem decodeNodeFuel_append {c : Collapsed} {items : List Item} (hc : c.toItem = .list items)
    (hsize : c.encode.length < 256 ^ 8) (F : Nat) (hopt : Option Hash) (rest : Bytes)
    (g : UInt16) :
    decodeNodeFuel F hopt (c.encode ++ rest) g = decodeNodeFuel F hopt c.encode g := by
  have hpay : (Item.encodeAll items).length < 256 ^ 8 := by
    have := payload_length_le (Item.list items)
    simp only [Collapsed.encode, hc] at hsize
    simp only [Item.payload] at this
    omega
  cases F with
  | zero => rfl
  | succ F =>
    rw [← List.append_nil c.encode]
    simp only [Collapsed.encode, hc, decodeNodeFuel_list F hopt items hpay]
    rw [List.append_nil]
    simp only [decodeNodeFuel_list F hopt items hpay]

/-- A reference to a hash reads back as the hash node. -/
theorem decodeRefWith_hash (dec : Bytes → Except DecodeError Node) (h : Hash) (rest : Bytes) :
    decodeRefWith dec ((Collapsed.hash h).encode ++ rest) = .ok (.hash h, rest) := by
  have hlen := h.length_bytes
  have hkind : (Item.str h.bytes).kind = .String := kind_str_of_length_ne_one (by omega)
  have hsplit := split_encode (.str h.bytes) (by simp [Item.payload, hlen]) rest
  rw [hkind] at hsplit
  simp only [Collapsed.encode, Collapsed.toItem, decodeRefWith, hsplit, Item.payload]
  simp [hlen]

/-- An empty string reads back as nil. -/
theorem decodeRefWith_empty (dec : Bytes → Except DecodeError Node) (rest : Bytes) :
    decodeRefWith dec (Collapsed.empty.encode ++ rest) = .ok (.nil, rest) := by
  have hsplit := split_encode (.str []) (by simp [Item.payload]) rest
  simp only [Collapsed.encode, Collapsed.toItem, decodeRefWith, hsplit, Item.payload]
  rfl

/-- An embedded list reads back as the decoder makes of it. -/
theorem decodeRefWith_embedded (dec : Bytes → Except DecodeError Node) {c : Collapsed}
    {items : List Item} (hc : c.toItem = .list items) (hsmall : c.encode.length < 32)
    (rest : Bytes) :
    decodeRefWith dec (c.encode ++ rest) = (dec (c.encode ++ rest)).map fun n => (n, rest) := by
  have hpay : (Item.list items).payload.length < 256 ^ 8 := by
    have := payload_length_le (Item.list items)
    simp only [Collapsed.encode, hc] at hsmall
    omega
  have hsplit := split_encode (.list items) hpay rest
  simp only [Collapsed.encode, hc] at hsmall ⊢
  simp only [decodeRefWith, hsplit, Item.kind, if_true, List.length_append]
  rw [if_neg (by omega)]


section Decodes

variable {S : Hash → Bytes → Prop}

/-- The blob of a node decodes, at any hash and generation, to its decoded form,
which stores the same map and collapses the same. -/
def BlobDecodes (S : Hash → Bytes → Prop) (n : Node) (m : Content) : Prop :=
  ∀ F hopt g, (n.blob sha).length < F →
    decodeNodeFuel F hopt (n.blob sha) g = .ok (n.decoded sha g hopt) ∧
      Rep S (n.decoded sha g hopt) m ∧ (n.decoded sha g hopt).collapse sha = n.collapse sha

/-- A large node is stood for by the hash node of its blob. -/
theorem rep_hash_of_decodes {c : Node} {mc : Content} (hS : S (sha (c.blob sha)) (c.blob sha))
    (hdec : BlobDecodes sha S c mc) : Rep S (.hash (sha (c.blob sha))) mc :=
  Rep.hash hS (fun g => c.decoded sha g (some (sha (c.blob sha))))
    (fun g => (hdec _ _ g (Nat.lt_succ_self _)).1)
    (fun g => (hdec _ _ g (Nat.lt_succ_self _)).2.1)

/-- A stored inner node is stored whole: the blob of the node itself is in the store. -/
theorem Node.Stored.big {c : Node} (hinner : c.isInner = true) (hst : c.Stored sha S) :
    BigStored sha S c := by
  cases c with
  | short key val f => exact hst.1
  | full cs f => exact hst.1
  | _ => simp [Node.isInner] at hinner

/-- An inner child is referenced in place when small and by its hash when large;
either way the reference reads back as {lit}`decodedChild`. -/
theorem decodeRef_inner {c : Node} {mc : Content} (hinner : c.isInner = true)
    (hdec : c.Stored sha S → (c.blob sha).length < 256 ^ 8 → BlobDecodes sha S c mc)
    (hst : c.Stored sha S) {F : Nat} (hF : (c.ref sha).encode.length < F) (g : UInt16)
    (rest : Bytes) :
    refDecoder F g ((c.ref sha).encode ++ rest) =
        .ok (decodedChild sha c (c.decoded sha g none), rest) ∧
      Rep S (decodedChild sha c (c.decoded sha g none)) mc ∧
      (decodedChild sha c (c.decoded sha g none)).ref sha = c.ref sha := by
  obtain ⟨items, hitems⟩ := toItem_collapse_of_isInner sha hinner
  rw [ref_of_isInner sha hinner] at hF ⊢
  rw [decodedChild_of_isInner sha hinner]
  by_cases hsmall : (c.blob sha).length < 32
  · -- embedded: the child's own encoding is read back in place
    rw [if_pos hsmall] at hF ⊢
    rw [if_pos hsmall]
    have hd := hdec hst (by omega) F none g hF
    refine ⟨?_, hd.2.1, ?_⟩
    · unfold refDecoder
      rw [decodeRefWith_embedded _ hitems hsmall rest,
        decodeNodeFuel_append hitems (by unfold Node.blob at hsmall; omega) F none rest g]
      change (decodeNodeFuel F none (c.blob sha) g).map _ = _
      rw [hd.1]
      rfl
    · have hblob : (c.decoded sha g none).blob sha = c.blob sha := by
        unfold Node.blob
        rw [hd.2.2]
      rw [ref_of_isInner sha (decoded_isInner sha hinner g none), hblob, if_pos hsmall, hd.2.2]
  · -- large: the hash of the blob, which decodes by the induction
    rw [if_neg hsmall]
    rw [if_neg hsmall]
    obtain ⟨hS, hsize⟩ := hst.big sha hinner (by omega)
    exact ⟨decodeRefWith_hash _ _ rest, rep_hash_of_decodes sha hS (hdec hst hsize), rfl⟩

/-- A child reference reads back as {lit}`decodedChild`, which stores the child's map
and is referenced the same. -/
theorem decodeRef_child {c : Node} {mc : Content} (hrep : Rep S c mc) (hnv : ∀ v, c ≠ .value v)
    (hdec : c.isInner = true → c.Stored sha S → (c.blob sha).length < 256 ^ 8 →
      BlobDecodes sha S c mc)
    (hst : c.Stored sha S) {F : Nat} (hF : (c.ref sha).encode.length < F) (g : UInt16)
    (rest : Bytes) :
    refDecoder F g ((c.ref sha).encode ++ rest) =
        .ok (decodedChild sha c (c.decoded sha g none), rest) ∧
      Rep S (decodedChild sha c (c.decoded sha g none)) mc ∧
      (decodedChild sha c (c.decoded sha g none)).ref sha = c.ref sha := by
  cases c with
  | nil =>
    refine ⟨decodeRefWith_empty _ rest, ?_, rfl⟩
    rw [hrep.nil_content]
    exact Rep.nil
  | value v => exact absurd rfl (hnv v)
  | hash h => exact ⟨decodeRefWith_hash _ h rest, hrep, rfl⟩
  | short key val f => exact decodeRef_inner sha rfl (hdec rfl) hst hF g rest
  | full cs f => exact decodeRef_inner sha rfl (hdec rfl) hst hF g rest

/-! ## Short nodes -/

/-- The blob of a short node: the list of its compact key and the reference to its value. -/
theorem blob_short (key : List Nibble) (val : Node) (f : NodeFlag) :
    (Node.short key val f).blob sha =
      (Item.list [.str (hexToCompact key), (shortRef sha val).toItem]).encode := by
  simp only [Node.blob, collapse_short]
  rfl

/-- A short node's blob decodes: a terminated key to a value, a key of nibbles to a
reference, read back by the induction on the child. -/
theorem blobDecodes_short {key : List Nibble} {val : Node} {f : NodeFlag} {m : Content}
    (hkey : key ≠ []) (hshape : ShortShape key m) (hval : Rep S val m) (hsplit : KeyMap.Splits m)
    (ih : val.isInner = true → val.Stored sha S → (val.blob sha).length < 256 ^ 8 →
      BlobDecodes sha S val m)
    (hst : val.Stored sha S)
    (hsize : ((Node.short key val f).blob sha).length < 256 ^ 8) :
    BlobDecodes sha S (.short key val f) (KeyMap.prefixed key m) := by
  intro F hopt g hF
  obtain ⟨F, rfl⟩ : ∃ F', F = F' + 1 := ⟨F - 1, by omega⟩
  rw [blob_short] at hF hsize ⊢
  have hk := encode_length_lt_list
    (show Item.str (hexToCompact key) ∈ [.str (hexToCompact key), (shortRef sha val).toItem] by simp)
  have hc := encode_length_lt_list
    (show (shortRef sha val).toItem ∈ [.str (hexToCompact key), (shortRef sha val).toItem] by simp)
  have hpay := payload_length_lt_list [.str (hexToCompact key), (shortRef sha val).toItem]
  have hkp := payload_length_le (.str (hexToCompact key))
  simp only [Item.payload] at hkp
  rw [← List.append_nil (Item.list _).encode, decodeNodeFuel_list F hopt _ (by omega),
    CountValues_encodeAll _ (fun it hit => payload_length_lt_of_mem hit hsize)]
  rcases hshape with ⟨hterm, hend⟩ | ⟨hnib, hterm⟩
  · -- a terminated key holds a value
    obtain ⟨v, rfl, hv⟩ := (hval.nil_or_value_of_atEnd hend).resolve_left (by
      rintro rfl
      obtain ⟨q, hq⟩ := hsplit.occupied
      rw [hval.nil_content] at hq
      exact hq rfl)
    have hvp := payload_length_le (.str v)
    simp only [Item.payload] at hvp
    have hm := hval.value_content
    subst hm
    simp only [shortRef, Collapsed.toItem] at hk hc hvp hF hsize hpay ⊢
    rw [decodeShortWith_value _ hopt g (by omega) (compactToHex_hexToCompact_of_terminated hterm)
      (by obtain ⟨l, rfl, -⟩ := hterm; exact hasTerm_append_terminator l) (by omega)]
    exact ⟨rfl, Rep.short hkey (.inl ⟨hterm, hend⟩) hval hsplit, rfl⟩
  · -- a key of nibbles holds a reference to a full node
    have hnv := hval.ne_value_of_terminal hterm
    rw [shortRef_of_ne_value sha hnv] at hk hc hF hsize hpay ⊢
    obtain ⟨hdec, hrep', href⟩ := decodeRef_child sha hval hnv ih hst
      (F := F) (by simp only [Collapsed.encode] at hc ⊢; omega) g []
    rw [decodeShortWith_ref _ hopt g (by omega) (compactToHex_hexToCompact_of_isNibbles hnib)
      (hasTerm_of_isNibbles hnib) hdec]
    refine ⟨rfl, Rep.short hkey (.inr ⟨hnib, hterm⟩) hrep' hsplit, ?_⟩
    have hnv' : ∀ v, decodedChild sha val (val.decoded sha g none) ≠ .value v := by
      intro v hv
      rw [hv] at hrep'
      exact hrep'.ne_value_of_terminal hterm v rfl
    simp only [Node.decoded, collapse_short, shortRef_of_ne_value sha hnv',
      shortRef_of_ne_value sha hnv, href]

/-! ## Full nodes -/

/-- The items of a full node's blob. -/
def fullItems (cs : Fin 17 → Node) : List Item :=
  (List.finRange 17).map fun i =>
    (if i.val < 16 then (cs i).ref sha else Collapsed.ofValueSlot (cs i)).toItem

/-- The blob of a full node: the list of its seventeen slot items. -/
theorem blob_full (cs : Fin 17 → Node) (f : NodeFlag) :
    (Node.full cs f).blob sha = (Item.list (fullItems sha cs)).encode := by
  simp only [Node.blob, collapse_full]
  rfl

/-- Sixteen references, then the value slot. -/
theorem fullItems_split (cs : Fin 17 → Node) :
    fullItems sha cs = (List.finRange 16).map (fun j => ((cs j.castSucc).ref sha).toItem) ++
      [(Collapsed.ofValueSlot (cs 16)).toItem] := by
  unfold fullItems
  rw [List.finRange_succ_last, List.map_append, List.map_map]
  rfl

/-- Each slot's item is among the items of a full node's blob. -/
theorem mem_fullItems (cs : Fin 17 → Node) (i : Fin 17) :
    (if i.val < 16 then (cs i).ref sha else Collapsed.ofValueSlot (cs i)).toItem ∈
      fullItems sha cs :=
  List.mem_map.mpr ⟨i, List.mem_finRange i, rfl⟩

/-- Reading index {lit}`k` of a list built over {lit}`Fin n` gives the function at {lit}`k`. -/
theorem getD_map_finRange {α : Type*} {n : Nat} (f : Fin n → α) (d : α) {k : Nat} (hk : k < n) :
    ((List.finRange n).map f).getD k d = f ⟨k, hk⟩ := by
  rw [List.getD_eq_getElem?_getD, List.getElem?_map,
    List.getElem?_eq_getElem (by simp; omega), List.getElem_finRange]
  simp

/-- The children {lit}`decodeFull` reads back are those of {lit}`Node.decoded`. -/
theorem fullChildren_decoded (cs : Fin 17 → Node) (g : UInt16) {val : Bytes}
    (hval : cs 16 = .nil ∧ val = [] ∨ cs 16 = .value val ∧ val ≠ []) :
    fullChildren ((List.finRange 16).map fun j =>
        decodedChild sha (cs j.castSucc) ((cs j.castSucc).decoded sha g none)) val =
      fun i => if i.val < 16 then decodedChild sha (cs i) ((cs i).decoded sha g none) else cs i := by
  funext i
  unfold fullChildren
  by_cases hi : i.val < 16
  · rw [if_pos hi, if_pos hi, getD_map_finRange _ _ hi]
    have : (⟨i.val, hi⟩ : Fin 16).castSucc = i := Fin.ext rfl
    rw [this]
  · rw [if_neg hi, if_neg hi]
    have hi16 : i = 16 := by omega
    subst hi16
    rcases hval with ⟨h16, rfl⟩ | ⟨h16, hv⟩
    · simp [h16]
    · rw [h16, if_pos (List.length_pos_of_ne_nil hv)]

/-- {lit}`decodeFull` on sixteen references and a value string. -/
theorem decodeFullWith_encodeAll (ref : Bytes → Except DecodeError (Node × Bytes))
    (hopt : Option Hash) (g : UInt16) (items : List Item) (ds : List Node)
    (hitems : items.length = 16) (hds : ds.length = 16)
    (href : ∀ k (hk : k < items.length) (hd : k < ds.length) r,
      ref (items[k].encode ++ r) = .ok (ds[k], r))
    {val : Bytes} (hv : val.length < 256 ^ 8) :
    decodeFullWith ref hopt (Item.encodeAll (items ++ [.str val])) g =
      .ok (.full (fullChildren ds val) ⟨hopt, g, false⟩) := by
  have hloop := decodeChildren_encodeAll ref items ds (by omega) href
    (Item.encodeAll [.str val]) 0
  rw [hitems] at hloop
  rw [decodeFullWith, encodeAll_append, hloop]
  simp only [Item.encodeAll_cons, Item.encodeAll_nil]
  rw [splitString_encode val hv]

/-- The value slot of a full node storing a map at the end is an empty string or a
value, either way a string item. -/
theorem valueSlot_item {c : Node} {mc : Content} (hrep : Rep S c mc) (hend : AtEnd mc) :
    ∃ val, (c = .nil ∧ val = [] ∨ c = .value val ∧ val ≠ []) ∧
      (Collapsed.ofValueSlot c).toItem = .str val := by
  rcases hrep.nil_or_value_of_atEnd hend with rfl | ⟨v, rfl, hv⟩
  · exact ⟨[], .inl ⟨rfl, rfl⟩, rfl⟩
  · exact ⟨v, .inr ⟨rfl, hv⟩, rfl⟩

/-- A full node's blob decodes: each of the sixteen references by the induction on
the child, and the value slot as a string. -/
theorem blobDecodes_full {cs : Fin 17 → Node} {f : NodeFlag} {ms : Fin 17 → Content}
    (hcs : ∀ i, Rep S (cs i) (ms i)) (hslot : ∀ i, ShortShape [i] (ms i))
    (hsplit : KeyMap.Splits (KeyMap.branch ms))
    (ih : ∀ i, (cs i).isInner = true → (cs i).Stored sha S → ((cs i).blob sha).length < 256 ^ 8 →
      BlobDecodes sha S (cs i) (ms i))
    (hst : ∀ i, (cs i).Stored sha S)
    (hsize : ((Node.full cs f).blob sha).length < 256 ^ 8) :
    BlobDecodes sha S (.full cs f) (KeyMap.branch ms) := by
  intro F hopt g hF
  obtain ⟨F, rfl⟩ : ∃ F', F = F' + 1 := ⟨F - 1, by omega⟩
  rw [blob_full] at hF hsize ⊢
  have hitem := fun i => encode_length_lt_list (mem_fullItems sha cs i)
  have hpay := payload_length_lt_list (fullItems sha cs)
  have hlen : (fullItems sha cs).length = 17 := by simp [fullItems]
  rw [← List.append_nil (Item.list _).encode, decodeNodeFuel_list F hopt _ (by omega),
    CountValues_encodeAll _ (fun it hit => payload_length_lt_of_mem hit hsize), hlen]
  -- the sixteen references read back by the induction on each child
  have hchild : ∀ i : Fin 17, i.val < 16 → ∀ r,
      refDecoder F g (((cs i).ref sha).encode ++ r) =
          .ok (decodedChild sha (cs i) ((cs i).decoded sha g none), r) ∧
        Rep S (decodedChild sha (cs i) ((cs i).decoded sha g none)) (ms i) ∧
        (decodedChild sha (cs i) ((cs i).decoded sha g none)).ref sha = (cs i).ref sha := by
    intro i hi r
    have hterm := ((shortShape_singleton_iff.mp (hslot i)).resolve_left
      (fun h => by rw [h.1] at hi; exact absurd hi (by decide))).2
    have hF' := hitem i
    rw [if_pos hi] at hF'
    exact decodeRef_child sha (hcs i) ((hcs i).ne_value_of_terminal hterm) (ih i) (hst i)
      (by unfold Collapsed.encode; omega) g r
  -- the value slot reads back as a string
  have hend := ((shortShape_singleton_iff.mp (hslot 16)).resolve_right (fun h => h.1 rfl)).2
  obtain ⟨val, hval, hvitem⟩ := valueSlot_item (hcs 16) hend
  have hvsize : val.length < 256 ^ 8 := by
    have h16 := hitem 16
    have hvp := payload_length_le (.str val)
    rw [if_neg (by decide), hvitem] at h16
    simp only [Item.payload] at hvp
    omega
  have hdecFull := decodeFullWith_encodeAll (refDecoder F g) hopt g
    ((List.finRange 16).map fun j => ((cs j.castSucc).ref sha).toItem)
    ((List.finRange 16).map fun j =>
      decodedChild sha (cs j.castSucc) ((cs j.castSucc).decoded sha g none))
    (by simp) (by simp)
    (fun k hk hd r => by
      simp only [List.getElem_map, List.getElem_finRange]
      exact (hchild _ (by simpa using hk) r).1) hvsize
  rw [fullItems_split, hvitem, hdecFull, fullChildren_decoded sha cs g hval]
  refine ⟨rfl, ?_, ?_⟩
  · -- the children store the maps of the original ones
    refine Rep.full (fun i => ?_) hslot hsplit
    by_cases hi : i.val < 16
    · simp only [if_pos hi]
      exact (hchild i hi []).2.1
    · simp only [if_neg hi]
      exact hcs i
  · -- and collapse to the same references
    simp only [Node.decoded, collapse_full]
    congr 1
    funext i
    by_cases hi : i.val < 16
    · simp only [if_pos hi]
      exact (hchild i hi []).2.2
    · simp only [if_neg hi]

/-! ## Every inner node -/

/-- Every inner node with stored large subnodes and a blob of Go's sizes has a blob
that decodes to its decoded form. -/
theorem blobDecodes {n : Node} {m : Content} (hrep : Rep S n m) :
    n.isInner = true → n.Stored sha S → (n.blob sha).length < 256 ^ 8 → BlobDecodes sha S n m := by
  induction hrep with
  | nil => intro h; cases h
  | value hv => intro h; cases h
  | hash hS dec hdec hrep ih => intro h; cases h
  | short hkey hshape hval hsplit ih =>
    intro _ hst hsize
    exact blobDecodes_short sha hkey hshape hval hsplit ih hst.2 hsize
  | full hcs hslot hsplit ih =>
    intro _ hst hsize
    exact blobDecodes_full sha hcs hslot hsplit ih hst.2 hsize

/-- The round trip of {lit}`decodeNode` on what the hasher stores: for a node of the
shape insertion and deletion build, whose large subnodes are stored, the blob of its
collapsed form decodes, under any hash and generation, to a node that collapses to
the same form and stores the same map.  Its keys are the node's, and each child is
what {lit}`decodedChild` says: nil, hash and value children as they were, a small
child decoded in place, a large one as the hash node of its blob. -/
theorem decodeNode_blob {n : Node} {m : Content} (hrep : Rep S n m) (hinner : n.isInner = true)
    (hst : n.Stored sha S) (hsize : (n.blob sha).length < 256 ^ 8) (hopt : Option Hash)
    (g : UInt16) :
    decodeNode hopt (n.blob sha) g = .ok (n.decoded sha g hopt) ∧
      (n.decoded sha g hopt).collapse sha = n.collapse sha ∧ Rep S (n.decoded sha g hopt) m := by
  obtain ⟨hdec, hrep', hcoll⟩ :=
    blobDecodes sha hrep hinner hst hsize ((n.blob sha).length + 1) hopt g (Nat.lt_succ_self _)
  exact ⟨hdec, hcoll, hrep'⟩

end Decodes

/-- A value of forty bytes: a leaf that holds it is too long to be embedded. -/
def longValue : Bytes := List.replicate 40 7

/-- The trie of the keys 0x01 and 0x02, as two updates of an empty trie build it: an
extension node of the nibble 0 over a full node, whose child 1 holds the long value.
The full node's blob is longer than a hash, so the extension's blob holds it by its
32-byte hash, and the decoder reads a hash node there. -/
theorem decodeNode_blob_extension :
    let t₀ : Trie := ⟨Database.NewDatabase (fun _ => none), .nil, emptyRoot, [], 0, 0⟩
    ∃ n, ((t₀.TryUpdate [1] longValue).bind fun t => t.TryUpdate [2] [2]) =
        .ok { t₀ with root := n } ∧
      decodeNode none (n.blob BytesToHash) 0 = .ok (n.decoded BytesToHash 0 none) ∧
      (n.decoded BytesToHash 0 none).collapse BytesToHash = n.collapse BytesToHash ∧
      Rep (fun _ _ => True) (n.decoded BytesToHash 0 none)
        (Function.update (Function.update (fun _ => none) (keybytesToHex [1]) (some longValue))
          (keybytesToHex [2]) (some [2])) ∧
      (n.blob BytesToHash).take 3 = [0xe2, 0x10, 0xa0] := by
  intro t₀
  -- the fresh database holds no blob, so it agrees with any relation
  have hD : DbAgrees (fun _ _ => True) t₀.db := by
    intro h enc enc' _ hn hne
    by_cases hz : h = Hash.zero
    · subst hz
      cases hn
      exact absurd rfl hne
    · simp [t₀, Database.NewDatabase, Database.Node, Database.cached, hz] at hn
  -- the root an update builds is the closed term it computes
  have hroot : ∀ {r : Except TrieError Trie} {T : Trie} {n : Node},
      r = .ok { T with root := n } → n = (r.toOption.map Trie.root).getD .nil := by
    rintro r T n rfl
    rfl
  rcases TryUpdate_insert_spec t₀ hD Rep.nil terminal_empty [1] longValue (by decide) with
    ⟨n₁, h₁, hrep₁⟩ | ⟨e, he⟩
  swap
  · cases he
  have hterm := terminal_empty.update (q := keybytesToHex [1]) (w := some longValue)
    (.inr (keybytesToHex_terminated _))
  rcases TryUpdate_insert_spec { t₀ with root := n₁ } hD hrep₁ hterm [2] [2] (by decide) with
    ⟨n₂, h₂, hrep₂⟩ | ⟨e, he⟩
  · have hrun : ((t₀.TryUpdate [1] longValue).bind fun t => t.TryUpdate [2] [2]) =
        .ok { t₀ with root := n₂ } := by
      rw [h₁]
      exact h₂
    obtain rfl := hroot h₂
    obtain rfl := hroot h₁
    obtain ⟨hdec, hcoll, hrep⟩ := decodeNode_blob BytesToHash hrep₂ (by decide) (by decide)
      (by decide) none 0
    exact ⟨_, hrun, hdec, hcoll, hrep, by decide +kernel⟩
  · obtain rfl := hroot h₁
    cases he

end Mtp
end Uranus
