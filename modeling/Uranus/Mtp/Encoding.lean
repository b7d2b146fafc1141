import Uranus.Lib.CommonPrefix
import Uranus.Utils.Types

/-!
# Trie key encodings (`common/mtp/util.go`)

A trie key is walked one nibble at a time.  {lit}`keybytesToHex` spells a byte
key as its nibbles followed by the terminator 16, {lit}`hexToCompact` packs a hex
key into the compact form stored inside short nodes, and {lit}`compactToHex`
unpacks it again.  Nibbles are {lean}`Fin 17`, so the only values a hex key can
hold are the sixteen nibbles and the terminator.

Main results:

- Theorem {lit}`hexToKeybytes_keybytesToHex`: byte keys survive the hex spelling.
- Theorems {lit}`compactToHex_hexToCompact_of_terminated` and
  {lit}`compactToHex_hexToCompact_of_isNibbles`: a hex key made of nibbles,
  optionally terminated, survives the compact packing.
- Theorem {lit}`keybytesToHex_terminated`: every spelled byte key is a run of
  nibbles closed by a single terminator.
- Theorem {lit}`nibble_encodings_round_trip`: the three facts together, with the
  compact packing one to one on such keys.
-/

namespace Uranus
namespace Mtp

open Lib

/-- One element of a hex key: a nibble {lit}`0..15` or the terminator {lit}`16`. -/
abbrev Nibble := Fin 17

/-- The high nibble of a byte. -/
def hiNibble (b : UInt8) : Nibble :=
  ⟨b.toNat / 16, by have := UInt8.toNat_lt b; omega⟩

/-- The low nibble of a byte. -/
def loNibble (b : UInt8) : Nibble :=
  ⟨b.toNat % 16, by omega⟩

/-- A nibble read back as a Go {lit}`byte`. -/
def nibbleByte (n : Nibble) : UInt8 := n.val.toUInt8

/-- {lit}`keybytesToHex`: the two nibbles of every byte, then the terminator. -/
def keybytesToHex (str : Bytes) : List Nibble :=
  str.flatMap (fun b => [hiNibble b, loNibble b]) ++ [16]

/-- {lit}`hasTerm`: whether a hex key ends with the terminator. -/
def hasTerm (s : List Nibble) : Bool :=
  s.getLast? == some 16

/-- {lit}`decodeNibbles`: pack consecutive nibble pairs into bytes.  Every caller
passes an even number of nibbles; the Go loop would index past an odd one. -/
def decodeNibbles : List Nibble → Bytes
  | a :: b :: rest => (nibbleByte a <<< 4 ||| nibbleByte b) :: decodeNibbles rest
  | _ => []

/-- {lit}`hexToKeybytes`: the byte key of an even-length hex key.  The Go function
panics on an odd length, which is {lean}`none` here. -/
def hexToKeybytes (hex : List Nibble) : Option Bytes :=
  let hex := if hasTerm hex then hex.dropLast else hex
  if hex.length % 2 = 0 then some (decodeNibbles hex) else none

/-- {lit}`hexToCompact`: a flag byte holding the terminator bit (5) and the odd-length
bit (4), with the first nibble of an odd key in its low half, then the packed rest. -/
def hexToCompact (hex : List Nibble) : Bytes :=
  let flag : UInt8 := (if hasTerm hex then (1 : UInt8) else 0) <<< 5
  let hex := if hasTerm hex then hex.dropLast else hex
  match hex with
  | h :: rest =>
    if hex.length % 2 = 1 then (flag ||| (1 : UInt8) <<< 4 ||| nibbleByte h) :: decodeNibbles rest
    else flag :: decodeNibbles hex
  | [] => [flag]

/-- {lit}`compactToHex`: unpack a compact key.  An empty input makes the Go code
index an empty slice and panic, which is {lean}`none` here. -/
def compactToHex (compact : Bytes) : Option (List Nibble) :=
  match (keybytesToHex compact).dropLast with
  | [] => none
  | f :: rest =>
    let base := if 2 ≤ f.val then f :: rest ++ [16] else f :: rest
    some (base.drop (2 - f.val % 2))

/-- {lit}`prefixLen`: the length of the common prefix of two hex keys. -/
def prefixLen (a b : List Nibble) : Nat := commonPrefixLen a b

example : hexToCompact [0, 15, 1, 12, 11, 8, 16] = [0x20, 0x0f, 0x1c, 0xb8] := by decide
example : compactToHex [0x3f, 0x1c, 0xb8] = some [15, 1, 12, 11, 8, 16] := by decide

/-! ## Nibble arithmetic -/

/-- A list of proper nibbles, without the terminator. -/
def IsNibbles (l : List Nibble) : Prop := ∀ x ∈ l, x.val < 16

/-- A hex key of a stored value: proper nibbles closed by one terminator. -/
def Terminated (k : List Nibble) : Prop := ∃ l, k = l ++ [16] ∧ IsNibbles l

/-- The high nibble of a packed pair of nibbles is the first. -/
theorem hiNibble_pack (a b : Nibble) (ha : a.val < 16) (hb : b.val < 16) :
    hiNibble (nibbleByte a <<< 4 ||| nibbleByte b) = a := by
  revert a b
  decide

/-- The low nibble of a packed pair of nibbles is the second. -/
theorem loNibble_pack (a b : Nibble) (ha : a.val < 16) (hb : b.val < 16) :
    loNibble (nibbleByte a <<< 4 ||| nibbleByte b) = b := by
  revert a b
  decide

set_option maxRecDepth 8000 in
/-- Packing the two nibbles of a byte gives the byte back, checked byte by byte. -/
theorem pack_hiNibble_loNibble_ofNat : ∀ n : Fin 256,
    nibbleByte (hiNibble (UInt8.ofNat n.val)) <<< 4 ||| nibbleByte (loNibble (UInt8.ofNat n.val)) =
      UInt8.ofNat n.val := by
  decide

/-- Packing the two nibbles of a byte gives the byte back. -/
theorem pack_hiNibble_loNibble (b : UInt8) :
    nibbleByte (hiNibble b) <<< 4 ||| nibbleByte (loNibble b) = b := by
  simpa using pack_hiNibble_loNibble_ofNat ⟨b.toNat, UInt8.toNat_lt b⟩

/-- A byte's high nibble is a nibble. -/
theorem hiNibble_lt (b : UInt8) : (hiNibble b).val < 16 := by
  have := UInt8.toNat_lt b
  simp only [hiNibble]
  omega

/-- A byte's low nibble is a nibble. -/
theorem loNibble_lt (b : UInt8) : (loNibble b).val < 16 := by
  simp only [loNibble]
  omega

/-- The nibble spelling of a byte string, without the terminator. -/
def spell (str : Bytes) : List Nibble := str.flatMap (fun b => [hiNibble b, loNibble b])

/-- No bytes spell no nibbles. -/
@[simp]
theorem spell_nil : spell [] = [] := rfl

/-- A byte is spelled as its high and then its low nibble. -/
@[simp]
theorem spell_cons (b : UInt8) (str : Bytes) :
    spell (b :: str) = hiNibble b :: loNibble b :: spell str := rfl

/-- {lit}`keybytesToHex` is the spelling with the terminator. -/
theorem keybytesToHex_eq_spell (str : Bytes) : keybytesToHex str = spell str ++ [16] := rfl

/-- A spelling has two nibbles per byte. -/
theorem length_spell (str : Bytes) : (spell str).length = 2 * str.length := by
  induction str with
  | nil => rfl
  | cons b str ih => simp [ih]; omega

/-- A spelling holds no terminator. -/
theorem spell_isNibbles (str : Bytes) : IsNibbles (spell str) := by
  induction str with
  | nil => intro x hx; simp at hx
  | cons b str ih =>
    intro x hx
    simp only [spell_cons, List.mem_cons] at hx
    rcases hx with rfl | rfl | hx
    · exact hiNibble_lt b
    · exact loNibble_lt b
    · exact ih x hx

/-- Every spelled byte key is terminated. -/
theorem keybytesToHex_terminated (str : Bytes) : Terminated (keybytesToHex str) :=
  ⟨spell str, rfl, spell_isNibbles str⟩

/-- {lit}`decodeNibbles` packs a spelling back into its bytes. -/
theorem decodeNibbles_spell (str : Bytes) : decodeNibbles (spell str) = str := by
  induction str with
  | nil => rfl
  | cons b str ih => simp [decodeNibbles, ih, pack_hiNibble_loNibble]

/-- Packing an even run of proper nibbles and spelling it again is the identity. -/
theorem spell_decodeNibbles (l : List Nibble) (hl : IsNibbles l) (heven : l.length % 2 = 0) :
    spell (decodeNibbles l) = l := by
  induction l using decodeNibbles.induct with
  | case1 a b rest ih =>
    have ha : a.val < 16 := hl a (by simp)
    have hb : b.val < 16 := hl b (by simp)
    have hrest : IsNibbles rest := fun x hx => hl x (by simp [hx])
    simp only [List.length_cons] at heven
    simp [decodeNibbles, hiNibble_pack a b ha hb, loNibble_pack a b ha hb,
      ih hrest (by omega)]
  | case2 l hnot =>
    cases l with
    | nil => rfl
    | cons a rest =>
      cases rest with
      | nil => simp at heven
      | cons b rest => exact absurd rfl (hnot a b rest)

/-- A key ending with the terminator has it. -/
@[simp]
theorem hasTerm_append_terminator (l : List Nibble) : hasTerm (l ++ [16]) = true := by
  simp [hasTerm]

/-- A key of nibbles has no terminator. -/
theorem hasTerm_of_isNibbles {l : List Nibble} (hl : IsNibbles l) : hasTerm l = false := by
  cases h : l.getLast? with
  | none => simp [hasTerm, h]
  | some x =>
    have hx : x ∈ l := List.mem_of_getLast? h
    have hlt := hl x hx
    have hne : x ≠ 16 := fun heq => by rw [heq] at hlt; exact absurd hlt (by decide)
    simp [hasTerm, h, hne]

/-- Byte keys survive the hex spelling. -/
theorem hexToKeybytes_keybytesToHex (str : Bytes) :
    hexToKeybytes (keybytesToHex str) = some str := by
  simp [hexToKeybytes, keybytesToHex_eq_spell, length_spell, decodeNibbles_spell]

/-- The flag byte of an odd {lit}`hexToCompact` key holds the flag nibble and the
first nibble of the key. -/
theorem flag_nibbles (t : Bool) (h : Nibble) (hh : h.val < 16) :
    hiNibble ((if t then (1 : UInt8) else 0) <<< 5 ||| (1 : UInt8) <<< 4 ||| nibbleByte h) =
        (if t then 3 else 1) ∧
      loNibble ((if t then (1 : UInt8) else 0) <<< 5 ||| (1 : UInt8) <<< 4 ||| nibbleByte h) =
        h := by
  revert t h
  decide

/-- The flag byte of an even {lit}`hexToCompact` key holds only the flag nibble. -/
theorem flag_nibbles_even (t : Bool) :
    hiNibble ((if t then (1 : UInt8) else 0) <<< 5) = (if t then 2 else 0) ∧
      loNibble ((if t then (1 : UInt8) else 0) <<< 5) = 0 := by
  revert t
  decide

/-- {lit}`compactToHex` reads the flag nibble of the first byte. -/
theorem compactToHex_cons (b : UInt8) (bs : Bytes) :
    compactToHex (b :: bs) =
      some ((if 2 ≤ (hiNibble b).val then hiNibble b :: loNibble b :: spell bs ++ [16]
        else hiNibble b :: loNibble b :: spell bs).drop (2 - (hiNibble b).val % 2)) := by
  have hhex : keybytesToHex (b :: bs) = (hiNibble b :: loNibble b :: spell bs) ++ [16] := rfl
  simp only [compactToHex, hhex, List.dropLast_concat]

/-- Unpacking after packing, for a run of proper nibbles and a terminator flag. -/
theorem compactToHex_pack (t : Bool) (l : List Nibble) (hl : IsNibbles l) :
    compactToHex (hexToCompact (if t then l ++ [16] else l)) =
      some (if t then l ++ [16] else l) := by
  have hterm : hasTerm (if t then l ++ [16] else l) = t := by
    cases t
    · simpa using hasTerm_of_isNibbles hl
    · simp
  have hstrip : (if t then (if t then l ++ [16] else l).dropLast
      else (if t then l ++ [16] else l)) = l := by
    cases t <;> simp
  simp only [hexToCompact, hterm, hstrip]
  cases l with
  | nil =>
    obtain ⟨hhi, hlo⟩ := flag_nibbles_even t
    rw [compactToHex_cons, hhi, hlo]
    cases t <;> rfl
  | cons h rest =>
    have hh : h.val < 16 := hl h (by simp)
    have hrest : IsNibbles rest := fun x hx => hl x (by simp [hx])
    dsimp only
    split
    · -- odd key: the first nibble shares the flag byte
      rename_i hodd
      obtain ⟨hhi, hlo⟩ := flag_nibbles t h hh
      have heven : rest.length % 2 = 0 := by simp at hodd; omega
      rw [compactToHex_cons, hhi, hlo, spell_decodeNibbles rest hrest heven]
      cases t <;> rfl
    · -- even key: the flag byte is followed by the packed nibbles
      rename_i hodd
      obtain ⟨hhi, hlo⟩ := flag_nibbles_even t
      have heven : (h :: rest).length % 2 = 0 := by omega
      rw [compactToHex_cons, hhi, hlo, spell_decodeNibbles (h :: rest) hl heven]
      cases t <;> rfl

/-- A hex key made of nibbles, optionally terminated, survives the compact packing. -/
theorem compactToHex_hexToCompact_of_terminated {k : List Nibble} (hk : Terminated k) :
    compactToHex (hexToCompact k) = some k := by
  obtain ⟨l, rfl, hl⟩ := hk
  simpa using compactToHex_pack true l hl

/-- The compact form of an extension key decodes to it. -/
theorem compactToHex_hexToCompact_of_isNibbles {k : List Nibble} (hk : IsNibbles k) :
    compactToHex (hexToCompact k) = some k := by
  simpa using compactToHex_pack false k hk

/-- The key encodings read back: a byte key through its nibbles, and a key of proper
nibbles, with or without the terminator, through its compact form, which is therefore
one to one on such keys. -/
theorem nibble_encodings_round_trip :
    (∀ k : Bytes, hexToKeybytes (keybytesToHex k) = some k) ∧
      (∀ h : List Nibble, IsNibbles h ∨ Terminated h →
        compactToHex (hexToCompact h) = some h) ∧
      (∀ h h' : List Nibble, IsNibbles h ∨ Terminated h → IsNibbles h' ∨ Terminated h' →
        hexToCompact h = hexToCompact h' → h = h') := by
  have hround : ∀ h : List Nibble, IsNibbles h ∨ Terminated h →
      compactToHex (hexToCompact h) = some h := by
    rintro h (hn | ht)
    · exact compactToHex_hexToCompact_of_isNibbles hn
    · exact compactToHex_hexToCompact_of_terminated ht
  refine ⟨hexToKeybytes_keybytesToHex, hround, fun h h' hh hh' heq => ?_⟩
  -- both keys are what the one compact key reads back as
  have hback := hround h hh
  rw [heq, hround h' hh'] at hback
  exact (Option.some.inj hback).symm

end Mtp
end Uranus
