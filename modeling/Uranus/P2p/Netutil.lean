import Uranus.Utils.Types

/-!
# IP addresses and subnet counters ({lit}`p2p/netutil/net.go`)

The discovery table keeps at most a few addresses of one {lit}`/24` subnet.  It
counts them in a {lit}`DistinctNetSet`, a map from the truncated address (the key,
a type byte followed by the first {lit}`Subnet` bits) to the number of addresses
added under it, and it exempts local addresses, which {lit}`IsLAN` recognises from
the private and link-local ranges.

The helpers of Go's {lit}`net` package that these functions call ({lit}`To4`,
{lit}`IPNet.Contains`, {lit}`CIDRMask`) are modelled by their documented behaviour,
for networks in the form {lit}`net.ParseCIDR` produces.

Main results:

- Theorems {lit}`DistinctNetSet.Add_members` and {lit}`DistinctNetSet.Remove_members`:
  what one call does to every counter.
- Theorem {lit}`DistinctNetSet.Bounded.Add` and {lit}`DistinctNetSet.Bounded.Remove`:
  no counter ever passes the set's limit.
-/

namespace Uranus
namespace Netutil

/-- A Go {lit}`net.IP`: four bytes for IPv4, sixteen for IPv6. -/
abbrev IP := Bytes

/-- {lit}`net.IP.To4`: the four byte form of an IPv4 address, also when it is written
in the sixteen byte IPv4-mapped form. -/
def To4 (ip : IP) : Option IP :=
  if ip.length = 4 then some ip
  else if ip.length = 16 ∧ (ip.take 10).all (· == 0) ∧ ip.getD 10 0 = 0xff ∧
      ip.getD 11 0 = 0xff then
    some (ip.drop 12)
  else none

/-- {lit}`net.IPv6loopback`, the address {lit}`::1`. -/
def IPv6loopback : IP := List.replicate 15 0 ++ [1]

/-- {lit}`net.IP.IsLoopback`.  An address that is not IPv4 has no four byte form, so
{lit}`Equal` compares it with {lit}`::1` byte by byte. -/
def IsLoopback (ip : IP) : Bool :=
  match To4 ip with
  | some ip4 => ip4.getD 0 0 == 127
  | none => ip == IPv6loopback

/-- {lit}`net.CIDRMask ones bits`: the first {lit}`ones` of {lit}`bits` bits set. -/
def CIDRMask (ones bits : Nat) : Bytes :=
  (List.range (bits / 8)).map fun i =>
    if 8 * (i + 1) ≤ ones then 0xff else ~~~ ((0xff : UInt8) >>> (ones - 8 * i).toUInt8)

/-- A {lit}`net.IPNet` as {lit}`ParseCIDR` returns it: the network address and its
mask, both four bytes long for IPv4 and sixteen for IPv6. -/
structure IPNet where
  IP : Bytes
  Mask : Bytes
deriving DecidableEq

/-- {lit}`IPNet.Contains`: the address, in its four byte form if it has one, is as long
as the network and agrees with it on every bit of the mask. -/
def IPNet.Contains (n : IPNet) (ip : Netutil.IP) : Bool :=
  let ip := (To4 ip).getD ip
  ip.length == n.IP.length &&
    List.zipWith (· &&& ·) n.IP n.Mask == List.zipWith (· &&& ·) ip n.Mask

/-- {lit}`Netlist`, a list of networks. -/
abbrev Netlist := List IPNet

/-- {lit}`Netlist.Contains`. -/
def Netlist.Contains (l : Netlist) (ip : IP) : Bool :=
  l.any fun n => n.Contains ip

/-- {lit}`lan4`: {lit}`0.0.0.0/8`, {lit}`10.0.0.0/8`, {lit}`172.16.0.0/12` and
{lit}`192.168.0.0/16`. -/
def lan4 : Netlist :=
  [⟨[0, 0, 0, 0], CIDRMask 8 32⟩, ⟨[10, 0, 0, 0], CIDRMask 8 32⟩,
    ⟨[172, 16, 0, 0], CIDRMask 12 32⟩, ⟨[192, 168, 0, 0], CIDRMask 16 32⟩]

/-- {lit}`lan6`: {lit}`fe80::/10` and {lit}`fc00::/7`. -/
def lan6 : Netlist :=
  [⟨[0xfe, 0x80] ++ List.replicate 14 0, CIDRMask 10 128⟩,
    ⟨[0xfc] ++ List.replicate 15 0, CIDRMask 7 128⟩]

/-- {lit}`IsLAN`: a loopback address, or one of the local ranges. -/
def IsLAN (ip : IP) : Bool :=
  IsLoopback ip ||
    match To4 ip with
    | some v4 => lan4.Contains v4
    | none => lan6.Contains ip

example : IsLAN [192, 168, 1, 7] = true ∧ IsLAN [1, 2, 3, 4] = false := by decide +kernel

/-! ## Subnet counters -/

/-- {lit}`DistinctNetSet.key`: a type byte, {lit}`'4'` or {lit}`'6'`, then the first
{lit}`Subnet` bits of the address in its canonical form. -/
def netKey (Subnet : Nat) (ip : IP) : Bytes :=
  let (typ, ip) : UInt8 × IP := match To4 ip with
    | some ip4 => (0x34, ip4)
    | none => (0x36, ip)
  let bits := min Subnet (ip.length * 8)
  let nb := bits / 8
  let mask : UInt8 := ~~~ ((0xff : UInt8) >>> (bits % 8).toUInt8)
  typ :: (ip.take nb ++ if nb < ip.length ∧ mask ≠ 0 then [ip.getD nb 0 &&& mask] else [])

/-- A {lit}`/24` key of an IPv4 address is its first three bytes. -/
@[simp] theorem netKey_24_ipv4 (a b c d : UInt8) : netKey 24 [a, b, c, d] = [0x34, a, b, c] := by
  simp [netKey, To4, show ~~~(255 : UInt8) = 0 from rfl]

/-- {lit}`DistinctNetSet`: at most {lit}`Limit` addresses under each key.  A key that
is absent from the Go map counts zero here, so the map is a function. -/
structure DistinctNetSet where
  Subnet : Nat
  Limit : Nat
  members : Bytes → Nat

namespace DistinctNetSet

/-- The empty set with the given subnet and limit. -/
def empty (Subnet Limit : Nat) : DistinctNetSet := ⟨Subnet, Limit, fun _ => 0⟩

/-- {lit}`DistinctNetSet.key`. -/
def key (s : DistinctNetSet) (ip : IP) : Bytes := netKey s.Subnet ip

/-- {lit}`DistinctNetSet.Add`: counts the address when its key is below the limit, and
reports whether it did. -/
def Add (s : DistinctNetSet) (ip : IP) : Bool × DistinctNetSet :=
  let key := s.key ip
  let n := s.members key
  if n < s.Limit then (true, { s with members := Function.update s.members key (n + 1) })
  else (false, s)

/-- {lit}`DistinctNetSet.Remove`: one address fewer under the key, if it has any;
deleting a key of count one is storing zero here. -/
def Remove (s : DistinctNetSet) (ip : IP) : DistinctNetSet :=
  let key := s.key ip
  match s.members key with
  | 0 => s
  | n + 1 => { s with members := Function.update s.members key n }

@[simp] theorem empty_members (Subnet Limit : Nat) (k : Bytes) :
    (empty Subnet Limit).members k = 0 := rfl

@[simp] theorem Add_Subnet (s : DistinctNetSet) (ip : IP) : (s.Add ip).2.Subnet = s.Subnet := by
  unfold Add; dsimp only; split <;> rfl

@[simp] theorem Add_Limit (s : DistinctNetSet) (ip : IP) : (s.Add ip).2.Limit = s.Limit := by
  unfold Add; dsimp only; split <;> rfl

@[simp] theorem Remove_Subnet (s : DistinctNetSet) (ip : IP) :
    (s.Remove ip).Subnet = s.Subnet := by
  unfold Remove; dsimp only; split <;> rfl

@[simp] theorem Remove_Limit (s : DistinctNetSet) (ip : IP) : (s.Remove ip).Limit = s.Limit := by
  unfold Remove; dsimp only; split <;> rfl

/-- {lit}`Add` succeeds exactly when the address's subnet has room. -/
theorem Add_fst (s : DistinctNetSet) (ip : IP) :
    (s.Add ip).1 = decide (s.members (s.key ip) < s.Limit) := by
  unfold Add; dsimp only; split <;> simp_all

/-- One call of {lit}`Add` counts one more address under the key exactly when it
reports success. -/
@[simp] theorem Add_members (s : DistinctNetSet) (ip : IP) (k : Bytes) :
    (s.Add ip).2.members k =
      if (s.Add ip).1 ∧ k = s.key ip then s.members k + 1 else s.members k := by
  unfold Add
  dsimp only
  by_cases hk : k = s.key ip
  · subst hk
    split <;> simp_all
  · split <;> simp [hk]

/-- {lit}`Remove` takes one from the address's subnet and changes no other count. -/
theorem Remove_members (s : DistinctNetSet) (ip : IP) (k : Bytes) :
    (s.Remove ip).members k = if k = s.key ip then s.members k - 1 else s.members k := by
  unfold Remove
  dsimp only
  by_cases hk : k = s.key ip
  · subst hk
    split <;> simp_all
  · split <;> simp [hk]

/-- A failed {lit}`Add` changes nothing. -/
theorem Add_of_fst_false {s : DistinctNetSet} {ip : IP} (h : (s.Add ip).1 = false) :
    (s.Add ip).2 = s := by
  revert h
  unfold Add; dsimp only; split <;> simp

/-- Every counter is within the limit. -/
def Bounded (s : DistinctNetSet) : Prop := ∀ k, s.members k ≤ s.Limit

/-- The empty set is within its limit. -/
theorem bounded_empty (Subnet Limit : Nat) : (empty Subnet Limit).Bounded := by
  intro k; simp

/-- {lit}`Add` keeps every subnet within the limit. -/
theorem Bounded.Add {s : DistinctNetSet} (h : s.Bounded) (ip : IP) : (s.Add ip).2.Bounded := by
  intro k
  rw [Add_members, Add_Limit]
  split
  · next hk =>
    obtain ⟨hadd, rfl⟩ := hk
    rw [Add_fst, decide_eq_true_eq] at hadd
    omega
  · exact h k

/-- {lit}`Remove` keeps every subnet within the limit. -/
theorem Bounded.Remove {s : DistinctNetSet} (h : s.Bounded) (ip : IP) :
    (s.Remove ip).Bounded := by
  intro k
  rw [Remove_members, Remove_Limit]
  have := h k
  split <;> omega

end DistinctNetSet

end Netutil
end Uranus
