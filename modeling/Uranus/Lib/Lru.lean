import Mathlib

/-!
# Least-recently-used caches

The cache of {lit}`hashicorp/golang-lru` holds at most {lit}`size` entries, one per
key, in the order of their last use.  Adding a key that is already there, or
reading it, moves it to the front; adding a new key to a full cache evicts the
entry used longest ago.  Here the cache is its list of entries, most recent
first, as the list cache of CLRS §27.3 is, and the structure carries the two
invariants every operation keeps: the keys are distinct and there are at most
{lit}`size` of them.

Main results:

- Definitions {lit}`Lru.Add`, {lit}`Lru.Get` and {lit}`Lru.Keys`.
- Theorem {lit}`Lru.Peek_Add_self`: an added key holds its value.
- Theorem {lit}`Lru.mem_keys_Add`: the keys after an addition.
- Theorem {lit}`Lru.getAll_Keys`: reading every key, oldest first, returns the
  values oldest first and leaves the order of use as it was.
-/

namespace Uranus
namespace Lib

/-- A cache of at most {lit}`size` entries with distinct keys, most recently used first. -/
structure Lru (κ ν : Type) where
  size : Nat
  entries : List (κ × ν)
  nodup : (entries.map Prod.fst).Nodup
  length_le : entries.length ≤ size
  size_pos : 0 < size

namespace Lru

variable {κ ν : Type} [DecidableEq κ]

omit [DecidableEq κ] in
/-- Two caches with the same size and entries are equal. -/
theorem ext {c d : Lru κ ν} (hs : c.size = d.size) (he : c.entries = d.entries) : c = d := by
  cases c
  cases d
  cases hs
  cases he
  rfl

/-- {lit}`New`: an empty cache; a size that is not positive is an error. -/
def New (size : Int) : Option (Lru κ ν) :=
  if h : 0 < size then some ⟨size.toNat, [], List.nodup_nil, Nat.zero_le _, by omega⟩ else none

/-- The keys, most recently used first. -/
def keys (c : Lru κ ν) : List κ := c.entries.map Prod.fst

/-- {lit}`Keys`: the keys from the oldest to the newest. -/
def Keys (c : Lru κ ν) : List κ := c.entries.reverse.map Prod.fst

/-- {lit}`Len`. -/
def Len (c : Lru κ ν) : Nat := c.entries.length

/-- {lit}`Peek`: the value of a key, leaving the order of use alone. -/
def Peek (c : Lru κ ν) (k : κ) : Option ν := c.entries.lookup k

/-- The entries of the other keys. -/
def without (k : κ) (es : List (κ × ν)) : List (κ × ν) := es.filter (fun e => e.1 ≠ k)

/-- Dropping a key's entries keeps the other keys in order. -/
theorem keys_without_sublist (k : κ) (es : List (κ × ν)) :
    ((without k es).map Prod.fst).Sublist (es.map Prod.fst) :=
  List.filter_sublist.map _

/-- Dropping a key's entries drops the key. -/
theorem not_mem_keys_without (k : κ) (es : List (κ × ν)) : k ∉ (without k es).map Prod.fst := by
  simp [without]

/-- Dropping a key the entries hold shortens them. -/
theorem length_without_lt {k : κ} {es : List (κ × ν)} (h : k ∈ es.map Prod.fst) :
    (without k es).length < es.length := by
  obtain ⟨e, he, rfl⟩ := List.mem_map.mp h
  exact List.length_filter_lt_length_iff_exists.mpr ⟨e, he, by simp⟩

/-- A key not among the entries looks up nothing. -/
theorem lookup_of_not_mem {k : κ} {es : List (κ × ν)} (h : k ∉ es.map Prod.fst) :
    es.lookup k = none := by
  simp only [List.lookup_eq_none_iff, bne_iff_ne, ne_eq, Prod.forall]
  intro a b hab hka
  exact h (List.mem_map.mpr ⟨(a, b), hab, hka.symm⟩)

/-- A key that the entries do not hold is their {lit}`without`-fixed point. -/
theorem without_of_not_mem {k : κ} {es : List (κ × ν)} (h : k ∉ es.map Prod.fst) :
    without k es = es := by
  refine List.filter_eq_self.mpr fun e he => ?_
  have : e.1 ≠ k := fun hk => h (List.mem_map.mpr ⟨e, he, hk⟩)
  simpa using this

/-- {lit}`Add`.  A key already there moves to the front with its new value; a new
key goes to the front, and when that makes one entry too many the oldest is
removed. -/
def Add (c : Lru κ ν) (k : κ) (v : ν) : Lru κ ν :=
  if hk : k ∈ c.keys then
    ⟨c.size, (k, v) :: without k c.entries,
      List.nodup_cons.mpr ⟨not_mem_keys_without k _, (keys_without_sublist k _).nodup c.nodup⟩,
      by have := length_without_lt hk; have := c.length_le; simp only [List.length_cons]; omega,
      c.size_pos⟩
  else if hl : c.entries.length < c.size then
    ⟨c.size, (k, v) :: c.entries, List.nodup_cons.mpr ⟨hk, c.nodup⟩,
      by simp only [List.length_cons]; omega, c.size_pos⟩
  else
    ⟨c.size, (k, v) :: c.entries.dropLast,
      List.nodup_cons.mpr ⟨fun h => hk (((List.dropLast_sublist _).map _).subset h),
        ((List.dropLast_sublist _).map _).nodup c.nodup⟩,
      by have := c.size_pos; have := c.length_le; simp only [List.length_cons, List.length_dropLast]; omega,
      c.size_pos⟩

/-- {lit}`Get`: the value of a key, which moves to the front.  Moving an entry to the
front is adding it again with its own value. -/
def Get (c : Lru κ ν) (k : κ) : Option ν × Lru κ ν :=
  match c.Peek k with
  | some v => (some v, c.Add k v)
  | none => (none, c)

/-- {lit}`Get` of each key in turn, keeping the values found: the loop of a caller
that reads the whole cache through {lit}`Keys`. -/
def getAll : List κ → Lru κ ν → List ν × Lru κ ν
  | [], c => ([], c)
  | k :: ks, c =>
    let r := c.Get k
    let rest := getAll ks r.2
    (r.1.toList ++ rest.1, rest.2)

/-! ## Adding -/

/-- {lit}`Add` keeps the size. -/
@[simp]
theorem size_Add (c : Lru κ ν) (k : κ) (v : ν) : (c.Add k v).size = c.size := by
  unfold Add
  split_ifs <;> rfl

/-- The entries after {lit}`Add`: the new one in front of the others; a key already held
loses its old entry, and a full cache loses its oldest. -/
theorem entries_Add (c : Lru κ ν) (k : κ) (v : ν) :
    (c.Add k v).entries =
      if k ∈ c.keys then (k, v) :: without k c.entries
      else if c.entries.length < c.size then (k, v) :: c.entries
      else (k, v) :: c.entries.dropLast := by
  unfold Add
  split_ifs <;> rfl

/-- Whatever the branch, the added entry is the most recent. -/
theorem entries_Add_head (c : Lru κ ν) (k : κ) (v : ν) :
    ∃ rest, (c.Add k v).entries = (k, v) :: rest ∧ k ∉ rest.map Prod.fst := by
  have hnd := (c.Add k v).nodup
  rw [entries_Add] at hnd ⊢
  split_ifs at hnd ⊢ <;>
  exact ⟨_, rfl, (List.nodup_cons.mp hnd).1⟩

/-- An added key reads back its value. -/
theorem Peek_Add_self (c : Lru κ ν) (k : κ) (v : ν) : (c.Add k v).Peek k = some v := by
  obtain ⟨rest, h, -⟩ := entries_Add_head c k v
  simp [Peek, h]

/-- The keys after an addition: the added one, and old ones that were neither it
nor, in a full cache that did not hold it, the oldest. -/
theorem mem_keys_Add (c : Lru κ ν) (k k' : κ) (v : ν) :
    k' ∈ (c.Add k v).keys ↔
      k' = k ∨ (k' ∈ c.keys ∧ (k ∈ c.keys ∨ c.entries.length < c.size ∨
        k' ∈ c.entries.dropLast.map Prod.fst)) := by
  simp only [keys, entries_Add]
  by_cases hk : k ∈ c.entries.map Prod.fst
  · simp only [hk, if_true, List.map_cons, List.mem_cons, true_or, and_true]
    by_cases hkk : k' = k
    · simp [hkk]
    · simp [without, hkk]
  · by_cases hl : c.entries.length < c.size
    · simp [hk, hl]
    · simp only [hk, hl, if_false, List.map_cons, List.mem_cons, false_or]
      have hsub : k' ∈ c.entries.dropLast.map Prod.fst → k' ∈ c.entries.map Prod.fst :=
        fun h => ((List.dropLast_sublist _).map _).subset h
      tauto

/-! ## Reading every key -/

/-- Reading a key whose entry is the oldest moves it to the front. -/
theorem Get_oldest (c : Lru κ ν) {ws : List (κ × ν)} {e : κ × ν} (h : c.entries = ws ++ [e]) :
    (c.Get e.1).1 = some e.2 ∧ (c.Get e.1).2.entries = e :: ws := by
  have hnd := c.nodup
  rw [h, List.map_append, List.nodup_append] at hnd
  have hws : e.1 ∉ ws.map Prod.fst := fun hm => hnd.2.2 _ hm _ (List.mem_singleton_self _) rfl
  have hpeek : c.Peek e.1 = some e.2 := by
    rw [Peek, h, List.lookup_append, lookup_of_not_mem hws, List.lookup_cons, beq_self_eq_true]
    rfl
  have hmem : e.1 ∈ c.keys := by simp [keys, h]
  have hwithout : without e.1 (ws ++ [e]) = ws := by
    rw [without, List.filter_append, ← without, without_of_not_mem hws]
    simp
  simp only [Get, hpeek, entries_Add, if_pos hmem, h, hwithout, true_and]

/-- The loop over the keys, oldest first, as an induction on the part still to read:
when the entries are {lit}`ws` followed by the keys still to read, oldest last, it
returns their values and puts them, in order, in front of {lit}`ws`. -/
theorem getAll_suffix (ys : List (κ × ν)) :
    ∀ (ws : List (κ × ν)) (c : Lru κ ν), c.entries = ws ++ ys.reverse →
      (getAll (ys.map Prod.fst) c).1 = ys.map Prod.snd ∧
      (getAll (ys.map Prod.fst) c).2.entries = ys.reverse ++ ws ∧
      (getAll (ys.map Prod.fst) c).2.size = c.size := by
  induction ys with
  | nil => intro ws c h; simp [getAll, h]
  | cons y ys ih =>
    intro ws c h
    rw [List.reverse_cons, ← List.append_assoc] at h
    obtain ⟨hv, he⟩ := Get_oldest c h
    obtain ⟨ih₁, ih₂, ih₃⟩ := ih (y :: ws) (c.Get y.1).2 (by rw [he, List.cons_append])
    have hsize : (c.Get y.1).2.size = c.size := by
      unfold Get
      split <;> simp
    refine ⟨?_, ?_, ?_⟩
    · simp [getAll, hv, ih₁]
    · simp [getAll, ih₂]
    · simp [getAll, ih₃, hsize]

/-- Reading every key through {lit}`Keys` gives the values from the oldest to the
newest and leaves the cache as it was. -/
theorem getAll_Keys (c : Lru κ ν) : c.getAll c.Keys = (c.entries.reverse.map Prod.snd, c) := by
  obtain ⟨h₁, h₂, h₃⟩ := getAll_suffix c.entries.reverse [] c (by simp)
  have hc : (getAll (c.entries.reverse.map Prod.fst) c).2 = c := ext h₃ (by simpa using h₂)
  rw [Keys, Prod.ext_iff]
  exact ⟨h₁, hc⟩

end Lru

end Lib
end Uranus
