import Uranus.TxPool.SortedMap

/-!
# The representation invariant of {lit}`txSortedMap`

The heap of a {lit}`txSortedMap` holds exactly the nonces of its map, each once, in
heap order, every transaction is stored under its own nonce, and the cache, when it is
set, holds the transactions sorted by nonce.  Every call keeps this, from the empty
map on, and from it each call does what its comment says: {lit}`Flatten` returns the
transactions in strictly increasing nonce order, {lit}`Forward` takes exactly those
below the threshold, {lit}`Cap` keeps exactly the lowest nonces, and {lit}`Ready`
takes the run of consecutive nonces from the least one.

The loops of {lit}`Forward` and {lit}`Ready` pop the heap: each pop takes the least
nonce left ({lit}`IndexInv.pop`), so what they take is described once, by
{lit}`Without`, and the cache is repaired only after the loop.

Main results:

- Theorems {lit}`Put_inv`, {lit}`Forward_spec`, {lit}`Filter_spec`, {lit}`Cap_spec`,
  {lit}`Remove_spec`, {lit}`Ready_spec` and {lit}`Flatten_spec`: what each call does
  from a map that keeps the invariant, and that the result keeps it.
- Theorem {lit}`run_inv`: every map reached by calls that do not panic keeps it.
-/

namespace Uranus
namespace TxPool
namespace txSortedMap

open Lib

variable {τ : Type} {Nonce : τ → Nat}

/-! ## Maps keyed by nonce -/

variable (Nonce) in
/-- Every transaction of the map is stored under its nonce. -/
def Keyed (items : Items τ) : Prop := ∀ e ∈ items.entries, Nonce e.2 = e.1

variable (Nonce) in
/-- {lit}`c` holds the transactions of the map, each once, in strictly increasing nonce
order. -/
def SortedItems (items : Items τ) (c : List τ) : Prop :=
  c.Pairwise (fun a b => Nonce a < Nonce b) ∧ ∀ tx, tx ∈ c ↔ items.lookup (Nonce tx) = some tx

/-- A lookup finds exactly the entries of the map. -/
theorem lookup_eq_some_iff {items : Items τ} {k : Nat} {tx : τ} :
    items.lookup k = some tx ↔ ⟨k, tx⟩ ∈ items.entries := by
  rw [← AList.mem_lookup_iff, Option.mem_def]

/-- A nonce is in the map when a lookup finds it. -/
theorem mem_iff_lookup_isSome {items : Items τ} {k : Nat} : k ∈ items ↔ (items.lookup k).isSome :=
  AList.lookup_isSome.symm

/-- {lit}`Get` of a nonce the map does not hold is nil. -/
theorem Get_eq_none {m : txSortedMap τ} {k : Nat} (hk : k ∉ m.items) : m.Get k = none :=
  AList.lookup_eq_none.mpr hk

/-- A lookup after a deletion: nothing at the deleted nonce, the old entry elsewhere. -/
theorem lookup_erase_eq (items : Items τ) (x k : Nat) :
    (items.erase x).lookup k = if k = x then none else items.lookup k := by
  split
  · next hkx => rw [hkx, AList.lookup_erase]
  · next hkx => rw [AList.lookup_erase_ne hkx]

/-- In a keyed map, a transaction found under a nonce has that nonce. -/
theorem Keyed.nonce_eq {items : Items τ} (hk : Keyed Nonce items) {k : Nat} {tx : τ}
    (h : items.lookup k = some tx) : Nonce tx = k :=
  hk _ (lookup_eq_some_iff.mp h)

/-- A map whose lookups are all lookups of a keyed map is keyed. -/
theorem Keyed.of_lookup {items items' : Items τ} (hk : Keyed Nonce items)
    (h : ∀ k tx, items'.lookup k = some tx → items.lookup k = some tx) : Keyed Nonce items' :=
  fun e he => hk.nonce_eq (h e.1 e.2 (lookup_eq_some_iff.mpr he))

/-- A deletion keeps a map keyed. -/
theorem Keyed.erase {items : Items τ} (hk : Keyed Nonce items) (x : Nat) :
    Keyed Nonce (items.erase x) :=
  hk.of_lookup fun k tx h => by
    rw [lookup_erase_eq] at h
    split at h
    · cases h
    · exact h

/-- Storing a transaction under its own nonce keeps a map keyed. -/
theorem Keyed.insert {items : Items τ} (hk : Keyed Nonce items) (tx : τ) :
    Keyed Nonce (items.insert (Nonce tx) tx) := by
  intro e he
  rw [AList.entries_insert, List.mem_cons] at he
  rcases he with rfl | he
  · rfl
  · exact hk e ((List.kerase_sublist _ _).subset he)

/-- The nonces of a sorted list of the map's transactions are distinct. -/
theorem SortedItems.nodup_map {items : Items τ} {c : List τ} (hs : SortedItems Nonce items c) :
    (c.map Nonce).Nodup :=
  List.pairwise_map.mpr (hs.1.imp ne_of_lt)

/-- The nonces of a sorted list of the transactions are the keys of the map. -/
theorem SortedItems.map_perm {items : Items τ} {c : List τ} (hk : Keyed Nonce items)
    (hs : SortedItems Nonce items c) : (c.map Nonce).Perm items.keys := by
  rw [List.perm_ext_iff_of_nodup hs.nodup_map items.keys_nodup]
  intro k
  rw [List.mem_map, ← AList.mem_keys, mem_iff_lookup_isSome, Option.isSome_iff_exists]
  constructor
  · rintro ⟨tx, htx, rfl⟩
    exact ⟨tx, (hs.2 tx).mp htx⟩
  · rintro ⟨tx, htx⟩
    have hn := hk.nonce_eq htx
    subst hn
    exact ⟨tx, (hs.2 tx).mpr htx, rfl⟩

/-- A sorted list of a keyed map's transactions counts nonces as the map's keys do. -/
theorem SortedItems.countP {items : Items τ} {c : List τ} (hk : Keyed Nonce items)
    (hs : SortedItems Nonce items c) (p : Nat → Bool) :
    c.countP (fun tx => p (Nonce tx)) = items.keys.countP p := by
  rw [← (hs.map_perm hk).countP_eq p, List.countP_map]
  rfl

/-- A sorted list of a keyed map's transactions has one element per key. -/
theorem SortedItems.length {items : Items τ} {c : List τ} (hk : Keyed Nonce items)
    (hs : SortedItems Nonce items c) : c.length = items.keys.length := by
  rw [← (hs.map_perm hk).length_eq, List.length_map]

/-! ## The invariant -/

variable (Nonce) in
/-- The heap holds the nonces of the map, each once, in heap order, and every
transaction is stored under its nonce. -/
structure IndexInv (m : txSortedMap τ) : Prop where
  keyed : Keyed Nonce m.items
  index : m.index.Perm m.items.keys
  heap : Heap.IsHeap id m.index

variable (Nonce) in
/-- The representation invariant: heap and map agree, and a cache that is set holds
the transactions sorted by nonce. -/
structure Inv (m : txSortedMap τ) : Prop extends IndexInv Nonce m where
  cache : ∀ c, m.cache = some c → SortedItems Nonce m.items c

/-- {lit}`newTxSortedMap` has the invariant. -/
theorem inv_newTxSortedMap : Inv Nonce (newTxSortedMap : txSortedMap τ) where
  keyed := by simp [Keyed, newTxSortedMap, AList.empty_entries]
  index := by simp [newTxSortedMap, AList.keys_empty]
  heap := by simp [Heap.IsHeap, Heap.HeapFrom, newTxSortedMap]
  cache := by simp [newTxSortedMap]

section IndexInv

variable {m : txSortedMap τ} (hi : IndexInv Nonce m)
include hi

/-- The heap holds exactly the map's nonces. -/
theorem IndexInv.mem_index {k : Nat} : k ∈ m.index ↔ k ∈ m.items := by
  rw [hi.index.mem_iff, AList.mem_keys]

/-- The heap's root is the least nonce of the map. -/
theorem IndexInv.root_le {root : Nat} (hr : m.index.head? = some root) {k : Nat}
    (hk : k ∈ m.items) : root ≤ k :=
  Heap.IsHeap.root_le id hi.heap hr (hi.mem_index.mpr hk)

/-- An empty heap means an empty map. -/
theorem IndexInv.not_mem_of_head?_none (hr : m.index.head? = none) (k : Nat) : k ∉ m.items := by
  rw [List.head?_eq_none_iff] at hr
  rw [← hi.mem_index, hr]
  exact List.not_mem_nil

/-- Taking a nonce off the heap and its transaction off the map keeps the two in
step. -/
theorem IndexInv.erase {x : Nat} {index : List Nat} (hperm : (x :: index).Perm m.index)
    (hheap : Heap.IsHeap id index) (cache : Option (List τ)) :
    IndexInv Nonce ⟨m.items.erase x, index, cache⟩ where
  keyed := hi.keyed.erase x
  index := by
    have := (hperm.trans hi.index).erase x
    rwa [List.erase_cons_head, ← AList.keys_erase] at this
  heap := hheap

/-- Popping the heap takes its least nonce, whose transaction is in the map. -/
theorem IndexInv.pop {x : Nat} {index : List Nat} (hp : Heap.Pop id m.index = some (x, index)) :
    m.index.head? = some x ∧ x ∈ m.items ∧ IndexInv Nonce ⟨m.items.erase x, index, m.cache⟩ ∧
      ∀ k ∈ m.items.erase x, x < k := by
  have hperm := Heap.Pop_perm id hp
  have hr := Heap.Pop_fst id hp
  have hx : x ∈ m.items := hi.mem_index.mp (hperm.subset (List.mem_cons_self ..))
  refine ⟨hr, hx, hi.erase hperm (Heap.Pop_isHeap id hi.heap hp) _, fun k hk => ?_⟩
  obtain ⟨hkx, hk⟩ := AList.mem_erase.mp hk
  exact lt_of_le_of_ne (hi.root_le hr hk) (Ne.symm hkx)

/-- The cache is no part of the agreement of heap and map. -/
theorem IndexInv.setCache (c : Option (List τ)) : IndexInv Nonce { m with cache := c } :=
  ⟨hi.keyed, hi.index, hi.heap⟩

end IndexInv

/-- A heap with a root is popped. -/
theorem Pop_ne_none {m : txSortedMap τ} {root : Nat} (hr : m.index.head? = some root) :
    Heap.Pop id m.index ≠ none := by
  have hne : m.index ≠ [] := by
    rintro h
    rw [h] at hr
    cases hr
  rw [Heap.Pop_eq id hne]
  exact Option.some_ne_none _

/-! ## What the loops take -/

variable (Nonce) in
/-- {lit}`m'` is {lit}`m` without the transactions of the nonces {lit}`ks`, which
{lit}`m` held, in increasing order; heap and map still agree, and the cache is as it
was. -/
structure Without (m m' : txSortedMap τ) (ks : List Nat) : Prop where
  sorted : ks.Pairwise (· < ·)
  mem : ∀ k ∈ ks, k ∈ m.items
  get : ∀ k, m'.Get k = if k ∈ ks then none else m.Get k
  inv : IndexInv Nonce m'
  cache : m'.cache = m.cache

/-- A map is itself without no nonces. -/
theorem Without.nil {m : txSortedMap τ} (hi : IndexInv Nonce m) : Without Nonce m m [] where
  sorted := List.Pairwise.nil
  mem := by simp
  get := by simp
  inv := hi
  cache := rfl

/-- One more pop of the least nonce, in front of what the rest of the loop takes. -/
theorem Without.pop {m m' : txSortedMap τ} {x : Nat} {index ks : List Nat}
    (hx : x ∈ m.items) (h : Without Nonce ⟨m.items.erase x, index, m.cache⟩ m' ks)
    (hlt : ∀ k ∈ m.items.erase x, x < k) : Without Nonce m m' (x :: ks) where
  sorted := List.pairwise_cons.mpr ⟨fun k hk => hlt k (h.mem k hk), h.sorted⟩
  mem k hk := by
    rcases List.mem_cons.mp hk with rfl | hk
    · exact hx
    · exact (AList.mem_erase.mp (h.mem k hk)).2
  get k := by
    rw [h.get k, Get_mk, lookup_erase_eq]
    by_cases hkx : k = x
    · simp [hkx]
    · simp [hkx, Get]
  inv := h.inv
  cache := h.cache

/-- The lookups of the transactions taken after the first pop are those of the map
before it. -/
theorem map_Get_erase {m : txSortedMap τ} {x : Nat} {index ks : List Nat}
    {cache : Option (List τ)} (hks : ∀ k ∈ ks, k ∈ m.items.erase x) :
    ks.map (txSortedMap.mk (m.items.erase x) index cache).Get = ks.map m.Get :=
  List.map_congr_left fun k hk => by
    rw [Get_mk, lookup_erase_eq, if_neg (AList.mem_erase.mp (hks k hk)).1]
    rfl

/-- One round of {lit}`forwardLoop` below the threshold: the least nonce is popped and its transaction deleted and collected. -/
theorem forwardLoop_pop {t : Nat} {m : txSortedMap τ} {acc : List (Option τ)} {root x : Nat}
    {index : List Nat} (hr : m.index.head? = some root) (hlt : root < t)
    (hp : Heap.Pop id m.index = some (x, index)) :
    forwardLoop t m acc =
      forwardLoop t ⟨m.items.erase x, index, m.cache⟩ (acc ++ [m.items.lookup x]) := by
  rw [forwardLoop]
  simp only [hr, if_pos hlt]
  split
  · next x' index' hp' =>
    rw [hp] at hp'
    cases hp'
    rfl
  · next hp' => rw [hp] at hp'; cases hp'

/-- {lit}`forwardLoop` stops once the least nonce reaches the threshold, or the heap is empty. -/
theorem forwardLoop_stop {t : Nat} {m : txSortedMap τ} {acc : List (Option τ)}
    (hstop : ∀ root, m.index.head? = some root → t ≤ root) : forwardLoop t m acc = (m, acc) := by
  rw [forwardLoop]
  split
  · next root hr => rw [if_neg (Nat.not_lt.mpr (hstop root hr))]
  · rfl

/-- The loop of {lit}`Forward` takes the nonces of the map below the threshold, in
increasing order. -/
theorem forwardLoop_spec (t : Nat) {m : txSortedMap τ} (hi : IndexInv Nonce m)
    (acc : List (Option τ)) :
    ∃ ks, (forwardLoop t m acc).2 = acc ++ ks.map m.Get ∧
      Without Nonce m (forwardLoop t m acc).1 ks ∧ ∀ k, k ∈ ks ↔ k ∈ m.items ∧ k < t := by
  induction m, acc using forwardLoop.induct t with
  | case1 m acc root hr hlt x index hp ih =>
    obtain ⟨hr', hx, hi', hgt⟩ := hi.pop hp
    have hrx : root = x := Option.some.inj (hr.symm.trans hr')
    subst hrx
    obtain ⟨ks, hres, hw, hmem⟩ := ih hi'
    rw [forwardLoop_pop hr hlt hp]
    refine ⟨root :: ks, ?_, hw.pop hx hgt, fun k => ?_⟩
    · rw [hres, map_Get_erase hw.mem, List.map_cons, List.append_assoc]
      rfl
    · rw [List.mem_cons, hmem, AList.mem_erase]
      by_cases hk : k = root
      · simp [hk, hx, hlt]
      · simp [hk]
  | case2 m acc root hr _ hp => exact absurd hp (Pop_ne_none hr)
  | case3 m acc root hr hge =>
    rw [forwardLoop_stop fun r hr' => by rw [hr] at hr'; cases hr'; omega]
    refine ⟨[], by simp, Without.nil hi, fun k => ?_⟩
    simp only [List.not_mem_nil, false_iff, not_and, Nat.not_lt]
    intro hk
    have := hi.root_le hr hk
    omega
  | case4 m acc hr =>
    rw [forwardLoop_stop fun r hr' => by rw [hr] at hr'; cases hr']
    exact ⟨[], by simp, Without.nil hi, fun k => by simp [hi.not_mem_of_head?_none hr k]⟩

/-- One round of {lit}`readyLoop` at the expected nonce: its transaction is collected and deleted and the nonce popped. -/
theorem readyLoop_pop {m : txSortedMap τ} {acc : List (Option τ)} {root x : Nat}
    {index : List Nat} (hr : m.index.head? = some root)
    (hp : Heap.Pop id m.index = some (x, index)) :
    readyLoop m root acc =
      readyLoop ⟨m.items.erase root, index, m.cache⟩ (root + 1) (acc ++ [m.items.lookup root]) := by
  rw [readyLoop]
  simp only [hr, if_true]
  split
  · next x' index' hp' =>
    rw [hp] at hp'
    cases hp'
    rfl
  · next hp' => rw [hp] at hp'; cases hp'

/-- {lit}`readyLoop` stops once the least nonce is not the expected one, or the heap is empty. -/
theorem readyLoop_stop {m : txSortedMap τ} {next : Nat} {acc : List (Option τ)}
    (hstop : ∀ root, m.index.head? = some root → root ≠ next) : readyLoop m next acc = (m, acc) := by
  rw [readyLoop]
  split
  · next root hr => rw [if_neg (hstop root hr)]
  · rfl

/-- The loop of {lit}`Ready`, from a nonce that no nonce of the map is below, takes
the run of consecutive nonces from it. -/
theorem readyLoop_spec {m : txSortedMap τ} (hi : IndexInv Nonce m) (next : Nat)
    (hnext : ∀ k ∈ m.items, next ≤ k) (acc : List (Option τ)) :
    ∃ len, (readyLoop m next acc).2 = acc ++ (List.range' next len).map m.Get ∧
      Without Nonce m (readyLoop m next acc).1 (List.range' next len) ∧ next + len ∉ m.items := by
  induction m, next, acc using readyLoop.induct with
  | case1 m acc root hr x index hp ih =>
    obtain ⟨hr', hx, hi', hgt⟩ := hi.pop hp
    have hrx : root = x := Option.some.inj (hr.symm.trans hr')
    subst hrx
    obtain ⟨len, hres, hw, hend⟩ := ih hi' hgt
    rw [readyLoop_pop hr hp]
    refine ⟨len + 1, ?_, ?_, fun hmem => hend ?_⟩
    · rw [hres, List.range'_succ, map_Get_erase hw.mem, List.map_cons, List.append_assoc]
      rfl
    · rw [List.range'_succ]
      exact hw.pop hx hgt
    · rw [show root + 1 + len = root + (len + 1) by omega]
      exact AList.mem_erase.mpr ⟨by omega, hmem⟩
  | case2 m acc root hr hp => exact absurd hp (Pop_ne_none hr)
  | case3 m next acc root hr hne =>
    rw [readyLoop_stop fun r hr' => by rw [hr] at hr'; cases hr'; exact hne]
    refine ⟨0, by simp, by simpa using Without.nil hi, fun hmem => hne ?_⟩
    -- the root is the least nonce, and none is below next
    exact le_antisymm (hi.root_le hr (by simpa using hmem))
      (hnext root (hi.mem_index.mp (List.mem_of_mem_head? hr)))
  | case4 m next acc hr =>
    rw [readyLoop_stop fun r hr' => by rw [hr] at hr'; cases hr']
    exact ⟨0, by simp, by simpa using Without.nil hi, by simpa using hi.not_mem_of_head?_none hr next⟩

/-! ## Each call -/

/-- A nonce is among the keys when a lookup finds it. -/
theorem mem_keys_iff_lookup_isSome {items : Items τ} {k : Nat} :
    k ∈ items.keys ↔ (items.lookup k).isSome := by
  rw [← AList.mem_keys, mem_iff_lookup_isSome]

/-- {lit}`Put` keeps the invariant: a new nonce is pushed, a known one is in the heap
already. -/
theorem Put_inv {m : txSortedMap τ} (hi : IndexInv Nonce m) (tx : τ) : Inv Nonce (m.Put Nonce tx) where
  keyed := hi.keyed.insert tx
  index := by
    simp only [Put, AList.keys_insert]
    split
    · next hnone =>
      have hk : Nonce tx ∉ m.items.keys := by simpa [mem_keys_iff_lookup_isSome] using hnone
      rw [List.erase_of_not_mem hk]
      exact (Heap.Push_perm id _ _).trans
        ((hi.index.append_right _).trans (List.perm_append_singleton _ _))
    · next hsome =>
      have hk : Nonce tx ∈ m.items.keys := by
        rw [mem_keys_iff_lookup_isSome, Option.isSome_iff_ne_none]
        simpa using hsome
      exact hi.index.trans (List.perm_cons_erase hk)
  heap := by
    simp only [Put]
    split
    · exact Heap.Push_isHeap id hi.heap _
    · exact hi.heap
  cache := by simp

/-- The nonces a loop took below a threshold are as many as the nonces of the cache
below it. -/
theorem length_eq_countP {m : txSortedMap τ} (hi : Inv Nonce m) {c : List τ} (hc : m.cache = some c)
    {ks : List Nat} (hks : ks.Nodup) (t : Nat) (hmem : ∀ k, k ∈ ks ↔ k ∈ m.items ∧ k < t) :
    ks.length = c.countP fun tx => Nonce tx < t := by
  rw [(hi.cache c hc).countP hi.keyed (fun k => decide (k < t)), List.countP_eq_length_filter]
  apply List.Perm.length_eq
  rw [List.perm_ext_iff_of_nodup hks (m.items.keys_nodup.filter _)]
  intro k
  simp [hmem, AList.mem_keys]

/-- {lit}`Forward t` takes the transactions of the nonces below {lit}`t`, in increasing
order, keeps the rest, and never panics. -/
theorem Forward_spec {m : txSortedMap τ} (hi : Inv Nonce m) (t : Nat) :
    ∃ (ks : List Nat) (m' : txSortedMap τ), m.Forward t = some (ks.map m.Get, m') ∧
      Inv Nonce m' ∧ ks.Pairwise (· < ·) ∧
      (∀ k, k ∈ ks ↔ k ∈ m.items ∧ k < t) ∧ ∀ k, m'.Get k = if k < t then none else m.Get k := by
  obtain ⟨ks, hres, hw, hmem⟩ := forwardLoop_spec t hi.toIndexInv []
  rw [List.nil_append] at hres
  have hget : ∀ k, (forwardLoop t m []).1.Get k = if k < t then none else m.Get k := by
    intro k
    rw [hw.get k]
    by_cases hkt : k < t
    · by_cases hk : k ∈ m.items
      · simp [(hmem k).mpr ⟨hk, hkt⟩, hkt]
      · simp [hkt, Get_eq_none hk]
    · have : k ∉ ks := fun h => hkt ((hmem k).mp h).2
      simp [this, hkt]
  unfold Forward
  cases hc : m.cache with
  | none =>
    have hc' : (forwardLoop t m []).1.cache = none := hw.cache.trans hc
    simp only [hc', hres]
    exact ⟨ks, _, rfl, ⟨hw.inv, by simp [hc']⟩, hw.sorted, hmem, hget⟩
  | some c =>
    have hc' : (forwardLoop t m []).1.cache = some c := hw.cache.trans hc
    have hs := hi.cache c hc
    have hlen := length_eq_countP hi hc (hw.sorted.imp ne_of_lt) t hmem
    have hle : ks.length ≤ c.length := hlen ▸ List.countP_le_length
    simp only [hc', hres, List.length_map, if_pos hle]
    refine ⟨ks, _, rfl, ⟨hw.inv.setCache _, fun c' hc'' => ?_⟩, hw.sorted, hmem, hget⟩
    -- the cache keeps those at or above the threshold, still in order
    cases hc''
    rw [hlen, drop_countP_lt hs.1 t]
    refine ⟨hs.1.filter _, fun tx => ?_⟩
    have hg := hget (Nonce tx)
    simp only [Get] at hg
    rw [List.mem_filter, hs.2 tx, hg]
    by_cases htx : Nonce tx < t <;> simp [htx]

/-- The loop of {lit}`Filter` collects the transactions the filter holds for and deletes
their nonces. -/
theorem filterItems_spec (filter : τ → Bool) (es : List (Σ _ : Nat, τ)) (items : Items τ)
    (acc : List τ) :
    (filterItems filter es items acc).2 = acc ++ (es.filter fun e => filter e.2).map (·.2) ∧
      ∀ k, (filterItems filter es items acc).1.lookup k =
        if es.any (fun e => decide (e.1 = k) && filter e.2) then none else items.lookup k := by
  induction es generalizing items acc with
  | nil => simp [filterItems]
  | cons e es ih =>
    by_cases hf : filter e.2 = true
    · obtain ⟨h2, h1⟩ := ih (items.erase e.1) (acc ++ [e.2])
      rw [filterItems, if_pos hf]
      refine ⟨by rw [h2, List.filter_cons_of_pos (p := fun e : Σ _ : Nat, τ => filter e.2) hf]; simp,
        fun k => ?_⟩
      rw [h1 k, lookup_erase_eq, List.any_cons]
      by_cases hk : e.1 = k
      · simp [hk, hf]
      · rw [decide_eq_false hk, Bool.false_and, Bool.false_or, if_neg (Ne.symm hk)]
    · obtain ⟨h2, h1⟩ := ih items acc
      rw [filterItems, if_neg hf]
      refine ⟨by rw [h2, List.filter_cons_of_neg (p := fun e : Σ _ : Nat, τ => filter e.2) hf],
        fun k => ?_⟩
      rw [h1 k, List.any_cons, Bool.eq_false_iff.mpr hf, Bool.and_false, Bool.false_or]

/-- Ranging over the map finds a transaction of a nonce exactly when the lookup does. -/
theorem any_entries_eq (items : Items τ) (p : τ → Bool) (k : Nat) :
    (items.entries.any fun e => decide (e.1 = k) && p e.2) = (items.lookup k).any p := by
  rw [Bool.eq_iff_iff, List.any_eq_true, Option.any_eq_true]
  constructor
  · rintro ⟨e, he, hek⟩
    simp only [Bool.and_eq_true, decide_eq_true_eq] at hek
    obtain ⟨rfl, hp⟩ := hek
    exact ⟨e.2, lookup_eq_some_iff.mpr he, hp⟩
  · rintro ⟨tx, hl, hp⟩
    exact ⟨⟨k, tx⟩, lookup_eq_some_iff.mp hl, by simp [hp]⟩

/-- Two maps with the same lookups have the same keys up to order. -/
theorem keys_perm_of_lookup {items items' : Items τ} (h : ∀ k, items'.lookup k = items.lookup k) :
    items'.keys.Perm items.keys := by
  rw [List.perm_ext_iff_of_nodup items'.keys_nodup items.keys_nodup]
  intro k
  rw [mem_keys_iff_lookup_isSome, mem_keys_iff_lookup_isSome, h k]

/-- {lit}`Filter` returns the transactions the filter holds for, in the order of the
map, takes them out and keeps the invariant. -/
theorem Filter_spec {m : txSortedMap τ} (hi : Inv Nonce m) (filter : τ → Bool) :
    (m.Filter filter).1 = (m.items.entries.map (·.2)).filter filter ∧
      Inv Nonce (m.Filter filter).2 ∧
      ∀ k, (m.Filter filter).2.Get k = (m.Get k).filter fun tx => !filter tx := by
  obtain ⟨h2, h1⟩ := filterItems_spec filter m.items.entries m.items []
  set r := filterItems filter m.items.entries m.items [] with hr
  have hremoved : r.2 = (m.items.entries.map (·.2)).filter filter := by
    rw [h2, List.nil_append, List.filter_map]
    rfl
  have hget : ∀ k, r.1.lookup k = (m.Get k).filter fun tx => !filter tx := by
    intro k
    rw [h1 k, any_entries_eq]
    simp only [Get]
    cases m.items.lookup k with
    | none => rfl
    | some tx => cases hf : filter tx <;> simp [hf, Option.filter_some]
  have hsub : ∀ k tx, r.1.lookup k = some tx → m.items.lookup k = some tx := by
    intro k tx h
    rw [hget k] at h
    exact (Option.filter_eq_some_iff.mp h).1
  simp only [Filter, ← hr]
  split
  · refine ⟨hremoved, ⟨⟨hi.keyed.of_lookup hsub, Heap.Init_perm id _, Heap.Init_isHeap id _⟩,
      by simp⟩, hget⟩
  · next hnone =>
    -- nothing was taken, so every lookup is as it was
    have hnil : (m.items.entries.map (·.2)).filter filter = [] := by
      rw [← hremoved]
      exact List.eq_nil_of_length_eq_zero (by omega)
    have hsame : ∀ k, r.1.lookup k = m.items.lookup k := by
      intro k
      rw [hget k]
      simp only [Get]
      cases hl : m.items.lookup k with
      | none => rfl
      | some tx =>
        have htx : tx ∈ m.items.entries.map (·.2) :=
          List.mem_map.mpr ⟨⟨k, tx⟩, lookup_eq_some_iff.mp hl, rfl⟩
        have hf : filter tx = false := by simpa using List.filter_eq_nil_iff.mp hnil tx htx
        simp [hf, Option.filter_some]
    refine ⟨hremoved, ⟨⟨hi.keyed.of_lookup fun k tx h => by rwa [← hsame k],
      hi.index.trans (keys_perm_of_lookup hsame).symm, hi.heap⟩, fun c hc => ?_⟩, hget⟩
    have hs := hi.cache c hc
    exact ⟨hs.1, fun tx => by rw [hs.2 tx, hsame]⟩

/-- An element of a list without duplicates is not among those before it. -/
theorem getElem_not_mem_take {l : List Nat} (hl : l.Nodup) {s : Nat} (hs : s < l.length) :
    l[s] ∉ l.take s := by
  intro h
  obtain ⟨j, hj, hjs⟩ := List.mem_iff_getElem.mp h
  rw [List.getElem_take] at hjs
  have := (hl.getElem_inj_iff).mp hjs
  simp at hj
  omega

/-- The loop of {lit}`Cap` from size {lit}`size` down to a threshold {lit}`n` takes the
nonces at positions {lit}`n` to {lit}`size - 1}`, the last first. -/
theorem capLoop_spec {idx : List Nat} (hnd : idx.Nodup) (n : Nat) :
    ∀ size, n ≤ size → size ≤ idx.length → ∀ (items : Items τ) (acc : List (Option τ)),
      ∃ items', capLoop idx n size items acc =
          some (items', acc ++ ((idx.take size).drop n).reverse.map items.lookup) ∧
        ∀ k, items'.lookup k = if k ∈ (idx.take size).drop n then none else items.lookup k := by
  intro size
  induction size with
  | zero =>
    intro hn _ items acc
    obtain rfl : n = 0 := by omega
    exact ⟨items, by simp [capLoop], by simp⟩
  | succ s ih =>
    intro hn hs items acc
    by_cases hns : n = s + 1
    · -- the threshold is reached
      subst hns
      refine ⟨items, ?_, by simp⟩
      rw [capLoop, if_neg (by omega)]
      simp
    · have hlt : s < idx.length := by omega
      obtain ⟨items', hcap, hget⟩ :=
        ih (by omega) (by omega) (items.erase idx[s]) (acc ++ [items.lookup idx[s]])
      have htake : (idx.take (s + 1)).drop n = (idx.take s).drop n ++ [idx[s]] := by
        rw [List.take_add_one, List.getElem?_eq_getElem hlt, Option.toList_some,
          List.drop_append_of_le_length (by simp; omega)]
      have hnotin : ∀ k ∈ (idx.take s).drop n, k ≠ idx[s] := fun k hk hks =>
        getElem_not_mem_take hnd hlt (hks ▸ List.mem_of_mem_drop hk)
      -- the nonces taken later are not the one taken now
      have hmap : ((idx.take s).drop n).reverse.map (items.erase idx[s]).lookup =
          ((idx.take s).drop n).reverse.map items.lookup :=
        List.map_congr_left fun k hk => by
          rw [lookup_erase_eq, if_neg (hnotin k (List.mem_reverse.mp hk))]
      refine ⟨items', ?_, fun k => ?_⟩
      · rw [capLoop, if_pos (by omega), List.getElem?_eq_getElem hlt]
        simp only
        rw [hcap, htake, hmap, List.reverse_append, List.reverse_singleton, List.singleton_append,
          List.map_cons, List.append_assoc, List.singleton_append]
      · rw [hget k, lookup_erase_eq]
        simp only [htake, List.mem_append, List.mem_singleton]
        by_cases hk : k ∈ (idx.take s).drop n
        · simp [hk]
        · by_cases hks : k = idx[s] <;> simp [hk, hks]

/-- The nonces of the map sorted, as {lit}`Cap` sorts the heap. -/
theorem sorted_index {m : txSortedMap τ} (hi : IndexInv Nonce m) :
    let idx := m.index.mergeSort fun a b => decide (a ≤ b)
    idx.Perm m.items.keys ∧ idx.Nodup ∧ idx.Pairwise (· < ·) := by
  intro idx
  have hperm : idx.Perm m.items.keys := (List.mergeSort_perm _ _).trans hi.index
  have hnd : idx.Nodup := hperm.nodup_iff.mpr m.items.keys_nodup
  have hle : idx.Pairwise fun a b => id a ≤ id b :=
    (List.pairwise_mergeSort (fun a b c hab hbc => by simp at hab hbc ⊢; omega)
      (fun a b => by simp; omega) m.index).imp (by simp)
  exact ⟨hperm, hnd, pairwise_lt_of_le (f := id) hle (by simpa using hnd)⟩

/-- Fewer keys than all lie below a nonce the map holds. -/
theorem countP_lt_length {items : Items τ} {k : Nat} (hk : k ∈ items) :
    items.keys.countP (· < k) < items.keys.length := by
  rw [List.countP_eq_length_filter, List.length_filter_lt_length_iff_exists]
  exact ⟨k, AList.mem_keys.mp hk, by simp⟩

/-- {lit}`Len` is the number of keys. -/
theorem Len_eq (m : txSortedMap τ) : m.Len = m.items.keys.length := by
  simp [Len, AList.keys, List.keys]

/-- The sorted nonces past the first {lit}`n` are those with {lit}`n` lower nonces. -/
theorem mem_drop_sorted {items : Items τ} {idx : List Nat} (hperm : idx.Perm items.keys)
    (hnd : idx.Nodup) (hsorted : idx.Pairwise (· < ·)) (n k : Nat) :
    k ∈ idx.drop n ↔ k ∈ items ∧ n ≤ items.keys.countP (· < k) := by
  rw [mem_drop_iff_not_mem_take hnd, mem_take_iff_countP_lt (f := id) hsorted, hperm.mem_iff,
    ← AList.mem_keys]
  simp only [id, not_and, Nat.not_lt, (hperm.countP_eq _)]
  constructor
  · exact fun h => ⟨h.1, h.2 h.1⟩
  · exact fun h => ⟨h.1, fun _ => h.2⟩

/-- The map the loop of {lit}`Cap` leaves, under a heap of the first {lit}`n` sorted nonces:
it keeps the transactions of the {lit}`n` lowest nonces, and heap and map agree. -/
theorem cut_inv {m : txSortedMap τ} (hi : IndexInv Nonce m) {idx : List Nat}
    (hperm : idx.Perm m.items.keys) (hnd : idx.Nodup) (hsorted : idx.Pairwise (· < ·)) {n : Nat}
    {items' : Items τ}
    (hget : ∀ k, items'.lookup k = if k ∈ idx.drop n then none else m.items.lookup k) :
    (∀ k, items'.lookup k = if n ≤ m.items.keys.countP (· < k) then none else m.Get k) ∧
      IndexInv Nonce ⟨items', Heap.Init id (idx.take n), none⟩ := by
  have hdrop := mem_drop_sorted hperm hnd hsorted n
  have hget' : ∀ k, items'.lookup k = if n ≤ m.items.keys.countP (· < k) then none else m.Get k := by
    intro k
    rw [hget k]
    by_cases hk : k ∈ m.items
    · simp only [hdrop, hk, true_and]
      rfl
    · simp [hdrop, hk, Get_eq_none hk, AList.lookup_eq_none.mpr hk]
  have hsub : ∀ k tx, items'.lookup k = some tx → m.items.lookup k = some tx := by
    intro k tx h
    rw [hget k] at h
    split at h
    · cases h
    · exact h
  -- the heap is cut to the n lowest nonces
  have hindex : (idx.take n).Perm items'.keys := by
    rw [List.perm_ext_iff_of_nodup (hnd.sublist (List.take_sublist _ _)) items'.keys_nodup]
    intro k
    rw [mem_keys_iff_lookup_isSome, hget k]
    have := mem_drop_iff_not_mem_take hnd (n := n) (x := k)
    by_cases hkd : k ∈ idx.drop n
    · simp only [hkd, if_true, Option.isSome_none, Bool.false_eq_true, iff_false]
      exact (this.mp hkd).2
    · simp only [hkd, if_false, ← mem_iff_lookup_isSome, AList.mem_keys, ← hperm.mem_iff]
      constructor
      · exact fun h => List.mem_of_mem_take h
      · exact fun h => by_contra fun hnt => hkd (this.mpr ⟨h, hnt⟩)
  exact ⟨hget', hi.keyed.of_lookup hsub, (Heap.Init_perm id _).trans hindex, Heap.Init_isHeap id _⟩

/-- A sorted cache cut to its first {lit}`n` transactions holds those of the {lit}`n`
lowest nonces. -/
theorem SortedItems.take {items items' : Items τ} {c : List τ} (hk : Keyed Nonce items)
    (hs : SortedItems Nonce items c) {n : Nat}
    (hget : ∀ k, items'.lookup k = if n ≤ items.keys.countP (· < k) then none else items.lookup k) :
    SortedItems Nonce items' (c.take n) := by
  refine ⟨hs.1.sublist (List.take_sublist _ _), fun tx => ?_⟩
  rw [mem_take_iff_countP_lt hs.1, hs.2 tx, hs.countP hk (· < Nonce tx), hget (Nonce tx)]
  by_cases hn : n ≤ items.keys.countP (· < Nonce tx)
  · rw [if_pos hn]
    simp only [reduceCtorEq, iff_false, not_and, Nat.not_lt]
    exact fun _ => hn
  · rw [if_neg hn]
    simp [Nat.lt_of_not_le hn]

/-- {lit}`Cap n` keeps the transactions of the {lit}`n` lowest nonces, takes the others
out, highest first, and never panics. -/
theorem Cap_spec {m : txSortedMap τ} (hi : Inv Nonce m) (n : Nat) :
    ∃ (ks : List Nat) (m' : txSortedMap τ), m.Cap n = some (ks.map m.Get, m') ∧ Inv Nonce m' ∧
      ks.Pairwise (· > ·) ∧ (∀ k, k ∈ ks ↔ k ∈ m.items ∧ n ≤ m.items.keys.countP (· < k)) ∧
      ∀ k, m'.Get k = if n ≤ m.items.keys.countP (· < k) then none else m.Get k := by
  by_cases hle : m.Len ≤ n
  · -- every nonce is among the n lowest
    have hkeep : ∀ k ∈ m.items, ¬ n ≤ m.items.keys.countP (· < k) := fun k hk => by
      have := countP_lt_length hk
      rw [← Len_eq] at this
      omega
    refine ⟨[], m, by simp [Cap, hle], hi, List.Pairwise.nil, fun k => ?_, fun k => ?_⟩
    · simp only [List.not_mem_nil, false_iff, not_and]
      exact hkeep k
    · by_cases hk : k ∈ m.items
      · rw [if_neg (hkeep k hk)]
      · simp [Get_eq_none hk]
  · obtain ⟨hperm, hnd, hsorted⟩ := sorted_index hi.toIndexInv
    unfold Cap
    rw [if_neg (by omega)]
    dsimp only
    generalize m.index.mergeSort (fun a b => decide (a ≤ b)) = idx at hperm hnd hsorted ⊢
    have hlen : idx.length = m.Len := by rw [hperm.length_eq, Len_eq]
    obtain ⟨items', hcap, hget⟩ := capLoop_spec (τ := τ) hnd n m.Len (by omega) hlen.ge m.items []
    rw [List.take_of_length_le hlen.le, List.nil_append] at hcap
    rw [List.take_of_length_le hlen.le] at hget
    -- the nonces taken out are those with n lower ones, highest first
    have hdrop := mem_drop_sorted hperm hnd hsorted n
    obtain ⟨hget', hidx'⟩ := cut_inv hi.toIndexInv hperm hnd hsorted hget
    have hpair : (idx.drop n).reverse.Pairwise (· > ·) :=
      List.pairwise_reverse.mpr ((hsorted.sublist (List.drop_sublist _ _)).imp id)
    have hnn : (0 : Int) ≤ n ∧ (n : Int) ≤ idx.length := ⟨by omega, by omega⟩
    rw [hcap]
    simp only [if_pos hnn, Int.toNat_natCast]
    cases hc : m.cache with
    | none =>
      simp only
      exact ⟨(idx.drop n).reverse, _, rfl, ⟨hidx', by simp⟩, hpair,
        fun k => by rw [List.mem_reverse, hdrop], hget'⟩
    | some c =>
      have hs := hi.cache c hc
      have hclen : c.length = m.Len := by rw [hs.length hi.keyed, Len_eq]
      have hdl : ((idx.drop n).reverse.map m.items.lookup).length ≤ c.length := by
        simp [hclen, hlen]
      simp only
      rw [if_pos hdl]
      refine ⟨(idx.drop n).reverse, _, rfl, ⟨hidx'.setCache _, fun c' hc' => ?_⟩, hpair,
        fun k => by rw [List.mem_reverse, hdrop], hget'⟩
      -- the cache keeps its first n transactions, those of the n lowest nonces
      cases hc'
      have htn : c.length - ((idx.drop n).reverse.map m.items.lookup).length = n := by
        simp [hclen, hlen]
        omega
      rw [htn]
      exact hs.take hi.keyed hget'

/-- {lit}`Remove` reports whether the nonce had a transaction and takes it out; the
linear search finds the nonce in the heap, so heap and map stay in step. -/
theorem Remove_spec {m : txSortedMap τ} (hi : Inv Nonce m) (nonce : Nat) :
    (m.Remove nonce).1 = (m.items.lookup nonce).isSome ∧ Inv Nonce (m.Remove nonce).2 ∧
      ∀ k, (m.Remove nonce).2.Get k = if k = nonce then none else m.Get k := by
  unfold Remove
  by_cases hn : (m.items.lookup nonce).isNone
  · rw [if_pos hn]
    refine ⟨by simpa using hn, hi, fun k => ?_⟩
    split
    · next hk =>
      subst hk
      simpa [Get] using hn
    · rfl
  · rw [if_neg hn]
    have hsome : (m.items.lookup nonce).isSome := by
      rw [Option.isSome_iff_ne_none]
      simpa using hn
    have hmem : nonce ∈ m.index := hi.mem_index.mpr (mem_iff_lookup_isSome.mpr hsome)
    obtain ⟨i, hfind⟩ : ∃ i, m.index.findIdx? (· == nonce) = some i := by
      rw [← Option.isSome_iff_exists, List.findIdx?_isSome]
      exact List.any_eq_true.mpr ⟨nonce, hmem, by simp⟩
    obtain ⟨hlt, hpi, -⟩ := List.findIdx?_eq_some_iff_getElem.mp hfind
    have hix : m.index[i] = nonce := by simpa using hpi
    have hperm := Heap.Remove_perm id hlt
    rw [hix] at hperm
    simp only [hfind, Heap.Remove_eq_some id hlt]
    refine ⟨hsome.symm, ⟨hi.erase hperm (Heap.Remove_isHeap id hi.heap hlt) none, by simp⟩,
      fun k => ?_⟩
    rw [Get_mk, lookup_erase_eq]
    rfl

/-- {lit}`Ready start` returns nothing when every nonce is above {lit}`start`, and
otherwise the run of consecutive nonces from the least one, which it takes out. -/
theorem Ready_spec {m : txSortedMap τ} (hi : Inv Nonce m) (start : Nat) :
    Inv Nonce (m.Ready start).2 ∧ ((∀ k ∈ m.items, start < k) → m.Ready start = ([], m)) ∧
      ∀ low ∈ m.items, (∀ k ∈ m.items, low ≤ k) → low ≤ start →
        ∃ len, (m.Ready start).1 = (List.range' low len).map m.Get ∧
          (∀ k, low ≤ k → k < low + len → k ∈ m.items) ∧ low + len ∉ m.items ∧
          ∀ k, (m.Ready start).2.Get k = if low ≤ k ∧ k < low + len then none else m.Get k := by
  unfold Ready
  cases hr : m.index.head? with
  | none =>
    exact ⟨hi, fun _ => rfl, fun low hlow => absurd hlow (hi.not_mem_of_head?_none hr low)⟩
  | some root =>
    have hroot : root ∈ m.items := hi.mem_index.mp (List.mem_of_mem_head? hr)
    simp only
    by_cases hs : start < root
    · rw [if_pos hs]
      exact ⟨hi, fun _ => rfl, fun low hlow _ hls => absurd (hi.root_le hr hlow) (by omega)⟩
    · rw [if_neg hs]
      obtain ⟨len, hres, hw, hend⟩ :=
        readyLoop_spec hi.toIndexInv root (fun k hk => hi.root_le hr hk) []
      refine ⟨⟨hw.inv.setCache _, by simp⟩, fun hall => absurd (hall root hroot) hs,
        fun low hlow hleast _ => ?_⟩
      -- the least nonce is the root
      obtain rfl : low = root := le_antisymm (hleast root hroot) (hi.root_le hr hlow)
      refine ⟨len, by simpa using hres, fun k hk1 hk2 => hw.mem k (List.mem_range'_1.mpr ⟨hk1, hk2⟩),
        hend, fun k => ?_⟩
      have hg := hw.get k
      simp only [List.mem_range'_1] at hg
      exact hg

/-- The transactions of a keyed map sorted by nonce, as {lit}`Flatten` sorts them, are
sorted strictly. -/
theorem sortedItems_mergeSort {items : Items τ} (hk : Keyed Nonce items) :
    SortedItems Nonce items
      ((items.entries.map (·.2)).mergeSort fun a b => decide (Nonce a ≤ Nonce b)) := by
  have hperm := List.mergeSort_perm (items.entries.map (·.2)) fun a b => decide (Nonce a ≤ Nonce b)
  have hkeys : (items.entries.map (·.2)).map Nonce = items.keys := by
    rw [List.map_map]
    exact List.map_congr_left fun e he => hk e he
  have hle0 : ((items.entries.map (·.2)).mergeSort fun a b => decide (Nonce a ≤ Nonce b)).Pairwise
      fun a b => decide (Nonce a ≤ Nonce b) = true :=
    List.pairwise_mergeSort (fun a b c hab hbc => by simp at hab hbc ⊢; omega)
      (fun a b => by simp; omega) _
  have hle := hle0.imp fun h => of_decide_eq_true h
  have hnd : (((items.entries.map (·.2)).mergeSort fun a b => decide (Nonce a ≤ Nonce b)).map
      Nonce).Nodup := by
    rw [(hperm.map Nonce).nodup_iff, hkeys]
    exact items.keys_nodup
  refine ⟨pairwise_lt_of_le hle hnd, fun tx => ?_⟩
  rw [hperm.mem_iff, List.mem_map, lookup_eq_some_iff]
  constructor
  · rintro ⟨e, he, rfl⟩
    rw [hk e he]
    exact he
  · exact fun h => ⟨_, h, rfl⟩

/-- {lit}`Flatten` returns the transactions in strictly increasing nonce order, from
the cache or sorted anew, and leaves that in the cache. -/
theorem Flatten_spec {m : txSortedMap τ} (hi : Inv Nonce m) :
    SortedItems Nonce m.items (m.Flatten Nonce).1 ∧ Inv Nonce (m.Flatten Nonce).2 ∧
      (m.Flatten Nonce).2.items = m.items := by
  unfold Flatten
  cases hc : m.cache with
  | some c => exact ⟨hi.cache c hc, hi, rfl⟩
  | none =>
    have hs := sortedItems_mergeSort hi.keyed
    exact ⟨hs, ⟨hi.toIndexInv.setCache _, fun c' hc' => by cases hc'; exact hs⟩, rfl⟩

/-! ## Runs -/

/-- Every call that does not panic keeps the invariant. -/
theorem step_inv {m m' : txSortedMap τ} (hi : Inv Nonce m) {op : Op τ}
    (h : step Nonce m op = some m') : Inv Nonce m' := by
  cases op with
  | Put tx =>
    cases h
    exact Put_inv hi.toIndexInv tx
  | Forward t =>
    obtain ⟨ks, m'', hf, hinv, -⟩ := Forward_spec hi t
    simp only [step, hf, Option.map_some, Option.some.injEq] at h
    exact h ▸ hinv
  | Filter filter =>
    cases h
    exact (Filter_spec hi filter).2.1
  | Cap threshold =>
    rcases lt_or_ge threshold 0 with hneg | hnn
    · simp [step, Cap_neg m hneg] at h
    · obtain ⟨n, rfl⟩ := Int.eq_ofNat_of_zero_le hnn
      obtain ⟨ks, m'', hc, hinv, -⟩ := Cap_spec hi n
      simp only [step, hc, Option.map_some, Option.some.injEq] at h
      exact h ▸ hinv
  | Remove nonce =>
    cases h
    exact (Remove_spec hi nonce).2.1
  | Ready start =>
    cases h
    exact (Ready_spec hi start).1
  | Flatten =>
    cases h
    exact (Flatten_spec hi).2.1

/-- Every map a run of calls reaches keeps the invariant. -/
theorem run_inv : ∀ (ops : List (Op τ)) {m m' : txSortedMap τ}, Inv Nonce m →
    run Nonce ops m = some m' → Inv Nonce m'
  | [], _, _, hi, h => by
    cases h
    exact hi
  | op :: ops, _, _, hi, h => by
    rw [run_cons] at h
    obtain ⟨m1, h1, h2⟩ := Option.bind_eq_some_iff.mp h
    exact run_inv ops (step_inv hi h1) h2

/-- Every map reached from {lit}`newTxSortedMap` keeps the invariant, and from it
{lit}`Flatten` returns the transactions in strictly increasing nonce order,
{lit}`Forward t` takes exactly those below {lit}`t`, {lit}`Cap n` keeps exactly those
of the {lit}`n` lowest nonces, and {lit}`Ready s` takes the run of consecutive nonces
from the least one if that is at most {lit}`s`, and nothing otherwise. -/
theorem reachable_txSortedMap_spec (ops : List (Op τ)) {m : txSortedMap τ}
    (hrun : run Nonce ops newTxSortedMap = some m) :
    Inv Nonce m ∧ SortedItems Nonce m.items (m.Flatten Nonce).1 ∧
      (∀ t, ∃ (ks : List Nat) (m' : txSortedMap τ), m.Forward t = some (ks.map m.Get, m') ∧
        ks.Pairwise (· < ·) ∧ (∀ k, k ∈ ks ↔ k ∈ m.items ∧ k < t) ∧
        ∀ k, m'.Get k = if k < t then none else m.Get k) ∧
      (∀ n : Nat, ∃ (ks : List Nat) (m' : txSortedMap τ), m.Cap n = some (ks.map m.Get, m') ∧
        ∀ k, m'.Get k = if n ≤ m.items.keys.countP (· < k) then none else m.Get k) ∧
      (∀ s, ((∀ k ∈ m.items, s < k) → m.Ready s = ([], m)) ∧
        ∀ low ∈ m.items, (∀ k ∈ m.items, low ≤ k) → low ≤ s → ∃ len,
          (m.Ready s).1 = (List.range' low len).map m.Get ∧
            (∀ k, low ≤ k → k < low + len → k ∈ m.items) ∧ low + len ∉ m.items) := by
  have hi := run_inv ops inv_newTxSortedMap hrun
  refine ⟨hi, (Flatten_spec hi).1, fun t => ?_, fun n => ?_, fun s => ⟨(Ready_spec hi s).2.1, ?_⟩⟩
  · obtain ⟨ks, m', hf, -, hsorted, hmem, hget⟩ := Forward_spec hi t
    exact ⟨ks, m', hf, hsorted, hmem, hget⟩
  · obtain ⟨ks, m', hc, -, -, -, hget⟩ := Cap_spec hi n
    exact ⟨ks, m', hc, hget⟩
  · intro low hlow hleast hls
    obtain ⟨len, hres, hmem, hend, -⟩ := (Ready_spec hi s).2.2 low hlow hleast hls
    exact ⟨len, hres, hmem, hend⟩

/-- The map after puts of the nonces 5, 3 and 4, the removal of 4, a put of 7, the
ready run from 3 and a put of 6.  A transaction is its nonce. -/
theorem reachable_txSortedMap_spec_run :
    let ops : List (Op Nat) := [.Put 5, .Put 3, .Put 4, .Remove 4, .Put 7, .Ready 3, .Put 6]
    ∃ m, run id ops newTxSortedMap = some m ∧
      (Inv id m ∧ SortedItems id m.items (m.Flatten id).1 ∧
        (∀ t, ∃ (ks : List Nat) (m' : txSortedMap Nat), m.Forward t = some (ks.map m.Get, m') ∧
          ks.Pairwise (· < ·) ∧ (∀ k, k ∈ ks ↔ k ∈ m.items ∧ k < t) ∧
          ∀ k, m'.Get k = if k < t then none else m.Get k) ∧
        (∀ n : Nat, ∃ (ks : List Nat) (m' : txSortedMap Nat), m.Cap n = some (ks.map m.Get, m') ∧
          ∀ k, m'.Get k = if n ≤ m.items.keys.countP (· < k) then none else m.Get k) ∧
        (∀ s, ((∀ k ∈ m.items, s < k) → m.Ready s = ([], m)) ∧
          ∀ low ∈ m.items, (∀ k ∈ m.items, low ≤ k) → low ≤ s → ∃ len,
            (m.Ready s).1 = (List.range' low len).map m.Get ∧
              (∀ k, low ≤ k → k < low + len → k ∈ m.items) ∧ low + len ∉ m.items)) := by
  intro ops
  -- every call of the run returns a map, so the run does
  obtain ⟨m, hrun⟩ : ∃ m, run id ops newTxSortedMap = some m := ⟨_, rfl⟩
  exact ⟨m, hrun, reachable_txSortedMap_spec ops hrun⟩

end txSortedMap
end TxPool
end Uranus
