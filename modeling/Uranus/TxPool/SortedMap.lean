import Uranus.Lib.Heap
import Uranus.Lib.Sorted

/-!
# The nonce-sorted transaction map ({lit}`core/txpool/list.go`)

A {lit}`txList` keeps the transactions of one account in a {lit}`txSortedMap`: a Go
map from nonce to transaction, a heap of the nonces ({lit}`nonceHeap`, least first,
kept with {lit}`container/heap`), and a cache of the transactions sorted by nonce,
which is {lit}`nil` when it has to be made again.  {lit}`Put` pushes only nonces that
are new, {lit}`Forward` and {lit}`Ready` pop the heap, {lit}`Filter` rebuilds it from
the map, {lit}`Cap` sorts it and cuts it, and {lit}`Remove` searches it; {lit}`Forward`
and {lit}`Cap` slice the cache instead of dropping it.

The transactions are generic here, read through their nonce.  The Go map is an
association list, whose {lit}`range` visits the entries in the list's order, one of
the orders Go may pick; nonces, {lit}`uint64` in Go, are numbers.  Where the source
slices or indexes out of range it panics, and the operation returns {lean}`none`.

Main results:

- Theorem {lit}`txSortedMap.Get_Put`: what {lit}`Put` stores.
- Theorem {lit}`txSortedMap.capLoop_neg`: {lit}`Cap` with a negative threshold panics
  at {lit}`(*m.index)[size-1]` once the size reaches zero.
-/

namespace Uranus
namespace TxPool

open Lib

/-- The map {lit}`items` of a {lit}`txSortedMap`, from nonce to transaction. -/
abbrev Items (τ : Type) := AList fun _ : Nat => τ

/-- {lit}`txSortedMap`: the transactions by nonce, the heap of their nonces, and the
cache of the transactions sorted by nonce, {lean}`none` for {lit}`nil`. -/
structure txSortedMap (τ : Type) where
  items : Items τ
  index : List Nat
  cache : Option (List τ)

variable {τ : Type} (Nonce : τ → Nat)

/-- {lit}`newTxSortedMap`. -/
def newTxSortedMap : txSortedMap τ := ⟨∅, [], none⟩

namespace txSortedMap

/-- {lit}`Get`. -/
def Get (m : txSortedMap τ) (nonce : Nat) : Option τ := m.items.lookup nonce

/-- {lit}`Len`. -/
def Len (m : txSortedMap τ) : Nat := m.items.entries.length

/-- {lit}`Put`: a nonce without a transaction is pushed on the heap, the transaction
replaces any of its nonce, and the cache is dropped. -/
def Put (m : txSortedMap τ) (tx : τ) : txSortedMap τ :=
  let nonce := Nonce tx
  let index := if (m.items.lookup nonce).isNone then Heap.Push id m.index nonce else m.index
  ⟨m.items.insert nonce tx, index, none⟩

/-- The loop of {lit}`Forward`: while the least nonce is below the threshold, it is
popped and its transaction deleted and collected. -/
def forwardLoop (threshold : Nat) (m : txSortedMap τ) (removed : List (Option τ)) :
    txSortedMap τ × List (Option τ) :=
  match m.index.head? with
  | some root =>
    if root < threshold then
      match _hp : Heap.Pop id m.index with
      | some (nonce, index) =>
        forwardLoop threshold ⟨m.items.erase nonce, index, m.cache⟩
          (removed ++ [m.items.lookup nonce])
      | none => (m, removed)
    else (m, removed)
  | none => (m, removed)
termination_by m.index.length
decreasing_by exact Heap.length_lt_of_Pop id _hp

/-- {lit}`Forward`: the transactions below the threshold go, and the cache loses as many
at its front, {lit}`m.cache[len(removed):]`. -/
def Forward (m : txSortedMap τ) (threshold : Nat) : Option (List (Option τ) × txSortedMap τ) :=
  let r := forwardLoop threshold m []
  match r.1.cache with
  | some c =>
    if r.2.length ≤ c.length then some (r.2, { r.1 with cache := some (c.drop r.2.length) })
    else none
  | none => some (r.2, r.1)

/-- The loop of {lit}`Filter` over the entries of the map as {lit}`range` visits them:
each transaction the filter holds for is deleted and collected. -/
def filterItems (filter : τ → Bool) :
    List (Σ _ : Nat, τ) → Items τ → List τ → Items τ × List τ
  | [], items, removed => (items, removed)
  | e :: es, items, removed =>
    if filter e.2 then filterItems filter es (items.erase e.1) (removed ++ [e.2])
    else filterItems filter es items removed

/-- {lit}`Filter`: the transactions the filter holds for go; if any did, the heap is
built again from the nonces left and the cache is dropped. -/
def Filter (m : txSortedMap τ) (filter : τ → Bool) : List τ × txSortedMap τ :=
  let r := filterItems filter m.items.entries m.items []
  if 0 < r.2.length then (r.2, ⟨r.1, Heap.Init id r.1.keys, none⟩)
  else (r.2, { m with items := r.1 })

/-- The loop of {lit}`Cap` over the sorted nonces, from the size of the map down to
the threshold: the transaction of the nonce at {lit}`size - 1` goes.  At size zero
{lit}`(*m.index)[-1]` panics, and so does a position past the nonces. -/
def capLoop (index : List Nat) (threshold : Int) :
    Nat → Items τ → List (Option τ) → Option (Items τ × List (Option τ))
  | 0, items, drops => if threshold < 0 then none else some (items, drops)
  | size + 1, items, drops =>
    if threshold < (size + 1 : Nat) then
      match index[size]? with
      | some nonce => capLoop index threshold size (items.erase nonce) (drops ++ [items.lookup nonce])
      | none => none
    else some (items, drops)

/-- {lit}`Cap`: past the threshold the transactions of the highest nonces go, highest
first; the heap is sorted, cut to the threshold and made a heap again, and the cache
loses as many at its end.  Slicing the heap is bounded by its length here, which is
its capacity in Go as long as nothing was appended. -/
def Cap (m : txSortedMap τ) (threshold : Int) : Option (List (Option τ) × txSortedMap τ) :=
  if (m.Len : Int) ≤ threshold then some ([], m)
  else
    -- sort.Sort(*m.index): any sort of numbers gives this list
    let index := m.index.mergeSort fun a b => decide (a ≤ b)
    match capLoop index threshold m.Len m.items [] with
    | none => none
    | some (items, drops) =>
      if 0 ≤ threshold ∧ threshold ≤ index.length then
        let index := Heap.Init id (index.take threshold.toNat)
        match m.cache with
        | some c =>
          if drops.length ≤ c.length then
            some (drops, ⟨items, index, some (c.take (c.length - drops.length))⟩)
          else none
        | none => some (drops, ⟨items, index, none⟩)
      else none

/-- {lit}`Remove`: whether the nonce had a transaction; if so it goes, its nonce is
searched in the heap and removed there, and the cache is dropped. -/
def Remove (m : txSortedMap τ) (nonce : Nat) : Bool × txSortedMap τ :=
  if (m.items.lookup nonce).isNone then (false, m)
  else
    let index := match m.index.findIdx? (· == nonce) with
      | some i =>
        match Heap.Remove id m.index i with
        | some (_, index) => index
        | none => m.index
      | none => m.index
    (true, ⟨m.items.erase nonce, index, none⟩)

/-- The loop of {lit}`Ready`: while the least nonce is {lit}`next`, its transaction is
collected and deleted and the nonce popped. -/
def readyLoop (m : txSortedMap τ) (next : Nat) (ready : List (Option τ)) :
    txSortedMap τ × List (Option τ) :=
  match m.index.head? with
  | some root =>
    if root = next then
      match _hp : Heap.Pop id m.index with
      | some (_, index) =>
        readyLoop ⟨m.items.erase next, index, m.cache⟩ (next + 1) (ready ++ [m.items.lookup next])
      | none => (m, ready)
    else (m, ready)
  | none => (m, ready)
termination_by m.index.length
decreasing_by exact Heap.length_lt_of_Pop id _hp

/-- {lit}`Ready`: nothing if the least nonce is above {lit}`start`, and otherwise the
run of consecutive nonces from it; the cache is dropped. -/
def Ready (m : txSortedMap τ) (start : Nat) : List (Option τ) × txSortedMap τ :=
  match m.index.head? with
  | some root =>
    if start < root then ([], m)
    else
      let r := readyLoop m root []
      (r.2, { r.1 with cache := none })
  | none => ([], m)

/-- {lit}`Flatten`: the cache, made if it is not set by sorting the transactions by
nonce ({lit}`sort.Sort` of {lit}`TxsByNonce`, which orders transactions of distinct
nonces as any sort does). -/
def Flatten (m : txSortedMap τ) : List τ × txSortedMap τ :=
  match m.cache with
  | some c => (c, m)
  | none =>
    let c := (m.items.entries.map (·.2)).mergeSort fun a b => decide (Nonce a ≤ Nonce b)
    (c, { m with cache := some c })

/-- The calls a {lit}`txList` makes on its map. -/
inductive Op (τ : Type) where
  | Put (tx : τ)
  | Forward (threshold : Nat)
  | Filter (filter : τ → Bool)
  | Cap (threshold : Int)
  | Remove (nonce : Nat)
  | Ready (start : Nat)
  | Flatten

/-- One call, {lean}`none` if it panics. -/
def step (m : txSortedMap τ) : Op τ → Option (txSortedMap τ)
  | .Put tx => some (m.Put Nonce tx)
  | .Forward threshold => (m.Forward threshold).map (·.2)
  | .Filter filter => some (m.Filter filter).2
  | .Cap threshold => (m.Cap threshold).map (·.2)
  | .Remove nonce => some (m.Remove nonce).2
  | .Ready start => some (m.Ready start).2
  | .Flatten => some (m.Flatten Nonce).2

/-- A sequence of calls, stopped by a panic. -/
def run : List (Op τ) → txSortedMap τ → Option (txSortedMap τ)
  | [], m => some m
  | op :: ops, m => (step Nonce m op).bind (run ops)

@[simp] theorem run_nil (m : txSortedMap τ) : run Nonce [] m = some m := rfl

/-- A run does its first operation and then the rest. -/
theorem run_cons (op : Op τ) (ops : List (Op τ)) (m : txSortedMap τ) :
    run Nonce (op :: ops) m = (step Nonce m op).bind (run Nonce ops) := rfl

/-! ## What one call stores -/

@[simp] theorem Get_mk (items : Items τ) (index : List Nat) (cache : Option (List τ))
    (k : Nat) : (txSortedMap.mk items index cache).Get k = items.lookup k := rfl

/-- {lit}`Put` replaces the transaction at its nonce and changes no other. -/
theorem Get_Put (m : txSortedMap τ) (tx : τ) (k : Nat) :
    (m.Put Nonce tx).Get k = if k = Nonce tx then some tx else m.Get k := by
  simp only [Put, Get]
  split
  · next hk => rw [hk, AList.lookup_insert]
  · next hk => rw [AList.lookup_insert_ne hk]

@[simp] theorem Put_items (m : txSortedMap τ) (tx : τ) :
    (m.Put Nonce tx).items = m.items.insert (Nonce tx) tx := rfl

@[simp] theorem Put_cache (m : txSortedMap τ) (tx : τ) : (m.Put Nonce tx).cache = none := rfl

/-- With a negative threshold the loop of {lit}`Cap` runs down to size zero and
panics there. -/
theorem capLoop_neg (index : List Nat) {threshold : Int} (ht : threshold < 0) :
    ∀ (size : Nat) (items : Items τ) (drops : List (Option τ)),
      capLoop index threshold size items drops = none := by
  intro size
  induction size with
  | zero => intro items drops; simp [capLoop, ht]
  | succ size ih =>
    intro items drops
    rw [capLoop, if_pos (by omega)]
    split
    · exact ih _ _
    · rfl

/-- {lit}`Cap` with a negative threshold panics, whatever the map. -/
theorem Cap_neg (m : txSortedMap τ) {threshold : Int} (ht : threshold < 0) :
    m.Cap threshold = none := by
  unfold Cap
  rw [if_neg (by omega)]
  simp only [capLoop_neg _ ht]

end txSortedMap

end TxPool
end Uranus
