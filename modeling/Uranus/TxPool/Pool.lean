import Uranus.TxPool.Validate

/-!
# Adding a transaction to the pool ({lit}`TxPool.add`)

The pool keeps every transaction it holds in {lit}`txs`, by hash, and in one list of
its sender's, {lit}`pending` for those that can run next and {lit}`queue` for the
others, one transaction per nonce.  {lit}`priceList` keeps a heap of the prices of the
transactions, cheapest first, from which a full pool discards; a transaction that
leaves the pool leaves its heap entry behind as a stale one, which the heap only
counts until a quarter of it is stale and it is rebuilt from {lit}`txs`.

{lit}`add` rejects a known or invalid transaction, and when the pool holds
{lit}`GlobalSlots + GlobalQueue` transactions or more it rejects one that is not dearer
than the cheapest, and otherwise discards the cheapest ones to make room.  It then
replaces a pending transaction of the same nonce, or queues the new one.

The pool works on transactions only through their hash, nonce, price, cost, gas and
sender, so it is generic here in the transaction type, with these as
{lit}`TxView`; {lit}`validateTx` is a parameter.  The heap is the list of its entries,
and a pop takes a cheapest one.

Main results:

- Theorem {lit}`add_exceeds_zero_capacity`: with {lit}`GlobalSlots` and
  {lit}`GlobalQueue` zero, every valid transaction added to the empty pool is pooled,
  one over the bound.
-/

namespace Uranus
namespace TxPool

open Uranus.Types

/-! ## The model -/

/-- What the pool reads of a transaction. -/
structure TxView (τ : Type) where
  Hash : τ → Hash
  Nonce : τ → Nat
  GasPrice : τ → Int
  Cost : τ → Int
  Gas : τ → Nat
  /-- {lit}`tx.Sender(tp.signer)` of a transaction {lit}`validateTx` accepted -/
  Sender : τ → Address

/-- The limits of {lit}`txpool.Config` that {lit}`add` reads, values of {lit}`uint64`. -/
structure Config where
  PriceBump : Nat
  GlobalSlots : Nat
  GlobalQueue : Nat

/-- {lit}`priceNonce`, an entry of the price heap. -/
structure priceNonce where
  hash : Hash
  price : Int
  nonce : Nat
deriving DecidableEq

/-- {lit}`txList`: the transactions of one account, one per nonce.  The nonce heap and
the sorted cache of {lit}`txSortedMap` are the nonces of these transactions and their
order, and are left out. -/
structure txList (τ : Type) where
  strict : Bool
  txs : List τ
  costcap : Int
  gascap : Nat

set_option linter.dupNamespace false in
/-- The state of {lit}`TxPool` that {lit}`add` reads and writes.  The heartbeats are left
out. -/
structure TxPool (τ : Type) where
  pending : Address → Option (txList τ)
  queue : Address → Option (txList τ)
  /-- {lit}`allTxs`, one transaction per hash -/
  txs : List τ
  /-- the entries of the heap of {lit}`priceList` -/
  items : List priceNonce
  stales : Int
  /-- the nonces of the managed state {lit}`tmpState` -/
  tmpNonce : Address → Nat

/-- The errors of {lit}`add`. -/
inductive AddError where
  /-- {lit}`known transaction: %x` -/
  | known (hash : Hash)
  /-- an error of {lit}`validateTx`, or {lit}`ErrUnderPriced` -/
  | pool (e : PoolError)
  /-- {lit}`replacement transaction underpriced` -/
  | ErrReplaceUnderpriced

/-- Go's {lit}`int(x)` of a {lit}`uint64` on a 64-bit machine. -/
def int (u : Nat) : Int := if u < 2 ^ 63 then u else (u : Int) - 2 ^ 64

variable {τ : Type} (v : TxView τ)

/-- {lit}`newTxList`. -/
def newTxList (strict : Bool) : txList τ := ⟨strict, [], 0, 0⟩

/-- {lit}`txList.Overlaps`: a transaction of the same nonce is in the list. -/
def txList.Overlaps (l : txList τ) (tx : τ) : Bool :=
  (l.txs.find? fun t => v.Nonce t = v.Nonce tx).isSome

/-- {lit}`txList.Add`: a transaction of the same nonce is replaced only by one dearer by
{lit}`priceBump` percent; the result says whether the new one went in, and which one it
replaced. -/
def txList.Add (l : txList τ) (tx : τ) (priceBump : Nat) : Bool × Option τ × txList τ :=
  let old := l.txs.find? fun t => v.Nonce t = v.Nonce tx
  let rejected := match old with
    | some old => decide (v.GasPrice old ≥ v.GasPrice tx ∨
        v.GasPrice old * (100 + priceBump) / 100 > v.GasPrice tx)
    | none => false
  if rejected then (false, none, l)
  else (true, old, { l with
    txs := l.txs.filter (fun t => v.Nonce t ≠ v.Nonce tx) ++ [tx]
    costcap := max l.costcap (v.Cost tx)
    gascap := max l.gascap (v.Gas tx) })

/-- {lit}`txList.Remove`: the transaction of the nonce goes, and in a strict list every
later one too, returned as invalidated. -/
def txList.Remove (l : txList τ) (tx : τ) : Bool × List τ × txList τ :=
  let nonce := v.Nonce tx
  if (l.txs.find? fun t => v.Nonce t = nonce).isNone then (false, [], l)
  else
    let l := { l with txs := l.txs.filter fun t => v.Nonce t ≠ nonce }
    if l.strict then
      (true, l.txs.filter (fun t => v.Nonce t > nonce),
        { l with txs := l.txs.filter fun t => ¬v.Nonce t > nonce })
    else (true, [], l)

/-- The heap entry of a transaction. -/
def priceNonceOf (tx : τ) : priceNonce := ⟨v.Hash tx, v.GasPrice tx, v.Nonce tx⟩

/-- {lit}`allTxs.Get`. -/
def allGet (p : TxPool τ) (hash : Hash) : Option τ := p.txs.find? fun t => v.Hash t = hash

/-- {lit}`allTxs.Add`. -/
def allAdd (p : TxPool τ) (tx : τ) : TxPool τ :=
  { p with txs := p.txs.filter (fun t => v.Hash t ≠ v.Hash tx) ++ [tx] }

/-- {lit}`allTxs.Remove`. -/
def allRemove (p : TxPool τ) (hash : Hash) : TxPool τ :=
  { p with txs := p.txs.filter fun t => v.Hash t ≠ hash }

/-- {lit}`priceList.Put`. -/
def Put (p : TxPool τ) (tx : τ) : TxPool τ := { p with items := p.items ++ [priceNonceOf v tx] }

/-- {lit}`priceList.Removed`: one more stale entry, and a heap rebuilt from the pool's
transactions once more than a quarter of it is stale. -/
def Removed (p : TxPool τ) : TxPool τ :=
  if p.stales + 1 ≤ (p.items.length / 4 : Nat) then { p with stales := p.stales + 1 }
  else { p with stales := 0, items := p.txs.map (priceNonceOf v) }

/-- {lit}`priceHeap.Less`: the cheaper first, then the higher nonce. -/
def priceLess (a b : priceNonce) : Bool := a.price < b.price || (a.price == b.price && a.nonce > b.nonce)

/-- The root of the heap: an entry no other entry is less than. -/
def heapMin : List priceNonce → Option priceNonce
  | [] => none
  | x :: xs => some (xs.foldl (fun m y => if priceLess y m then y else m) x)

/-- The loop of {lit}`priceList.Underpriced`, which pops stale entries off the top; the
fuel is one more than the heap's size. -/
def underpricedLoop (tx : τ) : Nat → TxPool τ → Bool × TxPool τ
  | 0, p => (false, p)
  | fuel + 1, p =>
    match heapMin p.items with
    -- "Pricing query for empty pool"
    | none => (false, p)
    | some head =>
      if allGet v p head.hash = none then
        underpricedLoop tx fuel { p with stales := p.stales - 1, items := p.items.erase head }
      else (decide (head.price ≥ v.GasPrice tx), p)

/-- {lit}`priceList.Underpriced`: the new transaction is no dearer than the cheapest pooled
one. -/
def Underpriced (p : TxPool τ) (tx : τ) : Bool × TxPool τ :=
  underpricedLoop v tx (p.items.length + 1) p

/-- The loop of {lit}`priceList.Discard`, which pops {lit}`count` live entries, passing
over the stale ones; the fuel is the heap's size. -/
def discardLoop : Nat → Int → List priceNonce → TxPool τ → List priceNonce × TxPool τ
  | 0, _, drop, p => (drop, p)
  | fuel + 1, count, drop, p =>
    if count > 0 then
      match heapMin p.items with
      | none => (drop, p)
      | some pn =>
        let p := { p with items := p.items.erase pn }
        if allGet v p pn.hash = none then discardLoop fuel count drop { p with stales := p.stales - 1 }
        else discardLoop fuel (count - 1) (drop ++ [pn]) p
    else (drop, p)

/-- {lit}`priceList.Discard`. -/
def Discard (p : TxPool τ) (count : Int) : List priceNonce × TxPool τ :=
  discardLoop v p.items.length count [] p

variable (cfg : Config)

/-- {lit}`enqueueTx`: the queue of the sender is created first, and kept even when the
transaction does not go in. -/
def enqueueTx (p : TxPool τ) (hash : Hash) (tx : τ) : Except AddError Bool × TxPool τ :=
  let sender := v.Sender tx
  let list := (p.queue sender).getD (newTxList false)
  let p := { p with queue := Function.update p.queue sender (some list) }
  let (inserted, old, list) := list.Add v tx cfg.PriceBump
  if !inserted then (.error .ErrReplaceUnderpriced, p)
  else
    let p := { p with queue := Function.update p.queue sender (some list) }
    let p := match old with
      | some old => Removed v (allRemove v p (v.Hash old))
      | none => p
    let p := if allGet v p hash = none then Put v (allAdd v p tx) tx else p
    (.ok old.isSome, p)

/-- The part of {lit}`removeTx` for a transaction that is not pending. -/
def removeFromQueue (p : TxPool τ) (addr : Address) (tx : τ) : TxPool τ :=
  match p.queue addr with
  | some future =>
    let future := (future.Remove v tx).2.2
    { p with queue := Function.update p.queue addr (if future.txs = [] then none else some future) }
  | none => p

/-- {lit}`removeTx`: the transaction leaves {lit}`txs` and its list, found by its nonce; the
pending ones after it go back to the queue, and the sender's managed nonce goes down to
it. -/
def removeTx (p : TxPool τ) (hash : Hash) (outofbound : Bool) : TxPool τ :=
  match allGet v p hash with
  | none => p
  | some tx =>
    let addr := v.Sender tx
    let p := allRemove v p hash
    let p := if outofbound then Removed v p else p
    match p.pending addr with
    | some pending =>
      let (removed, invalids, pending) := pending.Remove v tx
      if removed then
        let p := { p with
          pending := Function.update p.pending addr (if pending.txs = [] then none else some pending) }
        let p := invalids.foldl (fun p tx => (enqueueTx v cfg p (v.Hash tx) tx).2) p
        if p.tmpNonce addr > v.Nonce tx then
          { p with tmpNonce := Function.update p.tmpNonce addr (v.Nonce tx) }
        else p
      else removeFromQueue v p addr tx
    | none => removeFromQueue v p addr tx

/-- The end of {lit}`add`, after the room is made: the replacement of a pending
transaction of the same nonce, or the queue. -/
def addPendingOrQueue (p : TxPool τ) (hash : Hash) (tx : τ) : Except AddError Bool × TxPool τ :=
  let sender := v.Sender tx
  match p.pending sender with
  | some list =>
    if list.Overlaps v tx then
      let (inserted, old, list) := list.Add v tx cfg.PriceBump
      if !inserted then (.error .ErrReplaceUnderpriced, p)
      else
        let p := { p with pending := Function.update p.pending sender (some list) }
        let p := match old with
          | some old => Removed v (allRemove v p (v.Hash old))
          | none => p
        (.ok old.isSome, Put v (allAdd v p tx) tx)
    else enqueueTx v cfg p hash tx
  | none => enqueueTx v cfg p hash tx

/-- {lit}`TxPool.add`.  The bound {lit}`GlobalSlots + GlobalQueue` is a {lit}`uint64` sum, and
the number to discard is {lit}`Count() - int(GlobalSlots + GlobalQueue - 1)`. -/
def add (validateTx : τ → Except PoolError Unit) (p : TxPool τ) (tx : τ) :
    Except AddError Bool × TxPool τ :=
  let hash := v.Hash tx
  if (allGet v p hash).isSome then (.error (.known hash), p)
  else
    match validateTx tx with
    | .error e => (.error (.pool e), p)
    | .ok () =>
      if p.txs.length ≥ (cfg.GlobalSlots + cfg.GlobalQueue) % 2 ^ 64 then
        let (under, p) := Underpriced v p tx
        if under then (.error (.pool .ErrUnderPriced), p)
        else
          let (drop, p) := Discard v p
            (p.txs.length - int ((cfg.GlobalSlots + cfg.GlobalQueue + 2 ^ 64 - 1) % 2 ^ 64))
          let p := drop.foldl (fun p pn => removeTx v cfg p pn.hash false) p
          addPendingOrQueue v cfg p hash tx
      else addPendingOrQueue v cfg p hash tx

/-- The pool {lit}`New` starts with: no transaction, and the managed nonces of the head. -/
def emptyPool (tmpNonce : Address → Nat) : TxPool τ := ⟨fun _ => none, fun _ => none, [], [], 0, tmpNonce⟩

/-! ## A pool of no room -/

/-- With {lit}`GlobalSlots` and {lit}`GlobalQueue` zero, the empty pool holds its bound of
no transaction, and every transaction {lit}`validateTx` accepts is added to it: the
heap is empty, so {lit}`Underpriced` lets it in and {lit}`Discard` finds nothing to drop. -/
theorem add_exceeds_zero_capacity (hcfg : cfg.GlobalSlots = 0 ∧ cfg.GlobalQueue = 0)
    (validateTx : τ → Except PoolError Unit) (tmpNonce : Address → Nat) (tx : τ)
    (hv : validateTx tx = .ok ()) :
    (emptyPool tmpNonce : TxPool τ).txs.length ≤ cfg.GlobalSlots + cfg.GlobalQueue ∧
      (add v cfg validateTx (emptyPool tmpNonce) tx).1 = .ok false ∧
      (add v cfg validateTx (emptyPool tmpNonce) tx).2.txs = [tx] := by
  obtain ⟨hslots, hqueue⟩ := hcfg
  refine ⟨by simp [emptyPool], ?_⟩
  simp [add, emptyPool, allGet, hv, hslots, hqueue, Underpriced, underpricedLoop, heapMin,
    Discard, discardLoop, addPendingOrQueue, enqueueTx, newTxList, txList.Add, allAdd, Put]

/-- A pool of no room takes a first transaction. -/
theorem add_exceeds_zero_capacity_first :
    ((⟨10, 0, 0⟩ : Config).GlobalSlots = 0 ∧ (⟨10, 0, 0⟩ : Config).GlobalQueue = 0) ∧
      (add ⟨fun _ => Hash.zero, fun _ => 0, fun _ => 1, fun _ => 0, fun _ => 0, fun _ => Address.zero⟩
        ⟨10, 0, 0⟩ (fun _ => .ok ()) (emptyPool fun _ => 0) ()).2.txs = [()] :=
  ⟨⟨rfl, rfl⟩, (add_exceeds_zero_capacity _ ⟨10, 0, 0⟩ ⟨rfl, rfl⟩ (fun _ => .ok ()) (fun _ => 0) ()
    rfl).2.2⟩

end TxPool
end Uranus
