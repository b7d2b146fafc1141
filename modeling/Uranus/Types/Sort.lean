import Uranus.Lib.Heap
import Uranus.Utils.Types

/-!
# Transactions by price and nonce ({lit}`core/types/sort.go`)

The miner takes the pending transactions of every account, each account's list in
nonce order, and fills a block from them greedily: {lit}`TransactionsByPriceAndNonce`
keeps the first transaction of every account in a heap, dearest first
({lit}`TxsByPriceToLow`), and the rest of each list in the map under the account.
{lit}`Peek` reads the dearest head; {lit}`Shift` replaces it with the next
transaction of its account and fixes the heap, or pops it when the account has no
more.

The transactions are generic here: the heap reads their gas price, and the map is
keyed by the first result of {lit}`Sender`.  The Go map is a function, with the order
its {lit}`range` visits the keys in as an argument.

Main results:

- Theorems {lit}`Shift_inv` and {lit}`Pop_inv`: {lit}`Shift` and {lit}`Pop` keep the
  heap, one head per account, and the heads' accounts on their lists.
- Theorem {lit}`remaining_Pop`: {lit}`Pop` loses no other account's transactions.
- Theorem {lit}`filter_drain`: draining a set yields, of every account, exactly what
  it still holds, in its order.
- Theorem {lit}`NewTransactionsByPriceAndNonce_spec`: the set built from a map of
  non-empty lists keeps the invariant and holds every list whole.
- Theorem {lit}`drain_price_and_nonce`: from a map of non-empty lists of each
  sender's transactions, the drain yields every transaction once, each sender's in
  their order, and each is at least as dear as every head at its moment.
-/

namespace Uranus
namespace Types

open Lib

variable {τ : Type} (GasPrice : τ → Int) (Sender : τ → Address)

/-- The key of {lit}`TxsByPriceToLow`: a dearer transaction is less, so the root is the
dearest. -/
def priceKey (tx : τ) : Intᵒᵈ := OrderDual.toDual (GasPrice tx)

/-- {lit}`TransactionsByPriceAndNonce`: the rest of every account's list, and the heap
of the accounts' next transactions.  The signer is what {lit}`Sender` is taken
with. -/
structure TransactionsByPriceAndNonce (τ : Type) where
  txs : Address → Option (List τ)
  heads : List τ

/-- The loop of {lit}`NewTransactionsByPriceAndNonce` over the keys in the order the map
is ranged over: the first transaction of each list is a head, and the rest is stored
under its sender.  An empty list panics at {lit}`accTxs[0]`. -/
def collectHeads : List Address → (Address → Option (List τ)) → List τ →
    Option (List τ × (Address → Option (List τ)))
  | [], txs, heads => some (heads, txs)
  | k :: ks, txs, heads =>
    match txs k with
    | some (tx :: rest) => collectHeads ks (Function.update txs (Sender tx) (some rest)) (heads ++ [tx])
    | _ => none

/-- {lit}`NewTransactionsByPriceAndNonce`, for a map and the order of its keys. -/
def NewTransactionsByPriceAndNonce (txs : Address → Option (List τ)) (order : List Address) :
    Option (TransactionsByPriceAndNonce τ) :=
  (collectHeads Sender order txs []).map fun r => ⟨r.2, Heap.Init (priceKey GasPrice) r.1⟩

namespace TransactionsByPriceAndNonce

/-- {lit}`Peek`: the dearest head. -/
def Peek (t : TransactionsByPriceAndNonce τ) : Option τ := t.heads.head?

/-- {lit}`Shift`: the dearest head gives way to the next transaction of its account, or
leaves the heap.  Go indexes an empty heap out of range. -/
def Shift (t : TransactionsByPriceAndNonce τ) : Option (TransactionsByPriceAndNonce τ) :=
  match t.heads with
  | [] => none
  | h0 :: _ =>
    let acc := Sender h0
    match t.txs acc with
    | some (tx :: rest) =>
      some ⟨Function.update t.txs acc (some rest), Heap.Fix (priceKey GasPrice) (t.heads.set 0 tx) 0⟩
    | _ => (Heap.Pop (priceKey GasPrice) t.heads).map fun r => { t with heads := r.2 }

/-- {lit}`Pop`: the dearest head leaves, with the rest of its account. -/
def Pop (t : TransactionsByPriceAndNonce τ) : Option (TransactionsByPriceAndNonce τ) :=
  (Heap.Pop (priceKey GasPrice) t.heads).map fun r => { t with heads := r.2 }

/-- The miner's loop {lit}`for tx := Peek(); tx != nil; tx = Peek() { ...; Shift() }`,
run for at most {lit}`fuel` transactions. -/
def drain : Nat → TransactionsByPriceAndNonce τ → List τ
  | 0, _ => []
  | fuel + 1, t =>
    match t.Peek with
    | none => []
    | some tx =>
      match t.Shift GasPrice Sender with
      | some t' => tx :: drain fuel t'
      | none => [tx]

/-! ## One head per account -/

/-- The head of an account, if it has one. -/
def headOf (heads : List τ) (s : Address) : Option τ := heads.find? fun h => Sender h = s

/-- What an account still holds: its head and the rest of its list. -/
def remaining (t : TransactionsByPriceAndNonce τ) (s : Address) : List τ :=
  match headOf Sender t.heads s with
  | some h => h :: (t.txs s).getD []
  | none => []

/-- The transactions the set still holds. -/
def size (t : TransactionsByPriceAndNonce τ) : Nat :=
  (t.heads.map fun h => ((t.txs (Sender h)).getD []).length + 1).sum

/-- What every state of the set keeps: the heads form a heap, there is at most one head
per account, and an account's list holds transactions of that account. -/
structure Inv (t : TransactionsByPriceAndNonce τ) : Prop where
  heap : Heap.IsHeap (priceKey GasPrice) t.heads
  nodup : (t.heads.map Sender).Nodup
  senders : ∀ h ∈ t.heads, ∀ tx ∈ (t.txs (Sender h)).getD [], Sender tx = Sender h

variable {GasPrice Sender}

/-- With one head per account, the head of a head's account is that head. -/
theorem headOf_eq_some {heads : List τ} (hn : (heads.map Sender).Nodup) {h : τ}
    (hh : h ∈ heads) : headOf Sender heads (Sender h) = some h := by
  cases hf : headOf Sender heads (Sender h) with
  | none =>
    rw [headOf, List.find?_eq_none] at hf
    exact absurd (by simp) (hf h hh)
  | some h' =>
    have hmem := List.mem_of_find?_eq_some hf
    have hs : Sender h' = Sender h := by simpa using List.find?_some hf
    rw [List.inj_on_of_nodup_map hn hmem hh hs]

/-- An account with no head among the heads has none. -/
theorem headOf_eq_none {heads : List τ} {s : Address} (hs : ∀ h ∈ heads, Sender h ≠ s) :
    headOf Sender heads s = none := by
  rw [headOf, List.find?_eq_none]
  simpa using hs

/-- With one head per account, the head of an account does not depend on the order of
the heads. -/
theorem headOf_perm {heads heads' : List τ} (hp : heads.Perm heads')
    (hn : (heads.map Sender).Nodup) (s : Address) :
    headOf Sender heads s = headOf Sender heads' s := by
  have hn' : (heads'.map Sender).Nodup := (hp.map Sender).nodup_iff.mp hn
  by_cases hs : ∃ h ∈ heads, Sender h = s
  · obtain ⟨h, hh, rfl⟩ := hs
    rw [headOf_eq_some hn hh, headOf_eq_some hn' (hp.mem_iff.mp hh)]
  · simp only [not_exists, not_and] at hs
    rw [headOf_eq_none hs, headOf_eq_none fun h hh => hs h (hp.mem_iff.mpr hh)]

/-- What {lit}`Shift` can do: give the head's place to the next transaction of its
account, or pop it. -/
theorem Shift_cases {t t' : TransactionsByPriceAndNonce τ} (hs : t.Shift GasPrice Sender = some t') :
    ∃ h0 rest, t.heads = h0 :: rest ∧
      ((∃ tx more, t.txs (Sender h0) = some (tx :: more) ∧
          t' = ⟨Function.update t.txs (Sender h0) (some more),
            Heap.Fix (priceKey GasPrice) (tx :: rest) 0⟩) ∨
        ((∀ tx more, t.txs (Sender h0) ≠ some (tx :: more)) ∧ t'.txs = t.txs ∧
          Heap.Pop (priceKey GasPrice) t.heads = some (h0, t'.heads))) := by
  unfold Shift at hs
  split at hs
  · cases hs
  · next h0 rest hheads =>
    refine ⟨h0, rest, hheads, ?_⟩
    dsimp only at hs
    split at hs
    · next tx more htx =>
      refine .inl ⟨tx, more, htx, ?_⟩
      rw [← Option.some.inj hs, hheads]
      rfl
    · next hno =>
      obtain ⟨⟨x, h'⟩, hp, rfl⟩ := Option.map_eq_some_iff.mp hs
      have hx : x = h0 := by
        have := Heap.Pop_fst (priceKey GasPrice) hp
        rw [hheads] at this
        exact (Option.some.inj this).symm
      subst hx
      exact .inr ⟨fun tx more h => hno tx more h, rfl, hp⟩

/-- {lit}`Shift` of a set with a head never panics. -/
theorem Shift_isSome {t : TransactionsByPriceAndNonce τ} (hne : t.heads ≠ []) :
    (t.Shift GasPrice Sender).isSome := by
  unfold Shift
  split
  · contradiction
  · next h0 rest hheads =>
    dsimp only
    split
    · rfl
    · have hp := Heap.Pop_eq (priceKey GasPrice) hne
      simp [hp]

/-- The head of an account: the first head, if it is the account's, else one of the rest. -/
theorem headOf_cons (h : τ) (heads : List τ) (s : Address) :
    headOf Sender (h :: heads) s = if Sender h = s then some h else headOf Sender heads s := by
  by_cases hs : Sender h = s <;> simp [headOf, hs]

/-- An account's list without a next transaction is empty. -/
theorem getD_eq_nil_of_no_next {txs : Address → Option (List τ)} {s : Address}
    (hno : ∀ tx more, txs s ≠ some (tx :: more)) : (txs s).getD [] = [] := by
  cases h : txs s with
  | none => rfl
  | some l =>
    cases l with
    | nil => rfl
    | cons tx more => exact absurd h (hno tx more)

/-- The next transaction of the head's account is of that account. -/
theorem Inv.sender_next {t : TransactionsByPriceAndNonce τ} (hi : Inv GasPrice Sender t)
    {h0 : τ} {rest : List τ} (hheads : t.heads = h0 :: rest) {tx : τ} {more : List τ}
    (htx : t.txs (Sender h0) = some (tx :: more)) : Sender tx = Sender h0 :=
  hi.senders h0 (by simp [hheads]) tx (by simp [htx])

/-- The heads after the dearest one belong to other accounts. -/
theorem Inv.sender_ne {t : TransactionsByPriceAndNonce τ} (hi : Inv GasPrice Sender t)
    {h0 : τ} {rest : List τ} (hheads : t.heads = h0 :: rest) {h : τ} (hh : h ∈ rest) :
    Sender h ≠ Sender h0 := by
  have hn := hi.nodup
  rw [hheads, List.map_cons, List.nodup_cons] at hn
  exact fun he => hn.1 (he ▸ List.mem_map_of_mem hh)

/-- A {lit}`Shift` that pops is the set's {lit}`Pop`. -/
theorem Pop_of_Heap_Pop {t t' : TransactionsByPriceAndNonce τ} {h0 : τ} (htxs : t'.txs = t.txs)
    (hp : Heap.Pop (priceKey GasPrice) t.heads = some (h0, t'.heads)) :
    t.Pop GasPrice = some t' := by
  simp only [Pop, hp, Option.map_some]
  cases t'
  cases htxs
  rfl

/-- {lit}`Pop` keeps the invariant. -/
theorem Pop_inv {t t' : TransactionsByPriceAndNonce τ} (hi : Inv GasPrice Sender t)
    (hp : t.Pop GasPrice = some t') : Inv GasPrice Sender t' := by
  obtain ⟨⟨h0, heads'⟩, hpop, rfl⟩ := Option.map_eq_some_iff.mp hp
  have hperm := Heap.Pop_perm (priceKey GasPrice) hpop
  constructor
  · exact Heap.Pop_isHeap (priceKey GasPrice) hi.heap hpop
  · exact ((hperm.map Sender).nodup_iff.mpr hi.nodup).of_cons
  · intro h hh x hx
    exact hi.senders h (hperm.subset (List.mem_cons_of_mem _ hh)) x hx

/-- {lit}`Pop` drops the root's account, with the rest of its list, and leaves every
other account as it was. -/
theorem remaining_Pop {t t' : TransactionsByPriceAndNonce τ} (hi : Inv GasPrice Sender t)
    (hp : t.Pop GasPrice = some t') {h0 : τ} (hpeek : t.Peek = some h0) (s : Address) :
    remaining Sender t' s = if Sender h0 = s then [] else remaining Sender t s := by
  obtain ⟨⟨x, heads'⟩, hpop, rfl⟩ := Option.map_eq_some_iff.mp hp
  have hx : x = h0 := Option.some.inj ((Heap.Pop_fst (priceKey GasPrice) hpop).symm.trans hpeek)
  subst hx
  have hperm := Heap.Pop_perm (priceKey GasPrice) hpop
  have hnd : ((x :: heads').map Sender).Nodup := (hperm.map Sender).nodup_iff.mpr hi.nodup
  have hrest : ∀ h ∈ heads', Sender h ≠ Sender x := fun h hh he =>
    (List.nodup_cons.mp hnd).1 (he ▸ List.mem_map_of_mem hh)
  simp only [remaining, ← headOf_perm hperm hnd s, headOf_cons]
  by_cases hs : Sender x = s
  · subst hs
    simp [headOf_eq_none hrest]
  · simp [hs]

/-- {lit}`Shift` keeps the invariant. -/
theorem Shift_inv {t t' : TransactionsByPriceAndNonce τ} (hi : Inv GasPrice Sender t)
    (hs : t.Shift GasPrice Sender = some t') : Inv GasPrice Sender t' := by
  obtain ⟨h0, rest, hheads, ⟨tx, more, htx, rfl⟩ | ⟨hno, htxs, hp⟩⟩ := Shift_cases hs
  · -- the next transaction of the account takes the root's place
    have hsx := hi.sender_next hheads htx
    have hperm := Heap.Fix_perm (priceKey GasPrice) (tx :: rest) 0
    have hmap : ((tx :: rest).map Sender).Perm (t.heads.map Sender) := by
      rw [hheads, List.map_cons, List.map_cons, hsx]
    constructor
    · have := Heap.Fix_set_zero_isHeap (priceKey GasPrice) hi.heap tx
      rwa [hheads] at this
    · exact ((hperm.map Sender).trans hmap).nodup_iff.mpr hi.nodup
    · intro h hh x hx
      dsimp only at hh hx ⊢
      rcases List.mem_cons.mp (hperm.mem_iff.mp hh) with rfl | hh
      · simp only [hsx, Function.update_self, Option.getD_some] at hx
        rw [hsx]
        exact hi.senders h0 (by simp [hheads]) x (by simp [htx, hx])
      · have hne := hi.sender_ne hheads hh
        rw [Function.update_of_ne hne] at hx
        exact hi.senders h (by simp [hheads, hh]) x hx
  · -- the root leaves the heap
    exact Pop_inv hi (Pop_of_Heap_Pop htxs hp)

/-- What {lit}`Shift` does to what each account holds: the root's account loses the
root, the others keep theirs. -/
theorem remaining_Shift {t t' : TransactionsByPriceAndNonce τ} (hi : Inv GasPrice Sender t)
    (hs : t.Shift GasPrice Sender = some t') {h0 : τ} (hpeek : t.Peek = some h0)
    (s : Address) :
    remaining Sender t s =
      if Sender h0 = s then h0 :: remaining Sender t' s else remaining Sender t' s := by
  obtain ⟨h0', rest, hheads, hcase⟩ := Shift_cases hs
  have h00 : h0' = h0 := by simpa [Peek, hheads] using hpeek
  subst h00
  have hnd := hi.nodup
  rw [hheads] at hnd
  have hrest : ∀ h ∈ rest, Sender h ≠ Sender h0' := fun h hh => hi.sender_ne hheads hh
  rcases hcase with ⟨tx, more, htx, rfl⟩ | ⟨hno, htxs, hp⟩
  · have hsx := hi.sender_next hheads htx
    have hperm := Heap.Fix_perm (priceKey GasPrice) (tx :: rest) 0
    have hnd' : ((tx :: rest).map Sender).Nodup := by
      rwa [List.map_cons, hsx, ← List.map_cons]
    simp only [remaining, hheads, ← headOf_perm hperm.symm hnd' s, headOf_cons, hsx]
    by_cases hs0 : Sender h0' = s
    · subst hs0
      simp [htx]
    · simp [hs0, Function.update_of_ne (Ne.symm hs0)]
  · have hperm : t'.heads.Perm rest := by
      have := Heap.Pop_perm (priceKey GasPrice) hp
      rw [hheads] at this
      exact this.cons_inv
    have hnd' : (t'.heads.map Sender).Nodup :=
      (hperm.map Sender).nodup_iff.mpr (List.nodup_cons.mp hnd).2
    simp only [remaining, hheads, ← headOf_perm hperm.symm (List.nodup_cons.mp hnd).2 s,
      headOf_cons, htxs]
    by_cases hs0 : Sender h0' = s
    · subst hs0
      simp [headOf_eq_none hrest, getD_eq_nil_of_no_next hno]
    · simp [hs0]

/-- {lit}`Shift` takes one transaction off the set. -/
theorem size_Shift {t t' : TransactionsByPriceAndNonce τ} (hi : Inv GasPrice Sender t)
    (hs : t.Shift GasPrice Sender = some t') : size Sender t = size Sender t' + 1 := by
  obtain ⟨h0, rest, hheads, hcase⟩ := Shift_cases hs
  have hrest : ∀ h ∈ rest, Sender h ≠ Sender h0 := fun h hh => hi.sender_ne hheads hh
  rcases hcase with ⟨tx, more, htx, rfl⟩ | ⟨hno, htxs, hp⟩
  · have hsx := hi.sender_next hheads htx
    -- the other accounts' lists are as they were
    have hsame : (rest.map fun h =>
        ((Function.update t.txs (Sender h0) (some more) (Sender h)).getD []).length + 1) =
        rest.map fun h => ((t.txs (Sender h)).getD []).length + 1 :=
      List.map_congr_left fun h hh => by rw [Function.update_of_ne (hrest h hh)]
    simp only [size, hheads, ((Heap.Fix_perm (priceKey GasPrice) (tx :: rest) 0).map _).sum_eq,
      List.map_cons, List.sum_cons, hsame, hsx, Function.update_self, htx]
    simp
    omega
  · have hperm : t'.heads.Perm rest := by
      have := Heap.Pop_perm (priceKey GasPrice) hp
      rw [hheads] at this
      exact this.cons_inv
    simp only [size, hheads, (hperm.map _).sum_eq, htxs, List.map_cons, List.sum_cons,
      getD_eq_nil_of_no_next hno, List.length_nil]
    omega

/-- A head of another account after {lit}`Shift` was a head before. -/
theorem mem_heads_Shift {t t' : TransactionsByPriceAndNonce τ} (hi : Inv GasPrice Sender t)
    (hs : t.Shift GasPrice Sender = some t') {h0 : τ} (hpeek : t.Peek = some h0) {h : τ}
    (hh : h ∈ t'.heads) (hne : Sender h ≠ Sender h0) : h ∈ t.heads := by
  obtain ⟨h0', rest, hheads, hcase⟩ := Shift_cases hs
  have h00 : h0' = h0 := by simpa [Peek, hheads] using hpeek
  subst h00
  rw [hheads]
  rcases hcase with ⟨tx, more, htx, rfl⟩ | ⟨hno, htxs, hp⟩
  · have hsx := hi.sender_next hheads htx
    rcases List.mem_cons.mp ((Heap.Fix_perm (priceKey GasPrice) (tx :: rest) 0).mem_iff.mp hh)
      with rfl | hh'
    · exact absurd hsx hne
    · exact List.mem_cons_of_mem _ hh'
  · have := (Heap.Pop_perm (priceKey GasPrice) hp).mem_iff.mp (List.mem_cons_of_mem _ hh)
    rwa [hheads] at this

/-! ## Draining the set -/

/-- A set holding no transaction has no heads. -/
theorem heads_eq_nil_of_size {t : TransactionsByPriceAndNonce τ} (h : size Sender t = 0) :
    t.heads = [] := by
  cases hh : t.heads with
  | nil => rfl
  | cons h0 rest =>
    simp [size, hh] at h

/-- The root is at least as dear as every head. -/
theorem Peek_dearest {t : TransactionsByPriceAndNonce τ} (hi : Inv GasPrice Sender t) {tx : τ}
    (hp : t.Peek = some tx) {h : τ} (hh : h ∈ t.heads) : GasPrice h ≤ GasPrice tx :=
  OrderDual.toDual_le_toDual.mp (Heap.IsHeap.root_le (priceKey GasPrice) hi.heap hp hh)

/-- One round of the miner's loop: the dearest head, then the loop on the shifted set. -/
theorem drain_of_Shift {t t' : TransactionsByPriceAndNonce τ} {h0 : τ} (fuel : Nat)
    (hpeek : t.Peek = some h0) (hs : t.Shift GasPrice Sender = some t') :
    drain GasPrice Sender (fuel + 1) t = h0 :: drain GasPrice Sender fuel t' := by
  rw [drain, hpeek]
  simp only [hs]

/-- Draining yields, of every account, what it still holds, in its order. -/
theorem filter_drain (fuel : Nat) {t : TransactionsByPriceAndNonce τ}
    (hi : Inv GasPrice Sender t) (hf : size Sender t ≤ fuel) (s : Address) :
    (drain GasPrice Sender fuel t).filter (fun tx => Sender tx = s) = remaining Sender t s := by
  induction fuel generalizing t with
  | zero =>
    have hh := heads_eq_nil_of_size (Nat.le_zero.mp hf)
    simp [drain, remaining, headOf, hh]
  | succ fuel ih =>
    cases hh : t.heads with
    | nil => simp [drain, Peek, remaining, headOf, hh]
    | cons h0 rest =>
      have hpeek : t.Peek = some h0 := by simp [Peek, hh]
      obtain ⟨t', hs⟩ := Option.isSome_iff_exists.mp (Shift_isSome (t := t) (by simp [hh]))
      have hsize := size_Shift hi hs
      rw [drain_of_Shift fuel hpeek hs, List.filter_cons, remaining_Shift hi hs hpeek s,
        ih (Shift_inv hi hs) (by omega)]
      by_cases h0s : Sender h0 = s <;> simp [h0s]

/-- The first transaction the miner's loop takes is the one {lit}`Peek` shows. -/
theorem Peek_of_drain_head? {fuel : Nat} {t : TransactionsByPriceAndNonce τ} {b : τ}
    (hb : (drain GasPrice Sender fuel t).head? = some b) : t.Peek = some b := by
  cases fuel with
  | zero => simp [drain] at hb
  | succ fuel =>
    rw [drain] at hb
    cases hp : t.Peek with
    | none => simp [hp] at hb
    | some tx =>
      rw [hp] at hb
      dsimp only at hb
      split at hb <;> simpa using hb

/-- Of two transactions the drain yields one after the other from different accounts,
the second is not dearer. -/
theorem isChain_drain (fuel : Nat) {t : TransactionsByPriceAndNonce τ}
    (hi : Inv GasPrice Sender t) :
    (drain GasPrice Sender fuel t).IsChain
      (fun a b => Sender a ≠ Sender b → GasPrice b ≤ GasPrice a) := by
  induction fuel generalizing t with
  | zero => simp [drain]
  | succ fuel ih =>
    rw [drain]
    cases hp : t.Peek with
    | none => simp
    | some h0 =>
      dsimp only
      cases hs : t.Shift GasPrice Sender with
      | none => simp
      | some t' =>
        dsimp only
        refine (ih (Shift_inv hi hs)).cons fun b hb hne => ?_
        -- the next root was a head already, under the old root
        have hb' := Peek_of_drain_head? hb
        have hmem : b ∈ t'.heads := List.mem_of_mem_head? hb'
        exact Peek_dearest hi hp (mem_heads_Shift hi hs hp hmem (Ne.symm hne))

variable (GasPrice Sender) in
/-- The states a set passes through as the miner shifts it, or pops an account whose
transaction failed. -/
inductive Reachable (t0 : TransactionsByPriceAndNonce τ) : TransactionsByPriceAndNonce τ → Prop
  | refl : Reachable t0 t0
  | shift {t t' : TransactionsByPriceAndNonce τ} :
      Reachable t0 t → t.Shift GasPrice Sender = some t' → Reachable t0 t'
  | pop {t t' : TransactionsByPriceAndNonce τ} :
      Reachable t0 t → t.Pop GasPrice = some t' → Reachable t0 t'

/-- Every set the miner's loop reaches keeps the invariant. -/
theorem Reachable.inv {t0 t : TransactionsByPriceAndNonce τ} (h0 : Inv GasPrice Sender t0)
    (hr : Reachable GasPrice Sender t0 t) : Inv GasPrice Sender t := by
  induction hr with
  | refl => exact h0
  | shift _ hs ih => exact Shift_inv ih hs
  | pop _ hp ih => exact Pop_inv ih hp

/-! ## The new set -/

/-- The head of an account after a head is appended: the old one, else the appended one if it is the account's. -/
theorem headOf_append_singleton (heads : List τ) (x : τ) (s : Address) :
    headOf Sender (heads ++ [x]) s =
      (headOf Sender heads s).or (if Sender x = s then some x else none) := by
  by_cases hs : Sender x = s <;> simp [headOf, List.find?_append, hs]

/-- The loop of {lit}`NewTransactionsByPriceAndNonce`, over distinct keys that each hold a
non-empty list of their own transactions: every key gets its first transaction as its
head and keeps the rest. -/
theorem collectHeads_spec (ks : List Address) (txs : Address → Option (List τ))
    (heads : List τ) (hnd : (heads.map Sender ++ ks).Nodup)
    (hks : ∀ k ∈ ks, ∃ tx rest, txs k = some (tx :: rest))
    (hsend : ∀ k ∈ ks, ∀ tx ∈ (txs k).getD [], Sender tx = k)
    (hheads : ∀ h ∈ heads, ∀ tx ∈ (txs (Sender h)).getD [], Sender tx = Sender h) :
    ∃ heads' txs', collectHeads Sender ks txs heads = some (heads', txs') ∧
      heads'.map Sender = heads.map Sender ++ ks ∧
      (∀ h ∈ heads', ∀ tx ∈ (txs' (Sender h)).getD [], Sender tx = Sender h) ∧
      ∀ s, remaining Sender ⟨txs', heads'⟩ s =
        if s ∈ ks then (txs s).getD [] else remaining Sender ⟨txs, heads⟩ s := by
  induction ks generalizing txs heads with
  | nil => exact ⟨heads, txs, rfl, by simp, hheads, by simp⟩
  | cons k ks ih =>
    obtain ⟨tx, rest, htx⟩ := hks k (by simp)
    have hsx : Sender tx = k := hsend k (by simp) tx (by simp [htx])
    have hk : k ∉ heads.map Sender ∧ k ∉ ks := by
      simpa using (List.nodup_cons.mp (List.nodup_middle.mp hnd)).1
    have hne : ∀ k' ∈ ks, k' ≠ k := fun k' hk' he => hk.2 (he ▸ hk')
    have hcons : collectHeads Sender (k :: ks) txs heads =
        collectHeads Sender ks (Function.update txs k (some rest)) (heads ++ [tx]) := by
      simp only [collectHeads, htx, hsx]
    obtain ⟨heads', txs', hcol, hmap, hsenders, hrem⟩ :=
      ih (Function.update txs k (some rest)) (heads ++ [tx])
      (by simpa [hsx] using hnd)
      (fun k' hk' => by simpa [Function.update_of_ne (hne k' hk')] using hks k' (by simp [hk']))
      (fun k' hk' => by simpa [Function.update_of_ne (hne k' hk')] using hsend k' (by simp [hk']))
      (by
        intro h hh x hx
        rcases List.mem_append.mp hh with hh | hh
        · have hhk : Sender h ≠ k := fun he => hk.1 (he ▸ List.mem_map_of_mem hh)
          rw [Function.update_of_ne hhk] at hx
          exact hheads h hh x hx
        · rw [List.mem_singleton.mp hh, hsx] at hx ⊢
          simp only [Function.update_self, Option.getD_some] at hx
          exact hsend k (by simp) x (by simp [htx, hx]))
    refine ⟨heads', txs', hcons ▸ hcol, by simp [hmap, hsx], hsenders, fun s => ?_⟩
    rw [hrem s]
    by_cases hsk : s = k
    · -- the key just visited: its first transaction is the head, the rest is stored
      subst hsk
      have hnone : headOf Sender heads s = none :=
        headOf_eq_none fun h hh he => hk.1 (he ▸ List.mem_map_of_mem hh)
      simp [hk.2, remaining, headOf_append_singleton, hnone, hsx, htx]
    · have hx : Sender tx ≠ s := hsx ▸ Ne.symm hsk
      by_cases hs : s ∈ ks
      · simp [hs, Function.update_of_ne hsk]
      · simp [hs, hsk, remaining, headOf_append_singleton, hx]

/-- With one head per account, the size counts what each account holds. -/
theorem size_eq_sum_remaining {t : TransactionsByPriceAndNonce τ}
    (hn : (t.heads.map Sender).Nodup) :
    size Sender t = (t.heads.map fun h => (remaining Sender t (Sender h)).length).sum := by
  unfold size
  congr 1
  refine List.map_congr_left fun h hh => ?_
  simp [remaining, headOf_eq_some hn hh]

/-- Two lists that agree account by account are permutations of each other. -/
theorem perm_of_filter_eq {l l' : List τ}
    (h : ∀ s, l.filter (fun tx => Sender tx = s) = l'.filter (fun tx => Sender tx = s)) :
    l.Perm l' := by
  classical
  rw [List.perm_iff_count]
  intro x
  rw [← List.count_filter (p := fun tx => decide (Sender tx = Sender x)) (by simp), h,
    List.count_filter (by simp)]

/-- Of the lists of a map, ranged over by their keys, a sender's transactions are its
own list. -/
theorem filter_flatMap_own (txs : Address → Option (List τ)) (order : List Address)
    (horder : order.Nodup) (hsender : ∀ s l, txs s = some l → ∀ tx ∈ l, Sender tx = s)
    (s : Address) :
    (order.flatMap fun s' => (txs s').getD []).filter (fun tx => Sender tx = s) =
      if s ∈ order then (txs s).getD [] else [] := by
  induction order with
  | nil => simp
  | cons k ks ih =>
    have hk := List.nodup_cons.mp horder
    have hown : ((txs k).getD []).filter (fun tx => Sender tx = s) =
        if k = s then (txs k).getD [] else [] := by
      cases hl : txs k with
      | none => simp
      | some l =>
        have hl' := hsender k l hl
        split
        · next hks => exact List.filter_eq_self.mpr fun tx htx => by simp [hl' tx htx, hks]
        · next hks => exact List.filter_eq_nil_iff.mpr fun tx htx => by simp [hl' tx htx, hks]
    rw [List.flatMap_cons, List.filter_append, ih hk.2, hown]
    by_cases hks : k = s
    · subst hks
      simp [hk.1]
    · simp [hks, Ne.symm hks]

end TransactionsByPriceAndNonce

open TransactionsByPriceAndNonce

/-- {lit}`NewTransactionsByPriceAndNonce` of a map from senders to non-empty lists of
their transactions, ranged over in any order, builds a set that keeps the invariant and
holds every sender's list whole. -/
theorem NewTransactionsByPriceAndNonce_spec (txs : Address → Option (List τ))
    (order : List Address) (horder : order.Nodup) (hkeys : ∀ s, (txs s).isSome ↔ s ∈ order)
    (hne : ∀ s l, txs s = some l → l ≠ [])
    (hsender : ∀ s l, txs s = some l → ∀ tx ∈ l, Sender tx = s) :
    ∃ t0, NewTransactionsByPriceAndNonce GasPrice Sender txs order = some t0 ∧
      Inv GasPrice Sender t0 ∧ (∀ s, remaining Sender t0 s = (txs s).getD []) ∧
      size Sender t0 = (order.map fun s => ((txs s).getD []).length).sum := by
  have hsome : ∀ s, s ∉ order → txs s = none := fun s hs =>
    Option.not_isSome_iff_eq_none.mp fun h => hs ((hkeys s).mp h)
  obtain ⟨heads, txs', hcol, hmap, hsenders, hrem⟩ := collectHeads_spec order txs []
    (by simpa using horder)
    (fun k hk => by
      obtain ⟨l, hl⟩ := Option.isSome_iff_exists.mp ((hkeys k).mpr hk)
      cases l with
      | nil => exact absurd rfl (hne k [] hl)
      | cons tx rest => exact ⟨tx, rest, hl⟩)
    (fun k _ tx htx => by
      cases hk : txs k with
      | none => simp [hk] at htx
      | some l => exact hsender k l hk tx (by simpa [hk] using htx))
    (by simp)
  set t0 : TransactionsByPriceAndNonce τ := ⟨txs', Heap.Init (priceKey GasPrice) heads⟩
  have hperm := Heap.Init_perm (priceKey GasPrice) heads
  have hnd : (heads.map Sender).Nodup := by simpa [hmap] using horder
  have hnd0 : (t0.heads.map Sender).Nodup := (hperm.map Sender).nodup_iff.mpr hnd
  -- what each sender holds in the new set is its whole list
  have hrem0 : ∀ s, remaining Sender t0 s = (txs s).getD [] := by
    intro s
    have h1 : remaining Sender t0 s = remaining Sender ⟨txs', heads⟩ s := by
      simp only [remaining, t0, headOf_perm hperm hnd0 s]
    rw [h1, hrem s]
    split
    · rfl
    · next hs => simp [remaining, headOf, hsome s hs]
  have hinv : Inv GasPrice Sender t0 :=
    ⟨Heap.Init_isHeap _ heads, hnd0, fun h hh => hsenders h (hperm.mem_iff.mp hh)⟩
  refine ⟨t0, by simp [NewTransactionsByPriceAndNonce, hcol, t0], hinv, hrem0, ?_⟩
  -- the heads are the senders of the order, permuted
  have hm : (t0.heads.map fun h => ((txs (Sender h)).getD []).length) =
      (t0.heads.map Sender).map fun s => ((txs s).getD []).length := by
    rw [List.map_map]; rfl
  rw [size_eq_sum_remaining hnd0]
  simp only [hrem0]
  rw [hm]
  exact ((hperm.map Sender).map _).sum_eq.trans (by simp [hmap])

/-- Draining {lit}`NewTransactionsByPriceAndNonce` of a map from senders to non-empty
lists of their transactions, ranged over in any order, with enough rounds: every
transaction comes out once, each sender's in the order of its list, each at least as
dear as every head of the set at its moment, and of two consecutive transactions of
different senders the second is not dearer. -/
theorem drain_price_and_nonce (txs : Address → Option (List τ)) (order : List Address)
    (horder : order.Nodup) (hkeys : ∀ s, (txs s).isSome ↔ s ∈ order)
    (hne : ∀ s l, txs s = some l → l ≠ [])
    (hsender : ∀ s l, txs s = some l → ∀ tx ∈ l, Sender tx = s)
    (fuel : Nat) (hfuel : (order.map fun s => ((txs s).getD []).length).sum ≤ fuel) :
    ∃ t0, NewTransactionsByPriceAndNonce GasPrice Sender txs order = some t0 ∧
      (drain GasPrice Sender fuel t0).Perm (order.flatMap fun s => (txs s).getD []) ∧
      (∀ s, (drain GasPrice Sender fuel t0).filter (fun tx => Sender tx = s) = (txs s).getD []) ∧
      (∀ t, Reachable GasPrice Sender t0 t → ∀ tx, t.Peek = some tx →
        ∀ h ∈ t.heads, GasPrice h ≤ GasPrice tx) ∧
      (drain GasPrice Sender fuel t0).IsChain
        (fun a b => Sender a ≠ Sender b → GasPrice b ≤ GasPrice a) := by
  obtain ⟨t0, hnew, hinv, hrem0, hsize⟩ :=
    NewTransactionsByPriceAndNonce_spec GasPrice Sender txs order horder hkeys hne hsender
  have hfilter := fun s => (filter_drain fuel hinv (hsize ▸ hfuel) s).trans (hrem0 s)
  refine ⟨t0, hnew, ?_, hfilter, ?_, isChain_drain fuel hinv⟩
  · apply perm_of_filter_eq
    intro s
    rw [hfilter s, filter_flatMap_own txs order horder hsender s]
    split
    · rfl
    · next hs => simp [Option.not_isSome_iff_eq_none.mp fun h => hs ((hkeys s).mp h)]
  · intro t hr tx hp h hh
    exact Peek_dearest (hr.inv hinv) hp hh

/-- Two accounts, one holding transactions priced 5 and 3 and the other 4 and 6,
drained with fuel 4.  A transaction is its sender and its price. -/
theorem drain_price_and_nonce_two_senders :
    let a : Address := Address.zero
    let b : Address := ⟨List.replicate 20 1, by simp⟩
    let txs : Address → Option (List (Address × Nat)) := fun s =>
      if s = a then some [(a, 5), (a, 3)] else if s = b then some [(b, 4), (b, 6)] else none
    let order := [a, b]
    let price : Address × Nat → Int := fun tx => tx.2
    ∃ t0, NewTransactionsByPriceAndNonce price Prod.fst txs order = some t0 ∧
      (drain price Prod.fst 4 t0).Perm (order.flatMap fun s => (txs s).getD []) ∧
      (∀ s, (drain price Prod.fst 4 t0).filter (fun tx => tx.1 = s) = (txs s).getD []) ∧
      (∀ t, Reachable price Prod.fst t0 t → ∀ tx, t.Peek = some tx →
        ∀ h ∈ t.heads, price h ≤ price tx) ∧
      (drain price Prod.fst 4 t0).IsChain (fun x y => x.1 ≠ y.1 → price y ≤ price x) := by
  intro a b txs order price
  have hab : a ≠ b := by decide
  -- the two senders' lists are the only entries
  have hcases : ∀ s l, txs s = some l →
      (s = a ∧ l = [(a, 5), (a, 3)]) ∨ (s = b ∧ l = [(b, 4), (b, 6)]) := by
    intro s l h
    by_cases ha : s = a
    · simp only [txs, ha, if_true, Option.some.injEq] at h
      exact .inl ⟨ha, h.symm⟩
    · by_cases hb : s = b
      · simp only [txs, hb, if_true, if_false, hab.symm, Option.some.injEq] at h
        exact .inr ⟨hb, h.symm⟩
      · simp [txs, ha, hb] at h
  refine drain_price_and_nonce price Prod.fst txs order (by decide) (fun s => ?_) (fun s l h => ?_)
    (fun s l h tx htx => ?_) 4 (by decide)
  · by_cases ha : s = a
    · simp [txs, order, ha]
    · by_cases hb : s = b <;> simp [txs, order, ha, hb, hab.symm]
  · rcases hcases s l h with ⟨-, rfl⟩ | ⟨-, rfl⟩ <;> simp
  · rcases hcases s l h with ⟨rfl, rfl⟩ | ⟨rfl, rfl⟩ <;>
      simp only [List.mem_cons, List.mem_nil_iff, or_false] at htx <;> rcases htx with rfl | rfl <;> rfl

end Types
end Uranus
