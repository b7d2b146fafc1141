import Uranus.State.Live
import Uranus.Lib.FoldM
import Uranus.Consensus.Schedule

/-!
# Executing a block ({lit}`core/executor/executor.go`)

{lit}`ExecBlock` first runs the block's actions, then its transactions, then the
engine's {lit}`Finalize`.  An action names a sender, and {lit}`ExecActions` moves that
sender's whole unlocked balance into its balance.  No signature is asked of the
sender and no time is compared: an action is released as soon as a block holds it.
{lit}`ValidateTxs` checks the transactions against the header's root and never
reads the actions, and the state root the header commits to is computed with
whatever actions the proposer put in.  So a block moves an account's unlocked
stake to its balance without a {lit}`Redeem` of the account and before
{lit}`DelayDuration` has passed.

Main results:

- Theorem {lit}`execAction_of_lookup`: one action releases its sender's stake and
  changes no other account.
- Theorem {lit}`ExecActions_lookup`: after the actions, every sender's account is
  released and every other account is as before.
- Theorem {lit}`ExecBlock_releases_without_redeem`: a block of one action and no
  transaction hands {lit}`Finalize` a state in which the action's sender holds its
  unlocked stake as balance, and {lit}`ValidateTxs` judges it as the block without
  the action.
-/

namespace Uranus

/-! ## What an action does to an account -/

namespace State

/-- An account whose unlocked balance has been released into its balance. -/
def StateObject.release (o : StateObject) : StateObject :=
  (o.setBig .balance (some (o.data.balance.getD 0 + o.data.unLockedBalance.getD 0))).setBig
    .unLockedBalance (some 0)

/-- The object of an account that an action can release: its balance and its unlocked
balance are set. -/
def StateObject.Releasable (o : StateObject) : Prop :=
  o.data.balance.isSome ∧ o.data.unLockedBalance.isSome

/-- A released account has nothing left to release. -/
theorem StateObject.release_release (o : StateObject) : o.release.release = o.release := by
  obtain ⟨addr, ⟨unl, udt, lb, dt, n, bal, root, ch⟩, rest⟩ := o
  simp [StateObject.release, StateObject.setBig, Account.setBig]

/-- Releasing adds the unlocked balance to the balance. -/
@[simp]
theorem StateObject.balance_release (o : StateObject) :
    o.release.data.balance = some (o.data.balance.getD 0 + o.data.unLockedBalance.getD 0) := by
  simp [StateObject.release, StateObject.setBig, Account.setBig]

/-- Releasing leaves no unlocked balance. -/
@[simp]
theorem StateObject.unLockedBalance_release (o : StateObject) :
    o.release.data.unLockedBalance = some 0 := by
  simp [StateObject.release, StateObject.setBig, Account.setBig]

/-- A released object can be released again. -/
theorem StateObject.releasable_release (o : StateObject) : o.release.Releasable := by
  simp [StateObject.release, StateObject.Releasable, StateObject.setBig, Account.setBig]

end State

namespace Executor

open Uranus.Types Uranus.State

/-! ## The model -/

/-- The loop body of {lit}`ExecActions`: the sender's unlocked balance is added to its
balance and set to zero.  A nil unlocked balance panics in {lit}`AddBalance`. -/
def execAction (statedb : StateDB) (a : Action) : Option StateDB := do
  let (lb, statedb) := statedb.GetUnLockedBalance a.Sender
  let statedb ← statedb.AddBalance a.Sender lb
  statedb.SetUnLockedBalance a.Sender (some 0)

/-- {lit}`ExecActions`. -/
def ExecActions (statedb : StateDB) (actions : List Action) : Option StateDB :=
  actions.foldlM execAction statedb

/-- The loop of {lit}`ExecBlock` over the transactions, from index {lit}`i`: each is
prepared with its hash, the block's hash and its index, and executed; the first
error ends the block. -/
def execTxs {ρ ε : Type} (ExecTransaction : StateDB → Transaction → Except ε (ρ × StateDB))
    (txHash : Transaction → Hash) (blockHash : Hash) :
    Nat → List Transaction → StateDB → Except ε (List ρ × StateDB)
  | _, [], statedb => .ok ([], statedb)
  | i, tx :: txs, statedb =>
    match ExecTransaction (statedb.Prepare (txHash tx) blockHash i) tx with
    | .error err => .error err
    | .ok (receipt, statedb) =>
      (execTxs ExecTransaction txHash blockHash (i + 1) txs statedb).map
        fun (receipts, statedb) => (receipt :: receipts, statedb)

/-- {lit}`ExecBlock`, over the execution of one transaction and the engine's
{lit}`Finalize`, whose returned block and error it drops.  The outer {lean}`Option`
is a panic of the actions. -/
def ExecBlock {ρ ε : Type} (ExecTransaction : StateDB → Transaction → Except ε (ρ × StateDB))
    (Finalize : StateDB → List ρ → StateDB) (txHash : Transaction → Hash) (blockHash : Hash)
    (block : Block) (statedb : StateDB) : Option (Except ε (List ρ × StateDB)) := do
  let statedb ← ExecActions statedb block.Actions
  pure <| (execTxs ExecTransaction txHash blockHash 0 block.Transactions statedb).map
    fun (receipts, statedb) => (receipts, Finalize statedb receipts)

/-! ## What an action does -/

section Actions

variable {s : StateDB}

/-- One action on a live, releasable account releases it and changes no other. -/
theorem execAction_of_lookup (hwf : s.WellFormed) {act : Action} {o : StateObject}
    (h : s.lookupObject act.Sender = some o) (hr : o.Releasable) :
    ∃ s', execAction s act = some s' ∧ StateDB.Updates s s' act.Sender o.release := by
  obtain ⟨b, hb⟩ := Option.isSome_iff_exists.mp hr.1
  obtain ⟨u, hu⟩ := Option.isSome_iff_exists.mp hr.2
  -- reading the unlocked balance changes no lookup
  obtain ⟨hget, hkeep⟩ := StateDB.GetBig_of_lookup hwf h .unLockedBalance
  have h₁ : (s.GetBig .unLockedBalance act.Sender).2.lookupObject act.Sender = some o := by
    rw [hkeep.lookupObject, h]
  obtain ⟨s₂, hadd, hup₂⟩ := StateDB.AddBalance_of_lookup hkeep.wellFormed h₁ hb u
  -- the added balance leaves the unlocked one to set to zero
  have hu₂ : (o.setBig .balance (some (b + u))).data.getBig .unLockedBalance = some u := by
    rw [StateObject.data_setBig, Account.getBig_setBig_of_ne _ (by decide)]
    exact hu
  obtain ⟨s₃, hset, hup₃⟩ := StateDB.SetBig_of_lookup hup₂.wellFormed
    (hup₂.lookup_self) hu₂ (some 0)
  have hrel : (o.setBig .balance (some (b + u))).setBig .unLockedBalance (some 0) = o.release := by
    rw [StateObject.release, hb, hu]
    rfl
  refine ⟨s₃, ?_, ?_⟩
  · have hrun : execAction s act =
        ((s.GetBig .unLockedBalance act.Sender).2.AddBalance act.Sender
          (s.GetBig .unLockedBalance act.Sender).1).bind
          fun s => s.SetUnLockedBalance act.Sender (some 0) := rfl
    have hu' : o.data.getBig .unLockedBalance = some u := hu
    rw [hrun, hget, hu', hadd]
    exact hset
  · rw [← hrel]
    exact hkeep.updates (hup₂.trans hup₃)

/-- After the actions of a list whose senders all have live, releasable accounts, every
sender's account is released, once however often it is named, and every other
account is as before. -/
theorem ExecActions_lookup (hwf : s.WellFormed) {actions : List Action}
    (hlive : ∀ act ∈ actions, ∃ o, s.lookupObject act.Sender = some o ∧ o.Releasable) :
    ∃ s', ExecActions s actions = some s' ∧ s'.WellFormed ∧
      ∀ c, s'.lookupObject c =
        if c ∈ actions.map Action.Sender then (s.lookupObject c).map StateObject.release
        else s.lookupObject c := by
  -- the invariant after the actions {lit}`done`: their senders released, the rest as in {lit}`s`
  obtain ⟨s', hrun, hwf', hlook⟩ := Lib.foldlM_option_inv execAction
    (fun done s' => s'.WellFormed ∧ ∀ c, s'.lookupObject c =
      if c ∈ done.map Action.Sender then (s.lookupObject c).map StateObject.release
      else s.lookupObject c)
    actions [] s ⟨hwf, fun c => by simp⟩ (by
      rintro done act rest s₁ hsplit ⟨hwf₁, hlook₁⟩
      have hact : act ∈ actions := by
        rw [List.nil_append] at hsplit
        rw [← hsplit]
        simp
      obtain ⟨o, ho, hr⟩ := hlive act hact
      -- the account the action finds: released already if an earlier action named it
      have hfound : s₁.lookupObject act.Sender =
          some (if act.Sender ∈ done.map Action.Sender then o.release else o) := by
        rw [hlook₁, ho]
        split_ifs <;> rfl
      have hr₁ : (if act.Sender ∈ done.map Action.Sender then o.release else o).Releasable := by
        split_ifs
        · exact o.releasable_release
        · exact hr
      obtain ⟨s₂, hstep, hup⟩ := execAction_of_lookup hwf₁ hfound hr₁
      refine ⟨s₂, hstep, hup.wellFormed, fun c => ?_⟩
      rw [hup.lookupObject]
      by_cases hc : c = act.Sender
      · subst hc
        have hmem : act.Sender ∈ (done ++ [act]).map Action.Sender := by simp
        rw [if_pos rfl, if_pos hmem, ho, Option.map_some]
        split_ifs <;> simp [StateObject.release_release]
      · rw [if_neg hc, hlook₁]
        simp [hc])
  exact ⟨s', hrun, hwf', hlook⟩

/-- The zero address named twice, over a trie in which every account holds ten and five
unlocked: it is released once, and every other account is untouched. -/
theorem ExecActions_lookup_twice :
    let db : Database := ⟨fun _ => Hash.zero, fun _ => none, fun _ _ => Hash.zero⟩
    let acct : Account := ⟨some 5, some 0, some 0, some 0, 0, some 10, Hash.zero, some []⟩
    let s : StateDB := StateDB.New db fun _ => some acct
    let act : Action := ⟨Hash.zero, Address.zero, none, none⟩
    (∀ a ∈ [act, act], ∃ o, s.lookupObject a.Sender = some o ∧ o.Releasable) ∧
      ∃ s', ExecActions s [act, act] = some s' ∧ s'.WellFormed ∧
        ∀ c, s'.lookupObject c =
          if c ∈ [act, act].map Action.Sender then (s.lookupObject c).map StateObject.release
          else s.lookupObject c := by
  intro db acct s act
  have hlive : ∀ a ∈ [act, act], ∃ o, s.lookupObject a.Sender = some o ∧ o.Releasable := by
    intro a ha
    refine ⟨newObject db a.Sender acct, rfl, ?_⟩
    simp [StateObject.Releasable, newObject, orNew, acct]
  exact ⟨hlive, ExecActions_lookup (StateDB.wellFormed_New db _) hlive⟩

end Actions

/-! ## A block that releases stake without a Redeem -/

/-- A block of one action and no transaction, whatever its header: the state it hands
{lit}`Finalize` holds the action's sender released (its unlocked balance added to its
balance, the unlocked balance zero) and every other account as before, although the
sender signed nothing; and {lit}`ValidateTxs` gives the block the verdict it gives the
same header without the action. -/
theorem ExecBlock_releases_without_redeem {ρ ε : Type}
    (ExecTransaction : StateDB → Transaction → Except ε (ρ × StateDB))
    (Finalize : StateDB → List ρ → StateDB) (txHash : Transaction → Hash) (blockHash : Hash)
    (e : Consensus.Engine) (DeriveRootHash : List Bytes → Hash) (ledger : Validator.Ledger)
    (header : BlockHeader) {s : StateDB} (hwf : s.WellFormed) {act : Action} {o : StateObject}
    (h : s.lookupObject act.Sender = some o) {b u : Int} (hb : o.data.balance = some b)
    (hu : o.data.unLockedBalance = some u) :
    (∃ s', ExecBlock ExecTransaction Finalize txHash blockHash ⟨header, [act], []⟩ s =
        some (.ok ([], Finalize s' [])) ∧
      s'.lookupObject act.Sender = some o.release ∧
      o.release.data.balance = some (b + u) ∧ o.release.data.unLockedBalance = some 0 ∧
      ∀ c, c ≠ act.Sender → s'.lookupObject c = s.lookupObject c) ∧
    Validator.ValidateTxs e DeriveRootHash ledger ⟨header, [act], []⟩ =
      Validator.ValidateTxs e DeriveRootHash ledger ⟨header, [], []⟩ := by
  obtain ⟨s', hstep, hup⟩ := execAction_of_lookup hwf h ⟨by simp [hb], by simp [hu]⟩
  have hacts : ExecActions s [act] = some s' := by
    simp [ExecActions, hstep]
  refine ⟨⟨s', ?_, hup.lookup_self, ?_, ?_, hup.lookup_other⟩, rfl⟩
  · show (ExecActions s [act]).bind _ = _
    rw [hacts]
    rfl
  · rw [StateObject.balance_release, hb, hu]
    rfl
  · exact StateObject.unLockedBalance_release o

/-- The theorem on a state opened over a trie in which every account holds a balance of
ten and five unlocked: the zero address's action releases its five. -/
theorem ExecBlock_releases_without_redeem_zero :
    let db : Database := ⟨fun _ => Hash.zero, fun _ => none, fun _ _ => Hash.zero⟩
    let acct : Account := ⟨some 5, some 0, some 0, some 0, 0, some 10, Hash.zero, some []⟩
    let s : StateDB := StateDB.New db fun _ => some acct
    let act : Action := ⟨Hash.zero, Address.zero, none, none⟩
    (∃ s', ExecBlock (fun s (_ : Transaction) => (.ok ((), s) : Except Unit (Unit × StateDB)))
          (fun s _ => s) (fun _ => Hash.zero) Hash.zero ⟨Consensus.genesisHeader, [act], []⟩ s =
        some (.ok ([], s')) ∧
      s'.lookupObject act.Sender = some (newObject db Address.zero acct).release ∧
      (newObject db Address.zero acct).release.data.balance = some (10 + 5) ∧
      (newObject db Address.zero acct).release.data.unLockedBalance = some 0 ∧
      ∀ c, c ≠ act.Sender → s'.lookupObject c = s.lookupObject c) ∧
    Validator.ValidateTxs Consensus.oneValidatorEngine (fun _ => Hash.zero)
        (Consensus.listLedger []) ⟨Consensus.genesisHeader, [act], []⟩ =
      Validator.ValidateTxs Consensus.oneValidatorEngine (fun _ => Hash.zero)
        (Consensus.listLedger []) ⟨Consensus.genesisHeader, [], []⟩ := by
  intro db acct s act
  exact ExecBlock_releases_without_redeem _ (fun s _ => s) _ _ _ _ _ _
    (StateDB.wellFormed_New db _) (o := newObject db Address.zero acct) rfl rfl rfl

end Executor
end Uranus
