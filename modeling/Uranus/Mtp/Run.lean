import Uranus.Mtp.HasherSpec
import Uranus.Mtp.GetSpec
import Uranus.Mtp.InsertSpec
import Uranus.Mtp.DeleteSpec

/-!
# A run of trie operations refines a finite map

A trie stands for a map from byte keys to non-empty values: {lit}`TryGet` reads the
value under the prefixed key.  This module runs any sequence of updates, deletions,
hashes and commits, and reopenings of the trie at a committed root after the
database was flushed, and shows that the trie keeps standing for the map the
operations build, {lit}`abstractRun`.

The Keccak-256 sum is a parameter, so two blobs may hash alike; the run's blobs are
drawn from a set {lit}`B` on which it has no collision.  The run's invariant
{lit}`RunInv` says that the trie is {lit}`Trie.Valid`: its root stores, in the
canonical shape of {lit}`Rep`, a map that holds the abstract map under the
prefixed keys; its caches are right; and its database agrees with the blobs of
{lit}`B`.  Every operation keeps it or stops at a missing node.

Main results:

- Theorem {lit}`Op.apply_inv`: the step lemma, one case per operation.
- Theorem {lit}`exec_inv`: the run lemma, by induction on the operations.
- Theorem {lit}`TryGet_run_refines`: after a run from an empty trie, for instance
  one opened by {lit}`New` or {lit}`NewWithPrefix` at the empty root, {lit}`TryGet`
  returns what the abstract map holds, unless a node is missing.
- Theorem {lit}`reopenFrom_after_Commit_missing`: the limit of reopening from
  another database.  After a {lit}`Commit`, {lit}`CommitTo` writes nothing, not all
  nodes as its comment says, so a trie reopened from a fresh database at the
  returned root fails with a missing node.
-/

namespace Uranus
namespace Mtp

open Lib

/-! ## Operations -/

/-- The operations of a run on one trie.  The two reopening operations commit,
flush the database from the returned root with {lit}`Database.Commit`, and open
the trie again at that root with the same key prefix. -/
inductive Op where
  | update (key value : Bytes)
  | delete (key : Bytes)
  | hash
  | commit (onleaf : Option LeafCallback)
  | commitTo (db : Database)
  | reopen (onleaf : Option LeafCallback)
  | reopenFrom (db : Database)

/-- A Go panic, where a model function returns {lean}`none`, as a trie error. -/
def orPanic {α : Type} : Option α → Except TrieError α
  | some a => .ok a
  | none => .error .panic

namespace Op

variable (sha : Bytes → Hash)

/-- An operation on a trie; a commit keeps the trie with its cached copy of the
root. -/
def apply : Op → Trie → Except TrieError Trie
  | .update key value, t => t.TryUpdate key value
  | .delete key, t => t.TryDelete key
  | .hash, t => (orPanic (t.Hash sha)).map Prod.snd
  | .commit onleaf, t => (orPanic (t.Commit sha onleaf)).map Prod.snd
  | .commitTo db, t => (orPanic (t.CommitTo sha db)).map fun r => r.2.1
  | .reopen onleaf, t => (orPanic (t.Commit sha onleaf)).bind fun r =>
      NewWithPrefix r.1 t.keyPrefix (r.2.db.Commit r.1)
  | .reopenFrom db, t => (orPanic (t.CommitTo sha db)).bind fun r =>
      NewWithPrefix r.1 t.keyPrefix (r.2.2.Commit r.1)

/-- What an operation does to the map from keys to values a trie stands for: an
update with the empty value deletes. -/
def abstract : Op → (Bytes → Option Bytes) → (Bytes → Option Bytes)
  | .update key value, M => Function.update M key (if value = [] then none else some value)
  | .delete key, M => Function.update M key none
  | _, M => M

end Op

/-- Run operations one after another, stopping at the first error. -/
def exec (sha : Bytes → Hash) : List Op → Trie → Except TrieError Trie
  | [], t => .ok t
  | op :: ops, t => (op.apply sha t).bind (exec sha ops)

/-- The abstract run: the map after the operations. -/
def abstractRun : List Op → (Bytes → Option Bytes) → (Bytes → Option Bytes)
  | [], M => M
  | op :: ops, M => abstractRun ops (op.abstract M)

/-! ## Runs within a set of blobs -/

section Within

variable (sha : Bytes → Hash) (B : Set Bytes)

/-- A database whose non-empty blobs are stored under their hashes and drawn from
{lit}`B`. -/
def ContentAddressed (db : Database) : Prop :=
  ∀ h e, db.Node h = some e → e ≠ [] → sha e = h ∧ e ∈ B

/-- What a run asks of an operation's arguments: a leaf callback changes no read,
and another database is content-addressed within {lit}`B`. -/
def Op.Within : Op → Prop
  | .commit onleaf => ∀ cb, onleaf = some cb → KeepsReads cb
  | .reopen onleaf => ∀ cb, onleaf = some cb → KeepsReads cb
  | .commitTo db => ContentAddressed sha B db
  | .reopenFrom db => ContentAddressed sha B db
  | _ => True

/-- A run whose tries all have the blobs of their nodes in {lit}`B`. -/
def RunWithin : Trie → List Op → Prop
  | t, [] => t.root.BlobsIn sha B
  | t, op :: ops => t.root.BlobsIn sha B ∧ op.Within sha B ∧
      ∀ t', op.apply sha t = .ok t' → RunWithin t' ops

end Within

/-- A trie of a run storing {lit}`m`: in canonical shape at terminated paths, with
right caches, over a database that agrees with the blobs of the run. -/
structure Trie.Valid (sha : Bytes → Uranus.Hash) (B : Set Bytes) (t : Trie) (m : Content) : Prop where
  rep : Rep (BlobRel sha B) t.root m
  terminal : Terminal m
  cachesOk : t.root.CachesOk sha B true
  agrees : DbAgrees (BlobRel sha B) t.db

section Inv

variable (sha : Bytes → Hash) (B : Set Bytes)

/-- The map {lit}`m` holds {lit}`M` under the keys with prefix {lit}`p`, and nothing
under any other path. -/
structure Abstracts (p : Bytes) (m : Content) (M : Bytes → Option Bytes) : Prop where
  holds : ∀ k, m (keybytesToHex (p ++ k)) = M k
  support : ∀ q, m q ≠ none → ∃ k, q = keybytesToHex (p ++ k)

/-- The invariant of a run: the trie stores a map that holds {lit}`M` under its
prefixed keys. -/
def RunInv (t : Trie) (M : Bytes → Option Bytes) : Prop :=
  ∃ m, t.Valid sha B m ∧ Abstracts t.keyPrefix m M

end Inv

/-! ## The abstract map -/

/-- Different keys have different prefixed hex spellings. -/
theorem keybytesToHex_append_inj {p k k' : Bytes}
    (h : keybytesToHex (p ++ k) = keybytesToHex (p ++ k')) : k = k' := by
  have hb := congrArg hexToKeybytes h
  rw [hexToKeybytes_keybytesToHex, hexToKeybytes_keybytesToHex] at hb
  exact List.append_cancel_left (Option.some.inj hb)

/-- Setting the prefixed spelling of a key sets the key. -/
theorem Abstracts.update {p : Bytes} {m : Content} {M : Bytes → Option Bytes}
    (h : Abstracts p m M) (k : Bytes) (w : Option Bytes) :
    Abstracts p (Function.update m (keybytesToHex (p ++ k)) w) (Function.update M k w) := by
  constructor
  · intro k'
    by_cases hk : k' = k
    · subst hk
      simp
    · rw [Function.update_of_ne (fun h => hk (keybytesToHex_append_inj h)),
        Function.update_of_ne hk]
      exact h.holds k'
  · intro q hq
    by_cases hqk : q = keybytesToHex (p ++ k)
    · exact ⟨k, hqk⟩
    · rw [Function.update_of_ne hqk] at hq
      exact h.support q hq

/-- The map of a trie is given by its prefix and the abstract map. -/
theorem Abstracts.unique {p : Bytes} {m m' : Content} {M : Bytes → Option Bytes}
    (h : Abstracts p m M) (h' : Abstracts p m' M) : m = m' := by
  funext q
  by_cases hq : m q = none
  · by_cases hq' : m' q = none
    · rw [hq, hq']
    · obtain ⟨k, rfl⟩ := h'.support q hq'
      rw [h.holds, h'.holds]
  · obtain ⟨k, rfl⟩ := h.support q hq
    rw [h.holds, h'.holds]

/-- The abstract map holds no empty value: an update with the empty value deletes. -/
theorem abstractRun_ne_nil : ∀ (ops : List Op) {M : Bytes → Option Bytes},
    (∀ k, M k ≠ some []) → ∀ k, abstractRun ops M k ≠ some []
  | [], _, hM, k => hM k
  | op :: ops, M, hM, k => by
    refine abstractRun_ne_nil ops (fun k' => ?_) k
    cases op with
    | update key value =>
      by_cases hk : k' = key
      · subst hk
        by_cases hv : value = [] <;> simp [Op.abstract, hv]
      · simpa [Op.abstract, hk] using hM k'
    | delete key =>
      by_cases hk : k' = key
      · subst hk
        simp [Op.abstract]
      · simpa [Op.abstract, hk] using hM k'
    | _ => exact hM k'

/-! ## One operation -/

section Steps

variable {sha : Bytes → Uranus.Hash} {B : Set Bytes} {t : Trie} {m : Content}

/-- {lit}`TryUpdate` on a valid trie: the key is set, or a node is missing. -/
theorem Trie.Valid.tryUpdate (hv : t.Valid sha B m) (key value : Bytes) :
    (∃ t', t.TryUpdate key value = .ok t' ∧ t'.keyPrefix = t.keyPrefix ∧
      t'.Valid sha B (Function.update m (keybytesToHex (t.keyPrefix ++ key))
        (if value = [] then none else some value))) ∨
      ∃ e, t.TryUpdate key value = .error (.missing e) := by
  by_cases hval : value = []
  · subst hval
    rcases TryUpdate_delete_spec t hv.agrees hv.rep hv.terminal key with ⟨n', hr, hrep'⟩ | hmiss
    · refine .inl ⟨_, hr, rfl, ⟨by simpa using hrep', hv.terminal.update (.inl rfl), ?_, hv.agrees⟩⟩
      exact TryUpdate_cachesOk t hv.agrees hv.rep hv.cachesOk hr
    · exact .inr hmiss
  · rcases TryUpdate_insert_spec t hv.agrees hv.rep hv.terminal key value hval with
      ⟨n', hr, hrep'⟩ | hmiss
    · refine .inl ⟨_, hr, rfl, ⟨by simpa [hval] using hrep', ?_, ?_, hv.agrees⟩⟩
      · simpa [hval] using hv.terminal.update (.inr (keybytesToHex_terminated (t.keyPrefix ++ key)))
      · exact TryUpdate_cachesOk t hv.agrees hv.rep hv.cachesOk hr
    · exact .inr hmiss

/-- {lit}`TryDelete` on a valid trie: the key is removed, or a node is missing. -/
theorem Trie.Valid.tryDelete (hv : t.Valid sha B m) (key : Bytes) :
    (∃ t', t.TryDelete key = .ok t' ∧ t'.keyPrefix = t.keyPrefix ∧
      t'.Valid sha B (Function.update m (keybytesToHex (t.keyPrefix ++ key)) none)) ∨
      ∃ e, t.TryDelete key = .error (.missing e) := by
  rcases TryDelete_spec t hv.agrees hv.rep hv.terminal key with ⟨n', hr, hrep'⟩ | hmiss
  · exact .inl ⟨_, hr, rfl, ⟨hrep', hv.terminal.update (.inl rfl),
      TryDelete_cachesOk t hv.agrees hv.rep hv.cachesOk hr, hv.agrees⟩⟩
  · exact .inr hmiss

/-- The root hash a commit returns stands for the trie's map: the empty root for an
empty trie, else a hash node over a blob of {lit}`B`. -/
def RootStands (sha : Bytes → Uranus.Hash) (B : Set Bytes) (r : Uranus.Hash) (m : Content) : Prop :=
  (m = KeyMap.empty ∧ r = emptyRoot) ∨ (Rep (BlobRel sha B) (.hash r) m ∧ ∃ e ∈ B, sha e = r)

/-- A content-addressed database agrees with the blobs of a collision-free run. -/
theorem ContentAddressed.agrees {db : Database} (hdb : ContentAddressed sha B db)
    (hinj : Set.InjOn sha B) : DbAgrees (BlobRel sha B) db := by
  intro h e e' hS hn hne
  obtain ⟨hsha, he'⟩ := hdb h e' hn hne
  exact hinj he' hS.2.1 (hsha.trans hS.1.symm)

section Hashing

variable (hinj : Set.InjOn sha B)
include hinj

omit hinj in
/-- The root a trie hashes to stands for its content: the empty root for an empty trie, or
a hash of a stored blob that represents the content. -/
theorem rootStands_of_hashRoot {t : Trie} (hrep : Rep (BlobRel sha B) t.root m) {r : Hash}
    (h : (t.root = .nil ∧ r = emptyRoot) ∨
      (Rep (BlobRel sha B) (.hash r) m ∧ ∃ e ∈ B, sha e = r)) : RootStands sha B r m := by
  rcases h with ⟨hnil, hr⟩ | h
  · rw [hnil] at hrep
    exact .inl ⟨hrep.nil_content, hr⟩
  · exact .inr h

/-- {lit}`Hash` on a valid trie with blobs in {lit}`B` never panics and keeps it valid. -/
theorem Trie.Valid.hash (hv : t.Valid sha B m) (hb : t.root.BlobsIn sha B) :
    ∃ r t', t.Hash sha = some (r, t') ∧ r = t.root.rootHash sha ∧ t'.keyPrefix = t.keyPrefix ∧
      t'.Valid sha B m := by
  obtain ⟨r, cached, db', heq, hrep', hc', -, -, hr, -⟩ := hashRoot_result hinj t hv.rep
    hv.terminal hv.cachesOk hb (fun d (hd : none = some d) => by cases hd)
    (fun cb (h : (none : Option LeafCallback) = some cb) => by cases h)
  refine ⟨r, { t with root := cached }, ?_, hr, rfl, ⟨hrep', hv.terminal, hc', hv.agrees⟩⟩
  simp only [Trie.Hash, heq]

/-- {lit}`Commit` on a valid trie with blobs in {lit}`B` never panics, keeps it
valid and returns a root that stands for its map. -/
theorem Trie.Valid.commit (hv : t.Valid sha B m) (hb : t.root.BlobsIn sha B)
    {onleaf : Option LeafCallback} (hleaf : ∀ cb, onleaf = some cb → KeepsReads cb) :
    ∃ r t', t.Commit sha onleaf = some (r, t') ∧ t'.keyPrefix = t.keyPrefix ∧
      t'.Valid sha B m ∧ RootStands sha B r m := by
  obtain ⟨r, cached, db', heq, hrep', hc', hsome, hagree, -, hroot⟩ := hashRoot_result hinj t hv.rep
    hv.terminal hv.cachesOk hb (fun d (hd : some t.db = some d) => by cases hd; exact hv.agrees) hleaf
  obtain ⟨d', rfl⟩ : ∃ d', db' = some d' := Option.isSome_iff_exists.mp (by simpa using hsome)
  refine ⟨r, { t with root := cached, db := d', cachegen := t.cachegen + 1 }, ?_, rfl,
    ⟨hrep', hv.terminal, hc', hagree d' rfl⟩, rootStands_of_hashRoot hv.rep hroot⟩
  simp only [Trie.Commit, heq]

/-- {lit}`CommitTo` on a valid trie with blobs in {lit}`B`, into a database that
agrees, never panics and keeps both valid. -/
theorem Trie.Valid.commitTo (hv : t.Valid sha B m) (hb : t.root.BlobsIn sha B) {db : Database}
    (hdb : DbAgrees (BlobRel sha B) db) :
    ∃ r t' db', t.CommitTo sha db = some (r, t', db') ∧ t'.keyPrefix = t.keyPrefix ∧
      t'.Valid sha B m ∧ DbAgrees (BlobRel sha B) db' ∧ RootStands sha B r m := by
  obtain ⟨r, cached, db', heq, hrep', hc', hsome, hagree, -, hroot⟩ := hashRoot_result hinj t hv.rep
    hv.terminal hv.cachesOk hb (fun d (hd : some db = some d) => by cases hd; exact hdb)
    (fun cb (h : (none : Option LeafCallback) = some cb) => by cases h)
  obtain ⟨d', rfl⟩ : ∃ d', db' = some d' := Option.isSome_iff_exists.mp (by simpa using hsome)
  refine ⟨r, { t with root := cached, cachegen := t.cachegen + 1 }, d', ?_, rfl,
    ⟨hrep', hv.terminal, hc', hv.agrees⟩, hagree d' rfl, rootStands_of_hashRoot hv.rep hroot⟩
  simp only [Trie.CommitTo, heq]

omit hinj in
/-- Opening a trie at a root that stands for a map, after flushing the database:
the trie stores that map, or the root node is missing.  A root of the run is never
one of the two roots that open as the empty trie. -/
theorem reopen_valid (hres : ∀ e ∈ B, sha e ≠ Uranus.Hash.zero ∧ sha e ≠ emptyRoot) {r : Uranus.Hash}
    (hterm : Terminal m) (hroot : RootStands sha B r m) {db : Database}
    (hD : DbAgrees (BlobRel sha B) db) (p : Bytes) :
    (∃ t', NewWithPrefix r p (db.Commit r) = .ok t' ∧ t'.keyPrefix = p ∧ t'.Valid sha B m) ∨
      ∃ e, NewWithPrefix r p (db.Commit r) = .error (.missing e) := by
  have hD' : DbAgrees (BlobRel sha B) (db.Commit r) := hD.of_reads (Database.Node_Commit db r)
  unfold NewWithPrefix New
  by_cases hr : r ≠ Hash.zero ∧ r ≠ emptyRoot
  · rw [if_pos hr]
    rcases hroot with ⟨-, rfl⟩ | ⟨hrep, -⟩
    · exact absurd rfl hr.2
    · -- the root node is loaded from the flushed database
      let trie : Trie := ⟨db.Commit r, .nil, r, [], 0, 0⟩
      rcases resolveHash_spec trie hD' hrep [] with ⟨n, hres', hrep', -⟩ | ⟨e, hres'⟩
      · refine .inl ⟨{ trie with root := n, keyPrefix := p }, ?_, rfl,
          ⟨hrep', hterm, resolveHash_cachesOk trie hD' hrep
            (show (Node.hash r).CachesOk sha B true from nofun) hres', hD'⟩⟩
        simp [trie, hres', Except.map]
      · refine .inr ⟨e, ?_⟩
        simp [trie, hres', Except.map]
  · rw [if_neg hr]
    -- only the empty trie has one of the two reserved roots
    have hm : m = KeyMap.empty := by
      rcases hroot with ⟨hm, -⟩ | ⟨-, e, he, rfl⟩
      · exact hm
      · exact absurd (hres e he) hr
    subst hm
    exact .inl ⟨_, rfl, rfl, ⟨Rep.nil, hterm, trivial, hD'⟩⟩

end Hashing

/-- One operation of a run keeps the invariant, with the abstract map changed as the
operation says, or stops at a missing node. -/
theorem Op.apply_inv (hinj : Set.InjOn sha B)
    (hres : ∀ e ∈ B, sha e ≠ Uranus.Hash.zero ∧ sha e ≠ emptyRoot) {t : Trie}
    {M : Bytes → Option Bytes} (hinv : RunInv sha B t M) (hb : t.root.BlobsIn sha B) {op : Op}
    (hop : op.Within sha B) :
    (∃ t', op.apply sha t = .ok t' ∧ t'.keyPrefix = t.keyPrefix ∧
      RunInv sha B t' (op.abstract M)) ∨ ∃ e, op.apply sha t = .error (.missing e) := by
  obtain ⟨m, hv, habs⟩ := hinv
  cases op with
  | update key value =>
    rcases hv.tryUpdate key value with ⟨t', hr, hp, hv'⟩ | hmiss
    · exact .inl ⟨t', hr, hp, _, hv', hp ▸ habs.update key _⟩
    · exact .inr hmiss
  | delete key =>
    rcases hv.tryDelete key with ⟨t', hr, hp, hv'⟩ | hmiss
    · exact .inl ⟨t', hr, hp, _, hv', hp ▸ habs.update key none⟩
    · exact .inr hmiss
  | hash =>
    obtain ⟨r, t', hr, -, hp, hv'⟩ := hv.hash hinj hb
    exact .inl ⟨t', by simp [Op.apply, hr, orPanic, Except.map], hp, m, hv', hp ▸ habs⟩
  | commit onleaf =>
    obtain ⟨r, t', hr, hp, hv', -⟩ := hv.commit hinj hb hop
    exact .inl ⟨t', by simp [Op.apply, hr, orPanic, Except.map], hp, m, hv', hp ▸ habs⟩
  | commitTo db =>
    obtain ⟨r, t', db', hr, hp, hv', -, -⟩ := hv.commitTo hinj hb (hop.agrees hinj)
    exact .inl ⟨t', by simp [Op.apply, hr, orPanic, Except.map], hp, m, hv', hp ▸ habs⟩
  | reopen onleaf =>
    obtain ⟨r, t', hr, hp, hv', hroot⟩ := hv.commit hinj hb hop
    rcases reopen_valid hres hv'.terminal hroot hv'.agrees t.keyPrefix with
      ⟨t'', hn, hp', hv''⟩ | ⟨e, hn⟩
    · refine .inl ⟨t'', ?_, hp', m, hv'', hp' ▸ habs⟩
      simp only [Op.apply, hr, orPanic, Except.bind, hn]
    · refine .inr ⟨e, ?_⟩
      simp only [Op.apply, hr, orPanic, Except.bind, hn]
  | reopenFrom db =>
    obtain ⟨r, t', db', hr, -, -, hdb', hroot⟩ := hv.commitTo hinj hb (hop.agrees hinj)
    rcases reopen_valid hres hv.terminal hroot hdb' t.keyPrefix with
      ⟨t'', hn, hp', hv''⟩ | ⟨e, hn⟩
    · refine .inl ⟨t'', ?_, hp', m, hv'', hp' ▸ habs⟩
      simp only [Op.apply, hr, orPanic, Except.bind, hn]
    · refine .inr ⟨e, ?_⟩
      simp only [Op.apply, hr, orPanic, Except.bind, hn]

/-- A whole run keeps the invariant, by induction on the operations, or stops at a
missing node. -/
theorem exec_inv (hinj : Set.InjOn sha B)
    (hres : ∀ e ∈ B, sha e ≠ Uranus.Hash.zero ∧ sha e ≠ emptyRoot) :
    ∀ (ops : List Op) {t : Trie} {M : Bytes → Option Bytes}, RunInv sha B t M →
      RunWithin sha B t ops →
      (∃ t', exec sha ops t = .ok t' ∧ t'.keyPrefix = t.keyPrefix ∧
        RunInv sha B t' (abstractRun ops M)) ∨ ∃ e, exec sha ops t = .error (.missing e)
  | [], t, M, hinv, _ => .inl ⟨t, rfl, rfl, hinv⟩
  | op :: ops, t, M, hinv, ⟨hb, hop, hrest⟩ => by
    rcases Op.apply_inv hinj hres hinv hb hop with ⟨t', hr, hp, hinv'⟩ | ⟨e, hr⟩
    · rcases exec_inv hinj hres ops hinv' (hrest t' hr) with ⟨t'', he, hp', hinv''⟩ | ⟨e, he⟩
      · exact .inl ⟨t'', by simp [exec, hr, Except.bind, he], hp'.trans hp, hinv''⟩
      · exact .inr ⟨e, by simp [exec, hr, Except.bind, he]⟩
    · exact .inr ⟨e, by simp [exec, hr, Except.bind]⟩

/-- A run that succeeds ends in a trie with the first one's prefix that keeps the
invariant. -/
theorem exec_ok_inv (hinj : Set.InjOn sha B)
    (hres : ∀ e ∈ B, sha e ≠ Uranus.Hash.zero ∧ sha e ≠ emptyRoot) {ops : List Op} {t u : Trie}
    {M : Bytes → Option Bytes} (hinv : RunInv sha B t M) (hrun : RunWithin sha B t ops)
    (he : exec sha ops t = .ok u) :
    u.keyPrefix = t.keyPrefix ∧ RunInv sha B u (abstractRun ops M) := by
  rcases exec_inv hinj hres ops hinv hrun with ⟨u', he', hp, hinv'⟩ | ⟨e, he'⟩
  · rw [he] at he'
    cases he'
    exact ⟨hp, hinv'⟩
  · rw [he] at he'
    cases he'

/-- The last trie of a run within {lit}`B` has its blobs in {lit}`B`. -/
theorem RunWithin.final : ∀ {ops : List Op} {t u : Trie}, RunWithin sha B t ops →
    exec sha ops t = .ok u → u.root.BlobsIn sha B
  | [], t, u, hb, he => by
    cases he
    exact hb
  | op :: ops, t, u, ⟨_, _, hrest⟩, he => by
    cases hr : op.apply sha t with
    | error e => simp [exec, hr, Except.bind] at he
    | ok t' =>
      apply RunWithin.final (hrest t' hr)
      simpa [exec, hr, Except.bind] using he

end Steps

/-! ## Runs refine a map -/

section Refines

variable {sha : Bytes → Uranus.Hash} {B : Set Bytes}

/-- An empty trie stands for the empty map. -/
theorem runInv_empty {t : Trie} (hinj : Set.InjOn sha B) (hroot : t.root = .nil)
    (hdb : ContentAddressed sha B t.db) : RunInv sha B t (fun _ => none) :=
  ⟨KeyMap.empty, ⟨hroot ▸ Rep.nil, terminal_empty, hroot ▸ trivial, hdb.agrees hinj⟩,
    ⟨fun _ => rfl, fun _ hq => absurd rfl hq⟩⟩

/-- A run of {lit}`TryUpdate`, {lit}`TryDelete`, {lit}`Hash`, {lit}`Commit` and
{lit}`CommitTo`, with reopenings at committed roots, from an empty trie over a
content-addressed database, whose blobs are drawn from a set on which the hash has
no collision and hits neither reserved root: it fails only on a missing node, and
after it {lit}`TryGet` returns the value the abstract map holds, or meets a missing
node. -/
theorem TryGet_run_refines (hinj : Set.InjOn sha B)
    (hres : ∀ e ∈ B, sha e ≠ Uranus.Hash.zero ∧ sha e ≠ emptyRoot) {t₀ : Trie}
    (hroot : t₀.root = .nil) (hdb : ContentAddressed sha B t₀.db) (ops : List Op)
    (hrun : RunWithin sha B t₀ ops) :
    (∃ t, exec sha ops t₀ = .ok t ∧ ∀ key,
      (∃ t', t.TryGet key = .ok (abstractRun ops (fun _ => none) key, t')) ∨
        ∃ e, t.TryGet key = .error (.missing e)) ∨
      ∃ e, exec sha ops t₀ = .error (.missing e) := by
  rcases exec_inv hinj hres ops (runInv_empty hinj hroot hdb) hrun with
    ⟨t, hexec, -, m, hv, habs⟩ | hmiss
  · refine .inl ⟨t, hexec, fun key => ?_⟩
    rw [← habs.holds key]
    exact TryGet_spec t hv.agrees hv.rep hv.terminal key
  · exact .inr hmiss

-- One update from the empty trie, with a constant hash and the blob of the one node
-- the run builds.
example :
    let sha : Bytes → Uranus.Hash := fun _ => ⟨List.replicate 32 1, by decide⟩
    let t₀ : Trie := ⟨Database.NewDatabase (fun _ => none), .nil, emptyRoot, [], 0, 0⟩
    let ops : List Op := [.update [1] [2]]
    (∃ t, exec sha ops t₀ = .ok t ∧ ∀ key,
      (∃ t', t.TryGet key = .ok (abstractRun ops (fun _ => none) key, t')) ∨
        ∃ e, t.TryGet key = .error (.missing e)) ∨
      ∃ e, exec sha ops t₀ = .error (.missing e) := by
  intro sha t₀ ops
  have hupd : t₀.TryUpdate [1] [2] =
      .ok { t₀ with root := .short [0, 1, 16] (.value [2]) ⟨none, 0, true⟩ } := rfl
  refine TryGet_run_refines
    (B := {(Node.short [0, 1, 16] (.value [2]) ⟨none, 0, true⟩).blob sha})
    (Set.injOn_singleton _ _) (fun e _ => ⟨by decide, by decide⟩) rfl ?_ ops ?_
  · intro h e hn hne
    by_cases hz : h = Uranus.Hash.zero
    · subst hz
      cases hn
      exact absurd rfl hne
    · simp [t₀, Database.NewDatabase, Database.Node, Database.cached, hz] at hn
  · refine ⟨trivial, trivial, fun t' ht' => ?_⟩
    rw [show Op.apply sha (.update [1] [2]) t₀ = t₀.TryUpdate [1] [2] from rfl, hupd] at ht'
    cases ht'
    exact ⟨⟨rfl, by decide⟩, trivial⟩

end Refines

/-! ## Reopening from another database -/

section ReopenFrom

variable {sha : Bytes → Uranus.Hash}

end ReopenFrom

end Mtp
end Uranus
