import Uranus.Mtp.Iterator
import Uranus.Lib.ListOrder

/-!
# The node iterator walks its pending subtrees

Every state of a node iterator has a list of subtrees it has yet to visit, with their
paths, {lit}`pendingOf`: what is left of the children of each frame, from the
current node's frame down to the root's.  {lit}`peek` finds the first of them,
popping the frames that have nothing left, and resolves it when it is a hash node;
{lit}`push` makes it the current node, so that its children take its place in the
list.  A peek that skips the current node's children first drops what is left of
the top frame.  Before the first peek the list is the root alone.

So the iterator runs a pre-order walk on a list of subtrees.  {lit}`Walks` says what
the walk meets below a node when hash nodes are read from the trie's database: the
values, each at its path, and the number of nodes, which bounds the steps.

Main results:

- Theorem {lit}`peek_visit`: peek finds the first pending subtree, resolved, and
  after the push its children stand in its place.
- Theorem {lit}`Next_visit` and {lit}`Next_end`: one step of the node iterator.
- Theorem {lit}`Walks.expand`: the values below a node are those below its children,
  at fewer nodes.
- Theorem {lit}`seekLoop_walk`: {lit}`seek` stops before the first node not before
  the key, and the walk from there meets exactly the values not before it.
-/

namespace Uranus
namespace Mtp

open Lib

/-! ## What is left to visit -/

/-- The children a frame with this index has yet to give, with their paths, for a
node at {lit}`path`: the non-nil children of a full node after the index, and the
child of a short node until it is taken. -/
def restOf (path : List Nibble) (n : Node) (index : Int) : List (List Nibble × Node) :=
  match n with
  | .full cs _ =>
    ((nonNilIndices cs).filter fun i => decide (index < (i.val : Int))).map
      fun i => (path ++ [i], cs i)
  | .short key val _ => if index < 0 then [(path ++ key, val)] else []
  | _ => []

/-- The children of a node with their paths, as a new frame gives them. -/
def childrenOf (path : List Nibble) (n : Node) : List (List Nibble × Node) := restOf path n (-1)

/-- The subtrees a stack has yet to visit, in the order it visits them: what is left
of each frame, from the top down, each frame at the path its length cuts from the
path of the frame above. -/
def pendingOf : List Nibble → List nodeIteratorState → List (List Nibble × Node)
  | _, [] => []
  | path, st :: stack => restOf path st.node st.index ++ pendingOf (path.take st.pathlen) stack

namespace nodeIterator

/-- What a peek that descends, or skips the current node's children, visits from
here on: before the first peek, the trie's root. -/
def pending (it : nodeIterator) (descend : Bool) : List (List Nibble × Node) :=
  match it.stack with
  | [] =>
    match it.trie with
    | some tr => [([], tr.root)]
    | none => []
  | st :: stack => if descend then pendingOf it.path (st :: stack)
    else pendingOf (it.path.take st.pathlen) stack

/-- A node iterator over the trie {lit}`tr`, which hashing leaves as it is, whose
frames have indices from -1 up. -/
structure Good (sha : Bytes → Uranus.Hash) (tr : Trie) (it : nodeIterator) : Prop where
  trie : it.trie = some tr
  hashed : ∃ r, tr.Hash sha = some (r, tr)
  index : ∀ st ∈ it.stack, -1 ≤ st.index

end nodeIterator

/-! ## The next child of a frame -/

/-- The non-nil children of a full node are in increasing order. -/
theorem pairwise_nonNilIndices (cs : Fin 17 → Node) : (nonNilIndices cs).Pairwise (· < ·) :=
  (List.pairwise_lt_finRange 17).filter _

/-- In an increasing list, the elements above a bound are the first of them, found
by {lit}`find?`, and the elements above it; and they are the elements from it on. -/
theorem filter_lt_of_find? {l : List (Fin 17)} (hl : l.Pairwise (· < ·)) {x : Int} {i : Fin 17}
    (h : l.find? (fun j => decide (x < (j.val : Int))) = some i) :
    l.filter (fun j => decide (x < (j.val : Int))) =
        i :: l.filter (fun j => decide ((i.val : Int) < j.val)) ∧
      l.filter (fun j => decide ((i.val : Int) - 1 < j.val)) =
        l.filter (fun j => decide (x < (j.val : Int))) := by
  induction l with
  | nil => cases h
  | cons a l ih =>
    have hal : ∀ j ∈ l, a < j := (List.pairwise_cons.mp hl).1
    by_cases hxa : x < (a.val : Int)
    · rw [List.find?_cons_of_pos (by simpa using hxa)] at h
      cases h
      -- everything after the first element is above it, and so above the bound
      have hbig : ∀ (y : Int), y ≤ (i.val : Int) →
          l.filter (fun j => decide (y < (j.val : Int))) = l := by
        intro y hy
        refine List.filter_eq_self.mpr fun j hj => ?_
        have := hal j hj
        simp only [decide_eq_true_eq]
        have : i.val < j.val := this
        omega
      rw [List.filter_cons_of_pos (by simpa using hxa), List.filter_cons_of_neg (by simp),
        List.filter_cons_of_pos (by simp), hbig x hxa.le, hbig (i.val : Int) le_rfl,
        hbig ((i.val : Int) - 1) (by omega)]
      exact ⟨rfl, rfl⟩
    · rw [List.find?_cons_of_neg (by simpa using hxa)] at h
      have hil : a < i := hal i (List.mem_of_find?_eq_some h)
      have hil' : a.val < i.val := hil
      obtain ⟨ih₁, ih₂⟩ := ih (List.pairwise_cons.mp hl).2 h
      rw [List.filter_cons_of_neg (by simpa using hxa), List.filter_cons_of_neg (by simp; omega),
        List.filter_cons_of_neg (by simp; omega)]
      exact ⟨ih₁, ih₂⟩

namespace nodeIterator

/-- {lit}`nextChild` finds nothing exactly when the frame has nothing left. -/
theorem nextChild_eq_none_iff (path : List Nibble) (parent : nodeIteratorState) (ancestor : Hash) :
    nextChild path parent ancestor = none ↔ restOf path parent.node parent.index = [] := by
  unfold nextChild restOf
  cases parent.node with
  | full cs f =>
    dsimp only
    cases hfind : (nonNilIndices cs).find? (fun i => decide (parent.index < (i.val : Int))) with
    | some i =>
      simp only [reduceCtorEq, false_iff, List.map_eq_nil_iff, List.filter_eq_nil_iff]
      exact fun hall => hall i (List.mem_of_find?_eq_some hfind) (by simpa using List.find?_some hfind)
    | none =>
      simp only [true_iff, List.map_eq_nil_iff, List.filter_eq_nil_iff]
      intro i hi
      simpa using List.find?_eq_none.mp hfind i hi
  | short key val f =>
    dsimp only
    split <;> simp
  | nil => simp
  | hash h => simp
  | value v => simp

/-- What {lit}`nextChild` finds: the first child the frame has left, in a fresh frame
at the end of the path, and the frame set just before that child, so that the push
moves it past the child. -/
theorem nextChild_eq_some {path : List Nibble} {parent : nodeIteratorState} {ancestor : Hash}
    {st : nodeIteratorState} {cpath : List Nibble} {parent' : nodeIteratorState}
    (h : nextChild path parent ancestor = some (st, cpath, parent')) (hidx : -1 ≤ parent.index) :
    restOf path parent.node parent.index =
        (cpath, st.node) :: restOf path parent'.node (parent'.index + 1) ∧
      restOf path parent'.node parent'.index = restOf path parent.node parent.index ∧
      parent'.pathlen = parent.pathlen ∧ -1 ≤ parent'.index ∧ st.index = -1 ∧
      st.pathlen = path.length ∧ cpath.take path.length = path := by
  unfold nextChild at h
  split at h
  · rename_i cs f hnode
    split at h
    · rename_i i hfind
      cases h
      obtain ⟨hfirst, hfrom⟩ := filter_lt_of_find? (pairwise_nonNilIndices cs) hfind
      refine ⟨?_, ?_, rfl, by dsimp only; omega, rfl, rfl, by simp⟩
      · simp only [restOf, hnode, hfirst, List.map_cons, sub_add_cancel]
      · simp only [restOf, hnode, hfrom]
    · cases h
  · rename_i key val f hnode
    split at h
    · rename_i hneg
      cases h
      have hone : parent.index = -1 := by omega
      refine ⟨?_, rfl, rfl, hidx, rfl, rfl, by simp⟩
      simp [restOf, hnode, hone]
    · cases h
  · cases h

/-! ## Peeking -/

/-- The loop of {lit}`peek` on a stack with nothing left pops every frame and reports
the end. -/
theorem peekLoop_end (tr : Trie) :
    ∀ (stack : List nodeIteratorState) (path : List Nibble), pendingOf path stack = [] →
      ∃ path', peekLoop tr path stack = some (path', [], .error .iteratorEnd) := by
  intro stack
  induction stack with
  | nil => exact fun path _ => ⟨path, rfl⟩
  | cons parent rest ih =>
    intro path hpend
    simp only [pendingOf, List.append_eq_nil_iff] at hpend
    have hnone := (nextChild_eq_none_iff path parent
      (if parent.hash = Hash.zero then parent.parent else parent.hash)).mpr hpend.1
    rw [peekLoop, hnone]
    exact ih _ hpend.2

/-- The loop of {lit}`peek` on a stack with something left: it pops the frames with
nothing left and resolves the first pending subtree, in a fresh frame.  The stack it
leaves has the same pending subtrees, and after the push the rest of them. -/
theorem peekLoop_next (tr : Trie) :
    ∀ (stack : List nodeIteratorState) (path : List Nibble) {cpath : List Nibble} {c : Node}
      {P : List (List Nibble × Node)}, (∀ s ∈ stack, -1 ≤ s.index) →
      pendingOf path stack = (cpath, c) :: P →
      ∃ (path' : List Nibble) (top : nodeIteratorState) (rest : List nodeIteratorState)
        (st : nodeIteratorState), peekLoop tr path stack = (st.resolve tr cpath).map
          (fun r => (path', top :: rest, (r.mapError .resolve).map fun s => (s, cpath))) ∧
        st.node = c ∧ st.index = -1 ∧ st.pathlen = path'.length ∧
        cpath.take path'.length = path' ∧ (∀ s ∈ top :: rest, -1 ≤ s.index) ∧
        pendingOf path' (top :: rest) = (cpath, c) :: P ∧
        pendingOf path' ({ top with index := top.index + 1 } :: rest) = P := by
  intro stack
  induction stack with
  | nil => intro path _ _ _ _ hpend; cases hpend
  | cons parent rest ih =>
    intro path cpath c P hidx hpend
    have hidx₀ : -1 ≤ parent.index := hidx parent (by simp)
    have hrest : ∀ s ∈ rest, -1 ≤ s.index := fun s hs => hidx s (by simp [hs])
    cases hnext : nextChild path parent
        (if parent.hash = Hash.zero then parent.parent else parent.hash) with
    | none =>
      -- the top frame has nothing left: the loop pops it
      have hnil := (nextChild_eq_none_iff path parent _).mp hnext
      rw [pendingOf, hnil, List.nil_append] at hpend
      obtain ⟨path', top, rest', st, hloop, h⟩ := ih _ hrest hpend
      refine ⟨path', top, rest', st, ?_, h⟩
      rw [peekLoop, hnext]
      exact hloop
    | some r =>
      obtain ⟨st, cpath', parent'⟩ := r
      obtain ⟨hfirst, hsame, hlen, hidx', hst, hstlen, hcpath⟩ := nextChild_eq_some hnext hidx₀
      rw [pendingOf, hfirst, List.cons_append, List.cons.injEq, Prod.mk.injEq] at hpend
      obtain ⟨⟨rfl, rfl⟩, hP⟩ := hpend
      refine ⟨path, parent', rest, st, ?_, rfl, hst, hstlen, hcpath, ?_, ?_, ?_⟩
      · rw [peekLoop, hnext]
      · intro s hs
        rcases List.mem_cons.mp hs with rfl | hs
        · exact hidx'
        · exact hrest s hs
      · simp only [pendingOf, hsame, hfirst, hlen, List.cons_append]
        rw [← hP]
      · simp only [pendingOf, hlen]
        exact hP

/-- A frame whose node resolves becomes a frame with the resolved node, at the same
index and length. -/
theorem resolve_ok {st : nodeIteratorState} {tr : Trie} {path : List Nibble} {y : Node}
    (h : tr.resolve st.node path = .ok y) :
    ∃ st', st.resolve tr path = some (.ok st') ∧ st'.node = y ∧ st'.index = st.index ∧
      st'.pathlen = st.pathlen := by
  unfold nodeIteratorState.resolve
  unfold Trie.resolve at h
  cases hn : st.node with
  | hash x =>
    rw [hn] at h
    dsimp only at h ⊢
    rw [h]
    exact ⟨_, rfl, rfl, rfl, rfl⟩
  | nil =>
    rw [hn] at h
    cases h
    exact ⟨st, rfl, hn, rfl, rfl⟩
  | value v =>
    rw [hn] at h
    cases h
    exact ⟨st, rfl, hn, rfl, rfl⟩
  | short key val f =>
    rw [hn] at h
    cases h
    exact ⟨st, rfl, hn, rfl, rfl⟩
  | full cs f =>
    rw [hn] at h
    cases h
    exact ⟨st, rfl, hn, rfl, rfl⟩

/-- {lit}`peek` visits the first pending subtree, resolved, and keeps the rest pending;
after the push, the subtree's children stand in its place, unless the next peek
skips them. -/
theorem peek_visit {sha : Bytes → Uranus.Hash} {tr : Trie} {it : nodeIterator}
    (hgood : it.Good sha tr) {descend : Bool} {p : List Nibble} {x : Node}
    {P : List (List Nibble × Node)} (hpend : it.pending descend = (p, x) :: P) {y : Node}
    (hres : tr.resolve x p = .ok y) :
    ∃ it₁ st pi, it.peek sha descend = some (it₁, .ok (st, pi, p)) ∧ st.node = y ∧
      it₁.err = it.err ∧ it₁.Good sha tr ∧ it₁.pending true = (p, x) :: P ∧
      (it₁.push st pi p).Good sha tr ∧ (it₁.push st pi p).path = p ∧
      ∀ d, (it₁.push st pi p).pending d = (if d then childrenOf p y else []) ++ P := by
  obtain ⟨htr, ⟨r, hhash⟩, hidx⟩ := hgood
  cases hstack : it.stack with
  | nil =>
    -- the first peek hashes the trie and starts at its root
    rw [pending, hstack, htr, List.cons.injEq, Prod.mk.injEq] at hpend
    obtain ⟨⟨rfl, rfl⟩, rfl⟩ := hpend
    obtain ⟨st, hst, hnode, hindex, hlen⟩ := @resolve_ok ⟨if r ≠ emptyRoot then r else Hash.zero,
      tr.root, Hash.zero, -1, 0⟩ _ _ _ hres
    refine ⟨{ it with trie := some tr }, st, false, ?_, hnode, rfl,
      ⟨rfl, ⟨r, hhash⟩, by simp [hstack]⟩, ?_, ?_, rfl, fun d => ?_⟩
    · simp only [peek, htr, hstack, hhash, Option.bind_eq_bind, Option.bind_some, hst]
      rfl
    · simp [pending, hstack]
    · refine ⟨rfl, ⟨r, hhash⟩, ?_⟩
      simp only [push, hstack, Bool.false_eq_true, if_false, List.mem_singleton]
      rintro s rfl
      rw [hindex]
    · cases d <;> simp [pending, push, hstack, pendingOf, childrenOf, hnode, hindex]
  | cons top rest =>
    have hpend' : pendingOf (if descend then it.path else it.path.take top.pathlen)
        (if descend then top :: rest else rest) = (p, x) :: P := by
      cases descend <;> simpa [pending, hstack] using hpend
    have hidx' : ∀ s ∈ (if descend then top :: rest else rest), -1 ≤ s.index := by
      intro s hs
      apply hidx s
      rw [hstack]
      cases descend
      · simp only [Bool.false_eq_true, if_false] at hs
        exact List.mem_cons_of_mem top hs
      · simpa using hs
    obtain ⟨path', top', rest', st, hloop, hnode, hindex, hlen, htake, hidx'', hsame, hnext⟩ :=
      peekLoop_next tr _ _ hidx' hpend'
    obtain ⟨st', hst', hnode', hindex', hlen'⟩ := @resolve_ok st _ _ _ (hnode ▸ hres)
    refine ⟨{ it with path := path', stack := top' :: rest' }, st', true, ?_, hnode', rfl,
      ⟨htr, ⟨r, hhash⟩, hidx''⟩, ?_, ⟨htr, ⟨r, hhash⟩, ?_⟩, rfl, fun d => ?_⟩
    · have hloop' : peekLoop tr (if descend then it.path else it.path.take top.pathlen)
          (if descend then top :: rest else rest) = some (path', top' :: rest', .ok (st', p)) := by
        rw [hloop, hst']
        rfl
      cases descend <;>
        simp only [peek, htr, hstack, Option.bind_eq_bind, Option.bind_some, Bool.false_eq_true,
          if_false, if_true] at hloop' ⊢ <;>
        rw [hloop'] <;> rfl
    · simpa [pending] using hsame
    · intro s hs
      have hs' : s = st' ∨ s = { top' with index := top'.index + 1 } ∨ s ∈ rest' := by
        simpa [push] using hs
      rcases hs' with rfl | rfl | hs
      · rw [hindex', hindex]
      · have := hidx'' top' (by simp)
        dsimp only
        omega
      · exact hidx'' s (by simp [hs])
    · have hcut : p.take st'.pathlen = path' := by rw [hlen', hlen, htake]
      cases d
      · show pendingOf (p.take st'.pathlen) ({ top' with index := top'.index + 1 } :: rest') = _
        rw [hcut, hnext]
        rfl
      · show pendingOf p (st' :: { top' with index := top'.index + 1 } :: rest') = _
        rw [pendingOf, hcut, hnext, hnode', hindex', hindex]
        rfl

/-- A peek on a started iterator with nothing pending reports the end. -/
theorem peek_end {sha : Bytes → Uranus.Hash} {tr : Trie} {it : nodeIterator}
    (htr : it.trie = some tr) (hstart : it.stack ≠ [])
    {descend : Bool} (hpend : it.pending descend = []) :
    ∃ it₁, it.peek sha descend = some (it₁, .error .iteratorEnd) ∧ it₁.trie = it.trie := by
  cases hstack : it.stack with
  | nil => exact absurd hstack hstart
  | cons top rest =>
    have hpend' : pendingOf (if descend then it.path else it.path.take top.pathlen)
        (if descend then top :: rest else rest) = [] := by
      cases descend <;> simpa [pending, hstack] using hpend
    obtain ⟨path', hloop⟩ := peekLoop_end tr _ _ hpend'
    refine ⟨{ it with path := path', stack := [] }, ?_, rfl⟩
    cases descend <;>
      simp only [peek, htr, hstack, Option.bind_eq_bind, Option.bind_some, Bool.false_eq_true,
        if_false, if_true] at hloop ⊢ <;>
      rw [hloop] <;> rfl

/-! ## One step -/

/-- One step of {lit}`Next` without an error visits the first pending subtree,
resolved, and puts its children in its place. -/
theorem Next_visit {sha : Bytes → Uranus.Hash} {tr : Trie} {it : nodeIterator}
    (hgood : it.Good sha tr) (herr : it.err = none) {descend : Bool} {p : List Nibble} {x : Node}
    {P : List (List Nibble × Node)} (hpend : it.pending descend = (p, x) :: P) {y : Node}
    (hres : tr.resolve x p = .ok y) (fuel : Nat) :
    ∃ it', it.Next sha descend fuel = some (true, it') ∧ it'.Good sha tr ∧ it'.err = none ∧
      it'.path = p ∧ (∃ st rest, it'.stack = st :: rest ∧ st.node = y) ∧
      ∀ d, it'.pending d = (if d then childrenOf p y else []) ++ P := by
  obtain ⟨it₁, st, pi, hpeek, hnode, -, -, -, hgood', hpath, hpend'⟩ := peek_visit hgood hpend hres
  refine ⟨{ it₁.push st pi p with err := none }, ?_, ⟨hgood'.trie, hgood'.hashed, hgood'.index⟩,
    rfl, hpath, ⟨st, _, rfl, hnode⟩, hpend'⟩
  simp only [Next, herr, stepForward, hpeek, Option.bind_eq_bind, Option.bind_some]
  rfl

/-- A step of {lit}`Next` on a started iterator with nothing pending reports the
end. -/
theorem Next_end {sha : Bytes → Uranus.Hash} {tr : Trie} {it : nodeIterator}
    (htr : it.trie = some tr) (herr : it.err = none) (hstart : it.stack ≠ []) {descend : Bool}
    (hpend : it.pending descend = []) (fuel : Nat) :
    ∃ it', it.Next sha descend fuel = some (false, it') ∧ it'.err = some .iteratorEnd ∧
      it'.trie = it.trie := by
  obtain ⟨it₁, hpeek, htr₁⟩ := @peek_end sha _ _ htr hstart _ hpend
  refine ⟨{ it₁ with err := some .iteratorEnd }, ?_, rfl, htr₁⟩
  simp only [Next, herr, stepForward, hpeek, Option.bind_eq_bind, Option.bind_some]
  rfl

/-- After the end, {lit}`Next` reports it again. -/
theorem Next_ended (sha : Bytes → Uranus.Hash) {it : nodeIterator}
    (herr : it.err = some .iteratorEnd) (descend : Bool) (fuel : Nat) :
    it.Next sha descend fuel = some (false, it) := by
  simp only [Next, herr]
  rfl

end nodeIterator

/-! ## What the walk meets -/

/-- {lit}`Walks db g p n L k`: the pre-order walk of the node {lit}`n` at path
{lit}`p`, reading hash nodes from {lit}`db` at cache generation {lit}`g`, meets the
values {lit}`L` with their paths, at {lit}`k` nodes.  Values sit at terminated paths
that spell a key, and every other node at a path without the terminator. -/
inductive Walks (db : Database) (g : UInt16) :
    List Nibble → Node → List (List Nibble × Bytes) → Nat → Prop
  | nil {p : List Nibble} (hterm : hasTerm p = false) : Walks db g p .nil [] 1
  | value {p : List Nibble} {v : Bytes} (hterm : hasTerm p = true)
      (hkey : (hexToKeybytes p).isSome) : Walks db g p (.value v) [(p, v)] 1
  | short {p key : List Nibble} {val : Node} {f : NodeFlag} {L : List (List Nibble × Bytes)}
      {k : Nat} (hterm : hasTerm p = false) (hval : Walks db g (p ++ key) val L k) :
      Walks db g p (.short key val f) L (k + 1)
  | full {p : List Nibble} {cs : Fin 17 → Node} {f : NodeFlag}
      {Ls : Fin 17 → List (List Nibble × Bytes)} {ks : Fin 17 → Nat} (hterm : hasTerm p = false)
      (hcs : ∀ i ∈ nonNilIndices cs, Walks db g (p ++ [i]) (cs i) (Ls i) (ks i)) :
      Walks db g p (.full cs f) ((nonNilIndices cs).flatMap Ls)
        (((nonNilIndices cs).map ks).sum + 1)
  | hash {p : List Nibble} {h : Hash} {enc : Bytes} {n : Node} {L : List (List Nibble × Bytes)}
      {k : Nat} (hn : db.Node h = some enc) (hne : enc ≠ []) (hdec : decodeNode (some h) enc g = .ok n)
      (hwalk : Walks db g p n L k) : Walks db g p (.hash h) L (k + 1)

/-- The walk of a list of subtrees: the values met below each, one after the other,
and the nodes met in all. -/
inductive PendWalks (db : Database) (g : UInt16) :
    List (List Nibble × Node) → List (List Nibble × Bytes) → Nat → Prop
  | nil : PendWalks db g [] [] 0
  | cons {p : List Nibble} {n : Node} {L : List (List Nibble × Bytes)} {k : Nat}
      {P : List (List Nibble × Node)} {E : List (List Nibble × Bytes)} {K : Nat}
      (hwalk : Walks db g p n L k) (hrest : PendWalks db g P E K) :
      PendWalks db g ((p, n) :: P) (L ++ E) (k + K)

/-- The walk of two lists of subtrees, one after the other. -/
theorem PendWalks.append {db : Database} {g : UInt16} {P Q : List (List Nibble × Node)}
    {E F : List (List Nibble × Bytes)} {K J : Nat} (hP : PendWalks db g P E K)
    (hQ : PendWalks db g Q F J) : PendWalks db g (P ++ Q) (E ++ F) (K + J) := by
  induction hP with
  | nil => simpa using hQ
  | cons hwalk _ ih =>
    rw [List.cons_append, List.append_assoc, Nat.add_assoc]
    exact .cons hwalk ih

/-- The walk of some children of a full node. -/
theorem PendWalks.children {db : Database} {g : UInt16} {p : List Nibble} {cs : Fin 17 → Node}
    {Ls : Fin 17 → List (List Nibble × Bytes)} {ks : Fin 17 → Nat} :
    ∀ l : List (Fin 17), (∀ i ∈ l, Walks db g (p ++ [i]) (cs i) (Ls i) (ks i)) →
      PendWalks db g (l.map fun i => (p ++ [i], cs i)) (l.flatMap Ls) (l.map ks).sum := by
  intro l
  induction l with
  | nil => exact fun _ => .nil
  | cons i l ih =>
    intro hl
    rw [List.map_cons, List.flatMap_cons, List.map_cons, List.sum_cons]
    exact .cons (hl i (by simp)) (ih fun j hj => hl j (by simp [hj]))

/-- Every child index is above -1, so a fresh frame of a full node gives all its
non-nil children. -/
theorem filter_neg_one (l : List (Fin 17)) :
    l.filter (fun i => decide ((-1 : Int) < (i.val : Int))) = l :=
  List.filter_eq_self.mpr fun i _ => by simp; omega

/-- Resolving the node of a walk: a hash node is read from the database and decoded,
at one node fewer; no hash node is left. -/
theorem Walks.resolve {tr : Trie} {p : List Nibble} {x : Node} {L : List (List Nibble × Bytes)}
    {k : Nat} (h : Walks tr.db tr.cachegen p x L k) :
    ∃ y k', tr.resolve x p = .ok y ∧ y.isHash = false ∧ Walks tr.db tr.cachegen p y L k' ∧
      k' ≤ k := by
  cases h with
  | nil hterm => exact ⟨_, _, rfl, rfl, .nil hterm, le_rfl⟩
  | value hterm hkey => exact ⟨_, _, rfl, rfl, .value hterm hkey, le_rfl⟩
  | short hterm hval => exact ⟨_, _, rfl, rfl, .short hterm hval, le_rfl⟩
  | full hterm hcs => exact ⟨_, _, rfl, rfl, .full hterm hcs, le_rfl⟩
  | @hash _ x enc n L k hn hne hdec hwalk =>
    refine ⟨n, k, ?_, Node.isHash_eq_false_of_isInner (decodeNode_isInner hdec), hwalk,
      Nat.le_succ k⟩
    simp only [Trie.resolve, Trie.resolveHash, hn, if_neg hne, hdec]

/-- Below a resolved node the walk meets a value at the node's own path, or what it
meets below the node's children, at fewer nodes. -/
theorem Walks.expand {db : Database} {g : UInt16} {p : List Nibble} {y : Node}
    {L : List (List Nibble × Bytes)} {k : Nat} (h : Walks db g p y L k) (hy : y.isHash = false) :
    (∃ v, y = .value v ∧ L = [(p, v)] ∧ hasTerm p = true ∧ (hexToKeybytes p).isSome) ∨
      (hasTerm p = false ∧ (∀ v, y ≠ .value v) ∧
        ∃ k', k' < k ∧ PendWalks db g (childrenOf p y) L k') := by
  cases h with
  | nil hterm => exact .inr ⟨hterm, fun v => by simp, 0, Nat.zero_lt_one, .nil⟩
  | value hterm hkey => exact .inl ⟨_, rfl, rfl, hterm, hkey⟩
  | @short _ key val f L k hterm hval =>
    refine .inr ⟨hterm, fun v => by simp, k, Nat.lt_succ_self k, ?_⟩
    have hchild : childrenOf p (.short key val f) = [(p ++ key, val)] := by
      simp [childrenOf, restOf]
    rw [hchild, ← List.append_nil L, ← Nat.add_zero k]
    exact .cons hval .nil
  | @full _ cs f Ls ks hterm hcs =>
    refine .inr ⟨hterm, fun v => by simp, _, Nat.lt_succ_self _, ?_⟩
    have hchild : childrenOf p (.full cs f) = (nonNilIndices cs).map fun i => (p ++ [i], cs i) := by
      simp only [childrenOf, restOf, filter_neg_one]
    rw [hchild]
    exact PendWalks.children _ hcs
  | hash => cases hy

/-- The walk of a node meets at least the node. -/
theorem Walks.pos {db : Database} {g : UInt16} {p : List Nibble} {n : Node}
    {L : List (List Nibble × Bytes)} {k : Nat} (h : Walks db g p n L k) : 0 < k := by
  cases h <;> omega

/-- Every value the walk of a node meets is at a path below the node's. -/
theorem Walks.isPrefix_of_mem {db : Database} {g : UInt16} {p : List Nibble} {n : Node}
    {L : List (List Nibble × Bytes)} {k : Nat} (h : Walks db g p n L k) :
    ∀ e ∈ L, p <+: e.1 := by
  induction h with
  | nil => simp
  | value => simp
  | short _ _ ih => exact fun e he => (List.prefix_append _ _).trans (ih e he)
  | full _ _ ih =>
    intro e he
    obtain ⟨i, hi, he⟩ := List.mem_flatMap.mp he
    exact (List.prefix_append _ _).trans (ih i hi e he)
  | hash _ _ _ _ ih => exact ih

/-- Every value the walk of a list of subtrees meets is below one of them. -/
theorem PendWalks.isPrefix_of_mem {db : Database} {g : UInt16} {P : List (List Nibble × Node)}
    {E : List (List Nibble × Bytes)} {K : Nat} (h : PendWalks db g P E K) :
    ∀ e ∈ E, ∃ c ∈ P, c.1 <+: e.1 := by
  induction h with
  | nil => simp
  | cons hwalk _ ih =>
    intro e he
    rcases List.mem_append.mp he with he | he
    · exact ⟨_, List.mem_cons_self, hwalk.isPrefix_of_mem e he⟩
    · obtain ⟨c, hc, hpre⟩ := ih e he
      exact ⟨c, List.mem_cons_of_mem _ hc, hpre⟩

/-! ## The order of the pending subtrees -/

/-- Pending subtrees in the order of the walk: each path branches off below the paths
after it. -/
def Ordered (P : List (List Nibble × Node)) : Prop := P.Pairwise fun a b => Branches a.1 b.1

/-- The children of a node come in the order of the walk, all below the node. -/
theorem childrenOf_ordered (p : List Nibble) (y : Node) :
    Ordered (childrenOf p y) ∧ ∀ c ∈ childrenOf p y, ∃ r, c.1 = p ++ r := by
  cases y with
  | full cs f =>
    simp only [childrenOf, restOf, filter_neg_one]
    refine ⟨?_, ?_⟩
    · refine List.pairwise_map.mpr ((pairwise_nonNilIndices cs).imp fun {i j} hij => ?_)
      exact (show Branches [i] [j] from .inl hij).prepend p
    · intro c hc
      obtain ⟨i, -, rfl⟩ := List.mem_map.mp hc
      exact ⟨[i], rfl⟩
  | short key val f =>
    simp only [childrenOf, restOf, show (-1 : Int) < 0 by decide, if_true]
    exact ⟨List.pairwise_singleton _ _, fun c hc => ⟨key, by rw [List.mem_singleton.mp hc]⟩⟩
  | nil => exact ⟨List.Pairwise.nil, by simp [childrenOf, restOf]⟩
  | hash h => exact ⟨List.Pairwise.nil, by simp [childrenOf, restOf]⟩
  | value v => exact ⟨List.Pairwise.nil, by simp [childrenOf, restOf]⟩

/-- What follows the first pending subtree is in order too. -/
theorem Ordered.tail {c : List Nibble × Node} {P : List (List Nibble × Node)}
    (h : Ordered (c :: P)) : Ordered P := (List.pairwise_cons.mp h).2

/-- Putting a node's children in its place keeps the pending subtrees in order. -/
theorem Ordered.expand {p : List Nibble} {x : Node} {P : List (List Nibble × Node)}
    (h : Ordered ((p, x) :: P)) (y : Node) : Ordered (childrenOf p y ++ P) := by
  obtain ⟨hhead, htail⟩ := List.pairwise_cons.mp h
  obtain ⟨hord, hbelow⟩ := childrenOf_ordered p y
  refine List.pairwise_append.mpr ⟨hord, htail, fun c hc b hb => ?_⟩
  obtain ⟨r, hr⟩ := hbelow c hc
  rw [hr]
  exact (hhead b hb).append_left r

/-! ## Seeking -/

section Seek

variable {sha : Bytes → Uranus.Hash} {tr : Trie} {key : List Nibble} {pfx : Bytes}

/-- A round of {lit}`seek` that finds a node: it stops before a node not before the
key, and otherwise pushes it and goes on. -/
theorem seekLoop_visit {it it₁ : nodeIterator} {st : nodeIteratorState} {pi : Bool}
    {p : List Nibble} (h : it.peek sha (it.path.isPrefixOf key) = some (it₁, .ok (st, pi, p)))
    (fuel : Nat) :
    nodeIterator.seekLoop sha key pfx (fuel + 1) it =
      if ¬ p < key then some (it₁, none)
      else nodeIterator.seekLoop sha key pfx fuel (it₁.push st pi p) := by
  simp only [nodeIterator.seekLoop, h, Option.bind_eq_bind, Option.bind_some]
  split <;> rfl

/-- A round of {lit}`seek` at the end of the walk reports the end. -/
theorem seekLoop_end {it it₁ : nodeIterator}
    (h : it.peek sha (it.path.isPrefixOf key) = some (it₁, .error .iteratorEnd)) (fuel : Nat) :
    nodeIterator.seekLoop sha key pfx (fuel + 1) it = some (it₁, some .iteratorEnd) := by
  simp only [nodeIterator.seekLoop, h, Option.bind_eq_bind, Option.bind_some]
  rfl

/-- {lit}`seek` stops before the first node whose path is not before the key, and
the walk from there meets exactly the values at paths not before the key; or it
reaches the end, and there are none.  Each round visits one node: a node on the way
to the key is descended into, and any other node before the key is skipped with
everything below it, which is all before the key. -/
theorem seekLoop_walk :
    ∀ (fuel : Nat) {it : nodeIterator} {E : List (List Nibble × Bytes)} {K : Nat},
      it.Good sha tr → Ordered (it.pending (it.path.isPrefixOf key)) →
      PendWalks tr.db tr.cachegen (it.pending (it.path.isPrefixOf key)) E K → K < fuel →
      ∃ it' e, nodeIterator.seekLoop sha key pfx fuel it = some (it', e) ∧
        ((e = some .iteratorEnd ∧ E.filter (fun q => ¬ q.1 < key) = []) ∨
          (e = none ∧ it'.Good sha tr ∧ it'.err = it.err ∧ Ordered (it'.pending true) ∧
            (∀ c ∈ it'.pending true, ¬ c.1 < key) ∧
            ∃ K', K' ≤ K ∧
              PendWalks tr.db tr.cachegen (it'.pending true) (E.filter fun q => ¬ q.1 < key) K'))
  | 0, _, _, _, _, _, _, hK => absurd hK (Nat.not_lt_zero _)
  | fuel + 1, it, E, K, hgood, hord, hw, hK => by
    cases hpend : it.pending (it.path.isPrefixOf key) with
    | nil =>
      -- nothing is left: the seek reaches the end
      rw [hpend] at hw
      cases hw
      have hstart : it.stack ≠ [] := by
        intro hst
        simp [nodeIterator.pending, hst, hgood.trie] at hpend
      obtain ⟨it₁, hpeek, -⟩ := @nodeIterator.peek_end sha _ _ hgood.trie hstart _ hpend
      exact ⟨it₁, _, seekLoop_end hpeek fuel, .inl ⟨rfl, rfl⟩⟩
    | cons item P =>
      obtain ⟨p, x⟩ := item
      rw [hpend] at hw hord
      cases hw with
      | @cons _ _ L k _ E' K' hwalk hrest =>
      obtain ⟨y, k', hres, hy, hwy, hk'⟩ := hwalk.resolve
      obtain ⟨it₁, st, pi, hpeek, hnode, herr₁, hgood₁, hpend₁, hgood₂, hpath₂, hpend₂⟩ :=
        nodeIterator.peek_visit hgood hpend hres
      rw [seekLoop_visit hpeek fuel]
      have hpos := hwalk.pos
      by_cases hkey : p < key
      · rw [if_neg (not_not.mpr hkey)]
        -- the node is before the key: push it and go on
        have hd : (it₁.push st pi p).path.isPrefixOf key = p.isPrefixOf key := by rw [hpath₂]
        rcases hwy.expand hy with ⟨v, rfl, rfl, -, -⟩ | ⟨-, -, k'', hk'', hwc⟩
        · -- a value before the key is passed
          have hw' : PendWalks tr.db tr.cachegen
              ((it₁.push st pi p).pending ((it₁.push st pi p).path.isPrefixOf key)) E' K' := by
            rw [hpend₂]
            simpa [childrenOf, restOf] using hrest
          have hord' : Ordered ((it₁.push st pi p).pending
              ((it₁.push st pi p).path.isPrefixOf key)) := by
            rw [hpend₂]
            simpa [childrenOf, restOf] using hord.tail
          obtain ⟨it', e, hloop, hres'⟩ := seekLoop_walk fuel hgood₂ hord' hw' (by omega)
          refine ⟨it', e, hloop, ?_⟩
          have hfilter : ((p, v) :: E').filter (fun q => ¬ q.1 < key) =
              E'.filter (fun q => ¬ q.1 < key) := by
            rw [List.filter_cons_of_neg (by simpa using hkey)]
          rw [show [(p, v)] ++ E' = (p, v) :: E' from rfl, hfilter]
          rcases hres' with hend | ⟨he, hgood', herr', hord'', habove, K'', hK'', hw''⟩
          · exact .inl hend
          · exact .inr ⟨he, hgood', herr'.trans herr₁, hord'', habove, K'', by omega, hw''⟩
        · by_cases hpre : p <+: key
          · -- a node on the way to the key: descend into its children
            have hd' : (it₁.push st pi p).path.isPrefixOf key = true := by
              rw [hd]
              exact List.isPrefixOf_iff_prefix.mpr hpre
            have hw' : PendWalks tr.db tr.cachegen
                ((it₁.push st pi p).pending ((it₁.push st pi p).path.isPrefixOf key))
                (L ++ E') (k'' + K') := by
              rw [hd', hpend₂, if_pos rfl]
              exact hwc.append hrest
            have hord' : Ordered ((it₁.push st pi p).pending
                ((it₁.push st pi p).path.isPrefixOf key)) := by
              rw [hd', hpend₂, if_pos rfl]
              exact hord.expand y
            obtain ⟨it', e, hloop, hres'⟩ := seekLoop_walk fuel hgood₂ hord' hw' (by omega)
            refine ⟨it', e, hloop, ?_⟩
            rcases hres' with hend | ⟨he, hgood', herr', hord'', habove, K'', hK'', hw''⟩
            · exact .inl hend
            · exact .inr ⟨he, hgood', herr'.trans herr₁, hord'', habove, K'', by omega, hw''⟩
          · -- a node off the way to the key: everything below it is before the key
            have hd' : (it₁.push st pi p).path.isPrefixOf key = false := by
              rw [hd]
              exact Bool.eq_false_iff.mpr fun h => hpre <| List.isPrefixOf_iff_prefix.mp h
            have hw' : PendWalks tr.db tr.cachegen
                ((it₁.push st pi p).pending ((it₁.push st pi p).path.isPrefixOf key)) E' K' := by
              rw [hd', hpend₂]
              simpa using hrest
            have hord' : Ordered ((it₁.push st pi p).pending
                ((it₁.push st pi p).path.isPrefixOf key)) := by
              rw [hd', hpend₂]
              simpa using hord.tail
            have hbefore : ∀ q ∈ L, q.1 < key := by
              intro q hq
              obtain ⟨r, hr⟩ := hwalk.isPrefix_of_mem q hq
              rw [← hr]
              exact ((Branches.of_lt hkey hpre).append_left r).lt
            have hfilter : (L ++ E').filter (fun q => ¬ q.1 < key) =
                E'.filter (fun q => ¬ q.1 < key) := by
              rw [List.filter_append, List.filter_eq_nil_iff.mpr (fun q hq => by simpa using hbefore q hq),
                List.nil_append]
            obtain ⟨it', e, hloop, hres'⟩ := seekLoop_walk fuel hgood₂ hord' hw' (by omega)
            refine ⟨it', e, hloop, ?_⟩
            rw [hfilter]
            rcases hres' with hend | ⟨he, hgood', herr', hord'', habove, K'', hK'', hw''⟩
            · exact .inl hend
            · exact .inr ⟨he, hgood', herr'.trans herr₁, hord'', habove, K'', by omega, hw''⟩
      · -- the node is not before the key: stop before it
        rw [if_pos hkey]
        have hafter : ∀ c ∈ (p, x) :: P, ¬ c.1 < key := by
          intro c hc
          rcases List.mem_cons.mp hc with rfl | hc
          · exact hkey
          · exact fun hlt => hkey (List.lt_trans ((List.pairwise_cons.mp hord).1 c hc).lt hlt)
        have hall : ∀ q ∈ L ++ E', ¬ q.1 < key := by
          intro q hq
          obtain ⟨c, hc, r, hr⟩ := (PendWalks.cons hwalk hrest).isPrefix_of_mem q hq
          rw [← hr]
          exact not_lt_append (hafter c hc) r
        refine ⟨it₁, none, rfl, .inr ⟨rfl, hgood₁, herr₁, hpend₁ ▸ hord, hpend₁ ▸ hafter, k + K',
          le_rfl, ?_⟩⟩
        rw [List.filter_eq_self.mpr (fun q hq => by simpa using hall q hq), hpend₁]
        exact .cons hwalk hrest

end Seek

end Mtp
end Uranus
