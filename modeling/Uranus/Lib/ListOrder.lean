import Mathlib

/-!
# Lists that branch apart

Two lists branch apart when, after a common part, they go on with different
elements.  The list that goes on with the smaller element comes first in the
lexicographic order, and every extension of it comes before every extension of the
other.  Two lists branch apart unless one is a prefix of the other.

This is the order of a pre-order walk of a tree with labelled children.  A node's
path is a prefix of the paths below it, and the paths of two children branch apart
in the order of their labels, so the walk meets the paths in increasing order.

Main results:

- Theorem {lit}`Branches.append`: extensions of two branching lists branch in the
  same way.
- Theorem {lit}`Branches.lt`: the list that goes on with the smaller element is the
  smaller list.
- Theorem {lit}`isPrefix_or_branches`: two lists branch apart, or one is a prefix of
  the other.
- Theorem {lit}`lt_iff_branches_or_isPrefix`: a list is smaller than another when it
  branches off below it or is a proper prefix of it.
-/

namespace Uranus
namespace Lib

variable {α : Type*} [LinearOrder α]

/-- {lit}`Branches p q`: after a common part, {lit}`p` goes on with a smaller element
than {lit}`q`. -/
def Branches : List α → List α → Prop
  | a :: p, b :: q => a < b ∨ (a = b ∧ Branches p q)
  | _, _ => False

@[simp]
theorem not_branches_nil_left (q : List α) : ¬ Branches [] q := fun h => h

@[simp]
theorem not_branches_nil_right (p : List α) : ¬ Branches p [] := by
  cases p with
  | nil => exact fun h => h
  | cons a p => exact fun h => h

@[simp]
theorem branches_cons_cons (a b : α) (p q : List α) :
    Branches (a :: p) (b :: q) ↔ a < b ∨ (a = b ∧ Branches p q) := Iff.rfl

/-- No list branches off from itself. -/
theorem branches_irrefl (p : List α) : ¬ Branches p p := by
  induction p with
  | nil => exact not_branches_nil_left []
  | cons a p ih => simpa using ih

/-- Extensions of two branching lists branch in the same way. -/
theorem Branches.append {p q : List α} (h : Branches p q) (r s : List α) :
    Branches (p ++ r) (q ++ s) := by
  induction p generalizing q with
  | nil => exact absurd h (not_branches_nil_left q)
  | cons a p ih =>
    cases q with
    | nil => exact absurd h (not_branches_nil_right _)
    | cons b q =>
      rcases h with hab | ⟨rfl, h⟩
      · exact .inl hab
      · exact .inr ⟨rfl, ih h⟩

/-- An extension of a list branches off as the list does. -/
theorem Branches.append_left {p q : List α} (h : Branches p q) (r : List α) :
    Branches (p ++ r) q := by
  simpa using h.append r []

/-- A list branches off below every extension of a list it branches off below. -/
theorem Branches.append_right {p q : List α} (h : Branches p q) (s : List α) :
    Branches p (q ++ s) := by
  simpa using h.append [] s

/-- A common part in front keeps two lists branching. -/
theorem Branches.prepend {p q : List α} (h : Branches p q) (c : List α) :
    Branches (c ++ p) (c ++ q) := by
  induction c with
  | nil => exact h
  | cons a c ih => exact .inr ⟨rfl, ih⟩

/-- Branching off is transitive. -/
theorem Branches.trans {p q r : List α} (hpq : Branches p q) (hqr : Branches q r) :
    Branches p r := by
  induction p generalizing q r with
  | nil => exact absurd hpq (not_branches_nil_left q)
  | cons a p ih =>
    cases q with
    | nil => exact absurd hpq (not_branches_nil_right _)
    | cons b q =>
      cases r with
      | nil => exact absurd hqr (not_branches_nil_right _)
      | cons c r =>
        rcases hpq with hab | ⟨rfl, hpq⟩ <;> rcases hqr with hbc | ⟨rfl, hqr⟩
        · exact .inl (hab.trans hbc)
        · exact .inl hab
        · exact .inl hbc
        · exact .inr ⟨rfl, ih hpq hqr⟩

/-- A list that branches off from another is not a prefix of it. -/
theorem Branches.not_isPrefix {p q : List α} (h : Branches p q) : ¬ p <+: q := by
  induction p generalizing q with
  | nil => exact absurd h (not_branches_nil_left q)
  | cons a p ih =>
    cases q with
    | nil => exact absurd h (not_branches_nil_right _)
    | cons b q =>
      rw [List.cons_prefix_cons]
      rintro ⟨rfl, hpre⟩
      rcases h with hab | ⟨-, h⟩
      · exact lt_irrefl a hab
      · exact ih h hpre

/-- The list that goes on with the smaller element is the smaller list. -/
theorem Branches.lt {p q : List α} (h : Branches p q) : p < q := by
  induction p generalizing q with
  | nil => exact absurd h (not_branches_nil_left q)
  | cons a p ih =>
    cases q with
    | nil => exact absurd h (not_branches_nil_right _)
    | cons b q =>
      rw [List.cons_lt_cons_iff]
      rcases h with hab | ⟨rfl, h⟩
      · exact .inl hab
      · exact .inr ⟨rfl, ih h⟩

/-- Two lists branch apart, or one is a prefix of the other. -/
theorem isPrefix_or_branches (p q : List α) :
    p <+: q ∨ q <+: p ∨ Branches p q ∨ Branches q p := by
  induction p generalizing q with
  | nil => exact .inl List.nil_prefix
  | cons a p ih =>
    cases q with
    | nil => exact .inr (.inl List.nil_prefix)
    | cons b q =>
      rcases lt_trichotomy a b with hab | rfl | hba
      · exact .inr (.inr (.inl (.inl hab)))
      · rcases ih q with h | h | h | h
        · exact .inl (List.cons_prefix_cons.mpr ⟨rfl, h⟩)
        · exact .inr (.inl (List.cons_prefix_cons.mpr ⟨rfl, h⟩))
        · exact .inr (.inr (.inl (.inr ⟨rfl, h⟩)))
        · exact .inr (.inr (.inr (.inr ⟨rfl, h⟩)))
      · exact .inr (.inr (.inr (.inl hba)))

/-- A list is not smaller than its prefixes. -/
theorem not_lt_of_isPrefix {p q : List α} (h : q <+: p) : ¬ p < q := by
  induction q generalizing p with
  | nil => exact List.not_lt_nil _
  | cons b q ih =>
    obtain ⟨p', rfl, hpre⟩ : ∃ p', p = b :: p' ∧ q <+: p' := by
      cases p with
      | nil => exact absurd h (by simp)
      | cons a p' => exact ⟨p', by rw [(List.cons_prefix_cons.mp h).1], (List.cons_prefix_cons.mp h).2⟩
    rw [List.cons_lt_cons_iff]
    rintro (hbb | ⟨-, hlt⟩)
    · exact lt_irrefl b hbb
    · exact ih hpre hlt

/-- A proper prefix of a list is smaller than it. -/
theorem lt_of_prefix_of_ne {p q : List α} (h : p <+: q) (hne : p ≠ q) : p < q := by
  induction p generalizing q with
  | nil =>
    cases q with
    | nil => exact absurd rfl hne
    | cons b q => exact List.nil_lt_cons b q
  | cons a p ih =>
    cases q with
    | nil => exact absurd h (by simp)
    | cons b q =>
      obtain ⟨rfl, hpre⟩ := List.cons_prefix_cons.mp h
      exact List.cons_lt_cons_iff.mpr (.inr ⟨rfl, ih hpre fun heq => hne (heq ▸ rfl)⟩)

/-- A list is smaller than another when it branches off below it or is a proper
prefix of it. -/
theorem lt_iff_branches_or_isPrefix {p q : List α} :
    p < q ↔ Branches p q ∨ (p <+: q ∧ p ≠ q) := by
  constructor
  · intro hlt
    rcases isPrefix_or_branches p q with h | h | h | h
    · exact .inr ⟨h, fun heq => List.lt_irrefl p (heq ▸ hlt)⟩
    · exact absurd hlt (not_lt_of_isPrefix h)
    · exact .inl h
    · exact absurd (List.lt_trans hlt h.lt) (List.lt_irrefl p)
  · rintro (h | ⟨hpre, hne⟩)
    · exact h.lt
    · exact lt_of_prefix_of_ne hpre hne

/-- A smaller list that is not a prefix of another branches off below it. -/
theorem Branches.of_lt {p q : List α} (hlt : p < q) (hpre : ¬ p <+: q) : Branches p q :=
  (lt_iff_branches_or_isPrefix.mp hlt).resolve_right fun h => hpre h.1

/-- A common part in front does not change which of two lists is smaller. -/
theorem append_lt_append_iff {β : Type*} [LT β] [Std.Irrefl (fun a b : β => a < b)] (c : List β)
    {p q : List β} : c ++ p < c ++ q ↔ p < q := by
  induction c with
  | nil => exact Iff.rfl
  | cons a c ih =>
    rw [List.cons_append, List.cons_append, List.cons_lt_cons_iff, ih]
    constructor
    · rintro (h | ⟨-, h⟩)
      · exact absurd h (Std.Irrefl.irrefl a)
      · exact h
    · exact fun h => .inr ⟨rfl, h⟩

/-- An extension of a list that is not smaller than another is not smaller either. -/
theorem not_lt_append {p k : List α} (h : ¬ p < k) (r : List α) : ¬ p ++ r < k := by
  induction p generalizing k with
  | nil =>
    cases k with
    | nil => exact List.not_lt_nil _
    | cons b k => exact absurd (List.nil_lt_cons b k) h
  | cons a p ih =>
    cases k with
    | nil => exact List.not_lt_nil _
    | cons b k =>
      rw [List.cons_append, List.cons_lt_cons_iff]
      rw [List.cons_lt_cons_iff, not_or, not_and] at h
      rintro (hab | ⟨rfl, hlt⟩)
      · exact h.1 hab
      · exact ih (h.2 rfl) hlt

/-- A list that is not before another and does not extend it branches off above it. -/
theorem branches_of_not_lt_of_not_isPrefix {p q : List α} (hlt : ¬ q < p) (hpre : ¬ p <+: q) :
    Branches p q := by
  rcases isPrefix_or_branches p q with h | h | h | h
  · exact absurd h hpre
  · exact absurd (lt_of_prefix_of_ne h fun heq => hpre (heq ▸ List.prefix_refl q)) hlt
  · exact h
  · exact absurd h.lt hlt

/-- Two lists branch apart exactly when the first is smaller and not a prefix of the
second. -/
theorem branches_iff_lt_not_isPrefix {p q : List α} : Branches p q ↔ p < q ∧ ¬ p <+: q := by
  constructor
  · exact fun h => ⟨h.lt, h.not_isPrefix⟩
  · exact fun h => Branches.of_lt h.1 h.2

/-- A list closed by an element above every element of another list is smaller than
it exactly when the list branches off below it: it can be no prefix of it. -/
theorem append_top_lt_iff {z : α} {p q : List α} (hq : ∀ c ∈ q, c < z) :
    p ++ [z] < q ↔ Branches p q := by
  induction p generalizing q with
  | nil =>
    cases q with
    | nil => exact ⟨fun h => absurd h (List.not_lt_nil _), fun h => absurd h (not_branches_nil_left _)⟩
    | cons c q =>
      have hc := hq c List.mem_cons_self
      rw [List.nil_append, List.cons_lt_cons_iff]
      refine ⟨?_, fun h => absurd h (not_branches_nil_left _)⟩
      rintro (hzc | ⟨rfl, -⟩)
      · exact absurd (hzc.trans hc) (lt_irrefl z)
      · exact absurd hc (lt_irrefl _)
  | cons a p ih =>
    cases q with
    | nil => exact ⟨fun h => absurd h (List.not_lt_nil _), fun h => absurd h (not_branches_nil_right _)⟩
    | cons c q =>
      rw [List.cons_append, List.cons_lt_cons_iff, branches_cons_cons,
        ih fun d hd => hq d (List.mem_cons_of_mem c hd)]

/-- Two lists closed by an element above all of their elements compare as the lists
branch apart, except that a list comes after its proper prefixes. -/
theorem append_top_lt_append_top_iff {z : α} {p q : List α} (hp : ∀ c ∈ p, c < z)
    (hq : ∀ c ∈ q, c < z) : p ++ [z] < q ++ [z] ↔ Branches p q ∨ (q <+: p ∧ q ≠ p) := by
  induction p generalizing q with
  | nil =>
    cases q with
    | nil =>
      exact ⟨fun h => absurd h (List.lt_irrefl _),
        fun h => h.elim (fun h => absurd h (not_branches_nil_left _)) fun h => absurd rfl h.2⟩
    | cons c q =>
      have hc := hq c List.mem_cons_self
      rw [List.nil_append, List.cons_append, List.cons_lt_cons_iff]
      constructor
      · rintro (hzc | ⟨rfl, -⟩)
        · exact absurd (hzc.trans hc) (lt_irrefl z)
        · exact absurd hc (lt_irrefl _)
      · rintro (h | ⟨h, -⟩)
        · exact absurd h (not_branches_nil_left _)
        · exact absurd h (by simp)
  | cons a p ih =>
    have ha := hp a List.mem_cons_self
    have hp' : ∀ c ∈ p, c < z := fun c hc => hp c (List.mem_cons_of_mem a hc)
    cases q with
    | nil =>
      rw [List.nil_append, List.cons_append, List.cons_lt_cons_iff]
      exact ⟨fun _ => .inr ⟨List.prefix_append [] _, (List.cons_ne_nil a p).symm⟩, fun _ => .inl ha⟩
    | cons c q =>
      have hq' : ∀ d ∈ q, d < z := fun d hd => hq d (List.mem_cons_of_mem c hd)
      rw [List.cons_append, List.cons_append, List.cons_lt_cons_iff, ih hp' hq', branches_cons_cons,
        List.cons_prefix_cons]
      simp only [ne_eq, List.cons.injEq]
      constructor
      · rintro (hac | ⟨rfl, hb | ⟨hpre, hne⟩⟩)
        · exact .inl (.inl hac)
        · exact .inl (.inr ⟨rfl, hb⟩)
        · exact .inr ⟨⟨rfl, hpre⟩, fun h => hne h.2⟩
      · rintro ((hac | ⟨rfl, hb⟩) | ⟨⟨rfl, hpre⟩, hne⟩)
        · exact .inl hac
        · exact .inr ⟨rfl, .inl hb⟩
        · exact .inr ⟨rfl, .inr ⟨hpre, fun h => hne ⟨rfl, h⟩⟩⟩

end Lib
end Uranus
