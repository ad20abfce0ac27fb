import LinearScan.Proofs.IndexSet
import Mathlib.Data.Finset.Basic

/-!
# Sequences of operations on index sets

Index sets that start empty and go through any sequence of changes and unions hold what finite sets of numbers hold after
the same sequence.
-/

namespace LinearScan.IndexSet

variable {s t : IndexSet} {i : Nat}

/-! ## Gains -/

/-- Appended words without members are no gain. -/
theorem gains_iff : s.gains t = true ↔ ∃ j, t.get j = true ∧ ¬ s.get j = true := by
  constructor
  · intro h
    obtain ⟨k, -, hword⟩ := List.any_eq_true.1 h
    by_contra hnone
    refine bne_iff_ne.1 hword (BitVec.eq_of_getLsbD_eq fun b hb => ?_)
    have hget : ∀ u : IndexSet, u.get (64 * k + b) = (u.words.getD k 0).getLsbD b := by
      intro u
      have hdiv : (64 * k + b) / 64 = k := by omega
      have hmod : (64 * k + b) % 64 = b := by omega
      rw [get, hdiv, hmod]
    rw [BitVec.getLsbD_or, ← hget s, ← hget t, Bool.or_eq_left_iff_imp]
    intro ht
    by_contra hs
    exact hnone ⟨_, ht, hs⟩
  · rintro ⟨j, ht, hs⟩
    by_contra hgains
    exact hs (get_of_not_gains (by simpa using hgains) ht)

/-! ## Sequences of operations -/

/-- An operation on one of a family of sets: a number goes in or out, or the members of a set join another. -/
inductive Change where
  | set (k i : Nat) (member : Bool)
  | union (k l : Nat)

namespace Change

def apply (sets : Nat → IndexSet) : Change → Nat → IndexSet
  | set k i member => Function.update sets k ((sets k).set i member)
  | union k l => Function.update sets k ((sets k).union (sets l))

/-- The same operation on sets of numbers. -/
def onMembers (sets : Nat → Finset Nat) : Change → Nat → Finset Nat
  | set k i member => Function.update sets k (if member then sets k ∪ {i} else sets k \ {i})
  | union k l => Function.update sets k (sets k ∪ sets l)

end Change

/-- The sets after a sequence of operations, all being empty before. -/
def after (changes : List Change) : Nat → IndexSet := changes.foldl Change.apply fun _ => empty

def membersAfter (changes : List Change) : Nat → Finset Nat := changes.foldl Change.onMembers fun _ => ∅

/-- The set has these members. -/
def Holds (s : IndexSet) (members : Finset Nat) : Prop := ∀ i, s.get i = true ↔ i ∈ members

theorem Change.holds (c : Change) {sets : Nat → IndexSet} {members : Nat → Finset Nat}
    (h : ∀ k, (sets k).Holds (members k)) (k : Nat) : (c.apply sets k).Holds (c.onMembers members k) := by
  intro i
  have hi := h k i
  cases c with
  | set l j member =>
      by_cases hk : k = l
      · subst hk
        by_cases hij : i = j
        · cases member <;> simp [apply, onMembers, get_set, hij]
        · cases member <;> simp [apply, onMembers, get_set, hij, Ne.symm hij, hi]
      · simpa [apply, onMembers, hk] using hi
  | union l l' =>
      by_cases hk : k = l
      · subst hk
        simp [apply, onMembers, get_union, hi, h l' i]
      · simpa [apply, onMembers, hk] using hi

theorem holds_after (changes : List Change) (k : Nat) : (after changes k).Holds (membersAfter changes k) := by
  suffices hall : ∀ sets members, (∀ k, (sets k).Holds (members k)) → ∀ k,
      (changes.foldl Change.apply sets k).Holds (changes.foldl Change.onMembers members k) from
    hall _ _ (fun _ i => by simp) k
  induction changes with
  | nil => exact fun _ _ h => h
  | cons c changes ih => exact fun sets members h => ih _ _ (c.holds h)

theorem set_false_of_size_le (h : s.words.size ≤ i / 64) : s.set i false = s := by
  have hwords : s.words.modify (i / 64) (· &&& ~~~ BitVec.twoPow 64 (i % 64)) = s.words := by
    refine Array.ext_getElem? fun k => ?_
    rw [Array.getElem?_modify]
    split
    · rename_i hk
      rw [Array.getElem?_eq_none (by omega), Option.map_none]
    · rfl
  simp only [set, Bool.false_eq_true, ↓reduceIte, hwords]

/-- After any sequence of operations a set holds the members that it should, lists them in increasing order, and gains
from another set exactly if that has a member it lacks. -/
theorem after_exact (changes : List Change) (k : Nat) :
    (∀ i, (after changes k).get i = true ↔ i ∈ membersAfter changes k) ∧
    (∀ i, i ∈ (after changes k).toList ↔ i ∈ membersAfter changes k) ∧
    (after changes k).toList.Pairwise (· < ·) ∧
    (∀ l i, ((after changes k).union (after changes l)).get i = true ↔
      i ∈ membersAfter changes k ∪ membersAfter changes l) ∧
    (∀ l, (after changes k).gains (after changes l) = true ↔
      ∃ i ∈ membersAfter changes l, i ∉ membersAfter changes k) ∧
    (∀ i, (after changes k).words.size ≤ i / 64 → (after changes k).set i false = after changes k) := by
  have hget := holds_after changes
  refine ⟨hget k, fun i => mem_toList.trans (hget k i), pairwise_toList _, fun l i => ?_, fun l => ?_,
    fun i => set_false_of_size_le⟩
  · rw [get_union, Bool.or_eq_true, hget k i, hget l i, Finset.mem_union]
  · simp only [gains_iff, hget k _, hget l _]

/-- A set with one member that has grown by a union with a set whose only member was taken out again. -/
def grown : List Change := [.set 0 3 true, .set 1 130 true, .set 1 130 false, .union 0 1]

theorem after_exact_grown :
    (after grown 0).words.size = 3 ∧ membersAfter grown 0 = {3} ∧ (after grown 0).set 200 false = after grown 0 ∧
    (after (grown.take 3) 0).words.size = 1 ∧ (after (grown.take 3) 0).gains (after (grown.take 3) 1) = false := by
  have hgains := ((after_exact (grown.take 3) 0).2.2.2.2.1 1).not
  refine ⟨by decide, by decide, (after_exact grown 0).2.2.2.2.2 200 (by decide), by decide, ?_⟩
  exact Bool.eq_false_iff.2 (hgains.2 (by decide))

end LinearScan.IndexSet
