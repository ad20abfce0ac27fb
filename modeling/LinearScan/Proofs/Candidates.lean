import LinearScan.Candidates
import Mathlib.Data.List.Rotate

/-!
# Candidates are the allocatable registers, each once

The candidates of a class are its allocatable registers and the fixed one, without repetition: first the fixed one, then
the hint, then what is left of the two lists, rotated.
-/

namespace LinearScan

theorem rotateLeft_eq_rotate {α : Type} (l : List α) (n : Nat) : l.rotateLeft n = l.rotate n := by
  rw [List.rotate_eq_drop_append_take_mod, List.rotateLeft]
  dsimp only
  split
  · rename_i hshort
    obtain rfl | ⟨x, rfl⟩ := (Nat.le_one_iff_eq_zero_or_eq_one.1 hshort).imp List.length_eq_zero_iff.1
      List.length_eq_one_iff.1
    · simp
    · simp [Nat.mod_one]
  · rfl

namespace Machine

variable {m : Machine} {c : RegClass} {fixed hint : Option PhysReg} {offset : Nat} {r : PhysReg}

/-! ## What comes first -/

theorem firstChoices_eq :
    m.firstChoices c fixed hint = fixed.toList ++ (m.usableHint c hint).toList.filter (fixed ≠ some ·) := by
  unfold firstChoices
  cases fixed with
  | none => cases m.usableHint c hint <;> rfl
  | some f =>
      cases m.usableHint c hint with
      | none => rfl
      | some h =>
          by_cases hfh : f = h
          · simp [hfh]
          · simp [hfh]

theorem mem_firstChoices : r ∈ m.firstChoices c fixed hint ↔ fixed = some r ∨ m.usableHint c hint = some r := by
  simp only [firstChoices_eq, List.mem_append, List.mem_filter, Option.mem_toList, decide_eq_true_eq]
  by_cases hf : fixed = some r
  · simp [hf]
  · simp [hf]

theorem nodup_firstChoices : (m.firstChoices c fixed hint).Nodup := by
  have hone : ∀ o : Option PhysReg, o.toList.Nodup := fun o => by cases o <;> simp
  rw [firstChoices_eq, List.nodup_append]
  refine ⟨hone _, (hone _).filter _, ?_⟩
  rintro x hx y hy rfl
  have hne := of_decide_eq_true (List.mem_filter.1 hy).2
  exact hne (Option.mem_toList.1 hx)

theorem mem_allocatable_of_usableHint (h : m.usableHint c hint = some r) : r ∈ m.allocatable c := by
  obtain ⟨-, hr⟩ := Option.filter_eq_some_iff.1 h
  simp only [Bool.and_eq_true, decide_eq_true_eq, isAllocatable, List.contains_iff_mem] at hr
  exact hr.1 ▸ hr.2

/-! ## All candidates -/

theorem candidates_eq :
    m.candidates c fixed hint offset = m.firstChoices c fixed hint ++
      ((m.preferred.get c).rotate offset).filter (· ∉ m.firstChoices c fixed hint) ++
      ((m.nonPreferred.get c).rotate offset).filter (· ∉ m.firstChoices c fixed hint) := by
  simp [candidates, rotateLeft_eq_rotate]

theorem mem_candidates : r ∈ m.candidates c fixed hint offset ↔ fixed = some r ∨ r ∈ m.allocatable c := by
  have hhint : m.usableHint c hint = some r → r ∈ m.preferred.get c ∨ r ∈ m.nonPreferred.get c := fun h =>
    List.mem_append.1 (mem_allocatable_of_usableHint h)
  simp only [candidates_eq, List.mem_append, List.mem_filter, List.mem_rotate, decide_eq_true_eq, allocatable]
  by_cases hfirst : r ∈ m.firstChoices c fixed hint
  · simp only [hfirst, not_true_eq_false, and_false, or_false, true_iff]
    exact (mem_firstChoices.1 hfirst).imp_right hhint
  · have hfixed : ¬ fixed = some r := fun h => hfirst (mem_firstChoices.2 (.inl h))
    simp only [hfirst, not_false_eq_true, and_true, false_or, hfixed]

theorem nodup_candidates (h : (m.allocatable c).Nodup) (fixed hint : Option PhysReg) (offset : Nat) :
    (m.candidates c fixed hint offset).Nodup := by
  obtain ⟨hpref, hnon, happart⟩ := List.nodup_append.1 h
  rw [candidates_eq]
  refine List.nodup_append.2 ⟨List.nodup_append.2 ⟨nodup_firstChoices, ?_, ?_⟩, ?_, ?_⟩
  · exact (List.nodup_rotate.2 hpref).filter _
  · rintro r hr s hs rfl
    exact of_decide_eq_true (List.mem_filter.1 hs).2 hr
  · exact (List.nodup_rotate.2 hnon).filter _
  · rintro r hr s hs rfl
    obtain ⟨hs, hout⟩ := List.mem_filter.1 hs
    rcases List.mem_append.1 hr with hr | hr
    · exact of_decide_eq_true hout hr
    · exact happart r (List.mem_rotate.1 (List.mem_filter.1 hr).1) r (List.mem_rotate.1 hs) rfl

/-! ## The order of the candidates -/

/-- Is the register a hint that counts: one that is set, of the class, and allocatable? -/
def Suggests (m : Machine) (c : RegClass) (hint : PhysReg) : Prop :=
  hint ≠ .unset ∧ hint.cls? = some c ∧ hint ∈ m.allocatable c

instance (m : Machine) (c : RegClass) (hint : PhysReg) : Decidable (m.Suggests c hint) :=
  inferInstanceAs (Decidable (_ ∧ _ ∧ _))

theorem usableHint_asHint (hcls : ∀ r ∈ m.allocatable c, r.cls? = some c) (hint : PhysReg) :
    m.usableHint c hint.asHint = if m.Suggests c hint then some hint else none := by
  have hiff : (hint.cls = c ∧ hint ∈ m.allocatable hint.cls) ↔ hint.cls? = some c ∧ hint ∈ m.allocatable c := by
    constructor
    · rintro ⟨rfl, hmem⟩
      exact ⟨hcls hint hmem, hmem⟩
    · rintro ⟨hc, hmem⟩
      have hc : hint.cls = c := by rw [PhysReg.cls, hc, Option.getD_some]
      exact ⟨hc, hc ▸ hmem⟩
  by_cases hset : hint = .unset
  · simp [usableHint, PhysReg.asHint, Suggests, hset]
  · simp only [usableHint, PhysReg.asHint, hset, ↓reduceIte, Option.filter_some, Bool.and_eq_true, decide_eq_true_eq,
      isAllocatable, List.contains_iff_mem, hiff, Suggests, ne_eq, not_false_eq_true, true_and]

/-- A machine whose third register is not a preferred one. -/
def threeInts : Machine :=
  ⟨⟨block .int 0 2, [], []⟩, ⟨block .int 2 3, [], []⟩, ⟨none, none, none⟩⟩

end Machine

end LinearScan
