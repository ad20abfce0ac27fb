import LinearScan.Proofs.Run
import LinearScan.Proofs.Scan.Family

/-!
# The invariant of a scan

While a trace is scanned, the families of its roots stay partitions, every interval is well formed and
suits its place, and an interval is in at most one of the lists of the scan. The lists may lack some
intervals that a step is at work on.
-/

namespace LinearScan

open LiveRange Interval

namespace Problem

variable (p : Problem) (t : Nat)

/-- The use stands for operand number `u.slot` of an instruction of the trace. An operand that reads a
copy may be anywhere itself. -/
def UseIn (v : Nat) (u : UsePos) : Prop :=
  ∃ b ∈ p.traces.blocks t, ∃ i ∈ (p.routine.span b).toList, ∃ op,
    (p.routine.operands i)[u.slot]? = some op ∧ op.vreg.num = v ∧ u.pos = op.point i ∧
      (u.operand = op ∨ u.operand = { op with constraint := .any })

/-- A register that a value may be in: one of its class, or one that an operand in the trace names. -/
structure MayHold (v : VirtReg) (r : PhysReg) : Prop where
  legible : r.isLegible = true
  known : r ∈ p.machine.allocatable v.cls ∨ ∃ b ∈ p.traces.blocks t, ∃ i ∈ (p.routine.span b).toList,
    ∃ op ∈ p.routine.operands i, op.vreg.num = v.num ∧ op.fixedReg? = some r

/-- A register that the scan offers to a value: one of its class, or one that a use in its root names. -/
def Offered (first : Nat) (origins : Array Interval) (v : VirtReg) (r : PhysReg) : Prop :=
  r ∈ p.machine.allocatable v.cls ∨ ∃ root origin, first ≤ root ∧ origins[root]? = some origin ∧ origin.vreg = v ∧
    ∃ u ∈ origin.uses, u.operand.fixedReg? = some r

/-- An interval of trace `t` that suits its place. -/
structure Good (iv : Interval) : Prop where
  sound : iv.Sound
  suited : iv.Suited
  held : ∀ r, iv.alloc = .reg r → p.MayHold t iv.vreg r
  genuine : ∀ u ∈ iv.uses, p.UseIn t iv.vreg.num u

variable {p t} {iv head tail : Interval} {pos : Nat}

theorem Good.left_half (h : p.Good t iv) (hs : Halves pos iv head tail) : p.Good t head := by
  have huses : ∀ u ∈ head.uses, u ∈ iv.uses := fun u hu => hs.uses ▸ List.mem_append_left _ hu
  have halloc : head.alloc = iv.alloc := by rw [hs.headEq]
  have hspilled : head.spilled = iv.spilled := by rw [hs.headEq]
  have hvreg : head.vreg = iv.vreg := by rw [hs.headEq]
  refine ⟨hs.headSound, ⟨fun r hr u hu => ?_, fun hsp => ?_⟩, fun r hr => ?_, fun u hu => ?_⟩
  · exact h.suited.inReg r (halloc ▸ hr) u (huses u hu)
  · obtain ⟨h1, h2⟩ := h.suited.onStack (hspilled ▸ hsp)
    exact ⟨halloc.trans h1, fun u hu => h2 u (huses u hu)⟩
  · exact hvreg ▸ h.held r (halloc ▸ hr)
  · exact hvreg ▸ h.genuine u (huses u hu)

theorem Good.right_half (h : p.Good t iv) (hs : Halves pos iv head tail) (parent : Option Nat) :
    p.Good t { tail with parent } := by
  obtain ⟨halloc, hspilled, -⟩ := hs.place
  refine ⟨⟨hs.tailSound.ordered, hs.tailSound.nonempty, hs.tailSound.sorted, hs.tailSound.covered⟩,
    ⟨fun r hr => ?_, fun hsp => ?_⟩, fun r hr => ?_, fun u hu => ?_⟩
  · rw [halloc] at hr
    cases hr
  · rw [hspilled] at hsp
    cases hsp
  · rw [halloc] at hr
    cases hr
  · rw [hs.vreg]
    exact h.genuine u (hs.uses ▸ List.mem_append_right _ hu)

theorem Good.setChildren (h : p.Good t iv) (children : List Nat) : p.Good t { iv with children } :=
  ⟨⟨h.sound.ordered, h.sound.nonempty, h.sound.sorted, h.sound.covered⟩, ⟨h.suited.inReg, h.suited.onStack⟩, h.held,
    h.genuine⟩

end Problem

/-! ## All intervals of a trace -/

/-- The intervals of trace `t`, which are those from number `first` on, given what they were before the
scan. -/
structure Partitioned (p : Problem) (t first : Nat) (origins ivs : Array Interval) : Prop where
  old : ∀ id < first, ivs[id]? = origins[id]?
  family : ∀ root origin, first ≤ root → origins[root]? = some origin → Family ivs root origin
  member : ∀ id iv, first ≤ id → ivs[id]? = some iv →
    ∃ root, first ≤ root ∧ root < origins.size ∧ id ∈ familyOf ivs root
  good : ∀ id iv, first ≤ id → ivs[id]? = some iv → p.Good t iv
  offered : ∀ id iv r, first ≤ id → ivs[id]? = some iv → iv.alloc = .reg r → p.Offered first origins iv.vreg r

namespace Partitioned

variable {p : Problem} {t first id pos : Nat} {origins ivs : Array Interval} {iv head tail : Interval}

section

variable (h : Partitioned p t first origins ivs) (hfirst : first ≤ id)

include h hfirst

theorem place {change : Interval → Interval} (hc : ∀ iv, Family.shape (change iv) = Family.shape iv)
    (hgood : ∀ iv, ivs[id]? = some iv → p.Good t (change iv))
    (hoffered : ∀ iv r, ivs[id]? = some iv → (change iv).alloc = .reg r → p.Offered first origins iv.vreg r) :
    Partitioned p t first origins (ivs.modify id change) := by
  have hshape : ∀ j : Nat, (ivs.modify id change)[j]?.map Family.shape = ivs[j]?.map Family.shape := by
    intro j
    rw [Array.getElem?_modify]
    split
    · rw [Option.map_map]
      congr 1
      exact funext hc
    · rfl
  have hfam : ∀ root, familyOf (ivs.modify id change) root = familyOf ivs root := by
    intro root
    have hroot := congrArg (Option.map (·.2.2.2.1)) (hshape root)
    simp only [Option.map_map] at hroot
    exact congrArg (fun o => root :: o.getD []) hroot
  refine ⟨fun j hj => ?_, fun root origin hr ho => ?_, fun j iv hj hiv => ?_, fun j iv hj hiv => ?_,
    fun j iv r hj hiv ha => ?_⟩
  · have hne : ¬ id = j := by omega
    rw [Array.getElem?_modify, if_neg hne]
    exact h.old j hj
  · exact (h.family root origin hr ho).congr fun j _ => hshape j
  · have hj' : ∃ iv, ivs[j]? = some iv := by
      have := hshape j
      rw [hiv] at this
      cases hjv : ivs[j]? with
      | none => rw [hjv] at this; cases this
      | some w => exact ⟨w, rfl⟩
    obtain ⟨w, hw⟩ := hj'
    obtain ⟨root, hr, hlt, hmem⟩ := h.member j w hj hw
    exact ⟨root, hr, hlt, by rw [hfam]; exact hmem⟩
  · rw [Array.getElem?_modify] at hiv
    split at hiv
    · rename_i hij
      subst hij
      obtain ⟨w, hw, rfl⟩ := Option.map_eq_some_iff.1 hiv
      exact hgood w hw
    · exact h.good j iv hj hiv
  · rw [Array.getElem?_modify] at hiv
    split at hiv
    · rename_i hij
      subst hij
      obtain ⟨w, hw, rfl⟩ := Option.map_eq_some_iff.1 hiv
      have hvreg : (change w).vreg = w.vreg := congrArg (·.2.2.2.2.1) (hc w)
      exact hvreg ▸ hoffered w r hw ha
    · exact h.offered j iv r hj hiv ha

theorem root_of (hid : ivs[id]? = some iv) :
    ∃ origin, first ≤ iv.parent.getD id ∧ origins[iv.parent.getD id]? = some origin ∧
      Family ivs (iv.parent.getD id) origin ∧ id ∈ familyOf ivs (iv.parent.getD id) := by
  obtain ⟨root, hroot, hlt, hmem⟩ := h.member id iv hfirst hid
  have ho : origins[root]? = some origins[root] := Array.getElem?_eq_getElem hlt
  have hf := h.family root _ hroot ho
  obtain ⟨iv', hiv', hparent, -⟩ := hf.member id hmem
  cases Option.some.inj (hid.symm.trans hiv')
  have hr : iv.parent.getD id = root := by
    by_cases he : id = root
    · simp [hparent, he]
    · simp [hparent, he]
  rw [hr]
  exact ⟨_, hroot, ho, hf, hmem⟩

theorem split (hid : ivs[id]? = some iv) (hs : Halves pos iv head tail) (hpos : Point.isBefore pos = true) :
    Partitioned p t first origins (Family.splitArray ivs id (iv.parent.getD id) head tail) := by
  obtain ⟨origin, hroot, ho, hf, hmem⟩ := h.root_of hfirst hid
  generalize iv.parent.getD id = root at hroot ho hf hmem ⊢
  have hlt : id < ivs.size := (Array.getElem?_eq_some_iff.1 hid).1
  have hchildren : head.children = iv.children := by rw [hs.headEq]
  refine ⟨fun j hj => ?_, fun root' origin' hr' ho' => ?_, fun j w hj hw => ?_, fun j w hj hw => ?_,
    fun j w r hj hw ha => ?_⟩
  · have h1 : ¬ j = id := by omega
    have h2 : ¬ j = ivs.size := by omega
    have h3 : ¬ j = root := by omega
    rw [Family.getElem?_splitArray hlt, if_neg h2, if_neg h1]
    simp only [h3, ↓reduceIte, Option.map_id']
    exact h.old j hj
  · by_cases hrr : root' = root
    · subst hrr
      cases Option.some.inj (ho.symm.trans ho')
      exact hf.split hmem hid hs hpos
    · exact hf.split_other (h.family root' origin' hr' ho') hrr hmem hid
  · obtain ⟨hnew, hkeep⟩ := Family.mem_familyOf_splitArray tail hf hmem hid hchildren
    have hrlt : root < origins.size := (Array.getElem?_eq_some_iff.1 ho).1
    obtain ⟨x, _, rfl, ⟨rfl, -⟩ | ⟨rfl, -⟩ | ⟨-, -, hx⟩⟩ := Family.splitArray_cases hlt hw
    · exact ⟨root, hroot, hrlt, hnew⟩
    · exact ⟨root, hroot, hrlt, hkeep root origin _ hf hmem⟩
    · obtain ⟨other, hother, holt, hjm⟩ := h.member j x hj hx
      exact ⟨other, hother, holt, hkeep other _ j
        (h.family other _ hother (Array.getElem?_eq_getElem holt)) hjm⟩
  · have hgood := h.good id iv hfirst hid
    obtain ⟨x, _, rfl, ⟨-, rfl⟩ | ⟨-, rfl⟩ | ⟨-, -, hx⟩⟩ := Family.splitArray_cases hlt hw
    · exact (hgood.right_half hs _).setChildren _
    · exact (hgood.left_half hs).setChildren _
    · exact (h.good j x hj hx).setChildren _
  · obtain ⟨x, _, rfl, ⟨-, rfl⟩ | ⟨-, rfl⟩ | ⟨-, -, hx⟩⟩ := Family.splitArray_cases hlt hw
    · cases hs.place.1.symm.trans ha
    · rw [hs.headEq] at ha ⊢
      exact h.offered id iv r hfirst hid ha
    · exact h.offered j x r hj hx ha

theorem offered_of_use (hid : ivs[id]? = some iv) {u : UsePos} {r : PhysReg} (hu : u ∈ iv.uses)
    (hr : u.operand.fixedReg? = some r) : p.Offered first origins iv.vreg r := by
  obtain ⟨origin, hroot, ho, hf, hmem⟩ := h.root_of hfirst hid
  obtain ⟨iv', hiv', -, hvreg, -⟩ := hf.member id hmem
  cases Option.some.inj (hid.symm.trans hiv')
  refine .inr ⟨_, origin, hroot, ho, hvreg.symm, u, ?_, hr⟩
  rw [← hf.uses]
  exact List.mem_flatMap.2 ⟨id, hmem, by simpa [usesOf, hid] using hu⟩

end

end Partitioned

end LinearScan
