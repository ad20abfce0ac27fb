import LinearScan.Proofs.Scan.Limits

/-!
# What it takes to run out of registers

A scan gives up when the interval whose turn it is needs a register in the instruction at its start, and no candidate
is to be had there: each is held by an interval that needs it as well, or reserved for someone else, or is not the
register that the interval has to be in.
-/

namespace LinearScan

open LiveRange Interval

theorem Point.instr_eq_of_floor_le {x y : Nat} (hxy : floor x ≤ y) (hyx : floor y ≤ floor x) : instr y = instr x := by
  simp only [floor, before, instr] at hxy hyx ⊢
  omega

namespace ScanView

variable {p : Problem} {v : ScanView} {r : PhysReg} {q k : Nat} {cands : List PhysReg}

theorem score_le_of_firstBest {α : Type} {better : α → α → Bool} {g : α → Nat} {l : List α} {best : α}
    (htake : ∀ a b, better a b = true → g b ≤ g a) (hkeep : ∀ a b, better a b = false → g a ≤ g b)
    (h : firstBest better l = some best) : ∀ x ∈ l, g x ≤ g best := by
  suffices hall : ∀ (l : List α) y, ∀ x ∈ y :: l,
      g x ≤ g (l.foldl (fun best z => if better z best then z else best) y) by
    cases l with
    | nil => cases h
    | cons y l =>
        simp only [firstBest, Option.some.injEq] at h
        exact h ▸ hall l y
  intro l
  induction l with
  | nil => simp
  | cons z l ih =>
      intro y x hx
      rw [List.foldl_cons]
      cases hz : better z y with
      | true =>
          have hfirst := ih z
          rcases List.mem_cons.1 hx with rfl | hx
          · exact Nat.le_trans (htake z x hz) (hfirst z List.mem_cons_self)
          · exact hfirst x hx
      | false =>
          have hfirst := ih y
          rcases List.mem_cons.1 hx with rfl | hx
          · exact hfirst x List.mem_cons_self
          · rcases List.mem_cons.1 hx with rfl | hx
            · exact Nat.le_trans (hkeep x y hz) (hfirst y List.mem_cons_self)
            · exact hfirst x (List.mem_cons_of_mem _ hx)

/-! ## Why a register cannot be had -/

/-- Why register `r` cannot be had in the instruction at the start of the interval. -/
inductive Blocked (v : ScanView) (r : PhysReg) : Prop where
  | elsewhere {u : UsePos} : u ∈ v.iv.uses → Point.instr u.pos = Point.instr v.pos → ¬ u.Allows r → Blocked v r
  | held {other : Interval} : other ∈ v.active → other.alloc = .reg r → (other.deadDef = true ∨
      ∃ u ∈ other.uses, u.operand.needsReg = true ∧ Point.instr u.pos = Point.instr v.pos) → Blocked v r
  | reserved {e : Reservation} {q : Nat} : e ∈ v.reservations.of r → e.owner ≠ some v.iv.vreg →
      Covered v.iv.ranges q → Point.instr q = Point.instr v.pos → e.range.start ≤ q → q < e.range.stop → Blocked v r

theorem Ready.floor_lt_horizon (h : Ready p v) : Point.floor v.pos < p.horizon := by
  have h1 := h.pos_lt_stop
  have h2 := h.short
  have h3 := Point.floor_le v.pos
  omega

theorem Ready.blocked_of_useCap (h : Ready p v) (hcap : v.useCap p r ≤ Point.floor v.pos) : v.Blocked r := by
  unfold useCap at hcap
  dsimp only at hcap
  cases hu : (v.iv.usesFrom v.pos).find? fun u => u.operand.needsStack || u.operand.fixedReg?.any (· ≠ r) with
  | none =>
      rw [hu] at hcap
      have hlt := h.floor_lt_horizon
      simp only [Option.map_none, Option.getD_none] at hcap
      omega
  | some u =>
      rw [hu] at hcap
      obtain ⟨hmem, hle, hleave, -⟩ := h.sound.find_usesFrom hu
      refine .elsewhere hmem (Point.instr_eq_of_floor_le (Nat.le_trans (Point.floor_le _) hle) hcap) fun hallow => ?_
      rw [Bool.or_eq_true] at hleave
      rcases hleave with hstack | hfixed
      · rw [hallow.1] at hstack
        cases hstack
      · obtain ⟨q, hq, hne⟩ := (Option.any_eq_true _ _).1 hfixed
        exact of_decide_eq_true hne (hallow.2 q hq)

theorem exists_use_of_nextNeed {other : Interval} {x : Nat} (h : other.Sound) (hshort : Point.floor q < p.horizon)
    (hx : Point.floor q ≤ x) (hneed : nextNeed p other x ≤ Point.floor q) :
    ∃ u ∈ other.uses, u.operand.needsReg = true ∧ Point.instr u.pos = Point.instr q := by
  unfold nextNeed at hneed
  cases hu : other.nextRegUse x with
  | none =>
      rw [hu] at hneed
      simp only [Option.map_none, Option.getD_none] at hneed
      omega
  | some u =>
      rw [hu] at hneed
      obtain ⟨hmem, hle, hreg, -⟩ := h.find_usesFrom hu
      exact ⟨u, hmem, hreg, Point.instr_eq_of_floor_le (Nat.le_trans hx hle) hneed⟩

theorem Ready.blocked_of_reservedFrom (h : Ready p v) {y : Nat} (hy : v.reservedFrom r = some y)
    (hle : Point.floor y ≤ Point.floor v.pos) : v.Blocked r := by
  obtain ⟨e, he, hmeet⟩ := List.exists_of_findSome?_eq_some hy
  obtain ⟨he, howner⟩ := List.mem_filter.1 he
  have he : e ∈ v.reservations.of r := (List.dropWhile_sublist _).subset ((List.takeWhile_sublist _).subset he)
  have hproper := (h.reservations r).proper _ (List.mem_map_of_mem he)
  have hat := firstIntersection_spec (p := v.pos) h.sound.ordered (ordered_cons.2 ⟨hproper, by simp, ordered_nil⟩)
  rw [hmeet] at hat
  obtain ⟨hpos, hcov, hin, -⟩ := hat
  simp only [covered_cons, covered_nil, or_false] at hin
  exact .reserved he (of_decide_eq_true howner) hcov
    (Point.instr_eq_of_floor_le (Nat.le_trans (Point.floor_le _) hpos) hle) hin.1 hin.2

theorem Ready.blocked_of_nextUse (h : Ready p v) (hk : (v.candidates p)[k]? = some r)
    (hle : (v.contender p (v.candidates p) r k).nextUse ≤ Point.floor v.pos) : v.Blocked r := by
  suffices hall : (v.contender p (v.candidates p) r k).nextUse ≤ Point.floor v.pos → v.Blocked r from hall hle
  clear hle
  -- the least of the limits is one of them
  refine foldl_min_induct (P := fun y => y ≤ Point.floor v.pos → v.Blocked r) h.blocked_of_useCap fun y hy hle => ?_
  simp only [inactiveIn, h.inactive, List.filter_nil, List.filterMap_nil, List.map_nil, List.append_nil,
    List.mem_append, List.mem_map] at hy
  rcases hy with ⟨other, ho, rfl⟩ | hy
  · obtain ⟨ho, hcand⟩ := List.mem_filter.1 ho
    have halloc : other.alloc = .reg r := by
      obtain ⟨r', hr', hidx⟩ := Option.bind_eq_some_iff.1 (of_decide_eq_true hcand)
      obtain ⟨hlt, hget, -⟩ := List.findIdx?_eq_some_iff_getElem.1 hidx
      have hsame : r' = r := by
        rw [List.getElem?_eq_getElem hlt, Option.some.injEq] at hk
        exact (beq_iff_eq.1 hget).symm.trans hk
      cases hal : other.alloc with
      | reg q =>
          rw [hal] at hr'
          cases hr'
          rw [hsame]
      | none => rw [hal] at hr'; cases hr'
      | stack _ => rw [hal] at hr'; cases hr'
    refine .held ho halloc ?_
    cases hdead : other.deadDef with
    | true => exact .inl rfl
    | false =>
        rw [hdead, if_neg Bool.false_ne_true] at hle
        exact .inr (exists_use_of_nextNeed (h.active other ho) h.floor_lt_horizon (Nat.le_refl _) hle)
  · obtain ⟨-, y', hy', rfl⟩ := mem_reserved hy
    exact h.blocked_of_reservedFrom hy' hle

theorem Ready.exhausted (h : Ready p v) (hd : v.decide p = .exhausted) :
    (∃ u ∈ v.iv.uses, u.operand.needsReg = true ∧ Point.instr u.pos = Point.instr v.pos) ∧
      ∀ r ∈ v.candidates p, v.Blocked r := by
  cases hd ▸ decides p v with
  | exhausted hbest hmost hneed =>
      refine ⟨exists_use_of_nextNeed h.sound h.floor_lt_horizon (Point.floor_le _) hneed, fun r hr => ?_⟩
      obtain ⟨k, hk⟩ := List.mem_iff_getElem?.1 hr
      have hmem : (r, k) ∈ (v.candidates p).zipIdx := List.mem_zipIdx_iff_getElem?.2 hk
      have hscore := score_le_of_firstBest (g := Contender.nextUse)
        (fun a b hab => by
          simp only [outlasts, Bool.or_eq_true, Bool.and_eq_true, decide_eq_true_eq, beq_iff_eq] at hab
          omega)
        (fun a b hab => by
          simp only [outlasts, Bool.or_eq_false_iff, decide_eq_false_iff_not] at hab
          omega)
        hbest.first _ (List.mem_map_of_mem hmem)
      exact h.blocked_of_nextUse hk (Nat.le_trans hscore (Nat.le_trans hmost hneed))

theorem Ready.noRegister (h : Ready p v) (hd : v.decide p = .noRegister) :
    v.candidates p = [] ∧ ∃ u ∈ v.iv.uses, u.operand.needsReg = true := by
  cases hd ▸ decides p v with
  | noRegister hnil hneed =>
      obtain ⟨u, hu⟩ := Option.isSome_iff_exists.1 hneed
      obtain ⟨hmem, -, hreg, -⟩ := h.sound.find_usesFrom hu
      exact ⟨hnil, u, hmem, hreg⟩

end ScanView

end LinearScan
