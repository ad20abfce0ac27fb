import LinearScan.Proofs.Problem
import LinearScan.Proofs.Reservation
import LinearScan.Proofs.Roots.Draft

/-!
# Adding an instruction to a draft

Each operand leaves its mention, a range that covers it, and a reservation if it is fixed. The writes of an
instruction come first, then its late uses, then its early ones, and so the walk goes down point by
point.
-/

namespace LinearScan

open LiveRange Run

/-- The points at which an operand of instruction `i` that is fixed to a register occupies it. -/
def Operand.occupied (op : Operand) (i : Nat) : LiveRange :=
  match op.role, op.timing with
  | .use, .early => ⟨Point.before i, Point.after i⟩
  | .defn, .late => ⟨Point.after i, Point.before (i + 1)⟩
  | _, _ => ⟨Point.before i, Point.before (i + 1)⟩

theorem Operand.occupied_proper (op : Operand) (i : Nat) : (op.occupied i).start < (op.occupied i).stop := by
  unfold occupied
  split <;> simp only [Point.before, Point.after] <;> omega

theorem Operand.occupied_bounds (op : Operand) (i : Nat) :
    Point.before i ≤ (op.occupied i).start ∧ (op.occupied i).stop ≤ Point.before (i + 1) := by
  unfold occupied
  split <;> simp only [Point.before, Point.after] <;> omega

theorem Operand.before_mem_occupied {op : Operand} {i : Nat} (huse : op.isUse = true) :
    (op.occupied i).start ≤ Point.before i ∧ Point.before i < (op.occupied i).stop := by
  have hrole : op.role = .use := by simpa [Operand.isUse] using huse
  cases htime : op.timing <;> simp [Operand.occupied, hrole, htime, Point.before, Point.after]

/-- Only an early use is done with its register when the instruction takes effect. -/
theorem Operand.after_mem_occupied {op : Operand} {i : Nat} (h : op.isUse = true → op.timing = .late) :
    (op.occupied i).start ≤ Point.after i ∧ Point.after i < (op.occupied i).stop ∧
      (op.occupied i).stop = Point.before (i + 1) := by
  cases hrole : op.role <;> cases htime : op.timing <;>
    simp_all [Operand.occupied, Operand.isUse, Point.before, Point.after] <;> omega

theorem RegSet.isLegible_of_contains {rs : RegSet} {r : PhysReg} (h : rs.contains r = true) : r.isLegible = true := by
  obtain ⟨hw, cls⟩ := r
  cases cls with
  | none => cases h
  | some c => rfl

theorem RegSet.contains_insert_iff {s : RegSet} {q r : PhysReg} :
    (s.insert q).contains r = true ↔ s.contains r = true ∨ (r = q ∧ r.isLegible = true) := by
  cases hq : q.isLegible with
  | true =>
      rw [contains_insert s hq, Bool.or_eq_true, decide_eq_true_eq, or_comm]
      exact or_congr_right ⟨fun he => ⟨he, he ▸ hq⟩, And.left⟩
  | false =>
      have hnone : q.cls? = none := by simpa [PhysReg.isLegible] using hq
      rw [insert, onWord, hnone]
      refine (or_iff_left ?_).symm
      rintro ⟨rfl, hr⟩
      rw [hr] at hq
      cases hq

theorem RegSet.contains_ofList {rs : List PhysReg} {r : PhysReg} :
    (ofList rs).contains r = true ↔ r ∈ rs ∧ r.isLegible = true := by
  suffices hall : ∀ s : RegSet, (rs.foldl insert s).contains r = true ↔ s.contains r = true ∨ (r ∈ rs ∧ r.isLegible = true) by
    simpa [ofList] using hall .empty
  induction rs with
  | nil => simp
  | cons q rs ih =>
      intro s
      rw [List.foldl_cons, ih, contains_insert_iff, or_assoc, ← or_and_right, List.mem_cons]

theorem Operand.point_bounds (op : Operand) (i : Nat) : Point.before i ≤ op.point i ∧ op.point i ≤ Point.after i := by
  unfold point
  split <;> simp [Point.before, Point.after]

namespace InstrSite

variable {p : Problem} {s : InstrSite} {b k i : Nat} {op op' : Operand} {d d' : InstrDraft} {r : PhysReg}

/-- The site is instruction `s.instr` of block `b`, which is in the trace. -/
structure Placed (p : Problem) (s : InstrSite) (b : Nat) : Prop where
  block : b ∈ p.traces.blocks s.trace
  mem : s.instr ∈ (p.routine.span b).toList
  start : s.blockStart = Point.before (p.routine.first b)

theorem Placed.start_le (h : Placed p s b) : s.blockStart ≤ s.before := by
  have := (Span.mem_toList.1 h.mem).1
  rw [h.start]
  simp only [Routine.first, before, Point.before]
  omega

theorem Placed.inside {q : Nat} (h : Placed p s b) (hq : s.blockStart ≤ q) (hlt : q < s.next) :
    p.InTrace s.trace q := by
  have := (Span.mem_toList.1 h.mem).2
  refine ⟨b, h.block, h.start ▸ hq, ?_⟩
  simp only [next, Point.before] at hlt ⊢
  omega

theorem Placed.small (h : Placed p s b) (hp : p.Posed) (hop : (s.operands p)[k]? = some op) :
    op.vreg.num < p.routine.numValues := hp.small h.block h.mem op (List.mem_of_getElem? hop)

theorem Placed.useIn (h : Placed p s b) (hop : (s.operands p)[k]? = some op)
    (hop' : op' = op ∨ op' = { op with constraint := .any }) :
    p.UseIn s.trace op.vreg.num ⟨op.point s.instr, op', k⟩ :=
  ⟨b, h.block, s.instr, h.mem, op, hop, rfl, rfl, hop'⟩

theorem next_eq (s : InstrSite) : s.next = s.after + 1 := by
  simp only [after, next, Point.before, Point.after]
  omega

theorem before_lt_after (s : InstrSite) : s.before < s.after := by simp [before, after, Point.before, Point.after]

theorem point_lt_next (s : InstrSite) (op : Operand) : op.point s.instr < s.next := by
  rw [next_eq]
  exact Nat.lt_succ_of_le (op.point_bounds s.instr).2

/-- Where the uses of each timing are. -/
def pointAt (s : InstrSite) : Timing → Nat
  | .early => s.before
  | .late => s.after

theorem point_of_use (s : InstrSite) (huse : op.isUse = true) : op.point s.instr = s.pointAt op.timing := by
  simp only [Operand.isUse, decide_eq_true_eq] at huse
  unfold Operand.point
  rw [huse]
  cases op.timing with
  | early => rfl
  | late => rfl

theorem useRange_eq (s : InstrSite) (huse : op.isUse = true) : s.useRange op = op.occupied s.instr := by
  have hrole : op.role = .use := by simpa [Operand.isUse] using huse
  unfold useRange Operand.occupied
  rw [hrole]
  cases op.timing with
  | early => rfl
  | late => rfl

theorem writeRange_eq (s : InstrSite) (hw : op.writes = true) :
    ⟨if op.role = .defn ∧ op.timing = .late then s.after else s.before, s.next⟩ = op.occupied s.instr := by
  unfold Operand.occupied
  cases hr : op.role with
  | use => simp [Operand.writes, hr] at hw
  | temp => rfl
  | defn =>
      cases op.timing with
      | early => rfl
      | late => rfl

theorem isUse_eq_not_writes (op : Operand) : op.isUse = !op.writes := by simp [Operand.isUse, Operand.writes]

/-! ## What an operand leaves -/

/-- The draft has operand number `k`. An operand that reads a copy is mentioned as if it could be anywhere. -/
structure OperandDone (s : InstrSite) (op : Operand) (k : Nat) (d : RootDraft) : Prop where
  written : op.writes = true → d.Covers op.vreg.num s.after
  placed : d.Mentions op.vreg.num ⟨op.point s.instr, op, k⟩ ∨
    ∃ r, op.isUse = true ∧ op.fixedReg? = some r ∧
      d.Mentions op.vreg.num ⟨op.point s.instr, { op with constraint := .any }, k⟩ ∧
      ⟨s.instr, k, op.vreg, r⟩ ∈ d.copies

theorem OperandDone.mono {d d' : RootDraft} (h : OperandDone s op k d) (hd : d.Extends s.after d') :
    OperandDone s op k d' := by
  refine ⟨fun hw => hd.covers _ _ (Nat.le_refl _) (h.written hw), ?_⟩
  rcases h.placed with hm | ⟨r, huse, hr, hm, hc⟩
  · exact .inl (hd.mentions _ _ hm)
  · exact .inr ⟨r, huse, hr, hd.mentions _ _ hm, hd.copies _ hc⟩

/-! ## What an operand reserves -/

theorem returns_reserve {range : LiveRange} {owner : Option VirtReg}
    (h : Returns (s.reserve r range owner d) d') :
    ∃ batch, Reservation.reserve s.instr r ⟨range, owner⟩ d.batch = .ok batch ∧ d' = { d with batch } := by
  obtain ⟨batch, hb, h⟩ := h.bind
  exact ⟨batch, hb.of_accept, h.of_pure.symm⟩

/-- The register that the operand is fixed to, if any, has been reserved for `owner`. -/
def Granted (s : InstrSite) (op : Operand) (owner : Option VirtReg) (batch batch' : Reservation.Batch) : Prop :=
  (op.fixedReg? = none ∧ batch' = batch) ∨
    ∃ r, op.fixedReg? = some r ∧ Reservation.reserve s.instr r ⟨op.occupied s.instr, owner⟩ batch = .ok batch'

theorem clobbers_fields {l : List PhysReg} (hr : Returns (l.foldlM (s.addClobber p) d) d') :
    d'.draft = d.draft ∧ d'.fixedUses = d.fixedUses := by
  refine Returns.foldlM_induct (I := fun e : InstrDraft => e.draft = d.draft ∧ e.fixedUses = d.fixedUses)
    (fun e r e' _ h hr => ?_) ⟨rfl, rfl⟩ hr
  unfold addClobber at hr
  split at hr
  · exact hr.of_pure ▸ h
  · obtain ⟨batch, -, rfl⟩ := returns_reserve hr
    exact h

/-! ## Writes -/

/-- The range of a value that the instruction writes. -/
def extended (s : InstrSite) (op : Operand) (live : Bool) (iv : Interval) : Interval :=
  if op.role = .defn then
    if live then iv.startAt (op.point s.instr) else iv.prependRange ⟨op.point s.instr, s.next⟩
  else iv.prependRange ⟨s.before, s.next⟩

theorem extended_fields (s : InstrSite) (op : Operand) (live : Bool) (iv : Interval) :
    (s.extended op live iv).vreg = iv.vreg ∧ (s.extended op live iv).uses = iv.uses := by
  unfold extended
  split
  · split
    · rw [Interval.startAt_eq]
      exact ⟨rfl, rfl⟩
    · rw [Interval.prependRange_eq]
      exact ⟨rfl, rfl⟩
  · rw [Interval.prependRange_eq]
    exact ⟨rfl, rfl⟩

/-- The draft with a write. -/
def wrote (p : Problem) (s : InstrSite) (d : RootDraft) (op : Operand) (k : Nat) : RootDraft :=
  { d.onRoot p s.trace op.vreg.num fun iv =>
      (s.extended op (d.live.get op.vreg.num) iv).addUse ⟨op.point s.instr, op, k⟩ with
    live := d.live.erase op.vreg.num }

theorem root_wrote (hp : p.Posed) (s : InstrSite) (d : RootDraft) (op : Operand) (k v : Nat) :
    (s.wrote p d op k).root v = if op.vreg.num = v then
      some ((s.extended op (d.live.get op.vreg.num) (d.base p s.trace op.vreg.num)).addUse ⟨op.point s.instr, op, k⟩)
      else d.root v :=
  RootDraft.root_onRoot (fun iv => (s.extended_fields op _ iv).1) (hp.num _)

theorem wrote_fields (p : Problem) (s : InstrSite) (d : RootDraft) (op : Operand) (k : Nat) :
    (s.wrote p d op k).copies = d.copies ∧ (s.wrote p d op k).reservations = d.reservations :=
  (RootDraft.onRoot_fields d p s.trace op.vreg.num _).2

theorem returns_addWrite (hw : op.writes = true) (h : Returns (s.addWrite p d op k) d') :
    ∃ batch, s.Granted op (some op.vreg) d.batch batch ∧ d' = ⟨s.wrote p d.draft op k, batch, d.fixedUses⟩ := by
  have hdraft : ∀ batch, InstrDraft.mk { d.draft.onRoot p s.trace op.vreg.num fun iv =>
        (s.extended op (d.draft.live.get op.vreg.num) iv).addUse ⟨op.point s.instr, op, k⟩ with
        live := (d.draft.onRoot p s.trace op.vreg.num fun iv => (s.extended op (d.draft.live.get op.vreg.num) iv).addUse
          ⟨op.point s.instr, op, k⟩).live.erase op.vreg.num } batch d.fixedUses =
      ⟨s.wrote p d.draft op k, batch, d.fixedUses⟩ := by
    intro batch
    simp only [wrote, (RootDraft.onRoot_fields d.draft p s.trace op.vreg.num _).1]
  unfold addWrite at h
  cases hf : op.fixedReg? with
  | none =>
      rw [hf] at h
      exact ⟨d.batch, .inl ⟨hf, rfl⟩, h.of_pure.symm.trans (hdraft d.batch)⟩
  | some r =>
      rw [hf] at h
      obtain ⟨batch, hb, h⟩ := returns_reserve h
      refine ⟨batch, .inr ⟨r, hf, ?_⟩, h.trans (hdraft batch)⟩
      rw [← writeRange_eq s hw]
      exact hb

/-- The root `base` of value `v` has grown to `iv`, which covers the instruction from `pos` on. -/
structure Grown (p : Problem) (s : InstrSite) (v pos : Nat) (base iv : Interval) : Prop where
  growing : p.Growing s.trace s.blockStart s.before s.next v iv
  nonempty : iv.ranges ≠ []
  covered : ∀ q, pos ≤ q → q < s.next → Covered iv.ranges q
  kept : ∀ q, s.after ≤ q → Covered base.ranges q → Covered iv.ranges q

theorem Placed.prepend {v x : Nat} {base : Interval} (hs : Placed p s b)
    (h : p.Growing s.trace s.blockStart s.before s.next v base) (hx : s.before ≤ x) (hxn : x < s.next) :
    Grown p s v x base (base.prependRange ⟨x, s.next⟩) := by
  obtain ⟨hg, hcov⟩ := h.prependRange hs.start_le (.inr hx) hxn
    fun q hq hlt => hs.inside (Nat.le_trans hs.start_le (Nat.le_trans hx hq)) hlt
  exact ⟨hg, Interval.prependRange_ne_nil _ _, fun q hq hlt => (hcov q).2 (.inl ⟨hq, hlt⟩),
    fun q _ hq => (hcov q).2 (.inr hq)⟩

theorem Placed.startAt {v pos : Nat} {base : Interval} (hs : Placed p s b)
    (h : p.Growing s.trace s.blockStart s.before s.next v base) (hne : base.ranges ≠ [])
    (hstart : base.start = s.blockStart) (huses : ∀ u ∈ base.uses, s.next ≤ u.pos) (hlow : s.before ≤ pos)
    (hhigh : pos ≤ s.after) : Grown p s v pos base (base.startAt pos) := by
  have hlt : pos < s.next := s.next_eq ▸ Nat.lt_succ_of_le hhigh
  have hsp : base.start ≤ pos := hstart ▸ Nat.le_trans hs.start_le hlow
  obtain ⟨hg, hcov⟩ := h.startAt hsp hlow hlt fun u hu => Nat.le_trans (Nat.le_of_lt hlt) (huses u hu)
  have hall : ∀ q, pos ≤ q → q < s.next → Covered (base.startAt pos).ranges q := fun q hq hqn =>
    (hcov q).2 ⟨hq, h.reaching.covered hne (Nat.le_trans hsp hq) hqn⟩
  refine ⟨hg, fun hnil => ?_, hall, fun q hq hc => (hcov q).2 ⟨Nat.le_trans hhigh hq, hc⟩⟩
  exact covered_nil (hnil ▸ hall pos (Nat.le_refl _) hlt)

/-- The draft while the writes of the instruction are added. -/
def AtWrites (p : Problem) (s : InstrSite) (d : RootDraft) : Prop :=
  d.Drafted p s.trace s.blockStart s.before s.next s.next

theorem Placed.extended {d : RootDraft} (hp : p.Posed) (hs : Placed p s b) (h : s.AtWrites p d)
    (hop : (s.operands p)[k]? = some op) :
    Grown p s op.vreg.num (op.point s.instr) (d.base p s.trace op.vreg.num)
      (s.extended op (d.live.get op.vreg.num) (d.base p s.trace op.vreg.num)) := by
  have hbase := h.base (hs.small hp hop)
  obtain ⟨hlow, hhigh⟩ := op.point_bounds s.instr
  unfold InstrSite.extended
  split
  · cases hl : d.live.get op.vreg.num with
    | false => exact hs.prepend hbase hlow (s.point_lt_next op)
    | true =>
        obtain ⟨iv, hiv, hstart, huses⟩ := h.live _ hl
        rw [RootDraft.base_of_root hiv] at hbase ⊢
        exact hs.startAt hbase (h.root _ iv hiv).2 hstart huses hlow hhigh
  · have hg := hs.prepend hbase (Nat.le_refl s.before) (Nat.lt_of_le_of_lt hlow (s.point_lt_next op))
    exact ⟨hg.growing, hg.nonempty, fun q hq => hg.covered q (Nat.le_trans hlow hq), hg.kept⟩

theorem Placed.wrote {d : RootDraft} (hp : p.Posed) (hs : Placed p s b) (h : s.AtWrites p d)
    (hop : (s.operands p)[k]? = some op) :
    s.AtWrites p (s.wrote p d op k) ∧ d.Extends s.after (s.wrote p d op k) ∧
      (s.wrote p d op k).Covers op.vreg.num s.after ∧
      (s.wrote p d op k).Mentions op.vreg.num ⟨op.point s.instr, op, k⟩ := by
  obtain ⟨hlow, hhigh⟩ := op.point_bounds s.instr
  have hg := hs.extended hp h hop
  have hvreg (iv : Interval) : ((s.extended op (d.live.get op.vreg.num) iv).addUse ⟨op.point s.instr, op, k⟩).vreg =
      iv.vreg := (s.extended_fields op _ iv).1
  have hgrow := hg.growing.addUse (u := ⟨op.point s.instr, op, k⟩)
    (hg.covered _ (Nat.le_refl _) (s.point_lt_next op)) hlow (hs.useIn hop (.inl rfl))
  have hroot := (root_wrote hp s d op k op.vreg.num).trans (if_pos rfl)
  refine ⟨h.onRoot (hp.num _) hvreg hgrow hg.nonempty (fun w hne hw => ?_) (fun hl => ?_), ?_, ?_, ?_⟩
  · rw [IndexSet.get_erase] at hw
    simp only [Bool.and_eq_true] at hw
    exact hw.2
  · simp [IndexSet.get_erase] at hl
  · refine RootDraft.Extends.setLive (RootDraft.Extends.onRoot (hp.num _) hvreg hg.kept fun u hu => ?_) _
    exact List.mem_cons_of_mem _ ((s.extended_fields op _ _).2.symm ▸ hu)
  · exact ⟨_, hroot, hg.covered _ hhigh (s.next_eq ▸ Nat.lt_succ_self _)⟩
  · exact ⟨_, hroot, List.mem_cons_self⟩

/-! ## Uses -/

/-- The draft in which value `v` is live, being used at `pos`. -/
def enlivened (p : Problem) (s : InstrSite) (d : RootDraft) (v pos : Nat) : RootDraft :=
  if d.live.get v then d
  else { d.onRoot p s.trace v (·.prependRange ⟨s.blockStart, pos + 1⟩) with live := d.live.insert v }

/-- The draft with a use, which is mentioned as `op'`. -/
def mentioned (p : Problem) (s : InstrSite) (d : RootDraft) (op op' : Operand) (k : Nat) : RootDraft :=
  (s.enlivened p d op.vreg.num (op.point s.instr)).onRoot p s.trace op.vreg.num
    (·.addUse ⟨op.point s.instr, op', k⟩)

/-- The draft with a use that reads a copy in register `r`. -/
def copied (p : Problem) (s : InstrSite) (d : RootDraft) (op : Operand) (r : PhysReg) (k : Nat) : RootDraft :=
  { s.mentioned p d op { op with constraint := .any } k with
    copies := (s.mentioned p d op { op with constraint := .any } k).copies.push ⟨s.instr, k, op.vreg, r⟩ }

theorem enlivened_eq (p : Problem) (s : InstrSite) (d : RootDraft) (v pos : Nat) :
    (if d.live.get v then d
      else
        let draft := d.onRoot p s.trace v (·.prependRange ⟨s.blockStart, pos + 1⟩)
        { draft with live := draft.live.insert v }) = s.enlivened p d v pos := by
  unfold enlivened
  simp only [(RootDraft.onRoot_fields d p s.trace v _).1]

theorem get_enlivened (p : Problem) (s : InstrSite) (d : RootDraft) (v pos w : Nat) :
    (s.enlivened p d v pos).live.get w = (decide (v = w) || d.live.get w) := by
  unfold enlivened
  split
  · rename_i hl
    by_cases hvw : v = w
    · simp [← hvw, hl]
    · simp [hvw]
  · exact IndexSet.get_insert

theorem mentioned_fields (p : Problem) (s : InstrSite) (d : RootDraft) (op op' : Operand) (k : Nat) :
    (∀ w, (s.mentioned p d op op' k).live.get w = (decide (op.vreg.num = w) || d.live.get w)) ∧
      (s.mentioned p d op op' k).copies = d.copies ∧ (s.mentioned p d op op' k).reservations = d.reservations := by
  obtain ⟨hl, hc, hr⟩ := RootDraft.onRoot_fields (s.enlivened p d op.vreg.num (op.point s.instr)) p s.trace
    op.vreg.num (·.addUse ⟨op.point s.instr, op', k⟩)
  rw [mentioned, hl, hc, hr]
  refine ⟨get_enlivened p s d _ _, ?_⟩
  unfold enlivened
  split
  · exact ⟨rfl, rfl⟩
  · exact (RootDraft.onRoot_fields d p s.trace op.vreg.num _).2

theorem mem_fixedOutputs (h : (s.fixedOutputs p).contains r = true) :
    ∃ op ∈ s.operands p, op.writes = true ∧ op.fixedReg? = some r := by
  obtain ⟨op, hop, hreg⟩ := List.mem_filterMap.1 (RegSet.contains_ofList.1 h).1
  obtain ⟨hop, hw⟩ := List.mem_filter.1 hop
  exact ⟨op, hop, hw, hreg⟩

/-- The registers that the instruction overwrites. -/
def overwritten (p : Problem) (s : InstrSite) : RegSet := (p.routine.clobbers s.instr).union (s.fixedOutputs p)

/-- A use is mentioned as it is, and its value can be where it is fixed to, or it reads a copy. -/
theorem returns_addUse {liveAfter : IndexSet} (huse : op.isUse = true)
    (h : Returns (s.addUse p liveAfter d op k) d') : ∃ batch,
    (s.Granted op (some op.vreg) d.batch batch ∧
      d' = ⟨s.mentioned p d.draft op op k, batch, d.fixedUses ++ op.fixedReg?.toList.map (op.vreg, ·)⟩ ∧
      ∀ r, op.fixedReg? = some r → (∀ q, (op.vreg, q) ∈ d.fixedUses → q = r) ∧
        (op.timing = .early → (liveAfter.get op.vreg.num = true ∨
            ∃ o ∈ s.operands p, o.vreg = op.vreg ∧ o.isUse = true ∧ o.timing = .late) →
          (s.overwritten p).contains r = false)) ∨
    ∃ r, op.fixedReg? = some r ∧ s.Granted op none d.batch batch ∧
      d' = ⟨s.copied p d.draft op r k, batch, d.fixedUses⟩ := by
  unfold addUse at h
  simp only [enlivened_eq, useRange_eq s huse] at h
  cases hf : op.fixedReg? with
  | none =>
      rw [hf] at h
      refine ⟨d.batch, .inl ⟨.inl ⟨hf, rfl⟩, h.of_pure.symm.trans ?_, fun r hr => by cases hr⟩⟩
      rw [Option.toList_none, List.map_nil, List.append_nil]
      rfl
  | some r =>
      rw [hf] at h
      dsimp only at h
      split at h
      · obtain ⟨_, -, h⟩ := h.bind
        obtain ⟨batch, hb, rfl⟩ := returns_reserve h
        exact ⟨batch, .inr ⟨r, rfl, .inr ⟨r, hf, hb⟩, rfl⟩⟩
      · rename_i hstay
        obtain ⟨batch, hb, rfl⟩ := returns_reserve h
        simp only [Bool.or_eq_true, not_or, Bool.not_eq_true] at hstay
        refine ⟨batch, .inl ⟨.inr ⟨r, hf, hb⟩, rfl, fun r' hr => ?_⟩⟩
        cases hr
        refine ⟨fun q hq => ?_, fun hearly hlive => ?_⟩
        · have hsecond := List.any_eq_false.1 hstay.1 _ hq
          simpa using hsecond
        · have hlive : (liveAfter.get op.vreg.num ||
              (s.operands p).any fun o => o.vreg = op.vreg && o.isUse && o.timing = .late) = true := by
            rw [Bool.or_eq_true]
            refine hlive.imp_right fun hlate => ?_
            obtain ⟨o, ho, h1, h2, h3⟩ := hlate
            exact List.any_eq_true.2 ⟨o, ho, by simp [h1, h2, h3]⟩
          have hover := hstay.2
          rw [hlive, decide_eq_true hearly, Bool.true_and, Bool.true_and] at hover
          exact hover

/-- The draft while the uses of one timing are added. -/
def AtUses (p : Problem) (s : InstrSite) (tm : Timing) (d : RootDraft) : Prop :=
  d.Drafted p s.trace s.blockStart s.before (s.pointAt tm + 1) s.before

theorem Placed.enlivened {d : RootDraft} (hp : p.Posed) (hs : Placed p s b) (huse : op.isUse = true)
    (h : s.AtUses p op.timing d) (hop : (s.operands p)[k]? = some op) :
    s.AtUses p op.timing (s.enlivened p d op.vreg.num (op.point s.instr)) ∧
      d.Extends s.after (s.enlivened p d op.vreg.num (op.point s.instr)) := by
  rw [AtUses, ← point_of_use s huse] at h ⊢
  obtain ⟨hlow, -⟩ := op.point_bounds s.instr
  have hhigh := s.point_lt_next op
  unfold InstrSite.enlivened
  split
  · exact ⟨h, .refl _ _⟩
  · have hvreg : ∀ iv : Interval, (iv.prependRange ⟨s.blockStart, op.point s.instr + 1⟩).vreg = iv.vreg := fun iv => by
      rw [Interval.prependRange_eq]
    have hbase := h.base (hs.small hp hop)
    obtain ⟨hg, hcov⟩ := hbase.prependRange hs.start_le (.inl rfl)
      (Nat.lt_succ_of_le (Nat.le_trans hs.start_le hlow)) fun q hq hlt => hs.inside hq (by omega)
    refine ⟨h.onRoot (hp.num _) hvreg hg (Interval.prependRange_ne_nil _ _) (fun w hne hw => ?_) fun _ => ⟨?_, ?_⟩, ?_⟩
    · rw [IndexSet.get_insert] at hw
      simpa [hne.symm] using hw
    · exact Interval.start_prependRange hbase.reaching hs.start_le
    · exact hg.above
    · refine RootDraft.Extends.setLive (RootDraft.Extends.onRoot (hp.num _) hvreg (fun q _ hq => (hcov q).2 (.inr hq))
        fun u hu => ?_) _
      rw [Interval.prependRange_eq]
      exact hu

theorem Placed.mentioned {d : RootDraft} (hp : p.Posed) (hs : Placed p s b) (huse : op.isUse = true)
    (h : s.AtUses p op.timing d) (hop : (s.operands p)[k]? = some op)
    (hop' : op' = op ∨ op' = { op with constraint := .any }) :
    s.AtUses p op.timing (s.mentioned p d op op' k) ∧ d.Extends s.after (s.mentioned p d op op' k) ∧
      (s.mentioned p d op op' k).Mentions op.vreg.num ⟨op.point s.instr, op', k⟩ := by
  obtain ⟨hlow, -⟩ := op.point_bounds s.instr
  obtain ⟨hd, hext⟩ := hs.enlivened hp huse h hop
  have hl : (s.enlivened p d op.vreg.num (op.point s.instr)).live.get op.vreg.num = true := by simp [get_enlivened]
  obtain ⟨iv, hiv, hstart, huses⟩ := hd.live _ hl
  obtain ⟨hg, hne⟩ := hd.root _ iv hiv
  have hcov : Covered iv.ranges (op.point s.instr) := hg.reaching.covered hne (hstart ▸ Nat.le_trans hs.start_le hlow)
    (by rw [point_of_use s huse]; exact Nat.lt_succ_self _)
  have hgrow := hg.addUse (u := ⟨op.point s.instr, op', k⟩) hcov hlow (hs.useIn hop hop')
  have hvreg : ∀ iv : Interval, (iv.addUse ⟨op.point s.instr, op', k⟩).vreg = iv.vreg := fun _ => rfl
  rw [← RootDraft.base_of_root hiv] at hstart hgrow hne
  refine ⟨hd.onRoot_keep (hp.num _) hvreg hgrow hne fun _ => ⟨hstart, hgrow.above⟩, hext.trans ?_, ?_⟩
  · exact RootDraft.Extends.onRoot (hp.num _) hvreg (fun _ _ hq => hq) fun u hu => List.mem_cons_of_mem _ hu
  · exact ⟨_, (RootDraft.root_onRoot hvreg (hp.num _)).trans (if_pos rfl), List.mem_cons_self⟩

theorem Placed.copied {d : RootDraft} (hp : p.Posed) (hs : Placed p s b) (huse : op.isUse = true)
    (h : s.AtUses p op.timing d) (hop : (s.operands p)[k]? = some op) :
    s.AtUses p op.timing (s.copied p d op r k) ∧ d.Extends s.after (s.copied p d op r k) ∧
      (s.copied p d op r k).Mentions op.vreg.num ⟨op.point s.instr, { op with constraint := .any }, k⟩ := by
  obtain ⟨hd, hext, hm⟩ := hs.mentioned hp huse h hop (.inr rfl)
  exact ⟨hd.pushCopy (Nat.le_refl _), hext.pushCopy _, hm⟩

/-! ## The operands one after another -/

/-- The operands that the instruction writes, with their numbers. -/
def written (p : Problem) (s : InstrSite) : List (Operand × Nat) := (s.operands p).zipIdx.filter (·.1.writes)

theorem mem_written {x : Operand × Nat} : x ∈ s.written p ↔ (s.operands p)[x.2]? = some x.1 ∧ x.1.writes = true := by
  rw [written, List.mem_filter, List.mem_zipIdx_iff_getElem?]

/-- The uses of one timing, with their numbers. -/
def used (p : Problem) (s : InstrSite) (tm : Timing) : List (Operand × Nat) :=
  (s.operands p).zipIdx.filter fun x => x.1.isUse && decide (x.1.timing = tm)

theorem mem_used {x : Operand × Nat} {tm : Timing} :
    x ∈ s.used p tm ↔ (s.operands p)[x.2]? = some x.1 ∧ x.1.isUse = true ∧ x.1.timing = tm := by
  rw [used, List.mem_filter, List.mem_zipIdx_iff_getElem?, Bool.and_eq_true, decide_eq_true_eq]

/-- What adding the operands `done` of the instruction makes of the draft `d0`: its copies are for fixed uses among
them. -/
structure Underway (p : Problem) (s : InstrSite) (d0 : RootDraft) (done : List (Operand × Nat)) (d : RootDraft) :
    Prop where
  extended : d0.Extends s.after d
  reservations : d.reservations = d0.reservations
  own : ∀ c ∈ d.copies, c.instr = s.instr → ∃ op, (op, c.slot) ∈ done ∧ (s.operands p)[c.slot]? = some op ∧
    op.isUse = true ∧ op.vreg = c.vreg ∧ op.fixedReg? = some c.reg
  others : ∀ c : OperandCopy, c.instr ≠ s.instr → (c ∈ d.copies ↔ c ∈ d0.copies)

section Underway

variable {d0 d d' : RootDraft} {done : List (Operand × Nat)} {e e' : InstrDraft} {live : IndexSet} {tm : Timing}

theorem underway_nil (hd : d0.Drafted p s.trace s.blockStart s.next s.next s.next) : Underway p s d0 [] d0 := by
  refine ⟨.refl _ _, rfl, fun c hc hi => ?_, fun _ _ => .rfl⟩
  have := hd.copies c hc
  rw [hi] at this
  simp only [next, Point.before] at this
  omega

theorem Underway.keep (h : Underway p s d0 done d) (hext : d.Extends s.after d') (hc : d'.copies = d.copies)
    (hres : d'.reservations = d.reservations) (x : Operand × Nat) : Underway p s d0 (done ++ [x]) d' := by
  refine ⟨h.extended.trans hext, hres.trans h.reservations, fun c hcm hi => ?_, fun c hi => hc ▸ h.others c hi⟩
  obtain ⟨op, hop, hrest⟩ := h.own c (hc ▸ hcm) hi
  exact ⟨op, List.mem_append_left _ hop, hrest⟩

theorem Underway.copy (h : Underway p s d0 done d) (hext : d.Extends s.after d')
    (hop : (s.operands p)[k]? = some op) (huse : op.isUse = true) (hr : op.fixedReg? = some r)
    (hc : d'.copies = d.copies.push ⟨s.instr, k, op.vreg, r⟩) (hres : d'.reservations = d.reservations) :
    Underway p s d0 (done ++ [(op, k)]) d' := by
  refine ⟨h.extended.trans hext, hres.trans h.reservations, fun c hcm hi => ?_, fun c hi => ?_⟩
  · rw [hc, Array.mem_push] at hcm
    rcases hcm with hcm | rfl
    · obtain ⟨op', hop', hrest⟩ := h.own c hcm hi
      exact ⟨op', List.mem_append_left _ hop', hrest⟩
    · exact ⟨op, by simp, hop, huse, rfl, hr⟩
  · rw [hc, Array.mem_push, ← h.others c hi]
    refine or_iff_left ?_
    rintro rfl
    exact hi rfl

theorem Underway.ne_slot_of_fresh (h : Underway p s d0 done d) (hfresh : ∀ x ∈ done, x.2 ≠ k) :
    ∀ c ∈ d.copies, c.instr = s.instr → c.slot ≠ k := fun c hc hi =>
  let ⟨_, hop, _⟩ := h.own c hc hi
  hfresh _ hop

theorem Underway.ne_slot_of_writes (h : Underway p s d0 done d) (hop : (s.operands p)[k]? = some op)
    (hw : op.writes = true) : ∀ c ∈ d.copies, c.instr = s.instr → c.slot ≠ k := by
  rintro c hc hi rfl
  obtain ⟨op', -, hop', huse, -⟩ := h.own c hc hi
  cases hop.symm.trans hop'
  rw [isUse_eq_not_writes, hw] at huse
  cases huse

theorem Placed.underway_write (hp : p.Posed) (hs : Placed p s b) (hop : (s.operands p)[k]? = some op)
    (hw : op.writes = true) (hat : s.AtWrites p e.draft) (hu : Underway p s d0 done e.draft)
    (hr : Returns (s.addWrite p e op k) e') :
    s.AtWrites p e'.draft ∧ Underway p s d0 (done ++ [(op, k)]) e'.draft := by
  obtain ⟨batch, -, rfl⟩ := returns_addWrite hw hr
  obtain ⟨hat, hext, -⟩ := hs.wrote hp hat hop
  obtain ⟨hc, hres⟩ := wrote_fields p s e.draft op k
  exact ⟨hat, hu.keep hext hc hres _⟩

theorem Placed.underway_use (hp : p.Posed) (hs : Placed p s b) (hop : (s.operands p)[k]? = some op)
    (huse : op.isUse = true) (hat : s.AtUses p op.timing e.draft) (hu : Underway p s d0 done e.draft)
    (hr : Returns (s.addUse p live e op k) e') :
    s.AtUses p op.timing e'.draft ∧ Underway p s d0 (done ++ [(op, k)]) e'.draft := by
  obtain ⟨batch, ⟨-, rfl, -⟩ | ⟨r, hfix, -, rfl⟩⟩ := returns_addUse huse hr
  · obtain ⟨hat, hext, -⟩ := hs.mentioned hp huse hat hop (.inl rfl)
    obtain ⟨-, hc, hres⟩ := mentioned_fields p s e.draft op op k
    exact ⟨hat, hu.keep hext hc hres _⟩
  · obtain ⟨hat, hext, -⟩ := hs.copied hp huse hat hop
    obtain ⟨-, hc, hres⟩ := mentioned_fields p s e.draft op { op with constraint := .any } k
    exact ⟨hat, hu.copy hext hop huse hfix (by rw [← hc]; rfl) hres⟩

theorem Placed.uses_induct {R : Timing → List (Operand × Nat) → InstrDraft → Prop} (hp : p.Posed) (hs : Placed p s b)
    (huse : ∀ done op k e e', (s.operands p)[k]? = some op → op.isUse = true → (∀ x ∈ done, x.2 ≠ k) →
      s.AtUses p op.timing e.draft → Underway p s d0 done e.draft → R op.timing done e →
      Returns (s.addUse p live e op k) e' → R op.timing (done ++ [(op, k)]) e')
    (hdone : ∀ x ∈ done, (s.operands p)[x.2]? = some x.1 ∧ ¬ (x.1.isUse = true ∧ x.1.timing = tm))
    (h : s.AtUses p tm e.draft ∧ Underway p s d0 done e.draft ∧ R tm done e)
    (hr : Returns ((s.used p tm).foldlM (fun d x => s.addUse p live d x.1 x.2) e) e') :
    s.AtUses p tm e'.draft ∧ Underway p s d0 (done ++ s.used p tm) e'.draft ∧ R tm (done ++ s.used p tm) e' := by
  have hslots : (s.used p tm).Pairwise fun x y => x.2 ≠ y.2 := by
    refine List.Pairwise.filter _ ?_
    rw [← List.pairwise_map (f := Prod.snd), List.zipIdx_map_snd]
    exact List.nodup_range'
  refine Returns.foldlM_append
    (I := fun l e => s.AtUses p tm e.draft ∧ Underway p s d0 (done ++ l) e.draft ∧ R tm (done ++ l) e)
    (fun l x rest e e' hsplit h hx => ?_) (by simpa using h) hr
  obtain ⟨hop, hu, rfl⟩ := mem_used.1 (hsplit ▸ List.mem_append_right _ List.mem_cons_self : x ∈ s.used p tm)
  have hnew : ∀ y ∈ done ++ l, y.2 ≠ x.2 := by
    intro y hy
    rcases List.mem_append.1 hy with hy | hy
    · intro hslot
      obtain ⟨hy, hnot⟩ := hdone y hy
      rw [hslot, hop] at hy
      exact hnot (Option.some.inj hy ▸ ⟨hu, rfl⟩)
    · exact (List.pairwise_append.1 (hsplit ▸ hslots)).2.2 y hy x List.mem_cons_self
  rw [← List.append_assoc]
  exact and_assoc.1 ⟨hs.underway_use hp hop hu h.1 h.2.1 hx, huse _ x.1 x.2 e e' hop hu hnew h.1 h.2.1 h.2.2 hx⟩

end Underway

/-- An induction along the steps in which an instruction is added: `W` holds while its writes are, and `R` while its
uses of one timing are, given what is live after the writes. At each step the draft is as it should be. -/
theorem Placed.build_induct {W : List (Operand × Nat) → InstrDraft → Prop}
    {R : IndexSet → Timing → List (Operand × Nat) → InstrDraft → Prop} {d d' : RootDraft} (hp : p.Posed)
    (hs : Placed p s b) (hd : d.Drafted p s.trace s.blockStart s.next s.next s.next)
    (hclobbers : ∀ e : InstrDraft, e.draft = d →
      Returns ((p.routine.clobbers s.instr).toList.foldlM (s.addClobber p) ⟨d, [], []⟩) e → W [] e)
    (hwrite : ∀ done op k rest e e', s.written p = done ++ (op, k) :: rest → (s.operands p)[k]? = some op →
      op.writes = true → s.AtWrites p e.draft → Underway p s d done e.draft → W done e →
      Returns (s.addWrite p e op k) e' → W (done ++ [(op, k)]) e')
    (hread : ∀ e, W (s.written p) e → R e.draft.live .late (s.written p) e)
    (huse : ∀ live done op k e e', (s.operands p)[k]? = some op → op.isUse = true → (∀ x ∈ done, x.2 ≠ k) →
      s.AtUses p op.timing e.draft → Underway p s d done e.draft → R live op.timing done e →
      Returns (s.addUse p live e op k) e' → R live op.timing (done ++ [(op, k)]) e')
    (hearly : ∀ live done e, R live .late done e → R live .early done e) (hr : Returns (s.build p d) d') :
    ∃ live done e, s.AtUses p .early e.draft ∧ Underway p s d done e.draft ∧ R live .early done e ∧
      (∀ x, x ∈ done ↔ (s.operands p)[x.2]? = some x.1) ∧
      d' = { e.draft with reservations := e.batch.foldl Reservations.add e.draft.reservations } := by
  have hbn : s.before ≤ s.next := s.next_eq ▸ Nat.le_succ_of_le (Nat.le_of_lt s.before_lt_after)
  obtain ⟨_, -, hr⟩ := hr.bind
  obtain ⟨d1, h1, hr⟩ := hr.bind
  obtain ⟨d2, h2, hr⟩ := hr.bind
  obtain ⟨d3, h3, hr⟩ := hr.bind
  rw [List.foldlM_append] at h3
  obtain ⟨dl, hl, he⟩ := h3.bind
  have hstart : s.AtWrites p d1.draft ∧ Underway p s d [] d1.draft ∧ W [] d1 := by
    have hdraft : d1.draft = d := (clobbers_fields h1).1
    refine ⟨?_, ?_, hclobbers d1 hdraft h1⟩
    · rw [hdraft]
      exact hd.weaken hbn (Nat.le_refl _) (Nat.le_refl _)
    · rw [hdraft]
      exact underway_nil hd
  obtain ⟨hd2, hu2, hwrites⟩ : s.AtWrites p d2.draft ∧ Underway p s d (s.written p) d2.draft ∧ W (s.written p) d2 := by
    refine Returns.foldlM_append (I := fun done e => s.AtWrites p e.draft ∧ Underway p s d done e.draft ∧ W done e)
      (fun done x rest e e' hsplit h hx => ?_) hstart h2
    have hsplit : s.written p = done ++ (x.1, x.2) :: rest := hsplit
    obtain ⟨hop, hw⟩ := mem_written.1 (hsplit ▸ List.mem_append_right _ List.mem_cons_self : x ∈ s.written p)
    exact and_assoc.1 ⟨hs.underway_write hp hop hw h.1 h.2.1 hx,
      hwrite done x.1 x.2 rest e e' hsplit hop hw h.1 h.2.1 h.2.2 hx⟩
  have hwritten (tm : Timing) : ∀ x ∈ s.written p, (s.operands p)[x.2]? = some x.1 ∧
      ¬ (x.1.isUse = true ∧ x.1.timing = tm) := fun x hx => by
    obtain ⟨hop, hw⟩ := mem_written.1 hx
    simp [hop, isUse_eq_not_writes, hw]
  obtain ⟨hdl, hul, hlate⟩ := hs.uses_induct hp (huse d2.draft.live) (hwritten .late)
    ⟨hd2.weaken (Nat.le_refl _) (Nat.le_of_eq s.next_eq.symm) hbn, hu2, hread d2 hwrites⟩ hl
  have hlow := hdl.weaken (Nat.le_refl _) (Nat.succ_le_succ (Nat.le_of_lt s.before_lt_after)) (Nat.le_refl _)
  have hlates : ∀ x ∈ s.used p .late, (s.operands p)[x.2]? = some x.1 ∧
      ¬ (x.1.isUse = true ∧ x.1.timing = .early) := fun x hx => by
    obtain ⟨hop, -, hlate⟩ := mem_used.1 hx
    simp [hop, hlate]
  obtain ⟨hd3, hu3, hall⟩ := hs.uses_induct hp (huse d2.draft.live)
    (List.forall_mem_append.2 ⟨hwritten _, hlates⟩) ⟨hlow, hul, hearly _ _ _ hlate⟩ he
  refine ⟨_, _, d3, hd3, hu3, hall, fun x => ?_, hr.of_pure.symm⟩
  rw [List.mem_append, List.mem_append, mem_written, mem_used, mem_used, isUse_eq_not_writes, ← and_or_left,
    ← and_or_left]
  refine and_iff_left_of_imp fun _ => ?_
  cases x.1.writes with
  | true => exact .inl (.inl rfl)
  | false =>
      cases x.1.timing with
      | late => exact .inl (.inr ⟨rfl, rfl⟩)
      | early => exact .inr ⟨rfl, rfl⟩

theorem Placed.live_build {d d' : RootDraft} (hp : p.Posed) (hs : Placed p s b)
    (hd : d.Drafted p s.trace s.blockStart s.next s.next s.next) (hr : Returns (s.build p d) d') (w : Nat) :
    d'.live.get w = (p.routine.liveBefore s.instr d.live).get w := by
  have hsteps := hs.build_induct hp hd
    (W := fun done e => e.draft.live.get w = true ↔ (¬ ∃ x ∈ done, x.1.vreg.num = w) ∧ d.live.get w = true)
    (R := fun _ _ done e => e.draft.live.get w = true ↔ (∃ x ∈ done, x.1.isUse = true ∧ x.1.vreg.num = w) ∨
      (¬ ∃ x ∈ done, x.1.writes = true ∧ x.1.vreg.num = w) ∧ d.live.get w = true) (fun e he _ => by simp [he])
    (fun done op k rest e e' _ _ hw _ _ h hr => ?_) (fun e h => ?_) (fun live done op k e e' _ hu _ _ _ h hr => ?_)
    (fun _ _ _ h => h) hr
  · obtain ⟨-, done, e, -, -, hlive, hall, rfl⟩ := hsteps
    have hmem (op : Operand) : op ∈ p.routine.operands s.instr ↔ ∃ k, (op, k) ∈ done :=
      List.mem_iff_getElem?.trans (exists_congr fun k => (hall (op, k)).symm)
    refine Bool.eq_iff_iff.2 (hlive.trans ?_)
    simp only [Routine.liveBefore, IndexSet.get_insertMany, IndexSet.get_eraseMany, Bool.or_eq_true,
      Bool.and_eq_true, Bool.not_eq_true', decide_eq_true_eq, decide_eq_false_iff_not, List.mem_map, List.mem_filter,
      Prod.exists, hmem, exists_and_right, and_assoc]
  · obtain ⟨batch, -, rfl⟩ := returns_addWrite hw hr
    have hget : (s.wrote p e.draft op k).live.get w = _ := IndexSet.get_erase
    rw [hget, Bool.and_eq_true, h]
    simp only [List.mem_append, List.mem_singleton, or_and_right, exists_or, exists_eq_left, not_or,
      Bool.not_eq_true', decide_eq_false_iff_not]
    tauto
  · have hwritten : ∀ x ∈ s.written p, x.1.writes = true := fun x hx => (mem_written.1 hx).2
    grind [isUse_eq_not_writes]
  · have hget : e'.draft.live.get w = (decide (op.vreg.num = w) || e.draft.live.get w) := by
      obtain ⟨batch, ⟨-, rfl, -⟩ | ⟨r, -, -, rfl⟩⟩ := returns_addUse hu hr
      · exact (mentioned_fields p s e.draft op _ k).1 w
      · exact (mentioned_fields p s e.draft op _ k).1 w
    have hw : op.writes = false := by simpa [isUse_eq_not_writes] using hu
    rw [hget, Bool.or_eq_true, decide_eq_true_eq, h]
    simp only [List.mem_append, List.mem_singleton, or_and_right, exists_or, exists_eq_left, hu, hw, Bool.false_eq_true,
      false_and, true_and, or_false]
    rw [← or_assoc, or_comm (a := op.vreg.num = w)]

/-! ## The whole instruction -/

/-- Two operands of one instruction do not ask for contrary things. -/
def Suits (op op' : Operand) : Prop :=
  op'.vreg = op.vreg → op.isUse = op'.isUse ∧ ((op.needsStack && op'.needsReg) || (op.needsReg && op'.needsStack)) = false

theorem suits_of_checkPair (h : Machine.checkPair i op op' = .ok ()) : Suits op op' := by
  intro heq
  unfold Machine.checkPair at h
  rw [if_neg (not_not.2 heq)] at h
  split at h
  · cases h
  · rename_i huse
    split at h
    · cases h
    · rename_i hfit
      exact ⟨not_not.1 huse, by simpa using hfit⟩

theorem Suits.symm (h : Suits op op') : Suits op' op := by
  intro heq
  obtain ⟨huse, hfit⟩ := h heq.symm
  rw [Bool.or_comm, Bool.and_comm op'.needsReg, Bool.and_comm op'.needsStack]
  exact ⟨huse.symm, hfit⟩

theorem suits_self (op : Operand) : Suits op op := by
  refine fun _ => ⟨rfl, ?_⟩
  cases hc : op.constraint <;> simp [Operand.needsStack, Operand.needsReg, hc]

theorem checkOperands_suits {m : Machine} {ops : List Operand} {u : Unit} (h : m.checkOperands i ops = .ok u) :
    ∀ op ∈ ops, ∀ op' ∈ ops, Suits op op' := by
  have hpair : ops.Pairwise Suits := by
    induction ops with
    | nil => exact .nil
    | cons op ops ih =>
        rw [Machine.checkOperands] at h
        split at h
        · cases h
        obtain ⟨_, hrest, h⟩ := Except.bind_ok h
        exact List.pairwise_cons.2 ⟨fun op' hop' => suits_of_checkPair (Except.forM_ok hrest op' hop'), ih h⟩
  have hsymm : Std.Symm Suits := ⟨fun _ _ => Suits.symm⟩
  exact fun op hop op' hop' => hpair.forall_of_forall (fun op _ => suits_self op) hop hop'

/-- The draft has the operands of the instruction. -/
structure Done (p : Problem) (s : InstrSite) (d : RootDraft) : Prop where
  operand : ∀ k op, (s.operands p)[k]? = some op → OperandDone s op k d
  roles : ∀ op ∈ s.operands p, ∀ op' ∈ s.operands p, op'.vreg = op.vreg → op.isUse = op'.isUse
  places : ∀ op ∈ s.operands p, ∀ op' ∈ s.operands p, op'.vreg = op.vreg →
    ((op.needsStack && op'.needsReg) || (op.needsReg && op'.needsStack)) = false

theorem Done.mono {d d' : RootDraft} (h : Done p s d) (hd : d.Extends s.after d') : Done p s d' :=
  ⟨fun k op hop => (h.operand k op hop).mono hd, h.roles, h.places⟩

theorem index_lt_of_fixed (hleg : op.isLegible = true) (hr : op.fixedReg? = some r) :
    r.index < PhysReg.count := by
  refine (PhysReg.index_lt_iff r).2 ?_
  simp only [Operand.isLegible, VirtReg.isLegible, Bool.and_eq_true] at hleg
  unfold Operand.fixedReg? at hr
  split at hr
  · cases hr
    exact hleg.2
  · cases hr

theorem Placed.contains_fixedOutputs (hp : p.Posed) (hs : Placed p s b) (hop : op ∈ s.operands p)
    (hw : op.writes = true) (hr : op.fixedReg? = some r) : (s.fixedOutputs p).contains r = true :=
  RegSet.contains_ofList.2 ⟨List.mem_filterMap.2 ⟨op, List.mem_filter.2 ⟨hop, hw⟩, hr⟩,
    (PhysReg.index_lt_iff r).1 (index_lt_of_fixed (hp.legible hs.block hs.mem op hop) hr)⟩

theorem Placed.build {d d' : RootDraft} (hp : p.Posed) (hs : Placed p s b)
    (h : d.Drafted p s.trace s.blockStart s.next s.next s.next) (hr : Returns (s.build p d) d') :
    d'.Drafted p s.trace s.blockStart s.before (s.before + 1) s.before ∧ d.Extends s.after d' ∧ Done p s d' := by
  have hcheck : p.machine.checkOperands s.instr (s.operands p) = .ok () := by
    obtain ⟨_, hcheck, -⟩ := hr.bind
    exact hcheck.of_accept
  have hstep {done : List (Operand × Nat)} {e e' : RootDraft} {op : Operand} {k : Nat}
      (h : ∀ x ∈ done, OperandDone s x.1 x.2 e) (hext : e.Extends s.after e') (hnew : OperandDone s op k e') :
      ∀ x ∈ done ++ [(op, k)], OperandDone s x.1 x.2 e' :=
    List.forall_mem_append.2 ⟨fun x hx => (h x hx).mono hext, List.forall_mem_singleton.2 hnew⟩
  have hsteps := hs.build_induct hp h (W := fun done e => ∀ x ∈ done, OperandDone s x.1 x.2 e.draft)
    (R := fun _ _ done e => ∀ x ∈ done, OperandDone s x.1 x.2 e.draft) (fun _ _ _ => by simp)
    (fun _ op k _ e _ _ hop hw hd _ h hr => ?_) (fun _ h => h) (fun _ _ op k e _ hop hu _ hd _ h hr => ?_)
    (fun _ _ _ h => h) hr
  · obtain ⟨-, done, e, hd, hu, hops, hall, rfl⟩ := hsteps
    exact ⟨⟨hd.distinct, hd.root, hd.live, hd.copies, (Reservations.size_foldl_add _ _).trans hd.sized⟩,
      ⟨hu.extended.covers, hu.extended.mentions, hu.extended.copies⟩,
      ⟨fun k op hop => ⟨(hops _ ((hall (op, k)).2 hop)).written, (hops _ ((hall (op, k)).2 hop)).placed⟩,
        fun op hop op' hop' heq => (checkOperands_suits hcheck op hop op' hop' heq).1,
        fun op hop op' hop' heq => (checkOperands_suits hcheck op hop op' hop' heq).2⟩⟩
  · obtain ⟨batch, -, rfl⟩ := returns_addWrite hw hr
    obtain ⟨-, hext, hcov, hment⟩ := hs.wrote hp hd hop
    exact hstep h hext ⟨fun _ => hcov, .inl hment⟩
  · have hnotw : ¬ op.writes = true := by simpa [isUse_eq_not_writes] using hu
    obtain ⟨batch, ⟨-, rfl, -⟩ | ⟨r, hfix, -, rfl⟩⟩ := returns_addUse hu hr
    · obtain ⟨-, hext, hment⟩ := hs.mentioned hp hu hd hop (.inl rfl)
      exact hstep h hext ⟨fun hw => absurd hw hnotw, .inl hment⟩
    · obtain ⟨-, hext, hment⟩ := hs.copied hp hu hd hop
      exact hstep h hext ⟨fun hw => absurd hw hnotw, .inr ⟨r, hu, hfix, hment, Array.mem_push_self⟩⟩

end InstrSite

end LinearScan
