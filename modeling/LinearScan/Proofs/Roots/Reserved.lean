import LinearScan.Proofs.Roots.Trace

/-!
# The reservations of a register

Of what one instruction reserves, everything but the early uses holds its registers right after the instruction, so
that there is one stretch of each register. Early uses come last, and end where the others may start. The
instructions of a trace reserve stretches one after another. An instruction reserves what it is due (`Due`), and
nothing else.
-/

namespace LinearScan

open LiveRange Run

theorem rel_or_rel {α : Type} {R : α → α → Prop} {l : List α} (h : l.Pairwise R) {x y : α} (hx : x ∈ l) (hy : y ∈ l)
    (hne : x ≠ y) : R x y ∨ R y x :=
  have : Std.Symm fun x y => R x y ∨ R y x := ⟨fun _ _ => Or.symm⟩
  (h.imp (S := fun x y => R x y ∨ R y x) Or.inl).forall hx hy hne

namespace Reservation

variable {i : Nat} {r : PhysReg} {new : Reservation} {b b' : Batch}

/-- The ranges have no point in common, one being done before the other starts. -/
def Disjoint (x y : LiveRange) : Prop := x.stop ≤ y.start ∨ y.stop ≤ x.start

theorem Disjoint.sort {α : Type} {range : α → LiveRange} {l : List α}
    (hproper : ∀ x ∈ l, (range x).start < (range x).stop) (h : l.Pairwise fun x y => Disjoint (range x) (range y)) :
    (l.mergeSort fun a b => decide ((range a).start ≤ (range b).start)).Pairwise fun x y =>
      (range x).stop ≤ (range y).start := by
  have hperm := l.mergeSort_perm fun a b => decide ((range a).start ≤ (range b).start)
  have hsorted := pairwise_mergeSort_key (fun x => (range x).start) l
  refine (hsorted.and (h.perm hperm.symm fun hxy => Or.symm hxy)).imp_of_mem fun {x y} _ hy hxy => ?_
  have := hproper y (hperm.mem_iff.1 hy)
  exact hxy.2.resolve_right fun hyx => by omega

theorem Disjoint.symm {x y : LiveRange} (h : Disjoint x y) : Disjoint y x := Or.symm h

theorem not_overlaps_iff {x y : LiveRange} : ¬ x.overlaps y = true ↔ Disjoint x y := by
  rw [overlaps_iff, Disjoint]
  omega

/-- A new stretch is joined to the first one that it overlaps, which has the same owner, or comes last. -/
theorem reserve_cases (h : reserve i r new b = .ok b') :
    (∃ pre old post, b = pre ++ (r, old) :: post ∧ old.range.overlaps new.range = true ∧
      (new.owner.isSome = true ∧ old.owner = new.owner) ∧
      b' = pre ++ (r, { old with range :=
        ⟨min old.range.start new.range.start, max old.range.stop new.range.stop⟩ }) :: post) ∨
    b' = b ++ [(r, new)] ∧ ∀ e ∈ b, e.1 = r → Disjoint e.2.range new.range := by
  induction b generalizing b' with
  | nil =>
      cases h
      exact .inr ⟨rfl, by simp⟩
  | cons e b ih =>
      unfold reserve at h
      split at h
      · rename_i hover
        split at h
        · rename_i howner
          cases h
          refine .inl ⟨[], e.2, b, ?_, hover.2, howner, ?_⟩
          · rw [← hover.1]
            rfl
          · rw [← hover.1]
            rfl
        · cases h
      · rename_i hapart
        obtain ⟨rest, hrest, h⟩ := Except.bind_ok h
        cases h
        rcases ih hrest with ⟨pre, old, post, rfl, hover, howner, rfl⟩ | ⟨rfl, hfree⟩
        · exact .inl ⟨e :: pre, old, post, rfl, hover, howner, rfl⟩
        · refine .inr ⟨rfl, List.forall_mem_cons.2 ⟨fun he => ?_, hfree⟩⟩
          exact not_overlaps_iff.1 fun hover => hapart ⟨he, hover⟩

/-- `x` is part of `y`, which is kept for the same owner. What is kept for nobody is not joined to anything. -/
structure Within (x y : Reservation) : Prop where
  owner : y.owner = x.owner
  start : y.range.start ≤ x.range.start
  stop : x.range.stop ≤ y.range.stop
  nobody : x.owner = none → y = x

theorem Within.refl (x : Reservation) : x.Within x := ⟨rfl, Nat.le_refl _, Nat.le_refl _, fun _ => rfl⟩

theorem Within.trans {x y z : Reservation} (h : x.Within y) (h' : y.Within z) : x.Within z :=
  ⟨h'.owner.trans h.owner, Nat.le_trans h'.start h.start, Nat.le_trans h.stop h'.stop,
    fun hx => (h'.nobody (h.owner.trans hx)).trans (h.nobody hx)⟩

/-- A stretch of the registers of instruction `i`. -/
structure Stretch (i : Nat) (x : LiveRange) : Prop where
  start : x.start = Point.before i ∨ x.start = Point.after i
  stop : x.stop = Point.after i ∨ x.stop = Point.before (i + 1)
  proper : x.start < x.stop

theorem Stretch.join {x y : LiveRange} (hx : Stretch i x) (hy : Stretch i y) (hover : x.overlaps y = true) :
    (⟨min x.start y.start, max x.stop y.stop⟩ : LiveRange) = x ∨
      (⟨min x.start y.start, max x.stop y.stop⟩ : LiveRange) = y := by
  obtain ⟨a, b⟩ := x
  obtain ⟨c, d⟩ := y
  have h1 := hx.start
  have h2 := hx.stop
  have h3 := hy.start
  have h4 := hy.stop
  rw [overlaps_iff] at hover
  simp only [Point.before, Point.after, LiveRange.mk.injEq] at h1 h2 h3 h4 hover ⊢
  omega

/-- A new stretch takes the place of one that it holds, is part of one, or comes last. -/
theorem reserve_stretch (hb : ∀ e ∈ b, Stretch i e.2.range) (hnew : Stretch i new.range)
    (h : reserve i r new b = .ok b') :
    (∃ pre old x post, b = pre ++ (r, old) :: post ∧ b' = pre ++ (r, x) :: post ∧ (x = old ∨ x = new) ∧
      old.Within x ∧ new.Within x) ∨
    b' = b ++ [(r, new)] ∧ ∀ e ∈ b, e.1 = r → Disjoint e.2.range new.range := by
  rcases reserve_cases h with ⟨pre, old, post, rfl, hover, howner, rfl⟩ | happend
  · refine .inl ⟨pre, old, _, post, rfl, rfl, ?_, ⟨rfl, Nat.min_le_left _ _, Nat.le_max_left _ _, fun hnone => ?_⟩,
      ⟨howner.2, Nat.min_le_right _ _, Nat.le_max_right _ _, fun hnone => ?_⟩⟩
    · rcases (hb (r, old) (by simp)).join hnew hover with hjoin | hjoin
      · exact .inl (by rw [hjoin])
      · exact .inr (by rw [hjoin, howner.2])
    · rw [← howner.2, hnone] at howner
      cases howner.1
    · rw [hnone] at howner
      cases howner.1
  · exact .inr happend

/-- The stretches that instruction `i` reserves of one register do not overlap. -/
structure Apart (i : Nat) (b : Batch) : Prop where
  stretch : ∀ e ∈ b, Stretch i e.2.range
  apart : b.Pairwise fun e e' => e.1 = e'.1 → Disjoint e.2.range e'.2.range

theorem apart_nil (i : Nat) : Apart i [] := ⟨by simp, .nil⟩

theorem Apart.append (h : Apart i b) (hnew : Stretch i new.range)
    (hfree : ∀ e ∈ b, e.1 = r → Disjoint e.2.range new.range) : Apart i (b ++ [(r, new)]) := by
  refine ⟨List.forall_mem_append.2 ⟨h.stretch, List.forall_mem_singleton.2 hnew⟩,
    List.pairwise_append.2 ⟨h.apart, List.pairwise_singleton _ _, fun e he e' he' => ?_⟩⟩
  rw [List.mem_singleton.1 he']
  exact hfree e he

theorem Apart.replace {pre post : Batch} {old x : Reservation} (h : Apart i (pre ++ (r, old) :: post))
    (hx : Stretch i x.range) (hfree : ∀ e ∈ pre ++ post, e.1 = r → Disjoint e.2.range old.range →
      Disjoint e.2.range x.range) : Apart i (pre ++ (r, x) :: post) := by
  obtain ⟨hsp, hs⟩ := List.forall_mem_append.1 h.stretch
  obtain ⟨hpre, hrest, hcross⟩ := List.pairwise_append.1 h.apart
  obtain ⟨hfirst, hpost⟩ := List.pairwise_cons.1 hrest
  refine ⟨List.forall_mem_append.2 ⟨hsp, List.forall_mem_cons.2 ⟨hx, (List.forall_mem_cons.1 hs).2⟩⟩,
    List.pairwise_append.2 ⟨hpre, List.pairwise_cons.2 ⟨fun e he heq => ?_, hpost⟩, fun e he e' he' heq => ?_⟩⟩
  · exact (hfree e (List.mem_append_right _ he) heq.symm (hfirst e he heq).symm).symm
  · rcases List.mem_cons.1 he' with rfl | he'
    · exact hfree e (List.mem_append_left _ he) heq (hcross e he _ List.mem_cons_self heq)
    · exact hcross e he e' (List.mem_cons_of_mem _ he') heq

/-- All of the stretches last until the next instruction. -/
def Lasting (i : Nat) (b : Batch) : Prop := ∀ e ∈ b, e.2.range.stop = Point.before (i + 1)

theorem Lasting.reserve (hl : Lasting i b) (hb : ∀ e ∈ b, Stretch i e.2.range) (hnew : Stretch i new.range)
    (hstop : new.range.stop = Point.before (i + 1)) (hr : reserve i r new b = .ok b') : Lasting i b' := by
  rcases reserve_stretch hb hnew hr with ⟨pre, old, x, post, rfl, rfl, hx, -⟩ | ⟨rfl, -⟩
  · obtain ⟨hpre, hrest⟩ := List.forall_mem_append.1 hl
    obtain ⟨hold, hpost⟩ := List.forall_mem_cons.1 hrest
    refine List.forall_mem_append.2 ⟨hpre, List.forall_mem_cons.2 ⟨?_, hpost⟩⟩
    rcases hx with rfl | rfl
    · exact hold
    · exact hstop
  · exact List.forall_mem_append.2 ⟨hl, List.forall_mem_singleton.2 hstop⟩

/-- Stretches that last meet right after the instruction, so that a register has only one of them. A stretch that ends
with the instruction is part of any that it overlaps. -/
theorem Apart.reserve (h : Apart i b) (hnew : Stretch i new.range)
    (htime : new.range = ⟨Point.before i, Point.after i⟩ ∨ Lasting i b) (hr : reserve i r new b = .ok b') :
    Apart i b' := by
  rcases reserve_stretch h.stretch hnew hr with ⟨pre, old, x, post, rfl, rfl, hx, hold, -⟩ | ⟨rfl, hfree⟩
  · have hs := h.stretch (r, old) (by simp)
    have hxs : Stretch i x.range := by
      rcases hx with rfl | rfl
      · exact hs
      · exact hnew
    refine h.replace hxs fun e he heq hdis => ?_
    have hmem : e ∈ pre ++ (r, old) :: post := List.mem_append.2 ((List.mem_append.1 he).imp_right (List.mem_cons_of_mem _))
    have h1 := hs.start
    have h2 := hs.stop
    rcases htime with hearly | hl
    · rcases hx with rfl | rfl
      · exact hdis
      · have h3 := hold.start
        have h4 := hold.stop
        have h5 := hs.proper
        rw [hearly] at h3 h4 ⊢
        simp only [Disjoint, Point.before, Point.after] at h1 h2 h3 h4 h5 hdis ⊢
        omega
    · have h3 := (h.stretch e hmem).start
      have h4 := hl e hmem
      have h5 := hl (r, old) (by simp)
      simp only [Disjoint, Point.before, Point.after] at hdis h1 h3 h4 h5
      omega
  · exact h.append hnew hfree

/-! ## What is due -/

/-- The batch reserves what is due, and nothing else. -/
structure Serves (due : PhysReg → Reservation → Prop) (b : Batch) : Prop where
  only : ∀ e ∈ b, due e.1 e.2
  held : ∀ r x, due r x → ∃ y, (r, y) ∈ b ∧ x.Within y

theorem Serves.reserve {due due' : PhysReg → Reservation → Prop} (h : Serves due b)
    (hdue : ∀ q x, due' q x ↔ due q x ∨ q = r ∧ x = new) (hb : ∀ e ∈ b, Stretch i e.2.range)
    (hnew : Stretch i new.range) (hr : reserve i r new b = .ok b') : Serves due' b' := by
  rcases reserve_stretch hb hnew hr with ⟨pre, old, x, post, rfl, rfl, hx, hold, hpart⟩ | ⟨rfl, -⟩
  · obtain ⟨hpre, hrest⟩ := List.forall_mem_append.1 h.only
    obtain ⟨hdueOld, hpost⟩ := List.forall_mem_cons.1 hrest
    refine ⟨fun e he => (hdue _ _).2 ?_, fun q y hy => ?_⟩
    · rcases List.mem_append.1 he with he | he
      · exact .inl (hpre e he)
      · rcases List.mem_cons.1 he with rfl | he
        · rcases hx with rfl | rfl
          · exact .inl hdueOld
          · exact .inr ⟨rfl, rfl⟩
        · exact .inl (hpost e he)
    · rcases (hdue q y).1 hy with hy | ⟨rfl, rfl⟩
      · obtain ⟨z, hz, hyz⟩ := h.held q y hy
        rcases List.mem_append.1 hz with hz | hz
        · exact ⟨z, List.mem_append_left _ hz, hyz⟩
        · rcases List.mem_cons.1 hz with hz | hz
          · cases hz
            exact ⟨x, by simp, hyz.trans hold⟩
          · exact ⟨z, List.mem_append_right _ (List.mem_cons_of_mem _ hz), hyz⟩
      · exact ⟨x, by simp, hpart⟩
  · refine ⟨List.forall_mem_append.2 ⟨fun e he => (hdue _ _).2 (.inl (h.only e he)),
      List.forall_mem_singleton.2 ((hdue _ _).2 (.inr ⟨rfl, rfl⟩))⟩, fun q y hy => ?_⟩
    rcases (hdue q y).1 hy with hy | ⟨rfl, rfl⟩
    · obtain ⟨z, hz, hyz⟩ := h.held q y hy
      exact ⟨z, List.mem_append_left _ hz, hyz⟩
    · exact ⟨y, by simp, .refl y⟩

/-- What instruction `i` is due of register `r`, if it clobbers the registers `clobbered` and has the operands `ops`:
the stretch after the instruction, or what an operand that is fixed to the register occupies. A use that reads a copy
has the register kept for nobody. -/
inductive Due (i : Nat) (clobbered : List PhysReg) (ops : List (Operand × Nat)) (copies : Array OperandCopy)
    (r : PhysReg) : Reservation → Prop where
  | clobber : r ∈ clobbered → Due i clobbered ops copies r ⟨⟨Point.after i, Point.before (i + 1)⟩, none⟩
  | fixed {op : Operand} {k : Nat} : (op, k) ∈ ops → op.fixedReg? = some r → ⟨i, k, op.vreg, r⟩ ∉ copies →
      Due i clobbered ops copies r ⟨op.occupied i, some op.vreg⟩
  | copy {op : Operand} {k : Nat} : (op, k) ∈ ops → op.fixedReg? = some r → ⟨i, k, op.vreg, r⟩ ∈ copies →
      Due i clobbered ops copies r ⟨op.occupied i, none⟩

section Due

variable {clobbered : List PhysReg} {ops ops' : List (Operand × Nat)} {copies copies' : Array OperandCopy}
  {x : Reservation} {op : Operand} {k : Nat} {q : PhysReg}

theorem stretch_occupied (op : Operand) (i : Nat) : Stretch i (op.occupied i) := by
  have hproper := op.occupied_proper i
  unfold Operand.occupied at hproper ⊢
  split at hproper
  · exact ⟨.inl rfl, .inl rfl, hproper⟩
  · exact ⟨.inr rfl, .inr rfl, hproper⟩
  · exact ⟨.inl rfl, .inr rfl, hproper⟩

theorem stretch_after (i : Nat) : Stretch i ⟨Point.after i, Point.before (i + 1)⟩ :=
  ⟨.inr rfl, .inr rfl, by simp only [Point.before, Point.after]; omega⟩

theorem Due.stretch (h : Due i clobbered ops copies r x) : Stretch i x.range := by
  cases h with
  | clobber => exact stretch_after i
  | fixed => exact stretch_occupied _ i
  | copy => exact stretch_occupied _ i

theorem Due.mono (h : Due i clobbered ops copies r x) (hops : ∀ y ∈ ops, y ∈ ops')
    (hcopies : ∀ y ∈ ops, ⟨i, y.2, y.1.vreg, r⟩ ∈ copies' ↔ ⟨i, y.2, y.1.vreg, r⟩ ∈ copies) :
    Due i clobbered ops' copies' r x := by
  cases h with
  | clobber hr => exact .clobber hr
  | fixed hop hr hn => exact .fixed (hops _ hop) hr fun hc => hn ((hcopies _ hop).1 hc)
  | copy hop hr hc => exact .copy (hops _ hop) hr ((hcopies _ hop).2 hc)

theorem due_clobber : Due i (clobbered ++ [r]) [] copies q x ↔ Due i clobbered [] copies q x ∨
    q = r ∧ x = ⟨⟨Point.after i, Point.before (i + 1)⟩, none⟩ := by
  constructor
  · rintro (hr | hop | hop)
    · exact (List.mem_append.1 hr).imp .clobber fun hr => ⟨List.mem_singleton.1 hr, rfl⟩
    · cases hop
    · cases hop
  · rintro ((hr | hop | hop) | ⟨rfl, rfl⟩)
    · exact .clobber (List.mem_append_left _ hr)
    · cases hop
    · cases hop
    · exact .clobber (List.mem_append_right _ (List.mem_singleton.2 rfl))

theorem due_operand {owner : Option VirtReg}
    (hcopies : ∀ y ∈ ops, ∀ q, ⟨i, y.2, y.1.vreg, q⟩ ∈ copies' ↔ ⟨i, y.2, y.1.vreg, q⟩ ∈ copies)
    (howner : ∀ q, op.fixedReg? = some q → (owner = some op.vreg ∧ ⟨i, k, op.vreg, q⟩ ∉ copies') ∨
      (owner = none ∧ ⟨i, k, op.vreg, q⟩ ∈ copies')) :
    Due i clobbered (ops ++ [(op, k)]) copies' q x ↔ Due i clobbered ops copies q x ∨
      op.fixedReg? = some q ∧ x = ⟨op.occupied i, owner⟩ := by
  constructor
  · rintro (hr | @⟨op', k', hop, hr, hn⟩ | @⟨op', k', hop, hr, hc⟩)
    · exact .inl (.clobber hr)
    · rcases List.mem_append.1 hop with hop | hop
      · exact .inl (.fixed hop hr fun hc => hn ((hcopies _ hop q).2 hc))
      · cases List.mem_singleton.1 hop
        rcases howner q hr with ⟨rfl, -⟩ | ⟨-, hc⟩
        · exact .inr ⟨hr, rfl⟩
        · exact absurd hc hn
    · rcases List.mem_append.1 hop with hop | hop
      · exact .inl (.copy hop hr ((hcopies _ hop q).1 hc))
      · cases List.mem_singleton.1 hop
        rcases howner q hr with ⟨-, hn⟩ | ⟨rfl, -⟩
        · exact absurd hc hn
        · exact .inr ⟨hr, rfl⟩
  · rintro (h | ⟨hr, rfl⟩)
    · exact h.mono (fun _ hy => List.mem_append_left _ hy) fun y hy => hcopies y hy q
    · rcases howner q hr with ⟨rfl, hn⟩ | ⟨rfl, hc⟩
      · exact .fixed (by simp) hr hn
      · exact .copy (by simp) hr hc

end Due

end Reservation

namespace Routine

/-- The registers that instruction `i` clobbers, but for those that an operand writes by name. -/
def clobberedOnly (f : Routine) (i : Nat) : List PhysReg :=
  (f.clobbers i).toList.filter fun r => ∀ op ∈ f.operands i, op.writes = true → op.fixedReg? ≠ some r

/-- The copy is for a use that is fixed to its register. -/
def ForUse (f : Routine) (c : OperandCopy) : Prop :=
  ∃ op, (f.operands c.instr)[c.slot]? = some op ∧ op.isUse = true ∧ op.vreg = c.vreg ∧ op.fixedReg? = some c.reg

/-- What instruction `i` is due of register `r`. -/
def Due (f : Routine) (copies : Array OperandCopy) (i : Nat) (r : PhysReg) (x : Reservation) : Prop :=
  Reservation.Due i (f.clobberedOnly i) (f.operands i).zipIdx copies r x

end Routine

/-! ## An instruction -/

/-- The copies of one instruction are in different registers. -/
def CopiesApart (copies : Array OperandCopy) : Prop :=
  copies.toList.Pairwise fun c c' => c.instr = c'.instr → c.reg ≠ c'.reg

namespace InstrSite

open Reservation

variable {p : Problem} {s : InstrSite} {b : Nat} {op : Operand} {d d' : InstrDraft} {owner : Option VirtReg}
  {r : PhysReg} {x : Reservation}
  {batch batch' : Batch}

theorem Granted.apart (h : s.Granted op owner batch batch')
    (htime : op.occupied s.instr = ⟨Point.before s.instr, Point.after s.instr⟩ ∨ Lasting s.instr batch)
    (ha : Apart s.instr batch) : Apart s.instr batch' := by
  rcases h with ⟨-, rfl⟩ | ⟨r, -, hb⟩
  · exact ha
  · exact ha.reserve (stretch_occupied op s.instr) htime hb

theorem Granted.lasting (h : s.Granted op owner batch batch')
    (hstop : (op.occupied s.instr).stop = Point.before (s.instr + 1)) (ha : Apart s.instr batch)
    (hl : Lasting s.instr batch) : Lasting s.instr batch' := by
  rcases h with ⟨-, rfl⟩ | ⟨r, -, hb⟩
  · exact hl
  · exact hl.reserve ha.stretch (stretch_occupied op s.instr) hstop hb

theorem Granted.serves {due due' : PhysReg → Reservation → Prop} (h : s.Granted op owner batch batch')
    (hdue : ∀ q x, due' q x ↔ due q x ∨ op.fixedReg? = some q ∧ x = ⟨op.occupied s.instr, owner⟩)
    (ha : Apart s.instr batch) (hs : Serves due batch) : Serves due' batch' := by
  rcases h with ⟨hnone, rfl⟩ | ⟨r, hr, hb⟩
  · have hsame (q : PhysReg) (x : Reservation) : due' q x ↔ due q x := by simp [hdue, hnone]
    exact ⟨fun e he => (hsame _ _).2 (hs.only e he), fun r x hx => hs.held r x ((hsame r x).1 hx)⟩
  · refine hs.reserve (fun q x => ?_) ha.stretch (stretch_occupied op s.instr) hb
    rw [hdue, hr, Option.some_inj, eq_comm (a := r)]

theorem Granted.free (h : s.Granted op none batch batch') (hr : op.fixedReg? = some r)
    (hx : (r, x) ∈ batch) : Disjoint x.range (op.occupied s.instr) := by
  rcases h with ⟨hnone, -⟩ | ⟨r', hr', hb⟩
  · rw [hr] at hnone
    cases hnone
  · cases hr.symm.trans hr'
    rcases reserve_cases hb with ⟨_, _, _, -, -, ⟨hsome, -⟩, -⟩ | ⟨-, hfree⟩
    · cases hsome
    · exact hfree _ hx rfl

/-- What an instruction has reserved for the operands `done`. -/
structure Reserving (p : Problem) (s : InstrSite) (done : List (Operand × Nat)) (d : InstrDraft) : Prop where
  apart : Apart s.instr d.batch
  serves : Serves (Due s.instr (p.routine.clobberedOnly s.instr) done d.draft.copies) d.batch
  copies : CopiesApart d.draft.copies

section Reserving

variable {d0 : RootDraft} {done : List (Operand × Nat)} {k : Nat}

theorem Placed.reserving_clobbers (hp : p.Posed) (hs : Placed p s b) (hcopies : CopiesApart d0.copies)
    (hr : Returns ((p.routine.clobbers s.instr).toList.foldlM (s.addClobber p) ⟨d0, [], []⟩) d) :
    Reserving p s [] d ∧ Lasting s.instr d.batch := by
  have hdraft : d.draft = d0 := (clobbers_fields hr).1
  have hall := Returns.foldlM_append (I := fun rs e => Apart s.instr e.batch ∧ Lasting s.instr e.batch ∧
      Serves (Due s.instr (rs.filter fun r => ∀ op ∈ s.operands p, op.writes = true → op.fixedReg? ≠ some r) []
        d0.copies) e.batch) (fun rs r _ e e' _ h hr => ?_) ⟨apart_nil _, by simp [Lasting], by simp, ?_⟩ hr
  · exact ⟨⟨hall.1, hdraft ▸ hall.2.2, hdraft ▸ hcopies⟩, hall.2.1⟩
  · obtain ⟨ha, hl, hserves⟩ := h
    rw [List.filter_append]
    unfold addClobber at hr
    split at hr
    · rename_i hout
      obtain rfl := hr.of_pure
      obtain ⟨op, hop, hw, hfix⟩ := mem_fixedOutputs hout
      rw [List.filter_cons_of_neg (by simpa using ⟨op, hop, hw, hfix⟩), List.filter_nil, List.append_nil]
      exact ⟨ha, hl, hserves⟩
    · rename_i hout
      obtain ⟨batch, hb, rfl⟩ := returns_reserve hr
      have hkept : ∀ op ∈ s.operands p, op.writes = true → op.fixedReg? ≠ some r := fun op hop hw hfix =>
        hout (hs.contains_fixedOutputs hp hop hw hfix)
      rw [List.filter_cons_of_pos (by simpa using hkept), List.filter_nil]
      exact ⟨ha.reserve (stretch_after _) (.inr hl) hb, hl.reserve ha.stretch (stretch_after _) rfl hb,
        hserves.reserve (fun _ _ => due_clobber) ha.stretch (stretch_after _) hb⟩
  · rintro r x (hr | hop | hop)
    · cases hr
    · cases hop
    · cases hop

theorem Reserving.keep (h : Reserving p s done d) (hfree : ∀ c ∈ d.draft.copies, c.instr = s.instr → c.slot ≠ k)
    (hg : s.Granted op (some op.vreg) d.batch d'.batch) (hc : d'.draft.copies = d.draft.copies)
    (htime : op.occupied s.instr = ⟨Point.before s.instr, Point.after s.instr⟩ ∨ Lasting s.instr d.batch) :
    Reserving p s (done ++ [(op, k)]) d' := by
  refine ⟨hg.apart htime h.apart, hg.serves (fun q x => due_operand (fun y hy q => by rw [hc])
    fun q _ => .inl ⟨rfl, fun hmem => ?_⟩) h.apart h.serves, hc ▸ h.copies⟩
  rw [hc] at hmem
  exact hfree _ hmem rfl rfl

theorem Reserving.copy (h : Reserving p s done d) (hu : Underway p s d0 done d.draft)
    (hfresh : ∀ x ∈ done, x.2 ≠ k) (huse : op.isUse = true) (hr : op.fixedReg? = some r)
    (hg : s.Granted op none d.batch d'.batch) (hc : d'.draft.copies = d.draft.copies.push ⟨s.instr, k, op.vreg, r⟩)
    (htime : op.occupied s.instr = ⟨Point.before s.instr, Point.after s.instr⟩ ∨ Lasting s.instr d.batch) :
    Reserving p s (done ++ [(op, k)]) d' := by
  refine ⟨hg.apart htime h.apart, hg.serves (fun q x => due_operand (fun y hy q => ?_)
    fun q hq => .inr ⟨rfl, ?_⟩) h.apart h.serves, ?_⟩
  · rw [hc, Array.mem_push]
    exact or_iff_left fun heq => hfresh y hy (congrArg OperandCopy.slot heq)
  · cases Option.some.inj (hr.symm.trans hq)
    rw [hc]
    exact Array.mem_push_self
  · rw [CopiesApart, hc, Array.toList_push]
    refine List.pairwise_append.2 ⟨h.copies, List.pairwise_singleton _ _, fun c hcm c' hc' => ?_⟩
    rw [List.mem_singleton.1 hc']
    rintro hi rfl
    -- an earlier copy would hold the register before the instruction
    have hcm := Array.mem_toList_iff.1 hcm
    have hi : c.instr = s.instr := hi
    obtain ⟨op', hdone, -, huse', hv, hr'⟩ := hu.own c hcm hi
    obtain ⟨y, hy, hin⟩ := h.serves.held c.reg _ (.copy hdone hr' (by rw [hv, ← hi]; exact hcm))
    obtain rfl := hin.nobody rfl
    have hdis := hg.free hr hy
    have h1 := Operand.before_mem_occupied (i := s.instr) huse
    have h2 := Operand.before_mem_occupied (i := s.instr) huse'
    simp only [Reservation.Disjoint] at hdis
    omega

end Reserving

/-- What the instruction adds to the reservations and copies of the draft `d`. -/
structure Added (p : Problem) (s : InstrSite) (d d' : RootDraft) (batch : Batch) : Prop where
  apart : Apart s.instr batch
  serves : Serves (p.routine.Due d'.copies s.instr) batch
  reservations : d'.reservations = batch.foldl Reservations.add d.reservations
  copies : CopiesApart d'.copies
  own : ∀ c ∈ d'.copies, c.instr = s.instr → p.routine.ForUse c
  others : ∀ c : OperandCopy, c.instr ≠ s.instr → (c ∈ d'.copies ↔ c ∈ d.copies)

theorem Placed.added_build {d d' : RootDraft} (hp : p.Posed) (hs : Placed p s b)
    (hd : d.Drafted p s.trace s.blockStart s.next s.next s.next) (hcopies : CopiesApart d.copies)
    (hr : Returns (s.build p d) d') : ∃ batch, Added p s d d' batch := by
  have hsteps := hs.build_induct hp hd (W := fun done e => Reserving p s done e ∧ Lasting s.instr e.batch)
    (R := fun _ tm done e => Reserving p s done e ∧ (tm = .late → Lasting s.instr e.batch))
    (fun e _ hr => hs.reserving_clobbers hp hcopies hr) (fun _ op k _ e e' _ hop hw _ hu h hr => ?_)
    (fun e h => ⟨h.1, fun _ => h.2⟩) (fun _ done op k e e' _ huse hfresh _ hu h hr => ?_)
    (fun _ _ _ h => ⟨h.1, fun he => by cases he⟩) hr
  · obtain ⟨-, done, e, -, hu, ⟨h, -⟩, hall, rfl⟩ := hsteps
    have hops (x : Operand × Nat) : x ∈ done ↔ x ∈ (p.routine.operands s.instr).zipIdx :=
      (hall x).trans List.mem_zipIdx_iff_getElem?.symm
    have hdue (r : PhysReg) (x : Reservation) : p.routine.Due e.draft.copies s.instr r x ↔
        Due s.instr (p.routine.clobberedOnly s.instr) done e.draft.copies r x :=
      ⟨fun hx => Due.mono hx (fun y => (hops y).2) fun _ _ => .rfl, fun hx => hx.mono (fun y => (hops y).1) fun _ _ => .rfl⟩
    refine ⟨e.batch, h.apart, ⟨fun x hx => (hdue _ _).2 (h.serves.only x hx),
      fun r x hx => h.serves.held r x ((hdue r x).1 hx)⟩, by rw [hu.reservations], h.copies, fun c hc hi => ?_, hu.others⟩
    obtain ⟨op, -, hop⟩ := hu.own c hc hi
    exact ⟨op, by rw [hi]; exact hop⟩
  · obtain ⟨batch, hg, rfl⟩ := returns_addWrite hw hr
    have hstop : (op.occupied s.instr).stop = Point.before (s.instr + 1) := (Operand.after_mem_occupied fun huse => by
      rw [isUse_eq_not_writes, hw] at huse
      cases huse).2.2
    exact ⟨h.1.keep (hu.ne_slot_of_writes hop hw) hg (wrote_fields p s e.draft op k).1 (.inr h.2),
      hg.lasting hstop h.1.apart h.2⟩
  · have htime : op.occupied s.instr = ⟨Point.before s.instr, Point.after s.instr⟩ ∨ Lasting s.instr e.batch := by
      cases ht : op.timing with
      | late => exact .inr (h.2 ht)
      | early =>
          rw [← useRange_eq s huse, useRange, ht]
          exact .inl rfl
    have hlast (ht : op.timing = .late) {owner : Option VirtReg} {batch : Batch}
        (hg : s.Granted op owner e.batch batch) : Lasting s.instr batch :=
      hg.lasting (Operand.after_mem_occupied fun _ => ht).2.2 h.1.apart (h.2 ht)
    obtain ⟨batch, ⟨hg, rfl, -⟩ | ⟨r, hf, hg, rfl⟩⟩ := returns_addUse huse hr
    · exact ⟨h.1.keep (hu.ne_slot_of_fresh hfresh) hg (mentioned_fields p s e.draft op op k).2.1 htime,
        fun ht => hlast ht hg⟩
    · obtain ⟨-, hc, -⟩ := mentioned_fields p s e.draft op { op with constraint := .any } k
      exact ⟨h.1.copy hu hfresh huse hf hg (by rw [← hc]; rfl) htime, fun ht => hlast ht hg⟩

theorem Placed.index_lt_of_due {copies : Array OperandCopy} (hp : p.Posed)
    (hs : Placed p s b) (h : p.routine.Due copies s.instr r x) : r.index < PhysReg.count := by
  have hop {op : Operand} {k : Nat} (hmem : (op, k) ∈ (p.routine.operands s.instr).zipIdx) (hr : op.fixedReg? = some r) :
      r.index < PhysReg.count :=
    index_lt_of_fixed (hp.legible hs.block hs.mem op (List.mem_of_getElem? (List.mem_zipIdx_iff_getElem?.1 hmem))) hr
  cases h with
  | clobber hr =>
      exact (PhysReg.index_lt_iff r).2 (RegSet.isLegible_of_contains (RegSet.mem_toList.1 (List.mem_filter.1 hr).1))
  | fixed hmem hr => exact hop hmem hr
  | copy hmem hr => exact hop hmem hr

end InstrSite

/-! ## The trace -/

namespace Problem

variable {p : Problem} {t b i q : Nat} {d d' : RootDraft} {r : PhysReg} {done done' : Nat → Prop} {x : Reservation}
  {o o' : Option VirtReg}

/-- Instruction `i` is in trace `t`. -/
def InstrIn (p : Problem) (t i : Nat) : Prop := ∃ b ∈ p.traces.blocks t, i ∈ (p.routine.span b).toList

/-- The draft reserves what the instructions `done` are due, and nothing else. The reservations of each register are
apart, and so are the copies, which are for fixed uses. -/
structure Served (p : Problem) (done : Nat → Prop) (d : RootDraft) : Prop where
  apart : ∀ r, (d.reservations.of r).Pairwise fun x y => Reservation.Disjoint x.range y.range
  due : ∀ r, ∀ x ∈ d.reservations.of r, ∃ i, done i ∧ p.routine.Due d.copies i r x
  held : ∀ i r x, done i → p.routine.Due d.copies i r x → ∃ y ∈ d.reservations.of r, x.Within y
  copies : CopiesApart d.copies
  copied : ∀ c ∈ d.copies, done c.instr ∧ p.routine.ForUse c

theorem Served.congr (h : p.Served done d) (hdone : ∀ i, done' i ↔ done i) (hc : d'.copies = d.copies)
    (hr : d'.reservations = d.reservations) : p.Served done' d' := by
  obtain rfl : done' = done := funext fun i => propext (hdone i)
  refine ⟨fun r => ?_, fun r x hx => ?_, fun i r x hi hx => ?_, hc ▸ h.copies, hc ▸ h.copied⟩
  · exact hr ▸ h.apart r
  · exact hc ▸ h.due r x (hr ▸ hx)
  · exact hr ▸ h.held i r x hi (hc ▸ hx)

theorem served_empty (p : Problem) (hdone : ∀ i, ¬ done i) : p.Served done .empty := by
  refine ⟨fun r => ?_, fun r x hx => ?_, fun i r x hi => absurd hi (hdone i), .nil, by simp [RootDraft.empty]⟩
  · rw [RootDraft.empty, Reservations.of_empty]
    exact .nil
  · rw [RootDraft.empty, Reservations.of_empty] at hx
    cases hx

theorem Served.build {s : InstrSite} (hp : p.Posed) (hs : InstrSite.Placed p s b)
    (hd : d.Drafted p s.trace s.blockStart s.next s.next s.next) (h : p.Served done d)
    (hlater : ∀ j, done j → s.instr < j) (hr : Returns (s.build p d) d') :
    p.Served (fun j => j = s.instr ∨ done j) d' := by
  obtain ⟨batch, hapart, hserves, hres, hnew, hown, hcopies⟩ := hs.added_build hp hd h.copies hr
  have hdue {j : Nat} (hj : done j) (r : PhysReg) (x : Reservation) :
      p.routine.Due d'.copies j r x ↔ p.routine.Due d.copies j r x := by
    have hne : j ≠ s.instr := Nat.ne_of_gt (hlater j hj)
    exact ⟨fun hx => Reservation.Due.mono hx (fun _ hy => hy) fun _ _ => (hcopies _ hne).symm,
      fun hx => Reservation.Due.mono hx (fun _ hy => hy) fun _ _ => hcopies _ hne⟩
  refine ⟨fun r => ?_, fun r x hx => ?_, fun j r x hj hx => ?_, hnew, fun c hc => ?_⟩
  · rw [hres]
    rcases Nat.lt_or_ge r.index d.reservations.size with hindex | hindex
    · rw [Reservations.of_foldl_add hindex]
      refine List.pairwise_append.2 ⟨h.apart r, ?_, fun x hx y hy => ?_⟩
      · rw [List.pairwise_map]
        refine (hapart.apart.filter _).imp_of_mem fun hx hy hxy => hxy ?_
        have h1 := of_decide_eq_true (List.mem_filter.1 hx).2
        have h2 := of_decide_eq_true (List.mem_filter.1 hy).2
        exact h1.trans h2.symm
      · obtain ⟨e, he, rfl⟩ := List.mem_map.1 hy
        obtain ⟨j, hj, hx⟩ := h.due r x hx
        have h1 := (Reservation.Due.stretch hx).start
        have h2 := (hapart.stretch e (List.mem_filter.1 he).1).stop
        have h3 := hlater j hj
        simp only [Reservation.Disjoint, Point.before, Point.after] at h1 h2 ⊢
        omega
    · have hnil : (batch.foldl Reservations.add d.reservations).of r = [] := by
        rw [Reservations.of, Array.getD_eq_getD_getElem?, Array.getElem?_eq_none, Option.getD_none]
        rw [Reservations.size_foldl_add]
        exact hindex
      rw [hnil]
      exact .nil
  · rw [hres] at hx
    rcases Reservations.mem_foldl_add hx with hx | hx
    · obtain ⟨j, hj, hx⟩ := h.due r x hx
      exact ⟨j, .inr hj, (hdue hj r x).2 hx⟩
    · exact ⟨s.instr, .inl rfl, hserves.only _ hx⟩
  · rw [hres]
    rcases hj with rfl | hj
    · obtain ⟨y, hy, hxy⟩ := hserves.held r x hx
      refine ⟨y, ?_, hxy⟩
      rw [Reservations.of_foldl_add (hd.sized ▸ hs.index_lt_of_due hp hx)]
      exact List.mem_append_right _ (List.mem_map.2 ⟨(r, y), List.mem_filter.2 ⟨hy, by simp⟩, rfl⟩)
    · obtain ⟨y, hy, hxy⟩ := h.held j r x hj ((hdue hj r x).1 hx)
      exact ⟨y, Reservations.mem_of_foldl_add hy, hxy⟩
  · by_cases hi : c.instr = s.instr
    · exact ⟨.inl hi, hown c hc hi⟩
    · exact (h.copied c ((hcopies c hi).1 hc)).imp_left .inr

theorem Posed.served (hp : p.Posed)
    (hr : Returns ((p.traces.blocks t).reverse.foldlM (p.buildBlock t) .empty) d) : p.Served (p.InstrIn t) d := by
  have hall := hp.draft_induct (I := fun later d => p.Served (fun i => ∃ c ∈ later, i ∈ (p.routine.span c).toList) d)
    (served_empty p (by simp)) (fun as b later d d' hblocks habove hd hb => ?_) hr
  · exact hall.2
  · have hpair := hp.partition.pairwise hp.forward t
    rw [hblocks] at hpair
    have hafter : ∀ c ∈ later, ∀ j ∈ (p.routine.span c).toList, (p.routine.span b).stop ≤ j := fun c hc j hj =>
      Nat.le_trans (List.rel_of_pairwise_cons (List.pairwise_append.1 hpair).2.1 hc) (Span.mem_toList.1 hj).1
    obtain ⟨-, hcopies, hres⟩ := entered_fields p t b d
    -- of the block, the instructions from `n` on have been added
    have hblock := hp.block_induct (by simp [hblocks]) habove (I := fun n e => p.Served (fun i =>
        (∃ c ∈ later, i ∈ (p.routine.span c).toList) ∨ i ∈ (p.routine.span b).toList ∧ n ≤ i) e)
      (hd.congr (fun i => or_iff_left fun hi => ?_) hcopies hres) (fun i e e' hs he hI hr => ?_) hb
    · obtain ⟨e, -, he, rfl⟩ := hblock
      refine he.congr (fun i => ?_) rfl rfl
      rw [List.exists_mem_cons_iff, or_comm]
      exact or_congr_right (and_iff_left_of_imp fun hi => (Span.mem_toList.1 hi).1).symm
    · exact absurd (Span.mem_toList.1 hi.1).2 (Nat.not_lt.2 hi.2)
    · refine (hI.build hp hs he.drafted (fun j hj => ?_) hr).congr (fun j => ?_) rfl rfl
      · rcases hj with ⟨c, hc, hj⟩ | hj
        · exact Nat.lt_of_lt_of_le (Span.mem_toList.1 hs.mem).2 (hafter c hc j hj)
        · exact hj.2
      · have hi : i ∈ (p.routine.span b).toList := hs.mem
        rw [or_left_comm]
        refine or_congr_right ⟨fun hj => ?_, ?_⟩
        · exact (Nat.eq_or_lt_of_le hj.2).imp Eq.symm fun hlt => ⟨hj.1, hlt⟩
        · rintro (rfl | hj)
          · exact ⟨hi, Nat.le_refl _⟩
          · exact ⟨hj.1, Nat.le_of_lt hj.2⟩

theorem Served.proper (h : p.Served done d) (r : PhysReg) :
    ∀ x ∈ d.reservations.of r, x.range.start < x.range.stop := by
  intro x hx
  obtain ⟨i, -, hdue⟩ := h.due r x hx
  exact (Reservation.Due.stretch hdue).proper

theorem Served.inTrace (h : p.Served (p.InstrIn t) d) (hx : x ∈ d.reservations.of r) (q : Nat)
    (h1 : x.range.start ≤ q) (h2 : q < x.range.stop) : p.InTrace t q := by
  obtain ⟨i, ⟨b, hb, hi⟩, hdue⟩ := h.due r x hx
  obtain ⟨h3, h4⟩ := Span.mem_toList.1 hi
  have h5 := (Reservation.Due.stretch hdue).start
  have h6 := (Reservation.Due.stretch hdue).stop
  refine ⟨b, hb, ?_⟩
  simp only [Routine.first, Point.before, Point.after] at h5 h6 ⊢
  omega

theorem Served.ordered (h : p.Served done d) (r : PhysReg) :
    Ordered ((d.reservations.sorted.of r).map Reservation.range) := by
  refine ⟨?_, fun x hx => ?_⟩
  · rw [Reservations.of_sorted, List.pairwise_map]
    exact Reservation.Disjoint.sort (h.proper r) (h.apart r)
  · obtain ⟨res, hres, rfl⟩ := List.mem_map.1 hx
    exact h.proper r res (Reservations.mem_of_sorted.1 hres)

/-! ## What is kept -/

theorem Served.unique (h : p.Served done d) {y : Reservation}
    (hx : x ∈ d.reservations.of r) (hy : y ∈ d.reservations.of r) (hxq : x.At q o) (hyq : y.At q o') : x = y := by
  by_contra hne
  obtain ⟨-, h1, h2⟩ := hxq
  obtain ⟨-, h3, h4⟩ := hyq
  rcases rel_or_rel (h.apart r) hx hy hne with (h5 | h5) | (h5 | h5) <;> omega

theorem Served.kept_unique (h : p.Served done d) (hk : d.reservations.Kept r q o)
    (hk' : d.reservations.Kept r q o') : o = o' := by
  obtain ⟨x, hx, hxq⟩ := hk
  obtain ⟨y, hy, hyq⟩ := hk'
  rw [← hxq.1, ← hyq.1, h.unique hx hy hxq hyq]

theorem Served.kept (h : p.Served done d) (hi : done i) (hx : p.routine.Due d.copies i r x)
    (h1 : x.range.start ≤ q) (h2 : q < x.range.stop) : d.reservations.Kept r q x.owner := by
  obtain ⟨y, hy, hin⟩ := h.held i r x hi hx
  exact ⟨y, hy, hin.owner, Nat.le_trans hin.start h1, Nat.lt_of_lt_of_le h2 hin.stop⟩

/-- The register that an operand is fixed to is kept for its value, or for nobody if the operand is a use. -/
theorem Served.kept_of_operand {op : Operand} (h : p.Served done d) (hi : done i) (hop : op ∈ p.routine.operands i)
    (hr : op.fixedReg? = some r) : ∃ o, (o = some op.vreg ∨ o = none ∧ op.isUse = true) ∧
      ∀ q, (op.occupied i).start ≤ q → q < (op.occupied i).stop → d.reservations.Kept r q o := by
  obtain ⟨k, hk⟩ := List.mem_iff_getElem?.1 hop
  have hmem := List.mem_zipIdx_iff_getElem? (x := (op, k)).2 hk
  by_cases hc : ⟨i, k, op.vreg, r⟩ ∈ d.copies
  · obtain ⟨-, op', hop', huse, -⟩ := h.copied _ hc
    cases hk.symm.trans hop'
    exact ⟨none, .inr ⟨rfl, huse⟩, fun q => h.kept hi (.copy hmem hr hc)⟩
  · exact ⟨some op.vreg, .inl rfl, fun q => h.kept hi (.fixed hmem hr hc)⟩

theorem mem_clobberedOnly {f : Routine} (hr : (f.clobbers i).contains r = true)
    (hout : ∀ op ∈ f.operands i, op.writes = true → op.fixedReg? ≠ some r) : r ∈ f.clobberedOnly i :=
  List.mem_filter.2 ⟨RegSet.mem_toList.2 hr, by simpa using hout⟩

theorem Served.kept_clobber (h : p.Served done d) (hi : done i) (hr : (p.routine.clobbers i).contains r = true)
    (hout : ∀ op ∈ p.routine.operands i, op.writes = true → op.fixedReg? ≠ some r) :
    d.reservations.Kept r (Point.after i) none :=
  h.kept hi (.clobber (mem_clobberedOnly hr hout)) (Nat.le_refl _) (by simp only [Point.before, Point.after]; omega)

/-- The register of a copy is kept for nobody. A late use reads its copy after what the instruction clobbers. -/
theorem Served.kept_copy {c : OperandCopy} (h : p.Served done d) (hc : c ∈ d.copies) :
    ∃ op, (p.routine.operands c.instr)[c.slot]? = some op ∧ op.isUse = true ∧ op.vreg = c.vreg ∧
      op.fixedReg? = some c.reg ∧ (op.timing = .late → (p.routine.clobbers c.instr).contains c.reg = false) ∧
      ∀ q, (op.occupied c.instr).start ≤ q → q < (op.occupied c.instr).stop → d.reservations.Kept c.reg q none := by
  obtain ⟨hi, op, hop, huse, hv, hr⟩ := h.copied c hc
  have hdue : p.routine.Due d.copies c.instr c.reg ⟨op.occupied c.instr, none⟩ :=
    .copy (List.mem_zipIdx_iff_getElem? (x := (op, c.slot)).2 hop) hr (by rw [hv]; exact hc)
  refine ⟨op, hop, huse, hv, hr, fun hlate => ?_, fun q => h.kept hi hdue⟩
  rw [← Bool.not_eq_true]
  intro hclob
  obtain ⟨h1, h2, -⟩ := Operand.after_mem_occupied (i := c.instr) fun _ : op.isUse = true => hlate
  by_cases hout : ∀ op ∈ p.routine.operands c.instr, op.writes = true → op.fixedReg? ≠ some c.reg
  · obtain ⟨x, hx, hxin⟩ := h.held _ _ _ hi hdue
    obtain ⟨y, hy, hyin⟩ := h.held _ _ _ hi (.clobber (mem_clobberedOnly hclob hout))
    obtain rfl := hxin.nobody rfl
    obtain rfl := hyin.nobody rfl
    have heq := h.unique hx hy ⟨rfl, h1, h2⟩ ⟨rfl, Nat.le_refl _, by simp only [Point.before, Point.after]; omega⟩
    have hstart := (Operand.before_mem_occupied (i := c.instr) huse).1
    rw [Reservation.mk.injEq] at heq
    rw [heq.1] at hstart
    simp only [Point.before, Point.after] at hstart
    omega
  · simp only [not_forall, not_not] at hout
    obtain ⟨op', hop', hw, hr'⟩ := hout
    obtain ⟨o, ho, hkept⟩ := h.kept_of_operand hi hop' hr'
    have hnotuse : ¬ op'.isUse = true := by simp [InstrSite.isUse_eq_not_writes, hw]
    obtain ⟨h3, h4, -⟩ := Operand.after_mem_occupied (i := c.instr) fun huse' => absurd huse' hnotuse
    have hnone := h.kept_unique (hkept _ h3 h4) (h.kept hi hdue h1 h2)
    rcases ho with rfl | ⟨-, huse'⟩
    · cases hnone
    · exact hnotuse huse'

end Problem

end LinearScan
