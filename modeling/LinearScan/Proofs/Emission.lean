import LinearScan.Proofs.Frame
import LinearScan.Proofs.Move.Route
import Mathlib.Data.List.SplitBy

/-!
# From transfers to edits

The located moves of one point and one rank become edits that do at once what the moves say. The edits of
a result are those of all groups in the order of points and ranks.
-/

namespace LinearScan

open Run

/-- The contents of the locations after edits. -/
def Edit.performAll {α : Type} (edits : List Edit) (σ : Allocation → α) : Allocation → α :=
  edits.foldl (fun σ e => Function.update σ e.dest (σ e.source)) σ

theorem Edit.performAll_append {α : Type} (xs ys : List Edit) (σ : Allocation → α) :
    performAll (xs ++ ys) σ = performAll ys (performAll xs σ) := List.foldl_append

theorem Edit.performAll_moves {α τ : Type} (ms : List (Move τ)) (pos : Nat) (c : RegClass) (σ : Allocation → α) :
    performAll (ms.map fun m => ⟨pos, m.source, m.dest, c⟩) σ = Move.perform ms σ := by
  induction ms generalizing σ with
  | nil => rfl
  | cons m ms ih => exact ih _

/-- A machine whose registers are listed once and under their own classes. -/
structure Machine.Orderly (m : Machine) : Prop where
  nodup : ∀ c, (m.allocatable c).Nodup
  cls : ∀ c, ∀ r ∈ m.allocatable c, r.cls? = some c
  scratch : ∀ c r, m.scratch.get c = some r → ∀ d, r ∉ m.allocatable d

namespace Assignment

variable {p : Problem} {a : Assignment} {pos base : Nat} {c : RegClass} {group all : List (Move VirtReg)} {e e' : Emission}
  {x : Move VirtReg} {m : Machine} {r : PhysReg}

/-- What moves at the point may overwrite besides their destinations: scratch registers, registers that
hold nothing, and the slots behind those of values. -/
def Spoilt (p : Problem) (a : Assignment) (base pos : Nat) (group : List (Move VirtReg)) (x : Allocation) : Prop :=
  (∃ c r, p.machine.scratch.get c = some r ∧ x = .reg r) ∨
    (∃ c, ∃ r ∈ p.machine.allocatable c, x = .reg r ∧ (a.heldIn r).overlaps (.point pos) = false ∧
      Move.Avoids group x) ∨
    ∃ s : SpillSlot, x = .stack s ∧ base ≤ s.index

/-- Moves that can be made at once, class by class. -/
structure Makeable (m : Machine) (base : Nat) (group : List (Move VirtReg)) : Prop where
  real : Move.Avoids group .none
  below : ∀ x ∈ group, ∀ s, x.source = .stack s ∨ x.dest = .stack s → s.index < base
  cls : ∀ x ∈ group, ∀ r, x.source = .reg r ∨ x.dest = .reg r → r.cls? = x.tag.cls?
  scratch : ∀ c r, m.scratch.get c = some r → Move.Avoids group (.reg r)
  slots : ∀ x ∈ group, ∀ y ∈ group, x.tag.cls? ≠ y.tag.cls? → ∀ s, x.dest = .stack s →
    y.source ≠ .stack s ∧ y.dest ≠ .stack s

theorem Makeable.mono (h : Makeable m base all) (hsub : ∀ x ∈ group, x ∈ all) : Makeable m base group where
  real x hx := h.real x (hsub x hx)
  below x hx := h.below x (hsub x hx)
  cls x hx := h.cls x (hsub x hx)
  scratch c r hr x hx := h.scratch c r hr x (hsub x hx)
  slots x hx y hy := h.slots x (hsub x hx) y (hsub y hy)

theorem Spoilt.mono {x : Allocation} (h : Spoilt p a base pos group x)
    (hsub : ∀ m ∈ all, m ∈ group) : Spoilt p a base pos all x := by
  rcases h with h | ⟨c, r, hr, rfl, hheld, havoid⟩ | h
  · exact .inl h
  · exact .inr (.inl ⟨c, r, hr, rfl, hheld, fun m hm => havoid m (hsub m hm)⟩)
  · exact .inr (.inr h)

theorem Makeable.apart (h : Makeable m base group) {y : Move VirtReg} (hx : x ∈ group) (hy : y ∈ group)
    (hne : x.tag.cls? ≠ y.tag.cls?) : x.dest ≠ y.source ∧ x.dest ≠ y.dest := by
  cases hdest : x.dest with
  | none => exact absurd hdest (h.real x hx).2
  | reg r =>
      have hr := h.cls x hx r (.inr hdest)
      refine ⟨fun heq => hne ?_, fun heq => hne ?_⟩
      · rw [← hr, h.cls y hy r (.inl heq.symm)]
      · rw [← hr, h.cls y hy r (.inr heq.symm)]
  | stack s =>
      have hs := h.slots x hx y hy hne s hdest
      exact ⟨hs.1.symm, hs.2.symm⟩

theorem Makeable.not_spoilt (h : Makeable p.machine base group) (hx : x ∈ group) :
    ¬ Spoilt p a base pos group x.source ∧ ¬ Spoilt p a base pos group x.dest := by
  constructor
  · rintro (⟨c, r, hr, heq⟩ | ⟨c, r, -, -, -, havoid⟩ | ⟨s, heq, hs⟩)
    · exact (h.scratch c r hr x hx).1 heq
    · exact (havoid x hx).1 rfl
    · exact Nat.not_lt.2 hs (h.below x hx s (.inl heq))
  · rintro (⟨c, r, hr, heq⟩ | ⟨c, r, -, -, -, havoid⟩ | ⟨s, heq, hs⟩)
    · exact (h.scratch c r hr x hx).2 heq
    · exact (havoid x hx).2 rfl
    · exact Nat.not_lt.2 hs (h.below x hx s (.inr heq))

/-! ## The moves of one class -/

theorem Makeable.free_avoids (h : Makeable m base group) (hr : r.cls? = some c)
    (havoid : Move.Avoids (group.filter (·.tag.cls = c)) (.reg r)) : Move.Avoids group (.reg r) := by
  intro x hx
  by_cases hc : x.tag.cls = c
  · exact havoid x (List.mem_filter.2 ⟨hx, by simpa using hc⟩)
  · have hne : ∀ y, x.source = y ∨ x.dest = y → y ≠ .reg r := by
      rintro y hy rfl
      have hcls := h.cls x hx r hy
      rw [hr] at hcls
      exact hc (by simp [VirtReg.cls, ← hcls])
    exact ⟨hne _ (.inl rfl), hne _ (.inr rfl)⟩

theorem mem_freeRegs (h : r ∈ a.freeRegs p c pos group) : r ∈ p.machine.allocatable c ∧
    Move.Avoids group (.reg r) ∧ (a.heldIn r).overlaps (.point pos) = false := by
  obtain ⟨hr, hfree⟩ := List.mem_filter.1 (List.mem_of_mem_take h)
  simp only [Bool.and_eq_true, Bool.not_eq_true', ← Bool.not_eq_true, List.contains_iff_mem] at hfree
  refine ⟨hr, fun m hm => ?_, by simpa using hfree.1.2⟩
  have hbusy : ∀ x : Allocation, x = m.source ∨ x = m.dest → x ≠ .reg r := by
    rintro x hx rfl
    refine hfree.1.1 (List.mem_flatMap.2 ⟨m, hm, ?_⟩)
    rcases hx with hx | hx
    · simp [← hx, Allocation.reg?]
    · simp [← hx, Allocation.reg?]
  exact ⟨hbusy _ (.inl rfl), hbusy _ (.inr rfl)⟩

/-- The scratch locations of a class at a point. -/
def scratchAt (p : Problem) (a : Assignment) (pos : Nat) (c : RegClass) (group : List (Move VirtReg)) : Scratch where
  free := a.freeRegs p c pos group
  dedicated := p.machine.scratch.get c
  victim := (p.machine.allocatable c).head?
  stackToStackOk := p.stackToStack.get c

theorem mem_scratchAt_regs : r ∈ (scratchAt p a pos c group).regs ↔
    p.machine.scratch.get c = some r ∨ r ∈ a.freeRegs p c pos group := by
  simp [Scratch.regs, scratchAt]

theorem scratchAt_apart (hnodup : (p.machine.allocatable c).Nodup)
    (hscratch : ∀ r, p.machine.scratch.get c = some r → r ∉ p.machine.allocatable c ∧ Move.Avoids group (.reg r))
    (hbelow : ∀ x ∈ group, ∀ s, x.source = .stack s ∨ x.dest = .stack s → s.index < base) {frame frame' : Frame}
    {spares : List Nat} (hframe : frame.Spared base) (hsorted : spares.Pairwise (· ≤ ·))
    (hs : spares.foldlM (Frame.withSpare p.routine c) frame = .ok frame') :
    (scratchAt p a pos c group).Apart (frame.spare p.routine c) spares group := by
  have hspares := (Frame.spares_spec hsorted hs).2
  have hframe' := hframe.withSpares hs
  refine ⟨?_, fun r hr => ?_, fun n hn => ?_, fun n hn => ?_, fun n hn k hk hne heq => ?_⟩
  · refine List.nodup_append.2 ⟨?_, ?_, fun r hr q hq heq => ?_⟩
    · cases (scratchAt p a pos c group).dedicated <;> simp
    · exact ((List.take_sublist _ _).trans List.filter_sublist).nodup hnodup
    · subst heq
      exact (hscratch r (by simpa [scratchAt] using hr)).1 (mem_freeRegs hq).1
  · rcases mem_scratchAt_regs.1 hr with hr | hr
    · exact (hscratch r hr).2
    · exact (mem_freeRegs hr).2.1
  · obtain ⟨s, hs, -⟩ := hspares n hn
    rw [hs]
    rfl
  · obtain ⟨s, hs, hget⟩ := hspares n hn
    have hbase := (hframe'.slot c s (List.mem_of_getElem? hget)).1
    rw [hs]
    exact fun m hm => ⟨fun heq => Nat.not_lt.2 hbase (hbelow m hm s (.inl heq)),
      fun heq => Nat.not_lt.2 hbase (hbelow m hm s (.inr heq))⟩
  · obtain ⟨s, hs, hget⟩ := hspares n hn
    obtain ⟨t, ht, hget'⟩ := hspares k hk
    rw [hs, ht] at heq
    cases heq
    exact hne ((List.getElem?_inj (List.getElem?_eq_some_iff.1 hget).1 (hframe'.nodup c)).1 (hget.trans hget'.symm))

theorem routed_of_emitGroup (h : Returns (a.emitGroup p pos c group e) e') :
    ∃ seq ms result spares frame, Move.sequentialize group = .ok seq ∧
      seq.fill ((scratchAt p a pos c group).cycle (e.frame.spare p.routine c)) = .ok ms ∧
      Sequence.Routed (scratchAt p a pos c group) (e.frame.spare p.routine c) seq ms (some result) spares ∧
      spares.foldlM (Frame.withSpare p.routine c) e.frame = .ok frame ∧
      e' = ⟨frame, e.edits ++ (result.map fun m => ⟨pos, m.source, m.dest, c⟩).toArray⟩ := by
  obtain ⟨seq, hseq, h⟩ := h.bind
  obtain ⟨_, -, h⟩ := h.bind
  obtain ⟨_, -, h⟩ := h.bind
  obtain ⟨routing, hroute, h⟩ := h.bind
  obtain ⟨_, -, h⟩ := h.bind
  obtain ⟨frame, hspares, h⟩ := h.bind
  replace hroute : seq.route (scratchAt p a pos c group) (e.frame.spare p.routine c) = .ok routing := hroute.of_sound
  obtain ⟨ms, hfill⟩ := Sequence.fill_of_route hroute
  obtain ⟨routing', hroute', hrouted⟩ := Sequence.route_routed hfill
  cases Except.ok.inj (hroute.symm.trans hroute')
  split at h
  · rename_i result hresult
    obtain ⟨_, -, h⟩ := h.bind
    rw [hresult] at hrouted
    exact ⟨seq, ms, result, _, frame, hseq.of_sound, hfill, hrouted, hspares.of_sound, h.of_pure.symm⟩
  · exact h.of_refuse.elim

theorem returns_emitGroup (hm : p.machine.Orderly) (hall : Makeable p.machine base all)
    (hgroup : group = all.filter (·.tag.cls = c)) (hframe : e.frame.Spared base)
    (h : Returns (a.emitGroup p pos c group e) e') :
    e'.frame.Spared base ∧ ∃ edits : List Edit, e'.edits.toList = e.edits.toList ++ edits ∧
      (∀ x ∈ edits, x.point = pos) ∧ ∀ (α : Type) (σ : Allocation → α),
        Move.AtOnce (Move.active group) (Spoilt p a base pos all) σ (Edit.performAll edits σ) := by
  have hg : Makeable p.machine base group := hall.mono fun x hx => (List.mem_filter.1 (hgroup ▸ hx)).1
  obtain ⟨seq, ms, result, spares, frame, hseq, hfill, hrouted, hspares, rfl⟩ := routed_of_emitGroup h
  obtain ⟨hpending, hord⟩ := Move.ordered_of_sequentialize hg.real hseq
  have hapart : (scratchAt p a pos c group).Apart (e.frame.spare p.routine c) spares group :=
    scratchAt_apart (hm.nodup c) (fun r hr => ⟨hm.scratch c r hr c, hg.scratch c r hr⟩) hg.below hframe
      hrouted.spares_sorted hspares
  have hscratch : seq.needsScratch = true → (scratchAt p a pos c group).cycle (e.frame.spare p.routine c) ≠ .none ∧
      Move.Avoids (Move.active group) ((scratchAt p a pos c group).cycle (e.frame.spare p.routine c)) := by
    intro hneeds
    have hspoilt : (scratchAt p a pos c group).Spoilt (e.frame.spare p.routine c) spares _ :=
      Scratch.cycle_spoilt hrouted.cycleSpares_subset hneeds
    exact ⟨hapart.ne_none_of_spoilt hspoilt, (hapart.avoids_spoilt hspoilt).active⟩
  obtain ⟨ms', hfill', hfilled⟩ := Sequence.fill_ok hpending hord
    (fun m hm => (hg.real.active m hm).1) hscratch
  cases Except.ok.inj (hfill.symm.trans hfill')
  refine ⟨hframe.withSpares hspares, _, by simp only [Array.toList_append]; rfl, fun x hx => ?_, fun α σ => ?_⟩
  · obtain ⟨m, -, rfl⟩ := List.mem_map.1 hx
    rfl
  · rw [Edit.performAll_moves]
    refine (hrouted.effect hapart hfilled σ).mono fun x hx => ?_
    rcases hx with ⟨r, hr, rfl⟩ | ⟨n, hn, rfl⟩
    · rcases mem_scratchAt_regs.1 hr with hr | hr
      · exact .inl ⟨c, r, hr, rfl⟩
      · obtain ⟨halloc, havoid, hheld⟩ := mem_freeRegs hr
        exact .inr (.inl ⟨c, r, halloc, rfl, hheld, hall.free_avoids (hm.cls c r halloc) (hgroup ▸ havoid)⟩)
    · obtain ⟨s, hs, hget⟩ := (Frame.spares_spec hrouted.spares_sorted hspares).2 n hn
      exact .inr (.inr ⟨s, hs, ((hframe.withSpares hspares).slot c s (List.mem_of_getElem? hget)).1⟩)

/-! ## The moves of one point and rank -/

section Classes

variable {done : List RegClass} {e1 e2 : Emission}

/-- The moves of the listed classes. -/
def inClasses (done : List RegClass) (all : List (Move VirtReg)) : List (Move VirtReg) :=
  all.filter fun m => done.contains m.tag.cls

theorem mem_active_inClasses :
    x ∈ Move.active (inClasses done all) ↔ x ∈ Move.active all ∧ x.tag.cls ∈ done := by
  rw [Move.mem_active, Move.mem_active, inClasses, List.mem_filter, List.contains_iff_mem, and_right_comm]

/-- The edits between `e` and `e'` make the moves of the listed classes. -/
structure Made (p : Problem) (a : Assignment) (base pos : Nat) (all : List (Move VirtReg)) (done : List RegClass)
    (e e' : Emission) : Prop where
  frame : e'.frame.Spared base
  edits : ∃ edits : List Edit, e'.edits.toList = e.edits.toList ++ edits ∧ (∀ x ∈ edits, x.point = pos) ∧
    ∀ (α : Type) (σ : Allocation → α), Move.AtOnce (Move.active (inClasses done all)) (Spoilt p a base pos all) σ
      (Edit.performAll edits σ)

theorem Made.nil (h : e.frame.Spared base) : Made p a base pos all [] e e := by
  refine ⟨h, [], by simp, by simp, fun α σ => ?_⟩
  have hnil : inClasses [] all = [] := List.filter_eq_nil_iff.2 (by simp)
  rw [hnil]
  exact .refl_nil _ σ

theorem Made.skip (h : Made p a base pos all done e e1) (hnone : all.filter (·.tag.cls = c) = []) :
    Made p a base pos all (done ++ [c]) e e1 := by
  obtain ⟨edits, hedits, hpoint, heffect⟩ := h.edits
  refine ⟨h.frame, edits, hedits, hpoint, fun α σ => (heffect α σ).congr fun m => ?_⟩
  rw [mem_active_inClasses, mem_active_inClasses]
  refine and_congr_right fun hm => ?_
  have hne : m.tag.cls ≠ c := fun hc => by
    have hmem : m ∈ all.filter (·.tag.cls = c) := List.mem_filter.2 ⟨(Move.mem_active.1 hm).1, by simpa using hc⟩
    rw [hnone] at hmem
    cases hmem
  simp [hne]

theorem Made.emit (hm : p.machine.Orderly) (hall : Makeable p.machine base all)
    (hlegible : ∀ m ∈ all, m.tag.cls? = some m.tag.cls) (hnew : c ∉ done) (h : Made p a base pos all done e e1)
    (hr : Returns (a.emitGroup p pos c (all.filter (·.tag.cls = c)) e1) e2) :
    Made p a base pos all (done ++ [c]) e e2 := by
  obtain ⟨edits, hedits, hpoint, heffect⟩ := h.edits
  obtain ⟨hframe2, edits2, hedits2, hpoint2, heffect2⟩ := returns_emitGroup hm hall rfl h.frame hr
  refine ⟨hframe2, edits ++ edits2, by rw [hedits2, hedits, List.append_assoc], fun x hx => ?_, fun α σ => ?_⟩
  · rcases List.mem_append.1 hx with hx | hx
    · exact hpoint x hx
    · exact hpoint2 x hx
  · rw [Edit.performAll_append]
    have hold : ∀ x ∈ Move.active (inClasses done all), x ∈ all ∧ x.tag.cls ≠ c := by
      intro x hx
      obtain ⟨hx, hdone⟩ := mem_active_inClasses.1 hx
      exact ⟨(Move.mem_active.1 hx).1, fun hc => hnew (hc ▸ hdone)⟩
    have hcur : ∀ x ∈ Move.active (all.filter (·.tag.cls = c)), x ∈ all ∧ x.tag.cls = c := by
      intro x hx
      simpa using List.mem_filter.1 (Move.mem_active.1 hx).1
    refine ((heffect α σ).append (heffect2 α _) (fun x hx y hy => ?_) (fun x hx => ?_) fun y hy => ?_).congr fun m => ?_
    · refine hall.apart (hold x hx).1 (hcur y hy).1 fun heq => (hold x hx).2 ?_
      rw [hlegible x (hold x hx).1, hlegible y (hcur y hy).1, (hcur y hy).2] at heq
      exact Option.some.inj heq
    · exact (hall.not_spoilt (hold x hx).1).2
    · exact (hall.not_spoilt (hcur y hy).1).1
    · rw [List.mem_append, mem_active_inClasses, mem_active_inClasses, Move.mem_active, Move.mem_active, List.mem_filter]
      simp only [decide_eq_true_eq, List.mem_append, List.mem_singleton]
      rw [@and_right_comm (m ∈ all) (m.tag.cls = c), ← and_or_left]

end Classes

/-- The edits of a group do what its moves do at once. -/
structure Emits (p : Problem) (a : Assignment) (base : Nat) (group : List LocatedMove) (edits : List Edit) : Prop where
  point : ∀ x ∈ edits, ∀ m ∈ group, x.point = m.pos
  effect : ∀ pos, (∀ m ∈ group, m.pos = pos) → ∀ (α : Type) (σ : Allocation → α),
    Move.AtOnce (Move.active (group.map LocatedMove.move)) (Spoilt p a base pos (group.map LocatedMove.move)) σ
      (Edit.performAll edits σ)

theorem returns_emitGroups {group : List LocatedMove} (hm : p.machine.Orderly)
    (hg : Makeable p.machine base (group.map LocatedMove.move)) (hsame : ∀ x ∈ group, ∀ y ∈ group, x.pos = y.pos)
    (hframe : e.frame.Spared base) (h : Returns (a.emitGroups p e group) e') :
    e'.frame.Spared base ∧ ∃ edits : List Edit, e'.edits.toList = e.edits.toList ++ edits ∧
      Emits p a base group edits := by
  cases group with
  | nil =>
      obtain rfl := h.of_pure
      exact ⟨hframe, [], by simp, by simp, fun _ _ _ σ => .refl_nil _ σ⟩
  | cons first rest =>
      obtain ⟨_, hlegible, h⟩ := h.bind
      have hlegible : ∀ m ∈ (first :: rest).map LocatedMove.move, m.tag.cls? = some m.tag.cls := by
        intro m hm
        obtain ⟨x, hx, rfl⟩ := List.mem_map.1 hm
        exact VirtReg.cls?_eq (List.all_eq_true.1 hlegible.of_demand x hx)
      have hmade : Made p a base first.pos ((first :: rest).map LocatedMove.move) RegClass.all e e' := by
        refine Returns.foldlM_append (I := fun done e1 =>
            Made p a base first.pos ((first :: rest).map LocatedMove.move) done e e1)
          (fun done c more e1 e2 hsplit hdone hr => ?_) (.nil hframe) h
        have hnew : c ∉ done := by
          have hnd : RegClass.all.Nodup := by decide
          rw [hsplit] at hnd
          exact fun hc => (List.nodup_append.1 hnd).2.2 c hc c (by simp) rfl
        dsimp only at hr
        split at hr
        · rename_i hempty
          obtain rfl := hr.of_pure
          exact hdone.skip (List.isEmpty_iff.1 hempty)
        · exact hdone.emit hm hg hlegible hnew hr
      obtain ⟨edits, hedits, hpoint, heffect⟩ := hmade.edits
      refine ⟨hmade.frame, edits, hedits, fun x hx m hm => ?_, fun pos hpos α σ => ?_⟩
      · rw [hpoint x hx]
        exact hsame first (by simp) m hm
      · obtain rfl := hpos first (by simp)
        refine (heffect α σ).congr fun m => ?_
        rw [mem_active_inClasses]
        exact and_iff_left (RegClass.mem_all _)

/-! ## All groups -/

namespace LocatedMove

variable {x y : LocatedMove} {xs : List LocatedMove} {gs : List (List LocatedMove)}

/-- The place of a move in the order of points and ranks. -/
def key (x : LocatedMove) : Nat := 4 * x.pos + x.rank.index

theorem rank_lt (r : TransferRank) : r.index < 4 := by
  cases r <;> decide

theorem rank_inj {r r' : TransferRank} (h : r.index = r'.index) : r = r' := by
  cases r <;> cases r' <;> first | rfl | cases h

theorem key_eq {pos : Nat} {rank : TransferRank} : x.key = 4 * pos + rank.index ↔ x.pos = pos ∧ x.rank = rank := by
  have hx := rank_lt x.rank
  have hrank := rank_lt rank
  unfold key
  constructor
  · intro h
    exact ⟨by omega, rank_inj (by omega)⟩
  · rintro ⟨rfl, rfl⟩
    rfl

theorem key_eq_iff : x.key = y.key ↔ x.pos = y.pos ∧ x.rank = y.rank := key_eq

theorem sameGroup_iff : x.sameGroup y = true ↔ x.key = y.key := by
  simp [sameGroup, key_eq_iff]

theorem notAfter_iff : x.notAfter y = true ↔ x.key ≤ y.key := by
  have hx := rank_lt x.rank
  have hy := rank_lt y.rank
  simp only [notAfter, key, Bool.or_eq_true, Bool.and_eq_true, decide_eq_true_eq, beq_iff_eq]
  omega

/-- The place of the first move of a group. -/
def groupKey (g : List LocatedMove) : Nat := (g.head?.map key).getD 0

/-- Moves in groups: each group has one point and rank, and the groups come in order. -/
structure Grouped (xs : List LocatedMove) (gs : List (List LocatedMove)) : Prop where
  nonempty : ∀ g ∈ gs, g ≠ []
  key_eq : ∀ g ∈ gs, ∀ x ∈ g, x.key = groupKey g
  increasing : gs.Pairwise fun g h => groupKey g < groupKey h
  mem : ∀ x, (∃ g ∈ gs, x ∈ g) ↔ x ∈ xs

theorem Grouped.same (h : Grouped xs gs) : ∀ g ∈ gs, ∀ x ∈ g, ∀ y ∈ g, x.key = y.key := fun g hg x hx y hy =>
  (h.key_eq g hg x hx).trans (h.key_eq g hg y hy).symm

theorem Grouped.mem_of_key {g : List LocatedMove} (h : Grouped xs gs) (hg : g ∈ gs)
    (hx : x ∈ g) (hy : y ∈ xs) (hkey : y.key = x.key) : y ∈ g := by
  obtain ⟨g', hg', hy⟩ := (h.mem y).2 hy
  by_contra hnot
  have hsymm : Std.Symm fun g h : List LocatedMove => groupKey g ≠ groupKey h := ⟨fun _ _ => Ne.symm⟩
  refine (h.increasing.imp (S := fun g h => groupKey g ≠ groupKey h) Nat.ne_of_lt).forall hg hg'
    (fun he => hnot (he ▸ hy)) ?_
  rw [← h.key_eq g hg x hx, ← h.key_eq g' hg' y hy, hkey]

theorem grouped_of_sorted (h : xs.Pairwise fun x y => x.key ≤ y.key) : Grouped xs (xs.splitBy sameGroup) := by
  have hsame : ∀ g ∈ xs.splitBy sameGroup, ∀ x ∈ g, ∀ y ∈ g, x.key = y.key := by
    intro g hg
    have hchain := (List.isChain_of_mem_splitBy hg).imp fun x y hxy => sameGroup_iff.1 hxy
    have hall := List.isChain_iff_pairwise.1 ((List.isChain_map key).2 hchain)
    exact fun x hx y hy => List.Pairwise.forall_of_forall (fun _ _ => rfl) hall (List.mem_map_of_mem hx)
      (List.mem_map_of_mem hy)
  have hsorted := List.pairwise_flatten.1 ((List.flatten_splitBy sameGroup xs).symm ▸ h)
  -- neighbouring groups differ, and so do all
  have hfirst : ∀ g ∈ xs.splitBy sameGroup, ∀ x ∈ g, x.key = groupKey g := by
    intro g hg x hx
    obtain ⟨y, rest, rfl⟩ := List.exists_cons_of_ne_nil (List.ne_nil_of_mem hx)
    exact hsame _ hg x hx y (by simp)
  have hlt : (xs.splitBy sameGroup).Pairwise fun g h => groupKey g < groupKey h := by
    refine List.pairwise_map.1 (List.isChain_iff_pairwise.1 ((List.isChain_map _).2 (List.isChain_iff_getElem.2 ?_)))
    intro i hi
    have hmem := List.getElem_mem (Nat.lt_of_succ_lt hi)
    have hmem' := List.getElem_mem hi
    obtain ⟨hne, hne', hdiff⟩ := List.isChain_iff_getElem.1 (List.isChain_getLast_head_splitBy sameGroup xs) i hi
    have hle := List.pairwise_iff_getElem.1 hsorted.2 i (i + 1) (Nat.lt_of_succ_lt hi) hi (Nat.lt_succ_self i) _
      (List.getLast_mem hne) _ (List.head_mem hne')
    rw [← hfirst _ hmem _ (List.getLast_mem hne), ← hfirst _ hmem' _ (List.head_mem hne')]
    exact Nat.lt_of_le_of_ne hle fun heq => by simp [sameGroup_iff.2 heq] at hdiff
  refine ⟨fun g hg => List.ne_nil_of_mem_splitBy hg, hfirst, hlt, fun x => ?_⟩
  conv_rhs => rw [← List.flatten_splitBy sameGroup xs]
  exact List.mem_flatten.symm

theorem grouped_sort (xs : List LocatedMove) : Grouped xs ((xs.mergeSort notAfter).splitBy sameGroup) := by
  have hsorted : (xs.mergeSort notAfter).Pairwise fun x y => x.key ≤ y.key := by
    refine (List.pairwise_mergeSort (fun x y z => ?_) (fun x y => ?_) xs).imp notAfter_iff.1
    · rw [notAfter_iff, notAfter_iff, notAfter_iff]
      exact Nat.le_trans
    · rw [Bool.or_eq_true, notAfter_iff, notAfter_iff]
      exact Nat.le_total _ _
  have h := grouped_of_sorted hsorted
  exact ⟨h.nonempty, h.key_eq, h.increasing, fun x => (h.mem x).trans (List.mergeSort_perm xs notAfter).mem_iff⟩

end LocatedMove

/-! ## All moves -/

variable {trs : List Transfer} {frame : Frame} {rank : TransferRank} {gs : List (List LocatedMove)}
  {l : List (List LocatedMove × List Edit)}

/-- The moves of the transfers at one point and rank. -/
def movesAt (a : Assignment) (trs : List Transfer) (pos : Nat) (rank : TransferRank) : List (Move VirtReg) :=
  ((trs.map a.locate).filter fun x => x.pos = pos ∧ x.rank = rank).map LocatedMove.move

theorem mem_movesAt {m : Move VirtReg} : m ∈ a.movesAt trs pos rank ↔
    ∃ x ∈ trs.map a.locate, (x.pos = pos ∧ x.rank = rank) ∧ x.move = m := by
  simp only [movesAt, List.mem_map, List.mem_filter, decide_eq_true_eq, and_assoc]

/-- Groups of moves that are emitted one after another, each with the edits that it becomes. -/
inductive EmitsGroups (p : Problem) (a : Assignment) : Emission → List (List LocatedMove × List Edit) → Prop where
  | nil {e : Emission} : EmitsGroups p a e []
  | cons {e e' : Emission} {group : List LocatedMove} {edits : List Edit} {l : List (List LocatedMove × List Edit)} :
      Returns (a.emitGroups p e group) e' → e'.edits.toList = e.edits.toList ++ edits → EmitsGroups p a e' l →
      EmitsGroups p a e ((group, edits) :: l)

theorem exists_edits_emitGroup (h : Returns (a.emitGroup p pos c group e) e') :
    ∃ edits, e'.edits.toList = e.edits.toList ++ edits ∧ ∀ x ∈ edits, x.point = pos := by
  obtain ⟨-, -, result, -, -, -, -, -, -, rfl⟩ := routed_of_emitGroup h
  exact ⟨_, Array.toList_append, by simp⟩

theorem exists_edits_emitGroups {group : List LocatedMove} (h : Returns (a.emitGroups p e group) e') :
    ∃ edits, e'.edits.toList = e.edits.toList ++ edits ∧ ∀ x ∈ edits, ∃ m ∈ group, x.point = m.pos := by
  cases group with
  | nil =>
      obtain rfl := h.of_pure
      exact ⟨[], (List.append_nil _).symm, nofun⟩
  | cons first rest =>
      obtain ⟨_, -, h⟩ := h.bind
      refine Returns.foldlM_induct (I := fun e1 : Emission => ∃ edits, e1.edits.toList = e.edits.toList ++ edits ∧
        ∀ x ∈ edits, ∃ m ∈ first :: rest, x.point = m.pos) (fun e1 c e2 _ hedits hr => ?_)
        ⟨[], (List.append_nil _).symm, nofun⟩ h
      obtain ⟨edits, hedits, hpoint⟩ := hedits
      dsimp only at hr
      split at hr
      · obtain rfl := hr.of_pure
        exact ⟨edits, hedits, hpoint⟩
      · obtain ⟨more, hmore, hat⟩ := exists_edits_emitGroup hr
        refine ⟨edits ++ more, by rw [hmore, hedits, List.append_assoc], List.forall_mem_append.2 ⟨hpoint, ?_⟩⟩
        exact fun x hx => ⟨first, List.mem_cons_self, hat x hx⟩

theorem exists_emitsGroups (h : Returns (gs.foldlM (a.emitGroups p) e) e') :
    ∃ l, l.map Prod.fst = gs ∧ EmitsGroups p a e l ∧ e'.edits.toList = e.edits.toList ++ l.flatMap Prod.snd := by
  induction gs generalizing e with
  | nil =>
      obtain rfl := h.of_pure
      exact ⟨[], rfl, .nil, by simp⟩
  | cons g gs ih =>
      rw [List.foldlM_cons] at h
      obtain ⟨e1, hg, h⟩ := h.bind
      obtain ⟨edits, hedits, -⟩ := exists_edits_emitGroups hg
      obtain ⟨l, hl, hemits, hall⟩ := ih h
      exact ⟨(g, edits) :: l, by rw [List.map_cons, hl], .cons hg hedits hemits, by simp [hall, hedits]⟩

theorem EmitsGroups.point (h : EmitsGroups p a e l) : ∀ c ∈ l, ∀ x ∈ c.2, ∃ m ∈ c.1, x.point = m.pos := by
  induction h with
  | nil => simp
  | cons hr hedits _ ih =>
      obtain ⟨edits', hedits', hpoint⟩ := exists_edits_emitGroups hr
      obtain rfl := List.append_cancel_left (hedits.symm.trans hedits')
      exact List.forall_mem_cons.2 ⟨hpoint, ih⟩

theorem EmitsGroups.emits (hm : p.machine.Orderly)
    (hl : ∀ c ∈ l, Makeable p.machine base (c.1.map LocatedMove.move) ∧ ∀ x ∈ c.1, ∀ y ∈ c.1, x.pos = y.pos)
    (hframe : e.frame.Spared base) (h : EmitsGroups p a e l) : ∀ c ∈ l, Emits p a base c.1 c.2 := by
  induction h with
  | nil => simp
  | @cons e e' group edits l hr hedits _ ih =>
      obtain ⟨hmake, hsame⟩ := hl _ List.mem_cons_self
      obtain ⟨hframe', edits', hedits', hemits⟩ := returns_emitGroups hm hmake hsame hframe hr
      obtain rfl := List.append_cancel_left (hedits.symm.trans hedits')
      exact List.forall_mem_cons.2 ⟨hemits, ih (fun c hc => hl c (List.mem_cons_of_mem _ hc)) hframe'⟩

/-- The groups of located moves, in the order in which they are emitted. -/
def groupsOf (a : Assignment) (trs : List Transfer) : List (List LocatedMove) :=
  ((trs.map a.locate).mergeSort LocatedMove.notAfter).splitBy LocatedMove.sameGroup

theorem grouped_groupsOf (a : Assignment) (trs : List Transfer) :
    LocatedMove.Grouped (trs.map a.locate) (a.groupsOf trs) := LocatedMove.grouped_sort _

/-- What holds at first and after the moves of each class at each point holds of all that is emitted. -/
theorem emitMoves_induct {I : Emission → Prop} (hstart : I ⟨frame, #[]⟩)
    (hstep : ∀ pos c group e e', (∀ m ∈ group, m ∈ trs.map (fun tr => (a.locate tr).move) ∧ m.tag.cls = c) → I e →
      Returns (a.emitGroup p pos c group e) e' → I e')
    (h : Returns (a.emitMoves p trs frame) e) : I e := by
  refine Returns.foldlM_induct (I := I) (fun e1 g e2 hg he1 hr => ?_) hstart h
  cases g with
  | nil => exact hr.of_pure ▸ he1
  | cons first rest =>
      obtain ⟨_, -, hr⟩ := hr.bind
      refine Returns.foldlM_induct (I := I) (fun e3 c e4 _ he3 hr => ?_) he1 hr
      dsimp only at hr
      split at hr
      · exact hr.of_pure ▸ he3
      · refine hstep _ c _ e3 e4 (fun m hm => ?_) he3 hr
        obtain ⟨hm, hcls⟩ := List.mem_filter.1 hm
        obtain ⟨x, hx, rfl⟩ := List.mem_map.1 hm
        obtain ⟨tr, htr, rfl⟩ := List.mem_map.1 (((grouped_groupsOf a trs).mem x).1 ⟨_, hg, hx⟩)
        exact ⟨List.mem_map_of_mem htr, by simpa using hcls⟩

theorem LocatedMove.Grouped.mem_movesAt {g : List LocatedMove} {x : LocatedMove}
    (h : LocatedMove.Grouped (trs.map a.locate) gs) (hg : g ∈ gs) (hx : x ∈ g) (m : Move VirtReg) :
    m ∈ a.movesAt trs x.pos x.rank ↔ m ∈ g.map LocatedMove.move := by
  rw [Assignment.mem_movesAt, List.mem_map]
  constructor
  · rintro ⟨y, hy, hkey, rfl⟩
    exact ⟨y, h.mem_of_key hg hx hy (LocatedMove.key_eq_iff.2 hkey), rfl⟩
  · rintro ⟨y, hy, rfl⟩
    exact ⟨y, (h.mem y).1 ⟨g, hg, hy⟩, LocatedMove.key_eq_iff.1 (h.same g hg y hy x hx), rfl⟩

theorem placed_of_emitMoves (h : Returns (a.emitMoves p trs frame) e) :
    (e.edits.toList.Pairwise fun x y => x.point ≤ y.point) ∧ ∀ x ∈ e.edits.toList, ∃ t ∈ trs, t.pos = x.point := by
  have hgrouped := grouped_groupsOf a trs
  obtain ⟨l, hl, hemits, hedits⟩ := exists_emitsGroups h
  have hl : l.map Prod.fst = a.groupsOf trs := hl
  have hpoint := hemits.point
  rw [hedits]
  rw [← hl] at hgrouped
  have hsame : ∀ c ∈ l, ∀ m ∈ c.1, ∀ m' ∈ c.1, m.pos = m'.pos := fun c hc m hm m' hm' =>
    (LocatedMove.key_eq_iff.1 (hgrouped.same _ (List.mem_map_of_mem hc) m hm m' hm')).1
  refine ⟨List.pairwise_flatMap.2 ⟨fun c hc => ?_, ?_⟩, fun x hx => ?_⟩
  · refine List.pairwise_of_forall_mem_list fun x hx y hy => ?_
    obtain ⟨m, hm, hxm⟩ := hpoint c hc x hx
    obtain ⟨m', hm', hym⟩ := hpoint c hc y hy
    rw [hxm, hym, hsame c hc m hm m' hm']
  · refine (List.pairwise_map.1 hgrouped.increasing).imp_of_mem fun {c d} hc hd hlt x hx y hy => ?_
    obtain ⟨m, hm, hxm⟩ := hpoint c hc x hx
    obtain ⟨m', hm', hym⟩ := hpoint d hd y hy
    rw [← hgrouped.key_eq _ (List.mem_map_of_mem hc) m hm, ← hgrouped.key_eq _ (List.mem_map_of_mem hd) m' hm'] at hlt
    have := LocatedMove.rank_lt m.rank
    have := LocatedMove.rank_lt m'.rank
    unfold LocatedMove.key at hlt
    rw [hxm, hym]
    omega
  · obtain ⟨c, hc, hx⟩ := List.mem_flatMap.1 hx
    obtain ⟨m, hm, hxm⟩ := hpoint c hc x hx
    obtain ⟨t, ht, hloc⟩ := List.mem_map.1 ((hgrouped.mem m).1 ⟨c.1, List.mem_map_of_mem hc, hm⟩)
    exact ⟨t, ht, by rw [hxm, ← hloc]; rfl⟩

theorem EmitsGroups.emits_of_makeable (hm : p.machine.Orderly)
    (hg : ∀ pos rank, Makeable p.machine base (a.movesAt trs pos rank)) (hframe : e.frame.Spared base)
    (hl : l.map Prod.fst = a.groupsOf trs) (h : EmitsGroups p a e l) : ∀ c ∈ l, Emits p a base c.1 c.2 := by
  have hgrouped := grouped_groupsOf a trs
  refine h.emits hm (fun c hc => ?_) hframe
  have hmem : c.1 ∈ a.groupsOf trs := hl ▸ List.mem_map_of_mem hc
  obtain ⟨x, hx⟩ := List.exists_mem_of_ne_nil _ (hgrouped.nonempty _ hmem)
  exact ⟨(hg x.pos x.rank).mono fun m => (hgrouped.mem_movesAt hmem hx m).2, fun y hy z hz =>
    (LocatedMove.key_eq_iff.1 (hgrouped.same _ hmem y hy z hz)).1⟩

theorem EmitsGroups.legible (h : EmitsGroups p a e l) : ∀ c ∈ l, ∀ x ∈ c.1, x.move.tag.isLegible = true := by
  induction h with
  | nil => simp
  | @cons e e' group edits l hr _ _ ih =>
      refine List.forall_mem_cons.2 ⟨fun x hx => ?_, ih⟩
      cases group with
      | nil => cases hx
      | cons first rest =>
          obtain ⟨_, hlegible, -⟩ := hr.bind
          exact List.all_eq_true.1 hlegible.of_demand x hx

theorem legible_of_emitsGroups (hl : l.map Prod.fst = a.groupsOf trs)
    (h : EmitsGroups p a e l) : ∀ t ∈ trs, t.vreg.isLegible = true := by
  intro t ht
  obtain ⟨g, hg, hx⟩ := ((grouped_groupsOf a trs).mem (a.locate t)).2 (List.mem_map_of_mem ht)
  rw [← hl] at hg
  obtain ⟨c, hc, rfl⟩ := List.mem_map.1 hg
  exact h.legible c hc _ hx

theorem legible_of_emitMoves (h : Returns (a.emitMoves p trs frame) e) : ∀ t ∈ trs, t.vreg.isLegible = true := by
  obtain ⟨l, hl, hemits, -⟩ := exists_emitsGroups h
  exact legible_of_emitsGroups hl hemits

/-- The moves of the listed ranks at one point, made rank by rank. -/
def InTurn (p : Problem) (a : Assignment) (base : Nat) (trs : List Transfer) (pos : Nat) {α : Type} :
    List TransferRank → (Allocation → α) → (Allocation → α) → Prop
  | [], σ, σ' => σ' = σ
  | r :: rs, σ, σ' => ∃ σ1, Move.AtOnce (Move.active (a.movesAt trs pos r))
      (Spoilt p a base pos (a.movesAt trs pos r)) σ σ1 ∧ (a.movesAt trs pos r = [] → σ1 = σ) ∧
        InTurn p a base trs pos rs σ1 σ'

/-- What the edits of transfers do at each point. -/
structure Emitted (p : Problem) (a : Assignment) (base : Nat) (trs : List Transfer) (edits : List Edit) : Prop where
  sorted : edits.Pairwise fun x y => x.point ≤ y.point
  origin : ∀ x ∈ edits, ∃ t ∈ trs, t.pos = x.point
  turn : ∀ (pos : Nat) (α : Type) (σ : Allocation → α),
    InTurn p a base trs pos [.inEdge, .split, .copy, .outEdge] σ
      (Edit.performAll (edits.filter fun x => x.point = pos) σ)

theorem filter_or_eq_append {α : Type} {p q : α → Bool} {l : List α} (hdis : ∀ x, p x = true → q x = false)
    (h : l.Pairwise fun x y => q x = true → p y = false) :
    l.filter (fun x => p x || q x) = l.filter p ++ l.filter q := by
  induction l with
  | nil => rfl
  | cons x l ih =>
      obtain ⟨hx, hl⟩ := List.pairwise_cons.1 h
      cases hp : p x with
      | true => simp [hp, hdis x hp, ih hl]
      | false =>
          cases hq : q x with
          | true =>
              have hnone : l.filter p = [] := List.filter_eq_nil_iff.2 fun y hy => by simp [hx y hy hq]
              simp [hp, hq, ih hl, hnone]
          | false => simp [hp, hq, ih hl]

section Points

open LocatedMove

variable {l : List (List LocatedMove × List Edit)}

/-- The group of moves at a point and rank, with its edits, and nothing if there are no moves. -/
def groupAt (l : List (List LocatedMove × List Edit)) (pos : Nat) (rank : TransferRank) :
    List (List LocatedMove × List Edit) := l.filter fun c => groupKey c.1 = 4 * pos + rank.index

theorem groupAt_cases (h : Grouped (trs.map a.locate) (l.map Prod.fst)) (pos : Nat) (rank : TransferRank) :
    (groupAt l pos rank = [] ∧ a.movesAt trs pos rank = []) ∨
      ∃ c ∈ l, groupAt l pos rank = [c] ∧ (∀ m ∈ c.1, m.pos = pos) ∧ a.movesAt trs pos rank ≠ [] ∧
        ∀ m, m ∈ a.movesAt trs pos rank ↔ m ∈ c.1.map LocatedMove.move := by
  have hmem {c : List LocatedMove × List Edit} : c ∈ groupAt l pos rank ↔ c ∈ l ∧ groupKey c.1 = 4 * pos + rank.index := by
    simp [groupAt, List.mem_filter]
  have hkey {c : List LocatedMove × List Edit} (hc : c ∈ l) {x : LocatedMove} (hx : x ∈ c.1) :
      x.key = groupKey c.1 := h.key_eq _ (List.mem_map_of_mem hc) x hx
  cases hgroup : groupAt l pos rank with
  | nil =>
      refine .inl ⟨rfl, List.eq_nil_iff_forall_not_mem.2 fun m hm => ?_⟩
      obtain ⟨x, hx, hat, -⟩ := mem_movesAt.1 hm
      obtain ⟨g, hg, hxg⟩ := (h.mem x).2 hx
      obtain ⟨c, hc, rfl⟩ := List.mem_map.1 hg
      cases (hgroup ▸ hmem.2 ⟨hc, (hkey hc hxg).symm.trans (key_eq.2 hat)⟩ : c ∈ [])
  | cons c rest =>
      have hin (d : List LocatedMove × List Edit) (hd : d ∈ c :: rest) := hmem.1 (hgroup ▸ hd)
      obtain ⟨hc, hck⟩ := hin c List.mem_cons_self
      have hrest : rest = [] := by
        refine List.eq_nil_iff_forall_not_mem.2 fun d hd => ?_
        have hlt : (groupAt l pos rank).Pairwise _ := (List.pairwise_map.1 h.increasing).filter _
        have hlt := List.rel_of_pairwise_cons (hgroup ▸ hlt) hd
        rw [hck, (hin d (List.mem_cons_of_mem _ hd)).2] at hlt
        exact Nat.lt_irrefl _ hlt
      have hat (x : LocatedMove) (hx : x ∈ c.1) := key_eq.1 ((hkey hc hx).trans hck)
      obtain ⟨y, hy⟩ := List.exists_mem_of_ne_nil c.1 (h.nonempty _ (List.mem_map_of_mem hc))
      obtain ⟨rfl, rfl⟩ := hat y hy
      have hmoves := h.mem_movesAt (List.mem_map_of_mem hc) hy
      exact .inr ⟨c, hc, by rw [hrest], fun m hm => (hat m hm).1,
        List.ne_nil_of_mem ((hmoves _).2 (List.mem_map_of_mem hy)), hmoves⟩

/-- The edits at one point make the moves there in the order of their ranks. -/
theorem inTurn_of_grouped {α : Type} {ranks : List TransferRank} (hranks : ranks.Pairwise fun r r' => r.index < r'.index)
    (h : Grouped (trs.map a.locate) (l.map Prod.fst)) (hemits : ∀ c ∈ l, Emits p a base c.1 c.2) (σ : Allocation → α) :
    InTurn p a base trs pos ranks σ
      (Edit.performAll ((l.filter fun c => ranks.any fun r => groupKey c.1 = 4 * pos + r.index).flatMap Prod.snd) σ) := by
  induction ranks generalizing σ with
  | nil =>
      rw [List.filter_eq_nil_iff.2 (by simp)]
      rfl
  | cons rank ranks ih =>
      obtain ⟨hrank, hranks⟩ := List.pairwise_cons.1 hranks
      have hsplit := filter_or_eq_append (l := l) (p := fun c => groupKey c.1 = 4 * pos + rank.index)
        (q := fun c => ranks.any fun r => groupKey c.1 = 4 * pos + r.index) (fun c hc => ?_)
        ((List.pairwise_map.1 h.increasing).imp fun {c d} hlt hc => ?_)
      · simp only [List.any_cons]
        rw [hsplit, List.flatMap_append, Edit.performAll_append]
        refine ⟨_, ?_, ?_, ih hranks _⟩
        · rcases groupAt_cases h pos rank with ⟨hnone, hempty⟩ | ⟨c, hc, hone, hpos, -, hmem⟩
          · rw [groupAt] at hnone
            rw [hnone, hempty]
            exact .refl_nil _ σ
          · rw [groupAt] at hone
            rw [hone, List.flatMap_singleton]
            refine (((hemits c hc).effect pos hpos α σ).congr fun m => ?_).mono fun x hx => hx.mono fun m => (hmem m).1
            rw [Move.mem_active, Move.mem_active, hmem]
        · rcases groupAt_cases h pos rank with ⟨hnone, -⟩ | ⟨c, -, -, -, hne, -⟩
          · rw [groupAt] at hnone
            rw [hnone]
            exact fun _ => rfl
          · exact fun hempty => absurd hempty hne
      · simp only [decide_eq_true_eq] at hc
        simp only [List.any_eq_false, decide_eq_true_eq]
        intro r hr heq
        have := hrank r hr
        omega
      · simp only [List.any_eq_true, decide_eq_true_eq] at hc
        obtain ⟨r, hr, hkey⟩ := hc
        have := hrank r hr
        simp only [decide_eq_false_iff_not]
        omega

theorem filter_edits (h : Grouped (trs.map a.locate) (l.map Prod.fst)) (hemits : ∀ c ∈ l, Emits p a base c.1 c.2)
    (pos : Nat) : ((l.flatMap Prod.snd).filter fun x => x.point = pos) = (l.filter fun c =>
      [.inEdge, .split, .copy, .outEdge].any fun r : TransferRank => groupKey c.1 = 4 * pos + r.index).flatMap Prod.snd := by
  have hpoint : ∀ c ∈ l, ∀ x ∈ c.2, x.point = pos ↔
      ([.inEdge, .split, .copy, .outEdge].any fun r : TransferRank => groupKey c.1 = 4 * pos + r.index) = true := by
    intro c hc x hx
    obtain ⟨y, hy⟩ := List.exists_mem_of_ne_nil c.1 (h.nonempty _ (List.mem_map_of_mem hc))
    rw [(hemits c hc).point x hx y hy, ← h.key_eq _ (List.mem_map_of_mem hc) y hy]
    simp only [List.any_eq_true, decide_eq_true_eq, key_eq]
    exact ⟨fun hpos => ⟨y.rank, by cases y.rank <;> simp, hpos, rfl⟩, fun ⟨_, _, hpos, _⟩ => hpos⟩
  clear h hemits
  induction l with
  | nil => rfl
  | cons c l ih =>
      obtain ⟨hc, hl⟩ := List.forall_mem_cons.1 hpoint
      rw [List.flatMap_cons, List.filter_append, ih hl, List.filter_cons]
      split
      · rename_i hany
        rw [List.flatMap_cons, List.filter_eq_self.2 fun x hx => by simpa using (hc x hx).2 hany]
      · rename_i hany
        rw [List.filter_eq_nil_iff.2 fun x hx hat => hany ((hc x hx).1 (by simpa using hat)), List.nil_append]

end Points

theorem emitted_of_emitMoves (hm : p.machine.Orderly)
    (hg : ∀ pos rank, Makeable p.machine base (a.movesAt trs pos rank)) (hframe : frame.Spared base)
    (h : Returns (a.emitMoves p trs frame) e) : Emitted p a base trs e.edits.toList := by
  obtain ⟨hsorted, horigin⟩ := placed_of_emitMoves h
  refine ⟨hsorted, horigin, fun pos α σ => ?_⟩
  obtain ⟨l, hl, hgroups, hedits⟩ := exists_emitsGroups h
  have hemits := hgroups.emits_of_makeable hm hg hframe hl
  have hgrouped : LocatedMove.Grouped (trs.map a.locate) (l.map Prod.fst) := hl ▸ grouped_groupsOf a trs
  have hedits : e.edits.toList = l.flatMap Prod.snd := hedits
  rw [hedits, filter_edits hgrouped hemits]
  exact inTurn_of_grouped (by simp [TransferRank.index]) hgrouped hemits σ

end Assignment

end LinearScan
