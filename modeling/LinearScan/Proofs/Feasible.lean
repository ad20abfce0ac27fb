import LinearScan.Proofs.Recorded
import LinearScan.Proofs.Room
import LinearScan.Proofs.Transfers

/-!
# Emitting moves

Moves of one point and rank that go to different places, and use neither scratch registers nor slots behind those
of values, can always be ordered and routed. They may be refused for want of a register.
-/

namespace LinearScan

open LiveRange Run

theorem Run.Safe.forM {α : Type} {l : List α} {g : α → Run PUnit} (hg : ∀ x ∈ l, Safe (g x) fun _ => True) :
    Safe (l.forM g) fun _ => True := by
  induction l with
  | nil => exact Safe.pure trivial
  | cons x l ih =>
      exact (hg x List.mem_cons_self).bind fun _ _ _ => ih fun y hy => hg y (List.mem_cons_of_mem _ hy)

/-- What allocation relies on from start to end. -/
structure Problem.Furnished (p : Problem) (most : RegClass) : Prop extends p.Sturdy where
  scratch : ∀ c r, p.machine.scratch.get c = some r → ∀ d, r ∉ p.machine.allocatable d
  unnamed : p.routine.Unnamed p.machine
  sized : p.routine.Sized most
  /-- Each value may take a slot, and each class two more. -/
  room : (p.values.size + 6) * p.routine.slotSizes.get most ≤ SpillSlot.maxIndex + 1

namespace Assignment

variable {p : Problem} {a : Assignment} {pos base : Nat} {c most : RegClass} {group all : List (Move VirtReg)}
  {e : Emission} {trs : List Transfer} {frame : Frame}

/-- Moves that can be ordered and routed. -/
structure Feasible (m : Machine) (base : Nat) (group : List (Move VirtReg)) : Prop where
  real : Move.Avoids group .none
  below : ∀ x ∈ group, ∀ s, x.source = .stack s ∨ x.dest = .stack s → s.index < base
  scratch : ∀ c r, m.scratch.get c = some r → Move.Avoids group (.reg r)
  distinct : (group.map Move.dest).Nodup

theorem Feasible.sublist {m : Machine} (h : Feasible m base all) (hsub : group.Sublist all) : Feasible m base group where
  real x hx := h.real x (hsub.subset hx)
  below x hx := h.below x (hsub.subset hx)
  scratch c r hr x hx := h.scratch c r hr x (hsub.subset hx)
  distinct := (hsub.map _).nodup h.distinct

/-- The frame of an emission has its spare slots behind those of values, and room for more. -/
def Emission.Open (p : Problem) (most : RegClass) (base : Nat) (e : Emission) : Prop :=
  e.frame.Spared base ∧ e.frame.Roomy p.routine most p.values.size

theorem safe_emitGroup (hp : p.Furnished most) (hg : Feasible p.machine base group) (he : e.Open p most base) :
    Safe (a.emitGroup p pos c group e) (Emission.Open p most base) := by
  obtain ⟨hspared, hroomy⟩ := he
  obtain ⟨hpending, seq, hseq, hord⟩ := Move.sequentialize_ordered hg.real
    ((List.filter_sublist.map _).nodup hg.distinct)
  -- both spare slots can be had, whether or not they are asked for
  obtain ⟨frame01, h01, -⟩ := hroomy.exists_withSpares (c := c) hp.sized hp.room fun n (hn : n ∈ [0, 1]) => hn
  have hapart : (scratchAt p a pos c group).Apart (e.frame.spare p.routine c) [0, 1] group :=
    scratchAt_apart (hp.nodup c) (fun r hr => ⟨hp.scratch c r hr c, hg.scratch c r hr⟩) hg.below hspared (by simp) h01
  obtain ⟨ms, hfill, -⟩ := Sequence.fill_ok hpending hord (fun m hm => (hg.real.active m hm).1) (hapart.cycle_usable seq)
  obtain ⟨routing, hroute, hrouted⟩ := Sequence.route_routed hfill
  obtain ⟨frame', hspares, hroomy'⟩ := hroomy.exists_withSpares (c := c) hp.sized hp.room hrouted.spares_subset
  have hfree : (a.freeRegs p c pos group).all PhysReg.isLegible = true :=
    List.all_eq_true.2 fun r hr => hp.allocatable c r (mem_freeRegs hr).1
  refine (Safe.sound hseq).bind fun seq' _ heq => ?_
  subst heq
  refine (Safe.forM fun n _ => Safe.emit _).bind fun _ _ _ => Safe.demand_bind hfree ?_
  refine (Safe.sound hroute).bind fun routing' _ heq => ?_
  subst heq
  refine (Safe.forM fun n _ => Safe.emit _).bind fun _ _ _ => (Safe.sound hspares).bind fun frame1 _ heq => ?_
  subst heq
  split
  · exact (Safe.forM fun m _ => Safe.emit _).bind fun _ _ _ => Safe.pure ⟨hspared.withSpares hspares, hroomy'⟩
  · exact Safe.refuse

theorem safe_emitGroups {g : List LocatedMove} (hp : p.Furnished most)
    (hg : Feasible p.machine base (g.map LocatedMove.move)) (hleg : ∀ x ∈ g, x.move.tag.isLegible = true)
    (he : e.Open p most base) : Safe (a.emitGroups p e g) (Emission.Open p most base) := by
  cases g with
  | nil => exact Safe.pure he
  | cons first rest =>
      refine Safe.demand_bind (List.all_eq_true.2 hleg) (Safe.foldlM he fun e1 c _ he1 => ?_)
      dsimp only
      split
      · exact Safe.pure he1
      · exact safe_emitGroup hp (hg.sublist List.filter_sublist) he1

/-- Transfers that can be made. -/
structure Transferable (p : Problem) (a : Assignment) (base : Nat) (trs : List Transfer) : Prop where
  legible : ∀ t ∈ trs, t.vreg.isLegible = true
  real : ∀ t ∈ trs, a.allocOf t.source ≠ .none ∧ a.destOf t.dest ≠ .none
  below : ∀ t ∈ trs, ∀ s, a.allocOf t.source = .stack s ∨ a.destOf t.dest = .stack s → s.index < base
  scratch : ∀ t ∈ trs, ∀ c r, p.machine.scratch.get c = some r →
    a.allocOf t.source ≠ .reg r ∧ a.destOf t.dest ≠ .reg r
  apart : trs.Pairwise fun t u => t.pos = u.pos → t.rank = u.rank → a.destOf t.dest ≠ a.destOf u.dest

theorem sublist_of_group {g : List LocatedMove} (hg : g ∈ a.groupsOf trs) :
    g.Sublist ((trs.map a.locate).mergeSort LocatedMove.notAfter) := by
  have hsub := List.sublist_flatten_of_mem hg
  rwa [groupsOf, List.flatten_splitBy] at hsub

theorem Transferable.feasible {g : List LocatedMove} (h : Transferable p a base trs) (hg : g ∈ a.groupsOf trs) :
    Feasible p.machine base (g.map LocatedMove.move) := by
  have hgrouped := grouped_groupsOf a trs
  have hmem : ∀ m ∈ g.map LocatedMove.move, ∃ t ∈ trs, m = (a.locate t).move := by
    intro m hm
    obtain ⟨x, hx, rfl⟩ := List.mem_map.1 hm
    obtain ⟨t, ht, rfl⟩ := List.mem_map.1 ((hgrouped.mem x).1 ⟨g, hg, hx⟩)
    exact ⟨t, ht, rfl⟩
  refine ⟨fun m hm => ?_, fun m hm => ?_, fun c r hr m hm => ?_, ?_⟩
  · obtain ⟨t, ht, rfl⟩ := hmem m hm
    exact h.real t ht
  · obtain ⟨t, ht, rfl⟩ := hmem m hm
    exact h.below t ht
  · obtain ⟨t, ht, rfl⟩ := hmem m hm
    exact h.scratch t ht c r hr
  · have hall : ((trs.map a.locate).mergeSort LocatedMove.notAfter).Pairwise fun x y =>
        x.key = y.key → x.move.dest ≠ y.move.dest := by
      refine (List.mergeSort_perm _ _).symm.pairwise (List.pairwise_map.2 (h.apart.imp fun {t u} htu hkey => ?_))
        fun {x y} hxy hkey => (hxy hkey.symm).symm
      obtain ⟨hpos, hrank⟩ := LocatedMove.key_eq_iff.1 hkey
      exact htu hpos hrank
    rw [List.map_map]
    refine List.pairwise_map.2 ((hall.sublist (sublist_of_group hg)).imp_of_mem fun {x y} hx hy hxy => ?_)
    exact hxy (hgrouped.same g hg x hx y hy)

theorem safe_emitMoves (hp : p.Furnished most) (h : Transferable p a base trs) (hspared : frame.Spared base)
    (hroomy : frame.Roomy p.routine most p.values.size) : Safe (a.emitMoves p trs frame) fun _ => True := by
  have hrun : Safe ((a.groupsOf trs).foldlM (a.emitGroups p) ⟨frame, #[]⟩) (Emission.Open p most base) := by
    refine Safe.foldlM ⟨hspared, hroomy⟩ fun e g hg he => safe_emitGroups hp (h.feasible hg) (fun x hx => ?_) he
    obtain ⟨t, ht, rfl⟩ := List.mem_map.1 (((grouped_groupsOf a trs).mem x).1 ⟨g, hg, hx⟩)
    exact h.legible t ht
  exact hrun.mono fun _ _ _ => trivial

end Assignment

end LinearScan
