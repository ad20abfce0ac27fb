import LinearScan.Proofs.Distinct
import LinearScan.Proofs.MoveGroups

/-!
# Values that change places inside a block

From one point of a block to the next a value stays where it is, or one recorded move takes it to its next place. Such
a move stands in front of an instruction.
-/

namespace LinearScan

open LiveRange Run

/-- The recorded moves of value `v` at the splits at one point. -/
def splitMovesOf (l : List (List Assignment.LocatedMove × List Edit)) (pos v : Nat) : List (Move VirtReg) :=
  ((l.flatMap Prod.fst).filter fun x => x.pos = pos ∧ x.rank = .split ∧ x.move.tag.num = v).map
    Assignment.LocatedMove.move

namespace Assignment

variable {p : Problem} {a : Assignment} {trs : List Transfer} {tr : Transfer} {u : VirtReg} {y pos v : Nat}
  {l : List (List LocatedMove × List Edit)}

/-- The transfers of value `v` at the splits at one point. -/
def splitsOf (trs : List Transfer) (pos v : Nat) : List Transfer :=
  trs.filter fun tr => tr.pos = pos ∧ tr.rank = .split ∧ tr.vreg.num = v

theorem mem_splitsOf : tr ∈ splitsOf trs pos v ↔ tr ∈ trs ∧ tr.pos = pos ∧ tr.rank = .split ∧ tr.vreg.num = v := by
  simp [splitsOf]

theorem splitMovesOf_perm (pos v : Nat) (hl : l.map Prod.fst = a.groupsOf trs) :
    (splitMovesOf l pos v).Perm ((splitsOf trs pos v).map fun tr => (a.locate tr).move) := by
  have hmoves : (l.flatMap Prod.fst).Perm (trs.map a.locate) := by
    rw [List.flatMap_def, hl, groupsOf, List.flatten_splitBy]
    exact List.mergeSort_perm _ _
  have hkept := (hmoves.filter fun x => x.pos = pos ∧ x.rank = .split ∧ x.move.tag.num = v).map LocatedMove.move
  rw [List.filter_map, List.map_map] at hkept
  exact hkept

theorem samePlace_of_splitTransfer (h : a.splitTransfer p u y = some tr) :
    tr.dest = .interval y ∧ a.samePlace tr.source y = false := by
  obtain ⟨iv, -, h⟩ := Option.bind_eq_some_iff.1 h
  split at h
  · cases h
  obtain ⟨x, -, h⟩ := Option.bind_eq_some_iff.1 h
  split at h
  · cases h
  rename_i hplace
  obtain rfl := Option.some.inj h
  exact ⟨rfl, by simpa using hplace⟩

end Assignment

namespace Problem.Layout

variable {p : Problem} {out : Output} {S : Layout p out} {tr : Transfer} {v q b x y : Nat} {A B : Allocation}

theorem mem_splitTransfers (h : tr ∈ p.transfers S.a) (hrank : tr.rank = .split) : tr ∈ S.a.splitTransfers p := by
  rcases List.mem_append.1 h with h | h
  · rcases List.mem_append.1 h with h | h
    · exact h
    · obtain ⟨plan, hplan, h⟩ := List.mem_flatMap.1 h
      obtain ⟨s, t, -, rfl⟩ := (Assignment.mem_edgePlans S.posed).1 hplan
      have hedge := (Assignment.of_mem_edgePlan h).2.1
      rw [hrank, Assignment.edgeRank] at hedge
      split at hedge <;> cases hedge
  · obtain ⟨c, -, h⟩ := List.mem_filterMap.1 h
    obtain ⟨x, -, rfl⟩ := Option.map_eq_some_iff.1 h
    cases hrank

/-- A transfer at a split takes its value from the place at the point before to the place at the point, and those are
different. -/
theorem eq_of_mem_splitsOf (h : tr ∈ Assignment.splitsOf (p.transfers S.a) (q + 1) v) (hA : S.Keeps x v q A)
    (hB : S.Keeps y v (q + 1) B) : tr = ⟨q + 1, .split, x, .interval y, p.value v⟩ ∧ A ≠ B := by
  obtain ⟨hmem, hpos, hrank, hv⟩ := Assignment.mem_splitsOf.1 h
  have hends : ∀ z, tr.dest = .interval z → S.a.samePlace tr.source z = false := by
    intro z hz
    obtain ⟨w, -, hw⟩ := List.mem_flatMap.1 (mem_splitTransfers hmem hrank)
    obtain ⟨root, -, hw⟩ := List.mem_flatMap.1 hw
    obtain ⟨y', -, hw⟩ := List.mem_filterMap.1 hw
    obtain ⟨hdest, hplace⟩ := Assignment.samePlace_of_splitTransfer hw
    rw [hdest] at hz
    cases hz
    exact hplace
  cases carries_of_mem hmem with
  | @split v' b' i x' y' A' B' hb hi hfirst hA' hB' =>
      obtain rfl : v' = v := by rwa [S.posed.num] at hv
      have hpos : Point.before i = q + 1 := hpos
      have hafter : Point.after (i - 1) = q := by
        simp only [Point.before, Point.after] at hpos ⊢
        omega
      rw [hafter] at hA'
      rw [hpos] at hB' ⊢
      obtain rfl := hA'.unique hA
      obtain rfl := hB'.unique hB
      refine ⟨rfl, fun heq => ?_⟩
      have hplace := hends _ rfl
      rw [(samePlace_iff hA hB).2 heq] at hplace
      cases hplace
  | edge =>
      have hrank : Assignment.edgeRank p _ = .split := hrank
      rw [Assignment.edgeRank] at hrank
      split at hrank <;> cases hrank
  | copy => cases hrank

theorem isBefore_of_moved (hA : S.At v q A) (hB : S.At v (q + 1) B) (hne : A ≠ B) : Point.isBefore (q + 1) = true := by
  rw [Point.isBefore, beq_iff_eq]
  by_contra hodd
  have hq : q = Point.before (Point.instr q) := by
    simp only [Point.before, Point.instr]
    omega
  have hq' : q + 1 = Point.after (Point.instr q) := by
    simp only [Point.after, Point.instr]
    omega
  rw [hq'] at hB
  rw [hq] at hA
  exact hne (hA.after_eq hB)

/-- Inside a block there is one transfer of a value that changes its place, and none of a value that does not. -/
theorem splitsOf_eq (hm : p.routine.Mirrored) (hb : b < p.routine.numBlocks)
    (hq : Point.instr q ∈ (p.routine.span b).toList) (hq' : Point.instr (q + 1) ∈ (p.routine.span b).toList)
    (hA : S.Keeps x v q A) (hB : S.Keeps y v (q + 1) B) : Assignment.splitsOf (p.transfers S.a) (q + 1) v =
      if A = B then [] else [⟨q + 1, .split, x, .interval y, p.value v⟩] := by
  split
  · rename_i heq
    exact List.eq_nil_iff_forall_not_mem.2 fun tr htr => (eq_of_mem_splitsOf htr hA hB).2 heq
  · rename_i hne
    have hbefore := isBefore_of_moved ⟨x, hA⟩ ⟨y, hB⟩ hne
    obtain ⟨i, hi⟩ : ∃ i, q + 1 = Point.before i := ⟨Point.instr (q + 1), by
      simp only [Point.isBefore, beq_iff_eq, Point.before, Point.instr] at hbefore ⊢
      omega⟩
    have hafter : q = Point.after (i - 1) := by
      simp only [Point.before, Point.after] at hi ⊢
      omega
    have hmoved : ⟨Point.before i, .split, x, .interval y, p.value v⟩ ∈ p.transfers S.a := by
      refine exists_splitTransfer hb ?_ (fun hfirst => ?_) (hafter ▸ hA) (hi ▸ hB) hne
      · simpa [hi, Point.instr, Point.before] using hq'
      · have hlo := (Span.mem_toList.1 hq).1
        simp only [Routine.first, Point.instr, Point.before] at *
        omega
    rw [← List.perm_singleton]
    refine (List.perm_ext_iff_of_nodup ((S.nodup_transfers hm).filter _) (List.nodup_singleton _)).2 fun tr => ?_
    rw [List.mem_singleton]
    constructor
    · exact fun htr => (eq_of_mem_splitsOf htr hA hB).1
    · rintro rfl
      exact Assignment.mem_splitsOf.2 ⟨hi ▸ hmoved, rfl, rfl, S.posed.num v⟩

theorem at_of_liveAt (hb : b < p.routine.numBlocks) (h : p.routine.LiveAt v b q) : ∃ A, S.At v q A := by
  have ht := S.posed.partition.of_lt b hb
  exact at_of_covers ht (S.posed.covers_of_liveAt (S.posed.partition.mem_of b hb) (S.allocated.trace _ ht).rooted h)

end Problem.Layout

namespace Routine

variable {f : Routine} {m : Machine} {ts : Traces} {o : Options} {plan : TracePlan} {out : Output} {v b i q : Nat}

theorem Needed.occurs (h : f.Needed v b i) (hb : b < f.numBlocks) : ∃ w ∈ f.occurrences, w.num = v := by
  induction h with
  | read hi hop _ hv => exact ⟨_, occurs_of_operand hb hi hop, hv⟩
  | pass _ _ _ ih => exact ih hb
  | argument hw hv => exact ⟨_, occurs_of_arg hb hw, hv⟩
  | edge hs _ _ ih => exact ih (lt_of_mem_preds hs)

theorem LiveAt.occurs (h : f.LiveAt v b q) (hb : b < f.numBlocks) : ∃ w ∈ f.occurrences, w.num = v := by
  cases h with
  | before _ h => exact h.occurs hb
  | after _ h => exact h.occurs hb
  | operand hi hop hv => exact ⟨_, occurs_of_operand hb hi hop, hv⟩
  | written hi hop hv => exact ⟨_, occurs_of_operand hb hi hop, hv⟩

theorem LiveAt.instr_mem (h : f.LiveAt v b q) : Point.instr q ∈ (f.span b).toList := by
  cases h with
  | before hi => simpa [Point.instr, Point.before] using hi
  | after hi => simpa [Point.instr, Point.after, Nat.mul_add_div] using hi
  | operand hi => rwa [Operand.instr_point]
  | written hi => simpa [Point.instr, Point.after, Nat.mul_add_div] using hi

/-- A value that is live at a point of a block and at the next one has its places there, under one of the names that the
routine has for it. The places are the same and there is no recorded move of the value at the second point, or that point
is before an instruction and there is one, from place to place. -/
theorem allocate_moves_within_blocks (hts : f.traces plan = .ok ts)
    (hspan : ∀ b, (f.span b).first ≤ (f.span b).stop) (hm : f.Mirrored) (h : Returns (f.allocate m ts o) out) :
    (∃ l, f.Records m ts o out l) ∧ ∀ l, f.Records m ts o out l →
      ∀ b < f.numBlocks, ∀ v q, f.LiveAt v b q → f.LiveAt v b (q + 1) →
        ∃ w ∈ f.occurrences, w.num = v ∧ (∀ u, u.num = v → u ≠ w → ∀ x, out.locationAt u x = none) ∧
          ∃ A B, out.locationAt w q = some A ∧ out.locationAt w (q + 1) = some B ∧
            (A ≠ B → Point.isBefore (q + 1) = true) ∧ splitMovesOf l (q + 1) v = if A = B then [] else [⟨A, B, w⟩] := by
  refine ⟨exists_records h, fun l hl b hb v q hlive hlive' => ?_⟩
  obtain ⟨p, a, a', frame, n, hproblem, ha, hslots, hgroups, -, -, hlocations⟩ := hl
  obtain ⟨hp, rfl, rfl, -, -⟩ := Problem.posed_of_problem hts hspan hproblem
  obtain ⟨cut, draft, hall⟩ := hp.allocated ha
  obtain ⟨slot, rfl, hslot⟩ := hall.slotsFor hp hslots
  -- locations are looked up in the records, which are those of a layout
  let records : Output := { out with
    allocs := (a.inSlots slot).operandAllocs p
    edges := (a.edgePlans p).map ((a.inSlots slot).edgeRecord p) }
  let S : p.Layout records := ⟨a, cut, draft, slot, frame, hp, hall, ⟨hslot, rfl, hlocations, rfl⟩⟩
  have hlook {u : VirtReg} {x : Nat} {A : Allocation} :
      out.locationAt u x = some A ↔ u = p.value u.num ∧ S.At u.num x A := by
    change records.locationAt u x = some A ↔ _
    exact Problem.Layout.locationAt_iff
  have hnum : (p.value v).num = v := hp.num v
  obtain ⟨w, hw, rfl⟩ := hlive.occurs hb
  obtain ⟨A, x, hA⟩ := Problem.Layout.at_of_liveAt (S := S) hb hlive
  obtain ⟨B, y, hB⟩ := Problem.Layout.at_of_liveAt (S := S) hb hlive'
  refine ⟨p.value w.num, hp.value_occurs hm hw, hnum, fun u hu hne x => ?_, A, B, hlook.2 ⟨by rw [hnum], ?_⟩,
    hlook.2 ⟨by rw [hnum], ?_⟩, Problem.Layout.isBefore_of_moved ⟨x, hA⟩ ⟨y, hB⟩, ?_⟩
  · refine Option.eq_none_iff_forall_ne_some.2 fun C hC => hne ?_
    rw [(hlook.1 hC).1, hu]
  · exact hnum.symm ▸ ⟨x, hA⟩
  · exact hnum.symm ▸ ⟨y, hB⟩
  · have hperm := Assignment.splitMovesOf_perm (q + 1) w.num hgroups
    rw [Problem.Layout.splitsOf_eq (S := S) hm hb hlive.instr_mem hlive'.instr_mem hA hB] at hperm
    split
    · rename_i heq
      rw [if_pos heq] at hperm
      exact hperm.eq_nil
    · rename_i hne
      rw [if_neg hne] at hperm
      rw [List.perm_singleton.1 hperm]
      change [(⟨(a.inSlots slot).allocOf x, (a.inSlots slot).allocOf y, p.value w.num⟩ : Move VirtReg)] = _
      rw [hA.allocOf, hB.allocOf]

/-- A value goes from its register to the stack before the call, and the record of its places has one move for that. -/
theorem allocate_moves_within_blocks_acrossCall : ∃ out l,
    Returns (acrossCall.allocate (.ints 2) acrossCallTraces .standard) out ∧
    acrossCall.Records (.ints 2) acrossCallTraces .standard out l ∧
    acrossCall.LiveAt 0 0 (Point.after 1) ∧ acrossCall.LiveAt 0 0 (Point.before 2) ∧
    splitMovesOf l (Point.before 2) 0 = [⟨.reg ⟨0, some .int⟩, .stack ⟨0⟩, ⟨0, some .int⟩⟩] := by
  obtain ⟨out, hrun, -, hreg, hstack, -⟩ := acrossCall_returns
  have hread : acrossCall.Needed 0 0 3 :=
    .read (by decide) (List.mem_cons_self : _ ∈ acrossCall.operands 3) rfl rfl
  have hneeded : acrossCall.Needed 0 0 2 := .pass (by decide) (by decide) hread
  have hafter : acrossCall.LiveAt 0 0 (Point.after 1) := .after (by decide) hneeded
  have hbefore : acrossCall.LiveAt 0 0 (Point.before 2) := .before (by decide) hneeded
  obtain ⟨⟨l, hl⟩, hmoves⟩ := allocate_moves_within_blocks acrossCall_traces (forward_of_blocks (by decide)) (by decide) hrun
  obtain ⟨w, -, -, hother, A, B, hA, hB, -, hsplit⟩ := hmoves l hl 0 (by decide) 0 (Point.after 1) hafter hbefore
  obtain rfl : w = ⟨0, some .int⟩ := by
    by_contra hne
    have hnone := hother ⟨0, some .int⟩ rfl (fun he => hne he.symm) (Point.after 1)
    rw [hreg] at hnone
    cases hnone
  cases hreg.symm.trans hA
  cases hstack.symm.trans hB
  exact ⟨out, l, hrun, hl, hafter, hbefore, hsplit⟩

end Routine

end LinearScan
