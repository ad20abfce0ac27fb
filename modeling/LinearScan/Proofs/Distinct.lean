import LinearScan.Proofs.Feasible

/-!
# Every transfer has a place of its own

An assignment has no transfer twice, and transfers of one point and rank go to different places. So all transfers
can be made, and finishing an assignment breaks no assertion.
-/

namespace LinearScan

open LiveRange Run

theorem Family.root_eq {ivs : Array Interval} {root root' id : Nat} {origin origin' : Interval}
    (h : Family ivs root origin) (h' : Family ivs root' origin') (hid : id ∈ familyOf ivs root)
    (hid' : id ∈ familyOf ivs root') : root = root' := by
  obtain ⟨iv, hiv, hparent, -⟩ := h.member id hid
  obtain ⟨jv, hjv, hparent', -⟩ := h'.member id hid'
  obtain rfl := Option.some.inj (hiv.symm.trans hjv)
  rw [hparent] at hparent'
  split at hparent' <;> split at hparent' <;> simp_all

namespace Assignment

variable {p : Problem} {a : Assignment} {v y : Nat} {tr : Transfer}

theorem of_splitTransfer (h : a.splitTransfer p (p.value v) y = some tr) :
    ∃ pos x, tr = ⟨pos, .split, x, .interval y, p.value v⟩ := by
  obtain ⟨iv, -, h⟩ := Option.bind_eq_some_iff.1 h
  split at h
  · cases h
  · obtain ⟨x, -, h⟩ := Option.bind_eq_some_iff.1 h
    split at h
    · cases h
    · exact ⟨iv.start, x, (Option.some.inj h).symm⟩

theorem of_mem_splitTransfers (h : tr ∈ a.splitTransfers p) : tr.rank = .split ∧ ∃ v, tr.vreg = p.value v := by
  obtain ⟨v, -, h⟩ := List.mem_flatMap.1 h
  obtain ⟨root, -, h⟩ := List.mem_flatMap.1 h
  obtain ⟨y, -, h⟩ := List.mem_filterMap.1 h
  obtain ⟨pos, x, rfl⟩ := of_splitTransfer h
  exact ⟨rfl, v, rfl⟩

end Assignment

theorem Problem.Posed.transfer_value {p : Problem} {n : Nat} {cut : Nat → Nat} {draft : Nat → RootDraft} {a : Assignment}
    {tr : Transfer} (hp : p.Posed) (hm : p.routine.Mirrored) (hc : p.routine.OneClass) (ha : p.Allocated n cut draft a)
    (htr : tr ∈ p.transfers a) : ∃ v, tr.vreg = p.value v := by
  rcases List.mem_append.1 htr with htr | htr
  · rcases List.mem_append.1 htr with htr | htr
    · exact (Assignment.of_mem_splitTransfers htr).2
    · obtain ⟨plan, hplan, htr⟩ := List.mem_flatMap.1 htr
      obtain ⟨s, t, hs, rfl⟩ := (Assignment.mem_edgePlans hp).1 hplan
      obtain ⟨-, -, src, he⟩ := Assignment.of_mem_edgePlan htr
      exact ⟨_, (Layout.edgeValues_dst hp hm hc (Routine.lt_of_mem_preds hs) he).symm⟩
  · obtain ⟨c, hcopy, htr⟩ := List.mem_filterMap.1 htr
    obtain ⟨x, -, rfl⟩ := Option.map_eq_some_iff.1 htr
    rw [ha.copies] at hcopy
    obtain ⟨t, ht, hcopy⟩ := List.mem_flatMap.1 hcopy
    obtain ⟨⟨b, hb, hi⟩, op, hop, -, hvreg, -⟩ :=
      (ha.trace t (List.mem_range.1 ht)).rooted.served.copied c (Array.mem_toList_iff.1 hcopy)
    have hocc := Routine.occurs_of_operand (hp.lt_of_mem hb) hi (List.mem_of_getElem? hop)
    exact ⟨_, hvreg.symm.trans (hp.value_eq hm hc hocc).symm⟩

namespace Problem.Layout

variable {p : Problem} {out : Output} (S : Layout p out)

/-! ## No transfer twice -/

theorem nodup_splitTransfers : (S.a.splitTransfers p).Nodup := by
  have hfamily : ∀ v, ∀ root ∈ S.a.rootsOf v, ∃ origin, Family S.a.intervals root origin := by
    intro v root hroot
    obtain ⟨t, ht, k, origin, hk, -, rfl⟩ := (S.allocated.roots v root).1 hroot
    exact ⟨origin, (S.allocated.trace t ht).family k origin hk⟩
  refine List.nodup_flatMap.2 ⟨fun v _ => List.nodup_flatMap.2 ⟨fun root hroot => ?_, ?_⟩, ?_⟩
  · obtain ⟨origin, hf⟩ := hfamily v root hroot
    refine .filterMap (fun y y' tr htr htr' => ?_) ((List.drop_sublist 1 _).nodup hf.nodup)
    obtain ⟨pos, x, rfl⟩ := Assignment.of_splitTransfer htr
    obtain ⟨pos', x', heq⟩ := Assignment.of_splitTransfer htr'
    simp only [Transfer.mk.injEq, TransferDest.interval.injEq] at heq
    exact heq.2.2.2.1
  · refine (S.allocated.nodup v).pairwise_of_forall_ne fun root hroot root' hroot' hne tr htr htr' => hne ?_
    obtain ⟨origin, hf⟩ := hfamily v root hroot
    obtain ⟨origin', hf'⟩ := hfamily v root' hroot'
    obtain ⟨y, hy, htr⟩ := List.mem_filterMap.1 htr
    obtain ⟨y', hy', htr'⟩ := List.mem_filterMap.1 htr'
    obtain ⟨pos, x, rfl⟩ := Assignment.of_splitTransfer htr
    obtain ⟨pos', x', heq⟩ := Assignment.of_splitTransfer htr'
    simp only [Transfer.mk.injEq, TransferDest.interval.injEq] at heq
    exact hf.root_eq hf' (List.mem_of_mem_drop hy) (heq.2.2.2.1 ▸ List.mem_of_mem_drop hy')
  · refine List.nodup_range.pairwise_of_forall_ne fun v _ v' _ hne tr htr htr' => hne ?_
    have hvreg : ∀ v, tr ∈ ((S.a.rootsOf v).flatMap fun root =>
        ((S.a.family root).drop 1).filterMap (S.a.splitTransfer p (p.value v))) → tr.vreg = p.value v := by
      intro v htr
      obtain ⟨root, -, htr⟩ := List.mem_flatMap.1 htr
      obtain ⟨y, -, htr⟩ := List.mem_filterMap.1 htr
      obtain ⟨pos, x, rfl⟩ := Assignment.of_splitTransfer htr
      rfl
    rw [← S.posed.num v, ← hvreg v htr, hvreg v' htr', S.posed.num]

theorem nodup_edgePlans (hm : p.routine.Mirrored) : (S.a.edgePlans p).Nodup := by
  have hpart := S.posed.partition
  refine List.nodup_flatMap.2 ⟨fun t _ => List.nodup_flatMap.2 ⟨fun b _ => ?_, ?_⟩, ?_⟩
  · exact (S.posed.nodup_preds hm b).map fun s s' heq => congrArg EdgePlan.source heq
  · refine (hpart.nodup t).pairwise_of_forall_ne fun b _ b' _ hne e he he' => hne ?_
    obtain ⟨s, -, rfl⟩ := List.mem_map.1 he
    obtain ⟨s', -, heq⟩ := List.mem_map.1 he'
    exact (congrArg EdgePlan.target heq).symm
  · refine List.nodup_range.pairwise_of_forall_ne fun t _ t' _ hne e he he' => hne ?_
    have htarget : ∀ t, e ∈ ((p.traces.blocks t).flatMap fun b => (p.routine.preds b).map fun s => S.a.edgePlan p s b) →
        p.traces.of e.target = t := by
      intro t he
      obtain ⟨b, hb, he⟩ := List.mem_flatMap.1 he
      obtain ⟨s, -, rfl⟩ := List.mem_map.1 he
      exact hpart.of_eq t b hb
    rw [← htarget t he, htarget t' he']

theorem nodup_edgeTransfers (hm : p.routine.Mirrored) : ((S.a.edgePlans p).flatMap EdgePlan.transfers).Nodup := by
  refine List.nodup_flatMap.2 ⟨fun e he => ?_, (S.nodup_edgePlans hm).pairwise_of_forall_ne ?_⟩
  · obtain ⟨s, t, hs, rfl⟩ := (Assignment.mem_edgePlans S.posed).1 he
    have hvalues := List.pairwise_map.1 (edgeValues_nodup (s := s) S.posed (Routine.lt_of_mem_preds hs))
    rw [Assignment.edgePlan_eq]
    refine List.pairwise_filterMap.2 (hvalues.imp fun {e e'} hne tr htr tr' htr' heq => hne ?_)
    obtain ⟨x, y, A, B, -, -, rfl⟩ := keeps_of_edgeTransfer (S := S) htr
    obtain ⟨x', y', A', B', -, -, rfl⟩ := keeps_of_edgeTransfer (S := S) htr'
    exact congrArg Transfer.vreg heq
  · intro e he e' he' hne tr htr htr'
    obtain ⟨s, t, hs, rfl⟩ := (Assignment.mem_edgePlans S.posed).1 he
    obtain ⟨s', t', hs', rfl⟩ := (Assignment.mem_edgePlans S.posed).1 he'
    obtain ⟨hpos, hrank, -⟩ := Assignment.of_mem_edgePlan htr
    obtain ⟨hpos', hrank', -⟩ := Assignment.of_mem_edgePlan htr'
    obtain ⟨rfl, rfl⟩ := edge_unique S.posed hm hs hs' (hpos'.symm.trans hpos) (hrank'.symm.trans hrank)
    exact hne rfl

theorem nodup_copyTransfers : (S.a.copyTransfers p).Nodup := by
  refine List.pairwise_filterMap.2 (S.copies_apart.imp fun {c c'} hapart tr htr tr' htr' heq => ?_)
  obtain ⟨x, -, rfl⟩ := Option.map_eq_some_iff.1 htr
  obtain ⟨x', -, rfl⟩ := Option.map_eq_some_iff.1 htr'
  simp only [Transfer.mk.injEq, TransferDest.reg.injEq, Point.before] at heq
  exact hapart (by omega) heq.2.2.2.1

theorem nodup_transfers (hm : p.routine.Mirrored) : (p.transfers S.a).Nodup := by
  have hedge : ∀ tr ∈ (S.a.edgePlans p).flatMap EdgePlan.transfers, ∃ t, tr.rank = Assignment.edgeRank p t := by
    intro tr htr
    obtain ⟨e, he, htr⟩ := List.mem_flatMap.1 htr
    obtain ⟨s, t, -, rfl⟩ := (Assignment.mem_edgePlans S.posed).1 he
    exact ⟨t, (Assignment.of_mem_edgePlan htr).2.1⟩
  have hcopy : ∀ tr ∈ S.a.copyTransfers p, tr.rank = .copy := by
    intro tr htr
    obtain ⟨c, -, htr⟩ := List.mem_filterMap.1 htr
    obtain ⟨x, -, rfl⟩ := Option.map_eq_some_iff.1 htr
    rfl
  refine List.nodup_append.2 ⟨List.nodup_append.2 ⟨S.nodup_splitTransfers, S.nodup_edgeTransfers hm, ?_⟩,
    S.nodup_copyTransfers, ?_⟩
  · rintro tr htr _ htr' rfl
    obtain ⟨t, ht⟩ := hedge tr htr'
    exact Assignment.edgeRank_ne.1 (ht.symm.trans (Assignment.of_mem_splitTransfers htr).1)
  · rintro tr htr _ htr' rfl
    rcases List.mem_append.1 htr with htr | htr
    · cases (Assignment.of_mem_splitTransfers htr).1.symm.trans (hcopy tr htr')
    · obtain ⟨t, ht⟩ := hedge tr htr
      exact Assignment.edgeRank_ne.2 (ht.symm.trans (hcopy tr htr'))

/-! ## All transfers can be made -/

variable {most : RegClass}

theorem transfer_legible (hp : p.Furnished most) {tr : Transfer} (htr : tr ∈ p.transfers S.a) :
    tr.vreg.isLegible = true := by
  obtain ⟨v, hv⟩ := hp.posed.transfer_value hp.mirrored hp.oneClass S.allocated htr
  exact hv ▸ hp.value v

theorem transferable (hp : p.Furnished most) :
    Assignment.Transferable p (S.a.inSlots S.slot) S.frame.size (p.transfers S.a) := by
  have hplaces (t : Transfer) (ht : t ∈ p.transfers S.a) := places hp.scratch hp.unnamed ht (S.transfer_legible hp ht)
  refine ⟨fun t ht => S.transfer_legible hp ht, fun t ht => ⟨(hplaces t ht).1.real, (hplaces t ht).2.real⟩,
    fun t ht s hs => ?_, fun t ht c r hr => ⟨(hplaces t ht).1.scratch c r hr, (hplaces t ht).2.scratch c r hr⟩, ?_⟩
  · obtain ⟨v, hv, rfl, hon, -⟩ := hs.elim ((hplaces t ht).1.slot s) ((hplaces t ht).2.slot s)
    exact S.finished.slots.inside v hv _ hon
  · exact (S.nodup_transfers hp.mirrored).pairwise_of_forall_ne fun _ ht _ hu hne hpos hrank hdest =>
      hne (transfer_unique hp.mirrored hp.oneClass hu ht hpos hrank hdest)

end Problem.Layout

namespace Problem

variable {p : Problem} {most : RegClass} {a : Assignment} {cut : Nat → Nat} {draft : Nat → RootDraft}

theorem Furnished.edgeInRange (hp : p.Furnished most) {s t : Nat} (hs : s ∈ p.routine.preds t) :
    Assignment.edgeInRange p s t = true := by
  have ht := Routine.lt_of_mem_preds hs
  have hlast := hp.posed.hasInstr_last (Routine.lt_of_mem_succs (hp.mirrored.mem_iff.1 hs))
  have hfirst : p.routine.hasInstr (p.routine.first t) = true := by
    have := hp.posed.flows.inRange t ht _ (hp.posed.span_mem ht).1
    simpa [Routine.hasInstr] using this
  simp [Assignment.edgeInRange, hlast, hfirst]

theorem Furnished.safe_finish (hp : p.Furnished most) (h : p.Allocated p.traces.count cut draft a) :
    Safe (p.finish a) fun _ => True := by
  have hordered : ∀ iv ∈ a.intervals, Ordered iv.ranges := by
    intro iv hiv
    obtain ⟨id, hid⟩ := Array.mem_iff_getElem?.1 hiv
    exact (h.sound hid).ordered
  refine Safe.bind (Safe.forIn fun e he => ?_) fun _ _ _ => ?_
  · obtain ⟨s, t, hs, rfl⟩ := (Assignment.mem_edgePlans hp.posed).1 he
    exact Safe.demand_bind (hp.edgeInRange hs) (Safe.emit_bind (Safe.pure rfl))
  · refine (Assignment.safe_assignSlots hp.sized hp.room hp.value hordered).bind fun x hx hroomy => ?_
    obtain ⟨a', frame, m⟩ := x
    obtain ⟨slot, rfl, hslot⟩ := h.slotsFor hp.posed hx
    -- the moves depend on no more of the result than its locations
    let records : Output := {
      frameSize := frame.size
      allocs := (a.inSlots slot).operandAllocs p
      edits := #[]
      locations := (a.inSlots slot).placements
      edges := (a.edgePlans p).map ((a.inSlots slot).edgeRecord p)
      stats := {} }
    let S : p.Layout records := ⟨a, cut, draft, slot, frame, hp.posed, h, ⟨hslot, rfl, rfl, rfl⟩⟩
    exact (Assignment.safe_emitMoves hp (S.transferable hp) (Frame.spared_of_empty hslot.spares) hroomy).bind
      fun e _ _ => Safe.get.bind fun _ _ _ => Safe.pure trivial

end Problem

end LinearScan
