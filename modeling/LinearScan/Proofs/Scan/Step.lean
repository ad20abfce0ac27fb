import LinearScan.Scan
import LinearScan.Proofs.Scan.Decision
import LinearScan.Proofs.Scan.Split

/-!
# A step of a scan keeps its invariant

A step takes the first waiting interval out of its list, decides, and carries out the decision. The
invariant holds of every state that the scan of a trace reaches.
-/

namespace LinearScan

open LiveRange Interval Run

namespace ScanState

namespace Ok

variable {p : Problem} {t first id pos : Nat} {origins : Array Interval} {busy rest : List Nat}
  {s s' : ScanState} {iv : Interval} {r : PhysReg}

/-! ## Registers -/

theorem activate (h : Ok p t first origins (id :: busy) s) : Ok p t first origins busy (s.activate id) := by
  refine h.relist rfl (List.Perm.subperm ?_)
  simp only [listed, ScanState.activate, List.append_assoc, List.cons_append]
  exact (List.perm_middle.append_left busy).trans List.perm_middle

theorem not_spilled (h : Ok p t first origins (id :: busy) s) (hid : s.intervals[id]? = some iv) :
    iv.spilled = false := by
  obtain ⟨-, w, hw, hsp⟩ := h.ready id (by simp)
  cases Option.some.inj (hid.symm.trans hw)
  exact hsp

theorem assign (h : Ok p t first origins (id :: busy) s) (hid : s.intervals[id]? = some iv)
    (hall : ∀ u ∈ iv.uses, u.Allows r) (hold : p.MayHold t iv.vreg r) (hoffered : p.Offered first origins iv.vreg r) :
    Ok p t first origins (id :: busy) (s.assign id r) := by
  refine h.update_keep (fun _ => rfl) (fun w hw => ?_) (fun w q hw hq => ?_) fun _ => rfl
  · cases Option.some.inj (hid.symm.trans hw)
    have hgood := h.good hid
    refine ⟨⟨hgood.sound.ordered, hgood.sound.nonempty, hgood.sound.sorted, hgood.sound.covered⟩,
      ⟨fun q hq => ?_, fun hsp => ?_⟩, fun q hq => ?_, hgood.genuine⟩
    · cases hq
      exact hall
    · have hn := h.not_spilled hid
      rw [show iv.spilled = true from hsp] at hn
      cases hn
    · cases hq
      exact hold
  · cases Option.some.inj (hid.symm.trans hw)
    cases hq
    exact hoffered

/-! ## A register and a split at once

A register that is taken from others is given to the whole interval before the part that cannot stay
in it is split off. The result is that of the other order. -/

theorem halves_unassign {a : Allocation} {head tail : Interval}
    (h : Halves pos { iv with alloc := a } head tail) :
    Halves pos iv { head with alloc := iv.alloc } tail where
  cut := h.cut
  headEq := by
    rw [h.headEq]
  uses := h.uses
  vreg := h.vreg
  trace := h.trace
  place := h.place
  headSound := ⟨h.headSound.ordered, h.headSound.nonempty, h.headSound.sorted, h.headSound.covered⟩
  tailSound := h.tailSound

theorem splitArray_modify {ivs : Array Interval} {root : Nat} {head tail : Interval} {a b : Allocation}
    (hid : id < ivs.size) (hhead : head.alloc = a) :
    Family.splitArray (ivs.modify id ({ · with alloc := a })) id root head tail =
      (Family.splitArray ivs id root { head with alloc := b } tail).modify id ({ · with alloc := a }) := by
  refine Array.ext_getElem? fun j => ?_
  have hid' : id < (ivs.modify id fun x : Interval => { x with alloc := a }).size := by simpa using hid
  rw [Array.getElem?_modify, Family.getElem?_splitArray hid', Family.getElem?_splitArray hid,
    Array.size_modify]
  by_cases hj : j = id
  · subst hj
    have hne : ¬ j = ivs.size := Nat.ne_of_lt hid
    by_cases hr : j = root
    · subst hr
      simp [hne, ← hhead]
    · simp [hne, hr, ← hhead]
  · have hj' : ¬ id = j := fun e => hj e.symm
    simp [hj, hj', Array.getElem?_modify]

theorem assign_splitOff (hentry : ∀ b, Point.isBefore (p.flow.entryOf b) = true)
    (h : Ok p t first origins (id :: busy) s) (hid : s.intervals[id]? = some iv) {lo blocked : Nat}
    (hall : ∀ u ∈ iv.uses, u.pos < blocked → u.Allows r) (hold : p.MayHold t iv.vreg r)
    (hoffered : p.Offered first origins iv.vreg r)
    {child : Option Nat} (hr : Returns ((s.assign id r).splitOff p id lo blocked) (s', child)) :
    Ok p t first origins (child.toList ++ id :: busy) s' := by
  obtain ⟨w, hw, hr⟩ := hr.bind
  obtain ⟨q, hq, hr⟩ := hr.bind
  obtain ⟨-, hqb, hqbefore⟩ := returns_splitPoint hentry hq
  have hlt : id < s.intervals.size := (Array.getElem?_eq_some_iff.1 hid).1
  have hsound := (h.good hid).sound
  have hlook : (s.assign id r).intervals[id]? = some { iv with alloc := .reg r } := by
    simp [ScanState.assign, ScanState.update, Array.getElem?_modify, hid]
  obtain ⟨w, hw, hstart, ⟨hnone, rfl, rfl⟩ | ⟨head, tail, hs, rfl, rfl⟩⟩ := returns_split hr
  · cases Option.some.inj (hlook.symm.trans hw)
    refine h.assign hid (fun u hu => hall u hu ?_) hold hoffered
    obtain ⟨range, hrange, hcov⟩ := hsound.covered u hu
    have := stop_le_of_splitAt hnone range hrange
    omega
  · cases Option.some.inj (hlook.symm.trans hw)
    have hsound' : ({ iv with alloc := .reg r } : Interval).Sound :=
      ⟨hsound.ordered, hsound.nonempty, hsound.sorted, hsound.covered⟩
    obtain ⟨hhalves, huses, -⟩ := splitAt_spec hsound' hstart hs
    have hhead : head.alloc = .reg r := by rw [hhalves.headEq]
    have hok := h.splitArray hid (halves_unassign hhalves) hqbefore
    obtain ⟨children, hlook⟩ := Family.lookup_splitArray hlt (iv.parent.getD id)
      { head with alloc := iv.alloc } tail id
    rw [if_neg (Nat.ne_of_lt hlt), if_pos rfl] at hlook
    have hvreg : head.vreg = iv.vreg := by rw [hhalves.headEq]
    have hassign := hok.swap.assign (r := r) hlook (fun u hu => ?_) (hvreg ▸ hold) (hvreg ▸ hoffered)
    · have hswap := hassign.swap
      simp only [ScanState.assign, ScanState.update] at hswap ⊢
      rw [splitArray_modify (b := iv.alloc) hlt hhead, Array.size_modify]
      exact hswap
    · have hmem : u ∈ iv.uses := hhalves.uses ▸ List.mem_append_left _ hu
      exact hall u hmem (Nat.lt_of_lt_of_le (huses u hu) hqb)

/-! ## Taking a register from its holders -/

theorem evictAll (hentry : ∀ b, Point.isBefore (p.flow.entryOf b) = true)
    (hpos : Point.isBefore pos = true) {victims : List Nat} (h : Ok p t first origins (victims ++ busy) s)
    (hr : Returns (victims.foldlM (fun s victim => s.evict p victim pos) s) s') :
    Ok p t first origins busy s' := by
  induction victims generalizing s with
  | nil => exact hr.of_pure ▸ h
  | cons v victims ih =>
      rw [List.foldlM_cons] at hr
      obtain ⟨s1, h1, hr⟩ := hr.bind
      exact ih (Ok.evict hentry h hpos h1) hr

theorem filter_append_filter_subperm {α : Type} {l : List α} {a b : α → Bool}
    (h : ∀ x ∈ l, a x = true → b x = false) : (l.filter a ++ l.filter b).Subperm l := by
  have hsub : (l.filter b).Sublist (l.filter fun x => !a x) := by
    rw [show l.filter b = (l.filter fun x => !a x).filter b by
      rw [List.filter_filter]
      refine List.filter_congr fun x hx => ?_
      cases ha : a x with
      | false => simp
      | true => simp [h x hx ha]]
    exact List.filter_sublist
  exact (hsub.append_left _).subperm.trans (List.filter_append_perm a l).subperm

theorem take_out_subperm {q as bs vs : List Nat} {a b : Nat → Bool} (hvs : vs.Perm (as.filter a ++ bs.filter b)) :
    (vs ++ busy ++ (q ++ as.filter (!vs.contains ·) ++ bs.filter (!vs.contains ·))).Subperm
      (busy ++ (q ++ as ++ bs)) := by
  have has : (as.filter a ++ as.filter (!vs.contains ·)).Subperm as := by
    refine filter_append_filter_subperm fun x hx ha => ?_
    have hmem : x ∈ vs := hvs.mem_iff.2 (List.mem_append_left _ (List.mem_filter.2 ⟨hx, ha⟩))
    simpa using hmem
  have hbs : (bs.filter b ++ bs.filter (!vs.contains ·)).Subperm bs := by
    refine filter_append_filter_subperm fun x hx hb => ?_
    have hmem : x ∈ vs := hvs.mem_iff.2 (List.mem_append_right _ (List.mem_filter.2 ⟨hx, hb⟩))
    simpa using hmem
  refine List.Subperm.trans (List.Perm.subperm ?_) (((List.Subperm.refl (busy ++ q)).append has).append hbs |>.trans
    (List.Perm.subperm (by simp)))
  refine List.perm_iff_count.2 fun x => ?_
  have hcount := hvs.count_eq x
  simp only [List.count_append] at hcount ⊢
  omega

theorem evictFrom (hentry : ∀ b, Point.isBefore (p.flow.entryOf b) = true)
    (h : Ok p t first origins busy s) (hr : Returns (s.evictFrom p id r) s') :
    Ok p t first origins busy s' := by
  obtain ⟨iv, -, hr⟩ := hr.bind
  dsimp only at hr
  refine evictAll hentry ?_ (h.relist ?_ ?_) hr
  · simp [Point.isBefore, Point.floor, Point.before]
  · rfl
  · exact take_out_subperm (List.mergeSort_perm _ _)

/-! ## Decisions -/

theorem apply (hentry : ∀ b, Point.isBefore (p.flow.entryOf b) = true) (h : Ok p t first origins [id] s)
    (hid : s.intervals[id]? = some iv) {v : ScanView} (hv : v.iv = iv) (hl : v.isLegible p = true)
    {d : Decision} (hd : ScanView.Promises p v d) (hr : Returns (s.apply p id iv d) s') :
    Ok p t first origins [] s' := by
  have hgood := h.good hid
  have hserve : ∀ r limit, ScanView.Serves p v r limit →
      p.MayHold t iv.vreg r ∧ p.Offered first origins iv.vreg r ∧ ∀ u ∈ iv.uses, u.pos < limit → u.Allows r := by
    intro r limit hs
    subst hv
    exact ⟨hs.mayHold hgood hl, hs.offered h.parts h.first_le hid, hs.allows hgood.sound⟩
  cases d with
  | toStack stop => exact h.spillUntil hentry hr
  | noCandidate => exact h.spill hr
  | noRegister => exact hr.of_refuse.elim
  | free r =>
      obtain ⟨_, -, hr⟩ := hr.bind
      obtain rfl := hr.of_pure
      obtain ⟨hhold, hoffered, hall⟩ := hserve r _ hd
      refine (h.assign hid (fun u hu => hall u hu ?_) hhold hoffered).activate
      exact hv ▸ hgood.sound.lt_stop (hgood.sound.covered u hu)
  | freeUntil r stop =>
      obtain ⟨q, hq, hr⟩ := hr.bind
      obtain ⟨_, -, hr⟩ := hr.bind
      obtain ⟨⟨s1, child⟩, h1, hr⟩ := hr.bind
      obtain ⟨-, hqs, hqbefore⟩ := returns_splitPoint hentry hq
      obtain ⟨hhold, hoffered, hall⟩ := hserve r _ hd
      obtain ⟨hok, iv0, iv1, hid0, hid1, hleft⟩ := h.split hqbefore h1
      cases Option.some.inj (hid.symm.trans hid0)
      have hfront : Ok p t first origins (id :: child.toList) s1 :=
        hok.relist rfl ((List.perm_append_singleton id child.toList).append_right _).symm.subperm
      have hassign := hfront.assign hid1 (fun u hu => ?_) (hleft.vreg ▸ hhold) (hleft.vreg ▸ hoffered)
      · exact Ok.requeue? (by simpa using hassign.activate) hr
      · obtain ⟨hu, hlt⟩ := hleft.uses u hu
        exact hall u hu (Nat.lt_of_lt_of_le hlt hqs)
  | spill stop =>
      obtain ⟨_, -, hr⟩ := hr.bind
      exact h.spillUntil hentry hr
  | exhausted =>
      obtain ⟨_, -, hr⟩ := hr.bind
      exact hr.of_refuse.elim
  | evict r nextUse blocked =>
      obtain ⟨hhold, hoffered, hall⟩ := hserve r _ hd
      obtain ⟨_, -, hr⟩ := hr.bind
      dsimp only at hr
      split at hr
      · obtain ⟨⟨s1, child⟩, h1, hr⟩ := hr.bind
        obtain ⟨s2, h2, hr⟩ := hr.bind
        obtain ⟨s3, h3, hr⟩ := hr.bind
        obtain rfl := hr.of_pure
        exact ((h.assign_splitOff hentry hid hall hhold hoffered h1).requeue? h2).evictFrom hentry h3 |>.activate
      · rename_i hstop
        obtain ⟨s2, h2, hr⟩ := hr.bind
        obtain ⟨s3, h3, hr⟩ := hr.bind
        obtain rfl := hr.of_pure
        obtain rfl := h2.of_pure
        refine (h.assign hid (fun u hu => hall u hu ?_) hhold hoffered).evictFrom hentry h3 |>.activate
        have := hgood.sound.lt_stop (hgood.sound.covered u hu)
        omega

theorem advance (h : Ok p t first origins busy s) (pos : Nat) : Ok p t first origins busy (s.advance pos) := by
  refine h.relist rfl ?_
  let lasting := (s.active ++ s.inactive).filter fun id => s.intervals[id]?.any fun iv => pos < iv.stop
  have hsplit : (lasting.filter (fun id => s.intervals[id]?.any (·.covers pos)) ++
      lasting.filter fun id => s.intervals[id]?.any fun iv => !iv.covers pos).Subperm lasting := by
    refine filter_append_filter_subperm fun id _ hc => ?_
    cases hid : s.intervals[id]? with
    | none => rfl
    | some iv => simpa [hid] using hc
  simp only [listed, List.append_assoc]
  exact (List.subperm_append_left busy).2 ((List.subperm_append_left _).2
    (hsplit.trans List.filter_sublist.subperm))

theorem step (hentry : ∀ b, Point.isBefore (p.flow.entryOf b) = true) (h : Ok p t first origins [] s)
    {res : Reservations} {w : Waiting} {queue : List Waiting} (hq : s.queue = w :: queue)
    (hr : Returns (s.step p res w queue) s') : Ok p t first origins [] s' := by
  obtain ⟨iv, hiv, hr⟩ := hr.bind
  obtain ⟨_, -, hr⟩ := hr.bind
  obtain ⟨_, hl, hr⟩ := hr.bind
  have hpop : Ok p t first origins [w.id] { s with queue } :=
    h.relist rfl (List.Perm.subperm (by simp [listed, hq]))
  exact (hpop.advance iv.start).apply hentry (returns_interval hiv) rfl hl.of_demand
    (ScanView.decide_promises p _) hr

end Ok

/-! ## Whole scans -/

/-- `Reaches p res start s`: processing waiting intervals leads from `start` to `s`. -/
inductive Reaches (p : Problem) (res : Reservations) (start : ScanState) : ScanState → Prop where
  | start : Reaches p res start start
  | step {s s' : ScanState} {w : Waiting} {queue : List Waiting} : Reaches p res start s →
      s.queue = w :: queue → Returns (s.step p res w queue) s' → Reaches p res start s'

theorem Ok.reaches {p : Problem} {t first : Nat} {origins : Array Interval} {res : Reservations}
    {start s : ScanState} (hentry : ∀ b, Point.isBefore (p.flow.entryOf b) = true)
    (h : Ok p t first origins [] start) (hs : Reaches p res start s) : Ok p t first origins [] s := by
  induction hs with
  | start => exact h
  | step _ hq hr ih => exact ih.step hentry hq hr

theorem Reaches.head {p : Problem} {res : Reservations} {start s' s : ScanState} {w : Waiting}
    {queue : List Waiting} (hq : start.queue = w :: queue) (hr : Returns (start.step p res w queue) s')
    (hs : Reaches p res s' s) : Reaches p res start s := by
  induction hs with
  | start => exact .step .start hq hr
  | step _ hq' hr' ih => exact .step ih hq' hr'

theorem reaches_of_run {p : Problem} {res : Reservations} {n : Nat} {s s' : ScanState}
    (h : Returns (s.run p res n) s') : Reaches p res s s' ∧ s'.queue = [] := by
  induction n generalizing s with
  | zero =>
      unfold run at h
      split at h
      · rename_i hq
        obtain rfl := h.of_pure
        exact ⟨.start, List.isEmpty_iff.1 hq⟩
      · exact h.of_fault.elim
  | succ n ih =>
      unfold run at h
      split at h
      · rename_i hq
        obtain rfl := h.of_pure
        exact ⟨.start, hq⟩
      · rename_i w queue hq
        obtain ⟨s1, h1, h⟩ := h.bind
        obtain ⟨hreach, hend⟩ := ih h
        exact ⟨.head hq h1 hreach, hend⟩

end ScanState

end LinearScan
