import LinearScan.Proofs.Commit
import LinearScan.Proofs.Roots.Start
import LinearScan.Proofs.Scan.Step
import LinearScan.Proofs.Table

/-!
# Assignments of the first traces

What holds after each trace: its intervals stay as the scan left them, and later traces only add theirs
behind them.
-/

namespace LinearScan

open LiveRange Run

namespace Problem

variable {p : Problem} {t n lo hi id k : Nat} {d : RootDraft} {ivs ivs' : Array Interval} {iv origin : Interval}
  {a a' : Assignment} {cut : Nat → Nat} {draft : Nat → RootDraft}

/-- A trace whose intervals, which are those from number `lo` up to `hi`, have their places. Its roots come
first. -/
structure TraceDone (p : Problem) (t lo hi : Nat) (d : RootDraft) (ivs : Array Interval) : Prop where
  rooted : p.Rooted t d
  room : lo + d.roots.size ≤ hi
  family : ∀ k origin, d.roots[k]? = some origin → Family ivs (lo + k) origin
  bound : ∀ k < d.roots.size, ∀ id ∈ familyOf ivs (lo + k), lo ≤ id ∧ id < hi
  member : ∀ id iv, lo ≤ id → id < hi → ivs[id]? = some iv → ∃ k < d.roots.size, id ∈ familyOf ivs (lo + k)
  good : ∀ id iv, lo ≤ id → id < hi → ivs[id]? = some iv → p.Good t iv
  offered : ∀ id iv r, lo ≤ id → id < hi → ivs[id]? = some iv → iv.alloc = .reg r →
    p.Offered 0 d.roots iv.vreg r
  placed : ∀ id iv, lo ≤ id → id < hi → ivs[id]? = some iv → iv.alloc.isReg = true ∨ iv.spilled = true
  respected : ∀ id iv, lo ≤ id → id < hi → ivs[id]? = some iv → ∀ r x owner, iv.alloc = .reg r →
    Covered iv.ranges x → d.reservations.Kept r x owner → owner = some iv.vreg

namespace TraceDone

theorem congr (h : p.TraceDone t lo hi d ivs) (hi' : ∀ id < hi, ivs'[id]? = ivs[id]?) :
    p.TraceDone t lo hi d ivs' := by
  have hfam : ∀ k < d.roots.size, familyOf ivs' (lo + k) = familyOf ivs (lo + k) := fun k hk => by
    rw [familyOf, familyOf, hi' _ (Nat.lt_of_lt_of_le (Nat.add_lt_add_left hk lo) h.room)]
  refine ⟨h.rooted, h.room, fun k origin hk => ?_, fun k hk => ?_, fun id iv h1 h2 hid => ?_,
    fun id iv h1 h2 hid => ?_, fun id iv r h1 h2 hid => ?_, fun id iv h1 h2 hid => ?_, fun id iv h1 h2 hid => ?_⟩
  · refine (h.family k origin hk).congr fun j hj => ?_
    rw [hi' j (h.bound k (Array.getElem?_eq_some_iff.1 hk).1 j hj).2]
  · rw [hfam k hk]
    exact h.bound k hk
  · obtain ⟨k, hk, hmem⟩ := h.member id iv h1 h2 (hi' id h2 ▸ hid)
    exact ⟨k, hk, (hfam k hk).symm ▸ hmem⟩
  · exact h.good id iv h1 h2 (hi' id h2 ▸ hid)
  · exact h.offered id iv r h1 h2 (hi' id h2 ▸ hid)
  · exact h.placed id iv h1 h2 (hi' id h2 ▸ hid)
  · exact h.respected id iv h1 h2 (hi' id h2 ▸ hid)

theorem root_of (h : p.TraceDone t lo hi d ivs) (h1 : lo ≤ id) (h2 : id < hi) (hid : ivs[id]? = some iv) :
    ∃ k origin, d.roots[k]? = some origin ∧ id ∈ familyOf ivs (lo + k) ∧ iv.vreg = origin.vreg ∧ iv.trace = t := by
  obtain ⟨k, hk, hmem⟩ := h.member id iv h1 h2 hid
  have ho : d.roots[k]? = some d.roots[k] := Array.getElem?_eq_getElem hk
  obtain ⟨iv', hiv', -, hv, ht⟩ := (h.family k _ ho).member id hmem
  cases Option.some.inj (hid.symm.trans hiv')
  exact ⟨k, _, ho, hmem, hv, ht.trans (h.rooted.root _ (Array.mem_of_getElem? ho)).trace⟩

end TraceDone

/-- The assignment of the first `n` traces. The intervals of trace `t` start at number `cut t`. -/
structure Allocated (p : Problem) (n : Nat) (cut : Nat → Nat) (draft : Nat → RootDraft) (a : Assignment) : Prop where
  first : cut 0 = 0
  last : cut n = a.intervals.size
  trace : ∀ t < n, p.TraceDone t (cut t) (cut (t + 1)) (draft t) a.intervals
  table : a.roots.size = p.values.size
  roots : ∀ v id, id ∈ a.rootsOf v ↔ ∃ t < n, ∃ k iv, (draft t).roots[k]? = some iv ∧ iv.vreg.num = v ∧ id = cut t + k
  nodup : ∀ v, (a.rootsOf v).Nodup
  copies : a.copies.toList = (List.range n).flatMap fun t => (draft t).copies.toList
  held : Holds a.held a.intervals.toList
  reserved : Reserves a.reserved fun r x => ∃ t < n, ∃ owner, (draft t).reservations.Kept r x owner

namespace Allocated

theorem cut_mono (h : p.Allocated n cut draft a) {t u : Nat} (htu : t ≤ u) (hu : u ≤ n) : cut t ≤ cut u := by
  induction u with
  | zero => exact Nat.le_of_eq (congrArg cut (Nat.le_zero.1 htu))
  | succ u ih =>
      rcases Nat.lt_or_eq_of_le htu with hlt | rfl
      · have hroom := (h.trace u hu).room
        exact Nat.le_trans (ih (Nat.le_of_lt_succ hlt) (Nat.le_of_lt hu)) (Nat.le_of_add_right_le hroom)
      · exact Nat.le_refl _

theorem cut_le (h : p.Allocated n cut draft a) (ht : t < n) : cut (t + 1) ≤ a.intervals.size :=
  h.last ▸ h.cut_mono ht (Nat.le_refl n)

theorem exists_trace (h : p.Allocated n cut draft a) (hid : id < a.intervals.size) :
    ∃ t < n, cut t ≤ id ∧ id < cut (t + 1) := by
  rw [← h.last] at hid
  suffices hall : ∀ m ≤ n, id < cut m → ∃ t < m, cut t ≤ id ∧ id < cut (t + 1) from hall n (Nat.le_refl n) hid
  intro m
  induction m with
  | zero =>
      intro _ hm
      rw [h.first] at hm
      omega
  | succ m ih =>
      intro hmn hm
      rcases Nat.lt_or_ge id (cut m) with hlt | hge
      · obtain ⟨t, ht, hcut⟩ := ih (Nat.le_of_succ_le hmn) hlt
        exact ⟨t, Nat.lt_succ_of_lt ht, hcut⟩
      · exact ⟨m, Nat.lt_succ_self m, hge, hm⟩

theorem root_lt {v : Nat} (h : p.Allocated n cut draft a) (hid : id ∈ a.rootsOf v) : id < a.intervals.size := by
  obtain ⟨t, ht, k, iv, hk, -, rfl⟩ := (h.roots v id).1 hid
  have hk := (Array.getElem?_eq_some_iff.1 hk).1
  have := (h.trace t ht).room
  have := h.cut_le ht
  omega

theorem trace_lt (h : p.Allocated n cut draft a) (hid : a.intervals[id]? = some iv) : iv.trace < n := by
  obtain ⟨t, ht, h1, h2⟩ := h.exists_trace (Array.getElem?_eq_some_iff.1 hid).1
  obtain ⟨-, -, -, -, -, htr⟩ := (h.trace t ht).root_of h1 h2 hid
  rw [htr]
  exact ht

end Allocated

theorem allocated_empty (p : Problem) : p.Allocated 0 (fun _ => 0) (fun _ => .empty) (.empty p) := by
  have hget : ∀ r : PhysReg, (Array.replicate PhysReg.count RangeSet.empty).getD r.index .empty = .empty := fun r => by
    rw [Array.getD_eq_getD_getElem?, Array.getElem?_replicate]
    split <;> rfl
  have hnone : ∀ v, (Assignment.empty p).rootsOf v = [] := fun v => by
    rw [Assignment.rootsOf, Assignment.empty, Array.getD_eq_getD_getElem?, Array.getElem?_replicate]
    split <;> rfl
  refine ⟨rfl, rfl, fun t ht => absurd ht (Nat.not_lt_zero t), by simp [Assignment.empty], fun v id => by simp [hnone],
    fun v => by simp [hnone], by simp [Assignment.empty], ⟨by simp [Assignment.empty], fun r => ?_, fun r _ x => ?_, List.Pairwise.nil⟩,
    ⟨by simp [Assignment.empty], fun r => ?_, fun r _ x => ?_⟩⟩
  · rw [Assignment.empty, hget]
    exact ordered_nil
  · rw [Assignment.empty, hget]
    simp [RangeSet.empty]
  · rw [Assignment.empty, hget]
    exact ordered_nil
  · rw [Assignment.empty, hget]
    simp [RangeSet.empty]

/-! ## A step -/

theorem Posed.returns_allocateTrace (hp : p.Posed) (h : Returns (p.allocateTrace a t) a') :
    ∃ (d : RootDraft) (a₁ : Assignment) (tr : TraceRoots) (s : ScanState),
      p.Rooted t d ∧ tr = ⟨a.intervals.size, List.range' a.intervals.size d.roots.size, d.reservations⟩ ∧
      a₁ = { a with
        intervals := a.intervals ++ d.roots
        roots := addAll ((d.roots.toList.zip tr.roots).map fun e => (e.1.vreg.num, e.2)) a.roots
        copies := a.copies ++ d.copies } ∧
      Returns (p.buildRoots t a) (a₁, tr) ∧ ScanState.Reaches p tr.reservations (scanStart a₁ tr) s ∧
      ScanState.Ok p t a.intervals.size a₁.intervals [] s ∧ s.queue = [] ∧
      verify (s.intervals.toList.drop tr.first) tr.reservations = .ok () ∧
      commit { a₁ with intervals := s.intervals } (s.intervals.toList.drop tr.first) tr.reservations = .ok a' := by
  obtain ⟨⟨a₁, tr⟩, hbuild, h⟩ := h.bind
  obtain ⟨a₂, hscan, h⟩ := h.bind
  obtain ⟨_, hverify, h⟩ := h.bind
  obtain ⟨_, -, hscan⟩ := hscan.bind
  obtain ⟨s, hrun, hscan⟩ := hscan.bind
  obtain rfl := hscan.of_pure
  obtain ⟨d, hd, htr, ha₁⟩ := hp.returns_buildRoots hbuild
  obtain ⟨hreach, hempty⟩ := ScanState.reaches_of_run hrun
  have hs := (hd.scanStart_ok htr (by rw [ha₁])).reaches hp.flows.entryBefore hreach
  refine ⟨d, a₁, tr, s, hd, htr, ?_, hbuild, hreach, hs, hempty, hverify.of_sound, h.of_sound⟩
  rw [addAll, List.foldl_map]
  exact ha₁

theorem mem_zip_range' {l : List Interval} {lo : Nat} :
    (iv, id) ∈ l.zip (List.range' lo l.length) ↔ ∃ k, l[k]? = some iv ∧ id = lo + k := by
  rw [List.mem_iff_getElem?]
  refine exists_congr fun k => ?_
  rw [List.getElem?_zip_eq_some]
  refine and_congr_right fun hk => ?_
  have hlt := (List.getElem?_eq_some_iff.1 hk).1
  rw [List.getElem?_range' hlt, Option.some.injEq, Nat.one_mul]
  exact eq_comm

theorem mem_drop_toList : iv ∈ ivs.toList.drop lo ↔ ∃ id, lo ≤ id ∧ ivs[id]? = some iv := by
  rw [List.mem_iff_getElem?]
  constructor
  · rintro ⟨k, hk⟩
    rw [List.getElem?_drop, Array.getElem?_toList] at hk
    exact ⟨lo + k, Nat.le_add_right lo k, hk⟩
  · rintro ⟨id, hle, hid⟩
    refine ⟨id - lo, ?_⟩
    rw [List.getElem?_drop, Array.getElem?_toList, Nat.add_sub_cancel' hle]
    exact hid

theorem toList_eq_append_drop (h : ∀ id < ivs.size, ivs'[id]? = ivs[id]?) :
    ivs'.toList = ivs.toList ++ ivs'.toList.drop ivs.size := by
  have htake : ivs'.toList.take ivs.size = ivs.toList := by
    refine List.ext_getElem? fun id => ?_
    rw [List.getElem?_take, Array.getElem?_toList, Array.getElem?_toList]
    split
    · rename_i hlt
      exact h id hlt
    · rename_i hge
      exact (Array.getElem?_eq_none (Nat.le_of_not_lt hge)).symm
  calc ivs'.toList = ivs'.toList.take ivs.size ++ ivs'.toList.drop ivs.size := (List.take_append_drop _ _).symm
    _ = ivs.toList ++ ivs'.toList.drop ivs.size := by rw [htake]

theorem Rooted.mem_roots {v : Nat} {table : Array (List Nat)} (h : p.Rooted t d)
    (htable : table.size = p.routine.numValues) :
    id ∈ (addAll ((d.roots.toList.zip (List.range' lo d.roots.size)).map fun e => (e.1.vreg.num, e.2)) table).getD v [] ↔
      id ∈ table.getD v [] ∨ ∃ k iv, d.roots[k]? = some iv ∧ iv.vreg.num = v ∧ id = lo + k := by
  have hlisted : (v, id) ∈ (d.roots.toList.zip (List.range' lo d.roots.size)).map (fun e => (e.1.vreg.num, e.2)) ↔
      ∃ k iv, d.roots[k]? = some iv ∧ iv.vreg.num = v ∧ id = lo + k := by
    simp only [List.mem_map, Prod.exists, Prod.mk.injEq, ← Array.length_toList, mem_zip_range', Array.getElem?_toList]
    constructor
    · rintro ⟨iv, id', ⟨k, hk, rfl⟩, rfl, rfl⟩
      exact ⟨k, iv, hk, rfl, rfl⟩
    · rintro ⟨k, iv, hk, rfl, rfl⟩
      exact ⟨iv, _, ⟨k, hk, rfl⟩, rfl, rfl⟩
  rcases Nat.lt_or_ge v table.size with hv | hv
  · rw [mem_addAll hv, hlisted]
  · rw [getD_of_size_le hv, getD_of_size_le (by rw [size_addAll]; exact hv)]
    refine iff_of_false List.not_mem_nil ?_
    rintro (hid | ⟨k, iv, hk, rfl, -⟩)
    · cases hid
    · have hsmall := (h.root iv (Array.mem_of_getElem? hk)).small
      omega

theorem Rooted.nodup_roots {v : Nat} {table : Array (List Nat)} (hold : (table.getD v []).Nodup)
    (hlt : ∀ id ∈ table.getD v [], id < lo) :
    ((addAll ((d.roots.toList.zip (List.range' lo d.roots.size)).map fun e => (e.1.vreg.num, e.2)) table).getD v []).Nodup := by
  rcases Nat.lt_or_ge v table.size with hv | hv
  · have hsnd : ((d.roots.toList.zip (List.range' lo d.roots.size)).map fun e => (e.1.vreg.num, e.2)).map Prod.snd =
        List.range' lo d.roots.size := by
      rw [List.map_map]
      exact List.map_snd_zip (by simp)
    have hsub := (List.filter_sublist (p := fun e : Nat × Nat => decide (e.1 = v))
      (l := (d.roots.toList.zip (List.range' lo d.roots.size)).map fun e => (e.1.vreg.num, e.2))).map Prod.snd
    rw [hsnd] at hsub
    rw [getD_addAll hv]
    refine List.nodup_append.2 ⟨hold, hsub.nodup List.nodup_range', fun id hid id' hid' heq => ?_⟩
    have hnew := List.mem_range'_1.1 (hsub.subset hid')
    have := hlt id hid
    omega
  · rw [getD_of_size_le (by rw [size_addAll]; exact hv)]
    exact List.nodup_nil

theorem Rooted.le_of_mem_family {s : ScanState} {origins : Array Interval} {root : Nat} {busy : List Nat} (h : p.Rooted t d)
    (ho : origins = ivs ++ d.roots) (hs : ScanState.Ok p t ivs.size origins busy s)
    (hold : ∀ (id : Nat) iv, ivs[id]? = some iv → iv.trace < t) (hge : ivs.size ≤ root)
    (hroot : origins[root]? = some origin) (hid : id ∈ familyOf s.intervals root) : ivs.size ≤ id := by
  obtain ⟨iv, hiv, -, -, htr⟩ := (hs.parts.family root origin hge hroot).member id hid
  refine Nat.le_of_not_lt fun hlt => ?_
  rw [hs.parts.old id hlt, ho, Array.getElem?_append_left hlt] at hiv
  have hlate := hold id iv hiv
  rw [htr, (h.root_at hge (ho ▸ hroot)).trace] at hlate
  exact Nat.lt_irrefl t hlate

theorem Rooted.traceDone {s : ScanState} {origins : Array Interval} (h : p.Rooted t d) (ho : origins = ivs ++ d.roots)
    (hs : ScanState.Ok p t ivs.size origins [] s) (hold : ∀ (id : Nat) iv, ivs[id]? = some iv → iv.trace < t)
    (hv : verify (s.intervals.toList.drop ivs.size) d.reservations = .ok ()) :
    p.TraceDone t ivs.size s.intervals.size d s.intervals := by
  obtain ⟨hplaced, hrespects⟩ := verify_spec hv
  have hroot : ∀ k, origins[ivs.size + k]? = d.roots[k]? := fun k => by
    rw [ho, Array.getElem?_append_right (Nat.le_add_right _ _), Nat.add_sub_cancel_left]
  have hbefore : ∀ id < ivs.size, s.intervals[id]? = ivs[id]? := fun id hid => by
    rw [hs.parts.old id hid, ho, Array.getElem?_append_left hid]
  have hfam : ∀ k origin, d.roots[k]? = some origin → Family s.intervals (ivs.size + k) origin := fun k origin hk =>
    hs.parts.family _ origin (Nat.le_add_right _ _) ((hroot k).trans hk)
  have hmem : ∀ id iv, ivs.size ≤ id → s.intervals[id]? = some iv → iv ∈ s.intervals.toList.drop ivs.size :=
    fun id iv h1 hid => mem_drop_toList.2 ⟨id, h1, hid⟩
  refine ⟨h, ?_, hfam, fun k hk id hid => ?_, fun id iv h1 _ hid => ?_, fun id iv h1 _ hid => hs.parts.good id iv h1 hid,
    fun id iv r h1 _ hid ha => ?_, fun id iv h1 _ hid => hplaced iv (hmem id iv h1 hid), fun id iv h1 _ hid r x owner ha hx hk => ?_⟩
  · refine Nat.le_of_not_lt fun hlt => ?_
    have hnone : s.intervals[s.intervals.size]? = none := Array.getElem?_eq_none (Nat.le_refl _)
    rcases Nat.lt_or_ge s.intervals.size ivs.size with hsz | hsz
    · rw [hbefore _ hsz, Array.getElem?_eq_getElem hsz] at hnone
      cases hnone
    · obtain ⟨k, hk⟩ := Nat.exists_eq_add_of_le hsz
      have hkr : k < d.roots.size := by omega
      obtain ⟨iv, hiv, -⟩ := (hfam k _ (Array.getElem?_eq_getElem hkr)).member _ List.mem_cons_self
      rw [← hk, hnone] at hiv
      cases hiv
  · have hk' := Array.getElem?_eq_getElem hk
    obtain ⟨iv, hiv, -⟩ := (hfam k _ hk').member id hid
    exact ⟨h.le_of_mem_family ho hs hold (Nat.le_add_right _ _) ((hroot k).trans hk') hid,
      (Array.getElem?_eq_some_iff.1 hiv).1⟩
  · obtain ⟨root, hr1, hr2, hr⟩ := hs.parts.member id iv h1 hid
    obtain ⟨k, rfl⟩ := Nat.exists_eq_add_of_le hr1
    rw [ho, Array.size_append] at hr2
    exact ⟨k, by omega, hr⟩
  · refine (hs.parts.offered id iv r h1 hid ha).imp_right fun hnamed => ?_
    obtain ⟨root, origin, hr1, horigin, hrest⟩ := hnamed
    obtain ⟨k, rfl⟩ := Nat.exists_eq_add_of_le hr1
    exact ⟨k, origin, Nat.zero_le k, (hroot k).symm.trans horigin, hrest⟩
  · exact hrespects iv (hmem id iv h1 hid) r x owner ha ((hs.parts.good id iv h1 hid).held r ha).legible hx hk

theorem Posed.old_of_allocateTrace (hp : p.Posed) (h : Returns (p.allocateTrace a t) a') :
    a.intervals.size ≤ a'.intervals.size ∧ ∀ id < a.intervals.size, a'.intervals[id]? = a.intervals[id]? := by
  obtain ⟨d, a₁, tr, s, -, -, ha₁, -, -, hs, -, -, hcommit⟩ := hp.returns_allocateTrace h
  have hold : ∀ id < a.intervals.size, a'.intervals[id]? = a.intervals[id]? := fun id hid => by
    rw [commit_eq hcommit, hs.parts.old id hid, ha₁, Array.getElem?_append_left hid]
  refine ⟨Nat.le_of_not_lt fun hlt => ?_, hold⟩
  have hnone := hold _ hlt
  rw [Array.getElem?_eq_none (Nat.le_refl _), Array.getElem?_eq_getElem hlt] at hnone
  cases hnone

theorem Allocated.step (hp : p.Posed) (h : p.Allocated n cut draft a) (hr : Returns (p.allocateTrace a n) a') :
    ∃ cut' draft', p.Allocated (n + 1) cut' draft' a' := by
  obtain ⟨d, a₁, tr, s, hd, rfl, ha₁, -, -, hs, -, hverify, hcommit⟩ := hp.returns_allocateTrace hr
  have hint : a₁.intervals = a.intervals ++ d.roots := by rw [ha₁]
  have hdone := hd.traceDone hint hs (fun id iv hid => h.trace_lt hid) hverify
  have ha' := commit_eq hcommit
  have hbefore : ∀ id < a.intervals.size, s.intervals[id]? = a.intervals[id]? := fun id hid => by
    rw [hs.parts.old id hid, hint, Array.getElem?_append_left hid]
  have hsplit : s.intervals.toList = a.intervals.toList ++ s.intervals.toList.drop a.intervals.size :=
    toList_eq_append_drop hbefore
  have hheld : Holds a₁.held a.intervals.toList := by
    rw [ha₁]
    exact h.held
  have hreserved : Reserves a₁.reserved fun r x => ∃ t < n, ∃ owner, (draft t).reservations.Kept r x owner := by
    rw [ha₁]
    exact h.reserved
  have hivs : ∀ iv ∈ s.intervals.toList.drop a.intervals.size, Ordered iv.ranges ∧
      ∀ r, iv.alloc = .reg r → r.isLegible = true := fun iv hiv => by
    obtain ⟨id, h1, hid⟩ := mem_drop_toList.1 hiv
    have hgood := hs.parts.good id iv h1 hid
    exact ⟨hgood.sound.ordered, fun r hr => (hgood.held r hr).legible⟩
  obtain ⟨hheld, hreserved⟩ := commit_spec (a := { a₁ with intervals := s.intervals }) hheld hreserved
    hivs hd.proper hcommit
  have hcut : ∀ t ≤ n, (if t ≤ n then cut t else s.intervals.size) = cut t := fun t ht => if_pos ht
  have hlast : (if n + 1 ≤ n then cut (n + 1) else s.intervals.size) = s.intervals.size :=
    if_neg (Nat.not_succ_le_self n)
  have hdraft : ∀ t < n, (if t < n then draft t else d) = draft t := fun t ht => if_pos ht
  have hnew : (if n < n then draft n else d) = d := if_neg (Nat.lt_irrefl n)
  refine ⟨fun t => if t ≤ n then cut t else s.intervals.size, fun t => if t < n then draft t else d,
    (hcut 0 (Nat.zero_le n)).trans h.first, ?_, fun t ht => ?_, ?_, fun v id => ?_, fun v => ?_, ?_, ?_, ?_⟩
  · rw [ha']
    exact hlast
  · rw [ha']
    rcases Nat.lt_or_eq_of_le (Nat.le_of_lt_succ ht) with hlt | rfl
    · rw [hcut t (Nat.le_of_lt hlt), hcut (t + 1) hlt, hdraft t hlt]
      exact (h.trace t hlt).congr fun id hid => hbefore id (Nat.lt_of_lt_of_le hid (h.cut_le hlt))
    · rw [hcut t (Nat.le_refl t), hlast, hnew, h.last]
      exact hdone
  · rw [ha', ha₁]
    exact (size_addAll _ _).trans h.table
  · have hrest : (∃ t < n, ∃ k iv, (if t < n then draft t else d).roots[k]? = some iv ∧ iv.vreg.num = v ∧
        id = (if t ≤ n then cut t else s.intervals.size) + k) ↔ id ∈ a.rootsOf v := by
      rw [h.roots]
      refine exists_congr fun t => and_congr_right fun ht => ?_
      rw [hdraft t ht, hcut t (Nat.le_of_lt ht)]
    rw [Nat.exists_lt_succ_right, hrest, hnew, hcut n (Nat.le_refl n), h.last, ha', ha₁]
    exact hd.mem_roots (h.table.trans hp.valued.size)
  · rw [ha', ha₁]
    exact Rooted.nodup_roots (h.nodup v) fun id hid => h.root_lt hid
  · rw [ha', ha₁]
    simp only [List.range_succ, List.flatMap_append, List.flatMap_singleton, hnew, Array.toList_append]
    rw [h.copies]
    congr 1
    exact List.flatMap_congr fun t ht => by rw [hdraft t (List.mem_range.1 ht)]
  · rw [ha', hsplit]
    exact hheld
  · refine ⟨hreserved.size, hreserved.ordered, fun r hr x => (hreserved.covered r hr x).trans ?_⟩
    rw [Nat.exists_lt_succ_right, hnew]
    refine or_congr_left (exists_congr fun t => and_congr_right fun ht => ?_)
    rw [hdraft t ht]

theorem Posed.allocated (hp : p.Posed) (h : Returns ((List.range n).foldlM p.allocateTrace (.empty p)) a) :
    ∃ cut draft, p.Allocated n cut draft a := by
  refine h.foldlM_range (I := fun n a => ∃ cut draft, p.Allocated n cut draft a) (fun n a a' _ ha hr => ?_)
    ⟨_, _, p.allocated_empty⟩
  obtain ⟨cut, draft, ha⟩ := ha
  exact ha.step hp hr

/-! ## Looking up intervals -/

theorem Posed.blockOf {b i : Nat} (hp : p.Posed) (hb : b < p.routine.numBlocks) (hi : i ∈ (p.routine.span b).toList)
    {q : Nat} (hq : Point.instr q = i) : p.flow.blockOf q = b := by
  rw [ControlFlow.blockOf, hq, Array.getD_eq_getD_getElem?, hp.flows.owned b hb i hi, Option.getD_some]

theorem Posed.traceAt {q : Nat} (hp : p.Posed) (hq : p.InTrace t q) : p.traceAt q = t := by
  obtain ⟨b, hb, h1, h2⟩ := hq
  have hi : Point.instr q ∈ (p.routine.span b).toList := by
    rw [Span.mem_toList]
    simp only [Routine.first, Point.before, Point.instr] at h1 h2 ⊢
    omega
  rw [Problem.traceAt, hp.blockOf (hp.lt_of_mem hb) hi rfl, hp.partition.of_eq t b hb]

namespace Allocated

variable {q v : Nat}

/-- Interval `id` of trace `t`, in the family of root number `k`, which was built as `origin`. -/
structure Member (p : Problem) (n : Nat) (cut : Nat → Nat) (draft : Nat → RootDraft) (a : Assignment) (id : Nat)
    (iv : Interval) (t k : Nat) (origin : Interval) : Prop where
  lt : t < n
  root : (draft t).roots[k]? = some origin
  lower : cut t ≤ id
  upper : id < cut (t + 1)
  mem : id ∈ familyOf a.intervals (cut t + k)
  family : Family a.intervals (cut t + k) origin
  built : p.Root t origin
  good : p.Good t iv
  vreg : iv.vreg = origin.vreg
  trace : iv.trace = t

theorem exists_member (h : p.Allocated n cut draft a) (hid : a.intervals[id]? = some iv) :
    ∃ t k origin, Member p n cut draft a id iv t k origin := by
  obtain ⟨t, ht, h1, h2⟩ := h.exists_trace (Array.getElem?_eq_some_iff.1 hid).1
  have hd := h.trace t ht
  obtain ⟨k, origin, hk, hmem, hv, htr⟩ := hd.root_of h1 h2 hid
  exact ⟨t, k, origin, ht, hk, h1, h2, hmem, hd.family k origin hk,
    hd.rooted.root origin (Array.mem_of_getElem? hk), hd.good id iv h1 h2 hid, hv, htr⟩

theorem sound (h : p.Allocated n cut draft a) (hid : a.intervals[id]? = some iv) : iv.Sound := by
  obtain ⟨t, k, origin, hm⟩ := h.exists_member hid
  exact hm.good.sound

theorem rangesOf_eq {ivs : Array Interval} (hid : ivs[id]? = some iv) : rangesOf ivs id = iv.ranges := by
  simp [rangesOf, hid]

theorem Member.inside {t k : Nat} (h : Member p n cut draft a id iv t k origin) (hid : a.intervals[id]? = some iv)
    (hq : Covered iv.ranges q) : p.InTrace t q :=
  h.built.inside q (h.family.covered_of_mem h.mem (rangesOf_eq hid ▸ hq))

theorem rootIn_eq (h : p.Allocated n cut draft a) (ht : t < n) (hk : (draft t).roots[k]? = some origin) :
    a.rootIn origin.vreg.num t = some (cut t + k) := by
  have hd := h.trace t ht
  have hroot : ∀ {t' k' : Nat} {origin' : Interval}, t' < n → (draft t').roots[k']? = some origin' →
      ∃ iv, a.intervals[cut t' + k']? = some iv ∧ iv.trace = t' := fun {t' k' origin'} ht' hk' => by
    obtain ⟨iv, hiv, -, -, htr⟩ := ((h.trace t' ht').family k' origin' hk').member _ List.mem_cons_self
    exact ⟨iv, hiv, htr.trans ((h.trace t' ht').rooted.root origin' (Array.mem_of_getElem? hk')).trace⟩
  have hmem : cut t + k ∈ a.rootsOf origin.vreg.num := (h.roots _ _).2 ⟨t, ht, k, origin, hk, rfl, rfl⟩
  obtain ⟨iv, hiv, htr⟩ := hroot ht hk
  have hfound : ∃ x, a.rootIn origin.vreg.num t = some x := by
    refine Option.isSome_iff_exists.1 (List.find?_isSome.2 ⟨_, hmem, ?_⟩)
    simp [Assignment.interval?, hiv, htr]
  obtain ⟨x, hx⟩ := hfound
  obtain ⟨t', ht', k', origin', hk', hv, rfl⟩ := (h.roots _ _).1 (List.mem_of_find?_eq_some hx)
  obtain ⟨iv', hiv', htr'⟩ := hroot ht' hk'
  have htt : t' = t := by
    have hany := List.find?_some hx
    simpa [Assignment.interval?, hiv', htr'] using hany
  subst htt
  rw [hx, hd.rooted.distinct.index_unique hk' hk hv]

theorem intervalAt_iff (hp : p.Posed) (h : p.Allocated n cut draft a) :
    a.intervalAt p v q = some id ↔ ∃ iv, a.intervals[id]? = some iv ∧ iv.vreg.num = v ∧ Covered iv.ranges q := by
  constructor
  · intro hat
    obtain ⟨root, hroot, hfind⟩ := Option.bind_eq_some_iff.1 hat
    obtain ⟨t, ht, k, origin, hk, hv, rfl⟩ := (h.roots _ _).1 (List.mem_of_find?_eq_some hroot)
    have hmem : id ∈ familyOf a.intervals (cut t + k) := List.mem_of_find?_eq_some hfind
    obtain ⟨iv, hiv, -, hvreg, -⟩ := ((h.trace t ht).family k origin hk).member id hmem
    refine ⟨iv, hiv, by rw [hvreg, hv], ?_⟩
    have hcov := List.find?_some hfind
    rw [Assignment.interval?, hiv] at hcov
    exact (covers_iff (h.sound hiv).ordered).1 hcov
  · rintro ⟨iv, hiv, rfl, hq⟩
    obtain ⟨t, k, origin, hm⟩ := h.exists_member hiv
    refine Option.bind_eq_some_iff.2 ⟨cut t + k, ?_, ?_⟩
    · rw [hp.traceAt (hm.inside hiv hq), hm.vreg]
      exact h.rootIn_eq hm.lt hm.root
    · have hcov : (a.interval? id).any (·.covers q) = true := by
        rw [Assignment.interval?, hiv]
        exact (covers_iff (h.sound hiv).ordered).2 hq
      have hsome : ∃ x, (a.family (cut t + k)).find? (fun id => (a.interval? id).any (·.covers q)) = some x :=
        Option.isSome_iff_exists.1 (List.find?_isSome.2 ⟨id, hm.mem, hcov⟩)
      obtain ⟨x, hx⟩ := hsome
      have hxmem : x ∈ familyOf a.intervals (cut t + k) := List.mem_of_find?_eq_some hx
      obtain ⟨jv, hjv, -⟩ := hm.family.member x hxmem
      have hxcov := List.find?_some hx
      rw [Assignment.interval?, hjv] at hxcov
      have hxq := (covers_iff (h.sound hjv).ordered).1 hxcov
      rw [hm.family.unique hm.mem hxmem (rangesOf_eq hiv ▸ hq) (rangesOf_eq hjv ▸ hxq)]
      exact hx

end Allocated

end Problem

end LinearScan
