import LinearScan.Proofs.Roots.Reserved
import LinearScan.Proofs.Scan.Split

/-!
# From the roots to the scan

Hints and the order of the uses do not change what a draft covers and mentions, and the roots of a trace
are intervals as the invariant of the scan wants them.
-/

namespace LinearScan

open LiveRange Interval Run

namespace RootDraft

variable {p : Problem} {t : Nat} {d d' d'' : RootDraft}

/-! ## Hints -/

/-- The drafts differ in their hints only. -/
structure Hinted (d d' : RootDraft) : Prop where
  copies : d'.copies = d.copies
  reservations : d'.reservations = d.reservations
  roots : ∀ k : Nat, ∃ hint, d'.roots[k]? = d.roots[k]?.map fun iv => { iv with hint }

theorem Hinted.refl (d : RootDraft) : Hinted d d := by
  refine ⟨rfl, rfl, fun k => ?_⟩
  cases hk : d.roots[k]? with
  | none => exact ⟨none, rfl⟩
  | some iv => exact ⟨iv.hint, rfl⟩

theorem Hinted.trans (h : Hinted d d') (h' : Hinted d' d'') : Hinted d d'' := by
  refine ⟨h'.copies.trans h.copies, h'.reservations.trans h.reservations, fun k => ?_⟩
  obtain ⟨_, h1⟩ := h.roots k
  obtain ⟨hint, h2⟩ := h'.roots k
  refine ⟨hint, ?_⟩
  rw [h2, h1, Option.map_map]
  rfl

theorem hinted_modify (d : RootDraft) (k : Nat) (hint : Option PhysReg) :
    Hinted d { d with roots := d.roots.modify k ({ · with hint }) } := by
  refine ⟨rfl, rfl, fun j => ?_⟩
  simp only [Array.getElem?_modify]
  split
  · exact ⟨hint, rfl⟩
  · exact (Hinted.refl d).roots j

/-- What a trace's head learns about value `v`. -/
def hintFor (p : Problem) (a : Assignment) (head v : Nat) (incoming : Nat → Nat → Option VirtReg) (d : RootDraft) :
    Run RootDraft :=
  match d.find? v with
  | none => return d
  | some k => do
    match ← p.hintFrom a head incoming (p.routine.preds head) with
    | some r => return { d with roots := d.roots.modify k ({ · with hint := r.asHint }) }
    | none => return d

theorem hinted_of_hintFor {a : Assignment} {head v : Nat} {incoming : Nat → Nat → Option VirtReg}
    (h : Returns (hintFor p a head v incoming d) d') : Hinted d d' := by
  rw [hintFor] at h
  split at h
  · exact h.of_pure ▸ .refl d
  · obtain ⟨r, -, h⟩ := h.bind
    split at h
    · exact h.of_pure ▸ hinted_modify d _ _
    · exact h.of_pure ▸ .refl d

theorem hinted_of_addHints {a : Assignment} {head : Nat} (h : Returns (p.addHints a head d) d') : Hinted d d' := by
  obtain ⟨d1, h1, h2⟩ := h.bind
  have hfirst : Hinted d d1 :=
    Returns.foldlM_induct (fun b v b' _ hb hv => hb.trans (hinted_of_hintFor (v := v) hv)) (.refl d) h1
  exact Returns.foldlM_induct (fun b x b' _ hb hx => hb.trans (hinted_of_hintFor hx)) hfirst h2

/-! ## Finished roots -/

/-- The roots with their uses in order, and the reservations in order. -/
def finished (d : RootDraft) : RootDraft :=
  { d with roots := d.roots.map Problem.finishRoot, reservations := d.reservations.sorted }

theorem Hinted.finished_root (h : Hinted d d') (k : Nat) :
    ∃ hint, d'.finished.roots[k]? = d.roots[k]?.map fun iv => Problem.finishRoot { iv with hint } := by
  obtain ⟨hint, hk⟩ := h.roots k
  refine ⟨hint, ?_⟩
  simp only [finished, Array.getElem?_map, hk, Option.map_map, Function.comp_def]

theorem Hinted.exists_root {iv : Interval} (h : Hinted d d') (hd : d.Distinct) (hiv : iv ∈ d'.finished.roots) :
    ∃ iv0 hint, d.root iv0.vreg.num = some iv0 ∧ iv = Problem.finishRoot { iv0 with hint } := by
  obtain ⟨k, hk⟩ := Array.mem_iff_getElem?.1 hiv
  obtain ⟨hint, hfinished⟩ := h.finished_root k
  obtain ⟨iv0, hiv0, rfl⟩ := Option.map_eq_some_iff.1 (hfinished.symm.trans hk)
  exact ⟨iv0, hint, root_of_mem hd (Array.mem_of_getElem? hiv0), rfl⟩

theorem Hinted.finished_nums (h : Hinted d d') :
    d'.finished.roots.map (·.vreg.num) = d.roots.map (·.vreg.num) := by
  refine Array.ext_getElem? fun k => ?_
  obtain ⟨hint, hk⟩ := h.finished_root k
  simp only [Array.getElem?_map, hk, Option.map_map]
  rfl

theorem Hinted.extends (h : Hinted d d') : d.Extends 0 d'.finished := by
  have hroot : ∀ v iv, d.root v = some iv → ∃ hint, d'.finished.root v = some (Problem.finishRoot { iv with hint }) := by
    intro v iv hv
    obtain ⟨k, hk, hiv⟩ := Option.bind_eq_some_iff.1 hv
    obtain ⟨hint, hr⟩ := h.finished_root k
    refine ⟨hint, ?_⟩
    have hfind : d'.finished.find? v = some k := by rw [find?_eq, h.finished_nums, ← find?_eq, hk]
    simp only [root, hfind, Option.bind_some, hr, hiv, Option.map_some]
  refine ⟨?_, ?_, ?_⟩
  · rintro v q - ⟨iv, hiv, hq⟩
    obtain ⟨hint, hr⟩ := hroot v iv hiv
    exact ⟨_, hr, hq⟩
  · rintro v u ⟨iv, hiv, hu⟩
    obtain ⟨hint, hr⟩ := hroot v iv hiv
    exact ⟨_, hr, List.mem_mergeSort.2 hu⟩
  · intro c hc
    exact h.copies ▸ hc

end RootDraft

namespace Problem

variable {p : Problem} {t : Nat} {d d' : RootDraft} {iv : Interval}

/-- A root before the scan. -/
structure Root (p : Problem) (t : Nat) (iv : Interval) : Prop where
  small : iv.vreg.num < p.routine.numValues
  vreg : iv.vreg = p.value iv.vreg.num
  trace : iv.trace = t
  alloc : iv.alloc = .none
  spilled : iv.spilled = false
  parent : iv.parent = none
  children : iv.children = []
  sound : iv.Sound
  separated : Separated iv.ranges
  genuine : ∀ u ∈ iv.uses, p.UseIn t iv.vreg.num u
  inside : ∀ q, Covered iv.ranges q → p.InTrace t q

theorem Growing.finish {bs lo hi v : Nat} (h : p.Growing t bs lo hi v iv) (hne : iv.ranges ≠ [])
    (hnum : (p.value v).num = v) (hint : Option PhysReg) : p.Root t (finishRoot { iv with hint }) := by
  have hmem : ∀ {u : UsePos}, u ∈ (finishRoot { iv with hint }).uses → u ∈ iv.uses := fun hu => List.mem_mergeSort.1 hu
  have hvreg : iv.vreg = p.value v := by rw [h.plain]; rfl
  have hv : iv.vreg.num = v := by rw [hvreg, hnum]
  have hsorted : ((finishRoot { iv with hint }).uses).Pairwise fun u w => u.pos ≤ w.pos :=
    pairwise_mergeSort_key UsePos.pos iv.uses
  refine ⟨hv ▸ h.small, ?_, ?_, ?_, ?_, ?_, ?_, ⟨h.reaching.ordered, hne, hsorted, fun u hu => h.covered u (hmem hu)⟩,
    h.reaching.separated, fun u hu => ?_, h.inside⟩
  · change iv.vreg = p.value iv.vreg.num
    rw [hv, hvreg]
  · change iv.trace = t
    rw [h.plain]
    rfl
  · change iv.alloc = .none
    rw [h.plain]
    rfl
  · change iv.spilled = false
    rw [h.plain]
    rfl
  · change iv.parent = none
    rw [h.plain]
    rfl
  · change iv.children = []
    rw [h.plain]
    rfl
  · change p.UseIn t iv.vreg.num u
    rw [hv]
    exact h.genuine u (hmem hu)

/-- The finished draft of a trace. -/
structure Rooted (p : Problem) (t : Nat) (d : RootDraft) : Prop where
  distinct : d.Distinct
  root : ∀ iv ∈ d.roots, p.Root t iv
  reserved : ∀ r, Ordered ((d.reservations.of r).map Reservation.range)
  served : p.Served (p.InstrIn t) d
  built : ∀ b ∈ p.traces.blocks t, ∀ i ∈ (p.routine.span b).toList, Built p t b i d

theorem Rooted.proper (h : p.Rooted t d) (r : PhysReg) : ∀ res ∈ d.reservations.of r, res.range.start < res.range.stop :=
  fun _ hres => (h.reserved r).proper _ (List.mem_map_of_mem hres)

theorem Rooted.within (h : p.Rooted t d) (r : PhysReg) :
    ∀ res ∈ d.reservations.of r, ∀ q, res.range.start ≤ q → q < res.range.stop → p.InTrace t q :=
  fun _ => h.served.inTrace

theorem Served.finish {done : Nat → Prop} (h : p.Served done d) (hh : d.Hinted d') : p.Served done d'.finished := by
  have hof (r : PhysReg) : d'.finished.reservations.of r = d.reservations.sorted.of r := by
    rw [← hh.reservations]
    rfl
  have hcopies : d'.finished.copies = d.copies := hh.copies
  refine ⟨fun r => ?_, fun r x hx => ?_, fun i r x hi hx => ?_, hcopies ▸ h.copies, hcopies ▸ h.copied⟩
  · rw [hof]
    exact (List.pairwise_map.1 (h.ordered r).apart).imp .inl
  · rw [hof, Reservations.mem_of_sorted] at hx
    exact hcopies ▸ h.due r x hx
  · obtain ⟨y, hy, hxy⟩ := h.held i r x hi (hcopies ▸ hx)
    exact ⟨y, hof r ▸ Reservations.mem_of_sorted.2 hy, hxy⟩

theorem Drawn.finish (hp : p.Posed) (h : Drawn p t d) (hr : p.Served (p.InstrIn t) d) (hh : d.Hinted d') :
    p.Rooted t d'.finished := by
  have hext := hh.extends
  have hd := h.above 0
  refine ⟨?_, fun iv hiv => ?_, fun r => ?_, hr.finish hh,
    fun b hb i hi => (h.built b hb i hi).mono hext (Nat.zero_le _)⟩
  · rw [RootDraft.Distinct, hh.finished_nums]
    exact hd.distinct
  · obtain ⟨k, hk⟩ := Array.mem_iff_getElem?.1 hiv
    obtain ⟨hint, hr⟩ := hh.finished_root k
    rw [hk] at hr
    obtain ⟨iv0, hiv0, rfl⟩ := Option.map_eq_some_iff.1 hr.symm
    have hroot : d.root iv0.vreg.num = some iv0 := RootDraft.root_of_mem hd.distinct (Array.mem_of_getElem? hiv0)
    obtain ⟨hg, hne⟩ := hd.root _ iv0 hroot
    exact hg.finish hne (hp.num _) hint
  · change Ordered ((d'.reservations.sorted.of r).map Reservation.range)
    rw [hh.reservations]
    exact hr.ordered r

theorem Posed.returns_buildRoots (hp : p.Posed) {a a' : Assignment} {tr : TraceRoots}
    (h : Returns (p.buildRoots t a) (a', tr)) :
    ∃ d, p.Rooted t d ∧ tr = ⟨a.intervals.size, List.range' a.intervals.size d.roots.size, d.reservations⟩ ∧
      a' = { a with
        intervals := a.intervals ++ d.roots
        roots := (d.roots.toList.zip tr.roots).foldl (fun table (iv, id) => table.modify iv.vreg.num (· ++ [id])) a.roots
        copies := a.copies ++ d.copies } := by
  obtain ⟨d0, h0, h⟩ := h.bind
  obtain ⟨d1, h1, h⟩ := h.bind
  obtain ⟨_, -, h⟩ := h.bind
  obtain ⟨_, -, h⟩ := h.bind
  have h := h.of_pure
  cases h
  exact ⟨d1.finished, (hp.drawn h0).finish hp (hp.served h0) (RootDraft.hinted_of_addHints h1), rfl, rfl⟩

/-! ## The start of the scan -/

/-- The state in which the scan of a trace starts. -/
def scanStart (a : Assignment) (tr : TraceRoots) : ScanState :=
  ⟨a.intervals, (tr.roots.filterMap fun id => (a.interval? id).map (Waiting.of id)).foldl
    (fun q w => w.enqueue q) [], [], []⟩

theorem perm_foldl_enqueue (ws q : List Waiting) : (ws.foldl (fun q w => w.enqueue q) q).Perm (ws ++ q) := by
  induction ws generalizing q with
  | nil => exact List.Perm.refl _
  | cons w ws ih =>
      rw [List.foldl_cons]
      exact (ih _).trans (((ScanState.perm_enqueue w q).append_left ws).trans List.perm_middle)

theorem Root.good (h : p.Root t iv) : p.Good t iv := by
  refine ⟨h.sound, ⟨fun r hr => ?_, fun hs => ?_⟩, fun r hr => ?_, h.genuine⟩
  · rw [h.alloc] at hr
    cases hr
  · rw [h.spilled] at hs
    cases hs
  · rw [h.alloc] at hr
    cases hr

theorem Rooted.root_at (h : p.Rooted t d) {ivs : Array Interval} {id : Nat} (hid : ivs.size ≤ id)
    (hiv : (ivs ++ d.roots)[id]? = some iv) : p.Root t iv := by
  rw [Array.getElem?_append_right hid] at hiv
  exact h.root iv (Array.mem_of_getElem? hiv)

theorem Rooted.partitioned (h : p.Rooted t d) (ivs : Array Interval) :
    Partitioned p t ivs.size (ivs ++ d.roots) (ivs ++ d.roots) := by
  refine ⟨fun _ _ => rfl, fun root origin hr ho => ?_, fun id iv hid hiv => ?_,
    fun id iv hid hiv => (h.root_at hid hiv).good, fun id iv r hid hiv ha => ?_⟩
  · have hroot := h.root_at hr ho
    exact Family.single ho hroot.parent hroot.children hroot.sound
  · exact ⟨id, hid, (Array.getElem?_eq_some_iff.1 hiv).1, List.mem_cons_self⟩
  · rw [(h.root_at hid hiv).alloc] at ha
    cases ha

theorem Rooted.scanStart_ok (h : p.Rooted t d) {a a' : Assignment} {tr : TraceRoots}
    (htr : tr = ⟨a.intervals.size, List.range' a.intervals.size d.roots.size, d.reservations⟩)
    (ha : a'.intervals = a.intervals ++ d.roots) :
    ScanState.Ok p t a.intervals.size a'.intervals [] (scanStart a' tr) := by
  subst htr
  have hlt : ∀ id ∈ List.range' a.intervals.size d.roots.size, id < a'.intervals.size := by
    intro id hid
    rw [ha, Array.size_append]
    have := List.mem_range'_1.1 hid
    omega
  have hids : ((List.range' a.intervals.size d.roots.size).filterMap fun id =>
      (a'.interval? id).map (Waiting.of id)).map Waiting.id = List.range' a.intervals.size d.roots.size := by
    rw [List.map_filterMap]
    refine (List.filterMap_congr fun id hid => ?_).trans List.filterMap_some
    rw [Assignment.interval?, Array.getElem?_eq_getElem (hlt id hid)]
    rfl
  have hperm : (scanStart a' ⟨a.intervals.size, List.range' a.intervals.size d.roots.size, d.reservations⟩).listed.Perm
      (List.range' a.intervals.size d.roots.size) := by
    have hq := (perm_foldl_enqueue ((List.range' a.intervals.size d.roots.size).filterMap fun id =>
      (a'.interval? id).map (Waiting.of id)) []).map Waiting.id
    rw [List.append_nil, hids] at hq
    simpa only [ScanState.listed, scanStart, List.append_nil] using hq
  have hparts : Partitioned p t a.intervals.size a'.intervals a'.intervals := by
    rw [ha]
    exact h.partitioned a.intervals
  refine ⟨hparts, hperm.nodup_iff.2 List.nodup_range', fun id hid => ?_⟩
  have hmem := hperm.mem_iff.1 hid
  have hfirst := (List.mem_range'_1.1 hmem).1
  obtain ⟨iv, hiv⟩ : ∃ iv, a'.intervals[id]? = some iv := ⟨_, Array.getElem?_eq_getElem (hlt id hmem)⟩
  exact ⟨hfirst, iv, hiv, (h.root_at hfirst (ha ▸ hiv)).spilled⟩

end Problem

end LinearScan
