import LinearScan.Scan.Split
import LinearScan.Proofs.Interval
import Mathlib.Data.List.Pairwise

/-!
# Families of intervals

A root and the intervals split off from it, in order, are a partition of what the root was built with:
together they have its ranges and its uses. Splitting a member keeps this, and nothing else that a
scan does to an interval matters for it.
-/

namespace LinearScan

open LiveRange Interval

def rangesOf (ivs : Array Interval) (id : Nat) : List LiveRange := (ivs[id]?.map Interval.ranges).getD []

def usesOf (ivs : Array Interval) (id : Nat) : List UsePos := (ivs[id]?.map Interval.uses).getD []

/-- A root and what was split off from it. -/
def familyOf (ivs : Array Interval) (root : Nat) : List Nat :=
  root :: (ivs[root]?.map Interval.children).getD []

/-- The family of `root` is a partition of `origin`, which the root was at first. -/
structure Family (ivs : Array Interval) (root : Nat) (origin : Interval) : Prop where
  nodup : (familyOf ivs root).Nodup
  member : ∀ id ∈ familyOf ivs root, ∃ iv, ivs[id]? = some iv ∧
    iv.parent = (if id = root then none else some root) ∧ iv.vreg = origin.vreg ∧
    iv.trace = origin.trace
  ordered : Ordered ((familyOf ivs root).flatMap (rangesOf ivs))
  covered : ∀ q, Covered ((familyOf ivs root).flatMap (rangesOf ivs)) q ↔ Covered origin.ranges q
  /-- An interval starts, after a gap or not, where the root did or in front of an instruction. -/
  starts : ∀ r ∈ (familyOf ivs root).flatMap (rangesOf ivs),
    Point.isBefore r.start = true ∨ ∃ s ∈ origin.ranges, s.start = r.start
  uses : (familyOf ivs root).flatMap (usesOf ivs) = origin.uses
  dead : ∀ id ∈ familyOf ivs root, ∀ iv, ivs[id]? = some iv → iv.deadDef = true → origin.deadDef = true

namespace Family

variable {ivs ivs' : Array Interval} {root id pos : Nat} {origin iv head tail : Interval}

theorem single (h : ivs[root]? = some origin) (hp : origin.parent = none) (hc : origin.children = [])
    (hs : origin.Sound) : Family ivs root origin := by
  have hfam : familyOf ivs root = [root] := by simp [familyOf, h, hc]
  have hranges : rangesOf ivs root = origin.ranges := by simp [rangesOf, h]
  have huses : usesOf ivs root = origin.uses := by simp [usesOf, h]
  refine ⟨by simp [hfam], ?_, ?_, ?_, ?_, ?_, ?_⟩
  · intro id hid
    rw [hfam, List.mem_singleton] at hid
    subst hid
    exact ⟨origin, h, by simp [hp], rfl, rfl⟩
  · simpa [hfam, hranges] using hs.ordered
  · simp [hfam, hranges]
  · intro r hr
    exact .inr ⟨r, by simpa [hfam, hranges] using hr, rfl⟩
  · simp [hfam, huses]
  · intro id hid iv hiv
    rw [hfam, List.mem_singleton] at hid
    subst hid
    cases Option.some.inj (h.symm.trans hiv)
    exact fun hdead => hdead

/-! ## Changes that do not concern the family -/

/-- What a family depends on. -/
def shape (iv : Interval) : List LiveRange × List UsePos × Option Nat × List Nat × VirtReg × Nat × Bool :=
  (iv.ranges, iv.uses, iv.parent, iv.children, iv.vreg, iv.trace, iv.deadDef)

theorem congr (hf : Family ivs root origin)
    (h : ∀ j ∈ familyOf ivs root, ivs'[j]?.map shape = ivs[j]?.map shape) : Family ivs' root origin := by
  have hkeep : ∀ j ∈ familyOf ivs root, ∀ iv, ivs[j]? = some iv →
      ∃ iv', ivs'[j]? = some iv' ∧ shape iv' = shape iv := by
    intro j hj iv hiv
    have hmap := h j hj
    rw [hiv] at hmap
    exact Option.map_eq_some_iff.1 hmap
  have hfam : familyOf ivs' root = familyOf ivs root := by
    have hroot := congrArg (Option.map (·.2.2.2.1)) (h root (by simp [familyOf]))
    simp only [Option.map_map] at hroot
    exact congrArg (fun o => root :: o.getD []) hroot
  have hpart {β : Type} {f : Interval → List β} (hshape : ∀ a b, shape a = shape b → f a = f b) :
      (familyOf ivs root).flatMap (fun j => (ivs'[j]?.map f).getD []) =
        (familyOf ivs root).flatMap fun j => (ivs[j]?.map f).getD [] := by
    refine List.flatMap_congr fun j hj => ?_
    obtain ⟨iv, hiv, -⟩ := hf.member j hj
    obtain ⟨iv', hiv', heq⟩ := hkeep j hj iv hiv
    simp [hiv, hiv', hshape _ _ heq]
  have hranges := hpart (f := Interval.ranges) fun _ _ h => congrArg (·.1) h
  have huses := hpart (f := Interval.uses) fun _ _ h => congrArg (·.2.1) h
  refine ⟨by rw [hfam]; exact hf.nodup, fun j hj => ?_, ?_, ?_, ?_, ?_, fun j hj iv' hiv' hdead => ?_⟩
  · rw [hfam] at hj
    obtain ⟨iv, hiv, hp, hv, ht⟩ := hf.member j hj
    obtain ⟨iv', hiv', hshape⟩ := hkeep j hj iv hiv
    have hp' : iv'.parent = iv.parent := congrArg (·.2.2.1) hshape
    have hv' : iv'.vreg = iv.vreg := congrArg (·.2.2.2.2.1) hshape
    have ht' : iv'.trace = iv.trace := congrArg (·.2.2.2.2.2.1) hshape
    exact ⟨iv', hiv', hp'.trans hp, hv'.trans hv, ht'.trans ht⟩
  · rw [hfam]
    exact hranges ▸ hf.ordered
  · rw [hfam]
    exact hranges ▸ hf.covered
  · rw [hfam]
    exact hranges ▸ hf.starts
  · rw [hfam]
    exact huses.trans hf.uses
  · rw [hfam] at hj
    obtain ⟨iv, hiv, -⟩ := hf.member j hj
    obtain ⟨iv'', hiv'', hshape⟩ := hkeep j hj iv hiv
    cases Option.some.inj (hiv'.symm.trans hiv'')
    have hd : iv'.deadDef = iv.deadDef := congrArg (·.2.2.2.2.2.2) hshape
    exact hf.dead j hj iv hiv (hd ▸ hdead)

theorem between (hf : Family ivs root origin) {id' x y q : Nat} (hid : id ∈ familyOf ivs root)
    (hid' : id' ∈ familyOf ivs root) (hx : Covered (rangesOf ivs id) x) (hy : Covered (rangesOf ivs id) y)
    (hq : Covered (rangesOf ivs id') q) (hxq : x ≤ q) (hqy : q ≤ y) : id = id' := by
  have hpair : (familyOf ivs root).Pairwise fun j k =>
      (∀ r ∈ rangesOf ivs j, ∀ s ∈ rangesOf ivs k, r.stop ≤ s.start) ∨
        ∀ r ∈ rangesOf ivs j, ∀ s ∈ rangesOf ivs k, s.stop ≤ r.start :=
    (List.pairwise_flatMap.1 hf.ordered.apart).2.imp .inl
  have hsymm : Std.Symm fun j k => (∀ r ∈ rangesOf ivs j, ∀ s ∈ rangesOf ivs k, r.stop ≤ s.start) ∨
      ∀ r ∈ rangesOf ivs j, ∀ s ∈ rangesOf ivs k, s.stop ≤ r.start :=
    ⟨fun _ _ h => h.symm.imp (fun h r hr s hs => h s hs r hr) fun h r hr s hs => h s hs r hr⟩
  by_contra hne
  obtain ⟨r, hr, hrx⟩ := hx
  obtain ⟨s, hs, hsq⟩ := hq
  obtain ⟨r', hr', hry⟩ := hy
  rcases hpair.forall hid hid' hne with h | h
  · have := h r' hr' s hs
    omega
  · have := h r hr s hs
    omega

theorem unique (hf : Family ivs root origin) {id' q : Nat} (hid : id ∈ familyOf ivs root)
    (hid' : id' ∈ familyOf ivs root) (hq : Covered (rangesOf ivs id) q) (hq' : Covered (rangesOf ivs id') q) :
    id = id' :=
  hf.between hid hid' hq hq hq' (Nat.le_refl q) (Nat.le_refl q)

theorem follows (hf : Family ivs root origin) {id' q : Nat} (hid : id ∈ familyOf ivs root)
    (hid' : id' ∈ familyOf ivs root) (hne : id ≠ id') (hq : Covered (rangesOf ivs id) q)
    (hq' : Covered (rangesOf ivs id') (q + 1)) :
    id' ∈ (familyOf ivs root).drop 1 ∧ ∀ r ∈ rangesOf ivs id', q < r.start := by
  obtain ⟨r, hr, hrq⟩ := hq
  obtain ⟨r', hr', hrq'⟩ := hq'
  obtain ⟨as, bs, hsplit⟩ := List.append_of_mem hid'
  have hapart := (List.pairwise_flatMap.1 hf.ordered.apart).2
  rw [hsplit, List.pairwise_append] at hapart
  rw [hsplit] at hid
  rcases List.mem_append.1 hid with has | hbs
  · refine ⟨?_, fun s hs => ?_⟩
    · rw [hsplit]
      cases as with
      | nil => cases has
      | cons a as => simp
    · have := hapart.2.2 id has id' (by simp) r hr s hs
      omega
  · have hbs := (List.mem_cons.1 hbs).resolve_left hne
    have := (List.pairwise_cons.1 hapart.2.1).1 id hbs r' hr' r hr
    omega

theorem exists_member (hf : Family ivs root origin) {q : Nat} (hq : Covered origin.ranges q) :
    ∃ id ∈ familyOf ivs root, Covered (rangesOf ivs id) q := by
  obtain ⟨r, hr, hrq⟩ := (hf.covered q).2 hq
  obtain ⟨id, hid, hr⟩ := List.mem_flatMap.1 hr
  exact ⟨id, hid, r, hr, hrq⟩

theorem covered_of_mem (hf : Family ivs root origin) {q : Nat} (hid : id ∈ familyOf ivs root)
    (hq : Covered (rangesOf ivs id) q) : Covered origin.ranges q := by
  obtain ⟨r, hr, hrq⟩ := hq
  exact (hf.covered q).1 ⟨r, List.mem_flatMap.2 ⟨id, hid, hr⟩, hrq⟩

/-! ## Splitting a member -/

/-- The intervals after `id`, of the family of `root`, has been split into `head` and `tail`. -/
def splitArray (ivs : Array Interval) (id root : Nat) (head tail : Interval) : Array Interval :=
  ((ivs.setIfInBounds id head).push { tail with parent := some root }).modify root fun r =>
    { r with children := ScanState.adopt root id ivs.size r.children }

theorem getElem?_splitArray (hid : id < ivs.size) (j : Nat) :
    (splitArray ivs id root head tail)[j]? =
      (if j = ivs.size then some { tail with parent := some root }
        else if j = id then some head else ivs[j]?).map fun r =>
          if j = root then { r with children := ScanState.adopt root id ivs.size r.children } else r := by
  have hbase : ((ivs.setIfInBounds id head).push { tail with parent := some root })[j]? =
      if j = ivs.size then some { tail with parent := some root }
        else if j = id then some head else ivs[j]? := by
    rw [Array.getElem?_push, Array.size_setIfInBounds]
    split
    · rfl
    · rw [Array.getElem?_setIfInBounds]
      by_cases hj : id = j
      · subst hj
        simp [hid]
      · have hj' : ¬ j = id := fun e => hj e.symm
        simp [hj, hj']
  rw [splitArray, Array.getElem?_modify, hbase]
  by_cases hj : root = j
  · subst hj
    simp
  · have hj' : ¬ j = root := fun e => hj e.symm
    simp [hj, hj']

theorem insertAfter_append {x new : Nat} {as bs : List Nat} (h : x ∉ as) :
    ScanState.insertAfter x new (as ++ x :: bs) = as ++ x :: new :: bs := by
  induction as with
  | nil => simp [ScanState.insertAfter]
  | cons a as ih =>
      simp only [List.mem_cons, not_or] at h
      have ha : ¬ a = x := fun e => h.1 e.symm
      simp [ScanState.insertAfter, ha, ih h.2]

theorem cons_adopt (new : Nat) (children : List Nat) :
    root :: ScanState.adopt root id new children = ScanState.insertAfter id new (root :: children) := by
  by_cases h : id = root
  · subst h
    simp [ScanState.adopt, ScanState.insertAfter]
  · have h' : ¬ root = id := fun e => h e.symm
    simp [ScanState.adopt, ScanState.insertAfter, h, h']

/-- A split-off interval comes right after the one that it was split off from. -/
theorem familyOf_splitArray (hf : Family ivs root origin) (hid : ivs[id]? = some iv)
    (hhead : head.children = iv.children) :
    familyOf (splitArray ivs id root head tail) root =
      ScanState.insertAfter id ivs.size (familyOf ivs root) := by
  have hlt : id < ivs.size := (Array.getElem?_eq_some_iff.1 hid).1
  obtain ⟨riv, hriv, -⟩ := hf.member root (by simp [familyOf])
  have hrlt : root < ivs.size := (Array.getElem?_eq_some_iff.1 hriv).1
  have hne : ¬ root = ivs.size := Nat.ne_of_lt hrlt
  rw [familyOf, getElem?_splitArray hlt]
  by_cases hr : root = id
  · subst hr
    obtain rfl : iv = riv := Option.some.inj (hid.symm.trans hriv)
    simp [hne, hhead, familyOf, hriv, cons_adopt]
  · simp [hne, hr, familyOf, hriv, cons_adopt]

theorem lookup_splitArray (hlt : id < ivs.size) (root : Nat) (head tail : Interval) (j : Nat) :
    ∃ children : Interval → List Nat, (splitArray ivs id root head tail)[j]? =
      (if j = ivs.size then some { tail with parent := some root }
        else if j = id then some head else ivs[j]?).map fun iv => { iv with children := children iv } := by
  refine ⟨fun iv => if j = root then ScanState.adopt root id ivs.size iv.children else iv.children, ?_⟩
  rw [getElem?_splitArray hlt]
  congr 1
  funext iv
  split <;> rfl

theorem splitArray_cases {j : Nat} {w : Interval} (hlt : id < ivs.size)
    (h : (splitArray ivs id root head tail)[j]? = some w) : ∃ x children, w = { x with children } ∧
      ((j = ivs.size ∧ x = { tail with parent := some root }) ∨ (j = id ∧ x = head) ∨
        (j ≠ ivs.size ∧ j ≠ id ∧ ivs[j]? = some x)) := by
  obtain ⟨children, hlook⟩ := lookup_splitArray hlt root head tail j
  rw [h] at hlook
  obtain ⟨x, hx, rfl⟩ := Option.map_eq_some_iff.1 hlook.symm
  refine ⟨x, _, rfl, ?_⟩
  split at hx
  · rename_i hsize
    exact .inl ⟨hsize, (Option.some.inj hx).symm⟩
  · rename_i hsize
    split at hx
    · rename_i hj
      exact .inr (.inl ⟨hj, (Option.some.inj hx).symm⟩)
    · rename_i hj
      exact .inr (.inr ⟨hsize, hj, hx⟩)

theorem exists_familyOf_splitArray (head tail : Interval) (hf : Family ivs root origin) (hmem : id ∈ familyOf ivs root)
    (hid : ivs[id]? = some iv) (hhead : head.children = iv.children) :
    ∃ as bs, familyOf ivs root = as ++ id :: bs ∧
      familyOf (splitArray ivs id root head tail) root = as ++ id :: ivs.size :: bs ∧
      ∀ x ∈ as ++ bs, x ∈ familyOf ivs root ∧ x ≠ id ∧ x ≠ ivs.size := by
  obtain ⟨as, bs, hfam⟩ := List.append_of_mem hmem
  have hnodup := hf.nodup
  rw [hfam] at hnodup
  have hout : id ∉ as ++ bs := (List.nodup_cons.1 (List.perm_middle.nodup_iff.1 hnodup)).1
  refine ⟨as, bs, hfam, ?_, fun x hx => ?_⟩
  · rw [familyOf_splitArray hf hid hhead, hfam, insertAfter_append fun h => hout (List.mem_append_left _ h)]
  · have hxf : x ∈ familyOf ivs root := by
      rw [hfam]
      grind
    obtain ⟨xiv, hxiv, -⟩ := hf.member x hxf
    exact ⟨hxf, fun he => hout (he ▸ hx), Nat.ne_of_lt (Array.getElem?_eq_some_iff.1 hxiv).1⟩

theorem flatMap_splitArray {β : Type} {f : Interval → List β} {as bs : List Nat}
    (hc : ∀ iv children, f { iv with children } = f iv) (hp : ∀ iv parent, f { iv with parent } = f iv)
    (hlt : id < ivs.size) (hold : ∀ x ∈ as ++ bs, x ≠ id ∧ x ≠ ivs.size) :
    (as ++ id :: ivs.size :: bs).flatMap (fun j => ((splitArray ivs id root head tail)[j]?.map f).getD []) =
      as.flatMap (fun j => (ivs[j]?.map f).getD []) ++ (f head ++ f tail) ++
        bs.flatMap fun j => (ivs[j]?.map f).getD [] := by
  have hpart (j : Nat) : ((splitArray ivs id root head tail)[j]?.map f).getD [] =
      if j = ivs.size then f tail else if j = id then f head else (ivs[j]?.map f).getD [] := by
    obtain ⟨children, hj⟩ := lookup_splitArray hlt root head tail j
    have hf : f ∘ (fun iv => { iv with children := children iv }) = f := funext fun iv => hc iv _
    rw [hj, Option.map_map, hf]
    split
    · exact hp tail _
    · split <;> rfl
  have hkeep {l : List Nat} (hl : ∀ x ∈ l, x ∈ as ++ bs) :
      l.flatMap (fun j => ((splitArray ivs id root head tail)[j]?.map f).getD []) =
        l.flatMap fun j => (ivs[j]?.map f).getD [] := by
    refine List.flatMap_congr fun x hx => ?_
    obtain ⟨h1, h2⟩ := hold x (hl x hx)
    rw [hpart, if_neg h2, if_neg h1]
  rw [List.flatMap_append, List.flatMap_cons, List.flatMap_cons, hkeep fun x => List.mem_append_left _,
    hkeep fun x => List.mem_append_right _, hpart, hpart, if_neg (Nat.ne_of_lt hlt), if_pos rfl, if_pos rfl]
  simp only [List.append_assoc]

theorem member_splitArray (hf : Family ivs root origin) (hmem : id ∈ familyOf ivs root) (hid : ivs[id]? = some iv)
    (hs : Halves pos iv head tail) {x : Nat} (hx : x = id ∨ x = ivs.size ∨ x ∈ familyOf ivs root) :
    ∃ w, (splitArray ivs id root head tail)[x]? = some w ∧ w.parent = (if x = root then none else some root) ∧
      w.vreg = origin.vreg ∧ w.trace = origin.trace := by
  have hlt : id < ivs.size := (Array.getElem?_eq_some_iff.1 hid).1
  obtain ⟨children, hlook⟩ := lookup_splitArray hlt root head tail x
  obtain ⟨_, hiv, hparent, hvreg, htrace⟩ := hf.member id hmem
  cases Option.some.inj (hid.symm.trans hiv)
  by_cases hxs : x = ivs.size
  · obtain ⟨riv, hriv, -⟩ := hf.member root (by simp [familyOf])
    have hxr : ¬ x = root := hxs ▸ (Nat.ne_of_lt (Array.getElem?_eq_some_iff.1 hriv).1).symm
    rw [if_pos hxs] at hlook
    exact ⟨_, hlook, (if_neg hxr).symm, hs.vreg.trans hvreg, hs.trace.trans htrace⟩
  · by_cases hxi : x = id
    · subst hxi
      rw [if_neg hxs, if_pos rfl] at hlook
      refine ⟨_, hlook, ?_⟩
      rw [hs.headEq]
      exact ⟨hparent, hvreg, htrace⟩
    · obtain ⟨w, hw, hrest⟩ := hf.member x ((hx.resolve_left hxi).resolve_left hxs)
      rw [if_neg hxs, if_neg hxi, hw] at hlook
      exact ⟨_, hlook, hrest⟩

theorem split (hf : Family ivs root origin) (hmem : id ∈ familyOf ivs root) (hid : ivs[id]? = some iv)
    (hs : Halves pos iv head tail) (hpos : Point.isBefore pos = true) :
    Family (splitArray ivs id root head tail) root origin := by
  have hlt : id < ivs.size := (Array.getElem?_eq_some_iff.1 hid).1
  obtain ⟨as, bs, hfam, hnew, hold⟩ := exists_familyOf_splitArray head tail hf hmem hid (by rw [hs.headEq])
  have hranges : (as ++ id :: ivs.size :: bs).flatMap (rangesOf (splitArray ivs id root head tail)) =
      as.flatMap (rangesOf ivs) ++ (head.ranges ++ tail.ranges) ++ bs.flatMap (rangesOf ivs) :=
    flatMap_splitArray (fun _ _ => rfl) (fun _ _ => rfl) hlt fun x hx => (hold x hx).2
  have huses : (as ++ id :: ivs.size :: bs).flatMap (usesOf (splitArray ivs id root head tail)) =
      as.flatMap (usesOf ivs) ++ (head.uses ++ tail.uses) ++ bs.flatMap (usesOf ivs) :=
    flatMap_splitArray (fun _ _ => rfl) (fun _ _ => rfl) hlt fun x hx => (hold x hx).2
  have horigin : (familyOf ivs root).flatMap (rangesOf ivs) =
      as.flatMap (rangesOf ivs) ++ iv.ranges ++ bs.flatMap (rangesOf ivs) := by
    simp [hfam, rangesOf, hid]
  refine ⟨?_, fun x hx => ?_, ?_, fun q => ?_, fun r hr => ?_, ?_, fun x hx xiv hxiv hdead => ?_⟩
  · have hnodup := hf.nodup
    rw [hfam] at hnodup
    rw [hnew]
    have hfresh : ivs.size ∉ as ++ bs := fun h => (hold ivs.size h).2.2 rfl
    grind
  · rw [hnew] at hx
    refine member_splitArray hf hmem hid hs ?_
    rw [hfam]
    grind
  · rw [hnew, hranges]
    exact hs.cut.ordered_within (horigin ▸ hf.ordered)
  · rw [← hf.covered q, hnew, hranges, horigin]
    simp only [covered_append, ← hs.cut.covered]
  · rw [hnew, hranges] at hr
    have hstart := hf.starts
    rw [horigin] at hstart
    rcases List.mem_append.1 hr with hr | hr
    · rcases List.mem_append.1 hr with hr | hr
      · exact hstart r (by simp [hr])
      · obtain ⟨s, hs', -, -, hp | hp⟩ := hs.cut.pieces r hr
        · exact .inl (hp ▸ hpos)
        · rw [hp]
          exact hstart s (by simp [hs'])
    · exact hstart r (by simp [hr])
  · rw [hnew, huses, hs.uses, ← hf.uses, hfam]
    simp [usesOf, hid]
  · obtain ⟨y, children, rfl, ⟨-, rfl⟩ | ⟨-, rfl⟩ | ⟨hxs, hxi, hy⟩⟩ := splitArray_cases hlt hxiv
    · cases hs.place.2.2.2.symm.trans hdead
    · rw [hs.headEq] at hdead
      exact hf.dead id hmem iv hid hdead
    · refine hf.dead x ?_ y hy hdead
      rw [hnew] at hx
      rw [hfam]
      grind

theorem lookup_other {other j : Nat} {origin' : Interval} (hf : Family ivs root origin)
    (ho : Family ivs other origin') (hne : other ≠ root) (hmem : id ∈ familyOf ivs root)
    (hid : ivs[id]? = some iv) (hj : j ∈ familyOf ivs other) :
    (splitArray ivs id root head tail)[j]? = ivs[j]? := by
  have hlt : id < ivs.size := (Array.getElem?_eq_some_iff.1 hid).1
  obtain ⟨jiv, hjiv, hjp, -⟩ := ho.member j hj
  have hjs : ¬ j = ivs.size := Nat.ne_of_lt (Array.getElem?_eq_some_iff.1 hjiv).1
  have hjm : j ∉ familyOf ivs root := by
    intro hjr
    obtain ⟨jiv', hjiv', hjp', -⟩ := hf.member j hjr
    cases Option.some.inj (hjiv.symm.trans hjiv')
    rw [hjp] at hjp'
    grind
  have hji : ¬ j = id := fun e => hjm (e ▸ hmem)
  have hjr : ¬ j = root := fun e => hjm (e ▸ by simp [familyOf])
  rw [getElem?_splitArray hlt]
  simp [hjs, hji, hjr]

theorem split_other {other : Nat} {origin' : Interval} (hf : Family ivs root origin)
    (ho : Family ivs other origin') (hne : other ≠ root) (hmem : id ∈ familyOf ivs root)
    (hid : ivs[id]? = some iv) : Family (splitArray ivs id root head tail) other origin' :=
  ho.congr fun _ hj => by rw [lookup_other hf ho hne hmem hid hj]

/-- Members stay members of their families, and the split-off interval joins the family of the one that
was split. -/
theorem mem_familyOf_splitArray (tail : Interval) (hf : Family ivs root origin) (hmem : id ∈ familyOf ivs root)
    (hid : ivs[id]? = some iv) (hhead : head.children = iv.children) :
    ivs.size ∈ familyOf (splitArray ivs id root head tail) root ∧
      ∀ other origin' j, Family ivs other origin' → j ∈ familyOf ivs other →
        j ∈ familyOf (splitArray ivs id root head tail) other := by
  obtain ⟨as, bs, hfam, hnew, -⟩ := exists_familyOf_splitArray _ tail hf hmem hid hhead
  refine ⟨by simp [hnew], fun other origin' j ho hj => ?_⟩
  by_cases hne : other = root
  · subst hne
    rw [hfam] at hj
    rw [hnew]
    grind
  · have hself : other ∈ familyOf ivs other := by simp [familyOf]
    rw [familyOf, lookup_other hf ho hne hmem hid hself]
    exact hj

end Family

end LinearScan
