import LinearScan.Proofs.RangeSet

/-!
# Range sets as ordered maps

An ordered map finds a range by comparing it with some of the ranges in it, and takes ranges that overlap for the same. That
is no order on all ranges, since a long range can be the same as two others that are not. It is one on the ranges of a set,
which have no point in common, so that every search tree of them gives the answers of `RangeSet.overlaps`.
-/

namespace LinearScan

namespace LiveRange

/-- The ranges have a point in common. -/
def Meets (q r : LiveRange) : Prop := ∃ x, q.contains x = true ∧ r.contains x = true

theorem Meets.symm {q r : LiveRange} (h : q.Meets r) : r.Meets q := by
  obtain ⟨x, hq, hr⟩ := h
  exact ⟨x, hr, hq⟩

theorem overlaps_iff_meets {q r : LiveRange} (hq : q.start < q.stop) (hr : r.start < r.stop) :
    q.overlaps r = true ↔ q.Meets r := by
  simp only [overlaps_iff, Meets, contains, Bool.and_eq_true, decide_eq_true_eq]
  constructor
  · intro h
    exact ⟨max q.start r.start, by omega⟩
  · rintro ⟨x, hx⟩
    omega

/-- Whether the search for a range goes on before another one, goes on behind it, or has found it. -/
def compare (q r : LiveRange) : Ordering :=
  if q.stop ≤ r.start then .lt else if r.stop ≤ q.start then .gt else .eq

theorem compare_cases (q r : LiveRange) :
    (q.compare r = .lt ∧ q.stop ≤ r.start) ∨ (q.compare r = .gt ∧ r.stop ≤ q.start) ∨
      (q.compare r = .eq ∧ r.start < q.stop ∧ q.start < r.stop) := by
  unfold LiveRange.compare
  split_ifs with hlt hgt
  · exact .inl ⟨rfl, hlt⟩
  · exact .inr (.inl ⟨rfl, hgt⟩)
  · exact .inr (.inr ⟨rfl, by omega, by omega⟩)

end LiveRange

open LiveRange

/-- A tree of ranges in which the search for a range goes left or right of those that it is compared with. -/
inductive SearchTree where
  | leaf
  | node (left : SearchTree) (range : LiveRange) (right : SearchTree)

namespace SearchTree

variable {t t' : SearchTree} {q : LiveRange} {qs rs ss : List LiveRange} {s : RangeSet}

/-- The ranges from left to right. -/
def toList : SearchTree → List LiveRange
  | leaf => []
  | node left r right => left.toList ++ r :: right.toList

def contains (q : LiveRange) : SearchTree → Bool
  | leaf => false
  | node left r right =>
    match q.compare r with
    | .lt => left.contains q
    | .eq => true
    | .gt => right.contains q

/-- Puts a range where the search for it ends. A range that is the same stays. -/
def insert (q : LiveRange) : SearchTree → SearchTree
  | leaf => node leaf q leaf
  | node left r right =>
    match q.compare r with
    | .lt => node (left.insert q) r right
    | .eq => node left r right
    | .gt => node left r (right.insert q)

/-- The tree can come from inserting the ranges one after another, none of which was found before. A tree may be rearranged
at any time. -/
inductive Grown : List LiveRange → SearchTree → Prop where
  | empty : Grown [] leaf
  | insert {qs : List LiveRange} {t : SearchTree} {q : LiveRange} :
      Grown qs t → t.contains q = false → Grown (qs ++ [q]) (t.insert q)
  | rearrange {qs : List LiveRange} {t t' : SearchTree} : Grown qs t → t'.toList = t.toList → Grown qs t'

/-- On ranges that follow each other, a search misses nothing that overlaps. -/
theorem contains_iff (h : Ordered t.toList) : t.contains q = true ↔ ∃ r ∈ t.toList, r.overlaps q = true := by
  induction t with
  | leaf => simp [contains, toList]
  | node left r right ihleft ihright =>
      obtain ⟨hleft, hrest, hcross⟩ := ordered_append.1 h
      obtain ⟨hr, hbehind, hright⟩ := ordered_cons.1 hrest
      have hsplit : (∃ x ∈ toList (node left r right), x.overlaps q = true) ↔
          (∃ x ∈ left.toList, x.overlaps q = true) ∨ r.overlaps q = true ∨ ∃ x ∈ right.toList, x.overlaps q = true := by
        simp only [toList, List.mem_append, List.mem_cons, or_and_right, exists_or, exists_eq_left]
      rw [hsplit, contains]
      rcases q.compare_cases r with ⟨hc, hlt⟩ | ⟨hc, hgt⟩ | ⟨hc, hover⟩
      · -- the range, and all that is right of it, starts behind `q`
        have hno : ¬ r.overlaps q = true := fun ho => by have := overlaps_iff.1 ho; omega
        have hnone : ¬ ∃ x ∈ right.toList, x.overlaps q = true := by
          rintro ⟨x, hx, ho⟩
          have := hbehind x hx
          have := overlaps_iff.1 ho
          omega
        simp only [hc, ihleft hleft, hno, hnone, Bool.false_eq_true, or_false]
      · have hno : ¬ r.overlaps q = true := fun ho => by have := overlaps_iff.1 ho; omega
        have hnone : ¬ ∃ x ∈ left.toList, x.overlaps q = true := by
          rintro ⟨x, hx, ho⟩
          have := hcross x hx r List.mem_cons_self
          have := overlaps_iff.1 ho
          omega
        simp only [hc, ihright hright, hno, hnone, Bool.false_eq_true, false_or]
      · simp only [hc, overlaps_iff.2 hover, true_or, or_true]

theorem place_append_right (h : ∀ r ∈ rs, r.stop ≤ q.start) :
    RangeSet.place q (rs ++ ss) = rs ++ RangeSet.place q ss := by
  induction rs with
  | nil => rfl
  | cons r rs ih =>
      obtain ⟨hr, hrs⟩ := List.forall_mem_cons.1 h
      rw [List.cons_append, RangeSet.place, if_pos hr, ih hrs, List.cons_append]

theorem place_append_left {r : LiveRange} (h : ¬ r.stop ≤ q.start) :
    RangeSet.place q (rs ++ r :: ss) = RangeSet.place q rs ++ r :: ss := by
  induction rs with
  | nil => exact if_neg h
  | cons x rs ih =>
      rw [List.cons_append, RangeSet.place, RangeSet.place]
      split
      · rw [ih, List.cons_append]
      · rfl

theorem toList_insert (h : Ordered t.toList) (hq : q.start < q.stop) (hnot : t.contains q = false) :
    (t.insert q).toList = RangeSet.place q t.toList := by
  induction t with
  | leaf => rfl
  | node left r right ihleft ihright =>
      obtain ⟨hleft, hrest, hcross⟩ := ordered_append.1 h
      obtain ⟨hr, -, hright⟩ := ordered_cons.1 hrest
      rw [contains] at hnot
      rw [insert]
      rcases q.compare_cases r with ⟨hc, hlt⟩ | ⟨hc, hgt⟩ | ⟨hc, -⟩
      · simp only [hc] at hnot ⊢
        rw [toList, toList, ihleft hleft hnot, place_append_left (by omega)]
      · simp only [hc] at hnot ⊢
        have hbefore : ∀ x ∈ left.toList, x.stop ≤ q.start := fun x hx => by
          have := hcross x hx r List.mem_cons_self
          omega
        rw [toList, toList, ihright hright hnot, place_append_right hbefore, RangeSet.place, if_pos hgt]
      · simp [hc] at hnot

theorem contains_eq_overlaps (h : Ordered s.ranges) (ht : t.toList = s.ranges) (q : LiveRange) :
    t.contains q = s.overlaps q := by
  rw [Bool.eq_iff_iff, contains_iff (ht ▸ h), ht]
  exact (RangeSet.find_iff h).symm

theorem Grown.exists_insertAll (h : Grown qs t) (hqs : ∀ q ∈ qs, q.start < q.stop) :
    ∃ s, RangeSet.empty.insertAll qs = .ok s ∧ t.toList = s.ranges := by
  induction h with
  | empty => exact ⟨.empty, rfl, rfl⟩
  | rearrange _ heq ih =>
      obtain ⟨s, hs, ht⟩ := ih hqs
      exact ⟨s, hs, heq.trans ht⟩
  | @insert qs t q _ hnot ih =>
      obtain ⟨hqs, hq⟩ := List.forall_mem_append.1 hqs
      have hq := hq q List.mem_cons_self
      obtain ⟨s, hs, ht⟩ := ih hqs
      obtain ⟨hord, -, -⟩ := RangeSet.insertAll_spec ordered_nil hqs hs
      refine ⟨⟨RangeSet.place q s.ranges⟩, ?_, ?_⟩
      · have hins : s.insert q = .ok ⟨RangeSet.place q s.ranges⟩ := by
          rw [RangeSet.insert, ← contains_eq_overlaps hord ht, hnot]
          rfl
        unfold RangeSet.insertAll at hs ⊢
        rw [List.foldlM_append, hs]
        change [q].foldlM RangeSet.insert s = _
        rw [List.foldlM_cons, hins]
        rfl
      · rw [toList_insert (ht ▸ hord) hq hnot, ht]

end SearchTree

namespace RangeSet

variable {s s' : RangeSet} {q : LiveRange} {qs rs : List LiveRange}

theorem place_perm (q : LiveRange) (rs : List LiveRange) : (place q rs).Perm (q :: rs) := by
  induction rs with
  | nil => exact .refl _
  | cons r rs ih =>
      unfold place
      split
      · exact (ih.cons r).trans (.swap q r rs)
      · exact .refl _

theorem insertAll_perm (h : s.insertAll qs = .ok s') : s'.ranges.Perm (qs ++ s.ranges) := by
  refine Except.foldlM_append (I := fun done s' => s'.ranges.Perm (done ++ s.ranges))
    (fun done q _ s1 s2 _ hd hq => ?_) (.refl _) h
  unfold insert at hq
  split at hq
  · cases hq
  · cases hq
    refine (place_perm q s1.ranges).trans ((hd.cons q).trans ?_)
    rw [List.append_assoc]
    exact List.perm_middle.symm

theorem apart_of_ordered (h : Ordered rs) : rs.Pairwise fun q r => ¬ q.Meets r := by
  refine h.apart.imp_of_mem fun {q r} hq hr hle hmeet => ?_
  have := overlaps_iff.1 ((overlaps_iff_meets (h.proper q hq) (h.proper r hr)).2 hmeet)
  omega

/-- Ranges can be inserted one after another, each where nothing overlaps it, exactly if no two of them meet. Then all of
them are in the set, a range overlaps it exactly if it meets one of them, and every ordered map that they are inserted into
has the same ranges and gives the same answers. -/
theorem overlaps_exact (hqs : ∀ q ∈ qs, q.start < q.stop) :
    ((∃ s, empty.insertAll qs = .ok s) ↔ qs.Pairwise fun q r => ¬ q.Meets r) ∧
    ∀ s, empty.insertAll qs = .ok s →
      (∀ q, q.start < q.stop → (s.overlaps q = true ↔ ∃ r ∈ qs, r.Meets q)) ∧
      (s.ranges.Pairwise fun q r => ¬ q.Meets r) ∧ s.ranges.Perm qs ∧
      ∀ t, SearchTree.Grown qs t → t.toList = s.ranges ∧ ∀ q, t.contains q = s.overlaps q := by
  have hordered (s : RangeSet) (hs : empty.insertAll qs = .ok s) : Ordered s.ranges ∧ s.ranges.Perm qs := by
    refine ⟨(insertAll_spec ordered_nil hqs hs).1, ?_⟩
    simpa [empty] using insertAll_perm hs
  refine ⟨⟨?_, fun hapart => ?_⟩, fun s hs => ?_⟩
  · rintro ⟨s, hs⟩
    obtain ⟨hord, hperm⟩ := hordered s hs
    exact (apart_of_ordered hord).perm hperm fun hqr hrq => hqr hrq.symm
  · refine exists_insertAll_of_apart ordered_nil hqs (hapart.imp_of_mem fun {q r} hq hr hqr ho => hqr ?_) (by simp [empty])
    exact (overlaps_iff_meets (hqs q hq) (hqs r hr)).1 ho
  · obtain ⟨hord, hperm⟩ := hordered s hs
    refine ⟨fun q hq => ?_, apart_of_ordered hord, hperm, fun t ht => ?_⟩
    · refine (find_iff hord).trans (exists_congr fun r => ?_)
      rw [hperm.mem_iff]
      exact and_congr_right fun hr => overlaps_iff_meets (hqs r hr) hq
    · obtain ⟨s', hs', hlist⟩ := ht.exists_insertAll hqs
      cases hs.symm.trans hs'
      exact ⟨hlist, SearchTree.contains_eq_overlaps hord hlist⟩

/-- A range that overlaps two of three, in a tree that has been turned. -/
theorem overlaps_exact_three :
    (∀ q ∈ [⟨4, 6⟩, ⟨0, 2⟩, ⟨6, 9⟩], LiveRange.start q < q.stop) ∧
    ∃ s t, empty.insertAll [⟨4, 6⟩, ⟨0, 2⟩, ⟨6, 9⟩] = .ok s ∧ SearchTree.Grown [⟨4, 6⟩, ⟨0, 2⟩, ⟨6, 9⟩] t ∧
      t.toList = [⟨0, 2⟩, ⟨4, 6⟩, ⟨6, 9⟩] ∧ t.contains ⟨5, 7⟩ = true ∧ s.overlaps ⟨5, 7⟩ = true ∧
      s.overlaps ⟨2, 4⟩ = false := by
  have hproper : ∀ q ∈ [⟨4, 6⟩, ⟨0, 2⟩, ⟨6, 9⟩], LiveRange.start q < q.stop := by decide
  have hs : empty.insertAll [⟨4, 6⟩, ⟨0, 2⟩, ⟨6, 9⟩] = .ok ⟨[⟨0, 2⟩, ⟨4, 6⟩, ⟨6, 9⟩]⟩ := by decide
  have ht : SearchTree.Grown [⟨4, 6⟩, ⟨0, 2⟩, ⟨6, 9⟩]
      (.node (.node .leaf ⟨0, 2⟩ .leaf) ⟨4, 6⟩ (.node .leaf ⟨6, 9⟩ .leaf)) := by
    have htwo : SearchTree.Grown [⟨4, 6⟩, ⟨0, 2⟩] (.node .leaf ⟨0, 2⟩ (.node .leaf ⟨4, 6⟩ .leaf)) :=
      .rearrange (.insert (.insert .empty rfl) rfl) rfl
    exact .rearrange (.insert htwo rfl) rfl
  obtain ⟨hiff, -, -, htree⟩ := (overlaps_exact hproper).2 _ hs
  obtain ⟨hlist, hsame⟩ := htree _ ht
  have hfound := (hiff ⟨5, 7⟩ (by decide)).2 ⟨⟨4, 6⟩, by decide, 5, rfl, rfl⟩
  exact ⟨hproper, _, _, hs, ht, hlist, (hsame _).trans hfound, hfound, rfl⟩

end RangeSet

end LinearScan
