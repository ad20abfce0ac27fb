import LinearScan.Proofs.Move.Sequentialize
import Mathlib.Data.List.Cycle
import Mathlib.Data.Set.Card
import Mathlib.Dynamics.PeriodicPts.Lemmas

/-!
# Rings of moves

Moves lead from location to location. A ring is a closed chain of moves that meets no location twice. Locations have
at most one move into them, so rings have no location in common, and each of them has to be broken once: a source is
parked when every pending move lies on a ring, and only then.
-/

namespace LinearScan

namespace Move

variable {τ : Type} {ms others rest : List (Move τ)} {m : Move τ} {a b : Allocation} {c c' : Cycle Allocation}

/-- Some move goes from `a` to `b`. -/
def Leads (ms : List (Move τ)) (a b : Allocation) : Prop := ∃ m ∈ ms, m.source = a ∧ m.dest = b

/-- The closed chains of moves that meet no location twice. -/
def rings (ms : List (Move τ)) : Set (Cycle Allocation) := {c | c ≠ Cycle.nil ∧ c.Nodup ∧ c.Chain (Leads ms)}

theorem Leads.mono (h : Leads ms a b) (hsub : ∀ m ∈ ms, m ∈ others) : Leads others a b := by
  obtain ⟨m, hm, hab⟩ := h
  exact ⟨m, hsub m hm, hab⟩

theorem Pending.eq_of_dest {x y : Move τ} (h : Pending ms) (hx : x ∈ ms) (hy : y ∈ ms) (hd : x.dest = y.dest) : x = y :=
  List.inj_on_of_nodup_map h.nodup hx hy hd

theorem Pending.leads_unique {a' : Allocation} (h : Pending ms) (ha : Leads ms a b) (ha' : Leads ms a' b) : a = a' := by
  obtain ⟨x, hx, rfl, hxb⟩ := ha
  obtain ⟨y, hy, rfl, hyb⟩ := ha'
  rw [h.eq_of_dest hx hy (hxb.trans hyb.symm)]

/-! ## Walking around a ring -/

theorem exists_cons_of_mem (ha : a ∈ c) : ∃ l : List Allocation, c = (a :: l : List Allocation) := by
  induction c using Quotient.inductionOn' with
  | h l =>
      obtain ⟨xs, ys, rfl⟩ := List.append_of_mem (Cycle.mem_coe_iff.1 ha)
      exact ⟨ys ++ xs, Cycle.coe_eq_coe.2 List.isRotated_append⟩

theorem ring_of_mem (hc : c ∈ rings ms) (h : ∀ a ∈ c, ∀ b ∈ c, Leads ms a b → Leads others a b) : c ∈ rings others := by
  obtain ⟨hne, hnodup, hchain⟩ := hc
  refine ⟨hne, hnodup, ?_⟩
  induction c using Cycle.induction_on with
  | nil => trivial
  | cons a l _ =>
      have hmem : ∀ x ∈ a :: (l ++ [a]), x ∈ ((a :: l : List Allocation) : Cycle Allocation) := by
        intro x hx
        simp only [List.mem_cons, List.mem_append, List.not_mem_nil, or_false] at hx
        rcases hx with rfl | hx | rfl
        · simp
        · simp [hx]
        · simp
      rw [Cycle.chain_coe_cons] at hchain ⊢
      exact hchain.imp_of_mem_imp fun x y hx hy => h x (hmem x hx) y (hmem y hy)

theorem leads_on (hc : c ∈ rings ms) (ha : a ∈ c) : ∃ b ∈ c, Leads ms a b := by
  obtain ⟨l, rfl⟩ := exists_cons_of_mem ha
  have hchain := hc.2.2
  rw [Cycle.chain_coe_cons] at hchain
  cases l with
  | nil => exact ⟨a, ha, by simpa using hchain⟩
  | cons b l => exact ⟨b, by simp, (List.isChain_cons_cons.1 hchain).1⟩

theorem leads_up (hc : c ∈ rings ms) (ha : a ∈ c) : ∃ b ∈ c, Leads ms b a := by
  obtain ⟨l, rfl⟩ := exists_cons_of_mem ha
  have hchain := hc.2.2
  rw [Cycle.chain_ne_nil _ (List.cons_ne_nil a l)] at hchain
  exact ⟨_, Cycle.mem_coe_iff.2 (List.getLast_mem _), (List.isChain_cons_cons.1 hchain).1⟩

theorem transGen_of_ring (hc : c ∈ rings ms) (ha : a ∈ c) : Relation.TransGen (Leads ms) a a :=
  Cycle.chain_iff_pairwise.1 (hc.2.2.imp fun _ _ => Relation.TransGen.single) a ha a ha

theorem exists_mem_ring (hc : c ∈ rings ms) : ∃ a, a ∈ c := by
  induction c using Cycle.induction_on with
  | nil => exact absurd rfl hc.1
  | cons a l _ => exact ⟨a, by simp⟩

/-- Two ways from one location to another that come back to the first nowhere in between are the same. -/
theorem Pending.walk_unique (hp : Pending ms) {l l' : List Allocation} (hl : a ∉ l) (hl' : a ∉ l')
    (h : List.IsChain (Leads ms) (a :: (l ++ [b]))) (h' : List.IsChain (Leads ms) (a :: (l' ++ [b]))) : l = l' := by
  -- from the end backwards, since it is the moves into a location that are unique
  have hlast : ∀ {z b : Allocation} {l : List Allocation}, List.IsChain (Leads ms) (a :: (l ++ [z] ++ [b])) →
      List.IsChain (Leads ms) (a :: (l ++ [z])) ∧ Leads ms z b := by
    intro z b l h
    rw [List.append_assoc, ← List.cons_append, List.singleton_append, List.isChain_append_cons_cons] at h
    exact ⟨h.1, h.2.1⟩
  induction l using List.reverseRecOn generalizing l' b with
  | nil =>
      rcases List.eq_nil_or_concat' l' with rfl | ⟨k', z', rfl⟩
      · rfl
      · have hz := hp.leads_unique (by simpa using h) (hlast h').2
        simp [hz] at hl'
  | append_singleton k z ih =>
      rcases List.eq_nil_or_concat' l' with rfl | ⟨k', z', rfl⟩
      · have hz := hp.leads_unique (by simpa using h') (hlast h).2
        simp [hz] at hl
      · obtain ⟨hk, hz⟩ := hlast h
        obtain ⟨hk', hz'⟩ := hlast h'
        cases hp.leads_unique hz hz'
        rw [ih (fun ha => hl (by simp [ha])) (fun ha => hl' (by simp [ha])) hk hk']

theorem Pending.ring_unique (hp : Pending ms) (hc : c ∈ rings ms) (hc' : c' ∈ rings ms) (ha : a ∈ c) (ha' : a ∈ c') :
    c = c' := by
  obtain ⟨l, rfl⟩ := exists_cons_of_mem ha
  obtain ⟨l', rfl⟩ := exists_cons_of_mem ha'
  have hl := (List.nodup_cons.1 (Cycle.nodup_coe_iff.1 hc.2.1)).1
  have hl' := (List.nodup_cons.1 (Cycle.nodup_coe_iff.1 hc'.2.1)).1
  rw [hp.walk_unique hl hl' ((Cycle.chain_coe_cons _ a l).1 hc.2.2) ((Cycle.chain_coe_cons _ a l').1 hc'.2.2)]

/-! ## Safe moves -/

theorem rings_of_safe (hperm : (m :: others).Perm ms) (hsafe : ∀ x ∈ ms, x.source ≠ m.dest) :
    rings others = rings ms := by
  refine Set.Subset.antisymm (fun c hc => ?_) fun c hc => ?_
  · exact ring_of_mem hc fun a _ b _ hab => hab.mono fun x hx => hperm.mem_iff.1 (.tail _ hx)
  · refine ring_of_mem hc fun a _ b hb hab => ?_
    obtain ⟨x, hx, hxa, rfl⟩ := hab
    obtain ⟨z, -, y, hy, hyx, -⟩ := leads_on hc hb
    rcases List.mem_cons.1 (hperm.mem_iff.2 hx) with rfl | hx
    · exact absurd hyx (hsafe y hy)
    · exact ⟨x, hx, hxa, rfl⟩

/-- A way to a location that moves lead on from does not take a safe move. -/
theorem transGen_of_safe (hperm : (m :: others).Perm ms) (hsafe : ∀ x ∈ ms, x.source ≠ m.dest)
    (h : Relation.TransGen (Leads ms) a b) (hon : ∃ z, Leads ms b z) : Relation.TransGen (Leads others) a b := by
  have hstep : ∀ {x y : Allocation}, Leads ms x y → (∃ z, Leads ms y z) → Leads others x y := by
    rintro x y ⟨p, hp, hpx, rfl⟩ ⟨z, q, hq, hqp, -⟩
    rcases List.mem_cons.1 (hperm.mem_iff.2 hp) with rfl | hp
    · exact absurd hqp (hsafe q hq)
    · exact ⟨p, hp, hpx, rfl⟩
  induction h with
  | single hab => exact .single (hstep hab hon)
  | tail _ hbc ih => exact .tail (ih ⟨_, hbc⟩) (hstep hbc hon)

/-! ## Moves that are stuck -/

theorem Pending.exists_ring (hp : Pending ms) (hstuck : takeSafe ms ms = none) (hm : m ∈ ms) :
    ∃ c ∈ rings ms, m.source ∈ c := by
  have hperm := hp.sources_perm hstuck
  have hnext : ∀ a : {a // a ∈ ms.map source}, ∃ b : {a // a ∈ ms.map source}, Leads ms a b := by
    rintro ⟨a, ha⟩
    obtain ⟨x, hx, rfl⟩ := List.mem_map.1 ha
    exact ⟨⟨x.dest, hperm.mem_iff.1 (List.mem_map_of_mem hx)⟩, x, hx, rfl, rfl⟩
  choose next hnext using hnext
  have hinj : Function.Injective next := fun a b hab => Subtype.ext (hp.leads_unique (hnext a) (hab ▸ hnext b))
  have hfinite : Finite {a // a ∈ ms.map source} := List.finite_toSet _
  have hperiodic := hinj.mem_periodicPts ⟨m.source, List.mem_map_of_mem hm⟩
  refine ⟨(Function.periodicOrbit next ⟨m.source, List.mem_map_of_mem hm⟩).map Subtype.val, ⟨?_, ?_, ?_⟩, ?_⟩
  · simpa using hperiodic
  · have hnodup := Function.nodup_periodicOrbit (f := next) (x := ⟨m.source, List.mem_map_of_mem hm⟩)
    rw [Function.periodicOrbit_def] at hnodup ⊢
    rw [Cycle.map_coe, Cycle.nodup_coe_iff]
    exact (Cycle.nodup_coe_iff.1 hnodup).map Subtype.val_injective
  · rw [Cycle.chain_map, Function.periodicOrbit_chain' _ hperiodic]
    intro n
    rw [Function.iterate_succ_apply']
    exact hnext _
  · exact Cycle.mem_map.2 ⟨_, Function.self_mem_periodicOrbit hperiodic, rfl⟩

theorem Pending.rings_park (hp : Pending (m :: rest)) (hstuck : takeSafe (m :: rest) (m :: rest) = none)
    (hc : c ∈ rings (m :: rest)) (hm : m.source ∈ c) :
    c ∉ rings ({ m with source := .none } :: rest) ∧
      ∀ c', c' ∈ rings (m :: rest) ↔ c' = c ∨ c' ∈ rings ({ m with source := .none } :: rest) := by
  have hnodup := (hp.sources_perm hstuck).nodup_iff.1 hp.nodup
  have honly : ∀ x ∈ rest, x.source ≠ m.source := fun x hx heq =>
    (List.nodup_cons.1 hnodup).1 (heq ▸ List.mem_map_of_mem hx)
  have hreal := hp.source_ne_none hstuck m List.mem_cons_self
  refine ⟨fun hc' => ?_, fun c' => ⟨fun hc' => ?_, ?_⟩⟩
  · obtain ⟨b, -, x, hx, hxm, -⟩ := leads_on hc' hm
    rcases List.mem_cons.1 hx with rfl | hx
    · exact hreal hxm.symm
    · exact honly x hx hxm
  · by_cases hm' : m.source ∈ c'
    · exact .inl (hp.ring_unique hc' hc hm' hm)
    · refine .inr (ring_of_mem hc' fun a ha b _ hab => ?_)
      obtain ⟨x, hx, rfl, rfl⟩ := hab
      rcases List.mem_cons.1 hx with rfl | hx
      · exact absurd ha hm'
      · exact ⟨x, .tail _ hx, rfl, rfl⟩
  · rintro (rfl | hc')
    · exact hc
    · refine ring_of_mem hc' fun a ha b _ hab => ?_
      obtain ⟨x, hx, rfl, rfl⟩ := hab
      rcases List.mem_cons.1 hx with rfl | hx
      · -- nothing leads to the scratch location
        obtain ⟨z, -, y, hy, -, hyn⟩ := leads_up hc' ha
        exact absurd hyn (hp.park.real y hy)
      · exact ⟨x, .tail _ hx, rfl, rfl⟩

/-! ## Breaking rings -/

/-- The rings `cs` of pending moves, one after another, and how the sequence `s` breaks each of them: by parking one
of its locations, and by reading the scratch location into another one, `ds` being the latter. -/
structure Breaks (pending : List (Move τ)) (s : Sequence τ) (cs : List (Cycle Allocation)) (ds : List Allocation) :
    Prop where
  mem : ∀ c, c ∈ cs ↔ c ∈ rings pending
  nodup : cs.Nodup
  parked : List.Forall₂ (· ∈ ·) s.parked cs
  read : List.Forall₂ (· ∈ ·) ds cs
  length : s.moves.length = pending.length + s.parked.length
  dests : ((s.moves.filter (·.dest ≠ .none)).map dest).Perm (pending.map dest)
  writes : (s.moves.filter (·.dest = .none)).map source = s.parked
  reads : ((s.moves.filter (·.source = .none)).map dest).Perm ((pending.filter (·.source = .none)).map dest ++ ds)

namespace Breaks

variable {pending : List (Move τ)} {s : Sequence τ} {cs : List (Cycle Allocation)} {ds : List Allocation}

theorem done : Breaks ([] : List (Move τ)) ⟨[], []⟩ [] [] := by
  refine ⟨fun c => ⟨fun hc => (by cases hc), fun hc => ?_⟩, .nil, .nil, .nil, rfl, .nil, rfl, .nil⟩
  obtain ⟨a, ha⟩ := exists_mem_ring hc
  obtain ⟨b, -, x, hx, -⟩ := leads_on hc ha
  cases hx

theorem safe (hp : Pending pending) (htake : takeSafe pending pending = some (m, others)) (h : Breaks others s cs ds) :
    Breaks pending { s with moves := m :: s.moves } cs ds := by
  obtain ⟨hsafe, hperm⟩ := takeSafe_some htake
  have hreal : m.dest ≠ .none := hp.real m (hperm.mem_iff.1 List.mem_cons_self)
  refine ⟨fun c => ?_, h.nodup, h.parked, h.read, ?_, ?_, ?_, ?_⟩
  · rw [h.mem, rings_of_safe hperm (isSafe_iff.1 hsafe)]
  · rw [← hperm.length_eq]
    simp only [List.length_cons, h.length]
    omega
  · rw [List.filter_cons_of_pos (by simpa using hreal)]
    exact (h.dests.cons m.dest).trans (hperm.map dest)
  · rw [List.filter_cons_of_neg (by simpa using hreal)]
    exact h.writes
  · refine List.Perm.trans ?_ (((hperm.filter _).map dest).append_right ds)
    by_cases hsource : m.source = .none
    · rw [List.filter_cons_of_pos (by simpa using hsource), List.filter_cons_of_pos (by simpa using hsource)]
      exact h.reads.cons m.dest
    · rw [List.filter_cons_of_neg (by simpa using hsource), List.filter_cons_of_neg (by simpa using hsource)]
      exact h.reads

theorem park (hp : Pending (m :: rest)) (hstuck : takeSafe (m :: rest) (m :: rest) = none)
    (h : Breaks ({ m with source := .none } :: rest) s cs ds) :
    ∃ c, Breaks (m :: rest) ⟨{ m with dest := .none } :: s.moves, m.source :: s.parked⟩ (c :: cs) (m.dest :: ds) := by
  obtain ⟨c, hc, hm⟩ := hp.exists_ring hstuck List.mem_cons_self
  obtain ⟨hnot, hrings⟩ := hp.rings_park hstuck hc hm
  have hsource := hp.source_ne_none hstuck m List.mem_cons_self
  have hdest : m.dest ∈ c := by
    obtain ⟨b, hb, x, hx, hxm, rfl⟩ := leads_on hc hm
    have hnodup := (hp.sources_perm hstuck).nodup_iff.1 hp.nodup
    rwa [← List.inj_on_of_nodup_map hnodup hx List.mem_cons_self hxm]
  refine ⟨c, fun c' => ?_, ?_, .cons hm h.parked, .cons hdest h.read, ?_, ?_, ?_, ?_⟩
  · rw [List.mem_cons, h.mem, hrings]
  · exact List.nodup_cons.2 ⟨fun hmem => hnot ((h.mem c).1 hmem), h.nodup⟩
  · simp only [List.length_cons, h.length]
    omega
  · rw [List.filter_cons_of_neg (by simp)]
    exact h.dests
  · rw [List.filter_cons_of_pos (by simp)]
    exact congrArg (m.source :: ·) h.writes
  · rw [List.filter_cons_of_neg (by simpa using hsource), List.filter_cons_of_neg (by simpa using hsource)]
    refine h.reads.trans ?_
    rw [List.filter_cons_of_pos (by simp)]
    exact List.perm_middle.symm

end Breaks

theorem Orders.breaks {pending : List (Move τ)} {s : Sequence τ} (h : Orders pending s) (hp : Pending pending) :
    ∃ cs ds, Breaks pending s cs ds := by
  induction h with
  | done => exact ⟨[], [], .done⟩
  | safe htake _ ih =>
      obtain ⟨cs, ds, hb⟩ := ih (hp.perm (takeSafe_some htake).2.symm).tail
      exact ⟨cs, ds, hb.safe hp htake⟩
  | @park _ m _ hstuck _ ih =>
      obtain ⟨cs, ds, hb⟩ := ih hp.park
      obtain ⟨c, hb⟩ := hb.park hp hstuck
      exact ⟨c :: cs, m.dest :: ds, hb⟩

theorem Orders.acyclic {pending : List (Move τ)} {s : Sequence τ} (h : Orders pending s) (hparked : s.parked = []) :
    ∀ a, ¬ Relation.TransGen (Leads pending) a a := by
  induction h with
  | done =>
      intro a ha
      obtain ⟨b, ⟨x, hx, -⟩, -⟩ := Relation.TransGen.head'_iff.1 ha
      cases hx
  | safe htake _ ih =>
      obtain ⟨hsafe, hperm⟩ := takeSafe_some htake
      intro a ha
      obtain ⟨b, hab, -⟩ := Relation.TransGen.head'_iff.1 ha
      exact ih hparked a (transGen_of_safe hperm (isSafe_iff.1 hsafe) ha ⟨b, hab⟩)
  | park => cases hparked

/-! ## Counting -/

/-- Of locations that lie on rings, those on one ring are as many as that ring is listed. -/
theorem Pending.countP_ring (hp : Pending ms) {as : List Allocation} {cs : List (Cycle Allocation)}
    (h : List.Forall₂ (· ∈ ·) as cs) (hcs : ∀ c ∈ cs, c ∈ rings ms) (hc : c ∈ rings ms) :
    as.countP (· ∈ c) = cs.count c := by
  induction h with
  | nil => rfl
  | @cons a c₀ as cs ha _ ih =>
      have hiff : a ∈ c ↔ c₀ = c :=
        ⟨fun hac => hp.ring_unique (hcs c₀ List.mem_cons_self) hc ha hac, fun heq => heq ▸ ha⟩
      rw [List.countP_cons, List.count_cons, ih fun c hc => hcs c (.tail _ hc)]
      simp [hiff]

namespace Breaks

variable {pending : List (Move τ)} {s : Sequence τ} {cs : List (Cycle Allocation)} {ds : List Allocation}

theorem ncard_rings (h : Breaks pending s cs ds) : (rings pending).Finite ∧ (rings pending).ncard = cs.length := by
  have heq : rings pending = cs.toFinset := by
    ext c
    simp [h.mem]
  rw [heq, Set.ncard_coe_finset, List.toFinset_card_of_nodup h.nodup]
  exact ⟨Finset.finite_toSet _, rfl⟩

theorem exists_ring (h : Breaks pending s cs ds) (hneeds : s.needsScratch = true) : ∃ c, c ∈ rings pending := by
  cases cs with
  | nil => simp [Sequence.needsScratch, List.forall₂_nil_right_iff.1 h.parked] at hneeds
  | cons c cs => exact ⟨c, (h.mem c).1 List.mem_cons_self⟩

theorem countP_dest (h : Breaks pending s cs ds) (hp : Pending pending) (hm : m ∈ pending) :
    s.moves.countP (·.dest = m.dest) = 1 := by
  have hcount := h.dests.count_eq m.dest
  rw [List.count_eq_one_of_mem hp.nodup (List.mem_map_of_mem hm), List.count, List.countP_map, List.countP_filter] at hcount
  rw [← hcount]
  refine List.countP_congr fun x _ => ?_
  simp only [decide_eq_true_eq, Function.comp_apply, beq_iff_eq, Bool.and_eq_true]
  exact ⟨fun heq => ⟨heq, heq ▸ hp.real m hm⟩, And.left⟩

theorem countP_writes (h : Breaks pending s cs ds) (hp : Pending pending) (hc : c ∈ rings pending) :
    s.moves.countP (fun x => x.dest = .none ∧ x.source ∈ c) = 1 := by
  have hcount := hp.countP_ring h.parked (fun c hc => (h.mem c).1 hc) hc
  rw [List.count_eq_one_of_mem h.nodup ((h.mem c).2 hc), ← h.writes, List.countP_map, List.countP_filter] at hcount
  rw [← hcount]
  refine List.countP_congr fun x _ => ?_
  simp [and_comm]

/-- If no move out of the scratch location is pending, it is read once for each ring. -/
theorem reads_perm (h : Breaks pending s cs ds) (hnone : ∀ x ∈ pending, x.source ≠ .none) :
    ((s.moves.filter (·.source = .none)).map dest).Perm ds := by
  have hnil : pending.filter (·.source = .none) = [] := List.filter_eq_nil_iff.2 (by simpa using hnone)
  simpa [hnil] using h.reads

theorem countP_reads (h : Breaks pending s cs ds) (hp : Pending pending) (hnone : ∀ x ∈ pending, x.source ≠ .none)
    (hc : c ∈ rings pending) : s.moves.countP (fun x => x.source = .none ∧ x.dest ∈ c) = 1 := by
  have hcount := hp.countP_ring h.read (fun c hc => (h.mem c).1 hc) hc
  rw [List.count_eq_one_of_mem h.nodup ((h.mem c).2 hc), ← (h.reads_perm hnone).countP_eq, List.countP_map,
    List.countP_filter] at hcount
  rw [← hcount]
  refine List.countP_congr fun x _ => ?_
  simp [and_comm]

end Breaks

/-- The order of a group whose active moves have distinct destinations is as short as can be. Each destination is
written once. A scratch location is needed if and only if the moves lead from some location back to it. There is one
more move than active moves for each ring, and rings have no location in common: one move parks a location of the ring,
and one fills a location of the ring from the scratch location. -/
theorem sequentialize_minimal {group : List (Move τ)} (hreal : Avoids group .none)
    (hdistinct : ((active group).map dest).Nodup) :
    ∃ s, sequentialize group = .ok s ∧
      (∀ m ∈ active group, s.moves.countP (·.dest = m.dest) = 1) ∧
      (s.needsScratch = true ↔ ∃ a, Relation.TransGen (Leads (active group)) a a) ∧
      (rings (active group)).Finite ∧
      (rings (active group)).Pairwise (fun c c' => ∀ a ∈ c, a ∉ c') ∧
      s.moves.length = (active group).length + (rings (active group)).ncard ∧
      s.moves.countP (·.dest = .none) = (rings (active group)).ncard ∧
      s.moves.countP (·.source = .none) = (rings (active group)).ncard ∧
      ∀ c ∈ rings (active group), s.moves.countP (fun x => x.dest = .none ∧ x.source ∈ c) = 1 ∧
        s.moves.countP (fun x => x.source = .none ∧ x.dest ∈ c) = 1 := by
  obtain ⟨hp, s, hs, hord⟩ := sequentialize_orders hreal hdistinct
  obtain ⟨cs, ds, hb⟩ := hord.breaks hp
  obtain ⟨hfinite, hncard⟩ := hb.ncard_rings
  have hnone : ∀ x ∈ active group, x.source ≠ .none := fun x hx => (hreal.active x hx).1
  refine ⟨s, hs, fun m hm => hb.countP_dest hp hm, ⟨fun hneeds => ?_, ?_⟩, hfinite, ?_, ?_, ?_, ?_,
    fun c hc => ⟨hb.countP_writes hp hc, hb.countP_reads hp hnone hc⟩⟩
  · obtain ⟨c, hc⟩ := hb.exists_ring hneeds
    obtain ⟨a, ha⟩ := exists_mem_ring hc
    exact ⟨a, transGen_of_ring hc ha⟩
  · rintro ⟨a, ha⟩
    by_contra hneeds
    exact hord.acyclic (by simpa [Sequence.needsScratch] using hneeds) a ha
  · exact fun c hc c' hc' hne a ha ha' => hne (hp.ring_unique hc hc' ha ha')
  · rw [hb.length, hb.parked.length_eq, hncard]
  · rw [hncard, ← hb.parked.length_eq, ← hb.writes, List.length_map, List.countP_eq_length_filter]
  · rw [hncard, ← hb.read.length_eq, ← (hb.reads_perm hnone).length_eq, List.length_map, List.countP_eq_length_filter]

/-- A ring of three with a chain that hangs off it, a swap and an idle move: seven active moves become nine. -/
theorem sequentialize_minimal_twoRings :
    let r (n : Fin 64) := Allocation.reg ⟨n, some .int⟩
    let group : List (Move Nat) :=
      [⟨r 0, r 1, 0⟩, ⟨r 1, r 2, 1⟩, ⟨r 2, r 0, 2⟩, ⟨r 3, r 4, 3⟩, ⟨r 4, r 3, 4⟩, ⟨r 0, .stack ⟨0⟩, 5⟩,
        ⟨.stack ⟨0⟩, r 5, 6⟩, ⟨r 6, r 6, 7⟩]
    let ring : Cycle Allocation := ([r 0, r 1, r 2] : List Allocation)
    ∃ s, sequentialize group = .ok s ∧ (active group).length = 7 ∧ s.moves.length = 9 ∧ ring ∈ rings (active group) ∧
      (rings (active group)).ncard = 2 ∧ (∃ a, Relation.TransGen (Leads (active group)) a a) ∧
      s.moves.countP (fun x => x.dest = .none ∧ x.source ∈ ring) = 1 ∧
      s.moves.countP (fun x => x.source = .none ∧ x.dest ∈ ring) = 1 := by
  intro r group ring
  have hreal : Avoids group .none := by decide
  obtain ⟨s, hs, -, hneeds, -, -, hlength, -, -, heach⟩ := sequentialize_minimal hreal (by decide)
  have heval : sequentialize group = .ok ⟨[⟨.stack ⟨0⟩, r 5, 6⟩, ⟨r 0, .stack ⟨0⟩, 5⟩, ⟨r 0, .none, 0⟩, ⟨r 2, r 0, 2⟩,
      ⟨r 1, r 2, 1⟩, ⟨.none, r 1, 0⟩, ⟨r 3, .none, 3⟩, ⟨r 4, r 3, 4⟩, ⟨.none, r 4, 3⟩], [r 0, r 3]⟩ := by cbv
  cases Except.ok.inj (hs.symm.trans heval)
  have hring : ring ∈ rings (active group) := by
    refine ⟨by simp [ring], by decide, ?_⟩
    rw [Cycle.chain_coe_cons]
    simp only [List.cons_append, List.nil_append, List.isChain_cons_cons, List.isChain_singleton, and_true]
    exact ⟨⟨⟨r 0, r 1, 0⟩, by decide, rfl, rfl⟩, ⟨⟨r 1, r 2, 1⟩, by decide, rfl, rfl⟩, ⟨r 2, r 0, 2⟩, by decide, rfl, rfl⟩
  refine ⟨_, heval, by decide, rfl, hring, ?_, hneeds.1 rfl, heach ring hring⟩
  have hseven : (active group).length = 7 := by decide
  have hnine : 9 = (active group).length + (rings (active group)).ncard := hlength
  omega

end Move

end LinearScan
