import LinearScan.Generate
import LinearScan.Proofs.Generate.Ensures

/-!
# Generated graphs

A generated graph has no critical edges. Every block but the first has an edge from a block before it, and no edge leads
to the first.
-/

namespace LinearScan

namespace Generate

open Gen

variable {edges more : List (Nat × Nat)} {a b t n : Nat}

theorem mem_succsOf : t ∈ succsOf edges a ↔ (a, t) ∈ edges := by
  simp [succsOf]

theorem mem_predsOf : a ∈ Routine.predsOf edges t ↔ (a, t) ∈ edges := by
  simp [Routine.predsOf]

theorem succsOf_append : succsOf (edges ++ more) a = succsOf edges a ++ succsOf more a := by
  simp [succsOf]

theorem predsOf_append : Routine.predsOf (edges ++ more) t = Routine.predsOf edges t ++ Routine.predsOf more t := by
  simp [Routine.predsOf]

theorem succsOf_eq_nil (h : ∀ e ∈ edges, e.1 ≠ a) : succsOf edges a = [] := by
  simp only [succsOf, List.map_eq_nil_iff, List.filter_eq_nil_iff, decide_eq_true_eq]
  exact h

theorem predsOf_eq_nil (h : ∀ e ∈ edges, e.2 ≠ t) : Routine.predsOf edges t = [] := by
  simp only [Routine.predsOf, List.map_eq_nil_iff, List.filter_eq_nil_iff, decide_eq_true_eq]
  exact h

theorem count_predsOf (a t : Nat) : (Routine.predsOf edges t).count a = edges.count (a, t) := by
  rw [Routine.predsOf, List.count, List.countP_map, List.countP_filter, List.count]
  refine List.countP_congr fun e _ => ?_
  simp [Prod.ext_iff]

theorem count_succsOf (a t : Nat) : (succsOf edges a).count t = edges.count (a, t) := by
  rw [succsOf, List.count, List.countP_map, List.countP_filter, List.count]
  refine List.countP_congr fun e _ => ?_
  simp [Prod.ext_iff, and_comm]

/-- A graph of `n` blocks without critical edges, in which blocks are reached in order. -/
structure Shapely (n : Nat) (edges : List (Nat × Nat)) : Prop where
  edge : ∀ e ∈ edges, e.1 < n ∧ 0 < e.2 ∧ e.2 < n
  reach : ∀ k, 0 < k → k < n → ∃ j < k, (j, k) ∈ edges
  narrow : ∀ a, (succsOf edges a).length ≤ 1 ∨
    (succsOf edges a).length ≤ 2 ∧ ∀ t ∈ succsOf edges a, Routine.predsOf edges t = [a]

/-! ## The spine -/

/-- What is known of a spine that has come to block `b`. -/
structure Spined (n b : Nat) (s : Shape) : Prop where
  le : b ≤ n
  edge : ∀ e ∈ s.edges, e.1 < b ∧ 0 < e.2 ∧ e.2 ≤ b ∧ e.2 < n
  reach : ∀ k, 0 < k → k ≤ b → k < n → ∃ j < k, (j, k) ∈ s.edges
  joint : ∀ j ∈ s.joints, 0 < j ∧ j < b
  arm : ∀ a ∈ s.arms, a < b ∧ succsOf s.edges a = []
  nodup : s.arms.Nodup
  narrow : ∀ a, (succsOf s.edges a).length ≤ 1 ∨ a ∉ s.arms ∧ (succsOf s.edges a).length ≤ 2 ∧
    ∀ t ∈ succsOf s.edges a, t < b ∧ t ∉ s.joints ∧ Routine.predsOf s.edges t = [a]

/-- Blocks `b` to `b' - 1` as the next piece of a spine, with the edges that leave them and the arms among them. -/
structure Piece (n b b' : Nat) (new : List (Nat × Nat)) (arms : List Nat) : Prop where
  edge : ∀ e ∈ new, b ≤ e.1 ∧ e.1 < b' ∧ b < e.2 ∧ e.2 ≤ b' ∧ e.2 < n
  reach : ∀ k, b < k → k ≤ b' → k < n → ∃ j < k, (j, k) ∈ new
  arm : ∀ a ∈ arms, b ≤ a ∧ a < b' ∧ succsOf new a = []
  nodup : arms.Nodup
  narrow : ∀ a, (succsOf new a).length ≤ 1 ∨ a ∉ arms ∧ (succsOf new a).length ≤ 2 ∧
    ∀ t ∈ succsOf new a, t < b' ∧ Routine.predsOf new t = [a]

variable {s : Shape} {b' : Nat} {new : List (Nat × Nat)} {arms joints : List Nat}

theorem Spined.succs_of_ge (h : Spined n b s) (ha : b ≤ a) : succsOf s.edges a = [] := succsOf_eq_nil fun e he => by
  have := (h.edge e he).1
  omega

theorem Spined.preds_of_gt (h : Spined n b s) (ht : b < t) : Routine.predsOf s.edges t = [] := predsOf_eq_nil fun e he => by
  have := (h.edge e he).2.2.1
  omega

theorem Piece.succs_of_lt (h : Piece n b b' new arms) (ha : a < b) : succsOf new a = [] := succsOf_eq_nil fun e he => by
  have := (h.edge e he).1
  omega

theorem Piece.preds_of_le (h : Piece n b b' new arms) (ht : t ≤ b) : Routine.predsOf new t = [] :=
  predsOf_eq_nil fun e he => by
    have := (h.edge e he).2.2.1
    omega

/-- A new piece leaves the forks before it as they are, since it has no edges to blocks before its own. -/
theorem Spined.narrow_of_lt (h : Spined n b s) (hp : Piece n b b' new arms) (hb : b < b')
    (hjoints : ∀ j ∈ joints, j ∈ s.joints ∨ 0 < j ∧ j = b) (ha : a < b) : (succsOf (s.edges ++ new) a).length ≤ 1 ∨
      a ∉ s.arms ++ arms ∧ (succsOf (s.edges ++ new) a).length ≤ 2 ∧
        ∀ t ∈ succsOf (s.edges ++ new) a, t < b' ∧ t ∉ joints ∧ Routine.predsOf (s.edges ++ new) t = [a] := by
  rw [succsOf_append, hp.succs_of_lt ha, List.append_nil]
  refine (h.narrow a).imp_right fun hfork => ⟨fun hmem => ?_, hfork.2.1, fun t ht => ?_⟩
  · rcases List.mem_append.1 hmem with hmem | hmem
    · exact hfork.1 hmem
    · exact Nat.not_lt.2 (hp.arm a hmem).1 ha
  · obtain ⟨htb, htj, hpreds⟩ := hfork.2.2 t ht
    refine ⟨Nat.lt_trans htb hb, fun hmem => ?_, ?_⟩
    · rcases hjoints t hmem with hmem | hmem
      · exact htj hmem
      · omega
    · rw [predsOf_append, hpreds, hp.preds_of_le (Nat.le_of_lt htb)]
      rfl

/-- A fork of the new piece: none of its targets can be a joint so far. -/
theorem Spined.narrow_of_ge (h : Spined n b s) (hp : Piece n b b' new arms)
    (hjoints : ∀ j ∈ joints, j ≤ b) (ha : b ≤ a) : (succsOf (s.edges ++ new) a).length ≤ 1 ∨
      a ∉ s.arms ++ arms ∧ (succsOf (s.edges ++ new) a).length ≤ 2 ∧
        ∀ t ∈ succsOf (s.edges ++ new) a, t < b' ∧ t ∉ joints ∧ Routine.predsOf (s.edges ++ new) t = [a] := by
  rw [succsOf_append, h.succs_of_ge ha, List.nil_append]
  refine (hp.narrow a).imp_right fun hfork => ⟨fun hmem => ?_, hfork.2.1, fun t ht => ?_⟩
  · rcases List.mem_append.1 hmem with hmem | hmem
    · exact Nat.not_lt.2 ha (h.arm a hmem).1
    · exact hfork.1 hmem
  · obtain ⟨htb, hpreds⟩ := hfork.2.2 t ht
    have hgt : b < t := (hp.edge _ (mem_succsOf.1 ht)).2.2.1
    refine ⟨htb, fun hmem => Nat.not_lt.2 (hjoints t hmem) hgt, ?_⟩
    rw [predsOf_append, hpreds, h.preds_of_gt hgt]
    rfl

theorem Spined.extend (h : Spined n b s) (hp : Piece n b b' new arms) (hb : b < b') (hn : b' ≤ n)
    (hjoints : ∀ j ∈ joints, j ∈ s.joints ∨ 0 < j ∧ j = b) : Spined n b' ⟨s.edges ++ new, s.arms ++ arms, joints⟩ := by
  have hjoint : ∀ j ∈ joints, 0 < j ∧ j ≤ b := by
    intro j hj
    rcases hjoints j hj with hj | hj
    · have := h.joint j hj
      omega
    · omega
  refine ⟨hn, fun e he => ?_, fun k hk hkb hkn => ?_, fun j hj => ⟨(hjoint j hj).1, Nat.lt_of_le_of_lt (hjoint j hj).2 hb⟩,
    fun a ha => ?_, ?_, fun a => ?_⟩
  · rcases List.mem_append.1 he with he | he
    · have := h.edge e he
      omega
    · have := hp.edge e he
      omega
  · by_cases hle : k ≤ b
    · obtain ⟨j, hj, hmem⟩ := h.reach k hk hle hkn
      exact ⟨j, hj, List.mem_append_left _ hmem⟩
    · obtain ⟨j, hj, hmem⟩ := hp.reach k (by omega) hkb hkn
      exact ⟨j, hj, List.mem_append_right _ hmem⟩
  · rw [succsOf_append]
    rcases List.mem_append.1 ha with ha | ha
    · obtain ⟨hlt, hnil⟩ := h.arm a ha
      exact ⟨Nat.lt_trans hlt hb, by rw [hnil, hp.succs_of_lt hlt]; rfl⟩
    · obtain ⟨hge, hlt, hnil⟩ := hp.arm a ha
      exact ⟨hlt, by rw [hnil, h.succs_of_ge hge]; rfl⟩
  · refine List.nodup_append.2 ⟨h.nodup, hp.nodup, fun a ha a' ha' he => ?_⟩
    have := (h.arm a ha).1
    have := (hp.arm a' ha').1
    omega
  · rcases Nat.lt_or_ge a b with ha | ha
    · exact h.narrow_of_lt hp hb hjoints ha
    · exact h.narrow_of_ge hp (fun j hj => (hjoint j hj).2) ha

theorem piece_fork (hb : b + 3 < n) : Piece n b (b + 3) [(b, b + 1), (b, b + 2), (b + 2, b + 3)] [b + 1] := by
  refine ⟨fun e he => ?_, fun k hk hkb _ => ?_, fun a ha => ?_, by simp, fun a => ?_⟩
  · simp only [List.mem_cons, List.not_mem_nil, or_false] at he
    rcases he with rfl | rfl | rfl <;> simp only <;> omega
  · obtain rfl | rfl | rfl : k = b + 1 ∨ k = b + 2 ∨ k = b + 3 := by omega
    · exact ⟨b, by omega, by simp⟩
    · exact ⟨b, by omega, by simp⟩
    · exact ⟨b + 2, by omega, by simp⟩
  · rw [List.mem_singleton.1 ha]
    exact ⟨by omega, by omega, by simp [succsOf]⟩
  · by_cases ha : b = a
    · subst ha
      right
      simp [succsOf, Routine.predsOf]
    · left
      have hsuccs : succsOf [(b, b + 1), (b, b + 2), (b + 2, b + 3)] a = succsOf [(b + 2, b + 3)] a := by
        simp [succsOf, ha]
      rw [hsuccs, succsOf, List.length_map]
      exact List.length_filter_le ..

theorem piece_step (hb : b < n) : Piece n b (b + 1) (if b < n - 1 then [(b, b + 1)] else []) [] := by
  refine ⟨fun e he => ?_, fun k hk hkb hkn => ?_, by simp, .nil, fun a => .inl ?_⟩
  · split at he
    · rw [List.mem_singleton.1 he]
      simp only
      omega
    · cases he
  · obtain rfl : k = b + 1 := by omega
    exact ⟨b, by omega, by rw [if_pos (by omega)]; exact List.mem_singleton_self _⟩
  · rw [succsOf, List.length_map]
    refine Nat.le_trans (List.length_filter_le ..) ?_
    split <;> simp

theorem exists_joints (b : Nat) (s : Shape) :
    ∃ joints, (if 0 < b then { s with joints := s.joints ++ [b] } else s) = ⟨s.edges, s.arms, joints⟩ ∧
      ∀ j ∈ joints, j ∈ s.joints ∨ 0 < j ∧ j = b := by
  by_cases hb : 0 < b
  · refine ⟨s.joints ++ [b], if_pos hb, fun j hj => ?_⟩
    rcases List.mem_append.1 hj with hj | hj
    · exact .inl hj
    · obtain rfl := List.mem_singleton.1 hj
      exact .inr ⟨hb, rfl⟩
  · exact ⟨s.joints, if_neg hb, fun j hj => .inl hj⟩

variable {σ : Type} [Source σ] (opts : GenerateOptions)

theorem ensures_spine {room : Nat} (h : Spined n b s) (hroom : n ≤ room + b) :
    Ensures (spine opts n room b s : Gen σ Shape) (Spined n n) := by
  induction room generalizing b s with
  | zero =>
      obtain rfl : b = n := Nat.le_antisymm h.le (by omega)
      exact .pure h
  | succ room ih =>
      unfold spine
      split
      · rename_i hle
        obtain rfl : b = n := Nat.le_antisymm h.le hle
        exact .pure h
      · rename_i hlt
        obtain ⟨joints, hshape, hjoints⟩ := exists_joints b s
        dsimp only
        rw [hshape]
        have hstep := h.extend (piece_step (Nat.not_le.1 hlt)) (Nat.lt_succ_self b) (Nat.not_le.1 hlt) hjoints
        rw [List.append_nil] at hstep
        refine (ensures_coinIf _).bind fun fork hfork => ?_
        split
        · rename_i htrue
          have hcond := hfork htrue
          simp only [Bool.and_eq_true, decide_eq_true_eq] at hcond
          exact ih (h.extend (piece_fork (by omega)) (by omega) (by omega) hjoints) (by omega)
        · split
          · rename_i hnext
            rw [if_pos hnext] at hstep
            exact ih hstep (by omega)
          · rename_i hnext
            rw [if_neg hnext, List.append_nil] at hstep
            exact ih hstep (by omega)

/-! ## The arms -/

theorem ensures_jumps (joints arms : List Nat) :
    Ensures (jumps joints arms : Gen σ (List (Nat × Nat))) fun new =>
      (new.map Prod.fst).Sublist arms ∧ ∀ e ∈ new, e.2 ∈ joints := by
  induction arms with
  | nil => exact .pure ⟨List.Sublist.slnil, by simp⟩
  | cons arm rest ih =>
      unfold jumps
      refine Ensures.any.bind fun jumped _ => ?_
      split
      · refine (ensures_choose joints).bind fun target htarget => ih.bind fun new hnew => .pure ⟨?_, ?_⟩
        · exact hnew.1.cons_cons arm
        · exact List.forall_mem_cons.2 ⟨htarget, hnew.2⟩
      · exact ih.mono fun new hnew => ⟨hnew.1.cons arm, hnew.2⟩

theorem length_succsOf_le_one (h : (edges.map Prod.fst).Nodup) (a : Nat) : (succsOf edges a).length ≤ 1 := by
  have hcount : (succsOf edges a).length = (edges.map Prod.fst).count a := by
    rw [succsOf, List.length_map, ← List.countP_eq_length_filter, List.count, List.countP_map]
    congr 1
  exact hcount ▸ List.nodup_iff_count.1 h a

/-- Jumps from arms make no edge critical: an arm has no other edges, and no joint is the target of a fork. -/
theorem Spined.shapely (h : Spined n n s) (harms : (new.map Prod.fst).Sublist s.arms)
    (hjoints : ∀ e ∈ new, e.2 ∈ s.joints) : Shapely n (s.edges ++ new) := by
  have harm {e : Nat × Nat} (he : e ∈ new) : e.1 ∈ s.arms := harms.subset (List.mem_map_of_mem he)
  refine ⟨fun e he => ?_, fun k hk hkn => ?_, fun a => ?_⟩
  · rcases List.mem_append.1 he with he | he
    · have := h.edge e he
      omega
    · have := h.arm e.1 (harm he)
      have := h.joint e.2 (hjoints e he)
      omega
  · obtain ⟨j, hj, hmem⟩ := h.reach k hk (Nat.le_of_lt hkn) hkn
    exact ⟨j, hj, List.mem_append_left _ hmem⟩
  · rw [succsOf_append]
    by_cases ha : a ∈ s.arms
    · rw [(h.arm a ha).2]
      exact .inl (length_succsOf_le_one (h.nodup.sublist harms) a)
    · have hnone : succsOf new a = [] := succsOf_eq_nil fun e he heq => ha (heq ▸ harm he)
      rw [hnone, List.append_nil]
      refine (h.narrow a).imp_right fun hfork => ⟨hfork.2.1, fun t ht => ?_⟩
      obtain ⟨-, hjoint, hpreds⟩ := hfork.2.2 t ht
      have hnone : Routine.predsOf new t = [] := predsOf_eq_nil fun e he heq => hjoint (heq ▸ hjoints e he)
      rw [predsOf_append, hpreds, hnone]
      rfl

theorem ensures_graph (n : Nat) : Ensures (graph opts n : Gen σ (List (Nat × Nat))) (Shapely n) := by
  have hstart : Spined n 0 ⟨[], [], []⟩ :=
    ⟨Nat.zero_le n, by simp, fun k hk hk0 => by omega, by simp, by simp, .nil, fun a => .inl (by simp [succsOf])⟩
  refine (ensures_spine opts hstart (Nat.le_refl n)).bind fun s hs => ?_
  exact (ensures_jumps s.joints s.arms).bind fun new hnew => .pure (hs.shapely hnew.1 hnew.2)

end Generate

end LinearScan
