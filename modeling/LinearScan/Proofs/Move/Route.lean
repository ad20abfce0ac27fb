import LinearScan.Proofs.Move.Sequentialize

/-!
# Routing keeps the meaning of moves

A move between stack slots that goes through a register does what the move itself does, up to the
contents of that register. If the register is borrowed, it holds what it held again afterwards, and
only the slot that it was saved in has changed.
-/

namespace LinearScan

namespace Move

variable {τ : Type} {α : Type} {via save a : Allocation} {r : PhysReg} {m x : Move τ}

/-- The move reads or writes `a`. -/
def Touches (m : Move τ) (a : Allocation) : Prop := m.source = a ∨ m.dest = a

theorem touches_of_mem_through (h : x ∈ through via m) (ha : x.Touches a) : a = via ∨ m.Touches a := by
  rw [through] at h
  split at h
  · simp only [List.mem_cons, List.not_mem_nil, or_false] at h
    rcases h with rfl | rfl
    · exact ha.symm.imp Eq.symm .inl
    · exact ha.imp Eq.symm .inr
  · rw [List.mem_singleton.1 h] at ha
    exact .inr ha

theorem touches_of_mem_throughSaved (h : x ∈ throughSaved via save m)
    (ha : x.Touches a) : (a = via ∨ a = save) ∨ m.Touches a := by
  rw [throughSaved] at h
  split at h
  · simp only [List.mem_cons, List.not_mem_nil, or_false] at h
    rcases h with rfl | rfl | rfl | rfl
    · exact .inl (ha.imp Eq.symm Eq.symm)
    · exact ha.symm.imp (fun hv => .inl hv.symm) .inl
    · exact ha.imp (fun hv => .inl hv.symm) .inr
    · exact .inl (ha.symm.imp Eq.symm Eq.symm)
  · rw [List.mem_singleton.1 h] at ha
    exact .inr ha

/-- Moves that are each expanded into several do what they did, up to one location they do not use. -/
theorem perform_flatMap {expand : Move τ → List (Move τ)} {x : Allocation} {ms : List (Move τ)}
    (hfree : Avoids ms x)
    (h : ∀ m ∈ ms, ∀ (σ : Allocation → α) (a : Allocation), a ≠ x →
      perform (expand m) σ a = Function.update σ m.dest (σ m.source) a)
    {σ σ' : Allocation → α} (hσ : ∀ a, a ≠ x → σ' a = σ a) :
    ∀ a, a ≠ x → perform (ms.flatMap expand) σ' a = perform ms σ a := by
  induction ms generalizing σ σ' with
  | nil => exact hσ
  | cons m rest ih =>
    rw [List.flatMap_cons, perform_append, perform_cons]
    refine ih (fun p hp => hfree p (.tail _ hp)) (fun p hp => h p (.tail _ hp)) fun a ha => ?_
    rw [h m List.mem_cons_self σ' a ha]
    simp only [Function.update_apply, hσ _ (hfree m List.mem_cons_self).1, hσ a ha]

theorem perform_through (σ : Allocation → α) (ha : a ≠ .reg r) :
    perform (through (.reg r) m) σ a = Function.update σ m.dest (σ m.source) a := by
  rw [through]
  split
  · simp only [perform_cons, perform_nil, Function.update_self]
    by_cases hd : a = m.dest
    · rw [hd, Function.update_self, Function.update_self]
    · rw [Function.update_of_ne hd, Function.update_of_ne ha, Function.update_of_ne hd]
  · rfl

theorem reg_ne_of_isStack (h : a.isStack = true) : .reg r ≠ a := by
  rintro rfl
  cases h

theorem perform_throughSaved (hsave : save.isStack = true) (hsource : m.source ≠ save) (hdest : m.dest ≠ save)
    (σ : Allocation → α) (ha : a ≠ save) :
    perform (throughSaved (.reg r) save m) σ a = Function.update σ m.dest (σ m.source) a := by
  rw [throughSaved]
  split
  · next hstack =>
    rw [isStackToStack, Bool.and_eq_true] at hstack
    have hrs : Allocation.reg r ≠ save := reg_ne_of_isStack hsave
    have hrd : Allocation.reg r ≠ m.dest := reg_ne_of_isStack hstack.2
    simp only [perform_cons, perform_nil, Function.update_self, Function.update_of_ne hsource,
      Function.update_of_ne hdest.symm, Function.update_of_ne hrs.symm]
    by_cases har : a = .reg r
    · rw [har, Function.update_self, Function.update_of_ne hrd]
    · by_cases had : a = m.dest
      · rw [Function.update_of_ne har, had, Function.update_self, Function.update_self]
      · rw [Function.update_of_ne har, Function.update_of_ne had, Function.update_of_ne har,
          Function.update_of_ne ha, Function.update_of_ne had]
  · rfl

theorem isStackToStack_of_mem_through (h : x ∈ through (.reg r) m) : x.isStackToStack = false := by
  rw [through] at h
  split at h
  · rcases List.mem_pair.1 h with rfl | rfl <;> simp [isStackToStack, Allocation.isStack]
  · next hm =>
    rw [List.mem_singleton.1 h]
    exact Bool.not_eq_true _ ▸ hm

theorem isStackToStack_of_mem_throughSaved (h : x ∈ throughSaved (.reg r) save m) : x.isStackToStack = false := by
  rw [throughSaved] at h
  split at h
  · simp only [List.mem_cons, List.not_mem_nil, or_false] at h
    rcases h with rfl | rfl | rfl | rfl <;> simp [isStackToStack, Allocation.isStack]
  · next hm =>
    rw [List.mem_singleton.1 h]
    exact Bool.not_eq_true _ ▸ hm

end Move

/-! ## Choosing registers -/

namespace Scratch

variable {τ : Type} {at_ : Scratch} {spare : Nat → Allocation} {spares spares' : List Nat} {group : List (Move τ)}
  {s : Sequence τ} {r : PhysReg} {a : Allocation}

/-- The registers that may be overwritten, in the order in which they are taken. -/
def regs (at_ : Scratch) : List PhysReg := at_.dedicated.toList ++ at_.free

/-- The scratch location of broken cycles. -/
def cycle (at_ : Scratch) (spare : Nat → Allocation) : Allocation :=
  match at_.regs with
  | r :: _ => .reg r
  | [] => spare 0

/-- The registers that remain after breaking cycles. -/
def left (at_ : Scratch) (s : Sequence τ) : List PhysReg :=
  if s.needsScratch then at_.regs.drop 1 else at_.regs

/-- Everything that routing may overwrite if it asks for the given spare slots. -/
def Spoilt (at_ : Scratch) (spare : Nat → Allocation) (spares : List Nat) (a : Allocation) : Prop :=
  (∃ r ∈ at_.regs, a = .reg r) ∨ ∃ n ∈ spares, a = spare n

/-- The registers and the spare slots that are asked for are apart from the moves of a group and from each
other. A victim may occur in the moves. -/
structure Apart (at_ : Scratch) (spare : Nat → Allocation) (spares : List Nat) (group : List (Move τ)) :
    Prop where
  nodup : at_.regs.Nodup
  regs : ∀ r ∈ at_.regs, Move.Avoids group (.reg r)
  stack : ∀ n ∈ spares, (spare n).isStack = true
  avoided : ∀ n ∈ spares, Move.Avoids group (spare n)
  distinct : ∀ n ∈ spares, ∀ k ∈ spares, n ≠ k → spare n ≠ spare k

theorem cycle_eq (at_ : Scratch) (spare : Nat → Allocation) :
    (∃ r rest, at_.regs = r :: rest ∧ at_.cycle spare = .reg r) ∨
      at_.regs = [] ∧ at_.cycle spare = spare 0 := by
  rw [cycle]
  cases at_.regs with
  | nil => exact .inr ⟨rfl, rfl⟩
  | cons r rest => exact .inl ⟨r, rest, rfl, rfl⟩

theorem mem_regs_of_left (h : (at_.left s).head? = some r) : r ∈ at_.regs := by
  have hmem : r ∈ at_.left s := List.mem_of_mem_head? h
  rw [left] at hmem
  split at hmem
  · exact List.mem_of_mem_drop hmem
  · exact hmem

/-- The spare slots for broken cycles. -/
def cycleSpares (at_ : Scratch) (s : Sequence τ) : List Nat :=
  if s.needsScratch && at_.regs.isEmpty then [0] else []

theorem eq_zero_of_mem_cycleSpares {n : Nat}
    (h : n ∈ at_.cycleSpares s) : n = 0 := by
  rw [cycleSpares] at h
  split at h
  · exact List.mem_singleton.1 h
  · cases h

namespace Apart

theorem mono (h : Apart at_ spare spares group) (hsub : ∀ n ∈ spares', n ∈ spares) :
    Apart at_ spare spares' group :=
  ⟨h.nodup, h.regs, fun n hn => h.stack n (hsub n hn), fun n hn => h.avoided n (hsub n hn),
    fun n hn k hk => h.distinct n (hsub n hn) k (hsub k hk)⟩

theorem avoids_spoilt (h : Apart at_ spare spares group) (ha : at_.Spoilt spare spares a) :
    Move.Avoids group a := by
  rcases ha with ⟨r, hr, rfl⟩ | ⟨n, hn, rfl⟩
  · exact h.regs r hr
  · exact h.avoided n hn

theorem ne_none_of_spoilt (h : Apart at_ spare spares group)
    (ha : at_.Spoilt spare spares a) : a ≠ .none := by
  rcases ha with ⟨r, -, rfl⟩ | ⟨n, hn, rfl⟩
  · simp
  · intro hnone
    have := h.stack n hn
    rw [hnone] at this
    cases this

theorem left_ne_cycle (h : Apart at_ spare spares group)
    (hr : (at_.left s).head? = some r) (hneeds : s.needsScratch = true) :
    Allocation.reg r ≠ at_.cycle spare := by
  rw [left, if_pos hneeds] at hr
  rcases at_.cycle_eq spare with ⟨q, rest, hregs, hcycle⟩ | ⟨hregs, -⟩
  · rw [hcycle]
    rintro ⟨⟩
    rw [hregs] at hr
    exact (List.nodup_cons.1 (hregs ▸ h.nodup)).1 (List.mem_of_mem_head? hr)
  · simp [hregs] at hr

theorem reg_not_spoilt (h : Apart at_ spare spares group) (hr : r ∉ at_.regs) :
    ¬ at_.Spoilt spare spares (.reg r) := by
  rintro (⟨q, hq, ⟨⟩⟩ | ⟨n, hn, hspare⟩)
  · exact hr hq
  · exact Move.reg_ne_of_isStack (h.stack n hn) hspare

/-- A borrowed register is not saved in the scratch location of a broken cycle. -/
theorem spare_ne_cycle (h : Apart at_ spare (at_.cycleSpares s ++ [1]) group)
    (hneeds : s.needsScratch = true) : spare 1 ≠ at_.cycle spare := by
  rcases at_.cycle_eq spare with ⟨r, -, -, hcycle⟩ | ⟨hregs, hcycle⟩
  · exact hcycle ▸ (Move.reg_ne_of_isStack (h.stack 1 (by simp))).symm
  · exact hcycle ▸ h.distinct 1 (by simp) 0 (by simp [cycleSpares, hneeds, hregs]) (by decide)

end Apart

theorem Spoilt.mono (h : at_.Spoilt spare spares a) (hsub : ∀ n ∈ spares, n ∈ spares') : at_.Spoilt spare spares' a :=
  h.imp_right fun ⟨n, hn, ha⟩ => ⟨n, hsub n hn, ha⟩

theorem cycle_spoilt (hsub : ∀ n ∈ at_.cycleSpares s, n ∈ spares) (hneeds : s.needsScratch = true) :
    at_.Spoilt spare spares (at_.cycle spare) := by
  rcases at_.cycle_eq spare with ⟨r, rest, hregs, hcycle⟩ | ⟨hregs, hcycle⟩
  · exact .inl ⟨r, by simp [hregs], hcycle⟩
  · exact .inr ⟨0, hsub 0 (by simp [cycleSpares, hneeds, hregs]), hcycle⟩

theorem Apart.cycle_usable (h : Apart at_ spare [0, 1] group) (s : Sequence τ) (hneeds : s.needsScratch = true) :
    at_.cycle spare ≠ .none ∧ Move.Avoids (Move.active group) (at_.cycle spare) := by
  have hspoilt : at_.Spoilt spare [0, 1] (at_.cycle spare) :=
    cycle_spoilt (fun n hn => List.mem_cons.2 (.inl (eq_zero_of_mem_cycleSpares hn))) hneeds
  exact ⟨h.ne_none_of_spoilt hspoilt, (h.avoids_spoilt hspoilt).active⟩

end Scratch

namespace Sequence

variable {τ : Type} {at_ : Scratch} {spare : Nat → Allocation} {s : Sequence τ} {ms result group : List (Move τ)}
  {spares : List Nat} {outcome : Option (List (Move τ))}

/-- The outcome of routing `ms`, the moves of `s` with their scratch location, and the spare slots that it
takes. -/
inductive Routed (at_ : Scratch) (spare : Nat → Allocation) (s : Sequence τ) (ms : List (Move τ)) :
    Option (List (Move τ)) → List Nat → Prop where
  | direct : (at_.stackToStackOk = false → ∀ m ∈ ms, m.isStackToStack = false) →
      Routed at_ spare s ms (some ms) (at_.cycleSpares s)
  | through {r : PhysReg} : (at_.left s).head? = some r →
      Routed at_ spare s ms (some (ms.flatMap (Move.through (.reg r)))) (at_.cycleSpares s)
  | saved {v : PhysReg} : at_.left s = [] → at_.victim = some v →
      Routed at_ spare s ms (some (ms.flatMap (Move.throughSaved (.reg v) (spare 1))))
        (at_.cycleSpares s ++ [1])
  | stuck : at_.stackToStackOk = false → (∃ m ∈ ms, m.isStackToStack = true) → at_.left s = [] →
      at_.victim = none → Routed at_ spare s ms none (at_.cycleSpares s)

theorem route_routed (h : s.fill (at_.cycle spare) = .ok ms) :
    ∃ r, s.route at_ spare = .ok r ∧ Routed at_ spare s ms r.moves r.spares := by
  have hfill (next : List (Move τ) → Except Fault (Routing τ)) :
      (if s.needsScratch then s.fill (at_.cycle spare) >>= next else pure s.moves >>= next)
        = next ms := by
    cases hneeds : s.needsScratch with
    | true =>
      rw [if_pos rfl, h]
      rfl
    | false =>
      rw [fill, hneeds] at h
      cases h
      rfl
  refine Exists.imp (fun r => And.imp_left (hfill _).trans) ?_
  by_cases hplain : (at_.stackToStackOk || !ms.any Move.isStackToStack) = true
  · refine ⟨_, if_pos hplain, .direct fun hok m hm => ?_⟩
    simp only [hok, Bool.false_or, Bool.not_eq_true', List.any_eq_false] at hplain
    simpa using hplain m hm
  · refine Exists.imp (fun r => And.imp_left (if_neg hplain).trans) ?_
    simp only [Bool.not_eq_true, Bool.or_eq_false_iff, Bool.not_eq_false', List.any_eq_true] at hplain
    split
    · next r _ hr => exact ⟨_, rfl, .through hr⟩
    · next v hnone hv => exact ⟨_, rfl, .saved (List.head?_eq_none_iff.1 hnone) hv⟩
    · next hnone hv =>
      exact ⟨_, rfl, .stuck hplain.1 hplain.2 (List.head?_eq_none_iff.1 hnone) hv⟩

theorem fill_of_route {r : Routing τ}
    (h : s.route at_ spare = .ok r) : ∃ ms, s.fill (at_.cycle spare) = .ok ms := by
  cases hneeds : s.needsScratch with
  | false => exact ⟨s.moves, by simp [fill, hneeds]⟩
  | true =>
      simp only [route, hneeds, ↓reduceIte] at h
      obtain ⟨ms, hms, -⟩ := Except.bind_ok h
      exact ⟨ms, hms⟩

theorem Routed.cycleSpares_subset (h : Routed at_ spare s ms outcome spares) : ∀ n ∈ at_.cycleSpares s, n ∈ spares := by
  cases h with
  | saved _ _ => exact fun n hn => List.mem_append_left _ hn
  | _ => exact fun n hn => hn

theorem Routed.spares_subset (h : Routed at_ spare s ms outcome spares) : ∀ n ∈ spares, n ∈ [0, 1] := by
  have hcycle : ∀ n ∈ at_.cycleSpares s, n ∈ [0, 1] := fun n hn =>
    List.mem_cons.2 (.inl (Scratch.eq_zero_of_mem_cycleSpares hn))
  cases h with
  | saved _ _ =>
    intro n hn
    rcases List.mem_append.1 hn with hn | hn
    · exact hcycle n hn
    · exact .tail _ hn
  | _ => exact hcycle

theorem Routed.spares_sorted (h : Routed at_ spare s ms outcome spares) : spares.Pairwise (· ≤ ·) := by
  have hcycle : (at_.cycleSpares s).Pairwise (· ≤ ·) := by
    unfold Scratch.cycleSpares
    split <;> simp
  cases h with
  | direct _ => exact hcycle
  | through _ => exact hcycle
  | stuck _ _ _ _ => exact hcycle
  | saved _ _ =>
      refine List.pairwise_append.2 ⟨hcycle, by simp, fun n hn k hk => ?_⟩
      rw [Scratch.eq_zero_of_mem_cycleSpares hn]
      exact Nat.zero_le k

theorem touches_of_fill (hord : Move.Ordered (Move.active group) s) (hreal : Move.Avoids group .none)
    {scratch a : Allocation} (h : s.fill scratch = .ok ms) {m : Move τ} (hm : m ∈ ms) (ha : m.Touches a) :
    (s.needsScratch = true ∧ a = scratch) ∨ ∃ g ∈ group, g.Touches a := by
  unfold fill at h
  split at h
  · rename_i hneeds
    cases h
    have hparked : s.parked = [] := by simpa [needsScratch] using hneeds
    exact .inr ⟨m, (Move.mem_active.1 ((hord.perm hparked).mem_iff.1 hm)).1, ha⟩
  · rename_i hneeds
    split at h
    · cases h
    · cases h
      obtain ⟨m', hm', rfl⟩ := List.mem_map.1 hm
      have hput : ∀ b : Allocation, (b = .none ∨ ∃ g ∈ group, g.Touches b) → put scratch b = a →
          (s.needsScratch = true ∧ a = scratch) ∨ ∃ g ∈ group, g.Touches a := by
        rintro b (rfl | ⟨g, hg, hb⟩) hput
        · rw [put_none] at hput
          exact .inl ⟨by simpa using hneeds, hput.symm⟩
        · have hne : b ≠ .none := by
            rcases hb with rfl | rfl
            · exact (hreal g hg).1
            · exact (hreal g hg).2
          rw [put_of_ne hne] at hput
          exact .inr ⟨g, hg, hput ▸ hb⟩
      rcases ha with ha | ha
      · refine hput m'.source ((hord.source m' hm').imp_right ?_) ha
        rintro ⟨g, hg, heq⟩
        exact ⟨g, (Move.mem_active.1 hg).1, .inl heq⟩
      · refine hput m'.dest ((hord.dest m' hm').imp_right ?_) ha
        rintro ⟨g, hg, heq⟩
        exact ⟨g, (Move.mem_active.1 hg).1, .inr heq⟩

/-- Routed moves touch what the group touches, the registers they may go through, and spare slots that are asked for. -/
theorem Routed.touches (h : Routed at_ spare s ms (some result) spares) (hord : Move.Ordered (Move.active group) s)
    (hreal : Move.Avoids group .none) (hfill : s.fill (at_.cycle spare) = .ok ms) {m : Move τ} (hm : m ∈ result)
    {a : Allocation} (ha : m.Touches a) :
    (∃ r, (r ∈ at_.regs ∨ r ∈ at_.victim) ∧ a = .reg r) ∨ (∃ n ∈ spares, a = spare n) ∨ ∃ g ∈ group, g.Touches a := by
  have hfilled : ∀ x ∈ ms, x.Touches a →
      (∃ r, (r ∈ at_.regs ∨ r ∈ at_.victim) ∧ a = .reg r) ∨ (∃ n ∈ spares, a = spare n) ∨ ∃ g ∈ group, g.Touches a := by
    intro x hx hxa
    rcases touches_of_fill hord hreal hfill hx hxa with ⟨hneeds, rfl⟩ | hg
    · rcases Scratch.cycle_spoilt h.cycleSpares_subset hneeds with ⟨r, hr, heq⟩ | hn
      · exact .inl ⟨r, .inl hr, heq⟩
      · exact .inr (.inl hn)
    · exact .inr (.inr hg)
  cases h with
  | direct => exact hfilled m hm ha
  | @through r hr =>
      obtain ⟨x, hx, hm⟩ := List.mem_flatMap.1 hm
      rcases Move.touches_of_mem_through hm ha with rfl | hxa
      · exact .inl ⟨r, .inl (Scratch.mem_regs_of_left hr), rfl⟩
      · exact hfilled x hx hxa
  | @saved v _ hv =>
      obtain ⟨x, hx, hm⟩ := List.mem_flatMap.1 hm
      rcases Move.touches_of_mem_throughSaved hm ha with (rfl | rfl) | hxa
      · exact .inl ⟨v, .inr hv, rfl⟩
      · exact .inr (.inl ⟨1, by simp, rfl⟩)
      · exact hfilled x hx hxa

theorem Routed.effect (h : Routed at_ spare s ms (some result) spares) (hapart : at_.Apart spare spares group)
    (hfilled : Filled (Move.active group) (fun a => s.needsScratch = true ∧ a = at_.cycle spare) ms)
    {α : Type} (σ : Allocation → α) :
    Move.AtOnce (Move.active group) (at_.Spoilt spare spares) σ (Move.perform result σ) := by
  have hms := hfilled.effect α σ
  have hspoilt {a : Allocation} (ha : ¬ at_.Spoilt spare spares a) :
      ¬ (s.needsScratch = true ∧ a = at_.cycle spare) :=
    fun hc => ha (hc.2 ▸ Scratch.cycle_spoilt h.cycleSpares_subset hc.1)
  -- An expansion that agrees with the moves off one spoilt location has the same effect.
  have hagree {x : Allocation} (hx : at_.Spoilt spare spares x)
      (hres : ∀ a, a ≠ x → Move.perform result σ a = Move.perform ms σ a) :
      Move.AtOnce (Move.active group) (at_.Spoilt spare spares) σ (Move.perform result σ) := by
    refine ⟨fun m hm => ?_, fun a ha hns => ?_⟩
    · rw [hres _ ((hapart.avoids_spoilt hx).active m hm).2, hms.moved m hm]
    · rw [hres a fun hax => hns (hax ▸ hx), hms.kept a ha (hspoilt hns)]
  cases h with
  | direct _ => exact ⟨hms.moved, fun a ha hns => hms.kept a ha (hspoilt hns)⟩
  | @through r hr =>
    have hx : at_.Spoilt spare (at_.cycleSpares s) (.reg r) := .inl ⟨_, Scratch.mem_regs_of_left hr, rfl⟩
    have hfree := hfilled.avoids (hapart.avoids_spoilt hx).active
      fun hc => hapart.left_ne_cycle hr hc.1 hc.2
    exact hagree hx (Move.perform_flatMap hfree (fun _ _ σ _ ha => Move.perform_through σ ha)
      fun _ _ => rfl)
  | saved _ _ =>
    have hx : at_.Spoilt spare (at_.cycleSpares s ++ [1]) (spare 1) := .inr ⟨1, by simp, rfl⟩
    have hfree := hfilled.avoids (hapart.avoids_spoilt hx).active
      fun hc => hapart.spare_ne_cycle hc.1 hc.2
    refine hagree hx (Move.perform_flatMap hfree (fun m hm σ _ ha => ?_) fun _ _ => rfl)
    exact Move.perform_throughSaved (hapart.stack 1 (by simp)) (hfree m hm).1 (hfree m hm).2 σ ha

theorem Routed.no_stack_to_stack (h : Routed at_ spare s ms (some result) spares)
    (hok : at_.stackToStackOk = false) : ∀ m ∈ result, m.isStackToStack = false := by
  intro m hm
  cases h with
  | direct hms => exact hms hok m hm
  | through _ =>
    obtain ⟨x, -, hx⟩ := List.mem_flatMap.1 hm
    exact Move.isStackToStack_of_mem_through hx
  | saved _ _ =>
    obtain ⟨x, -, hx⟩ := List.mem_flatMap.1 hm
    exact Move.isStackToStack_of_mem_throughSaved hx

theorem Routed.none_iff (h : Routed at_ spare s ms outcome spares) :
    outcome = none ↔ at_.stackToStackOk = false ∧ (∃ m ∈ ms, m.isStackToStack = true) ∧
      at_.left s = [] ∧ at_.victim = none := by
  constructor
  · rintro rfl
    cases h with
    | stuck hok hstack hleft hvictim => exact ⟨hok, hstack, hleft, hvictim⟩
  · rintro ⟨hok, ⟨m, hm, hstack⟩, hleft, hvictim⟩
    cases h with
    | direct hms => simp [hms hok m hm] at hstack
    | through hr => simp [hleft] at hr
    | saved _ hv => simp [hvictim] at hv
    | stuck => rfl

/-- Routing an ordered group fails only for want of a register: no moves result exactly when moves
between stack slots are not possible, the filled sequence has one, and there is neither a register left
nor a victim. Otherwise the result does what the group does at once on all locations but those handed
over for it, and has no move between stack slots unless they are possible. -/
theorem route_performs {at_ : Scratch} {spare : Nat → Allocation} {group : List (Move τ)}
    (hreal : Move.Avoids group .none) (hdistinct : ((Move.active group).map Move.dest).Nodup)
    (hapart : at_.Apart spare [0, 1] group) (hvictim : ∀ v ∈ at_.victim, v ∉ at_.regs) :
    ∃ s ms r, Move.sequentialize group = .ok s ∧ s.fill (at_.cycle spare) = .ok ms ∧
      s.route at_ spare = .ok r ∧
      (r.moves = none ↔ at_.stackToStackOk = false ∧ (∃ m ∈ ms, m.isStackToStack = true) ∧
        at_.left s = [] ∧ at_.victim = none) ∧
      ∀ result, r.moves = some result →
        (∀ (α : Type) (σ : Allocation → α),
          (∀ m ∈ group, m.isIdle = false → Move.perform result σ m.dest = σ m.source) ∧
          (∀ a, ¬ at_.Spoilt spare [0, 1] a → (∀ m ∈ group, m.isIdle = false → m.dest ≠ a) →
            Move.perform result σ a = σ a) ∧
          ∀ v ∈ at_.victim, (∀ m ∈ group, m.isIdle = false → m.dest ≠ .reg v) →
            Move.perform result σ (.reg v) = σ (.reg v)) ∧
        (at_.stackToStackOk = false → ∀ m ∈ result, m.isStackToStack = false) := by
  obtain ⟨hp, s, hs, hord⟩ := Move.sequentialize_ordered hreal hdistinct
  obtain ⟨ms, hms, hfilled⟩ := fill_ok hp hord (fun m hm => (hreal.active m hm).1)
    fun hneeds => hapart.cycle_usable s hneeds
  obtain ⟨r, hr, hrouted⟩ := route_routed hms
  refine ⟨s, ms, r, hs, hms, hr, hrouted.none_iff, fun result hresult => ⟨fun α σ => ?_, ?_⟩⟩
  · rw [hresult] at hrouted
    have hsub := hrouted.spares_subset
    have heffect := hrouted.effect (hapart.mono hsub) hfilled σ
    have hkept (a : Allocation) (ha : ¬ at_.Spoilt spare [0, 1] a)
        (hdest : ∀ m ∈ group, m.isIdle = false → m.dest ≠ a) : Move.perform result σ a = σ a :=
      heffect.kept a (fun m hm => (Move.mem_active.1 hm).elim (hdest m)) fun hs => ha (hs.mono hsub)
    refine ⟨fun m hm hidle => heffect.moved m (Move.mem_active.2 ⟨hm, hidle⟩), hkept,
      fun v hv hdest => hkept _ ?_ hdest⟩
    exact hapart.reg_not_spoilt (hvictim v hv)
  · exact (hresult ▸ hrouted).no_stack_to_stack

/-- A swap of two slots beside a move out of the victim: the cycle takes the dedicated register, and
nothing but the victim is left. -/
theorem route_performs_borrowing :
    let r (n : Fin 64) : PhysReg := ⟨n, some .int⟩
    let slot (n : Nat) : Allocation := .stack ⟨n⟩
    let group : List (Move Nat) := [⟨slot 0, slot 1, 0⟩, ⟨slot 1, slot 0, 1⟩, ⟨.reg (r 0), .reg (r 1), 2⟩,
      ⟨slot 2, slot 3, 3⟩]
    let at_ : Scratch := ⟨[], some (r 9), some (r 0), false⟩
    let spare (n : Nat) := slot (100 + n)
    ∃ s ms out, Move.sequentialize group = .ok s ∧ s.fill (at_.cycle spare) = .ok ms ∧
      s.route at_ spare = .ok out ∧
      (out.moves = none ↔ at_.stackToStackOk = false ∧ (∃ m ∈ ms, m.isStackToStack = true) ∧
        at_.left s = [] ∧ at_.victim = none) ∧
      ∀ result, out.moves = some result →
        (∀ (α : Type) (σ : Allocation → α),
          (∀ m ∈ group, m.isIdle = false → Move.perform result σ m.dest = σ m.source) ∧
          (∀ a, ¬ at_.Spoilt spare [0, 1] a → (∀ m ∈ group, m.isIdle = false → m.dest ≠ a) →
            Move.perform result σ a = σ a) ∧
          ∀ v ∈ at_.victim, (∀ m ∈ group, m.isIdle = false → m.dest ≠ .reg v) →
            Move.perform result σ (.reg v) = σ (.reg v)) ∧
        (at_.stackToStackOk = false → ∀ m ∈ result, m.isStackToStack = false) :=
  route_performs (by decide) (by decide) ⟨by decide, by decide, by decide, by decide, by decide⟩ (by decide)

end Sequence

end LinearScan
