import LinearScan.Proofs.Run
import Mathlib.Data.List.Perm.Subperm
import Mathlib.Logic.Function.Basic

/-!
# Ordering parallel moves keeps their meaning

Moves act on the contents of all locations. Performed one after another, the moves that `order`
emits leave in every destination what its source held at first. While they are being ordered the
scratch location is the location `none`, so that `fill` only renames one location.
-/

namespace LinearScan

namespace Move

variable {τ : Type} {α : Type} {pending ms others rest : List (Move τ)} {m : Move τ} {s : Sequence τ}
  {σ σ' : Allocation → α}

/-- The contents of the locations after moves that are performed one after another. -/
def perform : List (Move τ) → (Allocation → α) → Allocation → α
  | [], σ => σ
  | m :: rest, σ => perform rest (Function.update σ m.dest (σ m.source))

/-- `σ'` is `σ` after moves that happen at once, up to what the locations in `spoilt` hold. -/
structure AtOnce (group : List (Move τ)) (spoilt : Allocation → Prop) (σ σ' : Allocation → α) :
    Prop where
  moved : ∀ m ∈ group, σ' m.dest = σ m.source
  kept : ∀ a, (∀ m ∈ group, m.dest ≠ a) → ¬ spoilt a → σ' a = σ a

/-- No move reads or writes `a`. -/
def Avoids (ms : List (Move τ)) (a : Allocation) : Prop :=
  ∀ m ∈ ms, m.source ≠ a ∧ m.dest ≠ a

instance (ms : List (Move τ)) (a : Allocation) : Decidable (Avoids ms a) :=
  inferInstanceAs (Decidable (∀ m ∈ ms, m.source ≠ a ∧ m.dest ≠ a))

@[simp] theorem perform_nil (σ : Allocation → α) : perform ([] : List (Move τ)) σ = σ := rfl

@[simp] theorem perform_cons (m : Move τ) (rest : List (Move τ)) (σ : Allocation → α) :
    perform (m :: rest) σ = perform rest (Function.update σ m.dest (σ m.source)) := rfl

theorem perform_append (xs ys : List (Move τ)) (σ : Allocation → α) :
    perform (xs ++ ys) σ = perform ys (perform xs σ) := by
  induction xs generalizing σ with
  | nil => rfl
  | cons m rest ih => exact ih _

theorem perform_of_not_dest {a : Allocation} (h : ∀ m ∈ ms, m.dest ≠ a)
    (σ : Allocation → α) : perform ms σ a = σ a := by
  induction ms generalizing σ with
  | nil => rfl
  | cons m rest ih =>
    rw [perform_cons, ih fun x hx => h x (.tail _ hx)]
    exact Function.update_of_ne (h m List.mem_cons_self).symm _ _

section AtOnce

variable {xs ys : List (Move τ)} {spoilt spoilt' : Allocation → Prop} {σ'' : Allocation → α}

theorem AtOnce.refl_nil (spoilt : Allocation → Prop) (σ : Allocation → α) : AtOnce ([] : List (Move τ)) spoilt σ σ :=
  ⟨by simp, fun _ _ _ => rfl⟩

theorem AtOnce.mono (h : AtOnce xs spoilt σ σ') (hsub : ∀ a, spoilt a → spoilt' a) : AtOnce xs spoilt' σ σ' :=
  ⟨h.moved, fun a ha hs => h.kept a ha fun hsp => hs (hsub a hsp)⟩

theorem AtOnce.congr (h : AtOnce xs spoilt σ σ') (hmem : ∀ m, m ∈ xs ↔ m ∈ ys) : AtOnce ys spoilt σ σ' :=
  ⟨fun m hm => h.moved m ((hmem m).2 hm), fun a ha => h.kept a fun m hm => ha m ((hmem m).1 hm)⟩

/-- Moves that do not touch what others read or write may come after them. -/
theorem AtOnce.append (h : AtOnce xs spoilt σ σ') (h' : AtOnce ys spoilt σ' σ'')
    (hapart : ∀ x ∈ xs, ∀ y ∈ ys, x.dest ≠ y.source ∧ x.dest ≠ y.dest) (hxs : ∀ x ∈ xs, ¬ spoilt x.dest)
    (hys : ∀ y ∈ ys, ¬ spoilt y.source) : AtOnce (xs ++ ys) spoilt σ σ'' where
  moved m hm := by
    rcases List.mem_append.1 hm with hm | hm
    · rw [h'.kept m.dest (fun y hy => (hapart m hm y hy).2.symm) (hxs m hm)]
      exact h.moved m hm
    · rw [h'.moved m hm]
      exact h.kept m.source (fun x hx => (hapart x hx m hm).1) (hys m hm)
  kept a ha hs := by
    rw [h'.kept a (fun y hy => ha y (by simp [hy])) hs]
    exact h.kept a (fun x hx => ha x (by simp [hx])) hs

end AtOnce

/-! ## Ordering -/

theorem isSafe_iff : isSafe pending m = true ↔ ∀ p ∈ pending, p.source ≠ m.dest := by
  simp [isSafe]

theorem takeSafe_some (h : takeSafe pending ms = some (m, others)) :
    isSafe pending m = true ∧ (m :: others).Perm ms := by
  induction ms generalizing others with
  | nil => cases h
  | cons x rest ih =>
    simp only [takeSafe] at h
    split at h
    · next hx =>
      cases h
      exact ⟨hx, .refl _⟩
    · obtain ⟨⟨y, ys⟩, hy, hp⟩ := Option.map_eq_some_iff.1 h
      cases hp
      obtain ⟨hsafe, hperm⟩ := ih hy
      exact ⟨hsafe, (List.Perm.swap ..).trans (hperm.cons x)⟩

theorem takeSafe_none (h : takeSafe pending ms = none) : ∀ m ∈ ms, isSafe pending m = false := by
  induction ms with
  | nil => simp
  | cons x rest ih =>
    simp only [takeSafe] at h
    split at h
    · cases h
    · next hx =>
      intro m hm
      rcases List.mem_cons.1 hm with rfl | hm
      · simpa using hx
      · exact ih (Option.map_eq_none_iff.1 h) m hm

/-- Moves that are pending together: one writer for each destination, and none writes the scratch
location. -/
structure Pending (ms : List (Move τ)) : Prop where
  nodup : (ms.map dest).Nodup
  real : ∀ m ∈ ms, m.dest ≠ .none

theorem Pending.perm {ns : List (Move τ)} (h : Pending ms) (hp : ms.Perm ns) : Pending ns where
  nodup := (hp.map dest).nodup_iff.1 h.nodup
  real m hm := h.real m (hp.mem_iff.2 hm)

theorem Pending.tail (h : Pending (m :: ms)) : Pending ms where
  nodup := (List.nodup_cons.1 h.nodup).2
  real x hx := h.real x (.tail _ hx)

theorem Pending.park (h : Pending (m :: ms)) :
    Pending ({ m with source := .none } :: ms) where
  nodup := by simpa using h.nodup
  real x hx := by
    rcases List.mem_cons.1 hx with rfl | hx
    · exact h.real m List.mem_cons_self
    · exact h.real x (.tail _ hx)

/-- When no move is safe, the sources are the destinations in some order: there are as many of them,
and each destination is a source. -/
theorem Pending.sources_perm (h : Pending ms)
    (hstuck : takeSafe ms ms = none) : (ms.map dest).Perm (ms.map source) := by
  refine (List.subperm_of_subset h.nodup fun a ha => ?_).perm_of_length_le (by simp)
  obtain ⟨m, hm, rfl⟩ := List.mem_map.1 ha
  have hunsafe := takeSafe_none hstuck m hm
  rw [← Bool.not_eq_true, isSafe_iff] at hunsafe
  push Not at hunsafe
  obtain ⟨p, hp, hpm⟩ := hunsafe
  exact List.mem_map.2 ⟨p, hp, hpm⟩

theorem Pending.source_ne_none (h : Pending ms)
    (hstuck : takeSafe ms ms = none) : ∀ m ∈ ms, m.source ≠ .none := by
  intro m hm heq
  have : m.source ∈ ms.map dest := (h.sources_perm hstuck).mem_iff.2 (List.mem_map_of_mem hm)
  obtain ⟨p, hp, hpm⟩ := List.mem_map.1 this
  exact h.real p hp (hpm.trans heq)

/-- A safe move may go first: nothing pending reads its destination, and nothing else writes it. -/
theorem AtOnce.cons_safe (h : Pending (m :: others)) (hsafe : ∀ p ∈ others, p.source ≠ m.dest)
    (hrest : AtOnce others (· = .none) (Function.update σ m.dest (σ m.source)) σ') :
    AtOnce (m :: others) (· = .none) σ σ' where
  moved p hp := by
    rcases List.mem_cons.1 hp with rfl | hp
    · rw [hrest.kept p.dest (fun q hq heq => ?_) (h.real p List.mem_cons_self),
        Function.update_self]
      exact (List.nodup_cons.1 h.nodup).1 (heq ▸ List.mem_map_of_mem hq)
    · rw [hrest.moved p hp, Function.update_of_ne (hsafe p hp)]
  kept a ha hnone := by
    rw [hrest.kept a (fun q hq => ha q (.tail _ hq)) hnone,
      Function.update_of_ne (ha m List.mem_cons_self).symm]

/-- A source may be parked when nothing else sits in the scratch location. -/
theorem AtOnce.cons_parked (hreal : ∀ p ∈ m :: rest, p.source ≠ .none)
    (hrest : AtOnce ({ m with source := .none } :: rest) (· = .none)
      (Function.update σ .none (σ m.source)) σ') :
    AtOnce (m :: rest) (· = .none) σ σ' where
  moved p hp := by
    rcases List.mem_cons.1 hp with rfl | hp
    · rw [hrest.moved _ List.mem_cons_self, Function.update_self]
    · rw [hrest.moved p (.tail _ hp), Function.update_of_ne (hreal p (.tail _ hp))]
  kept a ha hnone := by
    rw [hrest.kept a (fun q hq => ?_) hnone, Function.update_of_ne hnone]
    rcases List.mem_cons.1 hq with rfl | hq
    · exact ha m List.mem_cons_self
    · exact ha q (.tail _ hq)

/-- `Orders pending s`: taking out safe moves, and parking a source when there are none, makes `s` of the pending
moves. -/
inductive Orders : List (Move τ) → Sequence τ → Prop where
  | done : Orders [] ⟨[], []⟩
  | safe {pending others : List (Move τ)} {m : Move τ} {s : Sequence τ} :
      takeSafe pending pending = some (m, others) → Orders others s →
      Orders pending { s with moves := m :: s.moves }
  | park {rest : List (Move τ)} {m : Move τ} {s : Sequence τ} : takeSafe (m :: rest) (m :: rest) = none →
      Orders ({ m with source := .none } :: rest) s →
      Orders (m :: rest) ⟨{ m with dest := .none } :: s.moves, m.source :: s.parked⟩

theorem Pending.orders (h : Pending pending) : ∃ s, order pending = .ok s ∧ Orders pending s := by
  fun_induction Move.order pending with
  | case1 pending m others htake ih =>
    obtain ⟨s, hs, hord⟩ := ih (h.perm (takeSafe_some htake).2.symm).tail
    exact ⟨_, by rw [hs]; rfl, .safe htake hord⟩
  | case2 => exact ⟨_, rfl, .done⟩
  | case3 m rest hstuck hnone => exact absurd hnone (h.source_ne_none hstuck m List.mem_cons_self)
  | case4 m rest hstuck _ ih =>
    obtain ⟨s, hs, hord⟩ := ih h.park
    exact ⟨_, by rw [hs]; rfl, .park hstuck hord⟩

/-- What ordering makes of pending moves. -/
structure Ordered (pending : List (Move τ)) (s : Sequence τ) : Prop where
  effect : ∀ (α : Type) (σ : Allocation → α), AtOnce pending (· = .none) σ (perform s.moves σ)
  source : ∀ m ∈ s.moves, m.source = .none ∨ ∃ p ∈ pending, p.source = m.source
  dest : ∀ m ∈ s.moves, m.dest = .none ∨ ∃ p ∈ pending, p.dest = m.dest
  perm : s.parked = [] → s.moves.Perm pending

theorem Ordered.cons_safe (hp : Pending pending) (h : takeSafe pending pending = some (m, others)) (hs : Ordered others s) :
    Ordered pending { s with moves := m :: s.moves } := by
  obtain ⟨hsafe, hperm⟩ := takeSafe_some h
  have hsub {x : Move τ} (hx : x ∈ others) : x ∈ pending := hperm.mem_iff.1 (.tail _ hx)
  refine ⟨fun α σ => ?_, fun x hx => ?_, fun x hx => ?_, fun hpark => ?_⟩
  · have heff := AtOnce.cons_safe (hp.perm hperm.symm) (fun p hp => isSafe_iff.1 hsafe p (hsub hp))
      (hs.effect α (Function.update σ m.dest (σ m.source)))
    exact ⟨fun x hx => heff.moved x (hperm.mem_iff.2 hx),
      fun a ha => heff.kept a fun x hx => ha x (hperm.mem_iff.1 hx)⟩
  · rcases List.mem_cons.1 hx with rfl | hx
    · exact .inr ⟨x, hperm.mem_iff.1 List.mem_cons_self, rfl⟩
    · exact (hs.source x hx).imp_right fun ⟨p, hp, he⟩ => ⟨p, hsub hp, he⟩
  · rcases List.mem_cons.1 hx with rfl | hx
    · exact .inr ⟨x, hperm.mem_iff.1 List.mem_cons_self, rfl⟩
    · exact (hs.dest x hx).imp_right fun ⟨p, hp, he⟩ => ⟨p, hsub hp, he⟩
  · exact ((hs.perm hpark).cons m).trans hperm

theorem Ordered.cons_parked (hreal : ∀ p ∈ m :: rest, p.source ≠ .none)
    (hs : Ordered ({ m with source := .none } :: rest) s) :
    Ordered (m :: rest) ⟨{ m with dest := .none } :: s.moves, m.source :: s.parked⟩ := by
  refine ⟨fun α σ => .cons_parked hreal (hs.effect α _), fun x hx => ?_, fun x hx => ?_,
    fun hpark => by cases hpark⟩
  · rcases List.mem_cons.1 hx with rfl | hx
    · exact .inr ⟨m, List.mem_cons_self, rfl⟩
    · rcases hs.source x hx with hnone | ⟨p, hp, he⟩
      · exact .inl hnone
      · rcases List.mem_cons.1 hp with rfl | hp
        · exact .inl he.symm
        · exact .inr ⟨p, .tail _ hp, he⟩
  · rcases List.mem_cons.1 hx with rfl | hx
    · exact .inl rfl
    · rcases hs.dest x hx with hnone | ⟨p, hp, he⟩
      · exact .inl hnone
      · rcases List.mem_cons.1 hp with rfl | hp
        · exact .inr ⟨m, List.mem_cons_self, he⟩
        · exact .inr ⟨p, .tail _ hp, he⟩

theorem Orders.ordered (h : Orders pending s) (hp : Pending pending) : Ordered pending s := by
  induction h with
  | done => exact ⟨fun _ _ => ⟨by simp, by simp⟩, by simp, by simp, fun _ => .refl _⟩
  | safe htake _ ih => exact (ih (hp.perm (takeSafe_some htake).2.symm).tail).cons_safe hp htake
  | park hstuck _ ih => exact (ih hp.park).cons_parked (hp.source_ne_none hstuck)

end Move

/-! ## Choosing the scratch location -/

namespace Sequence

variable {τ : Type} {pending ms : List (Move τ)} {s : Sequence τ} {scratch a : Allocation} {spoilt : Allocation → Prop}

/-- Scratch location `s` in place of `none`. -/
def put (s a : Allocation) : Allocation := if a.isNone then s else a

def putMove (s : Allocation) (m : Move τ) : Move τ :=
  { m with source := put s m.source, dest := put s m.dest }

@[simp] theorem put_none (s : Allocation) : put s .none = s := rfl

theorem put_of_ne {s : Allocation} (h : a ≠ .none) : put s a = a := by
  cases a with
  | none => exact absurd rfl h
  | reg r => rfl
  | stack k => rfl

theorem put_ne_none {s : Allocation} (hs : s ≠ .none) (a : Allocation) : put s a ≠ .none := by
  by_cases h : a = .none
  · rwa [h, put_none]
  · rwa [put_of_ne h]

theorem put_inj {s b : Allocation} (ha : a ≠ s) (hb : b ≠ s) : put s a = put s b ↔ a = b := by
  refine ⟨fun h => ?_, congrArg _⟩
  by_cases hna : a = .none <;> by_cases hnb : b = .none
  · rw [hna, hnb]
  · rw [hna, put_none, put_of_ne hnb] at h
    exact absurd h.symm hb
  · rw [hnb, put_none, put_of_ne hna] at h
    exact absurd h ha
  · rwa [put_of_ne hna, put_of_ne hnb] at h

theorem perform_putMove {α : Type} {s : Allocation} (hfree : Move.Avoids ms s) {σ σ' : Allocation → α}
    (h : ∀ a, a ≠ s → σ' (put s a) = σ a) (ha : a ≠ s) :
    Move.perform (ms.map (putMove s)) σ' (put s a) = Move.perform ms σ a := by
  induction ms generalizing σ σ' with
  | nil => exact h a ha
  | cons m rest ih =>
    obtain ⟨hsource, hdest⟩ := hfree m List.mem_cons_self
    rw [List.map_cons, Move.perform_cons, Move.perform_cons]
    refine ih (fun x hx => hfree x (.tail _ hx)) fun b hb => ?_
    simp only [putMove, Function.update_apply, put_inj hb hdest, h _ hsource, h b hb]

/-- Moves to perform one after another that do what the pending ones do at once. Only the locations
in `spoilt` are used besides those of the pending moves. -/
structure Filled (pending : List (Move τ)) (spoilt : Allocation → Prop) (ms : List (Move τ)) :
    Prop where
  effect : ∀ (α : Type) (σ : Allocation → α),
    Move.AtOnce pending spoilt σ (Move.perform ms σ)
  source : ∀ m ∈ ms, spoilt m.source ∨ ∃ p ∈ pending, p.source = m.source
  dest : ∀ m ∈ ms, spoilt m.dest ∨ ∃ p ∈ pending, p.dest = m.dest

theorem Filled.avoids (h : Filled pending spoilt ms) (hp : Move.Avoids pending a) (ha : ¬ spoilt a) :
    Move.Avoids ms a := by
  refine fun m hm => ⟨fun he => ?_, fun he => ?_⟩
  · rcases h.source m hm with hs | ⟨p, hpm, hpe⟩
    · exact ha (he ▸ hs)
    · exact (hp p hpm).1 (hpe.trans he)
  · rcases h.dest m hm with hs | ⟨p, hpm, hpe⟩
    · exact ha (he ▸ hs)
    · exact (hp p hpm).2 (hpe.trans he)

theorem Filled.of_plain (hord : Move.Ordered pending s)
    (hneeds : s.needsScratch = false) (spoilt : Allocation → Prop) : Filled pending spoilt s.moves := by
  have hperm : s.moves.Perm pending := hord.perm (by simpa [needsScratch] using hneeds)
  refine ⟨fun α σ => ⟨(hord.effect α σ).moved, fun a ha _ => ?_⟩,
    fun m hm => .inr ⟨m, hperm.mem_iff.1 hm, rfl⟩, fun m hm => .inr ⟨m, hperm.mem_iff.1 hm, rfl⟩⟩
  exact Move.perform_of_not_dest (fun m hm => ha m (hperm.mem_iff.1 hm)) σ

theorem avoids_scratch (hord : Move.Ordered pending s) (hscratch : scratch ≠ .none)
    (hfree : Move.Avoids pending scratch) : Move.Avoids s.moves scratch := by
  refine fun m hm => ⟨fun he => ?_, fun he => ?_⟩
  · rcases hord.source m hm with hnone | ⟨p, hpm, hpe⟩
    · exact hscratch (he.symm.trans hnone)
    · exact (hfree p hpm).1 (hpe.trans he)
  · rcases hord.dest m hm with hnone | ⟨p, hpm, hpe⟩
    · exact hscratch (he.symm.trans hnone)
    · exact (hfree p hpm).2 (hpe.trans he)

theorem Filled.of_scratch (hp : Move.Pending pending) (hord : Move.Ordered pending s)
    (hreal : ∀ m ∈ pending, m.source ≠ .none) (hscratch : scratch ≠ .none)
    (hfree : Move.Avoids pending scratch) : Filled pending (· = scratch) (s.moves.map (putMove scratch)) := by
  have hrename {α : Type} (σ : Allocation → α) {a : Allocation} (ha : a ≠ scratch) (hna : a ≠ .none) :
      Move.perform (s.moves.map (putMove scratch)) σ a
        = Move.perform s.moves (fun x => σ (put scratch x)) a := by
    rw [← perform_putMove (avoids_scratch hord hscratch hfree) (fun _ _ => rfl) ha, put_of_ne hna]
  refine ⟨fun α σ => ⟨fun m hm => ?_, fun a ha hna => ?_⟩, fun m hm => ?_, fun m hm => ?_⟩
  · rw [hrename σ (hfree m hm).2 (hp.real m hm), (hord.effect α _).moved m hm,
      put_of_ne (hreal m hm)]
  · by_cases hnone : a = .none
    · refine Move.perform_of_not_dest (fun m hm => ?_) σ
      obtain ⟨x, -, rfl⟩ := List.mem_map.1 hm
      exact hnone ▸ put_ne_none hscratch x.dest
    · rw [hrename σ hna hnone, (hord.effect α _).kept a ha hnone, put_of_ne hnone]
  · obtain ⟨x, hx, rfl⟩ := List.mem_map.1 hm
    rcases hord.source x hx with hnone | ⟨p, hpm, hpe⟩
    · exact .inl (by rw [putMove, hnone, put_none])
    · exact .inr ⟨p, hpm, by rw [putMove, ← hpe, put_of_ne (hreal p hpm)]⟩
  · obtain ⟨x, hx, rfl⟩ := List.mem_map.1 hm
    rcases hord.dest x hx with hnone | ⟨p, hpm, hpe⟩
    · exact .inl (by rw [putMove, hnone, put_none])
    · exact .inr ⟨p, hpm, by rw [putMove, ← hpe, put_of_ne (hp.real p hpm)]⟩

/-- Any scratch location that the pending moves do not use will do, and it is used only if a cycle was
broken. -/
theorem fill_ok (hp : Move.Pending pending) (hord : Move.Ordered pending s)
    (hreal : ∀ m ∈ pending, m.source ≠ .none)
    (hscratch : s.needsScratch = true → scratch ≠ .none ∧ Move.Avoids pending scratch) :
    ∃ ms, s.fill scratch = .ok ms ∧
      Filled pending (fun a => s.needsScratch = true ∧ a = scratch) ms := by
  cases hneeds : s.needsScratch with
  | false => exact ⟨s.moves, by rw [fill, hneeds]; rfl, .of_plain hord hneeds _⟩
  | true =>
    obtain ⟨hnone, hfree⟩ := hscratch hneeds
    have hany : (s.moves.any fun m => m.source == scratch || m.dest == scratch) = false := by
      simpa [Move.Avoids] using avoids_scratch hord hnone hfree
    refine ⟨s.moves.map (putMove scratch), ?_, ?_⟩
    · rw [fill, hneeds, hany]
      rfl
    · simpa only [true_and] using Filled.of_scratch hp hord hreal hnone hfree

end Sequence

namespace Move

variable {τ : Type} {group : List (Move τ)} {s : Sequence τ}

/-- The moves of a group that change anything. -/
def active (group : List (Move τ)) : List (Move τ) := group.filter fun m => !m.isIdle

theorem mem_active {m : Move τ} : m ∈ active group ↔ m ∈ group ∧ m.isIdle = false := by
  simp [active]

theorem Avoids.active {a : Allocation} (h : Avoids group a) : Avoids (active group) a := fun m hm => h m (mem_active.1 hm).1

theorem distinct_iff {as : List Allocation} : sequentialize.distinct as = true ↔ as.Nodup := by
  induction as with
  | nil => simp [sequentialize.distinct]
  | cons a rest ih => simp [sequentialize.distinct, ih]

theorem nodup_of_sequentialize (h : sequentialize group = .ok s) : ((active group).map dest).Nodup := by
  by_cases hd : sequentialize.distinct ((active group).map dest) = true
  · exact distinct_iff.1 hd
  · have herr : sequentialize group = .error .destinationClash := if_neg hd
    rw [herr] at h
    cases h

/-- A group can be ordered if its active moves have distinct destinations. -/
theorem sequentialize_orders (hreal : Avoids group .none) (hdistinct : ((active group).map dest).Nodup) :
    Pending (active group) ∧ ∃ s, sequentialize group = .ok s ∧ Orders (active group) s := by
  have hp : Pending (active group) := ⟨hdistinct, fun m hm => (hreal.active m hm).2⟩
  obtain ⟨s, hs, hord⟩ := hp.orders
  refine ⟨hp, s, ?_, hord⟩
  exact (if_pos (distinct_iff.2 hdistinct)).trans hs

theorem sequentialize_ordered (hreal : Avoids group .none) (hdistinct : ((active group).map dest).Nodup) :
    Pending (active group) ∧ ∃ s, sequentialize group = .ok s ∧ Ordered (active group) s := by
  obtain ⟨hp, s, hs, hord⟩ := sequentialize_orders hreal hdistinct
  exact ⟨hp, s, hs, hord.ordered hp⟩

theorem ordered_of_sequentialize (hreal : Avoids group .none)
    (h : sequentialize group = .ok s) : Pending (active group) ∧ Ordered (active group) s := by
  obtain ⟨hpending, s', hs', hord⟩ := sequentialize_ordered hreal (nodup_of_sequentialize h)
  cases Except.ok.inj (h.symm.trans hs')
  exact ⟨hpending, hord⟩

/-- Every group whose active moves have distinct destinations can be ordered and, with any scratch
location that it does not use, be performed one move after another: each active move brings what its
source held at first, and all but its destinations and the scratch location keep what they held. -/
theorem sequentialize_performs {group : List (Move τ)} {scratch : Allocation}
    (hreal : Avoids group .none) (hdistinct : ((active group).map dest).Nodup)
    (hscratch : scratch ≠ .none) (hfree : Avoids group scratch) :
    ∃ s ms, sequentialize group = .ok s ∧ s.fill scratch = .ok ms ∧
      ∀ (α : Type) (σ : Allocation → α),
        (∀ m ∈ group, m.isIdle = false → perform ms σ m.dest = σ m.source) ∧
        ∀ a, a ≠ scratch → (∀ m ∈ group, m.isIdle = false → m.dest ≠ a) →
          perform ms σ a = σ a := by
  obtain ⟨hp, s, hs, hord⟩ := sequentialize_ordered hreal hdistinct
  obtain ⟨ms, hms, hfilled⟩ :=
    Sequence.fill_ok hp hord (fun m hm => (hreal.active m hm).1) fun _ => ⟨hscratch, hfree.active⟩
  refine ⟨s, ms, hs, hms, fun α σ => ⟨fun m hm hidle => ?_, fun a ha hdest => ?_⟩⟩
  · exact (hfilled.effect α σ).moved m (mem_active.2 ⟨hm, hidle⟩)
  · exact (hfilled.effect α σ).kept a (fun m hm => (mem_active.1 hm).elim (hdest m)) fun h => ha h.2

/-- A ring of three with a fan-out, a swap and an idle move, with a slot as scratch location. -/
theorem sequentialize_performs_rings :
    let r (n : Fin 64) := Allocation.reg ⟨n, some .int⟩
    let group : List (Move Nat) :=
      [⟨r 0, r 1, 0⟩, ⟨r 1, r 2, 1⟩, ⟨r 2, r 0, 2⟩, ⟨r 3, r 4, 3⟩, ⟨r 4, r 3, 4⟩, ⟨r 0, .stack ⟨0⟩, 5⟩,
        ⟨r 6, r 6, 6⟩]
    ∃ s ms, sequentialize group = .ok s ∧ s.fill (.stack ⟨9⟩) = .ok ms ∧
      ∀ (α : Type) (σ : Allocation → α),
        (∀ m ∈ group, m.isIdle = false → perform ms σ m.dest = σ m.source) ∧
        ∀ a, a ≠ .stack ⟨9⟩ → (∀ m ∈ group, m.isIdle = false → m.dest ≠ a) →
          perform ms σ a = σ a :=
  sequentialize_performs (by decide) (by decide) (by decide) (by decide)

/-- An idle move does not keep its location from being the destination of another move. -/
theorem idle_move_overwritten :
    let r (n : Fin 64) := Allocation.reg ⟨n, some .int⟩
    let group : List (Move Nat) := [⟨r 0, r 0, 0⟩, ⟨r 1, r 0, 1⟩]
    Avoids group .none ∧ ((active group).map dest).Nodup ∧ Avoids group (r 5) ∧
      ∃ s ms, sequentialize group = .ok s ∧ s.fill (r 5) = .ok ms ∧
        ∃ m ∈ group, ∃ σ : Allocation → Nat, perform ms σ m.dest ≠ σ m.source := by
  intro r group
  refine ⟨by decide, by decide, by decide, ⟨[⟨r 1, r 0, 1⟩], []⟩, [⟨r 1, r 0, 1⟩], by cbv, rfl,
    ⟨r 0, r 0, 0⟩, by simp [group], fun a => if a = r 1 then 1 else 0, by decide⟩

end Move

end LinearScan
