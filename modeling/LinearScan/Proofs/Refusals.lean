import LinearScan.Proofs.Emission
import LinearScan.Proofs.Recorded
import LinearScan.Proofs.WellMade

/-!
# Which stage refuses what

`Refuses x E` says that the computation `x` is only refused for reasons that satisfy `E`. The checks before the
allocation, the roots of a trace, its scan and the emission of moves have reasons of their own.
-/

namespace LinearScan

variable {α β : Type} {E : AllocError → Prop}

/-! ## Rules -/

namespace Run

/-- The computation is only refused for reasons that satisfy `E`. -/
def Refuses (x : Run α) (E : AllocError → Prop) : Prop := ∀ e, Stops x (.refused e) → E e

namespace Refuses

variable {l : List α} {x : Run α} {g : β → α → Run β} {b : β} {f : Fault}

theorem mono {F : AllocError → Prop} (h : Refuses x E) (hE : ∀ e, E e → F e) : Refuses x F := fun e he => hE e (h e he)

theorem pure {a : α} : Refuses (Pure.pure a) E := fun _ h => h.of_pure.elim

theorem fault : Refuses (Run.fault f : Run α) E := fun _ h => by cases h.of_fault

theorem refuse {e : AllocError} (h : E e) : Refuses (Run.refuse e : Run α) E := fun _ hr => by
  cases hr.of_refuse
  exact h

theorem emit {e : Event} : Refuses (Run.emit e) E := fun _ h => h.of_emit.elim

theorem demand {ok : Bool} : Refuses (Run.demand ok f) E := fun _ h => by cases h.of_demand.2

theorem check {x : Except Stop α} (h : ∀ e, x = .error (.refused e) → E e) : Refuses (Run.check x) E := fun e he =>
  h e he.of_check

theorem accept {x : Except AllocError α} (h : ∀ e, x = .error e → E e) : Refuses (Run.accept x) E := by
  intro e he
  cases x with
  | ok a => exact he.of_pure.elim
  | error r =>
      have hr : Stop.refused e = .refused r := he.of_refuse
      cases hr
      exact h e rfl

theorem sound {x : Except Fault α} : Refuses (Run.sound x) E := by
  intro e he
  cases x with
  | ok a => exact he.of_pure.elim
  | error f => cases Stops.of_fault he

theorem get : Refuses (MonadState.get : Run (Array Event)) E := fun _ h => h.of_get.elim

theorem bind {g : α → Run β} (hx : Refuses x E) (hg : ∀ a, Returns x a → Refuses (g a) E) : Refuses (x >>= g) E := by
  intro e h
  rcases h.bind with h | ⟨a, ha, h⟩
  · exact hx e h
  · exact hg a ha e h

/-- What each beginning of a list leaves decides what the next item is refused for. -/
theorem foldlM_append {I : List α → β → Prop} (hb : I [] b)
    (hkeep : ∀ done x rest b b', l = done ++ x :: rest → I done b → Returns (g b x) b' → I (done ++ [x]) b')
    (hg : ∀ done x rest b, l = done ++ x :: rest → I done b → Refuses (g b x) E) : Refuses (l.foldlM g b) E := by
  refine beginnings_induct (C := fun rest b => Refuses (rest.foldlM g b) E) (fun _ _ => pure)
    (fun done x rest b hl hb ih => ?_) hb
  rw [List.foldlM_cons]
  exact (hg done x rest b hl hb).bind fun b' hb' => ih b' (hkeep done x rest b b' hl hb hb')

theorem foldlM (hg : ∀ b, ∀ x ∈ l, Refuses (g b x) E) : Refuses (l.foldlM g b) E :=
  foldlM_append (I := fun _ _ => True) trivial (fun _ _ _ _ _ _ _ _ => trivial) fun _ x _ b hl _ => hg b x (by simp [hl])

theorem forIn {g : α → Unit → Run (ForInStep Unit)} (hg : ∀ x ∈ l, Refuses (g x ()) E) :
    Refuses (ForIn.forIn l () g) E := by
  intro e h
  obtain ⟨x, hx, h⟩ := h.forIn
  exact hg x hx e h

end Refuses

end Run

open Run

/-! ## Checks -/

namespace Routine

variable {f : Routine}

theorem controlFlow_refuses (e : AllocError) (h : f.controlFlow = .error (.refused e)) : e.OfChecks :=
  controlFlow_stops _ h

theorem liveness_refuses {c : ControlFlow} : Refuses (f.liveness c) AllocError.OfChecks := by
  refine Refuses.demand.bind fun _ _ => ?_
  split
  · rename_i s _
    refine Refuses.bind ?_ fun _ _ => ?_
    · rw [← Array.forIn_toList]
      exact .forIn fun _ _ => Refuses.emit.bind fun _ _ => .pure
    · split
      · exact Refuses.emit.bind fun _ _ => (Refuses.refuse trivial).bind fun _ _ => .pure
      · exact .pure
  · exact .fault

theorem problem_refuses {m : Machine} {ts : Traces} {o : Options} : Refuses (f.problem m ts o) AllocError.OfChecks := by
  have hrest {c : ControlFlow} : Refuses (Run.check f.values >>= fun values => f.liveness c >>= fun live => pure (
      { routine := f, machine := m, traces := ts, flow := c, values, live, stackToStack := o.stackToStack } : Problem))
      AllocError.OfChecks :=
    (Refuses.check fun _ he => values_stops _ he).bind fun _ _ => liveness_refuses.bind fun _ _ => .pure
  refine (Refuses.check controlFlow_refuses).bind fun c _ => ?_
  dsimp only
  split
  · exact (Refuses.check fun _ he => checkSingleAssignment_stops _ he).bind fun _ _ => hrest
  · exact hrest

end Routine

/-! ## Roots -/

/-- What building the roots of a trace finds. -/
def AllocError.OfRoots : AllocError → Prop
  | .notSingleAssignment .. | .noRegisters _ | .conflictingConstraints .. | .fixedConflict .. => True
  | _ => False

theorem Machine.ofRoots_of_checkOperands {m : Machine} {i : Nat} {ops : List Operand} {e : AllocError}
    (h : m.checkOperands i ops = .error e) : e.OfRoots := by
  induction ops with
  | nil => cases h
  | cons op rest ih =>
      unfold checkOperands at h
      have hrest (h : (do rest.forM (checkPair i op); m.checkOperands i rest : Except AllocError Unit) = .error e) :
          e.OfRoots := by
        rcases Except.bind_error h with h | ⟨_, -, h⟩
        · obtain ⟨other, -, h⟩ := Except.forM_error h
          unfold checkPair at h
          split at h
          · cases h
          · split at h
            · cases h
              trivial
            · split at h
              · cases h
                trivial
              · cases h
        · exact ih h
      split at h
      · cases h
        trivial
      · exact hrest h

theorem Reservation.ofRoots_of_reserve {i : Nat} {r : PhysReg} {new : Reservation} {b : Batch} {e : AllocError}
    (h : reserve i r new b = .error e) : e.OfRoots := by
  induction b with
  | nil => cases h
  | cons x b ih =>
      obtain ⟨q, old⟩ := x
      unfold reserve at h
      split at h
      · split at h
        · cases h
        · cases h
          trivial
      · rcases Except.bind_error h with h | ⟨_, -, h⟩
        · exact ih h
        · cases h

namespace InstrSite

variable {p : Problem} {s : InstrSite}

theorem reserve_refuses {r : PhysReg} {range : LiveRange} {owner : Option VirtReg} {d : InstrDraft} :
    Refuses (s.reserve r range owner d) AllocError.OfRoots :=
  (Refuses.accept fun _ => Reservation.ofRoots_of_reserve).bind fun _ _ => .pure

theorem build_refuses {d : RootDraft} : Refuses (s.build p d) AllocError.OfRoots := by
  refine (Refuses.accept fun _ => Machine.ofRoots_of_checkOperands).bind fun _ _ => ?_
  refine (Refuses.foldlM fun d r _ => ?_).bind fun _ _ => (Refuses.foldlM fun d x _ => ?_).bind fun _ _ =>
    (Refuses.foldlM fun d x _ => ?_).bind fun _ _ => .pure
  · unfold addClobber
    split
    · exact .pure
    · exact reserve_refuses
  · unfold addWrite
    dsimp only
    split
    · exact .pure
    · exact reserve_refuses
  · unfold addUse
    dsimp only
    split
    · exact .pure
    · split
      · exact Refuses.emit.bind fun _ _ => reserve_refuses
      · exact reserve_refuses

end InstrSite

namespace Problem

variable {p : Problem} {t : Nat} {a : Assignment}

theorem hintFrom_refuses {b : Nat} {incoming : Nat → Nat → Option VirtReg} {qs : List Nat} :
    Refuses (p.hintFrom a b incoming qs) E := by
  induction qs with
  | nil => exact .pure
  | cons q rest ih =>
      unfold hintFrom
      split
      · split
        · exact .pure
        · refine Refuses.demand.bind fun _ _ => ?_
          dsimp only
          split
          · exact .pure
          · exact ih
      · exact ih

theorem addHints_refuses {head : Nat} {d : RootDraft} : Refuses (p.addHints a head d) E := by
  have hto {v : Nat} {incoming : Nat → Nat → Option VirtReg} {d : RootDraft} :
      Refuses (RootDraft.hintFor p a head v incoming d) E := by
    unfold RootDraft.hintFor
    split
    · exact .pure
    · refine hintFrom_refuses.bind fun _ _ => ?_
      split
      · exact .pure
      · exact .pure
  exact Refuses.bind (.foldlM fun _ _ _ => hto) fun _ _ => .foldlM fun _ _ _ => hto

theorem buildRoots_refuses (h : ∀ b ∈ p.traces.blocks t, ∀ i ∈ (p.routine.span b).toList, ∀ start d,
    Refuses (InstrSite.build p ⟨i, t, start⟩ d) E) : Refuses (p.buildRoots t a) E := by
  have hblock {d : RootDraft} {b : Nat} (hb : b ∈ p.traces.blocks t) : Refuses (p.buildBlock t d b) E :=
    Refuses.demand.bind fun _ _ => Refuses.bind (.foldlM fun _ i hi => h b hb i (List.mem_reverse.1 hi) _ _)
      fun _ _ => .pure
  refine Refuses.bind (.foldlM fun _ b hb => hblock (List.mem_reverse.1 hb)) fun _ _ => addHints_refuses.bind fun _ _ =>
    Refuses.emit.bind fun _ _ => ?_
  exact Refuses.bind (.forIn fun _ _ => Refuses.emit.bind fun _ _ => .pure) fun _ _ => .pure

end Problem

/-! ## Scans -/

namespace ScanState

variable {p : Problem} {s : ScanState} {id pos : Nat}

theorem interval_refuses : Refuses (s.interval id) E := by
  unfold interval
  split
  · exact .pure
  · exact .fault

theorem split_refuses : Refuses (s.split id pos) E := by
  refine interval_refuses.bind fun _ _ => Refuses.demand.bind fun _ _ => ?_
  split
  · exact .pure
  · exact Refuses.emit.bind fun _ _ => .pure

theorem splitPoint_refuses {t lo hi : Nat} : Refuses (splitPoint p t lo hi) E := by
  refine Refuses.demand.bind fun _ _ => ?_
  split
  · exact Refuses.emit.bind fun _ _ => .pure
  · exact Refuses.emit.bind fun _ _ => .pure

theorem splitOff_refuses {lo hi : Nat} : Refuses (s.splitOff p id lo hi) E :=
  interval_refuses.bind fun _ _ => splitPoint_refuses.bind fun _ _ => split_refuses

theorem requeue_refuses : Refuses (s.requeue id) E :=
  interval_refuses.bind fun _ _ => Refuses.emit.bind fun _ _ => .pure

theorem requeue?_refuses {rest : Option Nat} : Refuses (s.requeue? rest) E := by
  unfold requeue?
  split
  · exact requeue_refuses
  · exact .pure

theorem spill_refuses : Refuses (s.spill id) E :=
  interval_refuses.bind fun _ _ => Refuses.emit.bind fun _ _ => Refuses.demand.bind fun _ _ => .pure

theorem spillUntil_refuses {stop : Option Nat} : Refuses (s.spillUntil p id stop) E := by
  refine interval_refuses.bind fun _ _ => ?_
  split
  · exact splitOff_refuses.bind fun _ _ => spill_refuses.bind fun _ _ => requeue?_refuses
  · exact spill_refuses

theorem evict_refuses : Refuses (s.evict p id pos) E := by
  refine interval_refuses.bind fun _ _ => Refuses.demand.bind fun _ _ => ?_
  split
  on_goal 1 => refine Refuses.bind .pure fun x _ => Refuses.emit.bind fun _ _ => ?_
  on_goal 2 => refine split_refuses.bind fun x _ => Refuses.emit.bind fun _ _ => ?_
  -- whatever has been split off, it waits on the stack
  all_goals
    split
    · exact .pure
    · refine interval_refuses.bind fun _ _ => ?_
      split
      · split
        · exact spillUntil_refuses
        · exact requeue_refuses
      · exact spill_refuses

theorem apply_refuses {iv : Interval} {d : Decision} :
    Refuses (s.apply p id iv d) fun e => e = .tooManyLive ∧ (d = .exhausted ∨ d = .noRegister) := by
  unfold apply
  cases d with
  | toStack stop => exact spillUntil_refuses
  | noCandidate => exact spill_refuses
  | noRegister => exact .refuse ⟨rfl, .inr rfl⟩
  | free r => exact Refuses.emit.bind fun _ _ => .pure
  | freeUntil r stop =>
      exact splitPoint_refuses.bind fun _ _ => Refuses.emit.bind fun _ _ => split_refuses.bind fun _ _ => requeue?_refuses
  | spill stop => exact Refuses.emit.bind fun _ _ => spillUntil_refuses
  | exhausted => exact Refuses.emit.bind fun _ _ => .refuse ⟨rfl, .inl rfl⟩
  | evict r nextUse blocked =>
      have htake {s : ScanState} : Refuses (do return (← s.evictFrom p id r).activate id)
          fun e => e = .tooManyLive ∧ (Decision.evict r nextUse blocked = .exhausted ∨
            Decision.evict r nextUse blocked = .noRegister) :=
        (interval_refuses.bind fun _ _ => .foldlM fun _ _ _ => evict_refuses).bind fun _ _ => .pure
      refine Refuses.emit.bind fun _ _ => ?_
      dsimp only
      split
      · exact splitOff_refuses.bind fun _ _ => requeue?_refuses.bind fun _ _ => htake
      · exact Refuses.bind .pure fun _ _ => htake

theorem step_refuses {res : Reservations} {w : Waiting} {queue : List Waiting} :
    Refuses (s.step p res w queue) fun e => e = .tooManyLive ∧ ∃ iv, s.intervals[w.id]? = some iv ∧
      ((({ s with queue }.advance iv.start).view iv res).decide p = .exhausted ∨
        (({ s with queue }.advance iv.start).view iv res).decide p = .noRegister) := by
  refine interval_refuses.bind fun iv hiv => Refuses.emit.bind fun _ _ => Refuses.demand.bind fun _ _ => ?_
  exact apply_refuses.mono fun e he => ⟨he.1, iv, returns_interval hiv, he.2⟩

end ScanState

/-! ## Moves -/

theorem Run.Refuses.forM {l : List α} {g : α → Run PUnit} (hg : ∀ x ∈ l, Refuses (g x) E) : Refuses (l.forM g) E := by
  induction l with
  | nil => exact .pure
  | cons x l ih =>
      rw [List.forM_eq_forM, List.forM_cons]
      exact (hg x List.mem_cons_self).bind fun _ _ => ih fun y hy => hg y (List.mem_cons_of_mem _ hy)

/-- There is always a way to route moves if there is a register that can be borrowed. -/
theorem Sequence.victim_of_route {τ : Type} {s : Sequence τ} {scratch : Scratch} {spare : Nat → Allocation}
    {routing : Routing τ} (h : s.route scratch spare = .ok routing) (hnone : routing.moves = none) :
    scratch.victim = none := by
  obtain ⟨ms, hfill⟩ : ∃ ms, s.fill (scratch.cycle spare) = .ok ms := by
    unfold route at h
    dsimp only at h
    split at h
    · obtain ⟨ms, hms, -⟩ := Except.bind_ok h
      exact ⟨ms, hms⟩
    · rename_i hneeds
      exact ⟨s.moves, by simp [fill, hneeds]⟩
  obtain ⟨r, hr, hrouted⟩ := route_routed hfill
  cases Except.ok.inj (hr.symm.trans h)
  rw [hnone] at hrouted
  generalize routing.spares = spares at hrouted
  cases hrouted with
  | stuck _ _ _ hvictim => exact hvictim

namespace Assignment

variable {p : Problem} {a : Assignment} {trs : List Transfer}

theorem emitGroup_refuses {pos : Nat} {c : RegClass} {group : List (Move VirtReg)} {e : Emission} :
    Refuses (a.emitGroup p pos c group e) fun r => r = .noScratch c ∧ p.machine.allocatable c = [] := by
  refine Refuses.sound.bind fun seq _ => (Refuses.forM fun _ _ => .emit).bind fun _ _ => Refuses.demand.bind fun _ _ => ?_
  refine Refuses.sound.bind fun routing hroute => (Refuses.forM fun _ _ => .emit).bind fun _ _ => Refuses.sound.bind fun _ _ => ?_
  split
  · exact (Refuses.forM fun _ _ => .emit).bind fun _ _ => .pure
  · rename_i hsome
    refine .refuse ⟨rfl, ?_⟩
    have hvictim := Sequence.victim_of_route hroute.of_sound (Option.eq_none_iff_forall_ne_some.2 hsome)
    exact List.head?_eq_none_iff.1 hvictim

theorem emitMoves_refuses {frame : Frame} : Refuses (a.emitMoves p trs frame) fun r =>
    ∃ t ∈ trs, r = .noScratch t.vreg.cls ∧ p.machine.allocatable t.vreg.cls = [] := by
  have hgroups : Refuses ((a.groupsOf trs).foldlM (a.emitGroups p) ⟨frame, #[]⟩) fun r =>
      ∃ t ∈ trs, r = .noScratch t.vreg.cls ∧ p.machine.allocatable t.vreg.cls = [] := by
    refine Refuses.foldlM fun e g hg => ?_
    cases g with
    | nil => exact .pure
    | cons first rest =>
        refine Refuses.demand.bind fun _ _ => Refuses.foldlM fun e c _ => ?_
        dsimp only
        split
        · exact .pure
        · rename_i hne
          refine emitGroup_refuses.mono fun r hr => ?_
          obtain ⟨m, hm⟩ := List.exists_mem_of_ne_nil _ (mt List.isEmpty_iff.2 hne)
          obtain ⟨hm, htag⟩ := List.mem_filter.1 hm
          obtain ⟨x, hx, rfl⟩ := List.mem_map.1 hm
          obtain ⟨t, ht, rfl⟩ := List.mem_map.1 (((grouped_groupsOf a trs).mem x).1 ⟨_, hg, hx⟩)
          obtain rfl : t.vreg.cls = c := of_decide_eq_true htag
          exact ⟨t, ht, hr⟩
  exact hgroups

end Assignment

theorem Problem.finish_refuses {p : Problem} {a : Assignment} : Refuses (p.finish a) fun r =>
    ∃ t ∈ p.transfers a, r = .noScratch t.vreg.cls ∧ p.machine.allocatable t.vreg.cls = [] := by
  have hslots {trs : List Transfer} : Refuses (a.assignSlots p trs) fun r =>
      ∃ t ∈ p.transfers a, r = .noScratch t.vreg.cls ∧ p.machine.allocatable t.vreg.cls = [] := by
    refine Refuses.bind (.foldlM fun _ _ _ => ?_) fun _ _ => Refuses.sound.bind fun _ _ => Refuses.emit.bind fun _ _ => .pure
    dsimp only
    split
    · exact .pure
    · exact Refuses.demand.bind fun _ _ => Refuses.sound.bind fun _ _ => Refuses.emit.bind fun _ _ => .pure
  refine Refuses.bind (.forIn fun _ _ => Refuses.demand.bind fun _ _ => Refuses.emit.bind fun _ _ => .pure) fun _ _ => ?_
  refine hslots.bind fun _ _ => Assignment.emitMoves_refuses.bind fun _ _ => Refuses.get.bind fun _ _ => .pure

end LinearScan
