import LinearScan.Proofs.Refusals

/-!
# A scan never goes back

What a step puts back in the queue starts behind the interval that it processes. So the positions of a scan never
decrease, and every scan ends, unless too many values are live.
-/

namespace LinearScan

open LiveRange Interval Run

namespace ScanState

variable {p : Problem} {t first c id pos : Nat} {origins : Array Interval} {res : Reservations} {r : PhysReg}
  {iv : Interval} {s s' start : ScanState} {w : Waiting} {queue : List Waiting}

/-! ## The order of a scan -/

/-- What a step puts back in the queue starts behind the interval that it processes. -/
theorem Swept.behind (hc : Course p t first origins res) (h : Swept p t first origins res c none [] s)
    (hq : s.queue = w :: queue) (hr : Returns (s.step p res w queue) s') : Behind w.start queue s'.queue := by
  obtain ⟨iv, hid, -, -, hbehind⟩ := (h.safe_step hc hq).post s' hr
  obtain ⟨iv', hid', hstart, -⟩ := h.waiting w (hq ▸ List.mem_cons_self)
  cases Option.some.inj (hid.symm.trans hid')
  exact hstart ▸ hbehind

theorem Swept.reaches (hc : Course p t first origins res) (h : Swept p t first origins res c none [] start)
    (hs : Reaches p res start s) : ∃ c, Swept p t first origins res c none [] s := by
  induction hs with
  | start => exact ⟨c, h⟩
  | step _ hq hr ih =>
      obtain ⟨c, hswept⟩ := ih
      obtain ⟨iv, -, -, hnext, -⟩ := (hswept.safe_step hc hq).post _ hr
      exact ⟨iv.start, hnext⟩

/-- The step that comes next, if something waits. -/
def next (p : Problem) (res : Reservations) (s : ScanState) : Run ScanState :=
  match s.queue with
  | [] => pure s
  | w :: queue => s.step p res w queue

theorem Reaches.next (h : Reaches p res start s) (hr : Returns (next p res s) s') : Reaches p res start s' := by
  unfold ScanState.next at hr
  split at hr
  · exact hr.of_pure ▸ h
  · rename_i w queue hq
    exact h.step hq hr

/-! ## The end of a scan -/

theorem run_refuses {n : Nat} : Refuses (s.run p res n) fun e => e = .tooManyLive := by
  induction n generalizing s with
  | zero =>
      unfold run
      split
      · exact .pure
      · exact .fault
  | succ n ih =>
      unfold run
      split
      · exact .pure
      · exact (step_refuses.mono fun e he => he.1).bind fun s' _ => ih

/-- As many turns as there are roots and points are enough from everywhere. -/
theorem Swept.run_enough (h : Swept p t first origins res c none [] s) {n roots : Nat} (hroots : origins.size - first = roots)
    (hn : p.scanBound roots ≤ n) :
    (origins.size - first) * (p.horizon - c) + s.queue.countP (·.start ≤ c) < n := by
  have hcount := h.ok.count_le (c := c) fun w hw => by
    obtain ⟨iv, hiv, hstart, -, hle⟩ := h.waiting w hw
    exact ⟨iv, hiv, hstart, hstart ▸ hle⟩
  have hmul : roots * (p.horizon - c) ≤ roots * p.horizon := Nat.mul_le_mul_left _ (Nat.sub_le _ _)
  rw [Problem.scanBound, Nat.add_mul, Nat.mul_add] at hn
  rw [hroots] at hcount ⊢
  omega

end ScanState

/-- A computation that breaks no assertion and is refused for one reason only gives a result or is refused for it. -/
theorem Run.Safe.ends {α : Type} {x : Run α} {Q : α → Prop} {e : AllocError} (h : Safe x Q) (hr : Refuses x (· = e))
    (log : Array Event) : (∃ a log', x log = .ok a log' ∧ Q a) ∨ ∃ log', x log = .error (.refused e) log' := by
  cases hx : x log with
  | ok a log' => exact .inl ⟨a, log', rfl, h.post a ⟨log, log', hx⟩⟩
  | error stop log' =>
      cases stop with
      | refused r => exact .inr ⟨log', by rw [hr r ⟨log, log', hx⟩]⟩
      | fault f => exact absurd ⟨log, log', hx⟩ (h.noFault f)

/-- Why a whole run stops, if it does. -/
def Run.stop? {α : Type} (x : Run α) : Option Stop :=
  match x #[] with
  | .ok _ _ => none
  | .error e _ => some e

theorem Run.exists_of_stop? {α : Type} {x : Run α} {e : Stop} (h : x.stop? = some e) : ∃ log, x #[] = .error e log := by
  unfold Run.stop? at h
  split at h
  · cases h
  · rename_i e' log hx
    cases h
    exact ⟨log, hx⟩

theorem Machine.ints_two_nodup (c : RegClass) : ((Machine.ints 2).allocatable c).Nodup := by cases c <;> decide

theorem Machine.ints_two_legible (c : RegClass) : ∀ r ∈ (Machine.ints 2).allocatable c, r.isLegible = true := by
  cases c <;> decide

namespace Problem

variable {p : Problem} {f : Routine} {m : Machine} {ts : Traces} {o : Options} {plan : TracePlan}

/-- In every state of every scan, the step that comes next puts back in the queue only what starts behind the interval
that it processes, and no interval that waits afterwards starts before it. With as many turns as there are roots and
points the scan comes to its end from everywhere, or finds that too many values are live. -/
theorem scans_progress (hts : f.traces plan = .ok ts) (hspan : ∀ b, (f.span b).first ≤ (f.span b).stop)
    (hentry : (ts.blocks 0).head? = some f.entry) (hmirror : f.Mirrored) (hclass : f.OneClass)
    (hlegible : ∀ v ∈ f.occurrences, v.isLegible = true) (hnodup : ∀ c, (m.allocatable c).Nodup)
    (hregs : ∀ c, ∀ r ∈ m.allocatable c, r.isLegible = true) (h : Returns (f.problem m ts o) p) :
    ∀ t built tr s, p.Scans t built tr s →
      (∀ w queue, s.queue = w :: queue → (∃ iv, s.intervals[w.id]? = some iv ∧ w.start = iv.start) ∧
        ∀ s', Returns (s.step p tr.reservations w queue) s' →
          (∃ new, s'.queue.Perm (queue ++ new) ∧ ∀ x ∈ new, w.start < x.start) ∧
          ∀ x ∈ s'.queue, w.start ≤ x.start ∧ ∃ iv, s'.intervals[x.id]? = some iv ∧ x.start = iv.start) ∧
      ∀ n, p.scanBound tr.roots.length ≤ n → ∀ log,
        (∃ s' log', s.run p tr.reservations n log = .ok s' log' ∧ s'.queue = []) ∨
          ∃ log', s.run p tr.reservations n log = .error (.refused .tooManyLive) log' := by
  obtain ⟨hposed, rfl, rfl, rfl, -⟩ := posed_of_problem hts hspan h
  have hsturdy : p.Sturdy := {
    posed := hposed
    mirrored := hmirror
    oneClass := hclass
    entry := hentry
    value := value_legible hlegible hposed.valued
    nodup := hnodup
    allocatable := hregs }
  intro t built tr s hscan
  obtain ⟨a, -, hbuild, hreach⟩ := hscan
  obtain ⟨d, hcourse, hfaithful, rfl, hint, -⟩ := hsturdy.returns_buildRoots hbuild
  rw [← hint] at hcourse
  obtain ⟨c, hswept⟩ := (hfaithful.rooted.swept rfl hint).reaches hcourse hreach
  refine ⟨fun w queue hq => ?_, fun n hn log => ?_⟩
  · obtain ⟨iv, hid, hstart, -⟩ := hswept.waiting w (hq ▸ List.mem_cons_self)
    refine ⟨⟨iv, hid, hstart⟩, fun s' hr => ⟨hswept.behind hcourse hq hr, fun x hx => ?_⟩⟩
    obtain ⟨iv', hid', -, hnext, -⟩ := (hswept.safe_step hcourse hq).post s' hr
    cases Option.some.inj (hid.symm.trans hid')
    obtain ⟨y, hy, hystart, -, hle⟩ := hnext.waiting x hx
    exact ⟨by omega, y, hy, hystart⟩
  · have hroots : built.intervals.size - a.intervals.size = (List.range' a.intervals.size d.roots.size).length := by
      rw [hint, Array.size_append, List.length_range']
      omega
    have hsafe := hswept.safe_run hcourse (hswept.run_enough hroots hn)
    exact (hsafe.mono fun s' _ hs' => hs'.1).ends ScanState.run_refuses log

/-- The roots of the first trace, and its scan up to the third step. -/
def replayScan (f : Routine) (m : Machine) (ts : Traces) (o : Options) :
    Run (Problem × Assignment × TraceRoots × ScanState × ScanState) := do
  let p ← f.problem m ts o
  let (built, tr) ← p.buildRoots 0 (.empty p)
  let s ← ScanState.next p tr.reservations (scanStart built tr)
  let s ← ScanState.next p tr.reservations s
  return (p, built, tr, s, ← ScanState.next p tr.reservations s)

/-- The third value takes the register of the first one, which is split in front of the instruction, before the position
of the scan, and waits for a register again behind it. -/
theorem scans_progress_crowded : ∃ p built tr s w queue s',
    Returns (crowded.problem (.ints 2) crowdedTraces .standard) p ∧ p.Scans 0 built tr s ∧ s.queue = w :: queue ∧
    w.start = Point.after 2 ∧ Returns (s.step p tr.reservations w queue) s' ∧
    (∃ iv ∈ s'.intervals, iv.start = Point.before 2) ∧
    ∃ new, s'.queue.Perm (queue ++ new) ∧ new ≠ [] ∧ ∀ x ∈ new, w.start < x.start := by
  obtain ⟨x, hrun, hqueue, hqueue', iv, hiv, hstart⟩ : ∃ x, Returns (replayScan crowded (.ints 2) crowdedTraces .standard) x ∧
      x.2.2.2.1.queue.map Waiting.start = [Point.after 2] ∧ x.2.2.2.2.queue.map Waiting.start = [Point.before 3] ∧
      ∃ iv ∈ x.2.2.2.2.intervals, iv.start = Point.before 2 := by
    apply Run.exists_returns
    simp only [replayScan, (Routine.problemForm crowded_postorder).2, rootsForm.2]
    decide +kernel
  obtain ⟨p, hp, hrun⟩ := hrun.bind
  obtain ⟨⟨built, tr⟩, hbuild, hrun⟩ := hrun.bind
  obtain ⟨s₁, h₁, hrun⟩ := hrun.bind
  obtain ⟨s, h₂, hrun⟩ := hrun.bind
  obtain ⟨s', hr, hrun⟩ := hrun.bind
  obtain rfl := hrun.of_pure
  obtain ⟨w, hq, hw⟩ := List.map_eq_singleton_iff.1 hqueue
  have hscan : p.Scans 0 built tr s := ⟨_, ⟨#[], #[], rfl⟩, hbuild, (ScanState.Reaches.start.next h₁).next h₂⟩
  rw [ScanState.next, hq] at hr
  obtain ⟨hsteps, -⟩ := scans_progress crowded_traces (Routine.forward_of_blocks (by decide)) rfl (by decide) (by decide)
    (by decide) Machine.ints_two_nodup Machine.ints_two_legible hp 0 built tr s hscan
  obtain ⟨⟨new, hperm, hlater⟩, -⟩ := (hsteps w [] hq).2 s' hr
  refine ⟨p, built, tr, s, w, [], s', hp, hscan, hq, hw, hr, ⟨iv, hiv, hstart⟩, new, hperm, ?_, hlater⟩
  rintro rfl
  have hlength := congrArg List.length hqueue'
  rw [List.length_map, hperm.length_eq] at hlength
  cases hlength

/-! ## A value with two classes -/

/-- A value is read in a register and on the stack by one instruction, under names of different classes. -/
def twoNames : Routine :=
  .assemble [
    { instrs := [⟨.op, [.make ⟨0, some .int⟩ .any .defn .late], .empty, []⟩,
        ⟨.ret, [.make ⟨0, some .int⟩ .reg .use .early, .make ⟨0, some .float⟩ .stack .use .early], .empty, []⟩]
      succs := [], params := [] }]

def twoNamesTraces : Traces := ⟨#[[0]], #[0], #[0]⟩

theorem twoNames_postorder : twoNames.postorder = .ok [0] := by cbv

theorem twoNames_traces : twoNames.traces (.given [[0]]) = .ok twoNamesTraces := by with_unfolding_all rfl

/-- The two operands are not compared, since they have different names. So the interval goes to the stack in spite of
the use in a register. -/
theorem scan_breaks_twoNames : twoNames.traces (.given [[0]]) = .ok twoNamesTraces ∧
    (twoNamesTraces.blocks 0).head? = some twoNames.entry ∧ twoNames.Mirrored ∧
    (∀ v ∈ twoNames.occurrences, v.isLegible = true) ∧ (∀ c, ((Machine.ints 2).allocatable c).Nodup) ∧
    (∀ c, ∀ r ∈ (Machine.ints 2).allocatable c, r.isLegible = true) ∧
    ∃ p built tr, Returns (twoNames.problem (.ints 2) twoNamesTraces .standard) p ∧ p.Scans 0 built tr (scanStart built tr) ∧
      ∃ log, (scanStart built tr).run p tr.reservations (p.scanBound tr.roots.length) #[] =
        .error (.fault .spillNeedsRegister) log := by
  refine ⟨twoNames_traces, rfl, by decide, by decide, Machine.ints_two_nodup, Machine.ints_two_legible, ?_⟩
  obtain ⟨x, hrun, hstop⟩ : ∃ x, Returns (do
      let p ← twoNames.problem (.ints 2) twoNamesTraces .standard
      return (p, ← p.buildRoots 0 (.empty p))) x ∧
      ((scanStart x.2.1 x.2.2).run x.1 x.2.2.reservations (x.1.scanBound x.2.2.roots.length)).stop? =
        some (.fault .spillNeedsRegister) := by
    apply Run.exists_returns
    simp only [(Routine.problemForm twoNames_postorder).2, rootsForm.2]
    decide +kernel
  obtain ⟨p, hp, hrun⟩ := hrun.bind
  obtain ⟨⟨built, tr⟩, hbuild, hrun⟩ := hrun.bind
  obtain rfl := hrun.of_pure
  exact ⟨p, built, tr, hp, ⟨_, ⟨#[], #[], rfl⟩, hbuild, .start⟩, Run.exists_of_stop? hstop⟩

end Problem

end LinearScan
