import LinearScan.Proofs.Check.Bound
import LinearScan.Proofs.Check.Soundness
import LinearScan.Proofs.ControlFlow

/-!
# The analysis solves its equations

What holds when the loop of the analysis has ended: every block that paths lead to has
been reached, and telling a successor once more what leaves a block changes nothing. A step may make a location unknown
of which something was known before, so this does not rest on steps that keep the order of states. It rests on the states
in the search, which only lose knowledge.
-/

namespace LinearScan

/-! ## States that agree -/

/-- Both contents are unknown, or both list the same values. -/
def Contents.Agrees : Contents → Contents → Prop
  | .unknown, .unknown => True
  | .known vs, .known ws => ∀ v, v ∈ vs ↔ v ∈ ws
  | _, _ => False

theorem Contents.Agrees.refl (c : Contents) : c.Agrees c := by
  cases c with
  | unknown => trivial
  | known vs => exact fun _ => Iff.rfl

theorem Contents.Below.meet_agrees {c d : Contents} (h : d.Below c) : (c.meet d).Agrees d := by
  cases c with
  | unknown => exact Agrees.refl d
  | known vs =>
      cases d with
      | unknown => exact h.elim
      | known ws =>
          intro v
          simp only [List.mem_filter, List.contains_iff_mem, and_iff_right_iff_imp]
          exact fun hv => h hv

/-- Both places have been reached or neither has, and every location has the same contents. -/
def CheckState.Agrees (s t : CheckState) : Prop :=
  s.top = t.top ∧ ∀ a, Option.Rel Contents.Agrees (s.find? a) (t.find? a)

theorem CheckState.Agrees.refl (s : CheckState) : s.Agrees s := by
  refine ⟨rfl, fun a => ?_⟩
  cases s.find? a with
  | none => exact .none
  | some c => exact .some (Contents.Agrees.refl c)

theorem CheckState.Below.meet_agrees {s t : CheckState} (h : t.Below s) : (s.meet t).Agrees t := by
  cases hs : s.top with
  | true =>
      have hmeet : s.meet t = t := by simp [CheckState.meet, hs]
      rw [hmeet]
      exact Agrees.refl t
  | false =>
      obtain ⟨ht, hfind⟩ := h.resolve_left (by simp [hs])
      refine ⟨by simp [CheckState.meet, hs, ht], fun a => ?_⟩
      rw [find?_meet s t hs ht]
      cases hd : t.find? a with
      | none => cases s.find? a <;> exact .none
      | some d =>
          obtain ⟨c, hc, hdc⟩ := hfind a d hd
          rw [hc]
          exact .some hdc.meet_agrees

/-! ## The solution -/

namespace Output

variable {f : Routine} {out : Output} {search : CheckSearch}

theorem Consistent.reached (h : Consistent f out search) (hq : search.queue = []) (hentry : f.entry < f.numBlocks)
    (hsuccs : ∀ b, ∀ s ∈ f.succs b, s < f.numBlocks) {b : Nat} (hb : f.Reachable b) : (search.stateAt b).top = false := by
  induction hb with
  | entry => exact (h.entry hentry).top rfl
  | @step b s _ hs ih =>
      exact (h.edges b s (by simp [hq]) ih hs (hsuccs b s hs)).top (top_leaving ih b s)

/-- The analysis of a routine without dangling edges ends, whatever the result that is checked. Then the entry and every
block that paths lead to have been reached, and the state of a block meets what comes over any edge into it without a
change. -/
theorem analyse_solves (out : Output) (hentry : f.entry < f.numBlocks)
    (hsuccs : ∀ b, ∀ s ∈ f.succs b, s < f.numBlocks) :
    ∃ search, analyse f out = some search ∧ Settles f out (firstSearch f) search ∧
      (search.stateAt f.entry).top = false ∧
      ∀ b, f.Reachable b → (search.stateAt b).top = false ∧
        ∀ s ∈ f.succs b,
          ((leaving f out (search.stateAt b) b s).meet (search.stateAt s)).Agrees (search.stateAt s) := by
  obtain ⟨search, hs⟩ : ∃ search, analyse f out = some search := exists_analyse hsuccs
  obtain ⟨hconsistent, hqueue⟩ := analyse_consistent hs
  refine ⟨search, hs, settles_of_settleCheck hs, hconsistent.reached hqueue hentry hsuccs .entry, fun b hb => ?_⟩
  have htop := hconsistent.reached hqueue hentry hsuccs hb
  exact ⟨htop, fun s hs => (hconsistent.edges b s (by simp [hqueue]) htop hs (hsuccs b s hs)).meet_agrees⟩

/-- A result for the loop that moves a register which nothing writes to where the loop expects its value. -/
def strayLoopOutput : Output :=
  { countingLoopOutput with edits := #[⟨6, .reg (.ofIndex 5), .reg (.ofIndex 0), .int⟩] }

/-- What comes back over the edge of the loop is unknown, and the state at its start still lists values: each round
meets it without a change. -/
theorem analyse_solves_strayLoop : ∃ search, analyse countingLoop strayLoopOutput = some search ∧
    Settles countingLoop strayLoopOutput (firstSearch countingLoop) search ∧ (search.stateAt 2).top = false ∧
    (search.stateAt 1).get (.reg (.ofIndex 0)) = .known [⟨0, some .int⟩, ⟨1, some .int⟩] ∧
    (leaving countingLoop strayLoopOutput (search.stateAt 1) 1 1).get (.reg (.ofIndex 0)) = .unknown ∧
    ((leaving countingLoop strayLoopOutput (search.stateAt 1) 1 1).meet (search.stateAt 1)).Agrees
      (search.stateAt 1) := by
  have hstates : (analyse countingLoop strayLoopOutput).map (fun search =>
      ((search.stateAt 1).get (.reg (.ofIndex 0)),
        (leaving countingLoop strayLoopOutput (search.stateAt 1) 1 1).get (.reg (.ofIndex 0)))) =
      some (.known [⟨0, some .int⟩, ⟨1, some .int⟩], .unknown) := by decide +kernel
  have hsuccs : ∀ b, ∀ s ∈ countingLoop.succs b, s < countingLoop.numBlocks := by
    have hbounded : ∀ b < 3, ∀ s ∈ countingLoop.succs b, s < countingLoop.numBlocks := by decide
    exact fun b s hs => hbounded b (Routine.lt_of_mem_succs hs) s hs
  obtain ⟨search, hs, hsettles, -, hreached⟩ := analyse_solves strayLoopOutput (by decide) hsuccs
  have hloop : countingLoop.Reachable 1 := .step .entry (by decide)
  have hexit : countingLoop.Reachable 2 := .step hloop (by decide)
  rw [hs] at hstates
  obtain ⟨hknown, hunknown⟩ := Prod.mk.inj (Option.some.inj hstates)
  exact ⟨search, hs, hsettles, (hreached 2 hexit).1, hknown, hunknown, (hreached 1 hloop).2 1 (by decide)⟩

end Output

end LinearScan
