import LinearScan.Proofs.Run

/-!
# Why a run has stopped

`Stops x e` says that the computation `x` can stop with `e`. As with results, each way to build a computation has
a lemma that takes such an end apart: some part has stopped, after the parts before it have given results.
-/

namespace LinearScan

variable {α β : Type}

/-! ## Checks -/

namespace Except

variable {ε : Type} {e : ε} {l : List α}

theorem bind_error {x : Except ε α} {g : α → Except ε β} (h : (x >>= g) = .error e) :
    x = .error e ∨ ∃ a, x = .ok a ∧ g a = .error e := by
  cases x with
  | error e' =>
      cases h
      exact .inl rfl
  | ok a => exact .inr ⟨a, rfl, h⟩

theorem foldlM_error {g : β → α → Except ε β} {b : β} (h : l.foldlM g b = .error e) :
    ∃ done x rest b', l = done ++ x :: rest ∧ done.foldlM g b = .ok b' ∧ g b' x = .error e := by
  induction l generalizing b with
  | nil => cases h
  | cons x l ih =>
      rw [List.foldlM_cons] at h
      rcases bind_error h with hx | ⟨b1, hx, h⟩
      · exact ⟨[], x, l, b, rfl, rfl, hx⟩
      · obtain ⟨done, y, rest, b', rfl, hdone, hy⟩ := ih h
        refine ⟨x :: done, y, rest, b', rfl, ?_, hy⟩
        rw [List.foldlM_cons, hx]
        exact hdone

theorem forM_error {g : α → Except ε Unit} (h : l.forM g = .error e) : ∃ x ∈ l, g x = .error e := by
  induction l with
  | nil => cases h
  | cons x l ih =>
      rw [List.forM_eq_forM, List.forM_cons] at h
      rcases bind_error h with hx | ⟨_, -, h⟩
      · exact ⟨x, List.mem_cons_self, hx⟩
      · obtain ⟨y, hy, h⟩ := ih h
        exact ⟨y, List.mem_cons_of_mem _ hy, h⟩

theorem forIn_error {g : α → Unit → Except ε (ForInStep Unit)} (h : forIn l () g = .error e) :
    ∃ x ∈ l, g x () = .error e := by
  induction l with
  | nil => cases h
  | cons x l ih =>
      rw [List.forIn_cons] at h
      rcases bind_error h with hx | ⟨r, -, h⟩
      · exact ⟨x, List.mem_cons_self, hx⟩
      · cases r with
        | done u => cases h
        | yield u =>
            obtain ⟨y, hy, h⟩ := ih h
            exact ⟨y, List.mem_cons_of_mem _ hy, h⟩

end Except

theorem Stop.demand_error {ok : Bool} {f : Fault} {e : Stop} (h : Stop.demand ok f = .error e) : ok = false ∧ e = .fault f := by
  cases ok with
  | true => cases h
  | false =>
      cases h
      exact ⟨rfl, rfl⟩

/-! ## Runs -/

namespace Run

/-- Can the computation stop with `e`? -/
def Stops (x : Run α) (e : Stop) : Prop := ∃ es es', x es = .error e es'

namespace Stops

variable {e : Stop} {l : List α}

theorem bind {x : Run α} {g : α → Run β} (h : Stops (x >>= g) e) :
    Stops x e ∨ ∃ a, Returns x a ∧ Stops (g a) e := by
  obtain ⟨es, es', h⟩ := h
  cases hx : x es with
  | ok a s =>
      simp only [Bind.bind, EStateM.bind, hx] at h
      exact .inr ⟨a, ⟨es, s, hx⟩, s, es', h⟩
  | error e' s =>
      simp only [Bind.bind, EStateM.bind, hx] at h
      cases h
      exact .inl ⟨es, _, hx⟩

theorem of_pure {a : α} (h : Stops (pure a) e) : False := by
  obtain ⟨es, es', h⟩ := h
  cases h

theorem of_emit {ev : Event} (h : Stops (emit ev) e) : False := by
  obtain ⟨es, es', h⟩ := h
  cases h

theorem of_get (h : Stops (get : Run (Array Event)) e) : False := by
  obtain ⟨es, es', h⟩ := h
  cases h

theorem of_fault {f : Fault} (h : Stops (fault f : Run α) e) : e = .fault f := by
  obtain ⟨es, es', h⟩ := h
  cases h
  rfl

theorem of_refuse {r : AllocError} (h : Stops (refuse r : Run α) e) : e = .refused r := by
  obtain ⟨es, es', h⟩ := h
  cases h
  rfl

theorem of_demand {ok : Bool} {f : Fault} (h : Stops (demand ok f) e) : ok = false ∧ e = .fault f := by
  cases ok with
  | true => exact h.of_pure.elim
  | false => exact ⟨rfl, h.of_fault⟩

theorem of_check {x : Except Stop α} (h : Stops (check x) e) : x = .error e := by
  cases x with
  | ok a => exact h.of_pure.elim
  | error e' =>
      obtain ⟨es, es', h⟩ := h
      cases h
      rfl

theorem of_accept {x : Except AllocError α} (h : Stops (accept x) e) : ∃ r, e = .refused r := by
  cases x with
  | ok a => exact h.of_pure.elim
  | error r => exact ⟨r, h.of_refuse⟩

theorem forIn {g : α → Unit → Run (ForInStep Unit)} (h : Stops (forIn l () g) e) :
    ∃ x ∈ l, Stops (g x ()) e := by
  induction l with
  | nil => exact h.of_pure.elim
  | cons x l ih =>
      rw [List.forIn_cons] at h
      rcases h.bind with hx | ⟨r, -, h⟩
      · exact ⟨x, List.mem_cons_self, hx⟩
      · cases r with
        | done u => exact h.of_pure.elim
        | yield u =>
            obtain ⟨y, hy, h⟩ := ih h
            exact ⟨y, List.mem_cons_of_mem _ hy, h⟩

end Stops

theorem stops_of_outcome {x : Run α} {e : Stop} (h : x.outcome.1 = .error e) : Stops x e := by
  unfold outcome at h
  split at h
  · cases h
  · rename_i e' es hx
    cases h
    exact ⟨#[], es, hx⟩

theorem exists_ok {x : Run α} (h : ∀ e, ¬ Stops x e) (log : Array Event) : ∃ a log', x log = .ok a log' := by
  cases hx : x log with
  | ok a log' => exact ⟨a, log', rfl⟩
  | error e log' => exact absurd ⟨log, log', hx⟩ (h e)

theorem exists_stop {x : Run α} {e : Stop}
    (h : (match x #[] with | .ok _ _ => false | .error e' _ => decide (e' = e)) = true) : ∃ es, x #[] = .error e es := by
  cases hx : x #[] with
  | ok a es =>
      rw [hx] at h
      cases h
  | error e' es =>
      rw [hx] at h
      exact ⟨es, by rw [of_decide_eq_true h]⟩

end Run

end LinearScan
