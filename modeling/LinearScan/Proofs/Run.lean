import LinearScan.Event
import Mathlib.Data.List.Basic

/-!
# What a run that gives a result has done

`Returns x a` says that the computation `x` can give the result `a`. Each way to build a computation
has a lemma that takes such a result apart, so that a proof about a result never looks at the events.
-/

namespace LinearScan

variable {α β γ ε : Type} {l : List α} {a : α} {b b' : β} {u : Unit} {e : Fault} {x : Run α}
  {I : List α → β → Prop}

/-! ## Checks -/

theorem Except.bind_ok {x : Except ε α} {g : α → Except ε β}
    (h : (x >>= g) = .ok b) : ∃ a, x = .ok a ∧ g a = .ok b := by
  cases x with
  | error e => cases h
  | ok a => exact ⟨a, rfl, h⟩

/-- An induction along a list in which `I` holds of each beginning, with what has come of it, and `C` of the rest. -/
theorem beginnings_induct {C : List α → β → Prop} (hnil : ∀ b, I l b → C [] b)
    (hcons : ∀ done x rest b, l = done ++ x :: rest → I done b → (∀ b', I (done ++ [x]) b' → C rest b') → C (x :: rest) b)
    (hb : I [] b) : C l b := by
  suffices hall : ∀ rest done b, l = done ++ rest → I done b → C rest b from hall l [] b rfl hb
  intro rest
  induction rest with
  | nil =>
      intro done b hl hb
      rw [List.append_nil] at hl
      exact hnil b (hl ▸ hb)
  | cons x rest ih =>
      intro done b hl hb
      exact hcons done x rest b hl hb fun b' hb' => ih (done ++ [x]) b' (by simp [hl]) hb'

/-- What holds of each beginning of a list and of the fold over it holds of the whole. -/
theorem Except.foldlM_append {g : β → α → Except ε β}
    (hstep : ∀ done x rest b b', l = done ++ x :: rest → I done b → g b x = .ok b' → I (done ++ [x]) b')
    (hb : I [] b) (h : l.foldlM g b = .ok b') : I l b' := by
  refine beginnings_induct (C := fun rest b => rest.foldlM g b = .ok b' → I l b') (fun b hb h => ?_)
    (fun done x rest b hl hb ih h => ?_) hb h
  · cases h
    exact hb
  · rw [List.foldlM_cons] at h
    obtain ⟨b1, hx, hrest⟩ := Except.bind_ok h
    exact ih b1 (hstep done x rest b b1 hl hb hx) hrest

theorem Except.foldlM_induct {I : β → Prop} {g : β → α → Except ε β}
    (hstep : ∀ b x b', x ∈ l → I b → g b x = .ok b' → I b') (hb : I b)
    (h : l.foldlM g b = .ok b') : I b' :=
  Except.foldlM_append (I := fun _ b => I b)
    (fun _ x _ b b' hl hb hx => hstep b x b' (by simp [hl]) hb hx) hb h

theorem Except.forM_ok {g : α → Except ε Unit} (h : l.forM g = .ok u) : ∀ x ∈ l, g x = .ok () := by
  induction l with
  | nil => simp
  | cons x l ih =>
      change (g x >>= fun _ => l.forM g) = _ at h
      obtain ⟨_, hx, hl⟩ := Except.bind_ok h
      intro y hy
      rcases List.mem_cons.1 hy with rfl | hy
      · exact hx
      · exact ih hl y hy

theorem Except.forIn_ok {P : α → Prop} {g : α → Unit → Except ε (ForInStep Unit)}
    (hg : ∀ x r, g x () = .ok r → P x ∧ r = .yield ()) (h : forIn l () g = .ok u) : ∀ x ∈ l, P x := by
  induction l with
  | nil => simp
  | cons x l ih =>
      rw [List.forIn_cons] at h
      obtain ⟨r, hr, h⟩ := Except.bind_ok h
      obtain ⟨hx, rfl⟩ := hg x r hr
      intro y hy
      rcases List.mem_cons.1 hy with rfl | hy
      · exact hx
      · exact ih h y hy

theorem Stop.demand_ok {ok : Bool} (h : Stop.demand ok e = .ok u) : ok = true := by
  cases ok with
  | true => rfl
  | false => cases h

/-! ## Results of runs -/

namespace Run

/-- Can the computation give the result `a`? -/
def Returns (x : Run α) (a : α) : Prop := ∃ es es', x es = .ok a es'

theorem Returns.bind {g : α → Run β} (h : Returns (x >>= g) b) : ∃ a, Returns x a ∧ Returns (g a) b := by
  obtain ⟨es, es', h⟩ := h
  cases hx : x es with
  | ok a s =>
      simp only [Bind.bind, EStateM.bind, hx] at h
      exact ⟨a, ⟨es, s, hx⟩, ⟨s, es', h⟩⟩
  | error e s =>
      simp only [Bind.bind, EStateM.bind, hx] at h
      cases h

theorem Returns.of_pure {b : α} (h : Returns (pure a) b) : a = b := by
  obtain ⟨es, es', h⟩ := h
  cases h
  rfl

theorem Returns.of_fault (h : Returns (fault e) a) : False := by
  obtain ⟨es, es', h⟩ := h
  cases h

theorem Returns.of_refuse {e : AllocError} (h : Returns (refuse e) a) : False := by
  obtain ⟨es, es', h⟩ := h
  cases h

theorem Returns.of_demand {ok : Bool} (h : Returns (demand ok e) u) : ok = true := by
  cases ok with
  | true => rfl
  | false => exact h.of_fault.elim

theorem Returns.of_check {x : Except Stop α} (h : Returns (check x) a) : x = .ok a := by
  cases x with
  | ok b => rw [h.of_pure]
  | error e =>
      obtain ⟨es, es', h⟩ := h
      cases h

theorem Returns.of_accept {x : Except AllocError α} (h : Returns (accept x) a) : x = .ok a := by
  cases x with
  | ok b => rw [h.of_pure]
  | error e => exact h.of_refuse.elim

theorem Returns.of_sound {x : Except Fault α} (h : Returns (sound x) a) : x = .ok a := by
  cases x with
  | ok b => rw [h.of_pure]
  | error e => exact h.of_fault.elim

theorem Returns.foldlM_append {g : β → α → Run β}
    (hstep : ∀ done x rest b b', l = done ++ x :: rest → I done b → Returns (g b x) b' →
      I (done ++ [x]) b') (hb : I [] b) (h : Returns (l.foldlM g b) b') : I l b' := by
  refine beginnings_induct (C := fun rest b => Returns (rest.foldlM g b) b' → I l b') (fun b hb h => ?_)
    (fun done x rest b hl hb ih h => ?_) hb h
  · exact h.of_pure ▸ hb
  · rw [List.foldlM_cons] at h
    obtain ⟨b1, hx, hrest⟩ := h.bind
    exact ih b1 (hstep done x rest b b1 hl hb hx) hrest

theorem Returns.foldlM_range {I : Nat → β → Prop} {g : β → Nat → Run β} {n : Nat}
    (hstep : ∀ k b b', k < n → I k b → Returns (g b k) b' → I (k + 1) b') (hb : I 0 b)
    (h : Returns ((List.range n).foldlM g b) b') : I n b' := by
  have hall := h.foldlM_append (I := fun done b => I done.length b) (fun done k rest b b' hl hd hr => ?_) hb
  · rwa [List.length_range] at hall
  · have hget : (List.range n)[done.length]? = some k := by simp [hl]
    obtain ⟨hlt, hk⟩ := List.getElem?_eq_some_iff.1 hget
    have hk : done.length = k := by simpa using hk
    rw [List.length_append, List.length_singleton, hk]
    exact hstep k b b' (by simpa [hk] using hlt) (hk ▸ hd) hr

theorem Returns.foldlM_down {I : Nat → β → Prop} {g : β → Nat → Run β} {n k : Nat}
    (hstep : ∀ i b b', n ≤ i → i < n + k → I (i + 1) b → Returns (g b i) b' → I i b') (hb : I (n + k) b)
    (h : Returns ((List.range' n k).reverse.foldlM g b) b') : I n b' := by
  induction k generalizing n b' with
  | zero => exact h.of_pure ▸ hb
  | succ k ih =>
      rw [List.range'_succ, List.reverse_cons, List.foldlM_append] at h
      obtain ⟨b1, h1, h⟩ := h.bind
      rw [List.foldlM_cons] at h
      obtain ⟨b2, h2, h⟩ := h.bind
      obtain rfl := h.of_pure
      have hrest : I (n + 1) b1 := ih (fun i b b' hi hlt => hstep i b b' (by omega) (by omega))
        (by rwa [Nat.add_assoc, Nat.add_comm 1 k]) h1
      exact hstep n b1 b2 (Nat.le_refl _) (by omega) hrest h2

theorem Returns.foldlM_induct {I : β → Prop} {g : β → α → Run β}
    (hstep : ∀ b x b', x ∈ l → I b → Returns (g b x) b' → I b') (hb : I b)
    (h : Returns (l.foldlM g b) b') : I b' :=
  Returns.foldlM_append (I := fun _ b => I b)
    (fun _ x _ b b' hl hb hx => hstep b x b' (by simp [hl]) hb hx) hb h

theorem returns_of_outcome (h : x.outcome.1 = .ok a) : Returns x a := by
  unfold outcome at h
  split at h
  · rename_i b es hx
    cases h
    exact ⟨#[], es, hx⟩
  · cases h

theorem exists_returns {P : α → Prop} [DecidablePred P]
    (h : (match x #[] with | .ok a _ => decide (P a) | .error _ _ => false) = true) : ∃ a, Returns x a ∧ P a := by
  cases hx : x #[] with
  | ok a es =>
      rw [hx] at h
      exact ⟨a, ⟨#[], es, hx⟩, of_decide_eq_true h⟩
  | error e es =>
      rw [hx] at h
      cases h

end Run

end LinearScan
