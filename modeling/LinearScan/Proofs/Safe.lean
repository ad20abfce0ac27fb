import LinearScan.Proofs.Stops

/-!
# Runs that break no assertion

`Safe x Q` says that the computation `x` never stops with a fault, and that its results satisfy `Q`. It may refuse
its input. Each way to build a computation has a rule, so that one walk through a definition shows both that its
assertions hold and what they are kept by.
-/

namespace LinearScan

variable {α β ε : Type} {l : List α} {b : β} {I : List α → β → Prop}

/-- A fold of checks that are all passed, with what each beginning of the list establishes. -/
theorem Except.exists_foldlM {g : β → α → Except ε β} (hb : I [] b)
    (hstep : ∀ done x rest b, l = done ++ x :: rest → I done b → ∃ b', g b x = .ok b' ∧ I (done ++ [x]) b') :
    ∃ b', l.foldlM g b = .ok b' ∧ I l b' := by
  refine beginnings_induct (C := fun rest b => ∃ b', rest.foldlM g b = .ok b' ∧ I l b') (fun b hb => ⟨b, rfl, hb⟩)
    (fun done x rest b hl hb ih => ?_) hb
  obtain ⟨b1, h1, hb1⟩ := hstep done x rest b hl hb
  obtain ⟨b2, h2, hb2⟩ := ih b1 hb1
  refine ⟨b2, ?_, hb2⟩
  rw [List.foldlM_cons, h1]
  exact h2

theorem Except.exists_bind {P : α → Prop} {x : Except ε α} {g : α → Except ε β} (hx : ∃ a, x = .ok a ∧ P a)
    (hg : ∀ a, P a → ∃ b, g a = .ok b) : ∃ b, (x >>= g) = .ok b := by
  obtain ⟨a, rfl, ha⟩ := hx
  exact hg a ha

theorem Except.forIn_eq_ok {g : α → Unit → Except ε (ForInStep Unit)}
    (hg : ∀ x ∈ l, g x () = .ok (.yield ())) : ForIn.forIn l () g = .ok () := by
  induction l with
  | nil => rfl
  | cons x l ih =>
      rw [List.forIn_cons, hg x List.mem_cons_self]
      exact ih fun y hy => hg y (List.mem_cons_of_mem _ hy)

namespace Run

/-- The computation stops with no fault, and its results satisfy `Q`. -/
structure Safe (x : Run α) (Q : α → Prop) : Prop where
  noFault : ∀ f, ¬ Stops x (.fault f)
  post : ∀ a, Returns x a → Q a

namespace Safe

variable {Q R : α → Prop} {g : β → α → Run β} {x : Run α} {a : α} {ok : Bool} {f : Fault}

theorem mono (h : Safe x Q) (hQ : ∀ a, Returns x a → Q a → R a) : Safe x R :=
  ⟨h.noFault, fun a ha => hQ a ha (h.post a ha)⟩

theorem pure (h : Q a) : Safe (Pure.pure a) Q :=
  ⟨fun _ hs => hs.of_pure, fun _ hr => hr.of_pure ▸ h⟩

theorem refuse {e : AllocError} : Safe (Run.refuse e) Q :=
  ⟨fun _ hs => Stop.noConfusion hs.of_refuse, fun _ hr => hr.of_refuse.elim⟩

theorem emit (e : Event) : Safe (Run.emit e) fun _ => True :=
  ⟨fun _ hs => hs.of_emit, fun _ _ => trivial⟩

theorem get : Safe (MonadState.get : Run (Array Event)) fun _ => True :=
  ⟨fun _ hs => hs.of_get, fun _ _ => trivial⟩

theorem demand (h : ok = true) : Safe (Run.demand ok f) fun _ => True := by
  subst h
  exact pure trivial

theorem sound {x : Except Fault α} (h : x = .ok a) : Safe (Run.sound x) (· = a) := by
  subst h
  exact pure rfl

theorem accept {x : Except AllocError α} : Safe (Run.accept x) fun a => x = .ok a := by
  refine ⟨fun f hs => ?_, fun a ha => ha.of_accept⟩
  obtain ⟨r, hr⟩ := hs.of_accept
  cases hr

theorem check {x : Except Stop α} (h : ∀ f, x ≠ .error (.fault f)) : Safe (Run.check x) fun a => x = .ok a :=
  ⟨fun f hs => h f hs.of_check, fun _ ha => ha.of_check⟩

theorem bind {g : α → Run β} {R : β → Prop} (hx : Safe x Q)
    (hg : ∀ a, Returns x a → Q a → Safe (g a) R) : Safe (x >>= g) R := by
  refine ⟨fun f hs => ?_, fun b hb => ?_⟩
  · rcases hs.bind with hs | ⟨a, ha, hs⟩
    · exact hx.noFault f hs
    · exact (hg a ha (hx.post a ha)).noFault f hs
  · obtain ⟨a, ha, hb⟩ := hb.bind
    exact (hg a ha (hx.post a ha)).post b hb

theorem emit_bind {e : Event} {g : Unit → Run β} {R : β → Prop} (h : Safe (g ()) R) : Safe (Run.emit e >>= g) R :=
  (emit e).bind fun _ _ _ => h

theorem demand_bind {g : Unit → Run β} {R : β → Prop} (hok : ok = true)
    (h : Safe (g ()) R) : Safe (Run.demand ok f >>= g) R :=
  (demand hok).bind fun _ _ _ => h

theorem foldlM_append (hb : I [] b)
    (hstep : ∀ done x rest b, l = done ++ x :: rest → I done b → Safe (g b x) (I (done ++ [x]))) :
    Safe (l.foldlM g b) (I l) := by
  refine beginnings_induct (C := fun rest b => Safe (rest.foldlM g b) (I l)) (fun b hb => pure hb)
    (fun done x rest b hl hb ih => ?_) hb
  rw [List.foldlM_cons]
  exact (hstep done x rest b hl hb).bind fun b' _ hb' => ih b' hb'

theorem foldlM_range {I : Nat → β → Prop} {g : β → Nat → Run β} {n : Nat} (hb : I 0 b)
    (hstep : ∀ k b, k < n → I k b → Safe (g b k) (I (k + 1))) : Safe ((List.range n).foldlM g b) (I n) := by
  induction n with
  | zero => exact pure hb
  | succ n ih =>
      rw [List.range_succ, List.foldlM_append]
      refine (ih fun k b hk => hstep k b (Nat.lt_succ_of_lt hk)).bind fun b' _ hb' => ?_
      rw [List.foldlM_cons]
      exact (hstep n b' (Nat.lt_succ_self n) hb').bind fun _ _ h => pure h

theorem foldlM {I : β → Prop} (hb : I b)
    (hstep : ∀ b, ∀ x ∈ l, I b → Safe (g b x) I) : Safe (l.foldlM g b) I :=
  foldlM_append (I := fun _ => I) hb fun _ x _ b hl hb => hstep b x (by simp [hl]) hb

theorem forIn {g : α → Unit → Run (ForInStep Unit)} (hg : ∀ x ∈ l, Safe (g x ()) (· = .yield ())) :
    Safe (ForIn.forIn l () g) fun _ => True := by
  induction l with
  | nil => exact pure trivial
  | cons x l ih =>
      rw [List.forIn_cons]
      refine (hg x List.mem_cons_self).bind fun r _ hr => ?_
      subst hr
      exact ih fun y hy => hg y (List.mem_cons_of_mem _ hy)

end Safe

end Run

end LinearScan
