import LinearScan.Generate.Source
import LinearScan.Proofs.Run

/-!
# What generators promise

`Ensures x Q` says that all that the generator `x` makes satisfies `Q`, whatever its source answers. Each way to build a
generator has a rule.
-/

namespace LinearScan

namespace Gen

variable {σ α β : Type} {x : Gen σ α} {P Q : α → Prop}

def Ensures (x : Gen σ α) (Q : α → Prop) : Prop := ∀ s a s', x s = .ok (a, s') → Q a

namespace Ensures

theorem mono (h : Ensures x P) (hPQ : ∀ a, P a → Q a) : Ensures x Q := fun s a s' hx => hPQ a (h s a s' hx)

theorem any : Ensures x fun _ => True := fun _ _ _ _ => trivial

theorem pure {a : α} (h : Q a) : Ensures (Pure.pure a : Gen σ α) Q := by
  intro s b s' hb
  cases hb
  exact h

theorem throw {e : GenerateError} : Ensures (throw e : Gen σ α) Q := by
  intro s a s' h
  cases h

theorem bind {g : α → Gen σ β} {R : β → Prop} (hx : Ensures x P) (hg : ∀ a, P a → Ensures (g a) R) :
    Ensures (x >>= g) R := by
  intro s b s' h
  obtain ⟨⟨a, s₁⟩, ha, hb⟩ := Except.bind_ok h
  exact hg a (hx s a s₁ ha) s₁ b s' hb

theorem ite_bind {c : Bool} {y : Gen σ α} {g : α → Gen σ β} {R : β → Prop} (hx : Ensures x P) (hy : Ensures y P)
    (hg : ∀ a, P a → Ensures (g a) R) : Ensures (if c = true then x >>= g else y >>= g) R := by
  split
  · exact hx.bind hg
  · exact hy.bind hg

theorem foldlM {l : List α} {g : β → α → Gen σ β} {b : β} {I : List α → β → Prop} (hb : I [] b)
    (hstep : ∀ done x rest b, l = done ++ x :: rest → I done b → Ensures (g b x) (I (done ++ [x]))) :
    Ensures (l.foldlM g b) (I l) := by
  suffices hall : ∀ rest done b, l = done ++ rest → I done b → Ensures (rest.foldlM g b) (I l) from hall l [] b rfl hb
  intro rest
  induction rest with
  | nil =>
      intro done b hl hb
      rw [List.append_nil] at hl
      exact .pure (hl ▸ hb)
  | cons x rest ih =>
      intro done b hl hb
      rw [List.foldlM_cons]
      exact (hstep done x rest b hl hb).bind fun b' hb' => ih (done ++ [x]) b' (by simp [hl]) hb'

end Ensures

/-! ## Questions -/

variable [Source σ]

theorem ensures_between {lo hi : Nat} (h : lo ≤ hi) : Ensures (between lo hi : Gen σ Nat) fun n => lo ≤ n ∧ n ≤ hi :=
  fun _ _ _ hn => Source.between_mem h hn

theorem ensures_coinIf (condition : Bool) :
    Ensures (coinIf condition : Gen σ Bool) fun b => b = true → condition = true := by
  unfold coinIf
  split
  · rename_i hc
    exact Ensures.any.mono fun _ _ _ => hc
  · exact .pure fun h => by cases h

theorem ensures_choose (items : List α) : Ensures (choose items : Gen σ α) (· ∈ items) := by
  unfold choose
  split
  · exact Ensures.throw.bind fun _ (h : False) => h.elim
  · refine Ensures.any.bind fun n _ => ?_
    split
    · rename_i a ha
      exact .pure (List.mem_of_getElem? ha)
    · exact .throw

end Gen

end LinearScan
