import LinearScan.Check.State
import Mathlib.Data.List.Basic

/-!
# Looking up symbolic states

Each operation on a symbolic state through `find?`, and the order in which a state that knows less
is below one that knows more. The meet of two states is below both.
-/

namespace LinearScan

/-! ## Contents -/

namespace Contents

/-- Does `c` list only what `d` lists? Unknown contents list everything. -/
def Below : Contents → Contents → Prop
  | _, .unknown => True
  | .known vs, .known ws => vs ⊆ ws
  | .unknown, .known _ => False

theorem Below.refl (c : Contents) : c.Below c := by
  cases c with
  | unknown => trivial
  | known vs => exact fun _ h => h

theorem Below.trans {c d e : Contents} (h : c.Below d) (h' : d.Below e) : c.Below e := by
  cases e with
  | unknown => cases c <;> trivial
  | known es =>
      cases d with
      | unknown => exact h'.elim
      | known ds =>
          cases c with
          | unknown => exact h.elim
          | known cs => exact fun _ hv => h' (h hv)

theorem meet_below_left (c d : Contents) : (c.meet d).Below c := by
  cases c with
  | unknown => cases d <;> trivial
  | known vs =>
      cases d with
      | unknown => exact fun _ h => h
      | known ws => exact fun _ h => (List.mem_filter.1 h).1

theorem meet_below_right (c d : Contents) : (c.meet d).Below d := by
  cases d with
  | unknown => cases c <;> trivial
  | known ws =>
      cases c with
      | unknown => exact fun _ h => h
      | known vs => exact fun _ h => by simpa using (List.mem_filter.1 h).2

theorem below_of_sameAs {c d : Contents} (h : c.sameAs d = true) : c.Below d := by
  cases d with
  | unknown => cases c <;> trivial
  | known ws =>
      cases c with
      | unknown => cases h
      | known vs =>
          simp only [sameAs, Bool.and_eq_true, List.all_eq_true, List.contains_iff_mem] at h
          exact fun v hv => h.1 v hv

theorem mem_meet {vs ws : List VirtReg} {v : VirtReg} (h : v ∈ vs) (h' : v ∈ ws) :
    ∃ us, (known vs).meet (known ws) = known us ∧ v ∈ us :=
  ⟨_, rfl, List.mem_filter.2 ⟨h, by simpa using h'⟩⟩

end Contents

/-! ## States -/

namespace CheckState

variable (s t : CheckState)

theorem mem_of_find? {a : Allocation} {c : Contents} (h : s.find? a = some c) : (a, c) ∈ s.entries := by
  obtain ⟨e, he, hc⟩ := Option.map_eq_some_iff.1 h
  have ha := List.find?_some he
  simp only [decide_eq_true_eq] at ha
  subst ha hc
  exact List.mem_of_find?_eq_some he

@[simp] theorem find?_setTop (b : Bool) (a : Allocation) : ({ s with top := b }).find? a = s.find? a :=
  rfl

theorem find?_erase (a b : Allocation) : (s.erase a).find? b = if b = a then none else s.find? b := by
  simp only [find?, erase]
  by_cases h : b = a
  · subst h
    simp only [↓reduceIte, Option.map_eq_none_iff, List.find?_eq_none, List.mem_filter]
    rintro e ⟨-, he⟩
    simpa using he
  · simp only [h, ↓reduceIte, List.find?_filter]
    congr 2
    funext e
    by_cases he : e.1 = b
    · simp [he, h]
    · simp [he]

theorem find?_put (a b : Allocation) (c : Contents) :
    (s.put a c).find? b = if b = a then some c else s.find? b := by
  have he := find?_erase s a b
  simp only [find?] at he ⊢
  simp only [put, List.find?_append, Option.map_or, he]
  by_cases h : b = a
  · subst h
    simp
  · have h' : ¬ a = b := fun e => h e.symm
    simp [h, h']

theorem find?_mapContents (g : Allocation → Contents → Contents) (a : Allocation) :
    (s.mapContents g).find? a = (s.find? a).map (g a) := by
  simp only [find?, mapContents, List.find?_map, Option.map_map]
  cases h : s.entries.find? fun e => decide (e.1 = a) with
  | none =>
      have hn : s.entries.find? ((fun e => decide (e.1 = a)) ∘
          fun x : Allocation × Contents => (x.1, g x.1 x.2)) = none := h
      rw [hn]
      rfl
  | some e =>
      have hn : s.entries.find? ((fun e => decide (e.1 = a)) ∘
          fun x : Allocation × Contents => (x.1, g x.1 x.2)) = some e := h
      have ha := List.find?_some h
      simp only [decide_eq_true_eq] at ha
      rw [hn]
      simp only [Option.map_some, Function.comp_apply, ha]

theorem find?_meet (hs : s.top = false) (ht : t.top = false) (a : Allocation) :
    (s.meet t).find? a = (s.find? a).bind fun c => (t.find? a).map c.meet := by
  simp only [meet, hs, ht, Bool.false_eq_true, ↓reduceIte]
  simp only [find?]
  induction s.entries with
  | nil => rfl
  | cons e rest ih =>
      obtain ⟨k, c⟩ := e
      by_cases hk : k = a
      · subst hk
        cases hd : t.entries.find? fun e => decide (e.1 = k) with
        | none =>
            simp only [hd, Option.map_none] at ih ⊢
            simpa [find?, hd] using ih
        | some d => simp [hd]
      · cases hd : t.entries.find? fun e => decide (e.1 = k) with
        | none => simpa [find?, hd, hk] using ih
        | some d => simpa [find?, hd, hk] using ih

theorem find?_define (v : VirtReg) (a b : Allocation) :
    (s.define v a).find? b =
      if b = a then some (.known [v]) else (s.find? b).map (·.forget v) := by
  simp only [define, find?_put, find?_mapContents]
  by_cases h : b = a
  · simp [h]
  · simp only [h, ↓reduceIte]

theorem find?_eraseAll (rs : List PhysReg) (s : CheckState) (a : Allocation) :
    (rs.foldl (fun s r => s.erase (.reg r)) s).find? a =
      if a.reg?.any rs.contains then none else s.find? a := by
  induction rs generalizing s with
  | nil => cases a <;> simp [Allocation.reg?]
  | cons r rs ih =>
      simp only [List.foldl_cons, ih, find?_erase]
      cases a with
      | none => simp [Allocation.reg?]
      | stack k => simp [Allocation.reg?]
      | reg q =>
          by_cases hq : q = r
          · simp [Allocation.reg?, hq]
          · simp [Allocation.reg?, hq]

theorem find?_clobbered (rs : RegSet) (s : CheckState) (a : Allocation) :
    (rs.toList.foldl (fun s r => s.erase (.reg r)) s).find? a = if a.reg?.any rs.contains then none else s.find? a := by
  have hiff : a.reg?.any rs.toList.contains = a.reg?.any rs.contains := by
    cases a with
    | none => rfl
    | stack k => rfl
    | reg q =>
        simp only [Allocation.reg?, Option.any_some]
        rw [Bool.eq_iff_iff, List.contains_iff_mem, RegSet.mem_toList]
  rw [find?_eraseAll, hiff]

theorem top_after (step : CheckStep) : (s.after step).top = false := by
  cases step with
  | move source dest => rfl
  | params pairs => rfl
  | instr i operands allocs clobbers =>
      refine List.foldlRecOn (motive := fun s : CheckState => s.top = false) _ _ ?_ fun _ hs _ _ => hs
      exact List.foldlRecOn (motive := fun s : CheckState => s.top = false) _ _ rfl fun _ hs _ _ => hs

theorem top_afterAll {s : CheckState} (h : s.top = false) (steps : List CheckStep) :
    (s.afterAll steps).top = false := by
  induction steps generalizing s with
  | nil => exact h
  | cons step rest ih => exact ih (s.top_after step)

/-! ## The order of states -/

/-- Does `s` know at most what `t` knows? A place that has not been reached knows everything. -/
def Below (s t : CheckState) : Prop :=
  t.top = true ∨ s.top = false ∧
    ∀ a c, s.find? a = some c → ∃ d, t.find? a = some d ∧ c.Below d

theorem Below.refl (s : CheckState) : s.Below s := by
  cases h : s.top with
  | true => exact .inl h
  | false => exact .inr ⟨h, fun a c hc => ⟨c, hc, Contents.Below.refl c⟩⟩

theorem Below.trans {s t u : CheckState} (h : s.Below t) (h' : t.Below u) : s.Below u := by
  rcases h' with hu | ⟨ht, h'⟩
  · exact .inl hu
  · rcases h with hn | ⟨hs, h⟩
    · rw [ht] at hn; cases hn
    · refine .inr ⟨hs, fun a c hc => ?_⟩
      obtain ⟨d, hd, hcd⟩ := h a c hc
      obtain ⟨e, he, hde⟩ := h' a d hd
      exact ⟨e, he, hcd.trans hde⟩

theorem Below.top {s t : CheckState} (h : s.Below t) (ht : t.top = false) : s.top = false := by
  rcases h with hn | ⟨hs, -⟩
  · rw [ht] at hn; cases hn
  · exact hs

theorem meet_below_left : (s.meet t).Below s := by
  cases hs : s.top with
  | true => exact .inl hs
  | false =>
      cases ht : t.top with
      | true => simpa [meet, hs, ht] using Below.refl s
      | false =>
          refine .inr ⟨by simp [meet, hs, ht], fun a c hc => ?_⟩
          rw [find?_meet s t hs ht] at hc
          obtain ⟨c', hc', hm⟩ := Option.bind_eq_some_iff.1 hc
          obtain ⟨d, -, rfl⟩ := Option.map_eq_some_iff.1 hm
          exact ⟨c', hc', Contents.meet_below_left c' d⟩

theorem meet_below_right : (s.meet t).Below t := by
  cases ht : t.top with
  | true => exact .inl ht
  | false =>
      cases hs : s.top with
      | true => simpa [meet, hs] using Below.refl t
      | false =>
          refine .inr ⟨by simp [meet, hs, ht], fun a c hc => ?_⟩
          rw [find?_meet s t hs ht] at hc
          obtain ⟨c', -, hm⟩ := Option.bind_eq_some_iff.1 hc
          obtain ⟨d, hd, rfl⟩ := Option.map_eq_some_iff.1 hm
          exact ⟨d, hd, Contents.meet_below_right c' d⟩

theorem below_of_sameAs {s t : CheckState} (h : s.sameAs t = true) : t.Below s := by
  simp only [sameAs, Bool.and_eq_true, beq_iff_eq] at h
  obtain ⟨⟨htop, -⟩, hl⟩ := h
  cases hs : s.top with
  | true => exact .inl hs
  | false =>
      refine .inr ⟨by rw [← htop, hs], fun a c hc => ?_⟩
      have hany := List.all_eq_true.1 hl _ (t.mem_of_find? hc)
      cases hd : s.find? a with
      | none => simp [hd] at hany
      | some d => exact ⟨d, rfl, Contents.below_of_sameAs (by simpa [hd] using hany)⟩

end CheckState

end LinearScan
