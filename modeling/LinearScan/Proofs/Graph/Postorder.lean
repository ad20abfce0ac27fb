import LinearScan.Proofs.Graph.Loops
import LinearScan.Proofs.Total
import Mathlib.Logic.Relation

/-!
# What a depth-first walk leaves

A walk with enough fuel leaves exactly the nodes that can be reached, each once and after the nodes below it. So each node
but the first comes before one of its predecessors, and a successor that comes after a node leads back to it.
-/

namespace LinearScan

namespace Graph

open Relation

variable {g : Graph} {w w' : Walk} {ns new : List Nat} {n s entry fuel : Nat}

/-- Edges lead from node `a` to node `b`, if only by staying. -/
def Reaches (g : Graph) (a b : Nat) : Prop := ReflTransGen (fun u v => v ∈ g.succs u) a b

/-! ## Fuel -/

/-- The nodes and edges that a walk has not looked at. -/
def unseen (g : Graph) (w : Walk) : Nat :=
  total ((List.range g.size).map fun n => if w.seen.getD n true then 0 else (g.succs n).length + 1)

theorem unseen_le (h : ∀ n, w.seen.getD n true = true → w'.seen.getD n true = true) : g.unseen w' ≤ g.unseen w := by
  refine total_map_le fun n _ => ?_
  by_cases hn : w.seen.getD n true = true
  · simp [h n hn]
  · rw [if_neg hn]
    split
    · exact Nat.zero_le _
    · exact Nat.le_refl _

theorem getD_mark (hn : w.seen.getD n true = false) (x : Nat) :
    (w.seen.setIfInBounds n true).getD x true = (w.seen.getD x true || decide (x = n)) := by
  by_cases hx : x = n
  · subst hx
    by_cases hlt : x < w.seen.size
    · simp [hlt]
    · simp [hlt] at hn
  · have hx' : ¬ n = x := fun e => hx e.symm
    simp [hx, hx']

theorem unseen_mark (hsize : w.seen.size = g.size) (hn : w.seen.getD n true = false) :
    g.unseen { w with seen := w.seen.setIfInBounds n true } + ((g.succs n).length + 1) ≤ g.unseen w := by
  have hlt : n < g.size := by
    refine Nat.lt_of_not_le fun hge => ?_
    rw [Array.getD_eq_getD_getElem?, Array.getElem?_eq_none (hsize ▸ hge)] at hn
    cases hn
  refine total_map_add_le (fun x _ => ?_) (List.mem_range.2 hlt) ?_
  · rw [getD_mark hn]
    cases w.seen.getD x true with
    | true => simp
    | false =>
        by_cases hx : x = n
        · simp [hx]
        · simp [hx]
  · rw [getD_mark hn, hn]
    simp

/-! ## The walk -/

/-- What visiting the nodes `ns` does: the walk leaves the nodes `new`. -/
structure Visited (g : Graph) (ns : List Nat) (w w' : Walk) (new : List Nat) : Prop where
  runs : Visits g ns w w'
  left : w'.left.toList = w.left.toList ++ new
  size : w'.seen.size = w.seen.size
  seen : ∀ n, w'.seen.getD n true = true ↔ w.seen.getD n true = true ∨ n ∈ new
  fresh : ∀ n ∈ new, w.seen.getD n true = false
  nodup : new.Nodup
  listed : ∀ n ∈ ns, w'.seen.getD n true = true
  closed : ∀ n ∈ new, ∀ s ∈ g.succs n, w'.seen.getD s true = true
  /-- What is not in the list has been found from a node that is left later. -/
  above : ∀ n ∈ new, n ∈ ns ∨ ∃ l l' q, new = l ++ n :: l' ∧ q ∈ l' ∧ n ∈ g.succs q
  reached : ∀ n ∈ new, ∃ m ∈ ns, g.Reaches m n
  /-- A new node that is left before its successor has been found from it. -/
  ordered : ∀ l n l', new = l ++ n :: l' → ∀ s ∈ g.succs n, w.seen.getD s true = true ∨ s ∈ l ∨ g.Reaches s n

theorem Visited.skip (h : Visited g ns w w' new) (hn : w.seen.getD n true = true) : Visited g (n :: ns) w w' new := by
  refine { h with
    runs := .skip hn h.runs
    listed := List.forall_mem_cons.2 ⟨(h.seen n).2 (.inl hn), h.listed⟩
    above := fun x hx => (h.above x hx).imp_left (List.mem_cons_of_mem _)
    reached := fun x hx => ?_ }
  obtain ⟨m, hm, hmx⟩ := h.reached x hx
  exact ⟨m, List.mem_cons_of_mem _ hm, hmx⟩

/-- A new node is left after what is below it and before the rest of the list. -/
theorem Visited.node {below : Walk} {new' : List Nat} (hn : w.seen.getD n true = false)
    (hbelow : Visited g (g.succs n) { w with seen := w.seen.setIfInBounds n true } below new)
    (hrest : Visited g ns { below with left := below.left.push n } w' new') :
    Visited g (n :: ns) w w' (new ++ n :: new') := by
  have hmark (x : Nat) : below.seen.getD x true = true ↔ w.seen.getD x true = true ∨ x = n ∨ x ∈ new := by
    rw [hbelow.seen x, getD_mark hn]
    simp [or_assoc]
  have hseen (x : Nat) : w'.seen.getD x true = true ↔ w.seen.getD x true = true ∨ x ∈ new ++ n :: new' := by
    rw [hrest.seen x, hmark x]
    simp only [List.mem_append, List.mem_cons]
    grind
  have hnew (x : Nat) (hx : x ∈ new) : w.seen.getD x true = false ∧ x ≠ n := by
    have hf := hbelow.fresh x hx
    rw [getD_mark hn] at hf
    simpa using hf
  have hnew' (x : Nat) (hx : x ∈ new') : w.seen.getD x true = false ∧ x ≠ n ∧ x ∉ new := by
    have hf : ¬ below.seen.getD x true = true := Bool.eq_false_iff.1 (hrest.fresh x hx)
    rw [hmark x, not_or, not_or] at hf
    exact ⟨Bool.eq_false_iff.2 hf.1, hf.2⟩
  have hdown (x : Nat) (hx : x ∈ new) : g.Reaches n x := by
    obtain ⟨m, hm, hmx⟩ := hbelow.reached x hx
    exact .head hm hmx
  have hat (y : Nat) (hy : y ∈ g.succs n) : w.seen.getD y true = true ∨ y ∈ new ∨ g.Reaches y n := by
    rcases (hmark y).1 (hbelow.listed y hy) with hw | rfl | hw
    · exact .inl hw
    · exact .inr (.inr .refl)
    · exact .inr (.inl hw)
  -- new nodes lie below `n`, are `n`, or belong to the rest
  have hall {P : Nat → Prop} (hb : ∀ x ∈ new, P x) (hp : P n) (hr : ∀ x ∈ new', P x) : ∀ x ∈ new ++ n :: new', P x :=
    List.forall_mem_append.2 ⟨hb, List.forall_mem_cons.2 ⟨hp, hr⟩⟩
  refine ⟨.node hn hbelow.runs hrest.runs, ?_, ?_, hseen, hall (fun x hx => (hnew x hx).1) hn fun x hx => (hnew' x hx).1, ?_,
    List.forall_mem_cons.2 ⟨(hseen n).2 (.inr (by simp)), hrest.listed⟩,
    hall (fun x hx y hy => (hrest.seen y).2 (.inl (hbelow.closed x hx y hy)))
      (fun y hy => (hrest.seen y).2 (.inl (hbelow.listed y hy))) hrest.closed,
    hall (fun x hx => .inr ?_) (.inl List.mem_cons_self) fun x hx => ?_,
    hall (fun x hx => ⟨n, List.mem_cons_self, hdown x hx⟩) ⟨n, List.mem_cons_self, .refl⟩ fun x hx => ?_,
    fun l x l' heq y hy => ?_⟩
  · rw [hrest.left]
    simp [hbelow.left]
  · rw [hrest.size, hbelow.size, Array.size_setIfInBounds]
  · refine List.nodup_append.2 ⟨hbelow.nodup, List.nodup_cons.2 ⟨fun hx => (hnew' n hx).2.1 rfl, hrest.nodup⟩, ?_⟩
    rintro x hx y hy rfl
    rcases List.mem_cons.1 hy with rfl | hy
    · exact (hnew x hx).2 rfl
    · exact (hnew' x hy).2.2 hx
  · rcases hbelow.above x hx with hs | ⟨l, l', q, rfl, hq, hxq⟩
    · obtain ⟨l, l', rfl⟩ := List.append_of_mem hx
      exact ⟨l, l' ++ n :: new', n, by simp, by simp, hs⟩
    · exact ⟨l, l' ++ n :: new', q, by simp, by simp [hq], hxq⟩
  · rcases hrest.above x hx with hs | ⟨l, l', q, rfl, hq, hxq⟩
    · exact .inl (List.mem_cons_of_mem _ hs)
    · exact .inr ⟨new ++ n :: l, l', q, by simp, hq, hxq⟩
  · obtain ⟨m, hm, hmx⟩ := hrest.reached x hx
    exact ⟨m, List.mem_cons_of_mem _ hm, hmx⟩
  · rcases List.append_eq_append_iff.1 heq with ⟨c, rfl, hc⟩ | ⟨c, rfl, hc⟩
    · rcases List.cons_eq_append_iff.1 hc with ⟨rfl, hc⟩ | ⟨c, rfl, rfl⟩
      · obtain ⟨rfl, -⟩ := List.cons.inj hc
        exact (hat y hy).imp_right (.imp_left (List.mem_append_left _))
      · rcases hrest.ordered c x l' rfl y hy with hw | hw | hw
        · rcases (hmark y).1 hw with hw | rfl | hw
          · exact .inl hw
          · exact .inr (.inl (by simp))
          · exact .inr (.inl (List.mem_append_left _ hw))
        · exact .inr (.inl (by simp [hw]))
        · exact .inr (.inr hw)
    · rcases List.cons_eq_append_iff.1 hc with ⟨rfl, hc⟩ | ⟨c, rfl, -⟩
      · obtain ⟨rfl, -⟩ := List.cons.inj hc
        exact (hat y hy).imp_right (.imp_left (by simp))
      · rcases hbelow.ordered l x c rfl y hy with hw | hw | hw
        · rw [getD_mark hn, Bool.or_eq_true, decide_eq_true_eq] at hw
          rcases hw with hw | rfl
          · exact .inl hw
          · exact .inr (.inr (hdown x (by simp)))
        · exact .inr (.inl hw)
        · exact .inr (.inr hw)

theorem visited_visit (hsize : w.seen.size = g.size) (hfuel : ns.length + 1 + g.unseen w ≤ fuel) :
    ∃ new, Visited g ns w (visit g fuel ns w) new := by
  induction fuel generalizing ns w with
  | zero => omega
  | succ fuel ih =>
      cases ns with
      | nil =>
          exact ⟨[], .done w, by simp [visit], rfl, by simp [visit], by simp, by simp, by simp, by simp, by simp, by simp,
            by simp⟩
      | cons n ns =>
          rw [List.length_cons] at hfuel
          unfold visit
          split
          · rename_i hn
            obtain ⟨new, hnew⟩ : ∃ new, Visited g ns w (visit g fuel ns w) new := ih hsize (by omega)
            exact ⟨new, hnew.skip hn⟩
          · rename_i hn
            rw [Bool.not_eq_true] at hn
            let marked : Walk := { w with seen := w.seen.setIfInBounds n true }
            have hless : g.unseen marked + ((g.succs n).length + 1) ≤ g.unseen w := unseen_mark hsize hn
            have hmarked : marked.seen.size = g.size := by simpa [marked] using hsize
            obtain ⟨new, hnew⟩ : ∃ new, Visited g (g.succs n) marked (visit g fuel (g.succs n) marked) new :=
              ih hmarked (by omega)
            generalize visit g fuel (g.succs n) marked = below at hnew
            let leaving : Walk := { below with left := below.left.push n }
            have hmore : g.unseen leaving ≤ g.unseen marked := unseen_le fun x hx => (hnew.seen x).2 (.inl hx)
            obtain ⟨new', hnew'⟩ : ∃ new, Visited g ns leaving (visit g fuel ns leaving) new :=
              ih (hnew.size.trans hmarked) (by omega)
            exact ⟨_, hnew.node hn hnew'⟩

/-! ## Postorder -/

theorem visited_postorder (g : Graph) (entry : Nat) :
    ∃ w, Visited g [entry] ⟨Array.replicate g.size false, #[]⟩ w (g.postorder entry) := by
  have hunseen : g.unseen ⟨Array.replicate g.size false, #[]⟩ = g.size + total (g.toList.map List.length) := by
    have hlengths : (List.range g.size).map (fun n => (g.succs n).length) = g.toList.map List.length := by
      refine List.ext_getElem (by simp) fun n h1 h2 => ?_
      have hlt : n < g.size := by simpa using h1
      simp [succs, hlt]
    have hall : (List.range g.size).map (fun n => if (Array.replicate g.size false).getD n true then 0
        else (g.succs n).length + 1) = (List.range g.size).map fun n => (g.succs n).length + 1 := by
      refine List.map_congr_left fun n hn => ?_
      simp [List.mem_range.1 hn]
    rw [unseen, hall, total_map_succ, List.length_range, hlengths]
  have hfuel : [entry].length + 1 + g.unseen ⟨Array.replicate g.size false, #[]⟩ ≤ g.walkFuel := by
    rw [hunseen, walkFuel, List.length_singleton]
    omega
  obtain ⟨new, hnew⟩ := visited_visit (by simp) hfuel
  have hleft : g.postorder entry = new := by
    rw [postorder, hnew.left]
    simp
  exact ⟨_, hleft ▸ hnew⟩

theorem nodup_postorder (g : Graph) (entry : Nat) : (g.postorder entry).Nodup := by
  obtain ⟨w, h⟩ := visited_postorder g entry
  exact h.nodup

theorem lt_of_mem_postorder (h : n ∈ g.postorder entry) : n < g.size := by
  obtain ⟨w, hw⟩ := visited_postorder g entry
  have hf := hw.fresh n h
  refine Nat.lt_of_not_le fun hge => ?_
  simp [Nat.not_lt.2 hge] at hf

theorem entry_mem_postorder (h : entry < g.size) : entry ∈ g.postorder entry := by
  obtain ⟨w, hw⟩ := visited_postorder g entry
  rcases (hw.seen entry).1 (hw.listed entry List.mem_cons_self) with hs | hs
  · simp [h] at hs
  · exact hs

theorem succ_mem_postorder (h : n ∈ g.postorder entry) (hs : s ∈ g.succs n) (hlt : s < g.size) : s ∈ g.postorder entry := by
  obtain ⟨w, hw⟩ := visited_postorder g entry
  rcases (hw.seen s).1 (hw.closed n h s hs) with hs | hs
  · simp [hlt] at hs
  · exact hs

theorem mem_postorder_iff (hentry : entry < g.size) (hsuccs : ∀ n, ∀ s ∈ g.succs n, s < g.size) :
    n ∈ g.postorder entry ↔ g.Reaches entry n := by
  obtain ⟨w, hw⟩ := visited_postorder g entry
  constructor
  · intro hn
    obtain ⟨m, hm, hmn⟩ := hw.reached n hn
    rwa [List.mem_singleton.1 hm] at hmn
  · intro hn
    induction hn with
    | refl => exact entry_mem_postorder hentry
    | tail _ hs ih => exact succ_mem_postorder ih hs (hsuccs _ _ hs)

theorem before_or_reaches {l l' : List Nat} (h : g.postorder entry = l ++ n :: l') (hs : s ∈ g.succs n) (hlt : s < g.size) :
    s ∈ l ∨ g.Reaches s n := by
  obtain ⟨w, hw⟩ := visited_postorder g entry
  refine (hw.ordered l n l' h s hs).resolve_left fun hseen => ?_
  simp [hlt] at hseen

theorem exists_pred_after (h : n ∈ g.postorder entry) (hne : n ≠ entry) :
    ∃ l l' q, g.postorder entry = l ++ n :: l' ∧ q ∈ l' ∧ n ∈ g.succs q := by
  obtain ⟨w, hw⟩ := visited_postorder g entry
  refine (hw.above n h).resolve_left fun hmem => hne ?_
  simpa using hmem

theorem postorder_eq_append (h : entry < g.size) : ∃ l, g.postorder entry = l ++ [entry] := by
  obtain ⟨l, n, hl⟩ := (List.eq_nil_or_concat (g.postorder entry)).resolve_left
    (List.ne_nil_of_mem (entry_mem_postorder h))
  rw [List.concat_eq_append] at hl
  by_cases hne : n = entry
  · exact ⟨l, hne ▸ hl⟩
  · obtain ⟨before, after, q, hsplit, hq, -⟩ := exists_pred_after (hl ▸ by simp : n ∈ g.postorder entry) hne
    obtain ⟨after, last, rfl⟩ := (List.eq_nil_or_concat after).resolve_left (List.ne_nil_of_mem hq)
    have hnodup := nodup_postorder g entry
    have hlast : last = n := by
      have he := hsplit.symm.trans hl
      rw [List.concat_eq_append, ← List.cons_append, ← List.append_assoc] at he
      simpa using (List.append_inj' he rfl).2
    rw [hsplit, hlast, List.nodup_append] at hnodup
    simp at hnodup

end Graph

end LinearScan
