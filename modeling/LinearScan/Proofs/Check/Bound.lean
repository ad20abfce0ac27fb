import LinearScan.Proofs.Check.Analysis
import LinearScan.Proofs.Routine
import LinearScan.Proofs.Total

/-!
# The analysis ends within its bound

A state that changes loses a location, learns what one holds, or loses one of the values that it lists
there. The weight of a state counts how often that can happen, and every visit lowers the weight of all
states and the length of the queue together.
-/

namespace LinearScan

/-! ## Contents -/

namespace Contents

variable {vals : List VirtReg} {c d : Contents}

/-- Everything that is listed is among the values. -/
def Within (vals : List VirtReg) (c : Contents) : Prop := ∀ vs, c = .known vs → vs ⊆ vals

def weight (vals : List VirtReg) : Contents → Nat
  | .unknown => vals.length + 2
  | .known vs => 1 + total (vals.map fun v => if v ∈ vs then 1 else 0)

theorem weight_known_le (vs : List VirtReg) : weight vals (.known vs) ≤ vals.length + 1 := by
  have hle : total (vals.map fun v => if v ∈ vs then 1 else 0) ≤ total (vals.map fun _ => 1) :=
    total_map_le fun v _ => by split <;> omega
  rw [total_map_const] at hle
  simp only [weight]
  omega

theorem weight_le (c : Contents) : c.weight vals ≤ vals.length + 2 := by
  cases c with
  | unknown => exact Nat.le_refl _
  | known vs => exact Nat.le_succ_of_le (weight_known_le vs)

theorem weight_pos (c : Contents) : 0 < c.weight vals := by
  cases c with
  | unknown => simp [weight]
  | known vs => simp only [weight]; omega

theorem sameAs_refl (c : Contents) : c.sameAs c = true := by
  cases c with
  | unknown => rfl
  | known vs => simp [sameAs]

theorem sameAs_comm (c d : Contents) : c.sameAs d = d.sameAs c := by
  cases c with
  | unknown => cases d <;> rfl
  | known vs =>
      cases d with
      | unknown => rfl
      | known ws => exact Bool.and_comm _ _

theorem indicator_meet_le (vs ws : List VirtReg) (v : VirtReg) :
    (if v ∈ vs.filter ws.contains then 1 else 0) ≤ if v ∈ ws then 1 else 0 := by
  by_cases hv : v ∈ ws
  · rw [if_pos hv]
    split <;> omega
  · rw [if_neg fun h => hv (by simpa using (List.mem_filter.1 h).2)]
    exact Nat.zero_le _

theorem weight_meet_le (c d : Contents) : (c.meet d).weight vals ≤ d.weight vals := by
  cases c with
  | unknown => exact Nat.le_refl _
  | known vs =>
      cases d with
      | unknown => exact weight_le _
      | known ws => exact Nat.add_le_add_left (total_map_le fun v _ => indicator_meet_le vs ws v) 1

theorem weight_meet_lt (hd : d.Within vals) (h : (c.meet d).sameAs d = false) :
    (c.meet d).weight vals < d.weight vals := by
  cases c with
  | unknown =>
      change d.sameAs d = false at h
      rw [sameAs_refl] at h
      cases h
  | known vs =>
      cases d with
      | unknown => exact Nat.lt_succ_of_le (weight_known_le vs)
      | known ws =>
          have hmissing : ¬ ∀ w ∈ ws, w ∈ vs := by
            intro hall
            have hsame : (meet (known vs) (known ws)).sameAs (known ws) = true := by
              simp only [meet, sameAs, Bool.and_eq_true, List.all_eq_true, List.contains_iff_mem, List.mem_filter]
              exact ⟨fun v hv => hv.2, fun w hw => ⟨hall w hw, hw⟩⟩
            rw [hsame] at h
            cases h
          obtain ⟨w, hw, hwv⟩ : ∃ w ∈ ws, w ∉ vs := by simpa using hmissing
          apply Nat.add_lt_add_left
          refine total_map_lt (fun v _ => indicator_meet_le vs ws v) (hd ws rfl hw) ?_
          simp [hw, hwv]

theorem Within.forget (h : c.Within vals) (v : VirtReg) : (c.forget v).Within vals := by
  cases c with
  | unknown => exact h
  | known vs =>
      intro us hus
      cases hus
      exact fun w hw => h vs rfl (List.mem_filter.1 hw).1

theorem Within.relabel (h : c.Within vals) {pairs : List (VirtReg × VirtReg)} (hp : ∀ q ∈ pairs, q.1 ∈ vals) :
    (c.relabel pairs).Within vals := by
  cases c with
  | unknown => exact h
  | known vs =>
      intro us hus w hw
      cases hus
      rcases List.mem_append.1 (List.mem_eraseDups.1 hw) with hkept | hadded
      · exact h vs rfl (List.mem_filter.1 hkept).1
      · obtain ⟨v, -, hq⟩ := List.mem_flatMap.1 hadded
        obtain ⟨q, hmem, rfl⟩ := List.mem_map.1 hq
        exact hp q (List.mem_filter.1 hmem).1

theorem Within.meet (hc : c.Within vals) (hd : d.Within vals) : (c.meet d).Within vals := by
  cases c with
  | unknown => exact hd
  | known vs =>
      cases d with
      | unknown => exact hc
      | known ws =>
          intro us hus
          cases hus
          exact fun w hw => hc vs rfl (List.mem_filter.1 hw).1

end Contents

/-! ## States -/

namespace CheckState

variable {locs : List Allocation} {vals : List VirtReg} {s t : CheckState} {a : Allocation} {c d : Contents}

/-- One entry for each location, and all of it known. -/
structure Tidy (locs : List Allocation) (vals : List VirtReg) (s : CheckState) : Prop where
  nodup : (s.entries.map Prod.fst).Nodup
  entry : ∀ e ∈ s.entries, e.1 ∈ locs ∧ e.2.Within vals

theorem Tidy.find?_eq (h : Tidy locs vals s) {e : Allocation × Contents} (he : e ∈ s.entries) :
    s.find? e.1 = some e.2 := by
  have hnd := h.nodup
  simp only [find?]
  generalize s.entries = es at he hnd
  induction es with
  | nil => cases he
  | cons x es ih =>
      simp only [List.map_cons, List.nodup_cons] at hnd
      cases he with
      | head => simp
      | tail _ he =>
          have hne : x.1 ≠ e.1 := fun heq => hnd.1 (heq ▸ List.mem_map_of_mem he)
          simp only [List.find?_cons, hne, decide_false]
          exact ih he hnd.2

theorem Tidy.of_find? (h : Tidy locs vals s) (ha : s.find? a = some c) : a ∈ locs ∧ c.Within vals :=
  h.entry _ (mem_of_find? s ha)

theorem tidy_unreached : Tidy locs vals unreached := ⟨List.nodup_nil, by simp [unreached]⟩

theorem tidy_blank : Tidy locs vals blank := ⟨List.nodup_nil, by simp [blank]⟩

theorem Tidy.setTop (h : Tidy locs vals s) (b : Bool) : Tidy locs vals { s with top := b } :=
  ⟨h.nodup, h.entry⟩

theorem Tidy.erase (h : Tidy locs vals s) (a : Allocation) : Tidy locs vals (s.erase a) where
  nodup := (List.filter_sublist.map _).nodup h.nodup
  entry e he := h.entry e (List.mem_filter.1 he).1

theorem Tidy.put (h : Tidy locs vals s) (ha : a ∈ locs) (hc : c.Within vals) : Tidy locs vals (s.put a c) where
  nodup := by
    simp only [CheckState.put, List.map_append, List.map_cons, List.map_nil]
    refine List.nodup_append.2 ⟨(h.erase a).nodup, by simp, ?_⟩
    intro x hx y hy
    obtain ⟨e, he, rfl⟩ := List.mem_map.1 hx
    rw [List.mem_singleton.1 hy]
    simpa using (List.mem_filter.1 he).2
  entry e he := by
    rcases List.mem_append.1 he with he | he
    · exact (h.erase a).entry e he
    · rw [List.mem_singleton.1 he]
      exact ⟨ha, hc⟩

theorem Tidy.mapContents (h : Tidy locs vals s) {g : Allocation → Contents → Contents}
    (hg : ∀ a c, c.Within vals → (g a c).Within vals) : Tidy locs vals (s.mapContents g) where
  nodup := by
    have hkeys : (s.mapContents g).entries.map Prod.fst = s.entries.map Prod.fst := by
      simp [CheckState.mapContents, List.map_map, Function.comp_def]
    rw [hkeys]
    exact h.nodup
  entry e he := by
    obtain ⟨x, hx, rfl⟩ := List.mem_map.1 he
    exact ⟨(h.entry x hx).1, hg _ _ (h.entry x hx).2⟩

theorem Tidy.define (h : Tidy locs vals s) {v : VirtReg} (ha : a ∈ locs) (hv : v ∈ vals) :
    Tidy locs vals (s.define v a) := by
  refine (h.mapContents fun b c hc => ?_).put ha fun vs hvs => ?_
  · split
    · exact hc
    · exact hc.forget v
  · cases hvs
    simpa using hv

theorem Tidy.get (h : Tidy locs vals s) (a : Allocation) : (s.get a).Within vals := by
  simp only [CheckState.get]
  cases hf : s.find? a with
  | none => exact fun vs hvs => by cases hvs
  | some c => exact (h.of_find? hf).2

/-- What a step writes is among the locations, and what it makes known among the values. -/
def StepWithin (locs : List Allocation) (vals : List VirtReg) : CheckStep → Prop
  | .move _ dest => dest ∈ locs
  | .params pairs => ∀ q ∈ pairs, q.1 ∈ vals
  | .instr _ operands allocs _ => (∀ a ∈ allocs, a ∈ locs) ∧ ∀ op ∈ operands, op.vreg ∈ vals

theorem Tidy.after (h : Tidy locs vals s) {step : CheckStep} (hstep : StepWithin locs vals step) :
    Tidy locs vals (s.after step) := by
  cases step with
  | move source dest => exact (h.setTop false).put hstep (h.get source)
  | params pairs => exact (h.setTop false).mapContents fun _ _ hc => hc.relabel hstep
  | instr i operands allocs clobbers =>
      refine List.foldlRecOn _ _ (List.foldlRecOn _ _ (h.setTop false) fun _ hs _ _ => hs.erase _) fun _ hs w hw => ?_
      have hzip := List.of_mem_zip (List.mem_filter.1 hw).1
      exact hs.define (hstep.1 _ hzip.2) (hstep.2 _ hzip.1)

theorem Tidy.afterAll (h : Tidy locs vals s) {steps : List CheckStep}
    (hsteps : ∀ step ∈ steps, StepWithin locs vals step) : Tidy locs vals (s.afterAll steps) := by
  induction steps generalizing s with
  | nil => exact h
  | cons step steps ih => exact ih (h.after (hsteps step (by simp))) fun x hx => hsteps x (by simp [hx])

theorem Tidy.meet (hs : Tidy locs vals s) (ht : Tidy locs vals t) : Tidy locs vals (s.meet t) := by
  unfold CheckState.meet
  split
  · exact ht
  · split
    · exact hs
    · refine ⟨List.Sublist.nodup ?_ hs.nodup, fun e he => ?_⟩
      · generalize s.entries = es
        induction es with
        | nil => simp
        | cons x es ih =>
            simp only [List.filterMap_cons]
            cases t.find? x.1 with
            | none => exact ih.cons _
            | some d => exact ih.cons_cons _
      · obtain ⟨x, hx, he⟩ := List.mem_filterMap.1 he
        obtain ⟨d, hd, rfl⟩ := Option.map_eq_some_iff.1 he
        exact ⟨(hs.entry x hx).1, (hs.entry x hx).2.meet (ht.of_find? hd).2⟩

/-! ## Weights -/

def weightAt (vals : List VirtReg) (s : CheckState) (a : Allocation) : Nat :=
  ((s.find? a).map (Contents.weight vals)).getD 0

/-- How often the state can change. -/
def weight (locs : List Allocation) (vals : List VirtReg) (s : CheckState) : Nat :=
  if s.top then 1 + locs.length * (vals.length + 2) else total (locs.map (weightAt vals s))

theorem weightAt_le (vals : List VirtReg) (s : CheckState) (a : Allocation) : weightAt vals s a ≤ vals.length + 2 := by
  unfold weightAt
  cases s.find? a with
  | none => exact Nat.zero_le _
  | some c => exact Contents.weight_le c

theorem weight_reached_lt (hs : s.top = false) : s.weight locs vals < 1 + locs.length * (vals.length + 2) := by
  have hle := total_map_le (l := locs) fun a _ => weightAt_le vals s a
  rw [total_map_const] at hle
  simp only [weight, hs, Bool.false_eq_true, ↓reduceIte]
  omega

theorem weight_le (s : CheckState) : s.weight locs vals ≤ 1 + locs.length * (vals.length + 2) := by
  cases hs : s.top with
  | true => simp [weight, hs]
  | false => exact Nat.le_of_lt (weight_reached_lt hs)

theorem Tidy.sameAs_self (h : Tidy locs vals s) : s.sameAs s = true := by
  have hlisted : s.listedIn s = true := by
    simp only [listedIn, List.all_eq_true]
    intro e he
    rw [h.find?_eq he]
    exact Contents.sameAs_refl e.2
  simp [sameAs, hlisted]

theorem weightAt_meet_le (hs : s.top = false) (ht : t.top = false) (a : Allocation) :
    weightAt vals (s.meet t) a ≤ weightAt vals t a := by
  unfold weightAt
  rw [find?_meet s t hs ht]
  cases s.find? a with
  | none => exact Nat.zero_le _
  | some c =>
      cases t.find? a with
      | none => exact Nat.le_refl _
      | some d => exact Contents.weight_meet_le c d

theorem Tidy.exists_changed (hs : Tidy locs vals s) (ht : Tidy locs vals t) (hst : s.top = false)
    (htt : t.top = false) (h : (s.meet t).sameAs t = false) :
    ∃ a d, t.find? a = some d ∧ ∀ e, (s.meet t).find? a = some e → e.sameAs d = false := by
  have htop : (s.meet t).top = false := by simp [CheckState.meet, hst, htt]
  have hfails : (s.meet t).listedIn t = false ∨ t.listedIn (s.meet t) = false := by
    simp only [sameAs, htop, htt, beq_self_eq_true, Bool.true_and] at h
    exact Bool.and_eq_false_iff.1 h
  rcases hfails with hl | hl
  · simp only [listedIn, List.all_eq_false] at hl
    obtain ⟨e, he, hne⟩ := hl
    have hfind := (hs.meet ht).find?_eq he
    obtain ⟨d, hd⟩ : ∃ d, t.find? e.1 = some d := by
      rw [find?_meet s t hst htt] at hfind
      obtain ⟨c, -, hfind⟩ := Option.bind_eq_some_iff.1 hfind
      obtain ⟨d, hd, -⟩ := Option.map_eq_some_iff.1 hfind
      exact ⟨d, hd⟩
    refine ⟨e.1, d, hd, fun c hc => ?_⟩
    cases Option.some.inj (hfind.symm.trans hc)
    simpa [hd] using hne
  · simp only [listedIn, List.all_eq_false] at hl
    obtain ⟨e, he, hne⟩ := hl
    refine ⟨e.1, e.2, ht.find?_eq he, fun c hc => ?_⟩
    rw [Contents.sameAs_comm]
    simpa [hc] using hne

theorem Tidy.weight_meet_lt (hs : Tidy locs vals s) (ht : Tidy locs vals t) (h : (s.meet t).sameAs t = false) :
    (s.meet t).weight locs vals < t.weight locs vals := by
  cases hst : s.top with
  | true =>
      have hmeet : s.meet t = t := by simp [CheckState.meet, hst]
      rw [hmeet, ht.sameAs_self] at h
      cases h
  | false =>
      cases htt : t.top with
      | true =>
          have hmeet : s.meet t = s := by simp [CheckState.meet, hst, htt]
          rw [hmeet]
          have hlt : s.weight locs vals < 1 + locs.length * (vals.length + 2) := weight_reached_lt hst
          simpa [weight, htt] using hlt
      | false =>
          have htop : (s.meet t).top = false := by simp [CheckState.meet, hst, htt]
          obtain ⟨a, d, hd, hne⟩ := hs.exists_changed ht hst htt h
          simp only [weight, htop, htt, Bool.false_eq_true, ↓reduceIte]
          refine total_map_lt (fun b _ => weightAt_meet_le hst htt b) (ht.of_find? hd).1 ?_
          cases he : (s.meet t).find? a with
          | none => simpa [weightAt, he, hd] using Contents.weight_pos d
          | some e =>
              have hfind := he
              rw [find?_meet s t hst htt] at hfind
              obtain ⟨c, -, hfind⟩ := Option.bind_eq_some_iff.1 hfind
              rw [hd] at hfind
              cases hfind
              simpa [weightAt, he, hd] using Contents.weight_meet_lt (ht.of_find? hd).2 (hne _ he)

end CheckState

/-! ## Searches -/

namespace Output

variable {f : Routine} {out : Output} {b : Nat} {search : CheckSearch}

/-- The locations that the allocated code writes. -/
def writtenPlaces (out : Output) : List Allocation := out.allocs.toList.flatten ++ out.edits.toList.map Edit.dest

/-- The values that the allocated code can make known. -/
def namedValues (f : Routine) : List VirtReg :=
  (f.instrs.toList.map fun i => i.operands.map Operand.vreg).flatten ++ (f.blocks.toList.map Block.params).flatten

theorem checkBound_eq : checkBound f out =
    1 + f.numBlocks * (1 + out.writtenPlaces.length * ((namedValues f).length + 2)) := by
  have hops : total (f.instrs.toList.map fun i => i.operands.length) =
      (f.instrs.toList.map fun i => i.operands.map Operand.vreg).flatten.length := by
    rw [← total_map_length, List.map_map]
    congr 2
    funext i
    simp
  have hparams : total (f.blocks.toList.map fun b => b.params.length) =
      (f.blocks.toList.map Block.params).flatten.length := by
    rw [← total_map_length, List.map_map]
    rfl
  simp only [checkBound, writtenPlaces, namedValues, hops, hparams, total_map_length, List.length_append,
    List.length_map, Array.length_toList]

theorem operand_named {i : Nat} {op : Operand} (h : op ∈ f.operands i) : op.vreg ∈ namedValues f := by
  have hi : i < f.instrs.size := by
    refine Nat.lt_of_not_le fun hge => ?_
    rw [Routine.operands_of_ge hge] at h
    cases h
  have hmem : f.instr i ∈ f.instrs.toList := by
    simp only [Routine.instr, Array.getD, hi, ↓reduceDIte]
    exact Array.mem_toList_iff.2 (Array.getElem_mem hi)
  refine List.mem_append_left _ (List.mem_flatten.2 ⟨_, List.mem_map_of_mem hmem, ?_⟩)
  exact List.mem_map_of_mem h

theorem param_named {v : VirtReg} (h : v ∈ f.params b) : v ∈ namedValues f := by
  have hb : b < f.blocks.size := by
    refine Nat.lt_of_not_le fun hge => ?_
    rw [Routine.params, Routine.block_of_ge hge] at h
    cases h
  have hmem : f.block b ∈ f.blocks.toList := by
    simp only [Routine.block, Array.getD, hb, ↓reduceDIte]
    exact Array.mem_toList_iff.2 (Array.getElem_mem hb)
  exact List.mem_append_right _ (List.mem_flatten.2 ⟨_, List.mem_map_of_mem hmem, h⟩)

theorem alloc_written {i : Nat} {a : Allocation} (h : a ∈ out.instrAllocs i) : a ∈ out.writtenPlaces := by
  refine List.mem_append_left _ (List.mem_flatten.2 ⟨_, ?_, h⟩)
  unfold instrAllocs at h ⊢
  by_cases hi : i < out.allocs.size
  · simp only [Array.getD, hi, ↓reduceDIte]
    exact Array.mem_toList_iff.2 (Array.getElem_mem hi)
  · simp [Array.getD, hi] at h

theorem mem_interleave {e : Edit} {is : List Nat} {edits : List Edit} (h : .edit e ∈ interleave is edits) :
    e ∈ edits := by
  induction is generalizing edits with
  | nil => cases h
  | cons i is ih =>
      rcases List.mem_append.1 h with h | h
      · obtain ⟨x, hx, heq⟩ := List.mem_map.1 h
        cases heq
        exact (List.takeWhile_sublist _).subset hx
      · cases h with
        | tail _ h => exact (List.dropWhile_sublist _).subset (ih h)

variable (f out) in
theorem steps_within (b : Nat) : ∀ step ∈ out.steps f b,
    CheckState.StepWithin out.writtenPlaces (namedValues f) step := by
  intro step hstep
  obtain ⟨item, hitem, rfl⟩ := List.mem_map.1 hstep
  cases item with
  | instr i => exact ⟨fun a ha => alloc_written ha, fun op hop => operand_named hop⟩
  | edit e =>
      have he : e ∈ out.edits.toList := List.mem_of_mem_drop (mem_interleave hitem)
      exact List.mem_append_right _ (List.mem_map_of_mem he)

variable (f out) in
theorem edgeSteps_within (b t : Nat) : ∀ step ∈ edgeSteps f b t,
    CheckState.StepWithin out.writtenPlaces (namedValues f) step := by
  intro step hstep
  obtain ⟨i, -, hstep⟩ := List.mem_flatMap.1 hstep
  obtain ⟨⟨u, k⟩, -, hstep⟩ := List.mem_filterMap.1 hstep
  dsimp only at hstep
  split at hstep
  · cases hstep
    exact fun q hq => param_named (List.of_mem_zip hq).1
  · cases hstep

/-- How many visits a search can still take. -/
def CheckSearch.weight (f : Routine) (out : Output) (search : CheckSearch) : Nat :=
  search.queue.length + total (search.states.toList.map (CheckState.weight out.writtenPlaces (namedValues f)))

def CheckSearch.AllTidy (f : Routine) (out : Output) (search : CheckSearch) : Prop :=
  ∀ b, CheckState.Tidy out.writtenPlaces (namedValues f) (search.stateAt b)

theorem total_set {ss : List CheckState} {new : CheckState} {w : CheckState → Nat} (hb : b < ss.length)
    (hlt : w new < w (ss.getD b .unreached)) : total ((ss.set b new).map w) + 1 ≤ total (ss.map w) := by
  induction ss generalizing b with
  | nil => simp at hb
  | cons s ss ih =>
      cases b with
      | zero =>
          simp only [List.getD_cons_zero] at hlt
          simp only [List.set_cons_zero, List.map_cons, total_cons]
          omega
      | succ b =>
          have := ih (by simpa using hb) (by simpa using hlt)
          simp only [List.set_cons_succ, List.map_cons, total_cons]
          omega

theorem tellSucc_weight {state : CheckState} {s : Nat} (h : search.AllTidy f out)
    (hstate : state.Tidy out.writtenPlaces (namedValues f)) (hs : s < search.states.size) (changed : List Nat) :
    (tellSucc f b state (search, changed) s).1.AllTidy f out ∧
      (tellSucc f b state (search, changed) s).1.states.size = search.states.size ∧
      (tellSucc f b state (search, changed) s).1.weight f out ≤ search.weight f out := by
  have htold := hstate.afterAll (edgeSteps_within f out b s)
  have hnew := htold.meet (h s)
  by_cases hsame : ((state.afterAll (edgeSteps f b s)).meet (search.stateAt s)).sameAs (search.stateAt s) = true
  · rw [tellSucc_of_same hsame]
    exact ⟨h, rfl, Nat.le_refl _⟩
  · rw [tellSucc_of_changed hsame]
    refine ⟨fun t => ?_, by simp, ?_⟩
    · rw [stateAt_set]
      split
      · exact hnew
      · exact h t
    · have hlt := htold.weight_meet_lt (h s) (Bool.eq_false_iff.2 hsame)
      have hgetD : search.stateAt s = search.states.toList.getD s .unreached := by
        simp [CheckSearch.stateAt, Array.getD_eq_getD_getElem?, List.getD_eq_getElem?_getD]
      rw [hgetD] at hlt
      have hset := total_set (by simpa using hs) hlt
      rw [← hgetD] at hset
      simp only [CheckSearch.weight, Array.toList_setIfInBounds]
      split
      · omega
      · rw [List.length_append, List.length_singleton]
        omega

theorem foldl_tellSucc_weight {state : CheckState} {ss : List Nat} (h : search.AllTidy f out)
    (hstate : state.Tidy out.writtenPlaces (namedValues f)) (hs : ∀ s ∈ ss, s < search.states.size)
    (changed : List Nat) :
    (ss.foldl (tellSucc f b state) (search, changed)).1.AllTidy f out ∧
      (ss.foldl (tellSucc f b state) (search, changed)).1.states.size = search.states.size ∧
      (ss.foldl (tellSucc f b state) (search, changed)).1.weight f out ≤ search.weight f out := by
  refine List.foldlRecOn (motive := fun acc : CheckSearch × List Nat => acc.1.AllTidy f out ∧
    acc.1.states.size = search.states.size ∧ acc.1.weight f out ≤ search.weight f out) ss _ ⟨h, rfl, Nat.le_refl _⟩ ?_
  rintro ⟨search', changed'⟩ ⟨h1, hsize, hle⟩ s hmem
  obtain ⟨h2, hsize2, hle2⟩ := tellSucc_weight (b := b) h1 hstate (hsize ▸ hs s hmem) changed'
  exact ⟨h2, hsize2.trans hsize, Nat.le_trans hle2 hle⟩

theorem visitCheck_weight {rest : List Nat} (hsuccs : ∀ b, ∀ s ∈ f.succs b, s < f.numBlocks)
    (hsize : search.states.size = f.numBlocks) (h : search.AllTidy f out) (hq : search.queue = b :: rest) :
    (visitCheck f out search b rest).AllTidy f out ∧ (visitCheck f out search b rest).states.size = f.numBlocks ∧
      (visitCheck f out search b rest).weight f out + 1 ≤ search.weight f out := by
  have hstate := (h b).afterAll (steps_within f out b)
  have hrest : CheckSearch.AllTidy f out { search with queue := rest } := h
  obtain ⟨h1, hsize1, hle⟩ := foldl_tellSucc_weight (b := b) hrest hstate (fun s hs => hsize ▸ hsuccs b s hs) []
  refine ⟨h1, hsize1.trans hsize, ?_⟩
  have hpop : CheckSearch.weight f out { search with queue := rest } + 1 = search.weight f out := by
    simp only [CheckSearch.weight, hq, List.length_cons]
    omega
  exact Nat.le_trans (Nat.succ_le_succ hle) (Nat.le_of_eq hpop)

theorem settleCheck_some (hsuccs : ∀ b, ∀ s ∈ f.succs b, s < f.numBlocks) {n : Nat}
    (hsize : search.states.size = f.numBlocks) (h : search.AllTidy f out) (hn : search.weight f out ≤ n) :
    ∃ t, settleCheck f out n search = some t := by
  induction n generalizing search with
  | zero =>
      have hq : search.queue = [] := by
        apply List.eq_nil_of_length_eq_zero
        simp only [CheckSearch.weight] at hn
        omega
      exact ⟨search, by simp [settleCheck, hq]⟩
  | succ n ih =>
      cases hq : search.queue with
      | nil => exact ⟨search, by simp [settleCheck, hq]⟩
      | cons b rest =>
          obtain ⟨h1, hsize1, hle⟩ := visitCheck_weight hsuccs hsize h hq
          obtain ⟨t, ht⟩ := ih hsize1 h1 (by omega)
          exact ⟨t, by simp only [settleCheck, hq]; exact ht⟩

theorem exists_analyse (hsuccs : ∀ b, ∀ s ∈ f.succs b, s < f.numBlocks) : ∃ search, analyse f out = some search := by
  have hsize : (firstSearch f).states.size = f.numBlocks := by simp [firstSearch]
  have htidy : (firstSearch f).AllTidy f out := by
    intro b
    rw [stateAt_firstSearch]
    split
    · exact CheckState.tidy_blank
    · exact CheckState.tidy_unreached
  have hweight : (firstSearch f).weight f out ≤ checkBound f out := by
    have hle : total ((firstSearch f).states.toList.map (CheckState.weight out.writtenPlaces (namedValues f))) ≤
        total ((firstSearch f).states.toList.map fun _ => 1 + out.writtenPlaces.length * ((namedValues f).length + 2)) :=
      total_map_le fun s _ => CheckState.weight_le s
    rw [total_map_const, Array.length_toList, hsize] at hle
    rw [checkBound_eq]
    exact Nat.add_le_add_left hle 1
  exact settleCheck_some hsuccs hsize htidy hweight

end Output

end LinearScan
