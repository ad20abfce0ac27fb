import LinearScan.Proofs.Frame.Blocks
import LinearScan.Proofs.Operands

/-!
# Stack slots of a result

Every stack slot that a result names has been asked of the frame, with the size of the class whose value is in it.
Spare slots are named by edits only.
-/

namespace LinearScan

open LiveRange Run

/-! ## Sizes of shared slots -/

namespace SharedSlot

variable {slots slots' : Array SharedSlot} {size k : Nat} {rs : List LiveRange}

theorem size_of_find? (h : find? slots size rs = some k) : ∃ s, slots[k]? = some s ∧ s.size = size := by
  have hable := List.mem_of_mem_take (List.mem_of_find?_eq_some h)
  simp only [List.mem_reverse, List.mem_filter, Option.any_eq_true, beq_iff_eq] at hable
  obtain ⟨s, hs, hsize⟩ := hable.2
  exact ⟨s, hs, hsize⟩

theorem sizes_place (h : place slots size rs = .ok (k, slots')) :
    slots'[k]?.map SharedSlot.size = some size ∧
      ∀ (j s : Nat), slots[j]?.map SharedSlot.size = some s → slots'[j]?.map SharedSlot.size = some s := by
  unfold place at h
  cases hf : find? slots size rs with
  | some k' =>
      obtain ⟨s, hs, hsize⟩ := size_of_find? hf
      rw [hf] at h
      obtain ⟨ranges, -, h⟩ := Except.bind_ok h
      cases h
      have hlt := (Array.getElem?_eq_some_iff.1 hs).1
      have hset : ∀ j : Nat, (slots.setIfInBounds k { slots.getD k ⟨.empty, size⟩ with ranges := ranges })[j]?.map
          SharedSlot.size = slots[j]?.map SharedSlot.size := by
        intro j
        rw [Array.getElem?_setIfInBounds]
        split
        · rename_i hj
          subst hj
          simp [hlt]
        · rfl
      refine ⟨?_, fun j n hj => ?_⟩
      · rw [hset, hs, Option.map_some, hsize]
      · rw [hset, hj]
  | none =>
      rw [hf] at h
      obtain ⟨ranges, -, h⟩ := Except.bind_ok h
      cases h
      refine ⟨by simp, fun j n hj => ?_⟩
      have hlt : j < slots.size := by
        rcases Nat.lt_or_ge j slots.size with hlt | hge
        · exact hlt
        · simp [Array.getElem?_eq_none hge] at hj
      rw [Array.getElem?_setIfInBounds_ne (Nat.ne_of_gt hlt), Array.getElem?_push, if_neg (Nat.ne_of_lt hlt)]
      exact hj

end SharedSlot

/-! ## Slots of values -/

namespace Assignment

variable {p : Problem} {a : Assignment} {needed : Array (List LiveRange)} {slots : Array SharedSlot}
  {choice : Array (Option Nat)} {trs : List Transfer} {slot : Nat → SpillSlot} {frame : Frame}

theorem sized_of_chooseSlots (h : Returns (chooseSlots p needed) (slots, choice)) (v k : Nat)
    (hk : choice[v]? = some (some k)) :
    slots[k]?.map SharedSlot.size = some (p.routine.slotSizes.get (p.value v).cls) := by
  have hinv := h.foldlM_range (I := fun n (s : Array SharedSlot × Array (Option Nat)) => s.2.size = n ∧
    ∀ v k, s.2[v]? = some (some k) →
      s.1[k]?.map SharedSlot.size = some (p.routine.slotSizes.get (p.value v).cls))
    (fun n s s' _ hs hr => ?_) ⟨rfl, by simp⟩
  · exact hinv.2 v k hk
  · obtain ⟨slots, choice⟩ := s
    obtain ⟨hsize, hs⟩ := hs
    dsimp only at hsize hs hr
    split at hr
    · obtain rfl := hr.of_pure
      refine ⟨by simp [hsize], fun v k hk => ?_⟩
      rcases getElem?_push_cases hk with hk | ⟨-, hk⟩
      · exact hs v k hk
      · cases hk
    · obtain ⟨_, -, hr⟩ := hr.bind
      obtain ⟨⟨k', slots'⟩, hplace, hr⟩ := hr.bind
      obtain ⟨_, -, hr⟩ := hr.bind
      obtain rfl := hr.of_pure
      obtain ⟨hnew, hold⟩ := SharedSlot.sizes_place hplace.of_sound
      refine ⟨by simp [hsize], fun v k hk => ?_⟩
      rcases getElem?_push_cases hk with hk | ⟨hv, hk⟩
      · exact hold k _ (hs v k hk)
      · cases hk
        rw [hv, hsize]
        exact hnew

theorem served_assignSlots {m : Nat} (h : Returns (a.assignSlots p trs) (a.inSlots slot, frame, m)) :
    ∃ calls, Frame.Served p.routine calls frame ∧ ∀ iv ∈ a.intervals, iv.spilled = true →
      (.value (p.routine.slotSizes.get (p.value iv.vreg.num).cls), slot iv.vreg.num) ∈ calls := by
  obtain ⟨⟨slots, choice⟩, hchoose, h⟩ := h.bind
  obtain ⟨⟨taken, frame'⟩, hlay, h⟩ := h.bind
  obtain ⟨_, -, h⟩ := h.bind
  have hpure := h.of_pure
  have hsettle : a.settle choice taken = a.inSlots slot := congrArg Prod.fst hpure
  obtain rfl : frame' = frame := congrArg (·.2.1) hpure
  obtain ⟨calls, hserved, hcalls⟩ := served_layOutSlots hlay.of_sound
  refine ⟨calls, hserved, fun iv hiv hsp => ?_⟩
  -- a spilled interval is where its value has been put
  have hplace : (choice.getD iv.vreg.num none).bind (taken[·]?) = some (slot iv.vreg.num) := by
    obtain ⟨id, hid⟩ := Array.mem_iff_getElem?.1 hiv
    have halloc := congrArg (fun b : Assignment => b.intervals[id]?.map Interval.alloc) hsettle
    simp only [settle, inSlots, Array.getElem?_map, hid, Option.map_some, hsp, ↓reduceIte] at halloc
    generalize (choice.getD iv.vreg.num none).bind (taken[·]?) = o at halloc ⊢
    cases o with
    | none => simp at halloc
    | some s => simpa using halloc
  obtain ⟨k, hk, hslot⟩ := Option.bind_eq_some_iff.1 hplace
  have hchoice : choice[iv.vreg.num]? = some (some k) := by
    rw [Array.getD_eq_getD_getElem?] at hk
    cases hc : choice[iv.vreg.num]? with
    | none => simp [hc] at hk
    | some o =>
        simp only [hc, Option.getD_some] at hk
        rw [hk]
  obtain ⟨s, hs, hsize⟩ := Option.map_eq_some_iff.1 (sized_of_chooseSlots hchoose _ k hchoice)
  rw [← hsize]
  exact hcalls k s _ (by rw [Array.getElem?_toList, hs]) hslot

end Assignment

/-! ## Slots of moves -/

/-- The move reads or writes the slot. -/
def Move.Names {τ : Type} (m : Move τ) (s : SpillSlot) : Prop := m.source = .stack s ∨ m.dest = .stack s

/-! ## Slots of edits -/

/-- The edit reads or writes the slot. -/
def Edit.Names (e : Edit) (s : SpillSlot) : Prop := e.source = .stack s ∨ e.dest = .stack s

namespace Assignment

variable {p : Problem} {a : Assignment} {pos : Nat} {c : RegClass} {calls : List (Frame.Request × SpillSlot)}
  {moves group : List (Move VirtReg)} {e e' : Emission}

/-- The frame has answered the requests, and the edits name spare slots among the answers and slots of moves of their
classes. -/
structure Backed (f : Routine) (calls : List (Frame.Request × SpillSlot)) (moves : List (Move VirtReg)) (e : Emission) :
    Prop where
  served : Frame.Served f calls e.frame
  edits : ∀ x ∈ e.edits.toList, ∀ s, x.Names s →
    (∃ n, (.spare x.cls n, s) ∈ calls) ∨ ∃ m ∈ moves, m.tag.cls = x.cls ∧ m.Names s

theorem backed_emitGroup (hreal : Move.Avoids group .none) (hgroup : ∀ m ∈ group, m ∈ moves ∧ m.tag.cls = c)
    (hb : Backed p.routine calls moves e) (h : Returns (a.emitGroup p pos c group e) e') :
    ∃ more, Backed p.routine (calls ++ more) moves e' := by
  obtain ⟨seq, ms, result, spares, frame, hseq, hfill, hrouted, hspares, rfl⟩ := routed_of_emitGroup h
  obtain ⟨-, hord⟩ := Move.ordered_of_sequentialize hreal hseq
  obtain ⟨more, hserved, hmore⟩ := hb.served.spares hrouted.spares_sorted hspares
  refine ⟨more, hserved, fun x hx s hs => ?_⟩
  simp only [Array.toList_append, List.mem_append, List.mem_map] at hx
  rcases hx with hx | ⟨m, hm, rfl⟩
  · refine (hb.edits x hx s hs).imp_left ?_
    rintro ⟨n, hn⟩
    exact ⟨n, List.mem_append_left _ hn⟩
  · rcases hrouted.touches hord hreal hfill hm hs with ⟨r, -, heq⟩ | ⟨n, hn, heq⟩ | ⟨g, hg, hnames⟩
    · cases heq
    · exact .inl ⟨n, List.mem_append_right _ (hmore n s hn heq.symm)⟩
    · exact .inr ⟨g, (hgroup g hg).1, (hgroup g hg).2, hnames⟩

theorem backed_emitMoves {trs : List Transfer} {frame : Frame}
    (hreal : Move.Avoids (trs.map fun tr => (a.locate tr).move) .none) (hserved : Frame.Served p.routine calls frame)
    (h : Returns (a.emitMoves p trs frame) e) :
    ∃ more, Backed p.routine (calls ++ more) (trs.map fun tr => (a.locate tr).move) e := by
  refine emitMoves_induct (I := fun e => ∃ more, Backed p.routine (calls ++ more) _ e) ⟨[], by simpa using hserved, by simp⟩
    (fun pos c group e e' hgroup hb hr => ?_) h
  obtain ⟨more, hb⟩ := hb
  obtain ⟨more', hb'⟩ := backed_emitGroup (fun m hm => hreal m (hgroup m hm).1) hgroup hb hr
  exact ⟨more ++ more', by rwa [← List.append_assoc]⟩

end Assignment

namespace Problem.Layout

variable {p : Problem} {out : Output} {S : Layout p out} {tr : Transfer} {x : Placement} {s : SpillSlot} {v q id : Nat}
  {A : Allocation}

theorem spilled_of_stack (S : Layout p out) (hx : x ∈ out.locations) (hs : x.alloc = .stack s) :
    ∃ iv ∈ S.a.intervals, iv.spilled = true ∧ x.vreg = p.value iv.vreg.num ∧ s = S.slot iv.vreg.num := by
  obtain ⟨id, iv, hid, -, hvreg, halloc⟩ := S.finished.mem_locations hx
  have hvreg' := (S.allocated.vreg_eq hid).1
  rw [halloc, finalAlloc] at hs
  rcases S.allocated.alloc_cases hid with ⟨hsp, -⟩ | ⟨hsp, r, hr, -⟩
  · rw [if_pos hsp] at hs
    cases hs
    exact ⟨iv, Array.mem_of_getElem? hid, hsp, hvreg.trans hvreg', rfl⟩
  · simp [hsp, hr] at hs

theorem Keeps.exists_record (h : S.Keeps id v q A) : ∃ x ∈ out.locations, x.vreg = p.value v ∧ x.alloc = A := by
  obtain ⟨x, hx, rfl, -, halloc⟩ := at_iff_placement.1 ⟨id, h⟩
  exact ⟨x, hx, S.vreg_of_mem hx, halloc⟩

theorem locate_real (htr : tr ∈ p.transfers S.a) :
    ((S.a.inSlots S.slot).locate tr).move.source ≠ .none ∧ ((S.a.inSlots S.slot).locate tr).move.dest ≠ .none := by
  cases carries_of_mem htr with
  | split _ _ _ hA hB => exact ⟨hA.at_allocOf.ne_none, hB.at_allocOf.ne_none⟩
  | edge _ _ hA hB => exact ⟨hA.at_allocOf.ne_none, hB.at_allocOf.ne_none⟩
  | copy _ hA => exact ⟨hA.at_allocOf.ne_none, by simp [Assignment.locate, Assignment.destOf]⟩

/-- A slot that a transfer goes from or to is recorded for a value, which has the class of the transfer if classes
agree throughout. -/
theorem record_of_transfer (htr : tr ∈ p.transfers S.a) (hs : ((S.a.inSlots S.slot).locate tr).move.Names s) :
    ∃ x ∈ out.locations, x.alloc = .stack s ∧ (p.routine.Coherent → x.vreg.cls = tr.vreg.cls) := by
  have hrecord : ∀ {y v q : Nat} {A : Allocation}, S.Keeps y v q A → (S.a.inSlots S.slot).allocOf y = .stack s →
      (p.routine.Coherent → (p.value v).cls? = tr.vreg.cls?) →
      ∃ x ∈ out.locations, x.alloc = .stack s ∧ (p.routine.Coherent → x.vreg.cls = tr.vreg.cls) := by
    intro y v q A hkeeps halloc hcls
    obtain ⟨x, hx, hvreg, hA⟩ := hkeeps.exists_record
    rw [hkeeps.allocOf] at halloc
    refine ⟨x, hx, hA.trans halloc, fun hr => ?_⟩
    rw [hvreg, VirtReg.cls, VirtReg.cls, hcls hr]
  cases carries_of_mem htr with
  | split _ _ _ hA hB =>
      rcases hs with hs | hs
      · exact hrecord hA hs fun _ => rfl
      · exact hrecord hB hs fun _ => rfl
  | edge _ hpair hA hB =>
      rcases hs with hs | hs
      · refine hrecord hA hs fun hr => ?_
        obtain ⟨hsrc, -, hcls⟩ := edgeValues_spec S.posed hr hpair
        rw [hsrc, hcls]
      · refine hrecord hB hs fun hr => ?_
        rw [(edgeValues_spec S.posed hr hpair).2.1]
  | copy hc hA =>
      rcases hs with hs | hs
      · refine hrecord hA hs fun hr => ?_
        obtain ⟨b, hb, hi, op, hop, -, hvreg, -⟩ := copy_spec hc
        rw [← hvreg, S.posed.value_eq hr.mirrored hr.oneClass (Routine.occurs_of_operand hb hi (List.mem_of_getElem? hop))]
      · cases hs

end Problem.Layout

/-! ## The slots of a result -/

/-- The stack slots in a result are answers to requests. -/
structure Output.Framed (out : Output) (f : Routine) (calls : List (Frame.Request × SpillSlot)) : Prop where
  /-- The slot of a record has the size of the value's class. -/
  locations : ∀ x ∈ out.locations, ∀ s, x.alloc = .stack s → (.value (f.slotSizes.get x.vreg.cls), s) ∈ calls
  /-- An operand on the stack is where its value is recorded. -/
  allocs : ∀ i (k : Nat) s, (out.instrAllocs i)[k]? = some (.stack s) → ∃ op, (f.operands i)[k]? = some op ∧
    ∃ x ∈ out.locations, x.vreg.num = op.vreg.num ∧ (x.range.start ≤ op.point i ∧ op.point i < x.range.stop) ∧
      x.alloc = .stack s ∧ (f.Mirrored → f.OneClass → x.vreg = op.vreg)
  /-- An edit names slots of values, which have its class if classes agree throughout, and spare slots of its class. -/
  edits : ∀ e ∈ out.edits, ∀ s, e.Names s → (∃ n, (.spare e.cls n, s) ∈ calls) ∨
    ∃ x ∈ out.locations, x.alloc = .stack s ∧ (f.Coherent → x.vreg.cls = e.cls)
  /-- Spare slots are recorded for no value. -/
  spares : ∀ c n s, (.spare c n, s) ∈ calls → ∀ x ∈ out.locations, x.alloc ≠ .stack s

namespace Problem

variable {f : Routine} {m : Machine} {ts : Traces} {o : Options} {plan : TracePlan} {out : Output}

/-- How a result came about, with the frame from which its slots were taken. -/
theorem exists_solution_frame (hts : f.traces plan = .ok ts) (hspan : ∀ b, (f.span b).first ≤ (f.span b).stop)
    (h : Returns (f.allocate m ts o) out) :
    ∃ p, p.routine = f ∧ ∃ (S : Solution p out) (n : Nat),
      Returns (S.a.assignSlots p (p.transfers S.a)) (S.a.inSlots S.slot, S.frame, n) ∧
      out.frameSize = S.emission.frame.size := by
  obtain ⟨p, hproblem, h⟩ := h.bind
  obtain ⟨hp, hf, -⟩ := posed_of_problem hts hspan hproblem
  obtain ⟨a, ha, h⟩ := h.bind
  obtain ⟨cut, draft, hall⟩ := hp.allocated ha
  obtain ⟨slot, frame, n, e, hslots, hsize, hfin, hmoves, hedits⟩ := hall.finish hp h
  exact ⟨p, hf, ⟨⟨a, cut, draft, slot, frame, hp, hall, hfin⟩, e, hmoves, hedits⟩, n, hslots, hsize⟩

theorem Solution.record_of_operand {p : Problem} (S : Solution p out) {i k : Nat} {s : SpillSlot}
    (hk : (out.instrAllocs i)[k]? = some (.stack s)) : ∃ op, (p.routine.operands i)[k]? = some op ∧
      ∃ x ∈ out.locations, x.vreg.num = op.vreg.num ∧ (x.range.start ≤ op.point i ∧ op.point i < x.range.stop) ∧
        x.alloc = .stack s ∧ (p.routine.Mirrored → p.routine.OneClass → x.vreg = op.vreg) := by
  obtain ⟨op, b, hop, hb, hi, hloc⟩ := S.located_of_alloc hk
  refine ⟨op, hop, ?_⟩
  cases hloc with
  | copy _ _ _ _ _ _ hreg => cases hreg
  | own hat =>
      obtain ⟨x, hx, hnum, hrange, halloc⟩ := Layout.at_iff_placement.1 hat
      refine ⟨x, hx, hnum, hrange, halloc, fun hm hc => ?_⟩
      rw [S.vreg_of_mem hx, hnum]
      exact S.posed.value_eq hm hc (Routine.occurs_of_operand hb hi (List.mem_of_getElem? hop))

theorem Solution.framed {p : Problem} (S : Solution p out) {n : Nat}
    (hslots : Returns (S.a.assignSlots p (p.transfers S.a)) (S.a.inSlots S.slot, S.frame, n)) :
    ∃ calls, Frame.Served p.routine calls S.emission.frame ∧ out.Framed p.routine calls := by
  obtain ⟨calls, hserved, hcalls⟩ := Assignment.served_assignSlots hslots
  have hreal : Move.Avoids ((p.transfers S.a).map fun tr => ((S.a.inSlots S.slot).locate tr).move) .none := by
    intro m hm
    obtain ⟨tr, htr, rfl⟩ := List.mem_map.1 hm
    exact Layout.locate_real htr
  obtain ⟨more, hbacked⟩ := Assignment.backed_emitMoves hreal hserved S.moves
  have hrecord : ∀ x ∈ out.locations, ∀ s, x.alloc = .stack s →
      (.value (p.routine.slotSizes.get x.vreg.cls), s) ∈ calls ++ more := by
    intro x hx s hs
    obtain ⟨iv, hiv, hsp, hvreg, rfl⟩ := S.spilled_of_stack hx hs
    rw [hvreg]
    exact List.mem_append_left _ (hcalls iv hiv hsp)
  refine ⟨calls ++ more, hbacked.served, hrecord, fun i k s hk => S.record_of_operand hk, fun e he s hs => ?_,
    fun c n s hn x hx heq => ?_⟩
  · rw [S.edits, ← Array.mem_toList_iff] at he
    refine (hbacked.edits e he s hs).imp_right ?_
    rintro ⟨m, hm, hcls, hnames⟩
    obtain ⟨tr, htr, rfl⟩ := List.mem_map.1 hm
    obtain ⟨x, hx, halloc, hagree⟩ := Layout.record_of_transfer htr hnames
    exact ⟨x, hx, halloc, fun hr => (hagree hr).trans hcls⟩
  · exact hbacked.served.value_ne_spare (hrecord x hx s heq) hn rfl

end Problem

/-- However requests for slots and spare slots follow one another, the frame answers them with aligned blocks of the
size asked for, inside the frame, and different answers have no slot in common. The slots in a result are answers to
the requests that were made for it. -/
theorem Routine.allocate_frame_sound {f : Routine} :
    (∀ calls frame, Frame.Served f calls frame →
      (∀ e ∈ calls, frame.Block f (e.1.size f) e.2) ∧
      calls.Pairwise fun e e' => (e = e' ∧ ∃ c n, e.1 = .spare c n) ∨
        Frame.Apart f (e.1.size f) e.2 (e'.1.size f) e'.2) ∧
    ∀ m ts o plan out, f.traces plan = .ok ts → (∀ b, (f.span b).first ≤ (f.span b).stop) →
      Returns (f.allocate m ts o) out →
      ∃ calls frame, Frame.Served f calls frame ∧ frame.size = out.frameSize ∧ out.Framed f calls := by
  refine ⟨fun calls frame hserved => ⟨hserved.sound.block, hserved.sound.callsApart⟩, ?_⟩
  intro m ts o plan out hts hspan h
  obtain ⟨p, rfl, S, n, hslots, hsize⟩ := Problem.exists_solution_frame hts hspan h
  obtain ⟨calls, hserved, hframed⟩ := S.framed hslots
  exact ⟨calls, S.emission.frame, hserved, hsize.symm, hframed⟩

/-- A value on the stack is passed on to a parameter on the stack, while another one is in the only register. Values
take two slots and are named by the second. -/
def slotToSlot : Routine :=
  let v (n : Nat) : VirtReg := ⟨n, some .int⟩
  { Routine.assemble [
      { instrs := [⟨.op, [.regDef (v 0)], .empty, []⟩, ⟨.op, [], .ofList (Machine.block .int 0 1), []⟩,
          ⟨.op, [.regDef (v 2)], .empty, []⟩, ⟨.branch, [], .empty, [[v 0]]⟩]
        succs := [1], params := [] },
      { instrs := [⟨.op, [.regUse (v 2)], .empty, []⟩, ⟨.ret, [.stackUse (v 1), .stackUse (v 0)], .empty, []⟩]
        succs := [], params := [v 1] }] with
    slotSizes := ⟨2, 2, 4⟩, namedByLast := true }

def slotToSlotTraces : Traces := ⟨#[[0], [1]], #[0, 1], #[0, 0]⟩

theorem slotToSlot_postorder : slotToSlot.postorder = .ok [1, 0] := by cbv

theorem slotToSlot_traces : slotToSlot.traces (.given [[0], [1]]) = .ok slotToSlotTraces := by with_unfolding_all rfl

theorem slotToSlot_returns : ∃ out, Returns (slotToSlot.allocate (.ints 1) slotToSlotTraces .standard) out ∧
    (out.edits.any fun e => e.source = .reg (.ofIndex 0) && e.dest = .stack ⟨7⟩ && e.cls = .int) = true ∧
    (out.locations.any fun x => x.alloc = .stack ⟨3⟩ && x.vreg.cls = .int) = true ∧
    (out.locations.all fun x => x.alloc ≠ .stack ⟨7⟩) = true ∧ out.frameSize = 8 := by
  apply Run.exists_returns
  rw [(Routine.allocateForm slotToSlot_postorder).2]
  decide +kernel

/-- The register is saved to the spare slot 7, behind the blocks of both values. -/
theorem allocate_frame_sound_slotToSlot : ∃ out calls frame,
    Returns (slotToSlot.allocate (.ints 1) slotToSlotTraces .standard) out ∧ Frame.Served slotToSlot calls frame ∧
    frame.size = 8 ∧ (.value 2, ⟨3⟩) ∈ calls ∧ (∃ n, (.spare .int n, ⟨7⟩) ∈ calls) ∧
    ∀ e ∈ calls, frame.Block slotToSlot (e.1.size slotToSlot) e.2 := by
  obtain ⟨out, hout, hedit, hrecord, hnone, hsize⟩ := slotToSlot_returns
  obtain ⟨hlaws, hrun⟩ := Routine.allocate_frame_sound (f := slotToSlot)
  obtain ⟨calls, frame, hserved, hframe, hframed⟩ :=
    hrun _ _ _ _ out slotToSlot_traces (Routine.forward_of_blocks (by decide)) hout
  refine ⟨out, calls, frame, hout, hserved, hframe.trans hsize, ?_, ?_, (hlaws calls frame hserved).1⟩
  · obtain ⟨i, hi, hx⟩ := Array.any_eq_true.1 hrecord
    simp only [Bool.and_eq_true, decide_eq_true_eq] at hx
    have hmem := hframed.locations _ (Array.getElem_mem hi) ⟨3⟩ hx.1
    rwa [hx.2] at hmem
  · obtain ⟨i, hi, hx⟩ := Array.any_eq_true.1 hedit
    simp only [Bool.and_eq_true, decide_eq_true_eq] at hx
    rcases hframed.edits _ (Array.getElem_mem hi) ⟨7⟩ (.inr hx.1.2) with hspare | ⟨x, hmem, halloc, -⟩
    · rwa [hx.2] at hspare
    · have hne := Array.all_eq_true'.1 hnone x hmem
      simp [halloc] at hne

end LinearScan
