import LinearScan.SingleAssignment
import LinearScan.Proofs.Routine
import LinearScan.Proofs.Run

/-!
# What collecting the values establishes

Every mention of a value is in range, no value has two definitions, and the table of values has at each
number a mention of it, if there is any.
-/

namespace LinearScan

namespace Routine

variable (f : Routine)

/-- The mentions of values by an instruction, and whether they define the value. -/
def mentionsAt (i : Nat) : List (VirtReg × Bool) := (f.operands i).map fun op => (op.vreg, op.writes)

/-- The mentions of values in block `b`, and whether they define the value. -/
def mentionsIn (b : Nat) : List (VirtReg × Bool) :=
  (f.params b).map (·, true) ++ (f.span b).toList.flatMap f.mentionsAt

/-- The numbers of the values that the mentions define. -/
def definedBy (ms : List (VirtReg × Bool)) : List Nat := (ms.filter (·.2)).map (·.1.num)

/-- What the values of a checked routine are. -/
structure Valued (vs : Array VirtReg) : Prop where
  size : vs.size = f.numValues
  num : ∀ (n : Nat) v, vs[n]? = some v → v.num = n
  operand : ∀ b < f.numBlocks, ∀ i ∈ (f.span b).toList, ∀ op ∈ f.operands i, op.isLegible = true
  mention : ∀ b < f.numBlocks, ∀ m ∈ f.mentionsIn b, m.1.num < f.numValues
  arg : ∀ b < f.numBlocks, ∀ v ∈ f.allBranchArgs b, v.num < f.numValues
  once : (definedBy ((List.range f.numBlocks).flatMap f.mentionsIn)).Nodup
  known : ∀ b < f.numBlocks, ∀ m ∈ f.mentionsIn b, ∃ c < f.numBlocks, ∃ w ∈ f.mentionsIn c,
    vs[m.1.num]? = some w.1
  /-- The table has nothing but mentions and, for numbers that are not mentioned, integers. -/
  origin : ∀ (n : Nat) v, vs[n]? = some v → v = ⟨n, some .int⟩ ∨ ∃ b < f.numBlocks, ∃ m ∈ f.mentionsIn b, m.1 = v

/-! ## The table -/

/-- A table for `n` values that has seen the mentions `ms`. -/
structure Noted (n : Nat) (ms : List (VirtReg × Bool)) (t : ValueTable) : Prop where
  size : t.vregs.size = n
  flags : t.defined.size = n
  lt : ∀ m ∈ ms, m.1.num < n
  once : (definedBy ms).Nodup
  defined : ∀ v < n, t.defined[v]? = some (decide (v ∈ definedBy ms))
  num : ∀ (k : Nat) v, t.vregs[k]? = some v → v.num = k
  known : ∀ m ∈ ms, ∃ w ∈ ms, t.vregs[m.1.num]? = some w.1
  origin : ∀ (k : Nat) v, t.vregs[k]? = some v → v = ⟨k, some .int⟩ ∨ ∃ m ∈ ms, m.1 = v

variable {f} {n i : Nat} {ms : List (VirtReg × Bool)} {t t' : ValueTable} {v : VirtReg}

theorem definedBy_append (ms ms' : List (VirtReg × Bool)) :
    definedBy (ms ++ ms') = definedBy ms ++ definedBy ms' := by
  simp [definedBy]

theorem Noted.add (h : Noted n ms t) (hlt : v.num < n) {defines : Bool}
    (hnew : defines = true → t.defined[v.num]? = some false) :
    Noted n (ms ++ [(v, defines)])
      ⟨t.vregs.setIfInBounds v.num v, if defines then t.defined.setIfInBounds v.num true else t.defined⟩ := by
  have hv : (t.vregs.setIfInBounds v.num v)[v.num]? = some v := by simp [h.size, hlt]
  have hother : ∀ k : Nat, k ≠ v.num → (t.vregs.setIfInBounds v.num v)[k]? = t.vregs[k]? := by
    intro k hk
    have hk' : ¬ v.num = k := fun e => hk e.symm
    simp [hk']
  have hd : definedBy (ms ++ [(v, defines)]) = definedBy ms ++ if defines then [v.num] else [] := by
    cases defines with
    | true => simp [definedBy]
    | false => simp [definedBy]
  refine ⟨by simp [h.size], ?_, fun m hm => ?_, ?_, fun k hk => ?_, fun k w hw => ?_, fun m hm => ?_,
    fun k w hw => ?_⟩
  · cases defines with
    | false => exact h.flags
    | true => simp [h.flags]
  · rcases List.mem_append.1 hm with hm | hm
    · exact h.lt m hm
    · rw [List.mem_singleton.1 hm]
      exact hlt
  · rw [hd]
    cases defines with
    | false => simpa using h.once
    | true =>
        have hnot : v.num ∉ definedBy ms := by
          have hf := hnew rfl
          rw [h.defined v.num hlt] at hf
          simpa using hf
        exact List.nodup_append.2 ⟨h.once, by simp, fun a ha b hb e =>
          hnot (List.mem_singleton.1 hb ▸ e ▸ ha)⟩
  · rw [hd]
    cases defines with
    | false => simpa using h.defined k hk
    | true =>
        have hsize : v.num < t.defined.size := (Array.getElem?_eq_some_iff.1 (hnew rfl)).1
        by_cases hkv : v.num = k
        · subst hkv
          simp [hsize]
        · have hkv' : ¬ k = v.num := fun e => hkv e.symm
          simp [hkv, hkv', h.defined k hk]
  · by_cases hk : k = v.num
    · subst hk
      cases Option.some.inj (hv.symm.trans hw)
      rfl
    · rw [hother k hk] at hw
      exact h.num k w hw
  · by_cases hk : m.1.num = v.num
    · exact ⟨(v, defines), by simp, hk ▸ hv⟩
    · rcases List.mem_append.1 hm with hm | hm
      · obtain ⟨w, hw, hmw⟩ := h.known m hm
        exact ⟨w, by simp [hw], (hother _ hk).trans hmw⟩
      · rw [List.mem_singleton.1 hm] at hk
        exact absurd rfl hk
  · by_cases hk : k = v.num
    · subst hk
      exact .inr ⟨(v, defines), by simp, Option.some.inj (hv.symm.trans hw)⟩
    · rw [hother k hk] at hw
      refine (h.origin k w hw).imp_right ?_
      rintro ⟨m, hm, rfl⟩
      exact ⟨m, by simp [hm], rfl⟩

theorem define_spec {i : Option Nat} (h : t.define i v = .ok t') :
    t.defined[v.num]? = some false ∧ t' = { t with defined := t.defined.setIfInBounds v.num true } := by
  unfold ValueTable.define at h
  split at h
  · rename_i hf
    cases h
    exact ⟨hf, rfl⟩
  · cases h

theorem Noted.addParam (h : Noted n ms t) (hp : t.addParam v = .ok t') : Noted n (ms ++ [(v, true)]) t' := by
  obtain ⟨t1, hd, hp⟩ := Except.bind_ok hp
  cases hp
  obtain ⟨hfree, rfl⟩ := define_spec hd
  have hlt : v.num < n := h.flags ▸ (Array.getElem?_eq_some_iff.1 hfree).1
  exact h.add hlt fun _ => hfree

theorem Noted.addOperand {op : Operand} (h : Noted n ms t) (ho : t.addOperand i op = .ok t') :
    Noted n (ms ++ [(op.vreg, op.writes)]) t' ∧ op.isLegible = true := by
  obtain ⟨_, hvreg, ho⟩ := Except.bind_ok ho
  dsimp only at ho
  split at ho
  · cases ho
  · rename_i hsize
    obtain ⟨_, hrole, ho⟩ := Except.bind_ok ho
    have hlt : op.vreg.num < n := by
      rw [h.size] at hsize
      omega
    refine ⟨?_, by simp [Operand.isLegible, Stop.demand_ok hvreg, Stop.demand_ok hrole]⟩
    split at ho
    · rename_i hw
      obtain ⟨t1, hd, ho⟩ := Except.bind_ok ho
      cases ho
      obtain ⟨hfree, rfl⟩ := define_spec hd
      rw [hw]
      exact h.add hlt fun _ => hfree
    · rename_i hw
      cases ho
      rw [Bool.not_eq_true] at hw
      rw [hw]
      exact h.add hlt fun hc => by cases hc

/-! ## The routine -/

theorem Noted.addParams {vs : List VirtReg} (h : Noted n ms t)
    (hp : vs.foldlM ValueTable.addParam t = .ok t') : Noted n (ms ++ vs.map (·, true)) t' := by
  refine Except.foldlM_append (I := fun done t => Noted n (ms ++ done.map (·, true)) t)
    (fun done v _ t t' _ hd hv => ?_) (by simpa using h) hp
  simpa using hd.addParam hv

theorem Noted.addOperands {ops : List Operand} (h : Noted n ms t)
    (ho : ops.foldlM (ValueTable.addOperand i) t = .ok t') :
    Noted n (ms ++ ops.map fun op => (op.vreg, op.writes)) t' ∧ ∀ op ∈ ops, op.isLegible = true := by
  refine Except.foldlM_append (I := fun done t => Noted n (ms ++ done.map fun op => (op.vreg, op.writes)) t ∧
    ∀ op ∈ done, op.isLegible = true) (fun done op _ t t' _ hd hop => ?_) (by simpa using h) ho
  obtain ⟨hn, hleg⟩ := hd.1.addOperand hop
  refine ⟨by simpa using hn, fun x hx => ?_⟩
  rcases List.mem_append.1 hx with hx | hx
  · exact hd.2 x hx
  · rw [List.mem_singleton.1 hx]
    exact hleg

/-- The operands of the listed instructions are legible. -/
def AllLegible (f : Routine) (is : List Nat) : Prop := ∀ i ∈ is, ∀ op ∈ f.operands i, op.isLegible = true

theorem Noted.addInstrs {is : List Nat} (h : Noted n ms t)
    (hi : is.foldlM (fun t i => (f.operands i).foldlM (ValueTable.addOperand i) t) t = .ok t') :
    Noted n (ms ++ is.flatMap f.mentionsAt) t' ∧ AllLegible f is := by
  refine Except.foldlM_append (I := fun done t => Noted n (ms ++ done.flatMap f.mentionsAt) t ∧ AllLegible f done)
    (fun done i _ t t' _ hd hi => ?_) ⟨by simpa using h, fun i hi => by cases hi⟩ hi
  obtain ⟨hn, hleg⟩ := hd.1.addOperands hi
  refine ⟨by simpa [mentionsAt] using hn, fun j hj => ?_⟩
  rcases List.mem_append.1 hj with hj | hj
  · exact hd.2 j hj
  · rw [List.mem_singleton.1 hj]
    exact hleg

theorem Noted.addBlock {b : Nat} (h : Noted f.numValues ms t) (hb : f.addBlockValues t b = .ok t') :
    Noted f.numValues (ms ++ f.mentionsIn b) t' ∧ AllLegible f (f.span b).toList ∧
      ∀ v ∈ f.allBranchArgs b, v.num < f.numValues := by
  obtain ⟨t1, hparams, hb⟩ := Except.bind_ok hb
  obtain ⟨t2, hinstrs, hb⟩ := Except.bind_ok hb
  obtain ⟨hn, hleg⟩ := (h.addParams hparams).addInstrs hinstrs
  split at hb
  · cases hb
  · rename_i hargs
    cases hb
    refine ⟨by simpa [mentionsIn] using hn, hleg, fun v hv => ?_⟩
    have := List.find?_eq_none.1 hargs v hv
    simpa using this

theorem noted_nil (n : Nat) :
    Noted n [] ⟨(Array.range n).map fun n => ⟨n, some .int⟩, Array.replicate n false⟩ := by
  have hfirst : ∀ (k : Nat) v, ((Array.range n).map fun n => (⟨n, some .int⟩ : VirtReg))[k]? = some v →
      v = ⟨k, some .int⟩ := by
    intro k v hk
    obtain ⟨a, ha, rfl⟩ := Option.map_eq_some_iff.1 (Array.getElem?_map.symm.trans hk)
    obtain ⟨hlt, ha⟩ := Array.getElem?_eq_some_iff.1 ha
    simpa using ha.symm
  refine ⟨by simp, by simp, by simp, by simp [definedBy], fun v hv => ?_, fun k v hk => ?_, by simp,
    fun k v hk => .inl (hfirst k v hk)⟩
  · simp [hv, definedBy]
  · rw [hfirst k v hk]

theorem valued_of_values {vs : Array VirtReg} (h : f.values = .ok vs) : f.Valued vs := by
  obtain ⟨_, -, h⟩ := Except.bind_ok h
  obtain ⟨t, ht, h⟩ := Except.bind_ok h
  cases h
  have hall := Except.foldlM_append (I := fun done t => Noted f.numValues (done.flatMap f.mentionsIn) t ∧
      ∀ b ∈ done, AllLegible f (f.span b).toList ∧ ∀ v ∈ f.allBranchArgs b, v.num < f.numValues)
    (fun done b _ t t' _ hd hb => ?_) ?_ ht
  · obtain ⟨hn, hblocks⟩ := hall
    refine ⟨hn.size, hn.num, fun b hb => (hblocks b (List.mem_range.2 hb)).1, fun b hb m hm => ?_,
      fun b hb => (hblocks b (List.mem_range.2 hb)).2, hn.once, fun b hb m hm => ?_, fun n v hv => ?_⟩
    · exact hn.lt m (List.mem_flatMap.2 ⟨b, List.mem_range.2 hb, hm⟩)
    · obtain ⟨w, hw, hmw⟩ := hn.known m (List.mem_flatMap.2 ⟨b, List.mem_range.2 hb, hm⟩)
      obtain ⟨c, hc, hwc⟩ := List.mem_flatMap.1 hw
      exact ⟨c, List.mem_range.1 hc, w, hwc, hmw⟩
    · refine (hn.origin n v hv).imp_right ?_
      rintro ⟨m, hm, rfl⟩
      obtain ⟨c, hc, hmc⟩ := List.mem_flatMap.1 hm
      exact ⟨c, List.mem_range.1 hc, m, hmc, rfl⟩
  · obtain ⟨hn, hleg⟩ := hd.1.addBlock hb
    refine ⟨by simpa using hn, fun c hc => ?_⟩
    rcases List.mem_append.1 hc with hc | hc
    · exact hd.2 c hc
    · rw [List.mem_singleton.1 hc]
      exact hleg
  · exact ⟨noted_nil f.numValues, by simp⟩

/-! ## One definition each -/

theorem definedBy_sublist {ms ms' : List (VirtReg × Bool)} (h : ms.Sublist ms') :
    (definedBy ms).Sublist (definedBy ms') := (h.filter _).map _

theorem Valued.nodup_in {vs : Array VirtReg} {b : Nat} (h : f.Valued vs) (hb : b < f.numBlocks)
    {ms : List (VirtReg × Bool)} (hms : ms.Sublist (f.mentionsIn b)) : (definedBy ms).Nodup := by
  refine (definedBy_sublist (hms.trans ?_)).nodup h.once
  rw [List.flatMap_def]
  exact List.sublist_flatten_of_mem (List.mem_map_of_mem (List.mem_range.2 hb))

theorem Valued.nodup_params {vs : Array VirtReg} {b : Nat} (h : f.Valued vs) (hb : b < f.numBlocks) :
    ((f.params b).map VirtReg.num).Nodup := by
  have hnd := h.nodup_in hb (List.sublist_append_left ((f.params b).map (·, true)) _)
  simpa [definedBy, List.filter_map, Function.comp_def] using hnd

theorem Valued.writes_apart {vs : Array VirtReg} {b : Nat} (h : f.Valued vs) (hb : b < f.numBlocks)
    (hi : i ∈ (f.span b).toList) :
    (f.operands i).Pairwise fun x y => x.writes = true → y.writes = true → x.vreg.num ≠ y.vreg.num := by
  have hsub : (f.mentionsAt i).Sublist (f.mentionsIn b) := by
    refine List.Sublist.trans ?_ (List.sublist_append_right _ _)
    rw [List.flatMap_def]
    exact List.sublist_flatten_of_mem (List.mem_map_of_mem hi)
  have hnd := h.nodup_in hb hsub
  rw [definedBy, mentionsAt, List.filter_map, List.map_map, List.nodup_iff_pairwise_ne, List.pairwise_map,
    List.pairwise_filter] at hnd
  exact hnd

end Routine

end LinearScan
