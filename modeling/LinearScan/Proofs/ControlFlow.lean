import LinearScan.ControlFlow
import LinearScan.Proofs.Routine
import LinearScan.Proofs.Run
import Mathlib.Data.List.Perm.Subperm

/-!
# What the control-flow check establishes
-/

namespace LinearScan

namespace Routine

variable {f : Routine} {c : ControlFlow} {b : Nat} {order : List Nat} {owner owner' : Array (Option Nat)} {u : Unit}

/-- A block that passes the check. -/
structure BlockOk (f : Routine) (b : Nat) : Prop where
  nonempty : (f.span b).first ≠ (f.span b).stop
  terminator : ∀ i ∈ (f.span b).toList, f.isTerminator i = (i == f.last b)
  args : ∀ k s, (f.succs b)[k]? = some s → (f.branchArgs b k).length = (f.params s).length
  entries : 1 < f.entries b → ∀ q ∈ f.preds b, (f.succs q).length ≤ 1
  branch : f.feedsMerge b = true → f.operands (f.last b) = []

/-- What is known of a routine that passes the check, and of what was laid out. -/
structure Flows (f : Routine) (c : ControlFlow) : Prop where
  postorder : f.postorder = .ok c.postorder
  reached : c.postorder.length = f.numBlocks
  block : ∀ b < f.numBlocks, BlockOk f b
  inRange : ∀ b < f.numBlocks, ∀ i ∈ (f.span b).toList, i < f.numInstrs
  owned : ∀ b < f.numBlocks, ∀ i ∈ (f.span b).toList, c.blockOfInstr[i]? = some b
  owner : ∀ i < f.numInstrs, ∃ b < f.numBlocks, i ∈ (f.span b).toList
  entryOf : ∀ b < f.numBlocks, c.entryOf b = Point.before (f.first b)
  entryBefore : ∀ b, Point.isBefore (c.entryOf b) = true

/-! ## The walk -/

/-- The blocks that paths from the entry lead to. -/
inductive Reachable (f : Routine) : Nat → Prop where
  | entry : Reachable f f.entry
  | step {b s : Nat} : Reachable f b → s ∈ f.succs b → Reachable f s

/-- The invariant of the walk: open blocks and blocks left are different, seen and reachable. -/
structure Walked (f : Routine) (seen : Array Bool) (stack : List (Nat × List Nat)) (left : Array Nat) : Prop where
  nodup : (stack.map Prod.fst ++ left.toList).Nodup
  seen : ∀ b ∈ stack.map Prod.fst ++ left.toList, seen[b]? = some true
  reached : ∀ b ∈ stack.map Prod.fst ++ left.toList, Reachable f b
  more : ∀ e ∈ stack, ∀ s ∈ e.2, s ∈ f.succs e.1

section

variable {seen : Array Bool} {stack rest : List (Nat × List Nat)} {left : Array Nat} {more : List Nat} {s : Nat}

namespace Walked

theorem leave (h : Walked f seen ((b, []) :: rest) left) : Walked f seen rest (left.push b) := by
  have hcomm : (rest.map Prod.fst ++ left.toList ++ [b]).Perm ([b] ++ (rest.map Prod.fst ++ left.toList)) :=
    List.perm_append_comm
  have hperm : (rest.map Prod.fst ++ (left.push b).toList).Perm (((b, []) :: rest).map Prod.fst ++ left.toList) := by
    simpa using hcomm
  exact ⟨hperm.nodup_iff.2 h.nodup, fun x hx => h.seen x (hperm.mem_iff.1 hx),
    fun x hx => h.reached x (hperm.mem_iff.1 hx), fun e he => h.more e (List.mem_cons_of_mem _ he)⟩

theorem reachable_next (h : Walked f seen ((b, s :: more) :: rest) left) : Reachable f b ∧ s ∈ f.succs b :=
  ⟨h.reached b (by simp), h.more _ List.mem_cons_self s List.mem_cons_self⟩

theorem pass (h : Walked f seen ((b, s :: more) :: rest) left) : Walked f seen ((b, more) :: rest) left := by
  refine ⟨h.nodup, h.seen, h.reached, fun e he x hx => ?_⟩
  rcases List.mem_cons.1 he with rfl | he
  · exact h.more _ List.mem_cons_self x (List.mem_cons_of_mem _ hx)
  · exact h.more e (List.mem_cons_of_mem _ he) x hx

theorem enter (h : Walked f seen ((b, s :: more) :: rest) left) (hs : seen[s]? = some false) :
    Walked f (seen.setIfInBounds s true) ((s, f.succs s) :: (b, more) :: rest) left := by
  have hnew : s ∉ ((b, s :: more) :: rest).map Prod.fst ++ left.toList := by
    intro hmem
    have := h.seen s hmem
    rw [hs] at this
    cases this
  refine ⟨List.nodup_cons.2 ⟨hnew, h.nodup⟩, fun x hx => ?_, fun x hx => ?_, fun e he x hx => ?_⟩
  · rw [Array.getElem?_setIfInBounds]
    split
    · exact if_pos (Array.getElem?_eq_some_iff.1 hs).1
    · rename_i he
      exact h.seen x ((List.mem_cons.1 hx).resolve_left fun e => he e.symm)
  · rcases List.mem_cons.1 hx with rfl | hx
    · exact .step h.reachable_next.1 h.reachable_next.2
    · exact h.reached x hx
  · rcases List.mem_cons.1 he with rfl | he
    · exact hx
    · exact h.pass.more e he x hx

theorem start (hentry : f.entry < f.numBlocks) : Walked f ((Array.replicate f.numBlocks false).setIfInBounds f.entry true)
    [(f.entry, f.succs f.entry)] #[] := by
  refine ⟨by simp, fun b hb => ?_, fun b hb => ?_, fun e he s hs => ?_⟩
  · rw [show b = f.entry by simpa using hb]
    simp [hentry]
  · rw [show b = f.entry by simpa using hb]
    exact .entry
  · rw [List.mem_singleton.1 he] at hs ⊢
    exact hs

end Walked

theorem walk_spec (h : Walked f seen stack left) (hw : f.walk seen stack left = .ok order) :
    order.Nodup ∧ ∀ b ∈ order, b < seen.size ∧ Reachable f b := by
  fun_induction walk f seen stack left with
  | case1 seen left =>
      cases hw
      refine ⟨by simpa using h.nodup, fun b hb => ⟨?_, h.reached b (by simpa using hb)⟩⟩
      exact (Array.getElem?_eq_some_iff.1 (h.seen b (by simpa using hb))).1
  | case2 seen left b rest ih => exact ih h.leave hw
  | case3 seen left b s more rest hs =>
      obtain ⟨_, -, hw⟩ := Except.bind_ok hw
      cases hw
  | case4 seen left b s more rest hs ih => exact ih h.pass hw
  | case5 seen left b s more rest hs ih =>
      rw [Array.size_setIfInBounds] at ih
      exact ih (h.enter hs) hw

theorem walk_missing (h : Walked f seen stack left) {stop : Stop} (hw : f.walk seen stack left = .error stop) :
    ∃ b s, Reachable f b ∧ s ∈ f.succs b ∧ seen.size ≤ s ∧ f.walk seen stack left = missingBlock s := by
  fun_induction walk f seen stack left with
  | case1 seen left => cases hw
  | case2 seen left b rest ih => exact ih h.leave hw
  | case3 seen left b s more rest hs =>
      exact ⟨b, s, h.reachable_next.1, h.reachable_next.2, Array.getElem?_eq_none_iff.1 hs, rfl⟩
  | case4 seen left b s more rest hs ih => exact ih h.pass hw
  | case5 seen left b s more rest hs ih =>
      rw [Array.size_setIfInBounds] at ih
      exact ih (h.enter hs) hw

end

theorem postorder_spec (h : f.postorder = .ok order) :
    order.Nodup ∧ ∀ b ∈ order, b < f.numBlocks ∧ Reachable f b := by
  unfold postorder at h
  split at h
  · rename_i hlt
    simpa using walk_spec (.start hlt) h
  · obtain ⟨_, -, h⟩ := Except.bind_ok h
    cases h

/-- A walk from a block comes to its end, or it finds the successor of a reachable block that is no block. -/
theorem postorder_cases (hentry : f.entry < f.numBlocks) : (∃ order, f.postorder = .ok order) ∨
    ∃ b s, Reachable f b ∧ s ∈ f.succs b ∧ f.numBlocks ≤ s ∧ f.postorder = missingBlock s := by
  rw [postorder, if_pos hentry]
  cases hw : f.walk ((Array.replicate f.numBlocks false).setIfInBounds f.entry true) [(f.entry, f.succs f.entry)] #[] with
  | ok order => exact .inl ⟨order, rfl⟩
  | error stop =>
      obtain ⟨b, s, hb, hs, hge, heq⟩ := walk_missing (.start hentry) hw
      exact .inr ⟨b, s, hb, hs, by simpa using hge, hw.symm.trans heq⟩

theorem entry_lt_of_postorder (h : f.postorder = .ok order) : f.entry < f.numBlocks := by
  unfold postorder at h
  split at h
  · assumption
  · obtain ⟨_, -, h⟩ := Except.bind_ok h
    cases h

/-! ## Instructions of a block -/

theorem claim_spec {i n : Nat} (h : f.claim b i n owner = .ok owner') :
    owner'.size = owner.size ∧
      (∀ j, i ≤ j → j < i + n → owner[j]? = some none ∧ owner'[j]? = some (some b) ∧
        f.isTerminator j = (j == f.last b)) ∧
      ∀ j, ¬ (i ≤ j ∧ j < i + n) → owner'[j]? = owner[j]? := by
  induction n generalizing i owner with
  | zero =>
      cases h
      exact ⟨rfl, by omega, fun _ _ => rfl⟩
  | succ n ih =>
      unfold claim at h
      split at h
      · rename_i hfree
        split at h
        · rename_i hterm
          obtain ⟨hsize, hin, hout⟩ := ih h
          have hlt : i < owner.size := (Array.getElem?_eq_some_iff.1 hfree).1
          refine ⟨by simpa using hsize, fun j hj hlt' => ?_, fun j hj => ?_⟩
          · rcases Nat.eq_or_lt_of_le hj with rfl | hj
            · refine ⟨hfree, ?_, hterm⟩
              rw [hout i (by omega), Array.getElem?_setIfInBounds]
              simp [hlt]
            · obtain ⟨h1, h2, h3⟩ := hin j hj (by omega)
              refine ⟨?_, h2, h3⟩
              rw [Array.getElem?_setIfInBounds, if_neg (by omega)] at h1
              exact h1
          · rw [hout j (by omega), Array.getElem?_setIfInBounds, if_neg (by omega)]
        · cases h
      · cases h

theorem checkArgs_spec (h : f.checkArgs b = .ok u) (k s : Nat) (hk : (f.succs b)[k]? = some s) :
    (f.branchArgs b k).length = (f.params s).length := by
  have hks := Except.forM_ok h (s, k) (List.mem_zipIdx_iff_getElem?.2 hk)
  obtain ⟨_, -, hks⟩ := Except.bind_ok hks
  split at hks
  · cases hks
  · rename_i hne
    exact Decidable.not_not.1 hne

theorem hasArgs_of_checkArgs {k : Nat} (h : f.checkArgs b = .ok u) (hk : k < (f.succs b).length) :
    f.hasArgs b k = true := by
  have hks := Except.forM_ok h ((f.succs b)[k], k) (List.mem_zipIdx_iff_getElem?.2 (List.getElem?_eq_getElem hk))
  obtain ⟨_, hdemand, -⟩ := Except.bind_ok hks
  exact Stop.demand_ok hdemand

theorem checkEntries_spec (h : f.checkEntries b = .ok u) (hm : 1 < f.entries b) :
    ∀ q ∈ f.preds b, (f.succs q).length ≤ 1 := by
  intro q hq
  rw [checkEntries, if_pos hm] at h
  have hq := Except.forM_ok h q hq
  obtain ⟨_, -, hq⟩ := Except.bind_ok hq
  split at hq
  · cases hq
  · omega

theorem checkBranch_spec (h : f.checkBranch b = .ok u) (hm : f.feedsMerge b = true) :
    f.operands (f.last b) = [] := by
  rw [checkBranch, if_pos hm] at h
  obtain ⟨_, -, h⟩ := Except.bind_ok h
  split at h
  · cases h
  · rename_i hne
    simpa using hne

theorem hasInstr_of_checkBranch (h : f.checkBranch b = .ok u) (hm : f.feedsMerge b = true) :
    f.last b < f.numInstrs := by
  rw [checkBranch, if_pos hm] at h
  obtain ⟨_, hdemand, -⟩ := Except.bind_ok h
  simpa [hasInstr] using Stop.demand_ok hdemand

/-- What has been done about a block that passes the check. -/
structure Checked (f : Routine) (b : Nat) (owner owner' : Array (Option Nat)) : Prop where
  nonempty : (f.span b).isEmpty = false
  first : Index.isSet (f.first b) = true
  last : (f.span b).hasLast = true
  claim : f.claim b (f.first b) (f.span b).length owner = .ok owner'
  args : f.checkArgs b = .ok ()
  entries : f.checkEntries b = .ok ()
  branch : f.checkBranch b = .ok ()

theorem checked_of_checkBlock (h : f.checkBlock owner b = .ok owner') : Checked f b owner owner' := by
  unfold checkBlock at h
  split at h
  · cases h
  · rename_i hempty
    obtain ⟨_, hspan, h⟩ := Except.bind_ok h
    obtain ⟨owner1, hclaim, h⟩ := Except.bind_ok h
    obtain ⟨_, hargs, h⟩ := Except.bind_ok h
    obtain ⟨_, hentries, h⟩ := Except.bind_ok h
    obtain ⟨_, hbranch, h⟩ := Except.bind_ok h
    cases h
    obtain ⟨hfirst, hlast⟩ := Bool.and_eq_true_iff.1 (Stop.demand_ok hspan)
    exact ⟨Bool.eq_false_iff.2 hempty, hfirst, hlast, hclaim, hargs, hentries, hbranch⟩

/-! ## All blocks -/

/-- What is known once the listed blocks have been checked. -/
structure Claimed (f : Routine) (done : List Nat) (owner : Array (Option Nat)) : Prop where
  size : owner.size = f.numInstrs
  block : ∀ b ∈ done, BlockOk f b
  owned : ∀ b ∈ done, ∀ i ∈ (f.span b).toList, owner[i]? = some (some b)
  owner : ∀ i b, owner[i]? = some (some b) → b ∈ done ∧ i ∈ (f.span b).toList

theorem Claimed.checkBlock {done : List Nat} (h : Claimed f done owner)
    (hb : f.checkBlock owner b = .ok owner') : Claimed f (done ++ [b]) owner' := by
  have hchecked := checked_of_checkBlock hb
  obtain ⟨hsize, hin, hout⟩ := claim_spec hchecked.claim
  have hspan (i : Nat) : i ∈ (f.span b).toList ↔ f.first b ≤ i ∧ i < f.first b + (f.span b).length := List.mem_range'_1
  refine ⟨hsize.trans h.size, fun b' hb' => ?_, fun b' hb' i hi => ?_, fun i b' hi => ?_⟩
  · rcases List.mem_append.1 hb' with hb' | hb'
    · exact h.block b' hb'
    · rw [List.mem_singleton.1 hb']
      refine ⟨by simpa [Span.isEmpty] using hchecked.nonempty, fun i hi => ?_, checkArgs_spec hchecked.args,
        checkEntries_spec hchecked.entries, checkBranch_spec hchecked.branch⟩
      obtain ⟨h1, h2⟩ := (hspan i).1 hi
      exact (hin i h1 h2).2.2
  · by_cases hib : i ∈ (f.span b).toList
    · obtain ⟨h1, h2⟩ := (hspan i).1 hib
      obtain ⟨hfree, howned, -⟩ := hin i h1 h2
      rcases List.mem_append.1 hb' with hb' | hb'
      · have hold := h.owned b' hb' i hi
        rw [hfree] at hold
        cases hold
      · rw [List.mem_singleton.1 hb']
        exact howned
    · rw [hout i fun hi' => hib ((hspan i).2 hi')]
      rcases List.mem_append.1 hb' with hb' | hb'
      · exact h.owned b' hb' i hi
      · rw [List.mem_singleton.1 hb'] at hi
        exact absurd hi hib
  · by_cases hib : i ∈ (f.span b).toList
    · obtain ⟨h1, h2⟩ := (hspan i).1 hib
      obtain ⟨-, howned, -⟩ := hin i h1 h2
      rw [howned] at hi
      cases hi
      exact ⟨by simp, hib⟩
    · rw [hout i fun hi' => hib ((hspan i).2 hi')] at hi
      obtain ⟨hd, hs⟩ := h.owner i b' hi
      exact ⟨by simp [hd], hs⟩

theorem claimed_nil : Claimed f [] (Array.replicate f.numInstrs none) := by
  refine ⟨by simp [numInstrs], by simp, by simp, fun i b hi => ?_⟩
  rw [Array.getElem?_replicate] at hi
  split at hi
  · cases hi
  · cases hi

theorem claimed_of_checkBlocks {bs : List Nat}
    (h : bs.foldlM f.checkBlock (Array.replicate f.numInstrs none) = .ok owner) : Claimed f bs owner :=
  Except.foldlM_append (fun _ _ _ _ _ _ hd hb => Claimed.checkBlock hd hb) claimed_nil h

/-- What has been laid out for a routine that passes the check. -/
structure LaidOut (f : Routine) (c : ControlFlow) (owner : Array (Option Nat)) : Prop where
  postorder : f.postorder = .ok c.postorder
  reached : c.postorder.length = f.numBlocks
  checked : (List.range f.numBlocks).foldlM f.checkBlock (Array.replicate f.numInstrs none) = .ok owner
  full : owner.any Option.isNone = false
  blockOfInstr : c.blockOfInstr = owner.map (·.getD 0)
  entryPoint : c.entryPoint = ((List.range f.numBlocks).map fun b => Point.before (f.first b)).toArray
  exitPoint : c.exitPoint = ((List.range f.numBlocks).map fun b => Point.after (f.last b)).toArray
  loopDepth : c.loopDepth = (f.loopDepths (List.range f.numBlocks) []).toArray

theorem exists_laidOut (h : f.controlFlow = .ok c) : ∃ owner, LaidOut f c owner := by
  obtain ⟨order, horder, h⟩ := Except.bind_ok h
  dsimp only at h
  split at h
  · cases h
  · rename_i hlen
    obtain ⟨owner, howner, h⟩ := Except.bind_ok h
    split at h
    · cases h
    · rename_i hall
      cases h
      exact ⟨owner, horder, Decidable.not_not.1 hlen, howner, Bool.eq_false_iff.2 hall, rfl, rfl, rfl, rfl⟩

theorem flows_of_controlFlow (h : f.controlFlow = .ok c) : Flows f c := by
  obtain ⟨owner, hlaid⟩ := exists_laidOut h
  have hclaimed := claimed_of_checkBlocks hlaid.checked
  have hentry : ∀ b, c.entryOf b = if b < f.numBlocks then Point.before (f.first b) else 0 := by
    intro b
    rw [ControlFlow.entryOf, hlaid.entryPoint]
    by_cases hb : b < f.numBlocks
    · simp [hb]
    · simp [hb]
  refine ⟨hlaid.postorder, hlaid.reached, fun b hb => hclaimed.block b (List.mem_range.2 hb), ?_, ?_, ?_,
    fun b hb => (hentry b).trans (if_pos hb), fun b => ?_⟩
  · intro b hb i hi
    have hi := hclaimed.owned b (List.mem_range.2 hb) i hi
    exact hclaimed.size ▸ (Array.getElem?_eq_some_iff.1 hi).1
  · intro b hb i hi
    simp [hlaid.blockOfInstr, hclaimed.owned b (List.mem_range.2 hb) i hi]
  · intro i hi
    have hlt : i < owner.size := hclaimed.size ▸ hi
    cases ho : owner[i] with
    | none =>
        have hnone : owner.any Option.isNone = true :=
          Array.any_eq_true.2 ⟨i, hlt, by simp [ho]⟩
        exact absurd hnone (Bool.eq_false_iff.1 hlaid.full)
    | some b =>
        obtain ⟨hb, hs⟩ := hclaimed.owner i b (by rw [Array.getElem?_eq_getElem hlt, ho])
        exact ⟨b, List.mem_range.1 hb, hs⟩
  · rw [hentry]
    split
    · simp [Point.isBefore, Point.before]
    · rfl

theorem exists_checked (h : f.controlFlow = .ok c) (hb : b < f.numBlocks) : ∃ owner owner', Checked f b owner owner' := by
  obtain ⟨owner, hlaid⟩ := exists_laidOut h
  have hall : ∀ b ∈ List.range f.numBlocks, ∃ owner owner', Checked f b owner owner' :=
    Except.foldlM_append (I := fun done _ => ∀ b ∈ done, ∃ owner owner', Checked f b owner owner')
      (fun done b _ owner owner' _ hdone hb =>
        List.forall_mem_append.2 ⟨hdone, by simpa using ⟨owner, owner', checked_of_checkBlock hb⟩⟩)
      (by simp) hlaid.checked
  exact hall b (List.mem_range.2 hb)

theorem hasArgs_of_controlFlow {k : Nat} (h : f.controlFlow = .ok c) (hk : k < (f.succs b).length) :
    f.hasArgs b k = true := by
  obtain ⟨owner, owner', hb⟩ := exists_checked h (lt_of_mem_succs (List.getElem_mem hk))
  exact hasArgs_of_checkArgs hb.args hk

theorem hasLast_of_controlFlow (h : f.controlFlow = .ok c) (hb : b < f.numBlocks) : (f.span b).hasLast = true := by
  obtain ⟨owner, owner', hb⟩ := exists_checked h hb
  exact hb.last

theorem Flows.entry_lt (h : Flows f c) : f.entry < f.numBlocks := entry_lt_of_postorder h.postorder

theorem Flows.mem_postorder (h : Flows f c) (hb : b < f.numBlocks) : b ∈ c.postorder := by
  obtain ⟨hnodup, hlt⟩ := postorder_spec h.postorder
  have hsub : c.postorder.Subperm (List.range f.numBlocks) :=
    hnodup.subperm fun x hx => List.mem_range.2 (hlt x hx).1
  have hperm := hsub.perm_of_length_le (by simp [h.reached])
  exact hperm.mem_iff.2 (List.mem_range.2 hb)

theorem Flows.reachable (h : Flows f c) (hb : b < f.numBlocks) : Reachable f b :=
  ((postorder_spec h.postorder).2 b (h.mem_postorder hb)).2

end Routine

end LinearScan
