import LinearScan.Encoding.Packed
import Mathlib.Algebra.Group.Nat.Defs

/-!
# Packed words can be read back

A word that is read gives what was written, as long as the number of the value fits its field. The word of an operand that
is read and written again is the same word, but for the bits of a fixed register where there is none.
-/

namespace LinearScan

theorem PhysReg.ofByte_toByte (r : PhysReg) : ofByte r.toByte = r := by
  have hlt : r.index < 256 := by
    have hcode := RegClass.code_lt r.cls?
    have hhw := r.hw.isLt
    simp only [index]
    omega
  rw [ofByte, toByte, UInt8.toNat_ofNat_of_lt' hlt, ofIndex_index]

theorem VirtReg.ofWord_toWord {v : VirtReg} (h : v.key < UInt32.size) : ofWord v.toWord = v := by
  have hcode := RegClass.code_lt v.cls?
  have hnum : v.key / 4 = v.num := by
    simp only [key]
    omega
  have hcls : v.key % 4 = RegClass.code v.cls? := by
    simp only [key]
    omega
  rw [ofWord, toWord, UInt32.toNat_ofNat_of_lt' h, hnum, hcls, RegClass.ofIndex?_code]

/-! ## The codes of an operand's parts -/

theorem RegClass.code_ofIndex? : ∀ n, n < 4 → code (ofIndex? n) = n := by decide

theorem Role.ofCode?_code (role : Option Role) : ofCode? (code role) = role := by
  rcases role with _ | _ | _ | _ <;> rfl

theorem Role.code_ofCode? : ∀ n, n < 4 → code (ofCode? n) = n := by decide

theorem Role.code_lt (role : Option Role) : code role < 4 := by
  rcases role with _ | _ | _ | _ <;> decide

theorem Timing.ofCode_code (t : Timing) : ofCode t.code = t := by
  cases t <;> rfl

theorem Timing.code_ofCode : ∀ n, n < 2 → (ofCode n).code = n := by decide

theorem Timing.code_lt (t : Timing) : t.code < 2 := by
  cases t <;> decide

namespace Constraint

theorem code_lt (c : Constraint) : c.code < 4 := by
  cases c <;> simp [code]

theorem hwField_lt (c : Constraint) : c.hwField < 64 := by
  cases c with
  | fixed hw => exact hw.isLt
  | _ => decide

theorem ofCode_code (c : Constraint) : ofCode c.code ⟨c.hwField, c.hwField_lt⟩ = c := by
  cases c <;> rfl

theorem code_ofCode {n : Nat} (h : n < 4) (hw : Fin 64) :
    (ofCode n hw).code = n ∧ (ofCode n hw).hwField = if n = 3 then hw.val else 0 := by
  obtain rfl | rfl | rfl | rfl : n = 0 ∨ n = 1 ∨ n = 2 ∨ n = 3 := by omega
  all_goals exact ⟨rfl, rfl⟩

end Constraint

/-! ## Operands -/

namespace Operand

variable {w : UInt32} {op : Operand}

/-- The bounds that keep the parts of a word apart. -/
structure Fits (op : Operand) : Prop where
  num : op.vreg.num < 524288
  hw : op.constraint.hwField < 64
  cls : RegClass.code op.vreg.cls? < 4
  timing : op.timing.code < 2
  role : Role.code op.role? < 4
  tag : op.constraint.code < 4

theorem fits (h : op.vreg.num ≤ VirtReg.maxNum) : op.Fits :=
  ⟨Nat.lt_succ_of_le h, op.constraint.hwField_lt, RegClass.code_lt _, op.timing.code_lt, Role.code_lt _,
    op.constraint.code_lt⟩

theorem Fits.toNat_toWord (h : op.Fits) :
    op.toWord.toNat = op.vreg.num + 524288 * op.constraint.hwField + 33554432 * RegClass.code op.vreg.cls? +
      134217728 * op.timing.code + 268435456 * Role.code op.role? + 1073741824 * op.constraint.code := by
  obtain ⟨hnum, hhw, hcls, htiming, hrole, htag⟩ := h
  rw [toWord, UInt32.toNat_ofNat_of_lt']
  simp only [UInt32.size]
  omega

theorem ofWord_toWord (h : op.vreg.num ≤ VirtReg.maxNum) : ofWord op.toWord = op := by
  have hword := (fits h).toNat_toWord
  obtain ⟨hnum, hhw, hcls, htiming, hrole, htag⟩ := fits h
  -- Each field is read from its own bits.
  generalize op.toWord = w at hword
  have h1 : w.toNat % 524288 = op.vreg.num := by omega
  have h2 : w.toNat / 33554432 % 4 = RegClass.code op.vreg.cls? := by omega
  have h3 : w.toNat / 1073741824 = op.constraint.code := by omega
  have h4 : w.toNat / 524288 % 64 = op.constraint.hwField := by omega
  have h5 : w.toNat / 268435456 % 4 = Role.code op.role? := by omega
  have h6 : w.toNat / 134217728 % 2 = op.timing.code := by omega
  simp only [ofWord, h1, h2, h3, h4, h5, h6, RegClass.ofIndex?_code, Role.ofCode?_code, Timing.ofCode_code,
    Constraint.ofCode_code]

/-- A word that is read and written again loses the bits of a fixed register that it does not have. -/
theorem toNat_toWord_ofWord (w : UInt32) :
    (ofWord w).toWord.toNat =
      if w.toNat / 1073741824 = 3 then w.toNat else 2 ^ 25 * (w.toNat / 2 ^ 25) + w.toNat % 2 ^ 19 := by
  have hlt := w.toNat_lt
  have htag : w.toNat / 1073741824 < 4 := by omega
  have hfit : (ofWord w).Fits := fits (Nat.le_of_lt_succ (Nat.mod_lt _ (by decide)))
  rw [hfit.toNat_toWord]
  simp only [ofWord, RegClass.code_ofIndex? _ (Nat.mod_lt _ (by decide)), Role.code_ofCode? _ (Nat.mod_lt _ (by decide)),
    Timing.code_ofCode _ (Nat.mod_lt _ (by decide)), Constraint.code_ofCode htag]
  by_cases hfixed : w.toNat / 1073741824 = 3
  · simp only [hfixed, ↓reduceIte]
    omega
  · simp only [hfixed, ↓reduceIte]
    omega

theorem fixedReg?_ofWord : (ofWord w).fixedReg?.isSome = decide (w.toNat / 1073741824 = 3) := by
  have hlt := w.toNat_lt
  have htag : w.toNat / 1073741824 < 4 := by omega
  simp only [fixedReg?, ofWord]
  generalize w.toNat / 1073741824 = tag at htag
  obtain rfl | rfl | rfl | rfl : tag = 0 ∨ tag = 1 ∨ tag = 2 ∨ tag = 3 := by omega
  all_goals rfl

theorem testBit_toWord_ofWord (w : UInt32) (i : Nat) :
    (ofWord w).toWord.toNat.testBit i =
      (w.toNat.testBit i && ((ofWord w).fixedReg?.isSome || decide (i < 19 ∨ 25 ≤ i))) := by
  rw [toNat_toWord_ofWord, fixedReg?_ofWord]
  by_cases hfixed : w.toNat / 1073741824 = 3
  · simp [hfixed]
  · have hlow : w.toNat % 2 ^ 19 < 2 ^ 25 := by omega
    simp only [hfixed, ↓reduceIte, decide_false, Bool.false_or, Nat.testBit_two_pow_mul_add _ hlow, Nat.testBit_mod_two_pow,
      Nat.testBit_div_two_pow]
    split
    · rename_i hi
      have hge : ¬ 25 ≤ i := by omega
      simp only [hge, or_false, Bool.and_comm]
    · rename_i hi
      simp [show i - 25 + 25 = i by omega, show 25 ≤ i by omega]

theorem isSome_ofWord? : (ofWord? w).isSome = true ↔ (w >>> 25) &&& 3 ≤ 2 ∧ (w >>> 28) &&& 3 ≤ 2 := by
  have hbits : ∀ k : UInt32, k < 32 → ((w >>> k) &&& 3).toNat = w.toNat / 2 ^ k.toNat % 4 := by
    intro k hk
    have hk : k.toNat < 32 := hk
    rw [UInt32.toNat_and, UInt32.toNat_shiftRight, Nat.mod_eq_of_lt hk, Nat.shiftRight_eq_div_pow]
    exact Nat.and_two_pow_sub_one_eq_mod _ 2
  have hcls : ∀ n, n < 4 → ((RegClass.ofIndex? n).isSome = true ↔ n ≤ 2) := by decide
  have hrole : ∀ n, n < 4 → ((Role.ofCode? n).isSome = true ↔ n ≤ 2) := by decide
  have hsome : (ofWord? w).isSome = true ↔ (ofWord w).isLegible = true := by
    unfold ofWord?
    split <;> simp_all
  rw [hsome, isLegible, Bool.and_eq_true, VirtReg.isLegible, UInt32.le_iff_toNat_le, UInt32.le_iff_toNat_le,
    hbits 25 (by decide), hbits 28 (by decide)]
  exact (and_congr (hrole _ (Nat.mod_lt _ (by decide))) (hcls _ (Nat.mod_lt _ (by decide)))).trans and_comm

/-- What can be read from a word. -/
structure Reads (w : UInt32) (v : VirtReg) (c : Constraint) (role : Role) (timing : Timing) : Prop where
  vreg : (ofWord w).vreg = v
  cls : (ofWord w).vreg.cls = v.cls
  constraint : (ofWord w).constraint = c
  role : (ofWord w).role = role
  timing : (ofWord w).timing = timing
  accepted : ofWord? w = some (ofWord w)
  /-- A fixed register is read with the class of the value. -/
  pinned : ∀ r : PhysReg, r.cls? = v.cls? → c = .fixed r.hw → (ofWord w).fixedReg? = some r

theorem of_make? {n : Nat} {cls : RegClass} {v : VirtReg} (h : VirtReg.make? n cls = some v) :
    n ≤ VirtReg.maxNum ∧ v = ⟨n, some cls⟩ := by
  unfold VirtReg.make? at h
  split at h
  · rename_i hn
    exact ⟨hn, (Option.some.inj h).symm⟩
  · cases h

theorem make_eq (h : op.isLegible = true) : make op.vreg op.constraint op.role op.timing = op := by
  obtain ⟨v, c, role, timing⟩ := op
  cases role with
  | none => cases h
  | some role => rfl

theorem reads_make {n : Nat} (h : n ≤ VirtReg.maxNum) (cls : RegClass) (c : Constraint) (role : Role) (timing : Timing) :
    Reads (make ⟨n, some cls⟩ c role timing).toWord ⟨n, some cls⟩ c role timing := by
  have hread : ofWord (make ⟨n, some cls⟩ c role timing).toWord = make ⟨n, some cls⟩ c role timing := ofWord_toWord h
  constructor
  case accepted =>
    rw [ofWord?, hread]
    rfl
  case pinned =>
    rintro r hr rfl
    rw [hread, fixedReg?, make, ← hr]
  all_goals rw [hread]; rfl

/-- The parts of an operand are read back from its word. A word that is accepted is the word
of what is read from it, but for the bits of a fixed register where there is none. So words are equal exactly if all
parts are. -/
theorem packing_exact :
    (∀ n cls v c role timing, VirtReg.make? n cls = some v →
      Reads (make v c role timing).toWord v c role timing) ∧
    (∀ w, (ofWord? w).isSome = true ↔ (w >>> 25) &&& 3 ≤ 2 ∧ (w >>> 28) &&& 3 ≤ 2) ∧
    (∀ w op, ofWord? w = some op → ∀ i,
      (make op.vreg op.constraint op.role op.timing).toWord.toNat.testBit i =
        (w.toNat.testBit i && (op.fixedReg?.isSome || decide (i < 19 ∨ 25 ≤ i)))) ∧
    (∀ n cls v n' cls' v', VirtReg.make? n cls = some v → VirtReg.make? n' cls' = some v' →
      ∀ c role timing c' role' timing', (make v c role timing).toWord = (make v' c' role' timing').toWord ↔
        v = v' ∧ c = c' ∧ role = role' ∧ timing = timing') := by
  refine ⟨fun n cls v c role timing hv => ?_, fun w => isSome_ofWord?, fun w op hop i => ?_,
    fun n cls v n' cls' v' hv hv' c role timing c' role' timing' => ⟨fun heq => ?_, ?_⟩⟩
  · obtain ⟨hn, rfl⟩ := of_make? hv
    exact reads_make hn cls c role timing
  · unfold ofWord? at hop
    split at hop
    · rename_i hlegible
      obtain rfl := Option.some.inj hop
      rw [make_eq hlegible, testBit_toWord_ofWord]
    · cases hop
  · obtain ⟨hn, rfl⟩ := of_make? hv
    obtain ⟨hn', rfl⟩ := of_make? hv'
    have hread := reads_make hn cls c role timing
    have hread' := reads_make hn' cls' c' role' timing'
    rw [heq] at hread
    exact ⟨hread.vreg.symm.trans hread'.vreg, hread.constraint.symm.trans hread'.constraint,
      hread.role.symm.trans hread'.role, hread.timing.symm.trans hread'.timing⟩
  · rintro ⟨rfl, rfl, rfl, rfl⟩
    rfl

/-- The word of a register use that has the bits of a register as well. -/
def strayBits : UInt32 := 0x51F80000

theorem packing_exact_strayBits :
    VirtReg.make? 524287 .vector = some ⟨524287, some .vector⟩ ∧
    Reads (make ⟨524287, some .vector⟩ (.fixed (PhysReg.ofIndex 191).hw) .temp .late).toWord ⟨524287, some .vector⟩
      (.fixed (PhysReg.ofIndex 191).hw) .temp .late ∧
    ofWord? strayBits = some (regUse ⟨0, some .int⟩) ∧ strayBits.toNat.testBit 19 = true ∧
    (regUse ⟨0, some .int⟩).toWord.toNat.testBit 19 = false ∧
    (regUse ⟨0, some .int⟩).toWord ≠ (regUseAtEnd ⟨0, some .int⟩).toWord := by
  obtain ⟨hreads, -, hwrites, hequal⟩ := packing_exact
  have hzero : VirtReg.make? 0 .int = some ⟨0, some .int⟩ := rfl
  refine ⟨rfl, hreads 524287 .vector _ _ _ _ rfl, by decide, by decide, ?_, fun heq => ?_⟩
  · exact hwrites strayBits (regUse ⟨0, some .int⟩) (by decide) 19
  · have htiming := ((hequal _ _ _ _ _ _ hzero hzero _ _ _ _ _ _).1 heq).2.2.2
    cases htiming

end Operand

end LinearScan
