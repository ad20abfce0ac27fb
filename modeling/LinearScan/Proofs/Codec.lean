import LinearScan.Codec
import Mathlib.Algebra.Group.Nat.Defs
import Mathlib.Data.List.Basic

/-!
# Exact codecs

A codec is exact if it reads a value off the front of some bytes just when those bytes begin with what it
writes for the value. Then writing loses nothing, whatever comes behind, and each value has one written form.
Codecs that are put together from exact ones are exact.
-/

namespace LinearScan.Codec

variable {α β : Type} {fits : α → Prop} {c : Codec α}

/-- The codec reads a value just where it would write it. Only values that fit can be written. -/
def Exact (c : Codec α) (fits : α → Prop) : Prop :=
  ∀ bytes a rest, c.decode bytes = some (a, rest) ↔ fits a ∧ bytes = c.encode a ++ rest

theorem Exact.congr {fits' : α → Prop} (h : Exact c fits) (hiff : ∀ a, fits a ↔ fits' a) : Exact c fits' := by
  intro bytes a rest
  rw [h bytes a rest, hiff a]

/-! ## Numbers -/

@[simp] theorem length_littleEndian (n k : Nat) : (littleEndian n k).length = n := by
  induction n generalizing k with
  | zero => rfl
  | succ n ih => simp [littleEndian, ih]

theorem ofLittleEndian_lt (bytes : List UInt8) : ofLittleEndian bytes < 256 ^ bytes.length := by
  induction bytes with
  | nil => decide
  | cons b rest ih =>
      have := b.toNat_lt
      simp only [ofLittleEndian, List.length_cons, Nat.pow_succ]
      omega

theorem ofLittleEndian_littleEndian {n k : Nat} (h : k < 256 ^ n) : ofLittleEndian (littleEndian n k) = k := by
  induction n generalizing k with
  | zero =>
      have hk : k = 0 := by simpa using h
      rw [hk]
      rfl
  | succ n ih =>
      have hdiv : k / 256 < 256 ^ n := by
        rw [Nat.pow_succ] at h
        omega
      simp only [littleEndian, ofLittleEndian, ih hdiv, UInt8.toNat_ofNat']
      omega

theorem littleEndian_ofLittleEndian (bytes : List UInt8) :
    littleEndian bytes.length (ofLittleEndian bytes) = bytes := by
  induction bytes with
  | nil => rfl
  | cons b rest ih =>
      have hb := b.toNat_lt
      have hlow : UInt8.ofNat (b.toNat + 256 * ofLittleEndian rest) = b := by
        apply UInt8.toNat_inj.1
        rw [UInt8.toNat_ofNat']
        omega
      have hhigh : (b.toNat + 256 * ofLittleEndian rest) / 256 = ofLittleEndian rest := by omega
      simp only [List.length_cons, littleEndian, ofLittleEndian, hlow, hhigh, ih]

theorem takeBytes_eq_some {n : Nat} {bytes front rest : List UInt8} :
    takeBytes n bytes = some (front, rest) ↔ front.length = n ∧ bytes = front ++ rest := by
  unfold takeBytes
  constructor
  · intro h
    split at h
    · rename_i hn
      obtain ⟨rfl, rfl⟩ := Prod.mk.inj (Option.some.inj h)
      exact ⟨List.length_take_of_le hn, (List.take_append_drop n bytes).symm⟩
    · cases h
  · rintro ⟨rfl, rfl⟩
    simp

theorem exact_number (n : Nat) : Exact (number n) (· < 256 ^ n) := by
  intro bytes k rest
  simp only [number, Option.map_eq_some_iff, Prod.exists, Prod.mk.injEq, takeBytes_eq_some]
  constructor
  · rintro ⟨front, _, ⟨rfl, rfl⟩, rfl, rfl⟩
    exact ⟨ofLittleEndian_lt front, by rw [littleEndian_ofLittleEndian]⟩
  · rintro ⟨hk, rfl⟩
    exact ⟨_, _, ⟨length_littleEndian n k, rfl⟩, ofLittleEndian_littleEndian hk, rfl⟩

/-! ## Values that stand for others -/

theorem Exact.filterMap {fits' : β → Prop} {forth : α → Option β} {back : β → α}
    (h : Exact c fits) (hfits : ∀ b, fits' b → fits (back b))
    (hforth : ∀ a b, fits a → (forth a = some b ↔ fits' b ∧ a = back b)) : Exact (c.filterMap forth back) fits' := by
  intro bytes b rest
  simp only [Codec.filterMap, Option.bind_eq_bind, Option.bind_eq_some_iff, Prod.exists, Option.pure_def,
    Option.some.injEq, Prod.mk.injEq]
  constructor
  · rintro ⟨a, _, hdecode, _, hb, rfl, rfl⟩
    obtain ⟨hfit, rfl⟩ := (h _ _ _).1 hdecode
    obtain ⟨hb', rfl⟩ := (hforth a _ hfit).1 hb
    exact ⟨hb', rfl⟩
  · rintro ⟨hb, rfl⟩
    exact ⟨back b, rest, (h _ _ _).2 ⟨hfits b hb, rfl⟩, b, (hforth _ b (hfits b hb)).2 ⟨hb, rfl⟩, rfl, rfl⟩

theorem imap_eq_filterMap (c : Codec α) (forth : α → β) (back : β → α) :
    c.imap forth back = c.filterMap (fun a => some (forth a)) back := by
  simp only [imap, Codec.filterMap, Codec.mk.injEq, true_and]
  funext bytes
  cases c.decode bytes <;> rfl

theorem Exact.imap {forth : α → β} {back : β → α} (h : Exact c fits)
    (hforth : ∀ b, forth (back b) = b) (hback : ∀ a, fits a → back (forth a) = a) :
    Exact (c.imap forth back) fun b => fits (back b) := by
  rw [imap_eq_filterMap]
  refine h.filterMap (fun _ hb => hb) fun a b ha => ?_
  rw [Option.some.injEq]
  constructor
  · rintro rfl
    rw [hback a ha]
    exact ⟨ha, rfl⟩
  · rintro ⟨-, rfl⟩
    exact hforth b

theorem exact_byte : Exact byte fun _ => True :=
  ((exact_number 1).imap (fun _ => UInt8.ofNat_toNat) fun _ h => UInt8.toNat_ofNat_of_lt h).congr
    fun b => iff_true_intro b.toNat_lt

theorem exact_word : Exact word fun _ => True :=
  ((exact_number 4).imap (fun _ => UInt32.ofNat_toNat) fun _ h => UInt32.toNat_ofNat_of_lt h).congr
    fun w => iff_true_intro w.toNat_lt

theorem exact_long : Exact long fun _ => True :=
  ((exact_number 8).imap (fun _ => UInt64.ofNat_toNat) fun _ h => UInt64.toNat_ofNat_of_lt h).congr
    fun w => iff_true_intro w.toNat_lt

theorem exact_flag : Exact flag fun _ => True := by
  refine (exact_number 1).filterMap (fun b _ => ?_) fun n b _ => ?_
  · cases b <;> decide
  · cases b <;> simp only [Bool.toNat_false, Bool.toNat_true, true_and] <;> grind

/-! ## Values of several parts -/

theorem Exact.pair {d : Codec β} {fits' : β → Prop} (hc : Exact c fits)
    (hd : Exact d fits') : Exact (pair c d) fun p => fits p.1 ∧ fits' p.2 := by
  rintro bytes ⟨a, b⟩ rest
  simp only [Codec.pair, Option.bind_eq_bind, Option.bind_eq_some_iff, Prod.exists, Option.pure_def,
    Option.some.injEq, Prod.mk.injEq, hc _ _ _, hd _ _ _]
  constructor
  · rintro ⟨_, _, ⟨ha, rfl⟩, _, _, ⟨hb, rfl⟩, ⟨rfl, rfl⟩, rfl⟩
    exact ⟨⟨ha, hb⟩, (List.append_assoc ..).symm⟩
  · rintro ⟨⟨ha, hb⟩, rfl⟩
    exact ⟨a, _, ⟨ha, List.append_assoc ..⟩, b, rest, ⟨hb, rfl⟩, ⟨rfl, rfl⟩, rfl⟩

theorem Exact.option (h : Exact c fits) : Exact (option c) fun o => ∀ a, o = some a → fits a := by
  intro bytes o rest
  simp only [Codec.option, Option.bind_eq_bind, Option.bind_eq_some_iff, Prod.exists, exact_flag _ _ _, true_and]
  constructor
  · rintro ⟨present, _, rfl, hnext⟩
    cases present with
    | false =>
        cases hnext
        exact ⟨nofun, rfl⟩
    | true =>
        simp only [if_true, Option.bind_eq_some_iff, Prod.exists, h _ _ _] at hnext
        obtain ⟨a, _, ⟨ha, rfl⟩, heq⟩ := hnext
        cases heq
        exact ⟨by rintro _ ⟨⟩; exact ha, (List.append_assoc ..).symm⟩
  · rintro ⟨ho, rfl⟩
    cases o with
    | none => exact ⟨false, rest, rfl, rfl⟩
    | some a =>
        refine ⟨true, c.encode a ++ rest, List.append_assoc .., ?_⟩
        simp [(h _ a rest).2 ⟨ho a rfl, rfl⟩]

theorem decodeMany_eq_some (h : Exact c fits) {n : Nat} {bytes rest : List UInt8}
    {as : List α} : decodeMany c n bytes = some (as, rest) ↔
      as.length = n ∧ (∀ a ∈ as, fits a) ∧ bytes = as.flatMap c.encode ++ rest := by
  induction n generalizing bytes rest as with
  | zero =>
      simp only [decodeMany, Option.some.injEq, Prod.mk.injEq, List.length_eq_zero_iff]
      constructor
      · rintro ⟨rfl, rfl⟩
        simp
      · rintro ⟨rfl, -, rfl⟩
        simp
  | succ n ih =>
      simp only [decodeMany, Option.bind_eq_bind, Option.bind_eq_some_iff, Prod.exists, Option.pure_def,
        Option.some.injEq, Prod.mk.injEq, h _ _ _, ih]
      constructor
      · rintro ⟨a, _, ⟨ha, rfl⟩, as, _, ⟨rfl, has, rfl⟩, rfl, rfl⟩
        exact ⟨rfl, List.forall_mem_cons.2 ⟨ha, has⟩, (List.append_assoc ..).symm⟩
      · rintro ⟨hlen, hall, rfl⟩
        cases as with
        | nil => cases hlen
        | cons a as =>
            obtain ⟨ha, has⟩ := List.forall_mem_cons.1 hall
            exact ⟨a, _, ⟨ha, List.append_assoc ..⟩, as, rest, ⟨Nat.succ.inj hlen, has, rfl⟩, rfl, rfl⟩

theorem Exact.list (h : Exact c fits) : Exact (list c) fun as => as.length < 2 ^ 64 ∧ ∀ a ∈ as, fits a := by
  intro bytes as rest
  simp only [Codec.list, Option.bind_eq_bind, Option.bind_eq_some_iff, Prod.exists, exact_number 8 _ _ _,
    decodeMany_eq_some h]
  constructor
  · rintro ⟨_, _, ⟨hn, rfl⟩, rfl, hall, rfl⟩
    exact ⟨⟨hn, hall⟩, (List.append_assoc ..).symm⟩
  · rintro ⟨⟨hn, hall⟩, rfl⟩
    exact ⟨as.length, _, ⟨hn, List.append_assoc ..⟩, rfl, hall, rfl⟩

end LinearScan.Codec
