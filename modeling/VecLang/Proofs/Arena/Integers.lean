import Mathlib
import VecLang.Proofs.Arena.Rewrite

/-!
# Integers as nodes

An integer that is pushed onto a node is rounded to a binary64 number on its way, and the node
holds the integer that this number is, moved into the 64-bit range. So it holds the integer
itself just if at most 53 bits lie between its first and its last binary one, or if it is the
greatest one, which is rounded up and moved back. The round trip of a number through its bits
(`UnpackedFloat.pack_unpack`) is in no part of Mathlib, and comes with the whole of it alone.

* `Decimal.decode_ofInteger`: the number between is the rounded integer.
* `Decimal.held_eq_self_iff`: which integers survive.
* `Arena.push_integer_iff`: **pushing an integer succeeds, and keeps it just if it survives.**
-/

namespace VecLang

variable {den m mant : Nat} {n exp : Int} {neg : Bool}

namespace Decimal

theorem roundHalfEven_mul {num c : Nat} (hc : 0 < c) :
    roundHalfEven (num * c) (den * c) = roundHalfEven num den := by
  have hless : 2 * (num % den * c) < den * c ↔ 2 * (num % den) < den := by
    rw [← Nat.mul_assoc, Nat.mul_lt_mul_right hc]
  have hmore : den * c < 2 * (num % den * c) ↔ den < 2 * (num % den) := by
    rw [← Nat.mul_assoc, Nat.mul_lt_mul_right hc]
  unfold roundHalfEven
  simp only [Nat.mul_div_mul_right _ _ hc, Nat.mul_mod_mul_right, hless, gt_iff_lt, hmore]

theorem roundHalfEven_of_dvd {num : Nat} (hden : 0 < den) (h : den ∣ num) :
    roundHalfEven num den = num / den := by
  unfold roundHalfEven
  simp only [Nat.mod_eq_zero_of_dvd h]
  rw [if_pos (by omega)]

theorem roundHalfEven_bounds (num den : Nat) :
    num / den ≤ roundHalfEven num den ∧ roundHalfEven num den ≤ num / den + 1 := by
  unfold roundHalfEven
  dsimp only
  split
  · omega
  split
  · omega
  split <;> omega

/-- The distance between the binary64 numbers around `m`, if it is whole. -/
def step (m : Nat) : Nat := 2 ^ (m.log2 - 52)

/-- The multiple of the step nearest to `m`; a half goes to the even one. -/
def rounded (m : Nat) : Nat := roundHalfEven m (step m) * step m

/-- What a node made for a 64-bit integer holds. -/
def held (n : Int) : Int := clamp64 (signed (decide (n < 0)) (rounded n.natAbs))

theorem step_pos (m : Nat) : 0 < step m := Nat.two_pow_pos _

theorem rounded_eq_self_iff : rounded m = m ↔ step m ∣ m := by
  constructor
  · intro h
    have hmul : step m ∣ rounded m := Nat.dvd_mul_left _ _
    rwa [h] at hmul
  · intro h
    rw [rounded, roundHalfEven_of_dvd (step_pos m) h, Nat.div_mul_cancel h]

/-- The significand of 53 bits, or of one more if it was rounded up to it. -/
theorem significand_bounds (hm : m ≠ 0) :
    2 ^ 52 ≤ roundHalfEven (m * 2 ^ 52) (2 ^ m.log2) ∧
      roundHalfEven (m * 2 ^ 52) (2 ^ m.log2) ≤ 2 ^ 53 := by
  obtain ⟨hlo, hhi⟩ := roundHalfEven_bounds (m * 2 ^ 52) (2 ^ m.log2)
  have hfirst : 2 ^ 52 ≤ m * 2 ^ 52 / 2 ^ m.log2 := by
    rw [Nat.le_div_iff_mul_le (Nat.two_pow_pos _), Nat.mul_comm]
    exact Nat.mul_le_mul_right _ (Nat.log2_self_le hm)
  have hlast : m * 2 ^ 52 / 2 ^ m.log2 < 2 ^ 53 := by
    rw [Nat.div_lt_iff_lt_mul (Nat.two_pow_pos _)]
    have := Nat.lt_log2_self (n := m)
    omega
  omega

theorem significand_eq (m : Nat) :
    roundHalfEven (m * 2 ^ 52) (2 ^ m.log2) * 2 ^ (m.log2 - 52) = rounded m * 2 ^ (52 - m.log2) := by
  unfold rounded step
  rcases Nat.le_total m.log2 52 with hle | hle
  · have hsplit : m * 2 ^ 52 = m * 2 ^ (52 - m.log2) * 2 ^ m.log2 := by
      rw [Nat.mul_assoc, ← Nat.pow_add, Nat.sub_add_cancel hle]
    rw [Nat.sub_eq_zero_of_le hle, Nat.pow_zero, roundHalfEven_of_dvd Nat.one_pos (Nat.one_dvd m),
      hsplit, roundHalfEven_of_dvd (Nat.two_pow_pos _) (Nat.dvd_mul_left _ _),
      Nat.mul_div_cancel _ (Nat.two_pow_pos _), Nat.div_one, Nat.mul_one, Nat.mul_one]
  · have hsplit : 2 ^ m.log2 = 2 ^ (m.log2 - 52) * 2 ^ 52 := by
      rw [← Nat.pow_add, Nat.sub_add_cancel hle]
    rw [hsplit, roundHalfEven_mul (Nat.two_pow_pos 52), Nat.sub_eq_zero_of_le hle, Nat.pow_zero,
      Nat.mul_one]

open Float.Model in
theorem toBits_ofBits {b : UInt64} (h : b.toNat / 2 ^ 52 % 2 ^ 11 ≠ 2047) :
    (Float.ofBits b).toBits = b := by
  have hexp : @UnpackedFloat.unpackExponent .binary64 b.toBitVec ≠ -1#11 := by
    intro he
    have hnat := congrArg BitVec.toNat he
    rw [UnpackedFloat.unpackExponent_def, BitVec.extractLsb'_toNat, Nat.shiftRight_eq_div_pow] at hnat
    exact h hnat
  have hfinite : @UnpackedFloat.isNaNBits .binary64 b.toBitVec = false :=
    decide_eq_false fun hnan => hexp hnan.1
  have hpack := @UnpackedFloat.pack_unpack .binary64 b.toBitVec (by decide)
  rw [hfinite] at hpack
  exact congrArg UInt64.ofBitVec hpack

theorem toFraction_whole {w a b : Nat} (h : mant * 2 ^ a = w * 2 ^ b) :
    ∃ den, 0 < den ∧ toFraction mant ((a : Int) - b) = (w * den, den) := by
  rcases Nat.lt_or_ge a b with hlt | hle
  · obtain ⟨k, rfl⟩ : ∃ k, b = a + (k + 1) := ⟨b - a - 1, by omega⟩
    rw [Nat.pow_add, Nat.mul_comm (2 ^ a), ← Nat.mul_assoc] at h
    refine ⟨2 ^ (k + 1), Nat.two_pow_pos _, ?_⟩
    rw [show (a : Int) - (a + (k + 1) : Nat) = Int.negSucc k by omega, ←
      Nat.eq_of_mul_eq_mul_right (Nat.two_pow_pos a) h]
    rfl
  · obtain ⟨k, rfl⟩ : ∃ k, a = k + b := ⟨a - b, by omega⟩
    rw [Nat.pow_add, ← Nat.mul_assoc] at h
    refine ⟨1, Nat.one_pos, ?_⟩
    rw [show ((k + b : Nat) : Int) - b = Int.ofNat k by simp, Nat.mul_one, ←
      Nat.eq_of_mul_eq_mul_right (Nat.two_pow_pos b) h]
    rfl

theorem decode_ofBits (neg : Bool) {e sig : Nat} (he : e ≤ 63) (hlo : 2 ^ 52 ≤ sig)
    (hhi : sig ≤ 2 ^ 53) : decode (Float.ofBits (UInt64.ofNat
      ((if neg then 2 ^ 63 else 0) + ((e + 1022) * 2 ^ 52 + sig)))) =
        if sig < 2 ^ 53 then .finite neg sig (e - 52) else .finite neg (2 ^ 52) (e - 51) := by
  generalize hbits : (if neg then 2 ^ 63 else 0) + ((e + 1022) * 2 ^ 52 + sig) = bits
  have hnat : (UInt64.ofNat bits).toNat = bits := by
    rw [UInt64.toNat_ofNat']
    exact Nat.mod_eq_of_lt (by split at hbits <;> omega)
  have hneg : decide (2 ^ 63 ≤ bits) = neg := by
    cases neg with
    | true => exact decide_eq_true (by simp only [if_pos] at hbits; omega)
    | false => exact decide_eq_false (by simp only [Bool.false_eq_true, if_false] at hbits; omega)
  -- a significand of one bit more carries into the exponent
  have hexp : bits / 2 ^ 52 % 2 ^ 11 = if sig < 2 ^ 53 then e + 1023 else e + 1024 := by
    split at hbits <;> split <;> omega
  have hfrac : bits % 2 ^ 52 = if sig < 2 ^ 53 then sig - 2 ^ 52 else 0 := by
    split at hbits <;> split <;> omega
  unfold decode
  rw [toBits_ofBits (by rw [hnat, hexp]; split <;> omega), hnat]
  simp only [Nat.pow_eq, hneg, hexp, hfrac]
  split
  · rw [if_neg (by omega), if_neg (by omega), Nat.add_sub_cancel' hlo,
      show ((e + 1023 : Nat) : Int) - 1075 = e - 52 by omega]
  · rw [if_neg (by omega), if_neg (by omega), show ((e + 1024 : Nat) : Int) - 1075 = e - 51 by omega]
    rfl

/-- **The number between**: an integer of 64 bits is rounded to a multiple of its step. -/
theorem decode_ofInteger (hn : n.natAbs ≤ 2 ^ 63) : ∃ mant exp den, 0 < den ∧
    decode (ofInteger n) = .finite (decide (n < 0)) mant exp ∧
      toFraction mant exp = (rounded n.natAbs * den, den) := by
  by_cases hzero : n = 0
  · subst hzero
    exact ⟨0, -1074, 2 ^ 1074, Nat.two_pow_pos _, by decide +kernel, by decide +kernel⟩
  have hm : n.natAbs ≠ 0 := Int.natAbs_ne_zero.2 hzero
  unfold ofInteger bitsOfNat
  rw [if_neg hm]
  generalize n.natAbs = m at hn hm ⊢
  have he : m.log2 ≤ 63 := Nat.le_of_lt_succ ((Nat.log2_lt hm).2 (by omega))
  obtain ⟨hlo, hhi⟩ := significand_bounds hm
  have hsig := significand_eq m
  have hdecode := decode_ofBits (decide (n < 0)) he hlo hhi
  simp only [decide_eq_true_eq] at hdecode
  simp only [Nat.pow_eq, hdecode]
  generalize roundHalfEven (m * 2 ^ 52) (2 ^ m.log2) = sig at hlo hhi hsig ⊢
  split
  · obtain ⟨den, hden, hwhole⟩ := toFraction_whole hsig
    refine ⟨sig, _, den, hden, rfl, ?_⟩
    rwa [show (m.log2 : Int) - 52 = ((m.log2 - 52 : Nat) : Int) - (52 - m.log2 : Nat) by omega]
  · -- rounded up to the next power of two
    have hcarry : 2 ^ 52 * 2 ^ (m.log2 - 52 + 1) = rounded m * 2 ^ (52 - m.log2) := by
      rw [← hsig, show sig = 2 ^ 53 by omega, ← Nat.pow_add, ← Nat.pow_add]
      congr 1
      omega
    obtain ⟨den, hden, hwhole⟩ := toFraction_whole hcarry
    refine ⟨2 ^ 52, _, den, hden, rfl, ?_⟩
    rwa [show (m.log2 : Int) - 51 = ((m.log2 - 52 + 1 : Nat) : Int) - (52 - m.log2 : Nat) by omega]

theorem signed_mul (neg : Bool) (w den : Nat) : signed neg (w * den) = signed neg w * den := by
  cases neg <;> simp [signed]

theorem decode_wholeTolerance : decode wholeTolerance = .finite false 6044629098073146 (-79) := by
  decide +kernel

theorem floor_whole {w : Nat} (hden : 0 < den) (h : toFraction mant exp = (w * den, den)) :
    floor neg mant exp = signed neg w := by
  unfold floor
  simp only [h, signed_mul]
  exact Int.mul_fdiv_cancel _ (by omega)

theorem isNearlyWhole_whole {w : Nat} (hden : 0 < den) (h : toFraction mant exp = (w * den, den)) :
    isNearlyWhole neg mant exp = true := by
  have htolerance : toFraction 6044629098073146 (-79) = (6044629098073146, 2 ^ 79) := rfl
  unfold isNearlyWhole
  simp only [h, decode_wholeTolerance, htolerance, signed_mul, Int.mul_fmod_left, decide_eq_true_eq]
  omega

/-- The step divides a number that has at most 53 bits up to its last binary one. -/
theorem step_dvd_iff : step m ∣ m ↔ ∃ k, 2 ^ k ∣ m ∧ m < 2 ^ (53 + k) := by
  constructor
  · intro h
    refine ⟨_, h, Nat.lt_of_lt_of_le Nat.lt_log2_self (Nat.pow_le_pow_right Nat.two_pos ?_)⟩
    omega
  · rintro ⟨k, hdvd, hlt⟩
    by_cases hm : m = 0
    · exact hm ▸ Nat.dvd_zero _
    have hlog := (Nat.log2_lt hm).2 hlt
    exact Nat.dvd_trans (Nat.pow_dvd_pow 2 (by omega)) hdvd

/-- **Which integers survive**: those with at most 53 bits up to their last binary one, and the
greatest one. -/
theorem held_eq_self_iff (hlo : -2 ^ 63 ≤ n) (hhi : n < 2 ^ 63) :
    held n = n ↔ n = 2 ^ 63 - 1 ∨ ∃ k, 2 ^ k ∣ n.natAbs ∧ n.natAbs < 2 ^ (53 + k) := by
  have hsigned : signed (decide (n < 0)) (rounded n.natAbs) = n ↔ rounded n.natAbs = n.natAbs := by
    unfold signed
    split <;> rename_i hneg <;> rw [decide_eq_true_eq] at hneg <;> omega
  have hclamp : ∀ x, clamp64 x = max (-2 ^ 63) (min x (2 ^ 63 - 1)) := fun _ => rfl
  rw [← step_dvd_iff, ← rounded_eq_self_iff, ← hsigned]
  constructor
  · intro h
    -- the range is left only past the greatest integer, since the least one is a power of two
    by_cases hlow : n = -2 ^ 63
    · right
      subst hlow
      decide +kernel
    · rw [held, hclamp] at h
      omega
  · rintro (rfl | h)
    · decide +kernel
    · rw [held, h, hclamp]
      omega

end Decimal

namespace Arena

theorem numberLabel_ofInteger (hn : n.natAbs ≤ 2 ^ 63) (pos : Pos) :
    numberLabel pos (Decimal.ofInteger n) =
      some { kind := .intConst, pos, value := some (.int (Decimal.held n)) } := by
  obtain ⟨mant, exp, den, hden, hdecode, hwhole⟩ := Decimal.decode_ofInteger hn
  unfold numberLabel Decimal.held
  simp only [hdecode, Decimal.isNearlyWhole_whole hden hwhole, Decimal.floor_whole hden hwhole,
    if_true]

theorem push_integer (a : Arena) (parent : Nat) (hn : n.natAbs ≤ 2 ^ 63) :
    a.push parent (.ofInt n) = .ok (a.addBelow parent
      { kind := .intConst, pos := a.pos parent, value := some (.int (Decimal.held n)) }) := by
  unfold Child.ofInt push
  simp only [numberLabel_ofInteger hn]

/-- **Pushing an integer**: it succeeds and appends an integer node, whose value is the integer
just if that survives. -/
theorem push_integer_iff {a : Arena} (hw : a.WellFormed) {parent : Nat} (hp : parent < a.size)
    (v : Int64) : ∃ b, a.push parent (.ofInt v.toInt) = .ok (b, a.size) ∧
      Changes (· = parent) (fun _ => False) a b ∧
      b.children parent = a.children parent ++ [a.size] ∧ b.children a.size = [] ∧
      b.label a.size = { kind := .intConst, pos := a.pos parent,
                         value := some (.int (Decimal.held v.toInt)) } ∧
      (Decimal.held v.toInt = v.toInt ↔ v.toInt = 2 ^ 63 - 1 ∨
        ∃ k, 2 ^ k ∣ v.toInt.natAbs ∧ v.toInt.natAbs < 2 ^ (53 + k)) := by
  have hlo : -2 ^ 63 ≤ v.toInt := Int64.le_toInt v
  have hhi : v.toInt < 2 ^ 63 := Int64.toInt_lt v
  obtain ⟨hchanges, -, hchildren, hleaf, hlabel⟩ := addBelow_changes hw hp
    { kind := .intConst, pos := a.pos parent, value := some (.int (Decimal.held v.toInt)) }
  exact ⟨_, push_integer a parent (by omega), hchanges, hchildren, hleaf, hlabel,
    Decimal.held_eq_self_iff hlo hhi⟩

theorem push_integer_greatest :
    ∃ b, (add {} { kind := .block }).1.push 0 (.ofInt (2 ^ 63 - 1)) = .ok (b, 1) ∧
      b.children 0 = [1] ∧
      b.label 1 = { kind := .intConst, value := some (.int (2 ^ 63 - 1)) } := by
  have hp : 0 < (add {} { kind := .block }).1.size := by decide
  obtain ⟨b, hpush, -, hchildren, -, hlabel, hkept⟩ :=
    push_integer_iff (wellFormed_empty.add _) hp (.ofInt (2 ^ 63 - 1))
  have hgreatest : (Int64.ofInt (2 ^ 63 - 1)).toInt = 2 ^ 63 - 1 := by decide
  rw [hkept.2 (.inl hgreatest), hgreatest] at hlabel
  rw [hgreatest] at hpush
  exact ⟨b, hpush, hchildren, hlabel⟩

/-- The first integer of 54 bits without a trailing zero is lost: its node holds the one before. -/
theorem integer_lost_between :
    ∃ b, (add {} { kind := .block }).1.push 0 (.ofInt (2 ^ 53 + 1)) = .ok (b, 1) ∧
      b.label 1 = { kind := .intConst, value := some (.int (2 ^ 53)) } := by
  have hheld : Decimal.held (2 ^ 53 + 1) = 2 ^ 53 := by decide +kernel
  refine ⟨_, (push_integer _ 0 (by decide)).trans (by rw [hheld]; rfl), rfl⟩

end Arena

end VecLang
