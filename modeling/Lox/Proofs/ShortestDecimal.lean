import Mathlib
import Lox.Number.Shortest

/-!
# The shortest decimal reads back as its double

A finite double `m · 2 ^ q` stands for the reals that round to it: from halfway to the double
below to halfway to the double above, the ends included when `m` is even
(`BinaryParts.Rounds`). The decimal that `Decimal.ofParts` selects lies among them
(`Decimal.ofParts_rounds`), so reading it back with correct rounding gives the double again.

Every exit of the digit search is tested against the interval except the last one, at
seventeen digits, which takes the nearer grid point untested. It is safe because seventeen digits
always suffice: the leading exponent is never overestimated (`leadingExponent_le`), so the grid
of the last count is finer than `10 ^ -16` times the double, and the nearer grid point lies
closer than half the gap to either neighbour.

Since the decimal rounds to its double, it falls on the same side as the double of any threshold
that no double's interval straddles; `le_value_ofParts_iff` says which thresholds those are,
and `thousandth_le_value_ofParts_iff` and `tenMillion_le_value_ofParts_iff` apply it to the
ends of the range Lox numbers are written positionally in.
-/

namespace Lox

namespace Decimal

/-- The exact value of a decimal. -/
def value (d : Decimal) : ℚ := d.digits * 10 ^ d.exponent

/-- A decimal whose digits end in no zero, or zero itself. -/
def Trimmed (d : Decimal) : Prop := d.digits = 0 ∨ d.digits % 10 ≠ 0

end Decimal

namespace BinaryParts

/-- The exact magnitude of a double. -/
def value (p : BinaryParts) : ℚ := p.significand * 2 ^ p.exponent

/-- The distance from the double down to the double below: a whole step, or half a step below a
power of two. -/
def gapBelow (p : BinaryParts) : ℚ :=
  if p.narrowBelow then 2 ^ (p.exponent - 1) else 2 ^ p.exponent

/-- The reals that round to the double to nearest, ties to even: from halfway to the double below
to halfway to the double above, the ends included when the significand is even. -/
def Rounds (p : BinaryParts) (r : ℚ) : Prop :=
  if p.significand % 2 = 0 then
    p.value - p.gapBelow / 2 ≤ r ∧ r ≤ p.value + 2 ^ p.exponent / 2
  else p.value - p.gapBelow / 2 < r ∧ r < p.value + 2 ^ p.exponent / 2

/-- The parts of a finite double: a significand of at most 53 bits, an exponent from the least
one, that of the subnormals, to that of the largest binade, a full significand above the
subnormals, and the narrow gap only at a bare power of two. -/
structure Finite (p : BinaryParts) : Prop where
  significand_lt : p.significand < 2 ^ 53
  exponent_ge : -1074 ≤ p.exponent
  exponent_le : p.exponent ≤ 971
  normal : -1074 < p.exponent → 2 ^ 52 ≤ p.significand
  narrow : p.narrowBelow = true → p.significand = 2 ^ 52

open Float.Model in
/-- A finite double does not have the all-ones exponent field of the infinities and NaNs. -/
theorem biased_ne_of_isFinite {x : Float} (hx : x.isFinite = true) :
    (x.toBits.toNat / 2 ^ 52) % 2048 ≠ 2047 := by
  intro h
  have hexp : @UnpackedFloat.unpackExponent Format.binary64 x.toModel.toBits.toBitVec =
      -1#11 := by
    apply BitVec.eq_of_toNat_eq
    simp only [UnpackedFloat.unpackExponent, BitVec.toNat_cast, BitVec.extractLsb_toNat,
      BitVec.neg_one_eq_allOnes, BitVec.toNat_allOnes, Nat.shiftRight_eq_div_pow]
    simpa [Float.toBits] using h
  simp only [Float.isFinite, Float.Model.isFinite, Float.Model.unpack, UnpackedFloat.unpack, hexp,
    if_true] at hx
  split at hx <;> simp [UnpackedFloat.isFinite] at hx

/-- The parts read off the bits of a finite double are those of a finite double. -/
theorem ofFloat_finite {x : Float} (hx : x.isFinite = true) : (ofFloat x).Finite := by
  have hb := biased_ne_of_isFinite hx
  have hfrac : x.toBits.toNat % 2 ^ 52 < 2 ^ 52 := Nat.mod_lt _ (by norm_num)
  have hbias : (x.toBits.toNat / 2 ^ 52) % 2048 < 2048 := Nat.mod_lt _ (by norm_num)
  unfold ofFloat
  simp only [Nat.pow_eq]
  split
  · -- a zero or subnormal: no hidden bit, the least exponent
    constructor <;> dsimp only <;> intros <;> first | omega | contradiction
  · -- a normal double: the hidden bit is set, the exponent field is neither 0 nor 2047
    constructor <;> dsimp only <;> intros <;> try omega
    next h =>
    simp only [Bool.and_eq_true, beq_iff_eq] at h
    omega

theorem gapBelow_pos (p : BinaryParts) : 0 < p.gapBelow := by
  unfold gapBelow
  split <;> positivity

theorem gapBelow_le (p : BinaryParts) : p.gapBelow ≤ 2 ^ p.exponent := by
  unfold gapBelow
  split
  · exact zpow_le_zpow_right₀ (by norm_num) (by omega)
  · exact le_rfl

/-- A real strictly inside the interval rounds to the double, whichever the parity. -/
theorem rounds_of_lt {p : BinaryParts} {x : ℚ} (hlow : p.value - p.gapBelow / 2 < x)
    (hhigh : x < p.value + 2 ^ p.exponent / 2) : p.Rounds x := by
  unfold Rounds
  split
  · exact ⟨hlow.le, hhigh.le⟩
  · exact ⟨hlow, hhigh⟩

theorem rounds_value (p : BinaryParts) : p.Rounds p.value := by
  have := p.gapBelow_pos
  have : (0 : ℚ) < 2 ^ p.exponent := by positivity
  exact rounds_of_lt (by linarith) (by linarith)

theorem Rounds.bounds {p : BinaryParts} {x : ℚ} (h : p.Rounds x) :
    p.value - p.gapBelow / 2 ≤ x ∧ x ≤ p.value + 2 ^ p.exponent / 2 := by
  unfold Rounds at h
  split at h
  · exact h
  · exact ⟨h.1.le, h.2.le⟩

end BinaryParts

theorem zpow_mul_pow_toNat {a : ℚ} (ha : a ≠ 0) (k : ℤ) : a ^ k * a ^ (-k).toNat = a ^ k.toNat := by
  rcases le_or_gt 0 k with hk | hk
  · have h0 : (-k).toNat = 0 := Int.toNat_of_nonpos (by omega)
    rw [h0, pow_zero, mul_one, ← zpow_natCast, Int.toNat_of_nonneg hk]
  · have h0 : k.toNat = 0 := Int.toNat_of_nonpos (by omega)
    rw [h0, pow_zero, ← zpow_natCast, Int.toNat_of_nonneg (by omega), ← zpow_add₀ ha]
    simp

theorem compare_congr {α β : Type} [LinearOrder α] [LinearOrder β] {a b : α} {c d : β}
    (hlt : a < b ↔ c < d) (heq : a = b ↔ c = d) : compare a b = compare c d := by
  rcases lt_trichotomy a b with h | h | h
  · rw [compare_lt_iff_lt.mpr h, compare_lt_iff_lt.mpr (hlt.mp h)]
  · rw [compare_eq_iff_eq.mpr h, compare_eq_iff_eq.mpr (heq.mp h)]
  · have hcd : d < c := by
      rcases lt_trichotomy c d with h' | h' | h'
      · exact absurd (hlt.mpr h') (not_lt.mpr h.le)
      · exact absurd (heq.mpr h') h.ne'
      · exact h'
    rw [compare_gt_iff_gt.mpr h, compare_gt_iff_gt.mpr hcd]

namespace Decimal

/-- `compareScaled` compares the two rationals it stands for. -/
theorem compareScaled_eq (c : ℕ) (k : ℤ) (n : ℕ) (s : ℤ) :
    compareScaled c k n s = compare ((c : ℚ) * 10 ^ k) ((n : ℚ) * 2 ^ s) := by
  -- both sides are multiplied by the positive `10 ^ (-k).toNat * 2 ^ (-s).toNat`
  have hX : (0 : ℚ) < 10 ^ (-k).toNat * 2 ^ (-s).toNat := by positivity
  have hleft : ((c * Nat.pow 10 k.toNat * Nat.pow 2 (-s).toNat : ℕ) : ℚ) =
      (c : ℚ) * 10 ^ k * (10 ^ (-k).toNat * 2 ^ (-s).toNat) := by
    push_cast [Nat.pow_eq]
    rw [← zpow_mul_pow_toNat (by norm_num : (10 : ℚ) ≠ 0) k]
    ring
  have hright : ((n * Nat.pow 2 s.toNat * Nat.pow 10 (-k).toNat : ℕ) : ℚ) =
      (n : ℚ) * 2 ^ s * (10 ^ (-k).toNat * 2 ^ (-s).toNat) := by
    push_cast [Nat.pow_eq]
    rw [← zpow_mul_pow_toNat (by norm_num : (2 : ℚ) ≠ 0) s]
    ring
  unfold compareScaled
  refine compare_congr ?_ ?_
  · rw [← Nat.cast_lt (α := ℚ), hleft, hright]
    exact mul_lt_mul_iff_left₀ hX
  · rw [← Nat.cast_inj (R := ℚ), hleft, hright]
    exact mul_left_inj' hX.ne'

theorem compareScaled_lt_iff {c : ℕ} {k : ℤ} {n : ℕ} {s : ℤ} :
    compareScaled c k n s = .lt ↔ (c : ℚ) * 10 ^ k < n * 2 ^ s := by
  rw [compareScaled_eq, compare_lt_iff_lt]

theorem compareScaled_eq_iff {c : ℕ} {k : ℤ} {n : ℕ} {s : ℤ} :
    compareScaled c k n s = .eq ↔ (c : ℚ) * 10 ^ k = n * 2 ^ s := by
  rw [compareScaled_eq, compare_eq_iff_eq]

theorem compareScaled_gt_iff {c : ℕ} {k : ℤ} {n : ℕ} {s : ℤ} :
    compareScaled c k n s = .gt ↔ n * 2 ^ s < (c : ℚ) * 10 ^ k := by
  rw [compareScaled_eq, compare_gt_iff_gt]

/-- `floorScaled n s k` is the grid point of step `10 ^ k` at or below `n · 2 ^ s`. -/
theorem floorScaled_le (n : ℕ) (s k : ℤ) :
    (floorScaled n s k : ℚ) * 10 ^ k ≤ n * 2 ^ s := by
  have h := Nat.div_mul_le_self (n * Nat.pow 2 s.toNat * Nat.pow 10 (-k).toNat)
    (Nat.pow 2 (-s).toNat * Nat.pow 10 k.toNat)
  have hX : (0 : ℚ) < 10 ^ (-k).toNat * 2 ^ (-s).toNat := by positivity
  rw [← mul_le_mul_iff_left₀ hX]
  rw [← Nat.cast_le (α := ℚ)] at h
  push_cast [Nat.pow_eq] at h
  calc (floorScaled n s k : ℚ) * 10 ^ k * (10 ^ (-k).toNat * 2 ^ (-s).toNat)
      = (floorScaled n s k : ℚ) * ((10 ^ k * 10 ^ (-k).toNat) * 2 ^ (-s).toNat) := by ring
    _ = (floorScaled n s k : ℚ) * (2 ^ (-s).toNat * 10 ^ k.toNat) := by
        rw [zpow_mul_pow_toNat (by norm_num) k]; ring
    _ ≤ n * 2 ^ s.toNat * 10 ^ (-k).toNat := h
    _ = n * 2 ^ s * (10 ^ (-k).toNat * 2 ^ (-s).toNat) := by
        rw [← zpow_mul_pow_toNat (by norm_num : (2 : ℚ) ≠ 0) s]; ring

/-- The grid point after `floorScaled n s k` lies above `n · 2 ^ s`. -/
theorem lt_floorScaled_succ (n : ℕ) (s k : ℤ) :
    (n : ℚ) * 2 ^ s < (floorScaled n s k + 1 : ℕ) * 10 ^ k := by
  have hD : 0 < Nat.pow 2 (-s).toNat * Nat.pow 10 k.toNat := by
    simp only [Nat.pow_eq]; positivity
  have h := Nat.lt_mul_div_succ (n * Nat.pow 2 s.toNat * Nat.pow 10 (-k).toNat) hD
  have hX : (0 : ℚ) < 10 ^ (-k).toNat * 2 ^ (-s).toNat := by positivity
  rw [← mul_lt_mul_iff_left₀ hX]
  rw [← Nat.cast_lt (α := ℚ)] at h
  push_cast [Nat.pow_eq] at h
  calc (n : ℚ) * 2 ^ s * (10 ^ (-k).toNat * 2 ^ (-s).toNat)
      = n * 2 ^ s.toNat * 10 ^ (-k).toNat := by
        rw [← zpow_mul_pow_toNat (by norm_num : (2 : ℚ) ≠ 0) s]; ring
    _ < (floorScaled n s k + 1 : ℕ) * (2 ^ (-s).toNat * 10 ^ k.toNat) := by
        push_cast
        simpa [floorScaled, Nat.pow_eq, mul_comm, mul_left_comm, mul_assoc] using h
    _ = (floorScaled n s k + 1 : ℕ) * 10 ^ k * (10 ^ (-k).toNat * 2 ^ (-s).toNat) := by
        rw [← zpow_mul_pow_toNat (by norm_num : (10 : ℚ) ≠ 0) k]; ring

/-- Removing trailing zeros keeps the value. -/
theorem value_trimZeros : ∀ (fuel c : ℕ) (k : ℤ), (trimZeros fuel c k).value = c * 10 ^ k
  | 0, c, k => rfl
  | fuel + 1, c, k => by
    unfold trimZeros
    split
    · next h =>
      rw [value_trimZeros fuel]
      obtain ⟨c', rfl⟩ := Nat.dvd_of_mod_eq_zero h.2
      rw [Nat.mul_div_cancel_left c' (by norm_num), zpow_add_one₀ (by norm_num)]
      push_cast
      ring
    · rfl

/-- With as much fuel as the digits, every trailing zero is removed. -/
theorem trimmed_trimZeros : ∀ (fuel c : ℕ) (k : ℤ), c ≤ fuel → (trimZeros fuel c k).Trimmed
  | 0, c, k, h => by
    rw [trimZeros]
    exact .inl (Nat.le_zero.mp h)
  | fuel + 1, c, k, h => by
    unfold trimZeros
    split
    · next hc =>
      -- a nonzero multiple of ten is at least ten, so a tenth of it fits the fuel left
      exact trimmed_trimZeros fuel (c / 10) (k + 1) (by omega)
    · next hc =>
      by_cases hz : c = 0
      · exact .inl hz
      · exact .inr fun h10 => hc ⟨hz, h10⟩

theorem value_normal (c : ℕ) (k : ℤ) : (normal c k).value = c * 10 ^ k :=
  value_trimZeros c c k

theorem trimmed_normal (c : ℕ) (k : ℤ) : (normal c k).Trimmed :=
  trimmed_trimZeros c c k le_rfl

/-- `1233 / 4096` lies just below `log₁₀ 2`: `10 ^ 1233 ≤ 2 ^ 4096 ≤ 2 · 10 ^ 1233`. -/
theorem tenPow_1233_le : (10 : ℕ) ^ 1233 ≤ 2 ^ 4096 := by decide +kernel

theorem twoPow_4096_le : (2 : ℕ) ^ 4096 ≤ 2 * 10 ^ 1233 := by decide +kernel

/-- The estimate `⌊t · 1233 / 4096⌋` of `t · log₁₀ 2` overshoots the power of ten below `2 ^ t`
by at most one, for every `t` from `-4096` on. -/
theorem tenPow_estimate_le (t : ℤ) (ht : -4096 ≤ t) :
    (10 : ℚ) ^ (t * 1233 / 4096 - 1) ≤ 2 ^ t := by
  rcases le_or_gt 0 t with h | h
  · -- `t = u ≥ 0`: the estimate is at most `u · log₁₀ 2`
    obtain ⟨u, rfl⟩ := Int.eq_ofNat_of_zero_le h
    have hdiv : (u : ℤ) * 1233 / 4096 = ((u * 1233 / 4096 : ℕ) : ℤ) := by omega
    have hnat : 10 ^ (u * 1233 / 4096) ≤ 2 ^ u := by
      rw [← Nat.pow_le_pow_iff_left (n := 4096) (by norm_num)]
      calc (10 ^ (u * 1233 / 4096)) ^ 4096 = 10 ^ (u * 1233 / 4096 * 4096) := by rw [← pow_mul]
        _ ≤ 10 ^ (1233 * u) := Nat.pow_le_pow_right (by norm_num) (by omega)
        _ = (10 ^ 1233) ^ u := by rw [pow_mul]
        _ ≤ (2 ^ 4096) ^ u := Nat.pow_le_pow_left tenPow_1233_le u
        _ = (2 ^ u) ^ 4096 := by rw [← pow_mul, ← pow_mul, mul_comm]
    rw [hdiv]
    calc (10 : ℚ) ^ (((u * 1233 / 4096 : ℕ) : ℤ) - 1)
        ≤ 10 ^ ((u * 1233 / 4096 : ℕ) : ℤ) := zpow_le_zpow_right₀ (by norm_num) (by omega)
      _ = ((10 ^ (u * 1233 / 4096) : ℕ) : ℚ) := by rw [zpow_natCast, Nat.cast_pow, Nat.cast_ofNat]
      _ ≤ ((2 ^ u : ℕ) : ℚ) := by exact_mod_cast hnat
      _ = 2 ^ (u : ℤ) := by rw [zpow_natCast, Nat.cast_pow, Nat.cast_ofNat]
  · -- `t = -u < 0`: the estimate is `-⌈u · 1233 / 4096⌉`, and `2 ^ u ≤ 10 ^ (⌈…⌉ + 1)`
    obtain ⟨u, hu⟩ : ∃ u : ℕ, t = -u := ⟨t.natAbs, by omega⟩
    have hdiv : t * 1233 / 4096 = -(((u * 1233 + 4095) / 4096 : ℕ) : ℤ) := by omega
    set c := (u * 1233 + 4095) / 4096
    have hnat : 2 ^ u ≤ 10 ^ (c + 1) := by
      rw [← Nat.pow_le_pow_iff_left (n := 4096) (by norm_num)]
      have hsmall : 2 ^ u ≤ 10 ^ 4096 :=
        calc 2 ^ u ≤ 2 ^ 4096 := Nat.pow_le_pow_right (by norm_num) (by omega)
          _ ≤ 10 ^ 4096 := pow_le_pow_left₀ (by norm_num) (by norm_num) 4096
      calc (2 ^ u) ^ 4096 = (2 ^ 4096) ^ u := by rw [← pow_mul, ← pow_mul, mul_comm]
        _ ≤ (2 * 10 ^ 1233) ^ u := Nat.pow_le_pow_left twoPow_4096_le u
        _ = 2 ^ u * 10 ^ (1233 * u) := by rw [mul_pow, pow_mul]
        _ ≤ 10 ^ 4096 * 10 ^ (1233 * u) := Nat.mul_le_mul_right _ hsmall
        _ = 10 ^ (4096 + 1233 * u) := by rw [pow_add]
        _ ≤ 10 ^ ((c + 1) * 4096) := Nat.pow_le_pow_right (by norm_num) (by omega)
        _ = (10 ^ (c + 1)) ^ 4096 := by rw [pow_mul]
    rw [hdiv, hu, show -(c : ℤ) - 1 = -((c + 1 : ℕ) : ℤ) by push_cast; ring, zpow_neg, zpow_neg,
      zpow_natCast, zpow_natCast]
    exact inv_anti₀ (by positivity) (by exact_mod_cast hnat)

theorem twoPow_log2_le {n : ℕ} (hn : 0 < n) (s : ℤ) :
    (2 : ℚ) ^ ((Nat.log2 n : ℤ) + s) ≤ n * 2 ^ s := by
  rw [zpow_add₀ (by norm_num), zpow_natCast]
  have h : ((2 ^ Nat.log2 n : ℕ) : ℚ) ≤ n := by exact_mod_cast Nat.log2_self_le hn.ne'
  push_cast at h
  exact mul_le_mul_of_nonneg_right h (by positivity)

variable {n : ℕ} {s : ℤ}

/-- A raising step of `leadingExponent` keeps a power of ten one below the candidate at or below
the value: it raises only when the next power is still at or below it. -/
theorem raise_keeps {e : ℤ} (he : (10 : ℚ) ^ (e - 1) ≤ n * 2 ^ s) :
    (10 : ℚ) ^ ((if compareScaled 1 (e + 1) n s != .gt then e + 1 else e) - 1) ≤ n * 2 ^ s := by
  split
  · next h =>
    have hle : ¬ (n : ℚ) * 2 ^ s < ((1 : ℕ) : ℚ) * 10 ^ (e + 1) := by
      rw [← compareScaled_gt_iff]
      simpa using h
    simp only [add_sub_cancel_right]
    calc (10 : ℚ) ^ e ≤ 10 ^ (e + 1) := zpow_le_zpow_right₀ (by norm_num) (by omega)
      _ ≤ n * 2 ^ s := by simpa using not_lt.mp hle
  · exact he

/-- The last step of `leadingExponent` settles the candidate at a power of ten at or below the
value. -/
theorem settle_le {e : ℤ} (he : (10 : ℚ) ^ (e - 1) ≤ n * 2 ^ s) :
    (10 : ℚ) ^ (if compareScaled 1 e n s == .gt then e - 1 else e) ≤ n * 2 ^ s := by
  split
  · exact he
  · next h =>
    have hle : ¬ (n : ℚ) * 2 ^ s < ((1 : ℕ) : ℚ) * 10 ^ e := by
      rw [← compareScaled_gt_iff]
      simpa using h
    simpa using not_lt.mp hle

/-- The leading exponent is never overestimated: its power of ten lies at or below the value. -/
theorem leadingExponent_le (hn : 0 < n) (hs : -4096 ≤ (Nat.log2 n : ℤ) + s) :
    (10 : ℚ) ^ leadingExponent n s ≤ n * 2 ^ s := by
  have h0 := (tenPow_estimate_le _ hs).trans (twoPow_log2_le hn s)
  unfold leadingExponent
  exact settle_le (raise_keeps (raise_keeps h0))

namespace Interval

variable {p : BinaryParts}

theorem ofParts_scale (p : BinaryParts) : (ofParts p).scale = p.exponent - 2 := rfl

theorem value_ofParts (p : BinaryParts) :
    ((ofParts p).value : ℚ) * 2 ^ (ofParts p).scale = p.value := by
  simp only [ofParts, BinaryParts.value]
  rw [zpow_sub₀ (by norm_num)]
  push_cast
  field_simp

theorem low_ofParts (hm : 0 < p.significand) :
    ((ofParts p).low : ℚ) * 2 ^ (ofParts p).scale = p.value - p.gapBelow / 2 := by
  simp only [ofParts, BinaryParts.value, BinaryParts.gapBelow]
  split
  · rw [Nat.cast_sub (by omega), zpow_sub₀ (by norm_num), zpow_sub₀ (by norm_num)]
    push_cast
    field_simp
    ring
  · rw [Nat.cast_sub (by omega), zpow_sub₀ (by norm_num)]
    push_cast
    field_simp
    ring

theorem high_ofParts (p : BinaryParts) :
    ((ofParts p).high : ℚ) * 2 ^ (ofParts p).scale = p.value + 2 ^ p.exponent / 2 := by
  simp only [ofParts, BinaryParts.value]
  rw [zpow_sub₀ (by norm_num)]
  push_cast
  field_simp
  ring

/-- The interval's test is membership in the reals that round to the double. -/
theorem holds_ofParts_iff (hm : 0 < p.significand) (c : ℕ) (k : ℤ) :
    (ofParts p).holds c k = true ↔ p.Rounds (c * 10 ^ k) := by
  unfold holds BinaryParts.Rounds
  rw [compareScaled_eq, compareScaled_eq, low_ofParts hm, high_ofParts]
  have hclosed : (ofParts p).closed = (p.significand % 2 == 0) := rfl
  by_cases he : p.significand % 2 = 0
  · simp only [hclosed, he, beq_self_eq_true, if_true, Bool.and_eq_true, bne_iff_ne, ne_eq,
      compare_lt_iff_lt, compare_gt_iff_gt, not_lt]
  · simp only [hclosed, he, beq_iff_eq, if_false, Bool.and_eq_true,
      compare_gt_iff_gt, compare_lt_iff_lt]

end Interval

variable {p : BinaryParts}

/-- Of the two grid points around the double, `nearer` takes one at most half a step from it. -/
theorem nearer_near (p : BinaryParts) (c : ℕ) (k : ℤ)
    (hlow : (c : ℚ) * 10 ^ k ≤ p.value) (hhigh : p.value < (c + 1 : ℕ) * 10 ^ k) :
    ((Interval.ofParts p).nearer c k = c ∨ (Interval.ofParts p).nearer c k = c + 1) ∧
      |((Interval.ofParts p).nearer c k : ℚ) * 10 ^ k - p.value| ≤ 10 ^ k / 2 := by
  have hv : ((2 * (Interval.ofParts p).value : ℕ) : ℚ) * 2 ^ (Interval.ofParts p).scale =
      2 * p.value := by
    push_cast
    rw [mul_assoc, Interval.value_ofParts]
  push_cast at hhigh
  unfold Interval.nearer
  split
  · next h =>
    -- the midpoint of the two lies above the double: the lower one is nearer
    rw [compareScaled_gt_iff, hv] at h
    push_cast at h
    refine ⟨.inl rfl, abs_le.mpr ⟨by linarith, by linarith⟩⟩
  · next h =>
    rw [compareScaled_lt_iff, hv] at h
    push_cast at h
    refine ⟨.inr rfl, abs_le.mpr ⟨by push_cast; linarith, by push_cast; linarith⟩⟩
  · next h =>
    -- a tie: both are half a step away
    rw [compareScaled_eq_iff, hv] at h
    push_cast at h
    split
    · exact ⟨.inl rfl, abs_le.mpr ⟨by linarith, by linarith⟩⟩
    · exact ⟨.inr rfl, abs_le.mpr ⟨by push_cast; linarith, by push_cast; linarith⟩⟩

/-- Seventeen digits suffice: a real within half a step of a grid `10 ^ 16` times finer than
the leading power of ten rounds to the double. -/
theorem rounds_of_near (hp : p.Finite) {e k : ℤ} (he : (10 : ℚ) ^ e ≤ p.value)
    (hk : k ≤ e - 16) {x : ℚ} (hx : |x - p.value| ≤ 10 ^ k / 2) : p.Rounds x := by
  have hstep : (10 : ℚ) ^ k * 10 ^ 16 ≤ p.value :=
    calc (10 : ℚ) ^ k * 10 ^ 16 = 10 ^ (k + 16) := by
          rw [zpow_add₀ (by norm_num)]
          norm_num
      _ ≤ 10 ^ e := zpow_le_zpow_right₀ (by norm_num) (by omega)
      _ ≤ p.value := he
  -- a significand of at most 53 bits is below 10 ^ 16, and half of one below a power of two
  have hgap : p.value < 10 ^ 16 * p.gapBelow := by
    have hq : (0 : ℚ) < 2 ^ p.exponent := by positivity
    unfold BinaryParts.value BinaryParts.gapBelow
    split
    · next hn =>
      rw [hp.narrow hn, zpow_sub₀ (by norm_num)]
      push_cast
      nlinarith
    · have hm : (p.significand : ℚ) < 10 ^ 16 := by
        exact_mod_cast hp.significand_lt.trans (by norm_num)
      exact mul_lt_mul_of_pos_right hm hq
  have hfine : (10 : ℚ) ^ k < p.gapBelow := by
    have : (10 : ℚ) ^ k * 10 ^ 16 < p.gapBelow * 10 ^ 16 := by linarith
    exact lt_of_mul_lt_mul_right this (by norm_num)
  have hle := p.gapBelow_le
  rw [abs_le] at hx
  exact BinaryParts.rounds_of_lt (by linarith) (by linarith)

/-- One step of the search: each exit that tests the interval returns a decimal in it, and the
untested exit comes only at seventeen digits. -/
theorem search_succ_rounds (hp : p.Finite) (hm : 0 < p.significand) {e : ℤ}
    (he : (10 : ℚ) ^ e ≤ p.value) (left n : ℕ) (hlast : left = 0 → 17 ≤ n)
    (hrest : left ≠ 0 → p.Rounds ((Interval.ofParts p).search e left (n + 1)).value) :
    p.Rounds ((Interval.ofParts p).search e (left + 1) n).value := by
  have hlow := floorScaled_le (Interval.ofParts p).value (Interval.ofParts p).scale (e - n + 1)
  have hhigh :=
    lt_floorScaled_succ (Interval.ofParts p).value (Interval.ofParts p).scale (e - n + 1)
  rw [Interval.value_ofParts] at hlow hhigh
  have hnear := nearer_near p _ _ hlow hhigh
  rw [Interval.search]
  dsimp only
  split
  · next hexact =>
    -- the grid point is the double itself
    rw [beq_iff_eq, compareScaled_eq_iff, Interval.value_ofParts] at hexact
    rw [value_normal, hexact]
    exact p.rounds_value
  · split
    · next hboth =>
      rw [Bool.and_eq_true] at hboth
      rw [value_normal]
      rcases hnear.1 with h | h <;> rw [h]
      · exact (Interval.holds_ofParts_iff hm _ _).mp hboth.1
      · exact_mod_cast (Interval.holds_ofParts_iff hm _ _).mp hboth.2
    · split
      · next hone =>
        rw [value_normal]
        exact (Interval.holds_ofParts_iff hm _ _).mp hone
      · split
        · next hone =>
          rw [value_normal]
          exact_mod_cast (Interval.holds_ofParts_iff hm _ _).mp hone
        · split
          · next h0 =>
            rw [value_normal]
            exact rounds_of_near hp he (by have := hlast h0; omega) hnear.2
          · next h0 => exact hrest h0

/-- The search from any count with seventeen counts in reach returns a decimal that rounds to
the double. -/
theorem search_rounds (hp : p.Finite) (hm : 0 < p.significand) {e : ℤ}
    (he : (10 : ℚ) ^ e ≤ p.value) :
    ∀ (left n : ℕ), 17 ≤ n + left →
      p.Rounds ((Interval.ofParts p).search e (left + 1) n).value
  | 0, n, hn => search_succ_rounds hp hm he 0 n (fun _ => by omega) (fun h => absurd rfl h)
  | left + 1, n, hn =>
    search_succ_rounds hp hm he (left + 1) n (fun h => absurd h (by omega))
      fun _ => search_rounds hp hm he left (n + 1) (by omega)

/-- The decimal `ofParts` selects for a finite double rounds to it: it is zero for a zero, the
integer itself for an integer below `2 ^ 53`, and otherwise what the search returns. -/
theorem ofParts_rounds (hp : p.Finite) : p.Rounds (ofParts p).value := by
  unfold ofParts
  split
  · next hz =>
    have hv : p.value = 0 := by simp [BinaryParts.value, hz]
    have hd : (⟨0, 0⟩ : Decimal).value = p.value := by simp [value, hv]
    rw [hd]
    exact p.rounds_value
  · next hm =>
    split
    · next hint =>
      -- an integer: the significand is a multiple of the power of two it is divided by
      obtain ⟨hq, hdvd⟩ := hint
      obtain ⟨c, hc⟩ := Nat.dvd_of_mod_eq_zero hdvd
      have hd : (normal (p.significand / Nat.pow 2 (-p.exponent).toNat) 0).value = p.value := by
        set K := (-p.exponent).toNat
        have hexp : p.exponent = -(K : ℤ) := by omega
        have hpos : 0 < Nat.pow 2 K := by simp only [Nat.pow_eq]; positivity
        rw [value_normal, BinaryParts.value, hc, Nat.mul_div_cancel_left _ hpos, hexp, zpow_neg,
          zpow_natCast]
        push_cast [Nat.pow_eq]
        field_simp
      rw [hd]
      exact p.rounds_value
    · -- the search, from one digit with sixteen more counts to try
      have hm' : 0 < p.significand := Nat.pos_of_ne_zero hm
      have hn : 0 < (Interval.ofParts p).value := by simp [Interval.ofParts]; omega
      have hlog : -4096 ≤ (Nat.log2 (Interval.ofParts p).value : ℤ) + (Interval.ofParts p).scale := by
        rw [Interval.ofParts_scale]
        have := hp.exponent_ge
        omega
      have he := leadingExponent_le hn hlog
      rw [Interval.value_ofParts] at he
      exact search_rounds hp hm' he 16 1 (by norm_num)

theorem search_trimmed (r : Interval) (e : ℤ) :
    ∀ (left n : ℕ), (r.search e left n).Trimmed
  | 0, _ => .inl rfl
  | left + 1, n => by
    rw [Interval.search]
    dsimp only
    repeat' split
    all_goals first | exact trimmed_normal _ _ | exact search_trimmed r e left (n + 1)

/-- The selected decimal has no trailing zero. -/
theorem ofParts_trimmed (p : BinaryParts) : (ofParts p).Trimmed := by
  unfold ofParts
  split
  · exact .inl rfl
  · split
    · exact trimmed_normal _ _
    · exact search_trimmed _ _ _ _

/-- Distinct naturals are a whole step apart, so the half steps around them do not overlap. -/
theorem natCast_add_half_le {a b : ℕ} (h : a < b) : (a : ℚ) + 1 / 2 ≤ b - 1 / 2 := by
  have hstep : (a : ℚ) + 1 ≤ b := by exact_mod_cast h
  linarith

/-- The selected decimal does not depend on the sign. -/
theorem ofParts_unsigned (p : BinaryParts) : ofParts p = ofParts { p with negative := false } := by
  cases p
  rfl

/-- A threshold `T` that lies above the interval of the double just below `M · 2 ^ Q` and at or
below `M · 2 ^ Q`, whose own decimal is not below `T`, is straddled by no interval: the decimal
of every finite nonzero double lies on the same side of `T` as the double. -/
theorem le_value_ofParts_iff {T : ℚ} {M : ℕ} {Q : ℤ} (hQ : -1074 < Q) (hM : 2 ^ 52 < M)
    (hM' : M < 2 ^ 53) (hbelow : ((M : ℚ) - 1 / 2) * 2 ^ Q < T) (hat : T ≤ M * 2 ^ Q)
    (hsel : T ≤ (ofParts ⟨false, M, Q, false⟩).value) (hp : p.Finite)
    (hm : 0 < p.significand) :
    T ≤ (ofParts p).value ↔ T ≤ p.value := by
  obtain ⟨hlo, hhi⟩ := (ofParts_rounds hp).bounds
  have hgap := p.gapBelow_le
  have hq : (0 : ℚ) < 2 ^ p.exponent := by positivity
  have hQ2 : (0 : ℚ) < 2 ^ Q := by positivity
  have hv : p.value = p.significand * 2 ^ p.exponent := rfl
  -- the selected decimal lies within half a step of the double
  have hlo' : ((p.significand : ℚ) - 1 / 2) * 2 ^ p.exponent ≤ (ofParts p).value := by
    linarith
  have hhi' : (ofParts p).value ≤ ((p.significand : ℚ) + 1 / 2) * 2 ^ p.exponent := by
    linarith
  have hMQ : (2 : ℚ) ^ 52 * 2 ^ Q < T := by
    have h52 : (2 : ℚ) ^ 52 ≤ (M : ℚ) - 1 / 2 := by
      have := natCast_add_half_le hM
      push_cast at this
      linarith
    exact (mul_le_mul_of_nonneg_right h52 hQ2.le).trans_lt hbelow
  rcases lt_trichotomy p.exponent Q with hqQ | hqQ | hqQ
  · -- a lower binade: the double and its interval lie below `2 ^ 52 · 2 ^ Q`
    have hstep : (2 : ℚ) ^ p.exponent * 2 ≤ 2 ^ Q := by
      rw [← zpow_add_one₀ (by norm_num)]
      exact zpow_le_zpow_right₀ (by norm_num) (by omega)
    have hsig : (p.significand : ℚ) + 1 / 2 ≤ 2 ^ 53 := by
      have := natCast_add_half_le hp.significand_lt
      push_cast at this
      linarith
    have htop : ((p.significand : ℚ) + 1 / 2) * 2 ^ p.exponent < T :=
      calc ((p.significand : ℚ) + 1 / 2) * 2 ^ p.exponent ≤ 2 ^ 53 * 2 ^ p.exponent :=
            mul_le_mul_of_nonneg_right hsig hq.le
        _ = 2 ^ 52 * (2 ^ p.exponent * 2) := by ring
        _ ≤ 2 ^ 52 * 2 ^ Q := mul_le_mul_of_nonneg_left hstep (by positivity)
        _ < T := hMQ
    constructor <;> intro h <;> linarith
  · -- the same binade: the significands decide
    rw [hqQ] at hlo' hhi' hv
    rcases lt_trichotomy p.significand M with hmM | hmM | hmM
    · have htop := mul_le_mul_of_nonneg_right (natCast_add_half_le hmM) hQ2.le
      constructor <;> intro h <;> linarith
    · -- the double `M · 2 ^ Q` itself, with its own decimal
      have hnb : p.narrowBelow = false := by
        cases h : p.narrowBelow
        · rfl
        · have := hp.narrow h
          omega
      have hsame : ofParts p = ofParts ⟨false, M, Q, false⟩ := by
        rw [ofParts_unsigned]
        obtain ⟨neg, m, q, nb⟩ := p
        simp_all
      rw [hsame, hv, hmM]
      exact ⟨fun _ => hat, fun _ => hsel⟩
    · have hbot := mul_le_mul_of_nonneg_right (natCast_add_half_le hmM) hQ2.le
      constructor <;> intro h <;> linarith
  · -- a higher binade: the double is normal and lies, with its interval, above `M · 2 ^ Q`
    have hnorm : ((2 ^ 52 : ℕ) : ℚ) ≤ p.significand := by exact_mod_cast hp.normal (by omega)
    push_cast at hnorm
    have hstep : (2 : ℚ) ^ Q * 2 ≤ 2 ^ p.exponent := by
      rw [← zpow_add_one₀ (by norm_num)]
      exact zpow_le_zpow_right₀ (by norm_num) (by omega)
    have hMtop : (M : ℚ) ≤ 2 ^ 53 - 1 := by
      have := natCast_add_half_le hM'
      push_cast at this
      linarith
    have hbot : T ≤ ((p.significand : ℚ) - 1 / 2) * 2 ^ p.exponent :=
      calc T ≤ M * 2 ^ Q := hat
        _ ≤ (2 ^ 53 - 1) * 2 ^ Q := mul_le_mul_of_nonneg_right hMtop hQ2.le
        _ = (2 ^ 52 - 1 / 2) * (2 ^ Q * 2) := by ring
        _ ≤ ((p.significand : ℚ) - 1 / 2) * 2 ^ p.exponent :=
            mul_le_mul (by linarith) hstep (by positivity) (by linarith)
    constructor <;> intro h <;> linarith

/-- No interval straddles `1/1000`: the double just above it, `4611686018427388 · 2 ^ -62`, has
the decimal `0.001`. -/
theorem thousandth_le_value_ofParts_iff (hp : p.Finite) (hm : 0 < p.significand) :
    1 / 1000 ≤ (ofParts p).value ↔ 1 / 1000 ≤ p.value := by
  have hsel : ofParts ⟨false, 4611686018427388, -62, false⟩ = ⟨1, -3⟩ := by decide +kernel
  refine le_value_ofParts_iff (M := 4611686018427388) (Q := -62) (by norm_num) (by norm_num)
    (by norm_num) (by norm_num) (by norm_num) ?_ hp hm
  rw [hsel]
  norm_num [value]

/-- No interval straddles `10 ^ 7`, itself the double `5368709120000000 · 2 ^ -29`. -/
theorem tenMillion_le_value_ofParts_iff (hp : p.Finite) (hm : 0 < p.significand) :
    10 ^ 7 ≤ (ofParts p).value ↔ 10 ^ 7 ≤ p.value := by
  have hsel : ofParts ⟨false, 5368709120000000, -29, false⟩ = ⟨1, 7⟩ := by decide +kernel
  refine le_value_ofParts_iff (M := 5368709120000000) (Q := -29) (by norm_num) (by norm_num)
    (by norm_num) (by norm_num) (by norm_num) ?_ hp hm
  rw [hsel]
  norm_num [value]

end Decimal

end Lox
