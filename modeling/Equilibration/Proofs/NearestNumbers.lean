import Mathlib.Analysis.Real.Sqrt
import Mathlib.Tactic.FieldSimp
import Mathlib.Tactic.Linarith
import Mathlib.Tactic.Positivity
import Mathlib.Tactic.Ring
import Equilibration.Binary.Format

/-!
# NearestNumbers — what rounds to a number of a format

Around each number of a format lies the interval of the reals that it stands
in for (`Binary.Format.Captures`). A rounding to the nearest picks a power of
two from the size of the real and then the nearest multiple of it, the even
one of two (`Nearest`). `Captures.nearest` says that this ends at the number
whose interval holds the real, also where the interval reaches into the binade
below; `magnitude_eq` says it of the patterns. Both precisions and every
operation that rounds to the nearest go through that one lemma.
-/

namespace Equilibration

/-! ## Nearest whole numbers -/

/-- `n` is a whole number nearest to `z`, and the even one of two that are
equally near. -/
structure Nearest (z : ℝ) (n : ℕ) : Prop where
  near : |z - n| ≤ 1 / 2
  even_of_half : |z - n| = 1 / 2 → n % 2 = 0

theorem Nearest.unique {z : ℝ} {m n : ℕ} (hm : Nearest z m) (hn : Nearest z n) :
    m = n := by
  wlog hlt : m < n generalizing m n
  · rcases (not_lt.mp hlt).lt_or_eq with h | h
    · exact (this hn hm h).symm
    · exact h.symm
  -- two nearest numbers are neighbours with `z` halfway between them
  have hm' := abs_le.mp hm.near
  have hn' := abs_le.mp hn.near
  have hnext : n = m + 1 := by
    have hle : (n : ℝ) ≤ m + 1 := by linarith
    have : n ≤ m + 1 := by exact_mod_cast hle
    omega
  have hcast : (n : ℝ) = m + 1 := by exact_mod_cast hnext
  have heven := hm.even_of_half (by rw [abs_of_nonneg] <;> linarith)
  have heven' := hn.even_of_half (by rw [abs_of_nonpos] <;> linarith)
  omega

namespace Ratio

/-! ## Ratios as reals -/

/-- The real number that a ratio stands for. -/
noncomputable def real (r : Ratio) : ℝ := r.num / r.den

@[simp] theorem real_ofNat (n : ℕ) : (ofNat n).real = n := by simp [real, ofNat]

theorem cast_den_pos (r : Ratio) : (0 : ℝ) < r.den := by
  exact_mod_cast r.den_pos

theorem real_shift (r : Ratio) {base : ℕ} (hbase : 0 < base) (k : ℤ) :
    (r.shift base k hbase).real = r.real * (base : ℝ) ^ k := by
  have hb : (base : ℝ) ≠ 0 := by exact_mod_cast hbase.ne'
  have hsplit :
      (base : ℝ) ^ k = (base : ℝ) ^ k.toNat / (base : ℝ) ^ (-k).toNat := by
    rw [← zpow_natCast, ← zpow_natCast, ← zpow_sub₀ hb]
    congr 1
    omega
  have hnum :
      ((r.shift base k hbase).num : ℝ) = r.num * (base : ℝ) ^ k.toNat := by
    simp [shift]
  have hden :
      ((r.shift base k hbase).den : ℝ) = r.den * (base : ℝ) ^ (-k).toNat := by
    simp [shift]
  rw [real, hnum, hden, hsplit, real, div_mul_div_comm]

variable (r s : Ratio)

theorem le_iff : r.le s = true ↔ r.real ≤ s.real := by
  rw [le, decide_eq_true_iff, real, real,
    div_le_div_iff₀ r.cast_den_pos s.cast_den_pos]
  exact_mod_cast Iff.rfl

theorem lt_iff : r.lt s = true ↔ r.real < s.real := by
  rw [lt, decide_eq_true_iff, real, real,
    div_lt_div_iff₀ r.cast_den_pos s.cast_den_pos]
  exact_mod_cast Iff.rfl

/-- A ratio is its floor and a rest. -/
theorem real_eq_floor_add :
    r.real = r.floor + ((r.num % r.den : ℕ) : ℝ) / r.den := by
  have hden := r.cast_den_pos.ne'
  have hsplit : (r.num : ℝ) = r.den * r.floor + (r.num % r.den : ℕ) := by
    exact_mod_cast (Nat.div_add_mod r.num r.den).symm
  rw [real, hsplit]
  field_simp

theorem floor_le : (r.floor : ℝ) ≤ r.real := by
  rw [real_eq_floor_add]
  exact le_add_of_nonneg_right (by positivity)

theorem lt_floor_add_one : r.real < r.floor + 1 := by
  have hrest : ((r.num % r.den : ℕ) : ℝ) < r.den := by
    exact_mod_cast Nat.mod_lt r.num r.den_pos
  rw [real_eq_floor_add, add_lt_add_iff_left, div_lt_one r.cast_den_pos]
  exact hrest

theorem nearest_real : Nearest r.real r.nearest := by
  have hden := r.cast_den_pos
  have hrest0 : (0 : ℝ) ≤ ((r.num % r.den : ℕ) : ℝ) / r.den := by positivity
  have hrest1 := r.lt_floor_add_one
  have hsplit := r.real_eq_floor_add
  have hfloor : r.num / r.den = r.floor := rfl
  generalize hz : ((r.num % r.den : ℕ) : ℝ) / r.den = z at *
  have hbelow : 2 * (r.num % r.den) < r.den ↔ z < 1 / 2 := by
    rw [← hz, div_lt_div_iff₀ hden two_pos, one_mul, mul_comm]
    exact_mod_cast Iff.rfl
  have habove : r.den < 2 * (r.num % r.den) ↔ 1 / 2 < z := by
    rw [← hz, div_lt_div_iff₀ two_pos hden, one_mul, mul_comm]
    exact_mod_cast Iff.rfl
  unfold nearest
  simp only [hbelow, habove, hfloor]
  split
  · next h =>
    have habs : |r.real - r.floor| = z := by
      rw [hsplit, add_sub_cancel_left, abs_of_nonneg hrest0]
    exact ⟨habs.trans_le h.le, fun heq => absurd (habs ▸ heq) h.ne⟩
  · next h =>
    split
    · next h' =>
      have habs : |r.real - (r.floor + 1 : ℕ)| = 1 - z := by
        rw [hsplit] at hrest1 ⊢
        push_cast
        rw [abs_of_nonpos (by linarith)]
        ring
      exact ⟨by linarith, fun heq => by linarith⟩
    · next h' =>
      -- halfway
      have hhalf : z = 1 / 2 := le_antisymm (not_lt.mp h') (not_lt.mp h)
      rw [hsplit, hhalf]
      rcases Nat.mod_two_eq_zero_or_one r.floor with hpar | hpar
      · rw [hpar, add_zero]
        exact ⟨by rw [add_sub_cancel_left]; norm_num, fun _ => hpar⟩
      · rw [hpar]
        refine ⟨?_, fun _ => by omega⟩
        push_cast
        rw [show (r.floor : ℝ) + 1 / 2 - (r.floor + 1) = -(1 / 2) by ring]
        norm_num

variable {r}

/-- A power of the base below and one above a ratio decide its exponent. -/
theorem exponentFrom_spec {base : ℕ} (hbase : 0 < base) {g : ℤ}
    (hlow : (base : ℝ) ^ (g - 1) ≤ r.real)
    (hhigh : r.real < (base : ℝ) ^ (g + 1)) :
    (base : ℝ) ^ r.exponentFrom base g hbase ≤ r.real
      ∧ r.real < (base : ℝ) ^ (r.exponentFrom base g hbase + 1) := by
  have hpow : ((ofNat 1).shift base g hbase).real = (base : ℝ) ^ g := by
    rw [real_shift, real_ofNat, Nat.cast_one, one_mul]
  unfold exponentFrom
  split
  · next h =>
    rw [le_iff, hpow] at h
    exact ⟨h, hhigh⟩
  · next h =>
    rw [le_iff, hpow, not_le] at h
    exact ⟨hlow, by rwa [sub_add_cancel]⟩

/-- A quotient lies between the quotients of the powers that its parts lie
between. -/
theorem real_bounds {base : ℕ} (hbase : 0 < base) {a b : ℕ}
    (hnum : base ^ a ≤ r.num) (hnum' : r.num < base ^ (a + 1))
    (hden : base ^ b ≤ r.den) (hden' : r.den < base ^ (b + 1)) :
    (base : ℝ) ^ ((a : ℤ) - b - 1) ≤ r.real
      ∧ r.real < (base : ℝ) ^ ((a : ℤ) - b + 1) := by
  have hb : (base : ℝ) ≠ 0 := by exact_mod_cast hbase.ne'
  have hpos : ∀ n : ℕ, (0 : ℝ) < (base : ℝ) ^ n := fun n => by positivity
  have hdenpos := r.cast_den_pos
  have hn : (base : ℝ) ^ a ≤ r.num := by exact_mod_cast hnum
  have hn' : (r.num : ℝ) < (base : ℝ) ^ (a + 1) := by exact_mod_cast hnum'
  have hd : (base : ℝ) ^ b ≤ r.den := by exact_mod_cast hden
  have hd' : (r.den : ℝ) < (base : ℝ) ^ (b + 1) := by exact_mod_cast hden'
  constructor
  · have hsplit : (base : ℝ) ^ ((a : ℤ) - b - 1)
        = (base : ℝ) ^ a / (base : ℝ) ^ (b + 1) := by
      rw [← zpow_natCast, ← zpow_natCast, ← zpow_sub₀ hb]
      congr 1
      push_cast
      ring
    rw [hsplit, real]
    exact div_le_div₀ (by positivity) hn hdenpos hd'.le
  · have hsplit : (base : ℝ) ^ ((a : ℤ) - b + 1)
        = (base : ℝ) ^ (a + 1) / (base : ℝ) ^ b := by
      rw [← zpow_natCast, ← zpow_natCast, ← zpow_sub₀ hb]
      congr 1
      push_cast
      ring
    rw [hsplit, real]
    exact div_lt_div₀ hn' hd (by positivity) (hpos b)

theorem exponent2_spec (hnum : r.num ≠ 0) :
    (2 : ℝ) ^ r.exponent2 ≤ r.real ∧ r.real < (2 : ℝ) ^ (r.exponent2 + 1) := by
  have h := real_bounds two_pos (Nat.log2_self_le hnum) Nat.lt_log2_self
    (Nat.log2_self_le r.den_pos.ne') Nat.lt_log2_self
  have hspec := exponentFrom_spec two_pos h.1 h.2
  rw [Nat.cast_two] at hspec
  exact hspec

end Ratio

namespace Binary.Format

/-! ## The numbers of a format -/

/-- A finite magnitude as `decode` gives it: the significand is full unless
the exponent is the smallest. -/
structure Canonical (f : Format) (s : ℕ) (e : ℤ) : Prop where
  fits : s < 2 * f.binade
  unit_le : f.unitExponent ≤ e
  full : f.binade ≤ s ∨ e = f.unitExponent
  bounded : (e - f.unitExponent).toNat + 1 < f.exponentLimit

/-- The magnitude pattern of a significand and an exponent. -/
def patternOf (f : Format) (s : ℕ) (e : ℤ) : ℕ :=
  (e - f.unitExponent).toNat * f.binade + s

variable {f : Format} {s : ℕ} {e : ℤ}

theorem binade_pos (f : Format) : 0 < f.binade := Nat.pow_pos two_pos

@[simp] theorem cast_binade (f : Format) :
    (f.binade : ℝ) = 2 ^ f.fractionBits := by
  simp [binade]

theorem signBit_eq (f : Format) :
    f.signBit = (f.exponentLimit + 1) * f.binade := by
  have hpos : 0 < 2 ^ f.exponentBits := Nat.two_pow_pos _
  show 2 ^ (f.fractionBits + f.exponentBits)
    = (2 ^ f.exponentBits - 1 + 1) * 2 ^ f.fractionBits
  rw [Nat.sub_add_cancel hpos, pow_add, mul_comm]

/-- The pattern of a finite number is made of its sign and its magnitude. -/
theorem eq_patternOf_of_decode {p : ℕ} {negative : Bool}
    (hp : p < 2 * f.signBit) (hlimit : 1 < f.exponentLimit)
    (h : f.decode p = .finite negative s e) :
    f.Canonical s e ∧ p = f.withSign negative (f.patternOf s e) := by
  have hbinade := f.binade_pos
  have hmod := Nat.mod_add_div (p % f.signBit) f.binade
  have hfraction := Nat.mod_lt (p % f.signBit) hbinade
  have hsign0 : 0 < f.signBit := by rw [signBit_eq]; positivity
  have hbiased : p % f.signBit / f.binade < f.exponentLimit + 1 := by
    rw [Nat.div_lt_iff_lt_mul hbinade, ← signBit_eq]
    exact Nat.mod_lt _ hsign0
  -- the sign bit is the quotient
  have hp' : p = f.withSign (p / f.signBit % 2 == 1) (p % f.signBit) := by
    have hsplit := Nat.mod_add_div p f.signBit
    have hle : p / f.signBit < 2 := by rwa [Nat.div_lt_iff_lt_mul hsign0]
    unfold withSign
    rcases Nat.lt_succ_iff_lt_or_eq.mp hle with hq | hq
    · rw [Nat.lt_one_iff] at hq
      simp [hq] at hsplit ⊢
      omega
    · simp [hq] at hsplit ⊢
      omega
  unfold decode at h
  dsimp only at h
  split at h
  · split at h <;> cases h
  · next hnot =>
    split at h
    · next hzero =>
      simp only [Value.finite.injEq] at h
      obtain ⟨hneg, rfl, rfl⟩ := h
      rw [hzero, mul_zero, add_zero] at hmod
      refine ⟨⟨by omega, le_rfl, .inr rfl, by simpa using hlimit⟩, ?_⟩
      rw [hneg] at hp'
      simp only [patternOf, sub_self, Int.toNat_zero, zero_mul, zero_add]
      rwa [hmod]
    · next hzero =>
      simp only [Value.finite.injEq] at h
      obtain ⟨hneg, rfl, rfl⟩ := h
      have hexp : (f.unitExponent + ((p % f.signBit / f.binade - 1 : ℕ) : ℤ)
          - f.unitExponent).toNat = p % f.signBit / f.binade - 1 := by omega
      refine ⟨⟨by omega, by omega, .inl (Nat.le_add_right _ _), by omega⟩, ?_⟩
      rw [hneg] at hp'
      have hbiased1 : 1 ≤ p % f.signBit / f.binade :=
        Nat.one_le_iff_ne_zero.mpr hzero
      have hcarry : p % f.signBit = (p % f.signBit / f.binade - 1) * f.binade
          + (f.binade + p % f.signBit % f.binade) := by
        rw [← add_assoc, ← Nat.succ_mul, Nat.succ_eq_add_one,
          Nat.sub_add_cancel hbiased1, mul_comm, add_comm]
        exact hmod.symm
      rw [patternOf, hexp, ← hcarry]
      exact hp'

/-! ## Intervals -/

/-- Whether a number is the first of a binade that is not the lowest one, so
that the numbers below are closer to each other. -/
def firstOfBinade (f : Format) (s : ℕ) (e : ℤ) : Bool :=
  s == f.binade && decide (f.unitExponent < e)

/-- The lower end of what rounds to a number, in quarters of a unit. -/
def lowQuarters (f : Format) (s : ℕ) (e : ℤ) : ℕ :=
  4 * s - if f.firstOfBinade s e then 1 else 2

/-- `y` rounds to the number `s * 2 ^ e`: it lies between the points halfway
to the neighbours, and strictly so if the number is odd. -/
structure Captures (f : Format) (s : ℕ) (e : ℤ) (y : ℝ) : Prop where
  lower : f.lowQuarters s e * (2 : ℝ) ^ (e - 2) ≤ y
  upper : y ≤ (4 * s + 2 : ℕ) * (2 : ℝ) ^ (e - 2)
  strict : s % 2 = 1 →
    f.lowQuarters s e * (2 : ℝ) ^ (e - 2) < y
      ∧ y < (4 * s + 2 : ℕ) * (2 : ℝ) ^ (e - 2)

theorem eq_binade_of_first (h : f.firstOfBinade s e = true) : s = f.binade := by
  rw [firstOfBinade, Bool.and_eq_true, beq_iff_eq] at h
  exact h.1

theorem two_zpow_sub_two (e : ℤ) : (2 : ℝ) ^ (e - 2) = 2 ^ e / 4 := by
  rw [zpow_sub₀ two_ne_zero]
  norm_num

section Captures

variable {y : ℝ} (hs : 0 < s)

include hs

theorem cast_lowQuarters :
    (f.lowQuarters s e : ℝ) = 4 * s - if f.firstOfBinade s e then 1 else 2 := by
  unfold lowQuarters
  split
  · rw [Nat.cast_sub (by omega)]
    push_cast
    ring
  · rw [Nat.cast_sub (by omega)]
    push_cast
    ring

/-- In units of the number. -/
theorem Captures.scaled (h : f.Captures s e y) :
    s - (if f.firstOfBinade s e then 1 / 4 else 1 / 2 : ℝ) ≤ y / 2 ^ e
      ∧ y / 2 ^ e ≤ s + 1 / 2
      ∧ (s % 2 = 1 →
        s - (if f.firstOfBinade s e then 1 / 4 else 1 / 2 : ℝ) < y / 2 ^ e
          ∧ y / 2 ^ e < s + 1 / 2) := by
  have hpos : (0 : ℝ) < 2 ^ e := zpow_pos two_pos e
  obtain ⟨hlow, hhigh, hstrict⟩ := h
  rw [cast_lowQuarters hs, two_zpow_sub_two] at hlow hstrict
  rw [two_zpow_sub_two] at hhigh
  push_cast at hhigh hstrict
  rw [le_div_iff₀ hpos, div_le_iff₀ hpos, lt_div_iff₀ hpos, div_lt_iff₀ hpos]
  refine ⟨?_, by linarith, fun hodd => ⟨?_, by linarith [(hstrict hodd).2]⟩⟩
  · split at hlow
    · next h => rw [if_pos h]; linarith
    · next h => rw [if_neg h]; linarith
  · have := (hstrict hodd).1
    split at this
    · next h => rw [if_pos h]; linarith
    · next h => rw [if_neg h]; linarith

/-- Between the number and the upper end of its interval. -/
theorem captures_of_lt (hlow : s * (2 : ℝ) ^ e ≤ y)
    (hhigh : y < (4 * s + 2 : ℕ) * (2 : ℝ) ^ (e - 2)) : f.Captures s e y := by
  have hpos : (0 : ℝ) < 2 ^ (e - 2) := zpow_pos two_pos _
  have hvalue : (s : ℝ) * 2 ^ e = 4 * s * 2 ^ (e - 2) := by
    rw [two_zpow_sub_two]
    ring
  have hbelow : f.lowQuarters s e * (2 : ℝ) ^ (e - 2) < y := by
    refine lt_of_lt_of_le ?_ (hvalue ▸ hlow)
    refine mul_lt_mul_of_pos_right ?_ hpos
    rw [cast_lowQuarters hs]
    split <;> linarith
  exact ⟨hbelow.le, hhigh.le, fun _ => ⟨hbelow, hhigh⟩⟩

/-- A number rounds to itself. -/
theorem captures_self : f.Captures s e (s * (2 : ℝ) ^ e) := by
  have hpos : (0 : ℝ) < 2 ^ e := zpow_pos two_pos e
  refine captures_of_lt hs le_rfl ?_
  rw [two_zpow_sub_two]
  push_cast
  linarith

theorem Captures.pos (h : f.Captures s e y) : 0 < y := by
  have hpos : (0 : ℝ) < 2 ^ e := zpow_pos two_pos e
  have hs1 : (1 : ℝ) ≤ s := by exact_mod_cast hs
  have hlow := (h.scaled hs).1
  rw [le_div_iff₀ hpos] at hlow
  refine lt_of_lt_of_le (mul_pos ?_ hpos) hlow
  split <;> linarith

theorem Captures.coefficient_pos {c : ℕ} {g : ℝ} (h : f.Captures s e (c * g)) :
    0 < c := by
  refine Nat.pos_of_ne_zero fun h0 => ?_
  have := h.pos hs
  rw [h0, Nat.cast_zero, zero_mul] at this
  exact this.false

theorem Captures.nearest_self (h : f.Captures s e y) :
    Nearest (y / 2 ^ e) s := by
  obtain ⟨hlow, hhigh, hstrict⟩ := h.scaled hs
  have hgap : (if f.firstOfBinade s e then 1 / 4 else 1 / 2 : ℝ) ≤ 1 / 2 := by
    split <;> norm_num
  refine ⟨abs_le.mpr ⟨by linarith, by linarith⟩, fun hhalf => ?_⟩
  by_contra hodd
  obtain ⟨hlow', hhigh'⟩ := hstrict (Nat.mod_two_ne_zero.mp hodd)
  exact absurd hhalf (abs_lt.mpr ⟨by linarith, by linarith⟩).ne

omit hs in
theorem two_zpow_binade (e d : ℤ) :
    (2 : ℝ) ^ (f.fractionBits + e + d) = f.binade * 2 ^ e * 2 ^ d := by
  rw [zpow_add₀ two_ne_zero, zpow_add₀ two_ne_zero, zpow_natCast, cast_binade]

/-- The interval of a number lies below the end of its binade. -/
theorem Captures.exponent_le (hc : f.Canonical s e) (h : f.Captures s e y)
    {k : ℤ} (hlow : (2 : ℝ) ^ k ≤ y) : k ≤ f.fractionBits + e := by
  have hpos : (0 : ℝ) < 2 ^ e := zpow_pos two_pos e
  have hfits : (s : ℝ) ≤ 2 * f.binade - 1 := by
    have : s + 1 ≤ 2 * f.binade := hc.fits
    have hcast : (s : ℝ) + 1 ≤ 2 * f.binade := by exact_mod_cast this
    linarith
  have hlt : (2 : ℝ) ^ k < 2 ^ (f.fractionBits + e + 1) := by
    refine hlow.trans_lt ?_
    have hle := (h.scaled hs).2.1
    rw [div_le_iff₀ hpos] at hle
    rw [two_zpow_binade, zpow_one]
    have := mul_lt_mul_of_pos_right
      (show (s : ℝ) + 1 / 2 < 2 * f.binade by linarith) hpos
    linarith
  have := (zpow_lt_zpow_iff_right₀ one_lt_two).mp hlt
  omega

/-- Only the interval of the first number of a binade reaches into the binade
below. -/
theorem Captures.eq_binade (hfull : f.binade ≤ s) (h : f.Captures s e y)
    (hbelow : y / 2 ^ e < f.binade) : s = f.binade := by
  by_contra hne
  have hnext : f.binade + 1 ≤ s := by omega
  have hnextR : (f.binade : ℝ) + 1 ≤ s := by exact_mod_cast hnext
  have := (h.scaled hs).1
  split at this <;> linarith

/-- **Rounding to the nearest multiple finds the number.** The power of two
is that of the real, unless it would be too small; where the interval of the
number reaches into the binade below, the multiple is one of half the unit. -/
theorem Captures.nearest (hc : f.Canonical s e) (h : f.Captures s e y) {k : ℤ}
    (hlow : (2 : ℝ) ^ k ≤ y) (hhigh : y < 2 ^ (k + 1)) {t : ℤ}
    (ht : t = max (k - f.fractionBits) f.unitExponent) {n : ℕ}
    (hn : Nearest (y / 2 ^ t) n) :
    t = e ∧ n = s ∨ t + 1 = e ∧ n = 2 * f.binade ∧ s = f.binade := by
  have hpos : (0 : ℝ) < 2 ^ e := zpow_pos two_pos e
  have htop := h.exponent_le hs hc hlow
  by_cases hsame : t = e
  · left
    refine ⟨hsame, ?_⟩
    rw [hsame] at hn
    exact hn.unique (h.nearest_self hs)
  · right
    have hunit : f.unitExponent < e := by
      rcases hc.unit_le.lt_or_eq with hlt | heq
      · exact hlt
      · omega
    have hk : k + 1 ≤ f.fractionBits + e := by
      have := hc.unit_le
      omega
    have hbelow : y / 2 ^ e < f.binade := by
      rw [div_lt_iff₀ hpos]
      refine hhigh.trans_le ((zpow_le_zpow_right₀ one_le_two hk).trans_eq ?_)
      have := two_zpow_binade (f := f) e 0
      rwa [add_zero, zpow_zero, mul_one] at this
    have hfirst := h.eq_binade hs (hc.full.resolve_right hunit.ne') hbelow
    have hscaled := h.scaled hs
    have hflag : f.firstOfBinade s e = true := by
      simp [firstOfBinade, hfirst, hunit]
    rw [hflag, if_pos rfl, hfirst] at hscaled
    -- the interval does not reach further than into the binade below
    have hbinade : (1 : ℝ) ≤ f.binade := by exact_mod_cast f.binade_pos
    have hk' : f.fractionBits + e - 1 < k + 1 := by
      refine (zpow_lt_zpow_iff_right₀ (one_lt_two (α := ℝ))).mp
        (lt_of_le_of_lt ?_ hhigh)
      have hle := hscaled.1
      rw [le_div_iff₀ hpos] at hle
      refine le_trans ?_ hle
      rw [sub_eq_add_neg, two_zpow_binade, zpow_neg_one]
      have := mul_le_mul_of_nonneg_right
        (show (f.binade : ℝ) / 2 ≤ f.binade - 1 / 4 by linarith) hpos.le
      linarith
    have hte : t + 1 = e := by omega
    refine ⟨hte, hn.unique ?_, hfirst⟩
    have hhalf : y / 2 ^ t = 2 * (y / 2 ^ e) := by
      rw [← hte, zpow_add_one₀ two_ne_zero]
      field_simp
    rw [hhalf]
    refine ⟨abs_le.mpr ?_, fun _ => by omega⟩
    push_cast
    constructor <;> linarith [hscaled.1]

/-- The pattern of a ratio is that of the number whose interval holds it. -/
theorem magnitude_eq (hc : f.Canonical s e) {r : Ratio}
    (h : f.Captures s e r.real) : f.magnitude r = f.patternOf s e := by
  have hnum : r.num ≠ 0 := by
    intro h0
    have := h.pos hs
    rw [Ratio.real, h0, Nat.cast_zero, zero_div] at this
    exact this.false
  obtain ⟨hlow, hhigh⟩ := Ratio.exponent2_spec hnum
  generalize ht : max (r.exponent2 - f.fractionBits) f.unitExponent = t
  have hnearest : Nearest (r.real / 2 ^ t) (r.shift 2 (-t)).nearest := by
    have := (r.shift 2 (-t)).nearest_real
    rwa [Ratio.real_shift, zpow_neg, ← div_eq_mul_inv, Nat.cast_two] at this
  have hpattern :
      (t - f.unitExponent).toNat * f.binade + (r.shift 2 (-t)).nearest
        = f.patternOf s e := by
    rcases h.nearest hs hc hlow hhigh ht.symm hnearest
      with ⟨rfl, hn⟩ | ⟨rfl, hn, hfirst⟩
    · rw [hn, patternOf]
    · have hunit : f.unitExponent ≤ t := ht ▸ le_max_right _ _
      have hstep : (t + 1 - f.unitExponent).toNat
          = (t - f.unitExponent).toNat + 1 := by omega
      rw [hn, patternOf, hfirst, hstep]
      ring
  have hle : f.patternOf s e ≤ f.infinity := by
    have hfits := hc.fits
    have hmul := Nat.mul_le_mul_right f.binade
      (show (e - f.unitExponent).toNat + 2 ≤ f.exponentLimit from hc.bounded)
    rw [add_mul] at hmul
    unfold patternOf infinity
    omega
  unfold magnitude
  rw [if_neg hnum]
  dsimp only
  rw [ht, hpattern, min_eq_left hle]

end Captures

end Binary.Format

end Equilibration
