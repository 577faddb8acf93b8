import Mathlib.Tactic.LinearCombination
import Equilibration.Proofs.NearestNumbers

/-!
# PowersApart — decimals and short binary numbers do not come close

How close `c * 10 ^ k` comes to `W * 2 ^ q` is how well a fraction `W / C`
approximates a power of ten divided by a power of two. Two neighbouring
fractions around a ratio (`Neighbours`) bound the distance of every fraction
with a smaller numerator than their sum (`Neighbours.gap`), so it takes one
pair for each power of ten. For numerators of 25 bits the pairs leave a
relative gap of more than `3 * 2 ^ (-53)`, with a single exception
(`apart`): `7038531e-32` and `22841339 * 2 ^ (-108)`.
-/

namespace Equilibration.Decimal

/-! ## Neighbouring fractions -/

/-- Two neighbouring fractions with `A / B` between them. The lower one may be
equal to it. -/
structure Neighbours (A B : ℕ) where
  lowNum : ℕ
  lowDen : ℕ
  highNum : ℕ
  highDen : ℕ
  low_le : lowNum * B ≤ lowDen * A
  lt_high : highDen * A < highNum * B
  adjacent : highNum * lowDen = lowNum * highDen + 1

namespace Neighbours

variable {A B : ℕ}

/-- How far the lower fraction is below, in units of its denominator. -/
def lowGap (n : Neighbours A B) : ℕ := n.lowDen * A - n.lowNum * B

/-- How far the upper fraction is above, in units of its denominator. -/
def highGap (n : Neighbours A B) : ℕ := n.highNum * B - n.highDen * A

theorem highNum_pos (n : Neighbours A B) : 0 < n.highNum := by
  have hpos : 0 < n.highNum * n.lowDen := by
    rw [n.adjacent]
    exact Nat.succ_pos _
  exact Nat.pos_of_mul_pos_right hpos

/-- A combination with more of the first fraction is on its side of the ratio,
at least as far away. -/
theorem one_side {i j p q a b : ℤ} (hi : 0 ≤ i) (hj : j ≤ 0) (hp : 0 ≤ p)
    (hq : 0 ≤ q) (ha : 0 ≤ a) (hb : 0 ≤ b) :
    (i * p + j * q) * a ≤ p * (i * a - j * b)
      ∧ (j = 0 ∨ b ≤ i * a - j * b) := by
  have hqa : j * (q * a) ≤ 0 :=
    mul_nonpos_of_nonpos_of_nonneg hj (mul_nonneg hq ha)
  have hpb : j * (p * b) ≤ 0 :=
    mul_nonpos_of_nonpos_of_nonneg hj (mul_nonneg hp hb)
  refine ⟨by linarith, ?_⟩
  rcases hj.eq_or_lt with h0 | hneg
  · exact .inl h0
  · right
    have hia : 0 ≤ i * a := mul_nonneg hi ha
    have hjb : 0 ≤ (-1 - j) * b := mul_nonneg (by omega) hb
    linarith

/-- **The gap around a ratio.** A fraction with a numerator below the sum of
the two is either below or above the ratio. There it is at least as far away
as the neighbour on this side, and unless it is equal to that it is as far
away as the one on the other side. -/
theorem gap (n : Neighbours A B) {C W : ℤ} (hW : 0 < W)
    (hlt : W < n.lowNum + n.highNum) :
    (W * n.lowGap ≤ n.lowNum * (C * A - W * B)
      ∧ ((∃ i, C = i * n.lowDen ∧ W = i * n.lowNum)
        ∨ (n.highGap : ℤ) ≤ C * A - W * B))
    ∨ (W * n.highGap ≤ n.highNum * (W * B - C * A)
      ∧ ((∃ i, C = i * n.highDen ∧ W = i * n.highNum)
        ∨ (n.lowGap : ℤ) ≤ W * B - C * A)) := by
  have hlow : (n.lowGap : ℤ) = n.lowDen * A - n.lowNum * B := by
    rw [lowGap, Nat.cast_sub n.low_le]
    push_cast
    ring
  have hhigh : (n.highGap : ℤ) = n.highNum * B - n.highDen * A := by
    rw [highGap, Nat.cast_sub n.lt_high.le]
    push_cast
    ring
  have hadjacent : (n.highNum * n.lowDen : ℤ) = n.lowNum * n.highDen + 1 := by
    exact_mod_cast n.adjacent
  have hp : (0 : ℤ) ≤ n.lowNum := Int.natCast_nonneg _
  have hq : (0 : ℤ) ≤ n.highNum := Int.natCast_nonneg _
  have ha : (0 : ℤ) ≤ n.lowGap := Int.natCast_nonneg _
  have hb : (0 : ℤ) ≤ n.highGap := Int.natCast_nonneg _
  -- every fraction is a combination of the two
  obtain ⟨i, j, rfl, rfl⟩ : ∃ i j : ℤ, i * n.lowDen + j * n.highDen = C
      ∧ i * n.lowNum + j * n.highNum = W :=
    ⟨C * n.highNum - W * n.highDen, W * n.lowDen - C * n.lowNum,
      by linear_combination C * hadjacent, by linear_combination W * hadjacent⟩
  have hdistance :
      (i * n.lowDen + j * n.highDen) * A - (i * n.lowNum + j * n.highNum) * B
        = i * n.lowGap - j * n.highGap := by
    rw [hlow, hhigh]
    ring
  have hdistance' :
      (i * n.lowNum + j * n.highNum) * B - (i * n.lowDen + j * n.highDen) * A
        = j * n.highGap - i * n.lowGap := by linarith
  rw [hdistance, hdistance']
  rcases le_or_gt j 0 with hj | hj
  · -- more of the lower one
    left
    have hi : 0 ≤ i := by
      by_contra hi
      have := mul_nonpos_of_nonpos_of_nonneg (not_le.mp hi).le hp
      have := mul_nonpos_of_nonpos_of_nonneg hj hq
      linarith
    obtain ⟨hscaled, hother⟩ := one_side hi hj hp hq ha hb
    exact ⟨hscaled, hother.imp_left fun h0 =>
      ⟨i, by rw [h0]; ring, by rw [h0]; ring⟩⟩
  · -- more of the upper one
    right
    have hi : i ≤ 0 := by
      by_contra hi
      have := mul_nonneg (show 0 ≤ i - 1 by omega) hp
      have := mul_nonneg (show 0 ≤ j - 1 by omega) hq
      linarith
    obtain ⟨hscaled, hother⟩ := one_side hj.le hi hq hp hb ha
    refine ⟨by rwa [add_comm], hother.imp_left fun h0 =>
      ⟨j, by rw [h0]; ring, by rw [h0]; ring⟩⟩

/-! ## Finding neighbours -/

/-- The whole numbers around a ratio. -/
def whole (A : ℕ) {B : ℕ} (hB : 0 < B) : Neighbours A B where
  lowNum := A / B
  lowDen := 1
  highNum := A / B + 1
  highDen := 1
  low_le := by rw [one_mul]; exact Nat.div_mul_le_self A B
  lt_high := by rw [one_mul]; exact Nat.lt_mul_of_div_lt (Nat.lt_succ_self _) hB
  adjacent := by ring

/-- Adds the upper fraction to the lower one so many times. -/
def raise (n : Neighbours A B) (t : ℕ) (h : t * n.highGap ≤ n.lowGap) :
    Neighbours A B where
  lowNum := n.lowNum + t * n.highNum
  lowDen := n.lowDen + t * n.highDen
  highNum := n.highNum
  highDen := n.highDen
  low_le := by
    have hlow := n.low_le
    have hhigh := n.lt_high
    unfold lowGap highGap at h
    zify [hlow, hhigh.le] at *
    linarith
  lt_high := n.lt_high
  adjacent := by linear_combination n.adjacent

/-- Adds the lower fraction to the upper one so many times. -/
def sink (n : Neighbours A B) (t : ℕ) (h : t * n.lowGap < n.highGap) :
    Neighbours A B where
  lowNum := n.lowNum
  lowDen := n.lowDen
  highNum := n.highNum + t * n.lowNum
  highDen := n.highDen + t * n.lowDen
  low_le := n.low_le
  lt_high := by
    have hlow := n.low_le
    have hhigh := n.lt_high
    unfold lowGap highGap at h
    zify [hlow, hhigh.le] at *
    linarith
  adjacent := by linear_combination n.adjacent

/-- Moves both fractions as close to the ratio as numerators up to `limit`
allow, as often as there is fuel. -/
def refine (limit : ℕ) : (fuel : ℕ) → Neighbours A B → Neighbours A B
  | 0, n => n
  | fuel + 1, n =>
    let n :=
      n.raise (min (n.lowGap / n.highGap) ((limit - n.lowNum) / n.highNum))
        ((Nat.mul_le_mul_right _ (min_le_left _ _)).trans
          (Nat.div_mul_le_self _ _))
    let t := if n.lowGap = 0 then (limit - n.highNum) / n.lowNum
      else min ((n.highGap - 1) / n.lowGap) ((limit - n.highNum) / n.lowNum)
    if h : t * n.lowGap < n.highGap then refine limit fuel (n.sink t h) else n

end Neighbours

/-! ## Powers of ten -/

/-- The largest numerator of interest, an end of the interval of a number with
24 bits in quarters of its unit. -/
def largestNumerator : ℕ := 2 ^ 25 + 2

/-- The exponent of two that puts a power of ten between two and four. -/
def spacing (k : ℤ) : ℤ := ((Ratio.ofNat 1).shift 10 k).exponent2 - 1

/-- A power of ten over its power of two. -/
def quotient (k : ℤ) : Ratio :=
  ((Ratio.ofNat 1).shift 10 k).shift 2 (-spacing k)

theorem real_quotient (k : ℤ) :
    (quotient k).real = 10 ^ k * 2 ^ (-spacing k) := by
  rw [quotient, Ratio.real_shift, Ratio.real_shift, Ratio.real_ofNat]
  norm_num

theorem ten_zpow_eq (k : ℤ) :
    (10 : ℝ) ^ k = (quotient k).num / (quotient k).den * 2 ^ spacing k := by
  have h := real_quotient k
  rw [Ratio.real] at h
  rw [h, mul_assoc, ← zpow_add₀ two_ne_zero, neg_add_cancel, zpow_zero, mul_one]

/-- The neighbours of a power of ten. -/
def neighbours (k : ℤ) : Neighbours (quotient k).num (quotient k).den :=
  (Neighbours.whole _ (quotient k).den_pos).refine largestNumerator 30

/-- Whether the neighbours of a power of ten leave a relative gap of at least
`3.1 * 2 ^ (-53)`, up to the one exception, and whether the power is not just
below a power of two. -/
def wellApart (k : ℤ) : Bool :=
  let n := neighbours k
  let B := (quotient k).den
  decide (1024 * (quotient k).num < 1023 * (4 * B)
    ∧ largestNumerator < n.lowNum + n.highNum
    ∧ 0 < n.lowNum ∧ (31 * (n.lowNum * B) ≤ 10 * 2 ^ 53 * n.lowGap
      ∨ n.lowGap = 0 ∧ k.natAbs ≤ 22
        ∧ 31 * (largestNumerator * B) ≤ 10 * 2 ^ 53 * n.highGap)
    ∧ (31 * (n.highNum * B) ≤ 10 * 2 ^ 53 * n.highGap
      ∨ k = -32 ∧ n.highNum = 22841339 ∧ n.highDen = 7038531
        ∧ 31 * (largestNumerator * B) ≤ 10 * 2 ^ 53 * n.lowGap))

theorem wellApart_of_lt : ∀ i < 85, wellApart ((i : ℕ) - 46) = true := by
  decide +kernel

/-- In units of the power of two and of the denominator of the quotient, a
difference is whole. -/
theorem scaled_distance {k q : ℤ} (c W : ℕ) (hq : q ≤ spacing k) :
    c * (10 : ℝ) ^ k - W * 2 ^ q
      = (((c * 2 ^ (spacing k - q).toNat : ℕ) * (quotient k).num
      - W * (quotient k).den : ℤ) : ℝ) * (2 ^ q / (quotient k).den) := by
  have hB := (quotient k).cast_den_pos.ne'
  have hpow : (2 : ℝ) ^ spacing k = 2 ^ (spacing k - q).toNat * 2 ^ q := by
    rw [← zpow_natCast, ← zpow_add₀ two_ne_zero]
    congr 1
    omega
  rw [ten_zpow_eq, hpow]
  push_cast
  field_simp

theorem wellApart_of_mem {k : ℤ} (hk : -46 ≤ k) (hk' : k ≤ 38) :
    wellApart k = true := by
  have h := wellApart_of_lt (k + 46).toNat (by omega)
  rwa [show (((k + 46).toNat : ℕ) : ℤ) - 46 = k by omega] at h

/-- No power of ten of interest is just below a power of two. -/
theorem ten_zpow_lt {k : ℤ} (hk : -46 ≤ k) (hk' : k ≤ 38) :
    1024 * (10 : ℝ) ^ k < 1023 * 2 ^ (spacing k + 2) := by
  have h := (of_decide_eq_true (wellApart_of_mem hk hk')).1
  have hB := (quotient k).cast_den_pos
  have hR : (1024 * (quotient k).num : ℝ) < 1023 * (4 * (quotient k).den) := by
    exact_mod_cast h
  have hpow : (2 : ℝ) ^ (spacing k + 2) = 4 * 2 ^ spacing k := by
    rw [zpow_add₀ two_ne_zero]
    norm_num
    ring
  rw [ten_zpow_eq, hpow, ← mul_assoc, ← mul_assoc]
  refine mul_lt_mul_of_pos_right ?_ (zpow_pos two_pos _)
  rw [← mul_div_assoc, div_lt_iff₀ hB]
  linarith

theorem relative_gap {W p B g : ℕ} {D : ℤ} (hp : 0 < p)
    (hside : (W * g : ℤ) ≤ p * D) (h : 31 * (p * B) ≤ 10 * 2 ^ 53 * g) :
    (31 * (W * B) : ℤ) ≤ 10 * 2 ^ 53 * D := by
  have hZ : (31 * (p * B) : ℤ) ≤ 10 * 2 ^ 53 * g := by exact_mod_cast h
  refine le_of_mul_le_mul_left ?_ (show (0 : ℤ) < p by exact_mod_cast hp)
  calc (p : ℤ) * (31 * (W * B)) = W * (31 * (p * B)) := by ring
    _ ≤ W * (10 * 2 ^ 53 * g) :=
        mul_le_mul_of_nonneg_left hZ (Int.natCast_nonneg W)
    _ = 10 * 2 ^ 53 * (W * g) := by ring
    _ ≤ 10 * 2 ^ 53 * (p * D) := mul_le_mul_of_nonneg_left hside (by norm_num)
    _ = p * (10 * 2 ^ 53 * D) := by ring

theorem whole_gap {W B g : ℕ} {D : ℤ} (hW : W ≤ largestNumerator)
    (hside : (g : ℤ) ≤ D) (h : 31 * (largestNumerator * B) ≤ 10 * 2 ^ 53 * g) :
    (31 * (W * B) : ℤ) ≤ 10 * 2 ^ 53 * D := by
  have hZ : (31 * (largestNumerator * B) : ℤ) ≤ 10 * 2 ^ 53 * g := by
    exact_mod_cast h
  have hWB : (W * B : ℤ) ≤ largestNumerator * B := by
    exact_mod_cast Nat.mul_le_mul_right B hW
  linarith

/-- A gap between whole numbers is one between the reals. -/
theorem far_of_scaled {k q : ℤ} {c W : ℕ} (hq : q ≤ spacing k)
    (h : 31 * (W * (quotient k).den) ≤ 10 * 2 ^ 53
      * |(c * 2 ^ (spacing k - q).toNat : ℕ) * (quotient k).num
      - (W * (quotient k).den : ℤ)|) :
    W * (2 : ℝ) ^ q * (31 / 10 / 2 ^ 53) ≤ |c * (10 : ℝ) ^ k - W * 2 ^ q| := by
  rw [scaled_distance c W hq]
  generalize ((c * 2 ^ (spacing k - q).toNat : ℕ) * (quotient k).num
    - W * (quotient k).den : ℤ) = D at *
  have hB := (quotient k).cast_den_pos
  have hunit : (0 : ℝ) < 2 ^ q := zpow_pos two_pos q
  have hR : (31 * (W * (quotient k).den) : ℝ) ≤ 10 * 2 ^ 53 * |(D : ℝ)| := by
    exact_mod_cast h
  rw [abs_mul, abs_of_pos (div_pos hunit hB)]
  calc W * (2 : ℝ) ^ q * (31 / 10 / 2 ^ 53)
      = 31 * (W * (quotient k).den)
        / (10 * 2 ^ 53) * (2 ^ q / (quotient k).den) := by field_simp
    _ ≤ |(D : ℝ)| * (2 ^ q / (quotient k).den) := by
      refine mul_le_mul_of_nonneg_right ?_ (by positivity)
      rw [div_le_iff₀ (by positivity)]
      linarith

/-- **Decimals and short binary numbers are equal or apart**, up to one
exception. -/
theorem apart {k : ℤ} (hk : -46 ≤ k) (hk' : k ≤ 38) {c W : ℕ} (hW0 : 0 < W)
    (hW : W ≤ largestNumerator) {q : ℤ} (hq : q ≤ spacing k) :
    c * (10 : ℝ) ^ k = W * 2 ^ q ∧ k.natAbs ≤ 22
      ∨ W * (2 : ℝ) ^ q * (31 / 10 / 2 ^ 53) ≤ |c * (10 : ℝ) ^ k - W * 2 ^ q|
      ∨ k = -32 ∧ c * 2 ^ (spacing k - q).toNat = 7038531 ∧ W = 22841339 := by
  obtain ⟨-, hlarge, hpos, hlow, hhigh⟩ : _ ∧ _ ∧ _ ∧ _ ∧ _ :=
    of_decide_eq_true (wellApart_of_mem hk hk')
  have hgap :=
    (neighbours k).gap (C := (c * 2 ^ (spacing k - q).toNat : ℕ)) (W := W)
      (by exact_mod_cast hW0) (by exact_mod_cast hW.trans_lt hlarge)
  have hscaled := scaled_distance c W hq
  have hfar := far_of_scaled (c := c) (W := W) hq
  generalize c * 2 ^ (spacing k - q).toNat = C at *
  generalize hD : (C * (quotient k).num - W * (quotient k).den : ℤ) = D at *
  have hD' : (W * (quotient k).den - C * (quotient k).num : ℤ) = -D := by omega
  rw [hD'] at hgap
  rcases hgap with ⟨hside, hother⟩ | ⟨hside, hother⟩
  · rcases hlow with hlow | ⟨hzero, hk22, hlow⟩
    · right; left
      exact hfar
        ((relative_gap hpos hside hlow).trans (by linarith [le_abs_self D]))
    · rcases hother with ⟨i, hCi, hWi⟩ | hother
      · -- the power of ten is the lower fraction itself
        left
        refine ⟨?_, hk22⟩
        have hequal := Nat.le_antisymm (neighbours k).low_le
          (Nat.sub_eq_zero_iff_le.mp hzero)
        have hequalZ : ((neighbours k).lowNum * (quotient k).den : ℤ)
            = (neighbours k).lowDen * (quotient k).num := by
          exact_mod_cast hequal
        have hD0 : D = 0 := by
          rw [← hD, hCi, hWi]
          linear_combination -i * hequalZ
        rw [hD0, Int.cast_zero, zero_mul, sub_eq_zero] at hscaled
        exact hscaled
      · right; left
        exact hfar
          ((whole_gap hW hother hlow).trans (by linarith [le_abs_self D]))
  · rcases hhigh with hhigh | ⟨rfl, hnum, hden, hhigh⟩
    · right; left
      exact hfar ((relative_gap (neighbours k).highNum_pos hside hhigh).trans
        (by linarith [neg_le_abs D]))
    · rcases hother with ⟨i, hCi, hWi⟩ | hother
      · -- the exception
        right; right
        rw [hnum] at hWi
        rw [hden] at hCi
        have hbound : W ≤ 2 ^ 25 + 2 := hW
        have hi : i = 1 := by omega
        rw [hi] at hCi hWi
        exact ⟨rfl, by omega, by omega⟩
      · right; left
        exact hfar
          ((whole_gap hW hother hhigh).trans (by linarith [neg_le_abs D]))

end Equilibration.Decimal
