import Equilibration.Proofs.ZeroProducts

/-!
# Extrema — folds that look for the largest and the smallest

Four folds run over a vector and keep the value that is ahead of the others.
One of them stops at a value that is no number, the other three leave such
values out; they start from infinity, minus infinity or zero. What they have in
common is that each keeps one of two numbers (`Selects`), so that the value
they end with is one of those they met, with no number ahead of it
(`Extremum`). The start itself is only left if there was no number.

Values of equal rank are equal, but for the two zeros
(`FloatingPoint.beq_of_le_of_le`). So no fold depends on the order of the
values, apart from the sign of a zero, and those over magnitudes not even in
that. Main result: `Vec.extrema_are_exact`.
-/

namespace Equilibration

open Float.Model FloatingPoint

/-! ## Ranks -/

namespace Rounding

theorem rank_neg_infinity_le (u : UnpackedFloat) :
    rank (.infinity .negative) ≤ rank u := by
  rcases u with (_ | _) | - | s | ⟨_ | _, m, e, hm⟩ <;>
    first
    | exact le_rfl
    | exact Prod.Lex.toLex_le_toLex.mpr (.inl (show (-2 : ℤ) < _ by norm_num))

end Rounding

namespace FloatingPoint

variable {α : Type} [Scalar α] [FloatingPoint α] {a b : α}

theorem beq_iff_rank : (a == b) = true
      ↔ (unpacked a).isNaN = false ∧ (unpacked b).isNaN = false
        ∧ Rounding.rank (unpacked a) = Rounding.rank (unpacked b) := by
  rw [beq_eq]
  show UnpackedFloat.beq (unpacked a) (unpacked b) = true ↔ _
  unfold UnpackedFloat.beq
  rw [Rounding.compare_beq_iff, compare_eq_iff_eq]

theorem abs_not_neg (a : α) : ¬ Scalar.abs a < 0 := by
  rw [not_neg_iff, unpacked_abs]
  refine notNegative_packed ?_
  cases unpacked a <;> trivial

theorem abs_beq_zero [UniquelyPacked α] (a : α) :
    (Scalar.abs a == 0) = (a == 0) := by
  by_cases hneg : a < 0
  · rw [← neg_beq_zero, neg_abs_of_neg hneg]
  · by_cases hzero : (a == 0) = true
    · rw [abs_of_zero hzero, hzero, zero_beq_zero]
    · rw [abs_of_not_neg hneg (Bool.not_eq_true _ ▸ hzero)]

variable [StandardFloat α]

theorem isNaN_of_le (h : a ≤ b) :
    Scalar.isNaN a = false ∧ Scalar.isNaN b = false := by
  rw [StandardFloat.isNaN_eq, StandardFloat.isNaN_eq]
  exact ⟨(le_iff_rank.mp h).1, (le_iff_rank.mp h).2.1⟩

theorem isNaN_zero : Scalar.isNaN (0 : α) = false :=
  isNaN_of_isFinite isFinite_zero.1

/-- Numbers that are at most each other are equal, but for the signs of
zeros. -/
theorem beq_of_le_of_le (hab : a ≤ b) (hba : b ≤ a) : (a == b) = true := by
  obtain ⟨ha, hb, hle⟩ := le_iff_rank.mp hab
  obtain ⟨-, -, hge⟩ := le_iff_rank.mp hba
  exact beq_iff_rank.mpr ⟨ha, hb, le_antisymm hle hge⟩

theorem isNaN_of_infinite {s : UnpackedFloat.Sign}
    (h : unpacked a = .infinity s) :
    Scalar.isNaN a = false := by
  rw [StandardFloat.isNaN_eq, h]
  rfl

variable [UniquelyPacked α]

/-- Magnitudes have no zero but the positive one. -/
theorem abs_eq_of_le_of_le (hab : Scalar.abs a ≤ Scalar.abs b)
    (hba : Scalar.abs b ≤ Scalar.abs a) :
    Scalar.abs a = Scalar.abs b := by
  have hbeq := beq_of_le_of_le hab hba
  by_cases hzero : (b == 0) = true
  · have ha : (a == 0) = true := by
      rw [← abs_beq_zero, beq_iff_rank] at hzero ⊢
      obtain ⟨hna, hnb, hrank⟩ := beq_iff_rank.mp hbeq
      exact ⟨hna, hzero.2.1, hrank.trans hzero.2.2⟩
    rw [abs_of_zero ha, abs_of_zero hzero]
  · refine eq_of_beq hbeq ?_
    rw [abs_beq_zero]
    exact Bool.eq_false_iff.mpr hzero

/-! ### Infinity -/

variable (α) in
theorem unpacked_neg_infinity :
    unpacked (-Scalar.infinity : α) = .infinity .negative := by
  rw [unpacked_neg, unpacked_infinity]
  rfl

/-- An infinity has its rank for itself. -/
theorem eq_of_infinite {s : UnpackedFloat.Sign} (h : unpacked b = .infinity s)
    (hab : a ≤ b) (hba : b ≤ a) : a = b := by
  refine eq_of_beq (beq_of_le_of_le hab hba)
    (Bool.eq_false_iff.mpr fun hzero => ?_)
  obtain ⟨t, ht⟩ := beq_zero_iff_unpacked.mp hzero
  rw [h] at ht
  cases ht

theorem eq_infinity_of_le (h : Scalar.infinity ≤ a) : a = Scalar.infinity := by
  obtain ⟨hinf, ha, -⟩ := le_iff_rank.mp h
  refine eq_of_infinite unpacked_infinity (le_iff_rank.mpr ⟨ha, hinf, ?_⟩) h
  rw [unpacked_infinity]
  exact Rounding.rank_le_infinity _

theorem eq_neg_infinity_of_le (h : a ≤ -Scalar.infinity) :
    a = -Scalar.infinity := by
  obtain ⟨ha, hinf, -⟩ := le_iff_rank.mp h
  refine eq_of_infinite (unpacked_neg_infinity α) h
    (le_iff_rank.mpr ⟨hinf, ha, ?_⟩)
  rw [unpacked_neg_infinity]
  exact Rounding.rank_neg_infinity_le _

end FloatingPoint

namespace Vec

/-! ## Folds that keep one of two -/

/-- The value is one of some values and a number, and all numbers among the
values are behind it. -/
structure Extremum {α : Type} [Scalar α] (behind : α → α → Prop)
    (values : List α) (m : α) :
    Prop where
  mem : m ∈ values
  number : Scalar.isNaN m = false
  behind_of_mem : ∀ v ∈ values, Scalar.isNaN v = false → behind v m

/-- A function of two values keeps one of them: the one that is ahead if both
are numbers, and the number if only the second is none. -/
structure Selects {α : Type} [Scalar α] (behind : α → α → Prop)
    (pick : α → α → α) : Prop where
  refl {a : α} : Scalar.isNaN a = false → behind a a
  trans {a b c : α} : behind a b → behind b c → behind a c
  left {a b : α} : Scalar.isNaN a = false → Scalar.isNaN b = true → pick a b = a
  ahead {a b : α} : Scalar.isNaN a = false → Scalar.isNaN b = false →
    (pick a b = a ∨ pick a b = b) ∧ behind a (pick a b) ∧ behind b (pick a b)

section Folds

variable {α : Type} [Scalar α] {behind : α → α → Prop} {pick : α → α → α}
  {values : List α} {a m : α}

/-- **What a fold ends with** is one of the values that it met, with no number
ahead of it. -/
theorem Selects.extremum (h : Selects behind pick) (ha : Scalar.isNaN a = false)
    (values : List α) :
    Extremum behind (a :: values) (values.foldl pick a) := by
  induction values generalizing a with
  | nil =>
    refine ⟨List.mem_cons_self, ha, ?_⟩
    intro v hv _
    rw [List.mem_singleton.mp hv]
    exact h.refl ha
  | cons b values ih =>
    rw [List.foldl_cons]
    cases hb : Scalar.isNaN b with
    | true =>
      rw [h.left ha hb]
      obtain ⟨hmem, hnumber, hall⟩ := ih ha
      refine ⟨by grind, hnumber, ?_⟩
      intro v hv hv'
      rcases List.mem_cons.mp hv with rfl | hv
      · exact hall _ List.mem_cons_self hv'
      · rcases List.mem_cons.mp hv with rfl | hv
        · rw [hb] at hv'
          cases hv'
        · exact hall v (List.mem_cons_of_mem _ hv) hv'
    | false =>
      obtain ⟨hpick, hba, hbb⟩ := h.ahead ha hb
      have hnumber' : Scalar.isNaN (pick a b) = false := by
        rcases hpick with hpick | hpick <;> rw [hpick] <;> assumption
      obtain ⟨hmem, hnumber, hall⟩ := ih hnumber'
      have hfirst := hall _ List.mem_cons_self hnumber'
      refine ⟨by grind, hnumber, ?_⟩
      intro v hv hv'
      rcases List.mem_cons.mp hv with rfl | hv
      · exact h.trans hba hfirst
      · rcases List.mem_cons.mp hv with rfl | hv
        · exact h.trans hbb hfirst
        · exact hall v (List.mem_cons_of_mem _ hv) hv'

/-- The start is left if there is a number, unless that number is the start
again. -/
theorem Extremum.of_cons (h : Extremum behind (a :: values) m)
    (hstart : ∀ v ∈ values, behind v a → v = a)
    (hnumber : ∃ v ∈ values, Scalar.isNaN v = false) :
    Extremum behind values m := by
  obtain ⟨v, hv, hv'⟩ := hnumber
  refine ⟨?_, h.number, fun u hu =>
    h.behind_of_mem u (List.mem_cons_of_mem a hu)⟩
  rcases List.mem_cons.mp h.mem with rfl | hmem
  · rwa [← hstart v hv (h.behind_of_mem v (List.mem_cons_of_mem m hv) hv')]
  · exact hmem

/-- Without a number the start stays. -/
theorem Extremum.eq_start (h : Extremum behind (a :: values) m)
    (hnone : ∀ v ∈ values, Scalar.isNaN v = true) : m = a := by
  rcases List.mem_cons.mp h.mem with hm | hm
  · exact hm
  · have hnumber := h.number
    rw [hnone m hm] at hnumber
    cases hnumber

/-- Extrema of the same values are behind each other. -/
theorem Extremum.behind_of_perm {values' : List α} {m' : α}
    (h : Extremum behind values m) (h' : Extremum behind values' m')
    (hperm : values.Perm values') :
    behind m m' ∧ behind m' m :=
  ⟨h'.behind_of_mem m (hperm.mem_iff.mp h.mem) h.number,
    h.behind_of_mem m' (hperm.mem_iff.mpr h'.mem) h'.number⟩

end Folds

/-! ## The four folds -/

/-- A scalar type whose `nan` is no number. -/
class HasNaN (α : Type) [Scalar α] : Prop where
  isNaN_nan : Scalar.isNaN (Scalar.nan : α) = true

instance : HasNaN Float := ⟨by decide +kernel⟩

instance : HasNaN Float32 := ⟨by decide +kernel⟩

/-- The magnitudes of the differences at the positions of both vectors. -/
def deviations {α : Type} [Scalar α] (x y : Array α) : List α :=
  List.zipWith (fun a b => Scalar.abs (a - b)) x.toList y.toList

theorem deviations_eq_map {α : Type} [Scalar α] (x y : Array α) :
    deviations x y = (x.toList.zip y.toList).map fun p =>
      Scalar.abs (p.1 - p.2) := by
  rw [deviations, List.zip_eq_zipWith, List.map_zipWith]

section FloatingPoint

variable {α : Type} [Scalar α] [FloatingPoint α] [StandardFloat α]

theorem selects_larger :
    Selects (· ≤ ·) fun a b : α => if a < b then b else a where
  refl := FloatingPoint.le_refl
  trans := FloatingPoint.le_trans
  left {a b} _ hb := by
    refine if_neg fun hlt => ?_
    rw [(isNaN_of_le (FloatingPoint.le_of_lt hlt)).2] at hb
    cases hb
  ahead {a b} ha hb := by
    by_cases hlt : a < b
    · simp only [hlt, if_true]
      exact ⟨.inr trivial, FloatingPoint.le_of_lt hlt, FloatingPoint.le_refl hb⟩
    · simp only [hlt, if_false]
      exact ⟨.inl trivial, FloatingPoint.le_refl ha,
        FloatingPoint.le_of_not_lt ha hb hlt⟩

theorem selects_max : Selects (· ≤ ·) (Scalar.max (α := α)) where
  refl := FloatingPoint.le_refl
  trans := FloatingPoint.le_trans
  left := max_of_isNaN
  ahead {a b} ha hb := by
    rw [Scalar.max, ha, if_neg Bool.false_ne_true]
    exact selects_larger.ahead ha hb

theorem selects_min : Selects (fun a b => b ≤ a) (Scalar.min (α := α)) where
  refl := FloatingPoint.le_refl
  trans hab hbc := FloatingPoint.le_trans hbc hab
  left {a b} ha hb := by
    rw [Scalar.min, ha, if_neg Bool.false_ne_true]
    exact if_neg (not_lt_of_isNaN hb)
  ahead {a b} ha hb := by
    rw [Scalar.min, ha, if_neg Bool.false_ne_true]
    by_cases hlt : b < a
    · rw [if_pos hlt]
      exact ⟨.inr rfl, FloatingPoint.le_of_lt hlt, FloatingPoint.le_refl hb⟩
    · rw [if_neg hlt]
      exact ⟨.inl rfl, FloatingPoint.le_refl ha,
        FloatingPoint.le_of_not_lt hb ha hlt⟩

theorem extremum_maxAbsDiff (x y : Array α) :
    Extremum (· ≤ ·) (0 :: deviations x y) (maxAbsDiff x y) :=
  selects_max.extremum isNaN_zero _

theorem extremum_minimum (x : Array α) :
    Extremum (fun a b => b ≤ a) (Scalar.infinity :: x.toList) (minimum x) := by
  rw [minimum, ← Array.foldl_toList]
  exact selects_min.extremum (isNaN_of_infinite unpacked_infinity) _

/-- The largest magnitude, if every element is a number. -/
theorem extremum_maxAbs {x : Array α} (h : ∀ v ∈ x, Scalar.isNaN v = false) :
    Extremum (· ≤ ·) (0 :: x.toList.map Scalar.abs) (maxAbs x) := by
  have hnumbers : ¬ (x.any fun v => Scalar.isNaN (Scalar.abs v)) = true := by
    rw [Array.any_eq_true']
    rintro ⟨v, hv, hnan⟩
    rw [isNaN_abs, h v hv] at hnan
    cases hnan
  rw [maxAbs, if_neg hnumbers, ← Array.foldl_toList]
  have hfold :=
    selects_larger.extremum (isNaN_zero (α := α)) (x.toList.map Scalar.abs)
  rwa [List.foldl_map] at hfold

theorem maxAbs_of_isNaN {x : Array α} {v : α} (hv : v ∈ x)
    (h : Scalar.isNaN v = true) :
    maxAbs x = Scalar.nan := by
  refine if_pos ?_
  rw [Array.any_eq_true']
  exact ⟨v, hv, by rwa [isNaN_abs]⟩

theorem isNaN_maxAbs_iff [HasNaN α] (x : Array α) :
    Scalar.isNaN (maxAbs x) = true ↔ ∃ v ∈ x, Scalar.isNaN v = true := by
  constructor
  · intro h
    by_contra hnone
    have hnumbers : ∀ v ∈ x, Scalar.isNaN v = false := by simpa using hnone
    rw [(extremum_maxAbs hnumbers).number] at h
    cases h
  · rintro ⟨v, hv, hnan⟩
    rw [maxAbs_of_isNaN hv hnan]
    exact HasNaN.isNaN_nan

theorem alike_minimum {x x' : Array α} (hperm : x.Perm x') :
    Alike (minimum x) (minimum x') := by
  obtain ⟨hge, hle⟩ := (extremum_minimum x).behind_of_perm (extremum_minimum x')
    (hperm.toList.cons _)
  exact .inl (beq_of_le_of_le hle hge)

variable [UniquelyPacked α]

theorem extremum_maximum (x : Array α) :
    Extremum (· ≤ ·) (-Scalar.infinity :: x.toList) (maximum x) := by
  rw [maximum, ← Array.foldl_toList]
  exact selects_max.extremum (isNaN_of_infinite (unpacked_neg_infinity α)) _

/-- A magnitude that is at most zero is zero. -/
theorem eq_zero_of_magnitude_le {a : α} (h : Scalar.abs a ≤ 0) :
    Scalar.abs a = 0 := by
  have hzero : Scalar.abs (0 : α) = 0 := abs_of_zero zero_beq_zero
  have hnonneg : 0 ≤ Scalar.abs a :=
    zero_le_iff.mpr ⟨(isNaN_of_le h).1, abs_not_neg a⟩
  rw [← hzero] at h hnonneg
  rw [abs_eq_of_le_of_le h hnonneg, hzero]

/-- The largest of some magnitudes does not depend on their order. -/
theorem Extremum.eq_of_perm {values values' : List α} {m m' : α}
    (hvalues : ∀ v ∈ values, ∃ a, v = Scalar.abs a)
    (h : Extremum (· ≤ ·) (0 :: values) m)
    (h' : Extremum (· ≤ ·) (0 :: values') m') (hperm : values.Perm values') :
    m = m' := by
  have hmagnitude : ∀ v ∈ 0 :: values, ∃ a, v = Scalar.abs a := by
    intro v hv
    rcases List.mem_cons.mp hv with rfl | hv
    · exact ⟨0, (abs_of_zero zero_beq_zero).symm⟩
    · exact hvalues v hv
  obtain ⟨hle, hge⟩ := h.behind_of_perm h' (hperm.cons 0)
  obtain ⟨a, rfl⟩ := hmagnitude m h.mem
  obtain ⟨b, rfl⟩ := hmagnitude m' ((hperm.cons 0).mem_iff.mpr h'.mem)
  exact abs_eq_of_le_of_le hle hge

/-! ### Attained extrema -/

theorem maxAbs_attained {x : Array α} (h : ∀ v ∈ x, Scalar.isNaN v = false)
    (hne : x ≠ #[]) :
    Extremum (· ≤ ·) (x.toList.map Scalar.abs) (maxAbs x) := by
  refine (extremum_maxAbs h).of_cons ?_ ?_
  · intro v hv hle
    obtain ⟨a, -, rfl⟩ := List.mem_map.mp hv
    exact eq_zero_of_magnitude_le hle
  · obtain ⟨v, hv⟩ := Array.exists_mem_of_ne_empty x hne
    exact ⟨Scalar.abs v, List.mem_map_of_mem (by simpa using hv),
      by rw [isNaN_abs, h v hv]⟩

theorem maxAbsDiff_attained {x y : Array α}
    (h : ∃ v ∈ deviations x y, Scalar.isNaN v = false) :
    Extremum (· ≤ ·) (deviations x y) (maxAbsDiff x y) := by
  refine (extremum_maxAbsDiff x y).of_cons ?_ h
  intro v hv hle
  rw [deviations_eq_map] at hv
  obtain ⟨p, -, rfl⟩ := List.mem_map.mp hv
  exact eq_zero_of_magnitude_le hle

theorem minimum_attained {x : Array α} (h : ∃ v ∈ x, Scalar.isNaN v = false) :
    Extremum (fun a b => b ≤ a) x.toList (minimum x) :=
  (extremum_minimum x).of_cons (fun _ _ => eq_infinity_of_le) (by simpa using h)

theorem maximum_attained {x : Array α} (h : ∃ v ∈ x, Scalar.isNaN v = false) :
    Extremum (· ≤ ·) x.toList (maximum x) :=
  (extremum_maximum x).of_cons (fun _ _ => eq_neg_infinity_of_le)
    (by simpa using h)

/-! ### Elements in another order -/

theorem maxAbs_perm {x x' : Array α} (hperm : x.Perm x') :
    maxAbs x = maxAbs x' := by
  by_cases h : ∃ v ∈ x, Scalar.isNaN v = true
  · obtain ⟨v, hv, hnan⟩ := h
    rw [maxAbs_of_isNaN hv hnan, maxAbs_of_isNaN (hperm.mem_iff.mp hv) hnan]
  · have hnumbers : ∀ v ∈ x, Scalar.isNaN v = false := by simpa using h
    have hnumbers' : ∀ v ∈ x', Scalar.isNaN v = false := fun v hv =>
      hnumbers v (hperm.mem_iff.mpr hv)
    refine Extremum.eq_of_perm ?_ (extremum_maxAbs hnumbers)
      (extremum_maxAbs hnumbers') (hperm.toList.map _)
    intro v hv
    obtain ⟨a, -, rfl⟩ := List.mem_map.mp hv
    exact ⟨a, rfl⟩

theorem maxAbsDiff_perm {x y x' y' : Array α}
    (hperm : (x.toList.zip y.toList).Perm (x'.toList.zip y'.toList)) :
    maxAbsDiff x y = maxAbsDiff x' y' := by
  refine Extremum.eq_of_perm ?_ (extremum_maxAbsDiff x y)
    (extremum_maxAbsDiff x' y') ?_
  · intro v hv
    rw [deviations_eq_map] at hv
    obtain ⟨p, -, rfl⟩ := List.mem_map.mp hv
    exact ⟨_, rfl⟩
  · rw [deviations_eq_map, deviations_eq_map]
    exact hperm.map _

theorem alike_maximum {x x' : Array α} (hperm : x.Perm x') :
    Alike (maximum x) (maximum x') := by
  obtain ⟨hle, hge⟩ := (extremum_maximum x).behind_of_perm (extremum_maximum x')
    (hperm.toList.cons _)
  exact .inl (beq_of_le_of_le hle hge)

/-- **The extrema are exact.** The largest magnitude is no number if and only
if some element is none; otherwise it is zero for the empty vector, and the
magnitude of an element and at least that of every element for any other. The
smallest and the largest element are the extrema of the elements that are
numbers, and infinity and minus infinity if there are none; the largest
deviation is that of the deviations that are numbers, and zero if there are
none. For any other order of the elements the extrema are the same, but for
the sign of a smallest or largest element that is zero. -/
theorem extrema_are_exact [HasNaN α] (x y : Array α) :
    (Scalar.isNaN (maxAbs x) = true ↔ ∃ v ∈ x, Scalar.isNaN v = true)
    ∧ ((∀ v ∈ x, Scalar.isNaN v = false) →
      (x = #[] → maxAbs x = 0)
      ∧ (x ≠ #[] → Extremum (· ≤ ·) (x.toList.map Scalar.abs) (maxAbs x)))
    ∧ ((∃ v ∈ x, Scalar.isNaN v = false) →
      Extremum (fun a b => b ≤ a) x.toList (minimum x)
        ∧ Extremum (· ≤ ·) x.toList (maximum x))
    ∧ ((∀ v ∈ x, Scalar.isNaN v = true) →
      minimum x = Scalar.infinity ∧ maximum x = -Scalar.infinity)
    ∧ ((∃ v ∈ deviations x y, Scalar.isNaN v = false) →
      Extremum (· ≤ ·) (deviations x y) (maxAbsDiff x y))
    ∧ ((∀ v ∈ deviations x y, Scalar.isNaN v = true) → maxAbsDiff x y = 0)
    ∧ (∀ x' : Array α, x.Perm x' →
      maxAbs x = maxAbs x' ∧ Alike (minimum x) (minimum x')
        ∧ Alike (maximum x) (maximum x'))
    ∧ ∀ x' y' : Array α,
      (x.toList.zip y.toList).Perm (x'.toList.zip y'.toList) →
      maxAbsDiff x y = maxAbsDiff x' y' := by
  refine ⟨isNaN_maxAbs_iff x, fun h => ⟨?_, maxAbs_attained h⟩,
    fun h => ⟨minimum_attained h, maximum_attained h⟩, fun h => ⟨?_, ?_⟩,
    maxAbsDiff_attained, (extremum_maxAbsDiff x y).eq_start, fun x' hperm =>
    ⟨maxAbs_perm hperm, alike_minimum hperm, alike_maximum hperm⟩,
    fun x' y' => maxAbsDiff_perm⟩
  · rintro rfl
    simp [maxAbs]
  · exact (extremum_minimum x).eq_start (by simpa using h)
  · exact (extremum_maximum x).eq_start (by simpa using h)

/-- Two vectors, the second of which has an element that is no number. -/
theorem extrema_are_exact_nan :
    let x : Array Float := #[-3, 2]
    let y : Array Float := #[Scalar.nan, 1]
    Scalar.isNaN (maxAbs y) = true
      ∧ Extremum (· ≤ ·) (x.toList.map Scalar.abs) (maxAbs x)
      ∧ Extremum (fun a b => b ≤ a) y.toList (minimum y)
      ∧ Extremum (· ≤ ·) y.toList (maximum y)
      ∧ Extremum (· ≤ ·) (deviations x y) (maxAbsDiff x y)
      ∧ maxAbs x = maxAbs #[2, -3]
      ∧ maxAbsDiff x y = maxAbsDiff #[2, -3] #[1, Scalar.nan]
      ∧ minimum (y.take 1) = Scalar.infinity ∧ maxAbsDiff x (y.take 1) = 0 := by
  intro x y
  obtain ⟨-, hmagnitude, -, -, hdeviation, -, hperm, hpairs⟩ :=
    extrema_are_exact x y
  obtain ⟨hnan, -, hnumbers, -⟩ := extrema_are_exact y y
  obtain ⟨-, -, -, hnone, -⟩ := extrema_are_exact (y.take 1) y
  obtain ⟨-, -, -, -, -, hnone', -⟩ := extrema_are_exact x (y.take 1)
  have hy : ∃ v ∈ y, Scalar.isNaN v = false := by decide +kernel
  refine ⟨hnan.mpr (by decide +kernel),
    (hmagnitude (by decide +kernel)).2 (by decide +kernel),
    (hnumbers hy).1, (hnumbers hy).2, hdeviation (by decide +kernel),
    (hperm #[2, -3] ?_).1, hpairs #[2, -3] #[1, Scalar.nan] ?_,
    (hnone (by decide +kernel)).1, hnone' (by decide +kernel)⟩
  · exact .of_toList_perm (.swap _ _ _)
  · exact .swap _ _ _

end FloatingPoint

end Vec

end Equilibration
