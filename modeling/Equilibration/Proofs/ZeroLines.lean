import Equilibration.Proofs.ClearStarts
import Equilibration.Proofs.ExactResults
import Equilibration.Proofs.LostColumns
import Equilibration.Proofs.SignFlips

/-!
# ZeroLines — rows and columns of zeros

A row or a column of zeros has nothing to balance, and keeps the factor one
however the rest of the matrix is balanced. The sum of such a line need not be
zero: the factors of the other lines can grow to infinity, or be no number,
and their products with its zeros are then no numbers. But a sum of products
with zeros is never positive (`FloatingPoint.Vanishes`), and the factor of a
sum that is not positive is one. Every iteration sets it anew
(`Balancing.one_stateAfter`).

An equilibration takes roots of these ones and gives each its share of the
norm, the same for all lines of zeros (`SolverMatrix.Holds.share_of_zeros`).
If all values are zeros, or there are none, no norm is positive, and nothing
changes (`SolverMatrix.Holds.unchanged_of_zeros`).

Main result: `Session.zero_lines_keep_one`.
-/

namespace Equilibration

open Checked FloatingPoint

/-! ## Lines -/

namespace SlicedMatrix

variable {α : Type}

/-- All values that are stored for row `k` of a matrix, or of its transpose,
pass a test. -/
def AllInLine (A : SlicedMatrix α) (shape : Shape) (p : α → Bool)
    (k : Nat) : Prop :=
  ∀ i j v, (shape.order.locate i j).1 = k → (i, j, v) ∈ A.triplets → p v = true

instance (A : SlicedMatrix α) (shape : Shape) (p : α → Bool) (k : Nat) :
    Decidable (A.AllInLine shape p k) :=
  decidable_of_iff (∀ t ∈ A.triplets, (shape.order.locate t.1 t.2.1).1 = k →
      p t.2.2 = true) ⟨fun h i j v hk hmem => h (i, j, v) hmem hk,
    fun h t ht hk => h t.1 t.2.1 t.2.2 hk ht⟩

variable {A : SlicedMatrix α} {shape : Shape} {p : α → Bool} {k : Nat}

theorem AllInLine.mapEntries {β : Type} {q : β → Bool}
    (h : A.AllInLine shape p k) (f : Nat → Nat → α → β)
    (hf : ∀ i j v, p v = true → q (f i j v) = true) :
    (A.mapEntries f).AllInLine shape q k := by
  intro i j u hk hu
  rw [triplets_mapEntries] at hu
  obtain ⟨⟨i', j', v⟩, hmem, heq⟩ := List.mem_map.mp hu
  cases heq
  exact hf _ _ v (h _ _ v hk hmem)

/-- The row form stores the same values for a line. -/
theorem allInLine_row_iff (hcheck : A.check = .ok (.ok ())) :
    (PairedMatrix.ofForm A).row.AllInLine shape p k ↔ A.AllInLine shape p k :=
  forall₃_congr fun i j v => by rw [(triplets_ofForm_perm hcheck).1.mem_iff]

/-- If all values pass, they do in every line. -/
theorem allInLine_of_values (hcheck : A.check = .ok (.ok ()))
    (h : ∀ v ∈ A.values, p v = true) :
    A.AllInLine shape p k :=
  fun _ _ v _ hmem => h v (mem_values_of_mem_triplets hcheck hmem)

/-! ## Products -/

section Products

variable [Scalar α] [FloatingPoint α] [UniquelyPacked α]
  (h : A.check = .ok (.ok ())) (hroom : A.HasRoom)

include h hroom

/-- **The rule of an element of a product**: what is true of zero, of all
terms, and of sums of what it is true of. -/
theorem product_rule {P : α → Prop} (hzero : P 0)
    (hadd : ∀ {a b}, P a → P b → P (a + b))
    (shape : Shape) {x y : Array α} (hk : k < y.size)
    (hterm : ∀ i j v, (shape.order.locate i j).1 = k → (i, j, v) ∈ A.triplets →
      P (v * x.getD (shape.order.locate i j).2 0)) :
    ∃ s, (A.product shape 1 0 x y)[k]? = some s ∧ P s := by
  obtain ⟨entries, hvalue, -, hentries⟩ := product_element h hroom shape x hk
  refine ⟨_, hvalue, ?_⟩
  rw [combine_of_zero zero_beq_zero, FloatingPoint.one_mul, Slices.dotOf]
  refine List.foldlRecOn entries _ hzero fun s hs e he => hadd hs ?_
  have hlocate := shape.order.locate_locate k e.1
  have hmem :=
    hentries (shape.order.locate k e.1).1 (shape.order.locate k e.1).2 e.2
      (by rw [hlocate])
  rw [hlocate] at hmem
  have := hterm _ _ e.2 (by rw [hlocate]) (hmem.mp he)
  rwa [hlocate] at this

/-- The sum of a line of zeros is zero or no number. -/
theorem vanishes_line {x y : Array α} (hk : k < y.size)
    (hzero : A.AllInLine shape (· == 0) k) :
    ∃ s, (A.product shape 1 0 x y)[k]? = some s ∧ Vanishes s :=
  product_rule h hroom vanishes_zero Vanishes.add shape hk
    fun i j v hline hmem =>
    vanishes_zero_mul (hzero i j v hline hmem) _

/-- If all values are zeros, so is every product with finite numbers. -/
theorem product_of_zeros (hzero : ∀ v ∈ A.values, (v == 0) = true)
    (shape : Shape) {x : Array α} (hx : ∀ v ∈ x, Scalar.isFinite v = true)
    (y : Array α) :
    ∀ v ∈ A.product shape 1 0 x y, (v == 0) = true := by
  intro v hv
  obtain ⟨k, hk, rfl⟩ := Array.mem_iff_getElem.mp hv
  obtain ⟨s, hvalue, hs⟩ := product_rule h hroom (P := fun v => (v == 0) = true)
    zero_beq_zero zero_add_zero shape (x := x) (by simpa using hk : k < y.size)
    (fun i j u _ hmem => by
      refine zero_mul_of_finite (hzero u (mem_values_of_mem_triplets h hmem)) ?_
      by_cases hlt : (shape.order.locate i j).2 < x.size
      · exact hx _ (Vec.getD_mem hlt 0)
      · rw [Array.getD, dif_neg hlt]
        exact isFinite_zero.1)
  rw [Array.getElem?_eq_getElem hk, Option.some.injEq] at hvalue
  rwa [hvalue]

end Products

end SlicedMatrix

/-! ## Norms -/

section Norms

variable {α : Type} [Scalar α] [FloatingPoint α]

/-- A sum of zeros is zero. -/
theorem Vec.pairwiseSum_of_zeros (terms : List α)
    (h : ∀ v ∈ terms, (v == 0) = true) :
    (Vec.pairwiseSum terms == 0) = true := by
  fun_induction Vec.pairwiseSum terms with
  | case1 terms hshort =>
    exact List.foldlRecOn terms _ (motive := fun s => (s == 0) = true)
      zero_beq_zero fun s hs v hv => zero_add_zero hs (h v hv)
  | case2 terms hlong ihleft ihright =>
    exact zero_add_zero (ihleft fun v hv => h v (List.mem_of_mem_take hv))
      (ihright fun v hv => h v (List.mem_of_mem_drop hv))

theorem Vec.norm_of_zeros {x : Array α} (h : ∀ v ∈ x, (v == 0) = true) :
    (Vec.norm x == 0) = true := by
  refine sqrt_of_zero (Vec.pairwiseSum_of_zeros _ fun v hv => ?_)
  rw [Vec.products, List.zipWith_self] at hv
  obtain ⟨u, hu, rfl⟩ := List.mem_map.mp hv
  have hzero := h u (Array.mem_toList_iff.mp hu)
  exact zero_mul_of_finite hzero (isFinite_of_zero hzero)

end Norms

section Estimates

variable {α : Type} [Scalar α] [FloatingPoint α] [StandardFloat α]
  [UniquelyPacked α]

/-- The spectral norm of zeros is estimated to be zero: both vectors that it
can start from have no product. -/
theorem SpectralNorm.estimateOn_of_zeros {A : SlicedMatrix α}
    (h : A.check = .ok (.ok ())) (hroom : A.HasRoom)
    (hrows : A.rows < UInt64.size) (hzero : ∀ v ∈ A.values, (v == 0) = true)
    (budget : Nat) (tol : α) :
    estimateOn (fun shape x y => A.product shape 1 0 x y) A.rows A.cols budget
      tol = 0 := by
  have hones :
      ∀ v ∈ Array.replicate A.rows (1 : α), Scalar.isFinite v = true := by
    intro v hv
    rw [(Array.mem_replicate.mp hv).2]
    exact isFinite_one.1
  have hramp : ∀ v ∈ (ramp A.rows : Array α), Scalar.isFinite v = true := by
    intro v hv
    obtain ⟨i, rfl⟩ := Array.mem_ofFn.mp hv
    exact (ofNat_not_neg (Balancing.log2_lt_exponentBias
      ((Nat.succ_le_of_lt i.isLt).trans_lt hrows))).1
  unfold estimateOn
  split
  · rfl
  · dsimp only
    rw [normalize_fst_beq_zero, if_pos (Vec.norm_of_zeros
        (SlicedMatrix.product_of_zeros h hroom hzero .transposed hones _)),
      normalize_fst_beq_zero, if_pos (Vec.norm_of_zeros
        (SlicedMatrix.product_of_zeros h hroom hzero .transposed hramp _))]

/-- No norm of zeros is positive. -/
theorem SolverMatrix.Holds.norm_not_pos {M : SolverMatrix α}
    {A : SlicedMatrix α} (hM : M.Holds A)
    (hzero : ∀ v ∈ A.values, (v == 0) = true) {policy : NormPolicy}
    {options : Options α} {norm : α}
    (h : M.normEstimate policy options = .ok (.ok norm)) : ¬ 0 < norm := by
  cases policy with
  | one => cases h
  | two =>
    obtain ⟨p, hp, hr⟩ := bind_eq_ok_iff.mp h
    rw [SpectralNorm.of_estimate hM.computes hp] at hr
    cases hr
    rw [show M.operator.rows = A.rows from hM.rows_eq, show M.operator.cols
      = A.cols from hM.cols_eq, SpectralNorm.estimateOn_of_zeros hM.check
        hM.room (hM.rows_eq ▸ hM.rows_lt) hzero]
    exact vanishes_zero.not_pos
  | frobenius =>
    have hnorm :=
      Except.ok.inj (hM.frobeniusNorm_eq.symm.trans (Except.ok.inj h))
    rw [← hnorm]
    exact (vanishes_zero_div (Vec.norm_of_zeros hzero) _).not_pos

end Estimates

/-! ## Balancing -/

namespace Balancing

variable {α : Type} [Scalar α] [FloatingPoint α] [UniquelyPacked α]

omit [UniquelyPacked α] in
theorem factor_of_vanishes {s : α} (hs : Vanishes s) (target : α) :
    factor target s = 1 :=
  if_neg hs.not_pos

/-- An iteration sets the factors of lines of zeros to one, whatever the
others have become. -/
theorem one_next {A : SlicedMatrix α} (h : A.check = .ok (.ok ()))
    (hroom : A.HasRoom) (rows cols : Nat) (s : State α) :
    let s' := next (fun shape x y => A.product shape 1 0 x y) rows cols s
    (∀ i < s.d.size, A.AllInLine .normal (· == 0) i → s'.d[i]? = some 1)
      ∧ ∀ j < s.e.size, j < s.sums.size → A.AllInLine .transposed (· == 0) j →
      s'.e[j]? = some 1 := by
  intro s'
  have hd : s'.d
      = (A.product .normal 1 0 s'.e s.d).map (factor (Scalar.ofNat cols)) := rfl
  have he : s'.e = Vec.overwrite (factor (Scalar.ofNat rows)) s.e
      (A.product .transposed 1 0 s.d s.sums) := rfl
  constructor
  · intro i hi hzero
    obtain ⟨sum, hsum, hvanishes⟩ :=
      SlicedMatrix.vanishes_line h hroom (x := s'.e) hi hzero
    rw [hd, Array.getElem?_map, hsum, Option.map_some,
      factor_of_vanishes hvanishes]
  · intro j hj hjs hzero
    obtain ⟨sum, hsum, hvanishes⟩ :=
      SlicedMatrix.vanishes_line h hroom (x := s.d) hjs hzero
    rw [he, Vec.overwrite, Array.getElem?_mapIdx, Array.getElem?_eq_getElem hj,
      hsum, Option.map_some]
    exact congrArg some (factor_of_vanishes hvanishes _)

/-- **Lines of zeros have the factor one in every state of a run.** -/
theorem one_stateAfter {M : SolverMatrix α} {A : SlicedMatrix α}
    (hM : M.Holds A) {d e : Array α} (hd : d.size = M.rows)
    (he : e.size = M.cols) (k : Nat) :
    let s :=
      stateAfter (fun shape x y => A.product shape 1 0 x y) M.rows M.cols d e k
    (∀ i < M.rows, A.AllInLine .normal (· == 0) i → s.d[i]? = some 1)
      ∧ ∀ j < M.cols,
        A.AllInLine .transposed (· == 0) j → s.e[j]? = some 1 := by
  cases k with
  | zero =>
    refine ⟨fun i hi _ => ?_, fun j hj _ => ?_⟩
    · simp [stateAfter, start, Vec.fill, hd, hi]
    · simp [stateAfter, start, Vec.fill, he, hj]
  | succ k =>
    have hfits := fits_stateAfter hM.computes hd he k
    obtain ⟨hrow, hcol⟩ := one_next hM.check hM.room M.rows M.cols (stateAfter
        (fun shape x y => A.product shape 1 0 x y) M.rows M.cols d e k)
    rw [stateAfter_succ]
    exact ⟨fun i hi => hrow i (hi.trans_eq hfits.d_size.symm), fun j hj =>
      hcol j (hj.trans_eq hfits.e_size.symm) (hj.trans_eq hfits.sums_size.symm)⟩

end Balancing

namespace SolverMatrix.Holds

section Runs

variable {α : Type} [Scalar α] [FloatingPoint α] [UniquelyPacked α]
  {M : SolverMatrix α} {A : SlicedMatrix α} (hM : M.Holds A) {d e : Array α}

include hM

/-- Lines of zeros have the factor one after a run. -/
theorem one_of_run {budget : Nat} {tol : α} {r : BalanceRun α}
    (hrun : Balancing.run M.operator d e budget tol () = .ok (r, ())) :
    (∀ i < M.rows, A.AllInLine .normal (· == 0) i → r.d[i]? = some 1)
      ∧ ∀ j < M.cols,
        A.AllInLine .transposed (· == 0) j → r.e[j]? = some 1 := by
  obtain ⟨hd, he, hcols⟩ := Balancing.sizes_of_run hrun
  obtain ⟨record, hrun', -⟩ :=
    Balancing.run_ends hM.computes hd he hcols budget tol
  rw [hrun] at hrun'
  cases hrun'
  exact Balancing.one_stateAfter hM hd he record.iterations

end Runs

end SolverMatrix.Holds

/-! ## Equilibrating -/

section Zeros

variable {α : Type} [Scalar α] [FloatingPoint α] {v : α}

theorem Magnitude.of_beq_zero (t : Magnitude) (h : (v == 0) = true) :
    (t.of v == 0) = true := by
  have hfinite := isFinite_of_zero h
  obtain ⟨hof, hzero⟩ := t.of_zero hfinite ((beq_zero_iff hfinite).mp h)
  exact (beq_zero_iff hof).mpr hzero

theorem Magnitude.joinValue_beq_zero (t : Magnitude) (h : (v == 0) = true) :
    (PackedSigns.joinValue t (t.of v) (decide (v < 0)) == 0) = true := by
  have hfinite := isFinite_of_zero h
  obtain ⟨hjoin, hzero⟩ :=
    t.joinValue_zero hfinite ((beq_zero_iff hfinite).mp h)
  exact (beq_zero_iff hjoin).mpr hzero

end Zeros

namespace SolverMatrix

variable {α : Type} [Scalar α]

/-- What normalization leaves of a factor of one. -/
def shareOf (norm : α) : α :=
  if 0 < norm ∧ Scalar.isFinite norm then Scalar.recip (Scalar.sqrt norm) else 1

variable [FloatingPoint α] [UniquelyPacked α] {M : SolverMatrix α}
  {A : SlicedMatrix α}

theorem factorsFor_one (t : Magnitude) {x : Array α} {i : Nat}
    (h : x[i]? = some 1) :
    (factorsFor t x)[i]? = some 1 := by
  cases t with
  | absolute => exact h
  | square =>
    show (x.map Scalar.sqrt)[i]? = some 1
    rw [Array.getElem?_map, h, Option.map_some, sqrt_one]

/-- Factors that are all one are put out as ones. -/
theorem factorsFor_of_ones (t : Magnitude) {x : Array α} {n : Nat}
    (hsize : x.size = n) (h : ∀ i < n, x[i]? = some 1) :
    factorsFor t x = .replicate n 1 := by
  have hsize := (size_factorsFor t x).trans hsize
  refine Array.eq_replicate_iff.mpr ⟨hsize, fun v hv => ?_⟩
  obtain ⟨i, hi⟩ := Array.mem_iff_getElem?.mp hv
  obtain ⟨hlt, -⟩ := Array.getElem?_eq_some_iff.mp hi
  exact Option.some.inj
    (hi.symm.trans (factorsFor_one t (h i (hlt.trans_eq hsize))))

theorem normalizedBy_one (M : SolverMatrix α) (A : SlicedMatrix α) (norm : α)
    (d e : Array α) (i : Nat) :
    (d[i]? = some 1 → (M.normalizedBy A norm d e).d[i]? = some (shareOf norm))
      ∧ (e[i]? = some 1 →
        (M.normalizedBy A norm d e).e[i]? = some (shareOf norm)) := by
  unfold normalizedBy shareOf
  split
  · simp only [Vec.scale, Array.getElem?_map]
    constructor <;> intro h <;> rw [h, Option.map_some, FloatingPoint.one_mul]
  · exact ⟨id, id⟩

namespace Holds

variable (hM : M.Holds A) [Displayed α] {d e : Array α} {w : World}
  {out : Equilibrated α} (h : M.equilibrate d e w = .ok out)
  {summary : EquilibrationSummary α} (hok : out.result = .ok summary)

include hM h hok

/-- **Lines whose magnitudes are zeros share one factor** after an
equilibration. -/
theorem share_of_zeros :
    let t := magnitudeFor M.options.balanceNorm
    (∀ i < M.rows, A.AllInLine .normal (t.of · == 0) i →
        out.d[i]? = some (shareOf summary.norm))
      ∧ ∀ j < M.cols, A.AllInLine .transposed (t.of · == 0) j →
      out.e[j]? = some (shareOf summary.norm) := by
  obtain ⟨t, run, watches, outlet, rfl, hrun, -, -, -, hd, he⟩ :=
    hM.of_equilibrate_ok FloatingPoint.mul_comm h hok
  intro t
  obtain ⟨hrows, hcols⟩ := (hM.holding_magnitudes t).one_of_run hrun
  rw [hd, he]
  constructor
  · intro i hi hzero
    exact (normalizedBy_one _ _ _ _ _ i).1
      (factorsFor_one t (hrows i hi (hzero.mapEntries _ fun _ _ _ => id)))
  · intro j hj hzero
    exact (normalizedBy_one _ _ _ _ _ j).2
      (factorsFor_one t (hcols j hj (hzero.mapEntries _ fun _ _ _ => id)))

/-- **Zeros stay as they are.** No norm of them is positive, all factors are
one, and the products of zeros with ones are zeros. -/
theorem unchanged_of_zeros [StandardFloat α]
    (hzero : ∀ v ∈ A.values, (v == 0) = true) :
    ¬ 0 < summary.norm ∧ out.d = .replicate M.rows 1
      ∧ out.e = .replicate M.cols 1
      ∧ ∃ B, out.matrix.Holds B ∧ ∀ v ∈ B.values, (v == 0) = true := by
  obtain ⟨t, run, watches, outlet, -, hrun, hrecord, hestimate, hmatrix,
    hd, he⟩ :=
    hM.of_equilibrate_ok FloatingPoint.mul_comm h hok
  have hmag := hM.holding_magnitudes t
  obtain ⟨⟨hdsize, -⟩, hesize, -⟩ := hmag.zero_le_factors hrun hrecord
  obtain ⟨hrows, hcols⟩ := hmag.one_of_run hrun
  -- every line is one of zeros
  have hd1 : factorsFor t run.d = .replicate M.rows 1 :=
    factorsFor_of_ones t hdsize fun i hi => hrows i hi
      ((SlicedMatrix.allInLine_of_values hM.check hzero).mapEntries _
        fun _ _ _ => t.of_beq_zero)
  have he1 : factorsFor t run.e = .replicate M.cols 1 :=
    factorsFor_of_ones t hesize fun j hj => hcols j hj
      ((SlicedMatrix.allInLine_of_values hM.check hzero).mapEntries _
        fun _ _ _ => t.of_beq_zero)
  have hB := hM.holding_balanced t (factorsFor t run.d) (factorsFor t run.e)
  have hvalues :
      ∀ v ∈ (balanced A t (factorsFor t run.d) (factorsFor t run.e)).values,
      (v == 0) = true := by
    intro u hu
    obtain ⟨i, j, hmem⟩ := SlicedMatrix.mem_triplets_of_mem_values hB.check hu
    rw [balanced, SlicedMatrix.triplets_mapEntries] at hmem
    obtain ⟨⟨i', j', v⟩, hv, heq⟩ := List.mem_map.mp hmem
    cases heq
    obtain ⟨hi, hj⟩ := SlicedMatrix.lt_of_mem_triplets hM.check hv
    dsimp only
    rw [hd1, he1, Array.getD_eq_getD_getElem?, Array.getElem?_replicate,
      if_pos (hi.trans_eq hM.rows_eq.symm), Array.getD_eq_getD_getElem?,
      Array.getElem?_replicate, if_pos (hj.trans_eq hM.cols_eq.symm)]
    refine zero_mul_of_finite (t.joinValue_beq_zero
      (hzero v (SlicedMatrix.mem_values_of_mem_triplets hM.check hv))) ?_
    rw [Option.getD_some, FloatingPoint.one_mul]
    exact isFinite_one.1
  have hnorm : ¬ 0 < summary.norm := hB.norm_not_pos hvalues hestimate
  rw [normalizedBy, if_neg fun hpos => hnorm hpos.1] at hmatrix hd he
  refine ⟨hnorm, hd.trans hd1, he.trans he1, _, ?_, hvalues⟩
  rw [hmatrix]
  exact hB.of_rest _ _ _

end Holds

end SolverMatrix

namespace Session

variable {α : Type} [Scalar α] [FloatingPoint α] [StandardFloat α]
  [UniquelyPacked α] [Displayed α]

/-- **Rows and columns of zeros keep the factor one.** Whatever is done with a
matrix of any input, let it be built, and take vectors that fit. A balancing
run with any budget and tolerance leaves the factor of each row and column
that holds nothing but zeros at exactly one, whatever the other values are.
An equilibration, unless it is refused for the 1-norm, gives one factor to all
rows and columns whose magnitudes are zeros: one, or one over the root of the
norm if that is a positive finite number. If all values are zeros, or there
are no rows or no columns, the norm is not positive, all factors are one, and
all values of both forms stay zeros.

That the pointers of the input are in memory bounds the dimensions. -/
theorem zero_lines_keep_one (input : MatrixInput α)
    (hstarts : input.starts.size < capacity) (M : SolverMatrix α)
    (hM : M.input? = some input) (w : World) (requests : List (Request α))
    (replies : List (Reply α)) (s : Session α)
    (hserve : serveAll ⟨M, w⟩ requests = .ok (replies, s)) (P : PairedMatrix α)
    (hP : s.matrix.pair = .ok P) (d e : Array α) (hd : d.size = input.rows)
    (he : e.size = input.cols) :
    (∀ (budget : UInt32) (tol : α), ∃ r record,
      s.serve (.balance d e budget tol) = .ok (.balanced r, s)
        ∧ r.outcome = .ok record
        ∧ (∀ i < input.rows,
          P.row.AllInLine .normal (· == 0) i → r.d[i]? = some 1)
        ∧ ∀ j < input.cols,
          P.row.AllInLine .transposed (· == 0) j → r.e[j]? = some 1)
    ∧ (s.matrix.options.normalizeNorm ≠ .one → ∃ summary d' e' s',
      s.serve (.call (.equilibrate d e))
        = .ok (.answer (.equilibrated summary d' e'), s')
        ∧ (let t := SolverMatrix.magnitudeFor s.matrix.options.balanceNorm
          let share := SolverMatrix.shareOf summary.norm
          (∀ i < input.rows, P.row.AllInLine .normal (t.of · == 0) i →
            d'[i]? = some share)
          ∧ ∀ j < input.cols, P.row.AllInLine .transposed (t.of · == 0) j →
            e'[j]? = some share)
        ∧ ((∀ v ∈ P.row.values, (v == 0) = true)
            ∨ min input.rows input.cols = 0 →
          ¬ 0 < summary.norm
          ∧ d' = .replicate input.rows 1 ∧ e' = .replicate input.cols 1
          ∧ ∃ P', s'.matrix.pair = .ok P'
            ∧ (∀ v ∈ P'.row.values, (v == 0) = true)
            ∧ ∀ v ∈ P'.col.values, (v == 0) = true)) := by
  have hcomm : ∀ a b : α, a * b = b * a := FloatingPoint.mul_comm
  have hlives := ((Lives.of_input hM).serveAll hcomm hserve).1
  obtain ⟨hcheck, f, hW⟩ := hlives.state.resolve_left fun hinput => by
    rw [SolverMatrix.pair_of_input hinput] at hP
    cases hP
  have hrows : s.matrix.rows = input.rows := hW.rows_eq
  have hcols : s.matrix.cols = input.cols := hW.cols_eq
  have hempty : min input.rows input.cols = 0 →
      (input.matrix.mapEntries f).values = #[] :=
    fun hmin => SlicedMatrix.values_eq_empty hW.check (by
      show input.rows = 0 ∨ input.cols = 0
      omega)
  have hroom := hW.dims_lt (by
    rwa [SlicedMatrix.starts_mapEntries (MatrixInput.check_eq_ok_iff.mp
      hcheck).2])
  rw [hW.pair] at hP
  cases hP
  generalize input.matrix.mapEntries f = W at hW hempty
  simp only [SlicedMatrix.allInLine_row_iff hW.check,
    SlicedMatrix.mem_values_row hW.check hW.room]
  rw [← hrows] at hd hempty ⊢
  rw [← hcols] at he hempty ⊢
  constructor
  · intro budget tol
    obtain ⟨record, hrun, -⟩ :=
      Balancing.run_ends hW.computes hd he hroom.2 budget.toNat tol
    exact ⟨_, record, bind_eq_ok_iff.mpr ⟨_, hrun, rfl⟩, rfl,
      hW.one_of_run hrun⟩
  · intro hnorm
    obtain ⟨out, hout⟩ :=
      hW.equilibrate_total hcomm hd he hroom.1 hroom.2 s.world
    obtain ⟨summary, hok⟩ := hW.summary_of_equilibrate hcomm hnorm hout
    refine ⟨summary, out.d, out.e, ⟨out.matrix, out.world⟩,
      bind_eq_ok_iff.mpr ⟨_, perform_equilibrate_of_ok hout hok, rfl⟩,
      hW.share_of_zeros hout hok, fun hzeros => ?_⟩
    have hzero : ∀ v ∈ W.values, (v == 0) = true :=
      hzeros.elim id fun hmin v hv => by
      rw [hempty hmin] at hv
      exact absurd hv (Array.not_mem_empty v)
    obtain ⟨hpos, hd', he', B, hB, hvalues⟩ :=
      hW.unchanged_of_zeros hout hok hzero
    exact ⟨hpos, hd', he', _, hB.pair, fun v hv => hvalues v
      ((SlicedMatrix.mem_values_row hB.check hB.room).mp hv), fun v hv =>
      hvalues v ((SlicedMatrix.mem_values_col hB.check hB.room).mp hv)⟩

/-- A row and a column of zeros, and a row and a column without values,
beside infinity and what is no number, with a tolerance that is no number; and
a matrix that holds one zero with a sign. -/
theorem zero_lines_keep_one_beside_infinity :
    let input : MatrixInput Float32 :=
      ⟨.row, 3, 4, 5, #[0, 2, 5, 5], #[0, 3, 0, 1, 3],
        #[-0, 0, -0, 1 / 0, 0 / 0]⟩
    let zeros : MatrixInput Float := ⟨.col, 1, 2, 1, #[0, 1, 1], #[0], #[-0]⟩
    let w : World := { readings := fun n => n }
    (input.starts.size < capacity ∧ ∃ s r record,
      serveAll ⟨.ofInput input .standard, w⟩ [.call .build]
        = .ok ([.answer .done], s)
      ∧ s.serve (.balance #[7, 7, 7] #[7, 7, 7, 7] 50 (0 / 0))
        = .ok (.balanced r, s)
      ∧ r.outcome = .ok record ∧ (r.d[0]? = some 1 ∧ r.d[2]? = some 1)
      ∧ r.e[0]? = some 1 ∧ r.e[2]? = some 1)
    ∧ zeros.starts.size < capacity ∧ ∃ s s' summary,
      serveAll ⟨.ofInput zeros .standard, w⟩ [.call .build]
        = .ok ([.answer .done], s)
      ∧ s.serve (.call (.equilibrate #[7] #[7, 7]))
        = .ok (.answer (.equilibrated summary #[1] #[1, 1]), s')
      ∧ ¬ 0 < summary.norm := by
  intro input zeros w
  have hinput : input.check = .ok (.ok ()) := by decide +kernel
  have hzeros : zeros.check = .ok (.ok ()) := by decide +kernel
  refine ⟨⟨by decide, ?_⟩, by decide, ?_⟩
  · obtain ⟨s, hserve, hholds, -⟩ :=
      serve_build_holds (M := .ofInput input .standard) hinput
        ⟨by decide, by decide, by decide⟩ rfl w
    obtain ⟨hbalance, -⟩ := zero_lines_keep_one input (by decide) _ rfl w _ _ s
      hserve _ hholds.pair #[7, 7, 7] #[7, 7, 7, 7] rfl rfl
    obtain ⟨r, record, hrun, hok, hrows, hcols⟩ := hbalance 50 (0 / 0)
    exact ⟨s, r, record, hserve, hrun, hok, ⟨hrows 0 (by decide)
      (by decide +kernel), hrows 2 (by decide) (by decide +kernel)⟩, hcols 0
      (by decide) (by decide +kernel), hcols 2 (by decide) (by decide +kernel)⟩
  · obtain ⟨s, hserve, hholds, hoptions⟩ :=
      serve_build_holds (M := .ofInput zeros .standard) hzeros
        ⟨by decide, by decide, by decide⟩ rfl w
    obtain ⟨-, hequilibrate⟩ := zero_lines_keep_one zeros
      (by decide) _ rfl w _ _ s hserve _ hholds.pair #[7] #[7, 7] rfl rfl
    obtain ⟨summary, d, e, s', hrun, -, hunchanged⟩ :=
      hequilibrate (by rw [hoptions]; exact nofun)
    obtain ⟨hnorm, rfl, rfl, -⟩ := hunchanged (.inl (by decide +kernel))
    exact ⟨s, s', summary, hserve, hrun, hnorm⟩

end Session

end Equilibration
