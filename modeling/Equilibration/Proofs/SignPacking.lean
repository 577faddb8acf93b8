import Mathlib.Data.Nat.Bitwise
import Equilibration.PackedSigns
import Equilibration.Proofs.WorkItems

/-!
# SignPacking — splitting and joining, value by value

Splitting walks through a vector in chunks of eight and packs the signs of
each chunk into a byte; joining walks through in the same chunks and takes
the bits out again. The chunks are independent work items
(`independent_splitItems`, `independent_joinItems`). Seen from outside,
splitting replaces every value by its magnitude, and joining gives every
magnitude the sign that the value at its position had (`join_signsOf`). Bytes
and chunks do not show.
-/

namespace Equilibration

open Checked WorkItems

namespace PackedSigns

variable {α : Type} [Scalar α]

/-! ## One byte -/

theorem pack_lt (vs : List α) : pack vs < 2 ^ vs.length := by
  induction vs with
  | nil => simp [pack]
  | cons v vs ih =>
    rw [pack, List.length_cons, Nat.pow_succ]
    split <;> omega

/-- Bit `i` is the sign of value `i`. -/
theorem testBit_pack {vs : List α} {i : Nat} (h : i < vs.length) :
    (pack vs).testBit i = decide (vs[i] < 0) := by
  induction vs generalizing i with
  | nil => cases h
  | cons v vs ih =>
    cases i with
    | zero =>
      rw [pack, Nat.testBit_zero, List.getElem_cons_zero]
      by_cases hv : v < 0
      · rw [if_pos hv, decide_eq_true hv]
        exact decide_eq_true (by omega)
      · rw [if_neg hv, decide_eq_false hv]
        exact decide_eq_false (by omega)
    | succ i =>
      have hhalf : ((if v < 0 then 1 else 0) + 2 * pack vs) / 2 = pack vs := by
        split <;> omega
      rw [pack, Nat.testBit_add_one, hhalf, List.getElem_cons_succ]
      exact ih (Nat.lt_of_succ_lt_succ h)

/-- The byte of a chunk. -/
def byteOf (vs : List α) : UInt8 := .ofNat (pack vs)

/-- The unused bits of a byte are clear. -/
theorem testBit_byteOf {vs : List α} (h : vs.length ≤ chunkSize) (b : Nat) :
    (byteOf vs).toNat.testBit b = (vs[b]?).any fun v => decide (v < 0) := by
  have hlt : pack vs < UInt8.size :=
    Nat.lt_of_lt_of_le (pack_lt vs) (Nat.pow_le_pow_right (by decide) h)
  rw [byteOf, UInt8.toNat_ofNat_of_lt' hlt]
  by_cases hb : b < vs.length
  · rw [testBit_pack hb, List.getElem?_eq_getElem hb, Option.any_some]
  · have hle := Nat.le_of_not_lt hb
    rw [List.getElem?_eq_none hle, Option.any_none]
    exact Nat.testBit_lt_two_pow
      ((pack_lt vs).trans_le (Nat.pow_le_pow_right (by decide) hle))

/-! ## The chunks of a vector -/

/-- Chunk `k` of a vector. -/
def chunkAt {β : Type} (vs : List β) (k : Nat) : List β :=
  (vs.drop (chunkSize * k)).take chunkSize

/-- The signs of a vector. -/
def signsOf (vs : List α) : PackedSigns where
  bytes := ((List.range (chunkCount vs.length)).map fun k =>
      byteOf (chunkAt vs k)).toArray
  size := vs.length

theorem length_chunkAt_le {β : Type} (vs : List β) (k : Nat) :
    (chunkAt vs k).length ≤ chunkSize := List.length_take_le _ _

theorem length_le_chunks (n : Nat) : n ≤ chunkSize * chunkCount n := by
  simp only [chunkSize, chunkCount]
  omega

theorem lt_of_lt_chunkCount {n k : Nat} (h : k < chunkCount n) :
    chunkSize * k < n := by
  simp only [chunkSize, chunkCount] at h ⊢
  omega

/-- Position `i` lies in chunk `i / 8`, at place `i % 8`. -/
theorem getElem?_chunkAt {β : Type} (vs : List β) (i : Nat) :
    (chunkAt vs (i / chunkSize))[i % chunkSize]? = vs[i]? := by
  have hplace : i % chunkSize < chunkSize := Nat.mod_lt i (by decide)
  rw [chunkAt, List.getElem?_take_of_lt hplace, List.getElem?_drop,
    Nat.div_add_mod]

theorem size_bytes_signsOf (vs : List α) :
    (signsOf vs).bytes.size = chunkCount vs.length := by
  simp [signsOf]

theorem getElem_bytes_signsOf {vs : List α} {k : Nat}
    (h : k < (signsOf vs).bytes.size) :
    (signsOf vs).bytes[k] = byteOf (chunkAt vs k) := by
  simp [signsOf]

/-- **The bits are the signs.** -/
theorem testBit_signsOf (vs : List α) (i : Nat) :
    ((signsOf vs).bytes.getD (i / chunkSize) 0).toNat.testBit (i % chunkSize)
      = (vs[i]?).any fun v => decide (v < 0) := by
  by_cases hk : i / chunkSize < (signsOf vs).bytes.size
  · rw [Array.getD_eq_getD_getElem?, Array.getElem?_eq_getElem hk,
      Option.getD_some, getElem_bytes_signsOf hk,
      testBit_byteOf (length_chunkAt_le vs _), getElem?_chunkAt]
  · have hle : vs.length ≤ i := by
      rw [size_bytes_signsOf] at hk
      have hcount := length_le_chunks vs.length
      simp only [chunkSize, chunkCount] at hk hcount
      omega
    rw [Array.getD_eq_getD_getElem?,
      Array.getElem?_eq_none (Nat.le_of_not_lt hk),
      Option.getD_none, List.getElem?_eq_none hle, Option.any_none]
    exact Nat.zero_testBit _

/-! ## The cells of a chunk -/

/-- The positions of chunk `k` of `n` values. -/
def chunkCells (n k : Nat) : Set Nat :=
  Set.Ico (chunkSize * k) (min (chunkSize * k + chunkSize) n)

theorem mem_chunkCells {n k i : Nat} :
    i ∈ chunkCells n k ↔ i < n ∧ i / chunkSize = k := by
  simp only [chunkCells, Set.mem_Ico, chunkSize]
  omega

theorem eq_of_mem_chunkCells {n k l i : Nat} (hk : i ∈ chunkCells n k)
    (hl : i ∈ chunkCells n l) :
    k = l :=
  (mem_chunkCells.mp hk).2.symm.trans (mem_chunkCells.mp hl).2

theorem exists_mem_chunkCells {n i : Nat} :
    (∃ k ∈ List.range (chunkCount n), i ∈ chunkCells n k) ↔ i < n := by
  simp only [mem_chunkCells, List.mem_range, chunkCount, chunkSize]
  constructor
  · rintro ⟨k, -, hi, -⟩
    exact hi
  · intro hi
    exact ⟨i / 8, by omega, hi, rfl⟩

/-- An update from the start of a chunk on rewrites the cells of the chunk. -/
theorem chunkCells_eq {n k count : Nat} (hk : k < chunkCount n)
    (hcount : count = min chunkSize (n - chunkSize * k)) :
    chunkCells n k = Set.Ico (chunkSize * k) (chunkSize * k + count) := by
  have := lt_of_lt_chunkCount hk
  rw [chunkCells, hcount]
  congr 1
  omega

omit [Scalar α] in
/-- A chunk is read from its own cells. -/
theorem extract_chunk {values z : Array α} {k : Nat}
    (hsize : z.size = values.size)
    (h : ∀ i ∈ chunkCells values.size k, z[i]? = values[i]?) :
    (z.extract (chunkSize * k) (chunkSize * k + chunkSize)).toList
      = chunkAt values.toList k := by
  apply List.ext_getElem?
  intro j
  rw [chunkAt, List.getElem?_take, List.getElem?_drop, Array.getElem?_toList,
    Array.getElem?_toList, Array.getElem?_extract, hsize]
  by_cases hj : j < chunkSize
  · rw [if_pos hj]
    by_cases hlt : chunkSize * k + j < values.size
    · rw [if_pos (by omega)]
      exact h _ ⟨Nat.le_add_right _ _, by omega⟩
    · rw [if_neg (by omega), Array.getElem?_eq_none (by omega)]
  · rw [if_neg hj, if_neg (by omega)]

/-! ## Splitting -/

/-- The chunks of splitting. An item writes the values of its chunk and its
byte. -/
def splitItems (t : Magnitude) (n : Nat) :
    WorkItems (Array α × Array UInt8) Nat (Nat ⊕ Nat)
      (Option α × Option UInt8) where
  items := List.range (chunkCount n)
  run := splitChunk t
  Shaped s := s.1.size = n ∧ s.2.size = chunkCount n
  output := {i | Sum.elim (· < n) (· < chunkCount n) i}
  cell s i := i.elim (fun i => (s.1[i]?, none)) (fun k => (none, s.2[k]?))
  region k := {i | Sum.elim (· ∈ chunkCells n k) (· = k) i}
  ext {s s'} hs hs' h := by
    refine Prod.ext (Array.ext_getElem? fun i => ?_)
      (Array.ext_getElem? fun k => ?_)
    · by_cases hi : i < n
      · exact congrArg Prod.fst (h (.inl i) hi)
      · rw [Array.getElem?_eq_none (by omega),
          Array.getElem?_eq_none (by omega)]
    · by_cases hk : k < chunkCount n
      · exact congrArg Prod.snd (h (.inr k) hk)
      · rw [Array.getElem?_eq_none (by omega),
          Array.getElem?_eq_none (by omega)]

theorem acts_splitItems (t : Magnitude) (values : Array α) {k : Nat}
    (hk : k < chunkCount values.size) :
    (splitItems t values.size).Acts
      (values, Array.replicate (chunkCount values.size) 0)
      (values.map t.of, (signsOf values.toList).bytes) k := by
  rintro ⟨z, bytes⟩ ⟨hz, hbytes⟩ hsk
  change z.size = values.size at hz
  change bytes.size = chunkCount values.size at hbytes
  -- the chunk that the item reads is the chunk that it writes
  have hkeep : ∀ i ∈ chunkCells values.size k, z[i]? = values[i]? := fun i hi =>
    congrArg Prod.fst (hsk (.inl i) hi)
  have hlen : (chunkAt values.toList k).length
      = min chunkSize (values.size - chunkSize * k) := by
    rw [chunkAt, List.length_take, List.length_drop, Array.length_toList]
  have hregion := chunkCells_eq hk hlen
  have hlt := lt_of_lt_chunkCount hk
  have hcells : ∀ j c, (chunkAt values.toList k)[j]? = some c →
      (values.map t.of)[chunkSize * k + j]? = z[chunkSize * k + j]?.map fun v =>
        t.of v := by
    intro j c hc
    obtain ⟨hj, -⟩ := List.getElem?_eq_some_iff.mp hc
    rw [hkeep _ (hregion ▸ ⟨Nat.le_add_right _ _, Nat.add_lt_add_left hj _⟩),
      Array.getElem?_map]
  obtain ⟨z', hrun, hsize, hinside, houtside⟩ :=
    updateFrom_region (fun v _ => t.of v) (by omega) hcells
  rw [← hregion] at hinside houtside
  have hbyte : k < bytes.size := hbytes ▸ hk
  refine ⟨(z', bytes.set k (byteOf (chunkAt values.toList k))), ?_,
    ⟨hsize.trans hz, (Array.size_set hbyte).trans hbytes⟩, ?_, ?_⟩
  · show splitChunk t (z, bytes) k = _
    unfold splitChunk
    simp only [extract_chunk hz hkeep]
    rw [← byteOf, write_eq_ok hbyte, ok_bind, hrun, ok_bind]
    rfl
  · rintro (i | i) hi
    · exact congrArg (·, none) (hinside i hi)
    · obtain rfl : i = k := hi
      simp [splitItems, signsOf, hk]
  · rintro (i | i) hi
    · exact congrArg (·, none) (houtside i hi)
    · exact congrArg (none, ·) (Array.getElem?_set_ne hbyte fun hki =>
          hi hki.symm)

theorem independent_splitItems (t : Magnitude) (values : Array α) :
    (splitItems t values.size).Independent
      (values, Array.replicate (chunkCount values.size) 0)
      (values.map t.of, (signsOf values.toList).bytes) where
  start_shaped := ⟨rfl, Array.size_replicate⟩
  result_shaped := ⟨Array.size_map, by simp [signsOf]⟩
  disjoint := by
    refine List.pairwise_lt_range.imp ?_
    rintro k l hkl (i | i) hk hl
    · exact hkl.ne (eq_of_mem_chunkCells hk hl)
    · exact hkl.ne (hk.symm.trans hl)
  covers i := by
    rcases i with i | i
    · exact exists_mem_chunkCells.symm
    · simp [splitItems]
  acts _ hk := acts_splitItems t values (List.mem_range.mp hk)

/-- Splitting gives the signs and leaves the magnitudes. -/
theorem split_eq_ok (t : Magnitude) {values : Array α}
    (h : values.size + (chunkSize - 1) < UInt64.size) :
    split t values = .ok (signsOf values.toList, values.map t.of) := by
  have hloop := (independent_splitItems t values).any_order (List.Perm.refl _)
  unfold split
  rw [addWords_eq_ok h, ok_bind]
  show ((List.range (chunkCount values.size)).foldlM (splitChunk t)
    (values, Array.replicate (chunkCount values.size) 0) >>= _) = _
  refine (congrArg (· >>= _) hloop).trans ?_
  rfl

/-! ## Joining -/

/-- The chunks of joining. -/
def joinItems (signs : PackedSigns) (t : Magnitude) (n : Nat) :
    WorkItems (Array α) Nat Nat (Option α) :=
  onArray n (List.range (chunkCount n)) (signs.joinChunk t) (chunkCells n)

/-- Every value with the sign that is recorded for its position. -/
def joined (signs : PackedSigns) (t : Magnitude) (values : Array α) : Array α :=
  values.mapIdx fun i v =>
    joinValue t v
      ((signs.bytes.getD (i / chunkSize) 0).toNat.testBit (i % chunkSize))

section Join

variable {signs : PackedSigns} (t : Magnitude) {values : Array α}
  (hbytes : signs.bytes.size = chunkCount values.size)

include hbytes

theorem acts_joinItems {k : Nat} (hk : k < chunkCount values.size) :
    (signs.joinItems t values.size).Acts values (signs.joined t values) k := by
  intro z hz hzk
  change z.size = values.size at hz
  have hbyte : k < signs.bytes.size := hbytes ▸ hk
  have hlt := lt_of_lt_chunkCount hk
  have hregion := chunkCells_eq hk rfl
  have hcells :
      ∀ j c, ((List.range (min chunkSize (values.size - chunkSize * k))).map
        signs.bytes[k].toNat.testBit)[j]? = some c →
        (signs.joined t values)[chunkSize * k + j]?
          = z[chunkSize * k + j]?.map (joinValue t · c) := by
    intro j c hc
    obtain ⟨hj, rfl⟩ := List.getElem?_eq_some_iff.mp hc
    rw [List.length_map, List.length_range] at hj
    have hmem : chunkSize * k + j ∈ chunkCells values.size k := by
      rw [hregion]
      exact ⟨Nat.le_add_right _ _, Nat.add_lt_add_left hj _⟩
    have hdiv := (mem_chunkCells.mp hmem).2
    have hmod : (chunkSize * k + j) % chunkSize = j := by
      rw [Nat.mul_add_mod]
      exact Nat.mod_eq_of_lt (by omega)
    have hkeep : z[chunkSize * k + j]? = values[chunkSize * k + j]? :=
      hzk _ hmem
    rw [joined, Array.getElem?_mapIdx, hdiv, hmod, hkeep, Array.getD,
      dif_pos hbyte, List.getElem_map, List.getElem_range]
    rfl
  obtain ⟨z', hrun, hsize, hinside, houtside⟩ := updateFrom_region (joinValue t)
    (by rw [List.length_map, List.length_range]; omega) hcells
  rw [List.length_map, List.length_range, ← hregion] at hinside houtside
  refine ⟨z', ?_, hsize.trans hz, hinside, houtside⟩
  show signs.joinChunk t z k = _
  rw [joinChunk, read_eq_ok hbyte, ok_bind, hz]
  exact hrun

theorem independent_joinItems :
    (signs.joinItems t values.size).Independent values
      (signs.joined t values) where
  start_shaped := rfl
  result_shaped := Array.size_mapIdx
  disjoint := List.pairwise_lt_range.imp fun hkl _ hk hl =>
    hkl.ne (eq_of_mem_chunkCells hk hl)
  covers _ := exists_mem_chunkCells.symm
  acts _ hk := acts_joinItems t hbytes (List.mem_range.mp hk)

/-- Joining reads the signs bit by bit. -/
theorem join_eq_ok (hsize : values.size = signs.size) :
    signs.join t values = .ok (signs.joined t values) := by
  rw [join, require_eq_ok hsize, ok_bind]
  exact (independent_joinItems t hbytes).any_order (List.Perm.refl _)

end Join

/-- Joining gives every magnitude the sign that was split off at its
position. -/
theorem join_signsOf (t : Magnitude) {values magnitudes : Array α}
    (h : magnitudes.size = values.size) :
    (signsOf values.toList).join t magnitudes
      = .ok (Array.zipWith (fun v w =>
        joinValue t w (decide (v < 0))) values magnitudes) := by
  have hbytes :
      (signsOf values.toList).bytes.size = chunkCount magnitudes.size := by
    rw [size_bytes_signsOf, h, Array.length_toList]
  rw [join_eq_ok t hbytes h]
  congr 1
  apply Array.ext
  · simp [joined, h]
  · intro i hi hi'
    have hbit := testBit_signsOf values.toList i
    have hv : i < values.toList.length := by
      rw [Array.length_toList]
      exact Nat.lt_of_lt_of_le hi' (by simp)
    rw [List.getElem?_eq_getElem hv, Option.any_some, Array.getElem_toList]
      at hbit
    simp only [joined, Array.getElem_mapIdx, Array.getElem_zipWith, hbit]

end PackedSigns

end Equilibration
