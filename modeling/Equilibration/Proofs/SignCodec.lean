import Equilibration.Proofs.Negation
import Equilibration.Proofs.SignPacking

/-!
# SignCodec — bytes of signs

The bytes that splitting leaves, bit by bit: bit `i % 8` of byte `i / 8`
tells whether value `i` was negative, the bits behind the last value are
clear, and asking for one sign (`PackedSigns.signAt`) reads the same bit. So
splitting and joining agree on every position, whatever becomes of the
magnitudes in between.

Main result: splitting and joining are inverse to each other but for the sign
of zeros (`PackedSigns.signs_survive`). A negative zero is not negative and
comes back as zero; what is no number has no sign and comes back as it is.
-/

namespace Equilibration

open Checked FloatingPoint

namespace PackedSigns

section Bits

variable {α : Type} [Scalar α] {vs : List α}

theorem signAt_signsOf {i : Nat} (h : i < vs.length) :
    (signsOf vs).signAt i = .ok (decide (vs[i] < 0)) := by
  have hk : i / chunkSize < (signsOf vs).bytes.size := by
    rw [size_bytes_signsOf]
    simp only [chunkSize, chunkCount]
    omega
  have hbit :=
    testBit_byteOf (length_chunkAt_le vs (i / chunkSize)) (i % chunkSize)
  rw [getElem?_chunkAt, List.getElem?_eq_getElem h, Option.any_some] at hbit
  rw [signAt, require_eq_ok (show i < (signsOf vs).size from h), ok_bind,
    read_eq_ok hk, ok_bind, getElem_bytes_signsOf hk, hbit]
  rfl

end Bits

variable {α : Type} [Scalar α] [FloatingPoint α] [UniquelyPacked α]

/-- Absolute values get their signs back, and zeros become positive. -/
theorem join_absolute (values : Array α) :
    (signsOf values.toList).join .absolute (values.map (Magnitude.of .absolute))
      = .ok (values.map fun v => if v == 0 then 0 else v) := by
  rw [join_signsOf .absolute Array.size_map]
  congr 1
  apply Array.ext
  · simp
  · intro i hi hi'
    simp only [Array.getElem_zipWith, Array.getElem_map, joinValue,
      Magnitude.of, Magnitude.undo, decide_eq_true_eq]
    exact signed_abs _

/-- **Signs survive whatever happens to the magnitudes.** Splitting replaces
every value by its magnitude and leaves a byte for every eight values or part
of eight; bit `i % 8` of byte `i / 8` is set if value `i` is negative, and no
other bit is. From any numbers of the same count, joining makes those that the
transform is undone to, with the sign turned where a value was negative.
Absolute values that are joined at once give back the values themselves, with
zero for either zero. The bound on the count is that of a word, and nothing in
memory exceeds it. -/
theorem signs_survive (t : Magnitude) {values : Array α}
    (h : values.size + (chunkSize - 1) < UInt64.size) :
    ∃ signs : PackedSigns, split t values = .ok (signs, values.map t.of)
      ∧ signs.size = values.size
      ∧ signs.bytes.size = (values.size + 7) / 8
      ∧ (∀ i (hi : i < values.size),
          (signs.bytes.getD (i / 8) 0).toNat.testBit (i % 8)
            = decide (values[i] < 0)
          ∧ signs.signAt i = .ok (decide (values[i] < 0)))
      ∧ (∀ i, values.size ≤ i →
        (signs.bytes.getD (i / 8) 0).toNat.testBit (i % 8) = false)
      ∧ (∀ (t' : Magnitude) (w : Array α), w.size = values.size →
          signs.join t' w = .ok (Array.zipWith
            (fun v m => if v < 0 then -(t'.undo m) else t'.undo m) values w))
      ∧ (t = .absolute → signs.join .absolute (values.map t.of)
          = .ok (values.map fun v => if v == 0 then 0 else v)) := by
  refine ⟨_, split_eq_ok t h, by simp [signsOf], size_bytes_signsOf _,
    fun i hi => ⟨?_, ?_⟩, fun i hi => ?_, fun t' w hw => ?_, ?_⟩
  · rw [← Array.getElem_toList hi]
    refine (testBit_signsOf values.toList i).trans ?_
    rw [List.getElem?_eq_getElem (by simpa using hi), Option.any_some]
  · have hi' : i < values.toList.length := by simpa using hi
    exact signAt_signsOf hi'
  · refine (testBit_signsOf values.toList i).trans ?_
    rw [List.getElem?_eq_none (by simpa using hi), Option.any_none]
  · simp only [join_signsOf t' hw, joinValue, decide_eq_true_eq]
  · rintro rfl
    exact join_absolute values

/-- Ten values: both zeros, no number, both infinities, and five more. -/
def tenValues : Array Float := #[-3, 0, -0, 0 / 0, -1 / 0, 1 / 0, 2, -5, -7, 4]

/-- Ten values take two bytes, of which the second has two bits in use. -/
theorem signs_survive_ten :
    tenValues.size + (chunkSize - 1) < UInt64.size
    ∧ split .absolute tenValues
      = .ok (⟨#[0b10010001, 0b01], 10⟩, tenValues.map Scalar.abs)
    ∧ join ⟨#[0b10010001, 0b01], 10⟩ .absolute (tenValues.map Scalar.abs)
      = .ok #[-3, 0, 0, 0 / 0, -1 / 0, 1 / 0, 2, -5, -7, 4] := by
  have hsize : tenValues.size + (chunkSize - 1) < UInt64.size := by decide
  have hrun : split .absolute tenValues
      = .ok (⟨#[0b10010001, 0b01], 10⟩, tenValues.map Scalar.abs) := by
    decide +kernel
  obtain ⟨signs, hsplit, -, -, -, -, -, hjoin⟩ := signs_survive .absolute hsize
  rw [hrun] at hsplit
  cases hsplit
  refine ⟨hsize, hrun, (hjoin rfl).trans ?_⟩
  decide +kernel

end PackedSigns

end Equilibration
