import Equilibration.Proofs.FloatingPoint
import Equilibration.Proofs.NearestOperations

/-!
# StoredNumbers — scalars by their bit patterns

A scalar type has its numbers twice: as packed numbers, on which the
operations are defined, and as the patterns that texts and conversions go
through. Both are the same bits (`Stored`), and they are read the same way
(`value_eq`). A finite number is determined by what it stands for, so it is
what every real in its interval converts to (`ofRatio_eq`, `convert_eq`).
-/

namespace Equilibration

namespace Rounding

open Float.Model Float.Model.UnpackedFloat

variable {F : Format}

/-! ## Fields of a pattern -/

theorem toNat_unpackMantissa (b : BitVec F.numBits) :
    (unpackMantissa b).toNat = b.toNat % 2 ^ F.mantissaBitsWithoutImplicit := by
  have hm := F.hm
  unfold unpackMantissa
  rw [BitVec.toNat_cast, BitVec.extractLsb_toNat, Nat.shiftRight_zero]
  congr 2
  omega

theorem toNat_unpackExponent (b : BitVec F.numBits) : (unpackExponent b).toNat
    = b.toNat / 2 ^ F.mantissaBitsWithoutImplicit % 2 ^ F.exponentBits := by
  have he := F.he
  unfold unpackExponent
  rw [BitVec.toNat_cast, BitVec.extractLsb_toNat, Nat.shiftRight_eq_div_pow]
  congr 2
  omega

theorem toNat_unpackSign (b : BitVec F.numBits) : (unpackSign b).toNat
    = b.toNat / 2 ^ (F.mantissaBitsWithoutImplicit + F.exponentBits) % 2 := by
  unfold unpackSign
  rw [BitVec.toNat_cast, BitVec.extractLsb_toNat, Nat.shiftRight_eq_div_pow,
    Nat.sub_self, pow_one]

/-- Whether a sign is a minus. -/
def isNegative : Sign → Bool
  | .negative => true
  | .positive => false

/-- The sign of a number that may be negative. -/
def signOf (negative : Bool) : Sign := if negative then .negative else .positive

theorem isNegative_ofBitVec (b : BitVec 1) :
    isNegative (Sign.ofBitVec b) = (b.toNat == 1) := by
  revert b
  decide

/-- What an unpacked number stands for. -/
def decoded (F : Format) : UnpackedFloat → Binary.Value
  | .finite s m e _ => .finite (isNegative s) m e
  | .zero s => .finite (isNegative s) 0 F.minExponent
  | .infinity s => .infinite (isNegative s)
  | .notANumber => .nan

/-- Patterns are read in the same way as packed numbers are unpacked. -/
theorem decode_toNat (b : BitVec F.numBits) :
    (patterns F).decode b.toNat = decoded F (UnpackedFloat.unpack F b) := by
  have hmin := minExponent_eq F
  have hbits := mantissaBits_eq F
  have hmantissa := toNat_unpackMantissa b
  have hexponent := toNat_unpackExponent b
  have hsign : (b.toNat / (patterns F).signBit % 2 == 1)
      = isNegative (Sign.ofBitVec (unpackSign b)) := by
    rw [isNegative_ofBitVec, toNat_unpackSign]
    rfl
  have hfraction : b.toNat % (patterns F).signBit % (patterns F).binade
      = (unpackMantissa b).toNat := by
    rw [hmantissa]
    exact Nat.mod_mod_of_dvd _ (Nat.pow_dvd_pow 2 (Nat.le_add_right _ _))
  have hbiased : b.toNat % (patterns F).signBit / (patterns F).binade
      = (unpackExponent b).toNat := by
    rw [hexponent]
    show b.toNat % 2 ^ (F.mantissaBitsWithoutImplicit + F.exponentBits)
      / 2 ^ F.mantissaBitsWithoutImplicit = _
    rw [pow_add, Nat.mod_mul_right_div_self]
  have hlimit : (unpackExponent b).toNat = (patterns F).exponentLimit
      ↔ unpackExponent b = -1#_ := by
    rw [← BitVec.toNat_inj, BitVec.neg_one_eq_allOnes, BitVec.toNat_allOnes]
    exact Iff.rfl
  have hzero : ∀ {n : ℕ} (v : BitVec n), v.toNat = 0 ↔ v = 0#_ := by
    intro n v
    rw [← BitVec.toNat_inj, BitVec.toNat_zero]
  unfold Binary.Format.decode UnpackedFloat.unpack
  dsimp only
  rw [hsign, hfraction, hbiased, unitExponent_patterns]
  simp only [hlimit, hzero]
  split
  · split <;> rfl
  · split
    · next hE =>
      split
      · next hM =>
        rw [hM]
        rfl
      · show Binary.Value.finite _ _ _ = .finite _ _ _
        congr 1
        rw [hE, BitVec.toNat_zero]
        push_cast
        omega
    · next hE =>
      have hpos : (unpackExponent b).toNat ≠ 0 := fun h => hE ((hzero _).mp h)
      rw [decoded, toNat_append_one]
      congr 1
      omega

/-- The biased exponents leave room for more than zero and the largest. -/
theorem one_lt_exponentLimit (hF : F.mantissaBits ≤ F.exponentBias) :
    1 < (patterns F).exponentLimit := by
  have hcap := two_pow_exponentBits F
  have hbits := mantissaBits_eq F
  show 1 < 2 ^ F.exponentBits - 1
  omega

theorem toNat_lt (b : BitVec F.numBits) :
    b.toNat < 2 * (patterns F).signBit := by
  refine b.isLt.trans_eq ?_
  show 2 ^ F.numBits = 2 * 2 ^ (F.mantissaBitsWithoutImplicit + F.exponentBits)
  rw [← pow_succ']
  congr 1
  simp only [Format.numBits]
  omega

/-- A finite number has no other pattern than its own. -/
theorem eq_of_unpack_eq (hF : F.mantissaBits ≤ F.exponentBias)
    {b b' : BitVec F.numBits}
    (hfin : (UnpackedFloat.unpack F b).isFinite = true)
    (h : UnpackedFloat.unpack F b' = UnpackedFloat.unpack F b) : b' = b := by
  have hdecode : ∃ n s e, (patterns F).decode b.toNat = .finite n s e := by
    rw [decode_toNat]
    obtain ⟨s, hu⟩ | ⟨s, m, e, hm, hu⟩ := finite_cases hfin <;> rw [hu]
    · exact ⟨_, _, _, rfl⟩
    · exact ⟨_, _, _, rfl⟩
  obtain ⟨n, s, e, hb⟩ := hdecode
  have hb' : (patterns F).decode b'.toNat = .finite n s e := by
    rw [← hb, decode_toNat, decode_toNat, h]
  have hlimit := one_lt_exponentLimit hF
  exact BitVec.eq_of_toNat_eq
    ((Binary.Format.eq_patternOf_of_decode (toNat_lt b') hlimit hb').2.trans
      (Binary.Format.eq_patternOf_of_decode (toNat_lt b) hlimit hb).2.symm)

/-- Packing a finite canonical number that a pattern can hold. -/
theorem unpack_pack_of_canonical {s : Sign} {m : ℕ} {e : ℤ} (hm : 0 < m)
    (hc : (patterns F).Canonical m e) :
    UnpackedFloat.unpack F (UnpackedFloat.pack F (.finite s m e hm))
      = .finite s m e hm := by
  have hcap := two_pow_exponentBits F
  have hmin := minExponent_eq F
  have hbits := mantissaBits_eq F
  obtain ⟨hfits, hunit, hfull, hbounded⟩ := hc
  rw [two_mul_binade_patterns] at hfits
  rw [unitExponent_patterns] at hunit hfull hbounded
  have hlimit : (e - F.minExponent).toNat + 1 < 2 ^ F.exponentBits - 1 :=
    hbounded
  exact unpack_pack_finite s hm ⟨hfits, hunit, hfull⟩ (by omega)

end Rounding

/-! ## Scalars -/

open Rounding FloatingPoint Float.Model

/-- A scalar type whose bit patterns are its packed numbers. -/
class Stored (α : Type) [Interchange α] [FloatingPoint α] : Prop where
  format_eq : Interchange.format α = patterns (model α)
  toBits_eq (x : α) : Interchange.toBits x = (bits x).toNat
  bits_ofBits (p : ℕ) : bits (Interchange.ofBits p : α)
    = UnpackedFloat.pack (model α) (UnpackedFloat.unpack (model α) (.ofNat _ p))
  eq_of_bits {x y : α} : bits x = bits y → x = y

instance : Stored Float where
  format_eq := rfl
  toBits_eq _ := rfl
  bits_ofBits _ := rfl
  eq_of_bits h := bits_double_injective h

instance : Stored Float32 where
  format_eq := rfl
  toBits_eq _ := rfl
  bits_ofBits _ := rfl
  eq_of_bits h := bits_single_injective h

namespace Stored

variable {α : Type} [Interchange α] [FloatingPoint α] [Stored α] {x : α}
  {negative : Bool} {s : ℕ} {e : ℤ}

theorem value_eq (x : α) :
    Interchange.value x = decoded (model α) (unpacked x) := by
  rw [Interchange.value, format_eq, toBits_eq, decode_toNat]
  rfl

theorem isFinite_iff : Scalar.isFinite x = true
      ↔ ∃ n s e, Interchange.value x = .finite n s e := by
  rw [value_eq, ← isFinite_unpacked]
  cases unpacked x <;> simp [decoded, UnpackedFloat.isFinite]

theorem unpacked_of_value (hx : Interchange.value x = .finite negative s e)
    (hs : 0 < s) :
    unpacked x = .finite (signOf negative) s e hs := by
  rw [value_eq] at hx
  rcases hu : unpacked x with t | - | t | ⟨t, m, k, hm⟩ <;> rw [hu] at hx <;>
    simp only [decoded, Binary.Value.finite.injEq, reduceCtorEq] at hx
  · omega
  · obtain ⟨rfl, rfl, rfl⟩ := hx
    cases t <;> rfl

theorem toReal_of_value (hx : Interchange.value x = .finite negative s e) :
    toReal x = signed (signOf negative) (s * (2 : ℝ) ^ e) := by
  rw [value_eq] at hx
  rw [toReal]
  rcases hu : unpacked x with t | - | t | ⟨t, m, k, hm⟩ <;> rw [hu] at hx <;>
    simp only [decoded, Binary.Value.finite.injEq, reduceCtorEq] at hx
  · obtain ⟨-, rfl, -⟩ := hx
    cases negative <;> simp [signed, signOf]
  · obtain ⟨rfl, rfl, rfl⟩ := hx
    cases t <;> rfl

/-- A finite number is determined by what it stands for. -/
theorem eq_ofBits (hx : Interchange.value x = .finite negative s e) :
    (Interchange.format α).Canonical s e ∧ Interchange.ofBits
      ((Interchange.format α).withSign negative
        ((Interchange.format α).patternOf s e)) = x := by
  have hfin := isFinite_iff.mpr ⟨_, _, _, hx⟩
  rw [← isFinite_unpacked] at hfin
  have hF := mantissaBits_le (α := α)
  rw [Interchange.value, format_eq, toBits_eq] at hx
  rw [format_eq]
  obtain ⟨hc, hp⟩ := Binary.Format.eq_patternOf_of_decode (toNat_lt (bits x))
    (one_lt_exponentLimit hF) hx
  refine ⟨hc, eq_of_bits ?_⟩
  rw [← hp, bits_ofBits, BitVec.ofNat_toNat, BitVec.setWidth_eq]
  refine eq_of_unpack_eq hF hfin ?_
  show UnpackedFloat.unpack _ (UnpackedFloat.pack _ (unpacked x)) = unpacked x
  obtain ⟨t, hu⟩ | ⟨t, m, k, hm, hu⟩ := finite_cases hfin
  · rw [hu, unpack_pack_zero]
  · have hdecode := decode_toNat (bits x)
    rw [hx] at hdecode
    change _ = decoded (model α) (unpacked x) at hdecode
    rw [hu] at hdecode ⊢
    simp only [decoded, Binary.Value.finite.injEq] at hdecode
    obtain ⟨-, rfl, rfl⟩ := hdecode
    exact unpack_pack_of_canonical hm hc

/-- **A number is what its interval converts to.** -/
theorem ofRatio_eq (hx : Interchange.value x = .finite negative s e)
    (hs : 0 < s) {r : Ratio} (h : (Interchange.format α).Captures s e r.real) :
    Interchange.ofRatio negative r = x := by
  obtain ⟨hc, hbits⟩ := eq_ofBits hx
  rw [Interchange.ofRatio, Binary.Format.encode,
    Binary.Format.magnitude_eq hs hc h]
  exact hbits

/-- Zero is what zero converts to. -/
theorem ofRatio_of_zero (hx : Interchange.value x = .finite negative 0 e)
    {r : Ratio} (hr : r.num = 0) : Interchange.ofRatio negative r = x := by
  obtain ⟨hc, hbits⟩ := eq_ofBits hx
  have hunit : e = (Interchange.format α).unitExponent :=
    hc.full.resolve_left (by have := (Interchange.format α).binade_pos; omega)
  rw [Interchange.ofRatio, Binary.Format.encode, Binary.Format.magnitude,
    if_pos hr]
  rwa [Binary.Format.patternOf, hunit, sub_self, Int.toNat_zero, zero_mul,
    zero_add] at hbits

section Convert

variable {β : Type} [Interchange β] {d : β} {m : ℕ} {k : ℤ}

theorem convert_eq (hx : Interchange.value x = .finite negative s e)
    (hs : 0 < s) (hd : Interchange.value d = .finite negative m k)
    (h : (Interchange.format α).Captures s e (m * (2 : ℝ) ^ k)) :
    Interchange.convert d = x := by
  rw [Interchange.convert, hd]
  refine ofRatio_eq hx hs ?_
  rwa [Ratio.real_shift, Ratio.real_ofNat, Nat.cast_ofNat]

theorem convert_of_zero (hx : Interchange.value x = .finite negative 0 e)
    (hd : Interchange.value d = .finite negative 0 k) :
    Interchange.convert d = x := by
  rw [Interchange.convert, hd]
  exact ofRatio_of_zero hx (Nat.zero_mul _)

end Convert

/-- The opposite of a finite number. -/
theorem value_neg (hx : Interchange.value x = .finite negative s e) :
    Interchange.value (-x) = .finite (!negative) s e := by
  have hc := (eq_ofBits hx).1
  rw [format_eq] at hc
  rw [value_eq] at hx ⊢
  rw [unpacked, bits_neg]
  change decoded _
    (UnpackedFloat.unpack _ (UnpackedFloat.pack _ (unpacked x).neg)) = _
  rcases hu : unpacked x with t | - | t | ⟨t, m, k, hm⟩ <;> rw [hu] at hx <;>
    simp only [decoded, Binary.Value.finite.injEq, reduceCtorEq] at hx
  · obtain ⟨rfl, rfl, rfl⟩ := hx
    cases t <;> (rw [UnpackedFloat.neg, unpack_pack_zero]; rfl)
  · obtain ⟨rfl, rfl, rfl⟩ := hx
    cases t <;> (rw [UnpackedFloat.neg, unpack_pack_of_canonical hm hc]; rfl)

/-! ### Rounded results -/

/-- A positive number has no sign and a significand. -/
theorem exists_value_of_pos (hfin : Scalar.isFinite x = true)
    (hpos : 0 < toReal x) :
    ∃ m k, 0 < m ∧ Interchange.value x = .finite false m k
      ∧ toReal x = m * (2 : ℝ) ^ k := by
  obtain ⟨n, m, k, hx⟩ := isFinite_iff.mp hfin
  have hreal := toReal_of_value hx
  have hpow : (0 : ℝ) < 2 ^ k := zpow_pos two_pos k
  rcases Nat.eq_zero_or_pos m with rfl | hm
  · rw [hreal] at hpos
    cases n <;> simp [signed, signOf] at hpos
  · have hmR : (0 : ℝ) < m := by exact_mod_cast hm
    cases n
    · exact ⟨m, k, hm, hx, hreal⟩
    · rw [hreal, signOf, if_pos rfl, signed] at hpos
      linarith [mul_pos hmR hpow]

theorem exists_unpacked_of_pos (hfin : Scalar.isFinite x = true)
    (hpos : 0 < toReal x) :
    ∃ m k, ∃ hm : 0 < m, unpacked x = .finite .positive m k hm
      ∧ toReal x = m * (2 : ℝ) ^ k := by
  obtain ⟨m, k, hm, hvalue, hreal⟩ := exists_value_of_pos hfin hpos
  exact ⟨m, k, hm, unpacked_of_value hvalue hm, hreal⟩

/-- A positive number that is packed is the value of its pattern. -/
theorem value_of_bits (hs : 0 < s) (hc : (Interchange.format α).Canonical s e)
    (hbits : bits x = UnpackedFloat.pack (model α) (.finite .positive s e hs)) :
    Interchange.value x = .finite false s e := by
  rw [format_eq] at hc
  rw [value_eq, unpacked, hbits, unpack_pack_of_canonical hs hc]
  rfl

section Operations

variable {a b : α} (ha : Scalar.isFinite a = true)
  (hb : Scalar.isFinite b = true) (ha0 : 0 < toReal a) (hb0 : 0 < toReal b)
  (hs : 0 < s) (hc : (Interchange.format α).Canonical s e)

include ha hb ha0 hb0 hs hc

/-- The product of positive numbers is the number whose interval holds the
exact product. -/
theorem value_mul
    (h : (Interchange.format α).Captures s e (toReal a * toReal b)) :
    Interchange.value (a * b) = .finite false s e := by
  obtain ⟨m, k, hm, hua, hra⟩ := exists_unpacked_of_pos ha ha0
  obtain ⟨n, l, hn, hub, hrb⟩ := exists_unpacked_of_pos hb hb0
  have hcanonical := canonical_unpacked a
  have hcanonical' := canonical_unpacked b
  rw [hua] at hcanonical
  rw [hub] at hcanonical'
  refine value_of_bits hs hc
    ((bits_mul a b).trans (congrArg (UnpackedFloat.pack _) ?_))
  rw [format_eq] at hc h
  show UnpackedFloat.mul _ (unpacked a) (unpacked b) = _
  rw [hua, hub,
    mul_eq_of_captures hs hc h hcanonical hcanonical' (by rw [hra, hrb])]
  rfl

/-- The quotient of positive numbers is the number whose interval holds the
exact quotient. -/
theorem value_div
    (h : (Interchange.format α).Captures s e (toReal a / toReal b)) :
    Interchange.value (a / b) = .finite false s e := by
  obtain ⟨m, k, hm, hua, hra⟩ := exists_unpacked_of_pos ha ha0
  obtain ⟨n, l, hn, hub, hrb⟩ := exists_unpacked_of_pos hb hb0
  refine value_of_bits hs hc
    ((bits_div a b).trans (congrArg (UnpackedFloat.pack _) ?_))
  rw [format_eq] at hc h
  show UnpackedFloat.div _ (unpacked a) (unpacked b) = _
  rw [hua, hub, div_eq_of_captures hs hc h hm hn (by rw [hra, hrb])]
  rfl

end Operations

end Stored

end Equilibration
