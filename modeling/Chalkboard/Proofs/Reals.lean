import Chalkboard.Number.Numeric

/-! Numbers compare equal exactly when they stand for the same number. A real is taken apart in two
ways, by its bits and by the model of floating-point numbers that comparisons are defined on; both agree,
and a finite number is counted in the smallest steps that there are between reals. -/

namespace Chalkboard.Number

open Float.Model (UnpackedFloat Format)
open Float.Model.UnpackedFloat (Sign unpackMantissa unpackExponent unpackSign)

def signBit : Sign → Bool
  | .negative => true
  | .positive => false

/-- What a number stands for when it is taken apart. -/
def ofUnpacked : UnpackedFloat → Exact
  | .infinity s => .infinite (signBit s)
  | .notANumber => .undefined
  | .zero s => .finite (signBit s) 0 (-1074)
  | .finite s m e _ => .finite (signBit s) m e

section Bits

variable (b : BitVec Format.binary64.numBits)

theorem toNat_mantissa : (unpackMantissa b).toNat = b.toNat % twoTo 52 := by
  simp [unpackMantissa, BitVec.extractLsb, BitVec.extractLsb'_toNat, twoTo]

theorem toNat_exponent : (unpackExponent b).toNat = b.toNat / twoTo 52 % twoTo 11 := by
  simp [unpackExponent, BitVec.extractLsb, BitVec.extractLsb'_toNat, twoTo, Nat.shiftRight_eq_div_pow]

theorem toNat_sign : (unpackSign b).toNat = b.toNat / twoTo 63 := by
  have hlt : b.toNat < 2 ^ 64 := b.isLt
  have hbit : b.toNat / 2 ^ 63 < 2 := by omega
  have hsign : unpackSign b = b.extractLsb' 63 1 := rfl
  rw [hsign, BitVec.extractLsb'_toNat, Nat.shiftRight_eq_div_pow]
  exact Nat.mod_eq_of_lt hbit

theorem signBit_ofBitVec (v : BitVec 1) : signBit (Sign.ofBitVec v) = (v.toNat == 1) := by
  revert v
  decide

theorem toNat_implicit (v : BitVec Format.binary64.mantissaBitsWithoutImplicit) :
    (1#1 ++ v).toNat = twoTo 52 + v.toNat := by
  rw [BitVec.toNat_append, ← Nat.shiftLeft_add_eq_or_of_lt v.isLt]
  rfl

theorem ofUnpacked_unpack :
    ofUnpacked (UnpackedFloat.unpack Format.binary64 b) =
      if b.toNat / twoTo 52 % twoTo 11 == 2047 then
        if b.toNat % twoTo 52 == 0 then .infinite (b.toNat / twoTo 63 == 1) else .undefined
      else if b.toNat / twoTo 52 % twoTo 11 == 0 then
        .finite (b.toNat / twoTo 63 == 1) (b.toNat % twoTo 52) (-1074)
      else .finite (b.toNat / twoTo 63 == 1) (twoTo 52 + b.toNat % twoTo 52)
        ((b.toNat / twoTo 52 % twoTo 11 : Nat) - 1075) := by
  have hm := toNat_mantissa b
  have he := toNat_exponent b
  have hs : signBit (Sign.ofBitVec (unpackSign b)) = (b.toNat / twoTo 63 == 1) := by
    rw [signBit_ofBitVec, toNat_sign]
  have hall : unpackExponent b = -1#_ ↔ b.toNat / twoTo 52 % twoTo 11 = 2047 := by
    rw [← he, ← BitVec.toNat_inj]; rfl
  have hnone : unpackExponent b = 0#_ ↔ b.toNat / twoTo 52 % twoTo 11 = 0 := by
    rw [← he, ← BitVec.toNat_inj]; rfl
  have hzero : unpackMantissa b = 0#_ ↔ b.toNat % twoTo 52 = 0 := by
    rw [← hm, ← BitVec.toNat_inj]; rfl
  unfold UnpackedFloat.unpack
  by_cases h₁ : b.toNat / twoTo 52 % twoTo 11 = 2047
  · rw [if_pos (hall.2 h₁), if_pos (beq_iff_eq.2 h₁)]
    by_cases h₂ : b.toNat % twoTo 52 = 0
    · rw [if_pos (hzero.2 h₂), if_pos (beq_iff_eq.2 h₂), ← hs]
      rfl
    · rw [if_neg (mt hzero.1 h₂), if_neg (mt beq_iff_eq.1 h₂)]
      rfl
  · rw [if_neg (mt hall.1 h₁), if_neg (mt beq_iff_eq.1 h₁)]
    by_cases h₃ : b.toNat / twoTo 52 % twoTo 11 = 0
    · rw [if_pos (hnone.2 h₃), if_pos (beq_iff_eq.2 h₃)]
      by_cases h₂ : b.toNat % twoTo 52 = 0
      · rw [dif_pos (hzero.2 h₂), ← hs, h₂]
        rfl
      · rw [dif_neg (mt hzero.1 h₂)]
        dsimp only [ofUnpacked]
        rw [hs, hm, he, h₃]
        rfl
    · rw [if_neg (mt hnone.1 h₃), if_neg (mt beq_iff_eq.1 h₃)]
      dsimp only [ofUnpacked]
      rw [hs, toNat_implicit, hm, he]
      rfl

end Bits

theorem exact_eq (x : Float) : exact x = ofUnpacked x.toModel.unpack :=
  (ofUnpacked_unpack x.toModel.toBits.toBitVec).symm

theorem twoTo_pos (k : Nat) : 0 < twoTo k := Nat.two_pow_pos k

theorem twoTo_add (j k : Nat) : twoTo (j + k) = twoTo j * twoTo k := Nat.pow_add 2 j k

/-- The mantissa of a finite number has 53 bits, the first of which is missing only at the least
exponent. -/
structure Canonical (mantissa : Nat) (exponent : Int) : Prop where
  short : mantissa < twoTo 53
  least : -1074 ≤ exponent
  full : exponent = -1074 ∨ twoTo 52 ≤ mantissa

theorem canonical_of_exact {x : Float} {negative : Bool} {mantissa : Nat} {exponent : Int}
    (h : exact x = .finite negative mantissa exponent) : Canonical mantissa exponent := by
  have hfraction : x.toBits.toNat % twoTo 52 < twoTo 52 := Nat.mod_lt _ (twoTo_pos 52)
  have hdouble : twoTo 53 = twoTo 52 + twoTo 52 := rfl
  simp only [exact] at h
  split at h
  · split at h <;> cases h
  · split at h
    · cases h
      exact ⟨by omega, Int.le_refl _, .inl rfl⟩
    · rename_i hfield
      rw [beq_iff_eq] at hfield
      cases h
      exact ⟨by omega, by omega, .inr (Nat.le_add_right _ _)⟩

theorem canonical_unique {m n : Nat} {d e : Int} (hm : Canonical m d) (hn : Canonical n e)
    (h : m * twoTo (d + 1074).toNat = n * twoTo (e + 1074).toNat) : m = n ∧ d = e := by
  have hdouble : twoTo 53 = twoTo 52 * 2 := rfl
  -- a smaller exponent needs a mantissa at least twice as large
  have hstep {m n : Nat} {d e : Int} (hm : Canonical m d) (hn : Canonical n e)
      (h : m * twoTo (d + 1074).toNat = n * twoTo (e + 1074).toNat) : ¬d < e := by
    intro hlt
    obtain ⟨k, hk⟩ : ∃ k, (e + 1074).toNat = (d + 1074).toNat + (k + 1) :=
      ⟨(e - d).toNat - 1, by have := hm.least; omega⟩
    rw [hk, Nat.add_comm, twoTo_add, ← Nat.mul_assoc] at h
    have hmn : m = n * twoTo (k + 1) := Nat.eq_of_mul_eq_mul_right (twoTo_pos _) h
    have htwo : twoTo (k + 1) = twoTo k * 2 := twoTo_add k 1
    have hfull : twoTo 52 ≤ n := hn.full.resolve_left (by have := hm.least; omega)
    have hle : twoTo 52 * 2 ≤ n * twoTo (k + 1) :=
      Nat.mul_le_mul hfull (by have := twoTo_pos k; omega)
    have := hm.short
    omega
  obtain rfl : d = e :=
    Int.le_antisymm (Int.not_lt.1 (hstep hn hm h.symm)) (Int.not_lt.1 (hstep hm hn h))
  exact ⟨Nat.eq_of_mul_eq_mul_right (twoTo_pos _) h, rfl⟩

/-- A number counted in the smallest steps, or an infinity with its sign. -/
def Exact.units? : Exact → Option (Int ⊕ Bool)
  | .finite negative mantissa exponent =>
    let n : Int := mantissa * twoTo (exponent + 1074).toNat
    some (.inl (if negative then -n else n))
  | .infinite negative => some (.inr negative)
  | .undefined => none

theorem units_pos {m : Nat} (h : 0 < m) (k : Nat) : 0 < (m : Int) * twoTo k :=
  Int.mul_pos (Int.natCast_pos.2 h) (Int.natCast_pos.2 (twoTo_pos k))

theorem compare_finite_iff {m n : Nat} {d e : Int} (hm : Canonical m d) (hn : Canonical n e) :
    (compare d e).then (compare m n) = .eq ↔
      (m : Int) * twoTo (d + 1074).toNat = n * twoTo (e + 1074).toNat := by
  rw [Ordering.then_eq_eq, Int.compare_eq_eq, Nat.compare_eq_eq]
  constructor
  · rintro ⟨rfl, rfl⟩
    rfl
  · intro h
    rw [← Int.natCast_mul, ← Int.natCast_mul, Int.natCast_inj] at h
    exact (canonical_unique hm hn h).symm

theorem compare_eq_iff (x y : Float) :
    x.toModel.unpack.compare y.toModel.unpack = some .eq ↔
      (exact x).units?.isSome ∧ (exact x).units? = (exact y).units? := by
  have hx {s m e} := @canonical_of_exact x s m e
  have hy {s m e} := @canonical_of_exact y s m e
  rw [exact_eq] at hx hy ⊢
  rw [exact_eq]
  generalize x.toModel.unpack = a at hx ⊢
  generalize y.toModel.unpack = b at hy ⊢
  cases a with
  | notANumber =>
    dsimp only [UnpackedFloat.compare, ofUnpacked, Exact.units?]
    simp
  | infinity s =>
    cases s <;> cases b with
    | infinity r => cases r <;> decide
    | _ =>
      dsimp only [UnpackedFloat.compare, ofUnpacked, Exact.units?]
      simp
  | zero s =>
    cases b with
    | finite r n e hn =>
      have htwo := Nat.ne_of_gt (twoTo_pos (e + 1074).toNat)
      rw [eq_comm (b := (ofUnpacked _).units?)]
      cases r <;> dsimp only [UnpackedFloat.compare, ofUnpacked, Exact.units?, signBit] <;>
        simp [Nat.ne_of_gt hn, htwo]
    | infinity r => cases r <;> dsimp only [UnpackedFloat.compare, ofUnpacked, Exact.units?] <;> simp
    | _ =>
      dsimp only [UnpackedFloat.compare, ofUnpacked, Exact.units?]
      simp
  | finite s m d hm =>
    have hpos := units_pos hm (d + 1074).toNat
    cases b with
    | finite r n e hn =>
      have hpos' := units_pos hn (e + 1074).toNat
      have hfinite := compare_finite_iff (hx rfl) (hy rfl)
      cases s <;> cases r <;> dsimp only [UnpackedFloat.compare, ofUnpacked, Exact.units?, signBit] <;>
        simp [hfinite] <;> omega
    | infinity r =>
      cases s <;> cases r <;> dsimp only [UnpackedFloat.compare, ofUnpacked, Exact.units?] <;> simp
    | zero r =>
      have htwo := Nat.ne_of_gt (twoTo_pos (d + 1074).toNat)
      cases s <;> dsimp only [UnpackedFloat.compare, ofUnpacked, Exact.units?, signBit] <;>
        simp [Nat.ne_of_gt hm, htwo]
    | notANumber =>
      dsimp only [UnpackedFloat.compare, ofUnpacked, Exact.units?]
      simp

theorem isNaN_iff (x : Float) : x.isNaN = true ↔ (exact x).units? = none := by
  rw [exact_eq, Float.isNaN, Float.Model.isNaN]
  cases x.toModel.unpack with
  | notANumber => exact iff_of_true rfl rfl
  | _ => exact iff_of_false Bool.false_ne_true (Option.some_ne_none _)

theorem beq_iff_compare (x y : Float) :
    (x == y) = true ↔ x.toModel.unpack.compare y.toModel.unpack = some .eq := by
  change (x.toModel.unpack.compare y.toModel.unpack == some .eq) = true ↔ _
  exact beq_iff_eq

theorem lt_iff_compare (x y : Float) :
    x < y ↔ x.toModel.unpack.compare y.toModel.unpack = some .lt := by
  change decide ((x.toModel.unpack.compare y.toModel.unpack == some .lt) = true) = true ↔ _
  rw [decide_eq_true_iff, beq_iff_eq]

theorem scaled_units (mantissa : Nat) {exponent : Int} (hleast : -1074 ≤ exponent) :
    0 < (scaled mantissa 1 exponent).2 ∧
      (scaled mantissa 1 exponent).1 * twoTo 1074 =
        mantissa * twoTo (exponent + 1074).toNat * (scaled mantissa 1 exponent).2 := by
  rw [scaled]
  split
  · have hsum : 1074 = (exponent + 1074).toNat + exponent.natAbs := by omega
    refine ⟨by simp [twoTo_pos], ?_⟩
    dsimp only
    rw [Nat.one_mul, Nat.mul_assoc, ← twoTo_add, ← hsum]
  · have hsum : (exponent + 1074).toNat = exponent.natAbs + 1074 := by omega
    refine ⟨Nat.one_pos, ?_⟩
    dsimp only
    rw [Nat.mul_one, Nat.mul_assoc, ← twoTo_add, ← hsum]

theorem fraction_eq_iff (mantissa : Nat) {exponent : Int} (hleast : -1074 ≤ exponent) (negative : Bool)
    (i : Int) :
    i * (fraction negative mantissa exponent).2 = (fraction negative mantissa exponent).1 ↔
      i * twoTo 1074 =
        if negative then -((mantissa : Int) * twoTo (exponent + 1074).toNat)
        else mantissa * twoTo (exponent + 1074).toNat := by
  obtain ⟨hd, hunits⟩ := scaled_units mantissa hleast
  simp only [fraction]
  generalize scaled mantissa 1 exponent = nd at hd hunits ⊢
  obtain ⟨n, d⟩ := nd
  have hunits : (n : Int) * twoTo 1074 = mantissa * twoTo (exponent + 1074).toNat * d := by
    rw [← Int.natCast_mul, ← Int.natCast_mul, ← Int.natCast_mul, hunits]
  have hd : (d : Int) ≠ 0 := Int.natCast_ne_zero.2 (Nat.ne_of_gt hd)
  have htwo : (twoTo 1074 : Int) ≠ 0 := Int.natCast_ne_zero.2 (Nat.ne_of_gt (twoTo_pos 1074))
  have hkey (k : Int) (m : Int) (hk : k * twoTo 1074 = m * d) : i * d = k ↔ i * twoTo 1074 = m := by
    rw [← Int.mul_eq_mul_right_iff htwo, hk, Int.mul_right_comm, Int.mul_eq_mul_right_iff hd]
  cases negative with
  | false => exact hkey n _ hunits
  | true => exact hkey (-n) _ (by rw [if_pos rfl, Int.neg_mul, Int.neg_mul, hunits])

end Chalkboard.Number

namespace Chalkboard.Numeric

open Number

def units? : Numeric → Option (Int ⊕ Bool)
  | .whole i => some (.inl (i * twoTo 1074))
  | .real x => (exact x).units?

theorem compareInt_eq_iff (i : Int) (x : Float) :
    compareInt i x = some .eq ↔ (Numeric.whole i).units? = (exact x).units? := by
  rw [compareInt, units?]
  cases h : exact x with
  | undefined => simp only [Exact.units?, reduceCtorEq]
  | infinite negative =>
    cases negative <;>
      simp only [Exact.units?, Option.some.injEq, reduceCtorEq, if_true, if_false, Bool.false_eq_true]
  | finite negative mantissa exponent =>
    have hfraction := fraction_eq_iff mantissa (canonical_of_exact h).least negative i
    simp only [Exact.units?, Option.some.injEq, Int.compare_eq_eq, Sum.inl.injEq, hfraction]

theorem real_order_eq_iff (x y : Float) :
    (Numeric.real x).order (.real y) = some .eq ↔
      (exact x).units?.isSome ∧ (exact x).units? = (exact y).units? := by
  have hgt (h : (exact x).units?.isSome ∧ (exact x).units? = (exact y).units?) : ¬x < y ∧ ¬y < x := by
    rw [lt_iff_compare, lt_iff_compare, (compare_eq_iff x y).2 h,
      (compare_eq_iff y x).2 ⟨h.2 ▸ h.1, h.2.symm⟩]
    simp
  rw [order, ← compare_eq_iff, ← beq_iff_compare]
  rw [← compare_eq_iff, ← beq_iff_compare] at hgt
  by_cases h : (x == y) = true
  · rw [if_neg (hgt h).1, if_neg (hgt h).2, if_pos h]
    exact iff_of_true rfl h
  · rw [if_neg h]
    split
    · simp [h]
    · split <;> simp [h]

theorem order_eq_iff (m n : Numeric) :
    m.order n = some .eq ↔ m.units?.isSome ∧ m.units? = n.units? := by
  cases m with
  | whole i =>
    cases n with
    | whole j =>
      have htwo : (twoTo 1074 : Int) ≠ 0 := Int.natCast_ne_zero.2 (Nat.ne_of_gt (twoTo_pos 1074))
      simp only [order, units?, Option.some.injEq, Int.compare_eq_eq, Option.isSome_some, true_and,
        Sum.inl.injEq, Int.mul_eq_mul_right_iff htwo]
    | real y => rw [order, compareInt_eq_iff, and_iff_right (by rfl), units?, units?]
  | real x =>
    cases n with
    | whole j =>
      have hswap : (real x).order (whole j) = some .eq ↔ compareInt j x = some .eq := by
        rw [order]
        rcases compareInt j x with _ | _ | _ | _ <;> simp
      rw [hswap, compareInt_eq_iff]
      refine ⟨fun h => ⟨?_, h.symm⟩, fun h => h.2.symm⟩
      rw [units?, ← h]
      rfl
    | real y => exact real_order_eq_iff x y

end Chalkboard.Numeric
