import Mathlib
import Lox.Tree.Source

/-! Numerals and numbers.
The text of a number without a sign is a numeral that denotes it (`exists_source`): the digits that
are searched for read back as the number, and so do all its digits. -/
namespace Lox
namespace Number

section Packing

open Float.Model (Format)
open Float.Model.UnpackedFloat

variable {b : BitVec Format.binary64.numBits}

theorem packComponents_fields (b : BitVec Format.binary64.numBits) :
    packComponents Format.binary64 (Sign.ofBitVec (unpackSign b)) (unpackExponent b)
      (unpackMantissa b) = b := by
  have hsign : (Sign.ofBitVec (unpackSign b)).toBitVec = unpackSign b := by
    generalize unpackSign b = s
    revert s
    decide
  rw [packComponents, hsign]
  ext i hi
  simp only [unpackSign, unpackExponent, unpackMantissa, BitVec.extractLsb]
  grind

theorem toNat_unpackMantissa (b : BitVec Format.binary64.numBits) :
    (unpackMantissa b).toNat = b.toNat % 2 ^ 52 := by simp [unpackMantissa]

theorem toNat_unpackExponent (b : BitVec Format.binary64.numBits) :
    (unpackExponent b).toNat = b.toNat / 2 ^ 52 % 2 ^ 11 := by
  simp [unpackExponent, Nat.shiftRight_eq_div_pow]

theorem log2_of_significand {m : Nat} (h : m < 2 ^ 52) : (2 ^ 52 + m).log2 = 52 :=
  (Nat.log2_eq_iff (by omega)).2 (by omega)

theorem pack_normal {s : Sign} {e : BitVec 11} {m : BitVec 52} {n : Nat} {k : Int} (hn : 0 < n)
    (he : e.toNat < 2047) (hm : n = 2 ^ 52 + m.toNat) (hk : k = e.toNat - 1075) :
    pack Format.binary64 (.finite s n k hn) = packComponents Format.binary64 s e m := by
  have hlog : n.log2 = 52 := by
    rw [hm]
    exact log2_of_significand m.isLt
  have hbiased : (k + Format.binary64.exponentBias + Format.binary64.mantissaBitsWithoutImplicit).toNat
      = e.toNat := by
    have hsum : Format.binary64.exponentBias + Format.binary64.mantissaBitsWithoutImplicit = 1075 :=
      rfl
    omega
  have hfraction : BitVec.ofNat 52 n = m := by
    apply BitVec.eq_of_toNat_eq
    rw [BitVec.toNat_ofNat, hm, Nat.add_mod_left, Nat.mod_eq_of_lt m.isLt]
  have hexponent : BitVec.ofNat 11 e.toNat = e := by rw [BitVec.ofNat_toNat, BitVec.setWidth_eq]
  have hbits : 52 + 1 = Format.binary64.mantissaBits := rfl
  unfold pack
  dsimp only
  rw [hlog, hbiased, if_neg (by change ¬ 2048 ≤ _; omega), if_pos hbits, hfraction, hexponent]

theorem pack_subnormal {s : Sign} {m : BitVec 52} {n : Nat} {k : Int} (hn : 0 < n)
    (hm : n = m.toNat) (hk : k = -1074) :
    pack Format.binary64 (.finite s n k hn) = packComponents Format.binary64 s 0 m := by
  have hlog : n.log2 < 52 := by
    rw [Nat.log2_lt (by omega), hm]
    exact m.isLt
  have hfraction : BitVec.ofNat 52 n = m := by
    rw [hm, BitVec.ofNat_toNat, BitVec.setWidth_eq]
  have hbits : Format.binary64.mantissaBits = 53 := rfl
  subst hk
  unfold pack
  dsimp only
  rw [if_neg (by decide), if_neg (by omega), hfraction]
  rfl

/-- Packing undoes unpacking for bit patterns without a sign that denote numbers. -/
theorem pack_unpack (h : b.toNat ≤ infinityBits) :
    pack Format.binary64 (unpack Format.binary64 b) = b := by
  have hfields := packComponents_fields b
  have hmantissa := toNat_unpackMantissa b
  have hexponent := toNat_unpackExponent b
  have hlt : (unpackExponent b).toNat < 2048 := BitVec.isLt _
  unfold unpack
  dsimp only
  split
  · next hones =>
    rw [hones] at hfields
    split
    · next hzero =>
      rw [hzero] at hfields
      exact hfields
    · next hne =>
      -- the pattern of infinity is the greatest
      have hones : b.toNat / 2 ^ 52 % 2 ^ 11 = 2047 := hexponent ▸ congrArg BitVec.toNat hones
      have hne : b.toNat % 2 ^ 52 ≠ 0 := fun hz =>
        hne (BitVec.eq_of_toNat_eq (hmantissa.trans hz))
      simp only [infinityBits] at h
      omega
  · next hones =>
    split
    · next hzero =>
      rw [hzero] at hfields
      split
      · next hm =>
        rw [hm] at hfields
        exact hfields
      · next hm =>
        rw [pack_subnormal _ rfl (by rw [hzero]; rfl)]
        exact hfields
    · next hzero =>
      have hlast : (unpackExponent b).toNat ≠ 2047 := fun he => hones (BitVec.eq_of_toNat_eq he)
      have happend : (1#1 ++ unpackMantissa b).toNat = 2 ^ 52 + (unpackMantissa b).toNat := by
        rw [BitVec.toNat_append, ← Nat.shiftLeft_add_eq_or_of_lt (BitVec.isLt _)]
        rfl
      have hpack := pack_normal (s := Sign.ofBitVec (unpackSign b)) (e := unpackExponent b)
        (happend ▸ by omega) (by omega) happend rfl
      exact hpack.trans hfields

theorem unpack_eq_notANumber (habove : infinityBits < b.toNat) (hsign : b.toNat < signBit) :
    unpack Format.binary64 b = .notANumber := by
  have hmantissa := toNat_unpackMantissa b
  have hexponent := toNat_unpackExponent b
  simp only [infinityBits] at habove
  simp only [signBit] at hsign
  have hones : unpackExponent b = -.ofNat Format.binary64.exponentBits 1 := by
    apply BitVec.eq_of_toNat_eq
    rw [hexponent]
    change _ = 2047
    omega
  have hfraction : unpackMantissa b ≠ .ofNat Format.binary64.mantissaBitsWithoutImplicit 0 := by
    intro hzero
    have hzero : b.toNat % 2 ^ 52 = 0 := hmantissa ▸ congrArg BitVec.toNat hzero
    omega
  unfold unpack
  dsimp only
  rw [if_pos hones, if_neg hfraction]

end Packing

theorem eq_of_toBits {x y : Float} (h : x.toBits = y.toBits) : x = y := by
  obtain ⟨⟨bits, valid⟩⟩ := x
  obtain ⟨⟨bits', valid'⟩⟩ := y
  obtain rfl : bits = bits' := h
  rfl

theorem toBits_ofMagnitude {n : Nat} (h : n ≤ infinityBits) : (ofMagnitude n).toBits.toNat = n := by
  have hlt : n < 2 ^ 64 := Nat.lt_of_le_of_lt h (by decide)
  have hbits : (UInt64.ofNat n).toBitVec.toNat = n := Nat.mod_eq_of_lt hlt
  have hpack := congrArg BitVec.toNat (pack_unpack (b := (UInt64.ofNat n).toBitVec) (by rwa [hbits]))
  exact hpack.trans hbits

theorem magnitude_ofMagnitude {n : Nat} (h : n ≤ infinityBits) : magnitude (ofMagnitude n) = n := by
  rw [magnitude, toBits_ofMagnitude h]
  exact Nat.mod_eq_of_lt (Nat.lt_of_le_of_lt h (by decide))

theorem isNegative_ofMagnitude {n : Nat} (h : n ≤ infinityBits) :
    isNegative (ofMagnitude n) = false := by
  rw [isNegative, toBits_ofMagnitude h, decide_eq_false_iff_not]
  exact Nat.not_le_of_lt (Nat.lt_of_le_of_lt h (by decide))

/-- A defined number without a sign has a bit pattern that a numeral can have. -/
theorem exists_eq_ofMagnitude {x : Float} (hnan : x.isNaN = false) (hsign : isNegative x = false) :
    ∃ n ≤ infinityBits, x = ofMagnitude n := by
  have hle : x.toBits.toNat ≤ infinityBits := by
    rw [← Nat.not_lt]
    intro habove
    have hlt : x.toBits.toNat < signBit := Nat.not_le.1 (of_decide_eq_false hsign)
    have hunpack : x.toModel.unpack = .notANumber := unpack_eq_notANumber habove hlt
    rw [Float.isNaN, Float.Model.isNaN, hunpack] at hnan
    cases hnan
  refine ⟨x.toBits.toNat, hle, eq_of_toBits (UInt64.toNat_inj.1 ?_)⟩
  rw [toBits_ofMagnitude hle]

theorem exists_significand (bits : Nat) : ∃ m, units bits = m * 2 ^ excess (units bits) ∧
    excess (units bits) * hiddenBit + m = bits := by
  have hbits := Nat.div_add_mod bits hiddenBit
  have hf := Nat.mod_lt bits (show 0 < hiddenBit by decide)
  have hhidden : hiddenBit = 2 ^ 52 := rfl
  rw [hhidden] at hbits hf ⊢
  by_cases he : bits / 2 ^ 52 = 0
  · have hunits : units bits = bits % 2 ^ 52 := if_pos he
    have hlog : excess (units bits) = 0 := by
      rw [excess, hunits]
      by_cases hzero : bits % 2 ^ 52 = 0
      · rw [hzero]
        rfl
      · have := (Nat.log2_lt hzero).2 hf
        omega
    rw [he] at hbits
    exact ⟨bits % 2 ^ 52, by rw [hlog, hunits, Nat.pow_zero, Nat.mul_one], by rw [hlog]; omega⟩
  · have hunits : units bits = (2 ^ 52 + bits % 2 ^ 52) * 2 ^ (bits / 2 ^ 52 - 1) := if_neg he
    have hlog : excess (units bits) = bits / 2 ^ 52 - 1 := by
      have hpos : 0 < 2 ^ (bits / 2 ^ 52 - 1) := Nat.two_pow_pos _
      have hlog : (units bits).log2 = 52 + (bits / 2 ^ 52 - 1) := by
        rw [hunits, Nat.log2_eq_iff (Nat.ne_of_gt (Nat.mul_pos (by omega) hpos)), Nat.add_right_comm,
          Nat.pow_add, Nat.pow_add]
        exact ⟨Nat.mul_le_mul_right _ (by omega), Nat.mul_lt_mul_of_pos_right (by omega) hpos⟩
      rw [excess, hlog, Nat.add_sub_cancel_left]
    refine ⟨2 ^ 52 + bits % 2 ^ 52, by rw [hlog, hunits], ?_⟩
    rw [hlog]
    omega

/-- The nearest double of a number of units is the double that has so many. -/
theorem nearestBits_units {bits : Nat} (h : bits ≤ infinityBits) {a b : Nat} (hb : 0 < b)
    (hab : a * unitsPerOne = units bits * b) : nearestBits a b = bits := by
  obtain ⟨m, hm, hbits⟩ := exists_significand bits
  have hquotient : a * unitsPerOne / b = units bits := by
    rw [hab, Nat.mul_div_cancel _ hb]
  have hscaled : a * unitsPerOne = m * (b * Nat.pow 2 (excess (units bits))) := by
    calc a * unitsPerOne = units bits * b := hab
      _ = m * 2 ^ excess (units bits) * b := by rw [← hm]
      _ = m * (b * 2 ^ excess (units bits)) := by rw [Nat.mul_assoc, Nat.mul_comm b]
  have hpos : 0 < b * Nat.pow 2 (excess (units bits)) := Nat.mul_pos hb (Nat.two_pow_pos _)
  unfold nearestBits
  dsimp only
  rw [hquotient, hscaled, roundHalfEven_mul_right hpos, hbits]
  exact Nat.min_eq_left h

theorem mul_five_pow (a k : Nat) : a * Nat.pow 5 k * Nat.pow 10 0 * Nat.pow 2 k = a * Nat.pow 10 k := by
  calc a * Nat.pow 5 k * Nat.pow 10 0 * Nat.pow 2 k = a * (5 ^ k * 2 ^ k) := by
        simp [Nat.mul_assoc]
    _ = a * Nat.pow 10 k := by rw [← Nat.mul_pow]; rfl

theorem bits_exact {bits : Nat} (h : bits ≤ infinityBits) : (exact bits).bits = bits :=
  nearestBits_units h (Nat.pow_pos (by decide)) (mul_five_pow (units bits) 1074)

theorem bits_shortest {bits : Nat} (h : bits ≤ infinityBits) : (shortest bits).bits = bits := by
  unfold shortest
  dsimp only
  cases hd : (List.range' 1 17).findSome? (neighbour? bits (decimalMagnitude (units bits))) with
  | none => exact bits_exact h
  | some d =>
    obtain ⟨n, -, hn⟩ := List.exists_of_findSome?_eq_some hd
    have hfound := List.find?_some hn
    simpa using hfound

structure IsNumeral (whole fraction : List Char) : Prop where
  ne_nil : whole ≠ []
  whole_digits : ∀ c ∈ whole, c.isDigit
  fraction_digits : ∀ c ∈ fraction, c.isDigit

/-- The text of a numeral: a point only where digits follow it. -/
def numeralText (whole fraction : List Char) : List Char :=
  if fraction = [] then whole else whole ++ '.' :: fraction

theorem isDigit_zeros_append {n k : Nat} {c : Char}
    (h : c ∈ List.replicate k '0' ++ Nat.toDigits 10 n) : c.isDigit := by
  rcases List.mem_append.1 h with h | h
  · rw [List.eq_of_mem_replicate h]
    rfl
  · exact Nat.isDigit_of_mem_toDigits (by decide) (by decide) h

theorem ofDigitChars_zeros_append (n k : Nat) :
    Nat.ofDigitChars 10 (List.replicate k '0' ++ Nat.toDigits 10 n) 0 = n := by
  rw [Nat.ofDigitChars_append, Nat.ofDigitChars_replicate_zero, Nat.mul_zero,
    Nat.ofDigitChars_ten_toDigits]

/-- Positional notation is a numeral that denotes the same double. -/
theorem Decimal.exists_text (d : Decimal) : ∃ whole fraction, IsNumeral whole fraction ∧
    d.text.toList = numeralText whole fraction ∧ ofDigits whole fraction = d.toFloat := by
  have hdigits := fun k c => isDigit_zeros_append (n := d.digits * Nat.pow 10 d.exponent.toNat)
    (k := k) (c := c)
  have hvalue := ofDigitChars_zeros_append (d.digits * Nat.pow 10 d.exponent.toNat)
  unfold text
  dsimp only
  generalize hn : d.digits * Nat.pow 10 d.exponent.toNat = n at hdigits hvalue ⊢
  by_cases hplaces : (-d.exponent).toNat = 0
  · refine ⟨Nat.toDigits 10 n, [], ⟨Nat.toDigits_ne_nil, hdigits 0, nofun⟩, ?_, ?_⟩
    · rw [if_pos hplaces, String.toList_ofList]
      rfl
    · have hvalue := hvalue 0
      rw [List.replicate_zero, List.nil_append] at hvalue
      have hn : d.digits * 10 ^ d.exponent.toNat = n := hn
      simp [ofDigits, toFloat, bits, hvalue, hplaces, hn]
  · have hexponent : d.exponent.toNat = 0 := by omega
    generalize hk : (-d.exponent).toNat + 1 - (Nat.toDigits 10 n).length = k
    generalize hds : List.replicate k '0' ++ Nat.toDigits 10 n = ds
    have hlength : (-d.exponent).toNat < ds.length := by
      rw [← hds, List.length_append, List.length_replicate]
      omega
    have hfraction : (ds.drop (ds.length - (-d.exponent).toNat)).length = (-d.exponent).toNat := by
      rw [List.length_drop]
      omega
    have hdigits : ∀ c ∈ ds, c.isDigit := hds ▸ hdigits k
    refine ⟨ds.take (ds.length - (-d.exponent).toNat), ds.drop (ds.length - (-d.exponent).toNat),
      ⟨?_, fun c hc => hdigits c (List.mem_of_mem_take hc),
        fun c hc => hdigits c (List.mem_of_mem_drop hc)⟩, ?_, ?_⟩
    · have hne : ds ≠ [] := List.ne_nil_of_length_pos (by omega)
      rw [Ne, List.take_eq_nil_iff]
      exact fun h => h.elim (by omega) hne
    · have hne : ds.drop (ds.length - (-d.exponent).toNat) ≠ [] := by
        rw [← List.length_pos_iff, hfraction]
        omega
      rw [if_neg hplaces, String.toList_ofList, numeralText, if_neg hne]
    · have hneg : -((-d.exponent).toNat : Int) = d.exponent := by omega
      have hvalue := hvalue k
      rw [hexponent] at hn
      have hn : d.digits = n := by simpa using hn
      rw [ofDigits, List.take_append_drop, hfraction, ← hds, hvalue, hneg, ← hn]

theorem ofDigitChars_too_large :
    Nat.ofDigitChars 10 ('1' :: List.replicate 309 '0') 0 = 10 ^ 309 := by
  rw [Nat.ofDigitChars_cons, Nat.ofDigitChars_replicate_zero]
  exact Nat.mul_one _

theorem ofDigits_too_large : ofDigits ('1' :: List.replicate 309 '0') [] = ofMagnitude infinityBits := by
  have hbits : nearestBits (10 ^ 309) 1 = infinityBits := by decide +kernel
  unfold ofDigits
  rw [List.append_nil, ofDigitChars_too_large]
  exact congrArg ofMagnitude hbits

theorem exists_source {n : Nat} (h : n ≤ infinityBits) : ∃ whole fraction,
    IsNumeral whole fraction ∧
      (Literal.number (ofMagnitude n)).source.toList = numeralText whole fraction ∧
        ofDigits whole fraction = ofMagnitude n := by
  have hmagnitude := magnitude_ofMagnitude h
  by_cases hinfinite : n = infinityBits
  · subst hinfinite
    refine ⟨'1' :: List.replicate 309 '0', [], ⟨List.cons_ne_nil _ _, ?_, nofun⟩, ?_,
      ofDigits_too_large⟩
    · intro c hc
      rcases List.mem_cons.1 hc with rfl | hc
      · rfl
      · rw [List.eq_of_mem_replicate hc]
        rfl
    · have hinfinite : isInfinite (ofMagnitude infinityBits) := decide_eq_true hmagnitude
      rw [Literal.source, if_pos hinfinite, String.toList_ofList]
      rfl
  · have hfinite : ¬ isInfinite (ofMagnitude n) := by
      rw [isInfinite, hmagnitude]
      simpa using hinfinite
    have hsigned : (if isNegative (ofMagnitude n) then "-" else "") = "" := by
      rw [isNegative_ofMagnitude h]
      rfl
    rw [Literal.source, if_neg hfinite, text, hmagnitude]
    dsimp only
    rw [if_neg (Nat.not_lt_of_le h), if_neg hinfinite, hsigned]
    by_cases hzero : n = 0
    · subst hzero
      refine ⟨['0'], [], ⟨List.cons_ne_nil _ _, fun c hc => ?_, nofun⟩, rfl, ?_⟩
      · rw [List.mem_singleton.1 hc]
        rfl
      · exact congrArg ofMagnitude (show nearestBits 0 1 = 0 by decide +kernel)
    · rw [if_neg hzero]
      obtain ⟨whole, fraction, hnumeral, htext, hvalue⟩ := (shortest n).exists_text
      refine ⟨whole, fraction, hnumeral, ?_, ?_⟩
      · rw [String.toList_append, htext]
        rfl
      · rw [hvalue, Decimal.toFloat, bits_shortest h]

theorem exists_ofMagnitude (whole fraction : List Char) :
    ∃ n ≤ infinityBits, ofDigits whole fraction = ofMagnitude n := ⟨_, nearestBits_le _ _, rfl⟩

end Number
end Lox
