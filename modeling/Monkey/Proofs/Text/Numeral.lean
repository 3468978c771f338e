import Monkey.Text.Decimal

/-!
  Monkey/Proofs/Text/Numeral.lean
  ===============================
  **Reading undoes the writing of numbers.**

  The digits of a number stand for that number (`value_digits`), and a 64-bit
  integer that is not negative is read back from its decimal text
  (`int64?_ofInt`).  Conversely digits without a sign are never read as a negative
  number.

  The digits behind the sign of a negative integer are read as its opposite, unless
  they are those of `-2^63`, which are one too large (`int64?_ofInt_neg_minValue`).
-/
namespace Monkey.Text.Decimal

theorem toNat_digitChar {d : Nat} (h : d < 10) : (digitChar d).toNat = 0x30 + d := by
  have hv : (0x30 + d).isValidChar := .inl (by omega)
  rw [digitChar, Char.ofNat, dif_pos hv]
  rfl

theorem isDigit_digitChar {d : Nat} (h : d < 10) : (digitChar d).isDigit = true := by
  decide +revert

theorem digits_ne_nil (n : Nat) : digits n ≠ [] := by
  rw [digits]
  split <;> simp

theorem isDigit_of_mem_digits {n : Nat} {c : Char} (h : c ∈ digits n) : c.isDigit = true := by
  induction n using digits.induct with
  | case1 n hn =>
    rw [digits, if_pos hn, List.mem_singleton] at h
    rw [h]
    exact isDigit_digitChar hn
  | case2 n hn ih =>
    rw [digits, if_neg hn, List.mem_append, List.mem_singleton] at h
    rcases h with h | rfl
    · exact ih h
    · exact isDigit_digitChar (Nat.mod_lt n (by omega))

theorem value_concat (ds : List Char) (d : Char) :
    value (ds ++ [d]) = value ds * 10 + (d.toNat - 0x30) := by
  rw [value, List.foldl_append]
  rfl

theorem value_digits (n : Nat) : value (digits n) = n := by
  induction n using digits.induct with
  | case1 n hn =>
    have hd := toNat_digitChar hn
    rw [digits, if_pos hn, ← List.nil_append [digitChar n], value_concat, hd,
      Nat.add_sub_cancel_left]
    exact Nat.zero_add n
  | case2 n hn ih =>
    have hd := toNat_digitChar (Nat.mod_lt n (y := 10) (by omega))
    rw [digits, if_neg hn, value_concat, ih, hd, Nat.add_sub_cancel_left]
    omega

/-- Digits without a sign are read as they stand. -/
theorem int?_of_isDigit {cs : List Char} (h : ∀ c ∈ cs, c.isDigit = true) :
    int? cs = (nat? cs).map Int.ofNat := by
  unfold int?
  split
  · exact absurd (h '+' List.mem_cons_self) (by decide)
  · exact absurd (h '-' List.mem_cons_self) (by decide)
  · rfl

theorem int?_digits (n : Nat) : int? (digits n) = some (n : Int) := by
  have hd : ∀ c ∈ digits n, c.isDigit = true := fun _ => isDigit_of_mem_digits
  have ha : (digits n).all Char.isDigit = true := List.all_eq_true.2 hd
  rw [int?_of_isDigit hd, nat?, if_pos ⟨digits_ne_nil n, ha⟩, value_digits]
  rfl

theorem intChars_of_nonneg {i : Int} (h : 0 ≤ i) : intChars i = digits i.toNat := by
  have ha : i.natAbs = i.toNat := by omega
  rw [intChars, if_neg (Int.not_lt.2 h), ha]

theorem int64?_ofInt {v : Int64} (h : 0 ≤ v.toInt) : int64? (ofInt v.toInt) = some v := by
  have hr : Int64.minValue.toInt ≤ v.toInt ∧ v.toInt ≤ Int64.maxValue.toInt :=
    ⟨Int64.le_iff_toInt_le.1 (Int64.minValue_le v), Int64.le_iff_toInt_le.1 (Int64.le_maxValue v)⟩
  have hi : int? (intChars v.toInt) = some v.toInt := by
    rw [intChars_of_nonneg h, int?_digits, Int.toNat_of_nonneg h]
  rw [int64?, ofInt, String.toList_ofList, hi]
  simp only [hr, and_self, if_true, Int64.ofInt_toInt]

theorem ofInt_of_neg {i : Int} (h : i < 0) : ofInt i = "-" ++ ofInt (-i) := by
  have ha : intChars (-i) = digits i.natAbs := by
    rw [intChars, if_neg (by omega), Int.natAbs_neg]
  rw [ofInt, intChars, if_pos h, ofInt, ha]
  exact @String.ofList_append ['-'] _

theorem toInt_neg_of_ne {v : Int64} (h : v ≠ Int64.minValue) : (-v).toInt = -v.toInt := by
  have hle := Int64.le_iff_toInt_le.1 (Int64.minValue_le v)
  have hge := Int64.le_iff_toInt_le.1 (Int64.le_maxValue v)
  have hne : v.toInt ≠ Int64.minValue.toInt := fun he => h (Int64.toInt_inj.1 he)
  rw [Int64.toInt_minValue] at hle hne
  rw [Int64.toInt_maxValue] at hge
  rw [Int64.toInt_neg, Int.bmod_eq_of_le] <;> omega

/-- The digits of a negative integer are read as its opposite. -/
theorem int64?_ofInt_neg {v : Int64} (h : v ≠ Int64.minValue) (hv : v.toInt < 0) :
    int64? (ofInt (-v.toInt)) = some (-v) := by
  rw [← toInt_neg_of_ne h]
  refine int64?_ofInt ?_
  rw [toInt_neg_of_ne h]
  omega

/-- The opposite of the smallest integer is out of the range. -/
theorem int64?_ofInt_neg_minValue : int64? (ofInt (-Int64.minValue.toInt)) = none := by
  decide +kernel

theorem nonneg_of_int64? {s : String} {v : Int64} (h : int64? s = some v)
    (hd : ∀ c ∈ s.toList, c.isDigit = true) : 0 ≤ v.toInt := by
  rw [int64?, int?_of_isDigit hd] at h
  cases hn : nat? s.toList with
  | none =>
    rw [hn] at h
    cases h
  | some n =>
    rw [hn] at h
    simp only [Option.map_some] at h
    split at h
    · rename_i hr
      cases h
      have hm : Int64.maxValue.toInt < 2 ^ 63 := by decide
      rw [Int64.toInt_ofInt_of_le hr.1 (Int.lt_of_le_of_lt hr.2 hm)]
      exact Int.natCast_nonneg n
    · cases h

end Monkey.Text.Decimal
