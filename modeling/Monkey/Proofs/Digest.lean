import Monkey.Value

/-!
  Monkey/Proofs/Digest.lean
  =========================
  **Texts that differ in a few neighbouring bytes have different digests.**

  One step of the digest can be undone by who knows the byte: adding a byte without
  carry undoes itself, and the prime is odd, so it has an inverse modulo `2^64`.
  Therefore two digests agree behind a common text if and only if they agree in
  front of it (`foldl_step_inj`).

  Where the bytes differ, they change the low eight bits of a digest only.  The prime
  is `2^40 + 435`, and its square is `870 * 2^40 + 189225` modulo `2^64`.  So digests
  that differ in their low bits are carried apart by the next step, too far for the
  next byte to bring them together again, and the step after that does not do so
  either (`spread`).  This settles texts of three bytes; shorter ones are continued by
  common bytes up to that length.
-/
namespace Monkey.Digest

open Text

/-! ### Undoing a step -/

/-- The inverse of the prime modulo `2^64`. -/
def inverse : UInt64 := 14886173955864302971

theorem prime_mul_inverse : prime * inverse = 1 := by
  decide

theorem mul_prime_inj {a b : UInt64} : a * prime = b * prime ↔ a = b := by
  constructor
  · intro h
    have h' : a * prime * inverse = b * prime * inverse := by rw [h]
    simpa only [UInt64.mul_assoc, prime_mul_inverse, UInt64.mul_one] using h'
  · rintro rfl
    rfl

theorem step_left_inj {h h' : UInt64} (b : UInt8) : step h b = step h' b ↔ h = h' := by
  rw [step, step, mul_prime_inj, UInt64.xor_left_inj]

theorem xor_right_inj {h : UInt64} {b b' : UInt8} :
    h ^^^ b.toUInt64 = h ^^^ b'.toUInt64 ↔ b = b' := by
  rw [UInt64.xor_right_inj, UInt8.toUInt64_inj]

/-- What two texts have in common at their ends does not matter. -/
theorem foldl_step_inj {h h' : UInt64} (s : List UInt8) :
    s.foldl step h = s.foldl step h' ↔ h = h' := by
  induction s generalizing h h' with
  | nil => rfl
  | cons b s ih => rw [List.foldl_cons, List.foldl_cons, ih, step_left_inj]

/-! ### How far two digests are apart -/

/-- The distance of two digests as numbers. -/
def gap (h h' : UInt64) : Int :=
  h.toNat - h'.toNat

theorem gap_eq_zero {h h' : UInt64} : gap h h' = 0 ↔ h = h' := by
  rw [← UInt64.toNat_inj, gap]
  omega

/-- A byte changes the low eight bits only. -/
theorem xor_div (h : UInt64) (b : UInt8) : (h ^^^ b.toUInt64).toNat / 256 = h.toNat / 256 := by
  have hb : b.toNat / 2 ^ 8 = 0 := Nat.div_eq_of_lt b.toNat_lt
  rw [UInt64.toNat_xor, UInt8.toNat_toUInt64, show 256 = 2 ^ 8 from rfl, Nat.xor_div_two_pow, hb,
    Nat.xor_zero]

theorem gap_of_div_eq {h h' : UInt64} (e : h.toNat / 256 = h'.toNat / 256) :
    -255 ≤ gap h h' ∧ gap h h' ≤ 255 := by
  rw [gap]
  omega

theorem gap_xor (h h' : UInt64) (b b' : UInt8) :
    ∃ d, -510 ≤ d ∧ d ≤ 510 ∧ gap (h ^^^ b.toUInt64) (h' ^^^ b'.toUInt64) = gap h h' + d := by
  have hb := xor_div h b
  have hb' := xor_div h' b'
  refine ⟨gap (h ^^^ b.toUInt64) (h' ^^^ b'.toUInt64) - gap h h', ?_, ?_, ?_⟩
  all_goals
    simp only [gap]
    omega

theorem gap_mul_prime (h h' : UInt64) :
    ∃ k, gap (h * prime) (h' * prime) = gap h h' * 1099511628211 + k * 18446744073709551616 := by
  have hp (g : UInt64) : (g * prime).toNat = g.toNat * 1099511628211 % 18446744073709551616 :=
    UInt64.toNat_mul g prime
  have hd := Nat.div_add_mod (h.toNat * 1099511628211) (18446744073709551616)
  have hd' := Nat.div_add_mod (h'.toNat * 1099511628211) (18446744073709551616)
  rw [← hp] at hd hd'
  refine ⟨(h'.toNat * 1099511628211 / 18446744073709551616 : Nat) -
    (h.toNat * 1099511628211 / 18446744073709551616 : Nat), ?_⟩
  rw [gap, gap]
  omega

/-- Small distances do not cancel over two steps. -/
theorem spread {d₁ d₂ d₃ k : Int} (h₁ : -255 ≤ d₁ ∧ d₁ ≤ 255) (h₂ : -510 ≤ d₂ ∧ d₂ ≤ 510)
    (h₃ : -255 ≤ d₃ ∧ d₃ ≤ 255)
    (h : (d₁ * 1099511628211 + d₂) * 1099511628211 + k * 18446744073709551616 = d₃) : d₁ = 0 ∧ d₂ = 0 := by
  -- the multiples of `2^40` in front, and what is too small for another one behind
  have ht : (870 * d₁ + d₂ + (k + 65536 * d₁) * 16777216) * 1099511627776 +
      (189225 * d₁ + 435 * d₂ - d₃) = 0 := by
    omega
  have hs : 870 * d₁ + d₂ + (k + 65536 * d₁) * 16777216 = 0 := by
    omega
  have hk : k + 65536 * d₁ = 0 := by
    omega
  omega

/-- From one and the same digest, three bytes are determined by the digest behind them. -/
theorem eq_of_three_steps {h : UInt64} {a b c a' b' c' : UInt8}
    (e : step (step (step h a) b) c = step (step (step h a') b') c') :
    a = a' ∧ b = b' ∧ c = c' := by
  have e : step (step h a) b ^^^ c.toUInt64 = step (step h a') b' ^^^ c'.toUInt64 :=
    mul_prime_inj.1 e
  obtain ⟨d₂, hl₂, hu₂, hd₂⟩ := gap_xor (step h a) (step h a') b b'
  obtain ⟨k₁, hk₁⟩ := gap_mul_prime (h ^^^ a.toUInt64) (h ^^^ a'.toUInt64)
  obtain ⟨k₂, hk₂⟩ :=
    gap_mul_prime (step h a ^^^ b.toUInt64) (step h a' ^^^ b'.toUInt64)
  have h₁ := gap_of_div_eq ((xor_div h a).trans (xor_div h a').symm)
  have h₃ : -255 ≤ gap (step (step h a) b) (step (step h a') b') ∧
      gap (step (step h a) b) (step (step h a') b') ≤ 255 := by
    apply gap_of_div_eq
    rw [← xor_div _ c, e, xor_div]
  change gap (step h a) (step h a') = _ at hk₁
  change gap (step (step h a) b) (step (step h a') b') = _ at hk₂
  obtain ⟨hz₁, hz₂⟩ := spread (k := k₁ * 1099511628211 + k₂) h₁ ⟨hl₂, hu₂⟩ h₃ (by
    rw [hk₂, hd₂, hk₁]
    omega)
  obtain rfl := xor_right_inj.1 (gap_eq_zero.1 hz₁)
  have hb : gap (step h a ^^^ b.toUInt64) (step h a ^^^ b'.toUInt64) = 0 := by
    rw [hd₂, hz₂, gap_eq_zero.2 rfl]
    rfl
  obtain rfl := xor_right_inj.1 (gap_eq_zero.1 hb)
  exact ⟨rfl, rfl, xor_right_inj.1 e⟩

/-- From one and the same digest, up to three bytes are determined by the digest behind
    them and by how many they are. -/
theorem eq_of_few_steps {h : UInt64} {x y : List UInt8} (hl : x.length = y.length)
    (h3 : x.length ≤ 3) (e : x.foldl step h = y.foldl step h) : x = y := by
  -- both are continued by zeros
  have hlength (z : List UInt8) (hz : z.length ≤ 3) :
      ∃ a b c, z ++ List.replicate (3 - z.length) 0 = [a, b, c] := by
    match z, hz with
    | [], _ => exact ⟨0, 0, 0, rfl⟩
    | [a], _ => exact ⟨a, 0, 0, rfl⟩
    | [a, b], _ => exact ⟨a, b, 0, rfl⟩
    | [a, b, c], _ => exact ⟨a, b, c, rfl⟩
  obtain ⟨a, b, c, hx⟩ := hlength x h3
  obtain ⟨a', b', c', hy⟩ := hlength y (hl ▸ h3)
  have he : (x ++ List.replicate (3 - x.length) 0).foldl step h =
      (y ++ List.replicate (3 - y.length) 0).foldl step h := by
    rw [List.foldl_append, List.foldl_append, e, hl]
  rw [hx, hy] at he
  obtain ⟨rfl, rfl, rfl⟩ := eq_of_three_steps he
  rw [← hl, ← hx] at hy
  exact (List.append_cancel_right hy).symm

/-! ### Digests of texts -/

theorem fnv1a_append (u s : List UInt8) : fnv1a (u ++ s) = s.foldl step (fnv1a u) :=
  List.foldl_append

/-- Digests agree behind what two texts have in common at their ends if and only if they
    agree in front of it. -/
theorem fnv1a_append_inj {u v : List UInt8} (s : List UInt8) :
    fnv1a (u ++ s) = fnv1a (v ++ s) ↔ fnv1a u = fnv1a v := by
  rw [fnv1a_append, fnv1a_append, foldl_step_inj]

theorem fnv1a_ne_of_few {x y : List UInt8} (hl : x.length = y.length) (h3 : x.length ≤ 3)
    (hne : x ≠ y) (p s : List UInt8) : fnv1a (p ++ x ++ s) ≠ fnv1a (p ++ y ++ s) := by
  rw [Ne, fnv1a_append_inj, fnv1a_append, fnv1a_append]
  exact fun e => hne (eq_of_few_steps hl h3 e)

/-- **Texts that differ in a few neighbouring bytes do not collide.**  Two texts that differ
    only in that one has `x` where the other has `y`, of the same length of three bytes at
    most, have different digests; in particular if one byte was changed, or two neighbouring
    bytes that differ were exchanged.  As strings they have different hash keys.  And what
    two texts have in common at their ends decides nothing about their digests. -/
theorem fnv1a_apart :
    (∀ p s x y : List UInt8, x.length = y.length → x.length ≤ 3 → x ≠ y →
      fnv1a (p ++ x ++ s) ≠ fnv1a (p ++ y ++ s) ∧
      ∀ a b : String, Utf8.encode a = p ++ x ++ s → Utf8.encode b = p ++ y ++ s →
        (Value.string a).hashKey? ≠ (Value.string b).hashKey?) ∧
    (∀ (p s : List UInt8) (a b : UInt8), a ≠ b →
      fnv1a (p ++ a :: s) ≠ fnv1a (p ++ b :: s) ∧
      fnv1a (p ++ a :: b :: s) ≠ fnv1a (p ++ b :: a :: s)) ∧
    ∀ u v s : List UInt8, fnv1a (u ++ s) = fnv1a (v ++ s) ↔ fnv1a u = fnv1a v := by
  refine ⟨fun p s x y hl h3 hne => ?_, fun p s a b hne => ?_, fun u v s => fnv1a_append_inj s⟩
  · have hd := fnv1a_ne_of_few hl h3 hne p s
    refine ⟨hd, fun a b ha hb hk => hd ?_⟩
    rw [← ha, ← hb]
    exact congrArg HashKey.digest (Option.some.inj hk)
  · have hone := fnv1a_ne_of_few (x := [a]) (y := [b]) rfl (by simp) (by simpa using hne) p s
    have htwo := fnv1a_ne_of_few (x := [a, b]) (y := [b, a]) rfl (by simp)
      (fun e => hne (List.head_eq_of_cons_eq e)) p s
    rw [List.append_assoc, List.append_assoc] at hone htwo
    exact ⟨hone, htwo⟩

/-- `tip` and `top` have different hash keys, and `opt` and `otp` have different digests. -/
theorem fnv1a_apart_words :
    (Value.string "tip").hashKey? ≠ (Value.string "top").hashKey? ∧
      fnv1a (Utf8.encode "o" ++ 0x70 :: 0x74 :: []) ≠
        fnv1a (Utf8.encode "o" ++ 0x74 :: 0x70 :: []) := by
  obtain ⟨hfew, hone, -⟩ := fnv1a_apart
  constructor
  · exact (hfew (Utf8.encode "t") (Utf8.encode "p") (Utf8.encode "i") (Utf8.encode "o")
      (by decide +kernel) (by decide +kernel) (by decide +kernel)).2 "tip" "top"
      (by decide +kernel) (by decide +kernel)
  · exact (hone (Utf8.encode "o") [] 0x70 0x74 (by decide)).2

end Monkey.Digest
