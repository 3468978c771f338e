/-!
  Monkey/Text/Utf8.lean
  =====================
  **UTF-8 as a format on byte lists.**

  `encode` writes a text as bytes.  Reading goes step by step: `next` takes the
  first byte and what follows it and answers with a character, with a maximal
  malformed part, or with a part that the end of the bytes cuts short.  Two
  readers are built on it:

    * `decode?` is strict and reports the first malformed part;
    * `decodeLossy` writes one U+FFFD for every malformed part and never fails.

  Reading undoes writing: `next_encodeChar`, `decodeLossy_encode`.
-/
namespace Monkey.Text.Utf8

/-! ### Writing -/

/-- The bytes of one character: one byte below U+0080, two below U+0800, three
    below U+10000 and four above. -/
def encodeChar (c : Char) : List UInt8 :=
  let n := c.toNat
  if n < 0x80 then [UInt8.ofNat n]
  else if n < 0x800 then
    [UInt8.ofNat (0xC0 + n / 0x40), UInt8.ofNat (0x80 + n % 0x40)]
  else if n < 0x10000 then
    [UInt8.ofNat (0xE0 + n / 0x1000), UInt8.ofNat (0x80 + n / 0x40 % 0x40),
      UInt8.ofNat (0x80 + n % 0x40)]
  else
    [UInt8.ofNat (0xF0 + n / 0x40000), UInt8.ofNat (0x80 + n / 0x1000 % 0x40),
      UInt8.ofNat (0x80 + n / 0x40 % 0x40), UInt8.ofNat (0x80 + n % 0x40)]

/-- The bytes of a sequence of characters. -/
def encodeChars (cs : List Char) : List UInt8 :=
  cs.flatMap encodeChar

/-- The bytes of a text. -/
def encode (s : String) : List UInt8 :=
  encodeChars s.toList

/-! ### Reading one character -/

/-- What a first byte promises: how many bytes follow it, the bits it brings
    itself, and the range that the second byte must keep to.  The narrowed
    ranges shut out overlong forms, surrogates and values above U+10FFFF. -/
structure Lead where
  more : Nat
  bits : Nat
  low : UInt8 := 0x80
  high : UInt8 := 0xBF
deriving DecidableEq, Repr

/-- The promise of a first byte; `none` for a byte that starts no character. -/
def lead? (b : UInt8) : Option Lead :=
  if b < 0x80 then some { more := 0, bits := b.toNat }
  else if b < 0xC2 then none
  else if b < 0xE0 then some { more := 1, bits := b.toNat - 0xC0 }
  else if b = 0xE0 then some { more := 2, bits := 0, low := 0xA0 }
  else if b = 0xED then some { more := 2, bits := 0xD, high := 0x9F }
  else if b < 0xF0 then some { more := 2, bits := b.toNat - 0xE0 }
  else if b = 0xF0 then some { more := 3, bits := 0, low := 0x90 }
  else if b < 0xF4 then some { more := 3, bits := b.toNat - 0xF0 }
  else if b = 0xF4 then some { more := 3, bits := 4, high := 0x8F }
  else none

/-- The outcome of reading one step. -/
inductive Step where
  /-- A character, and the bytes behind it. -/
  | char (c : Char) (rest : List UInt8)
  /-- A malformed part of `length` bytes, and the bytes behind it. -/
  | malformed (length : Nat) (rest : List UInt8)
  /-- The bytes end inside a character. -/
  | cutShort
deriving DecidableEq, Repr

/-- The bytes that a step leaves to be read. -/
def Step.rest : Step → List UInt8
  | .char _ rest => rest
  | .malformed _ rest => rest
  | .cutShort => []

/-- Reads the `more` bytes that continue a character of which `used` bytes with
    the value `bits` were read.  The next byte must lie between `low` and
    `high`, all later ones between `0x80` and `0xBF`. -/
def continueChar : (more bits used : Nat) → (low high : UInt8) → List UInt8 → Step
  | 0, bits, _, _, _, bs => .char (Char.ofNat bits) bs
  | _ + 1, _, _, _, _, [] => .cutShort
  | more + 1, bits, used, low, high, b :: bs =>
    if low ≤ b ∧ b ≤ high then
      continueChar more (bits * 0x40 + (b.toNat - 0x80)) (used + 1) 0x80 0xBF bs
    else
      .malformed used (b :: bs)

/-- Reads one step from a first byte and the bytes behind it. -/
def next (b : UInt8) (bs : List UInt8) : Step :=
  match lead? b with
  | none => .malformed 1 bs
  | some l => continueChar l.more l.bits 1 l.low l.high bs

theorem suffix_rest_continueChar (more bits used : Nat) (low high : UInt8) (bs : List UInt8) :
    (continueChar more bits used low high bs).rest <:+ bs := by
  induction more generalizing bits used low high bs with
  | zero => exact List.suffix_rfl
  | succ more ih =>
    cases bs with
    | nil => exact List.suffix_rfl
    | cons b bs =>
      simp only [continueChar]
      split
      · exact (ih ..).trans (List.suffix_cons b bs)
      · exact List.suffix_rfl

/-- A step reads at least its first byte. -/
theorem suffix_rest_next (b : UInt8) (bs : List UInt8) : (next b bs).rest <:+ bs := by
  unfold next
  split
  · exact List.suffix_rfl
  · exact suffix_rest_continueChar ..

theorem length_rest_next (b : UInt8) (bs : List UInt8) :
    (next b bs).rest.length ≤ bs.length :=
  (suffix_rest_next b bs).length_le

/-- A byte in range that continues a character adds six bits. -/
theorem continueChar_cons {more bits used k : Nat} {low high : UInt8} {bs : List UInt8}
    (hk : k < 0x40) (hl : low.toNat ≤ 0x80 + k) (hh : 0x80 + k ≤ high.toNat) :
    continueChar (more + 1) bits used low high (UInt8.ofNat (0x80 + k) :: bs) =
      continueChar more (bits * 0x40 + k) (used + 1) 0x80 0xBF bs := by
  have e : (UInt8.ofNat (0x80 + k)).toNat = 0x80 + k := by
    rw [UInt8.toNat_ofNat']; omega
  rw [continueChar, if_pos, e, Nat.add_sub_cancel_left]
  simp only [UInt8.le_iff_toNat_le, e]
  exact ⟨hl, hh⟩

/-- The promise of a byte below `0x80`. -/
theorem lead?_one {n : Nat} (h : n < 0x80) : lead? (UInt8.ofNat n) = some { more := 0, bits := n } := by
  have e : (UInt8.ofNat n).toNat = n := by rw [UInt8.toNat_ofNat']; omega
  simp [lead?, UInt8.lt_iff_toNat_lt, e, h]

/-- The promise of the first of two bytes. -/
theorem lead?_two {k : Nat} (h : 2 ≤ k) (h' : k < 0x20) :
    lead? (UInt8.ofNat (0xC0 + k)) = some { more := 1, bits := k } := by
  have e : (UInt8.ofNat (0xC0 + k)).toNat = 0xC0 + k := by rw [UInt8.toNat_ofNat']; omega
  simp only [lead?, UInt8.lt_iff_toNat_lt, e]
  rw [if_neg (by simp; omega), if_neg (by simp; omega), if_pos (by simp; omega), Nat.add_sub_cancel_left]

/-- The promise of the first of three bytes. -/
theorem lead?_three {k : Nat} (h : k < 0x10) :
    lead? (UInt8.ofNat (0xE0 + k)) = some
      { more := 2, bits := k, low := if k = 0 then 0xA0 else 0x80, high := if k = 0xD then 0x9F else 0xBF } := by
  have : k = 0 ∨ k = 0xD ∨ (0 < k ∧ k ≠ 0xD) := by omega
  rcases this with rfl | rfl | ⟨h0, hd⟩
  · rfl
  · rfl
  have e : (UInt8.ofNat (0xE0 + k)).toNat = 0xE0 + k := by rw [UInt8.toNat_ofNat']; omega
  simp only [lead?, UInt8.lt_iff_toNat_lt, ← UInt8.toNat_inj, e]
  rw [if_neg (by simp; omega), if_neg (by simp; omega), if_neg (by simp), if_neg (by simp; omega),
    if_neg (by simp; omega), if_pos (by simp; omega), Nat.add_sub_cancel_left,
    if_neg (by omega), if_neg hd]

/-- The promise of the first of four bytes. -/
theorem lead?_four {k : Nat} (h : k < 5) :
    lead? (UInt8.ofNat (0xF0 + k)) = some
      { more := 3, bits := k, low := if k = 0 then 0x90 else 0x80, high := if k = 4 then 0x8F else 0xBF } := by
  decide +revert

/-- Reading undoes writing, whatever follows. -/
theorem next_encodeChar (c : Char) (rest : List UInt8) :
    ∃ b bs, encodeChar c = b :: bs ∧ next b (bs ++ rest) = .char c rest := by
  have hc : Char.ofNat c.toNat = c := Char.ofNat_toNat c
  have hn : c.toNat < 0xD800 ∨ (0xDFFF < c.toNat ∧ c.toNat < 0x110000) := c.valid
  unfold encodeChar
  generalize c.toNat = n at *
  simp only
  split
  · exact ⟨_, _, rfl, by simp [next, lead?_one ‹_›, continueChar, hc]⟩
  split
  · refine ⟨_, _, rfl, ?_⟩
    have e : n / 0x40 * 0x40 + n % 0x40 = n := by omega
    rw [next, lead?_two (by omega) (by omega)]
    simp only [List.cons_append, List.nil_append]
    rw [continueChar_cons (by omega) (by simp) (by simp; omega), continueChar, e, hc]
  split
  · refine ⟨_, _, rfl, ?_⟩
    have e : (n / 0x1000 * 0x40 + n / 0x40 % 0x40) * 0x40 + n % 0x40 = n := by omega
    rw [next, lead?_three (by omega)]
    simp only [List.cons_append, List.nil_append]
    rw [continueChar_cons (by omega) (by split <;> simp; omega) (by split <;> simp <;> omega),
      continueChar_cons (by omega) (by simp) (by simp; omega), continueChar, e, hc]
  · refine ⟨_, _, rfl, ?_⟩
    have e : ((n / 0x40000 * 0x40 + n / 0x1000 % 0x40) * 0x40 + n / 0x40 % 0x40) * 0x40 + n % 0x40 = n := by
      omega
    rw [next, lead?_four (by omega)]
    simp only [List.cons_append, List.nil_append]
    rw [continueChar_cons (by omega) (by split <;> simp; omega) (by split <;> simp <;> omega),
      continueChar_cons (by omega) (by simp) (by simp; omega),
      continueChar_cons (by omega) (by simp) (by simp; omega), continueChar, e, hc]

/-! ### Reading with replacement -/

/-- The character that stands for a malformed part. -/
def replacement : Char := '\uFFFD'

/-- Reads all bytes; each malformed part becomes one replacement character. -/
def decodeChars : List UInt8 → List Char
  | [] => []
  | b :: bs =>
    match _h : next b bs with
    | .char c rest => c :: decodeChars rest
    | .malformed _ rest => replacement :: decodeChars rest
    | .cutShort => [replacement]
termination_by bs => bs.length
decreasing_by
  all_goals
    have := length_rest_next b bs
    simp only [_h, Step.rest] at this
    simp only [List.length_cons]
    omega

/-- The text of some bytes, malformed parts replaced. -/
def decodeLossy (bs : List UInt8) : String :=
  String.ofList (decodeChars bs)

theorem decodeChars_encodeChars (cs : List Char) : decodeChars (encodeChars cs) = cs := by
  induction cs with
  | nil => simp [encodeChars, decodeChars]
  | cons c cs ih =>
    obtain ⟨b, bs, he, hn⟩ := next_encodeChar c (encodeChars cs)
    have h : encodeChars (c :: cs) = b :: (bs ++ encodeChars cs) := by
      simp [encodeChars, he]
    rw [h, decodeChars, hn]
    simp [ih]

theorem decodeLossy_encode (s : String) : decodeLossy (encode s) = s := by
  simp [decodeLossy, encode, decodeChars_encodeChars]

/-! ### Strict reading -/

/-- Where strict reading fails: the index of the first byte of the malformed
    part, and its length unless the end of the bytes cuts it short. -/
structure Malformed where
  index : Nat
  length : Option Nat
deriving DecidableEq, Repr

/-- The wording of a failure to read. -/
def Malformed.message (m : Malformed) : String :=
  match m.length with
  | some n => s!"invalid utf-8 sequence of {n} bytes from index {m.index}"
  | none => s!"incomplete utf-8 byte sequence from index {m.index}"

/-- Reads the bytes that start at `index`; fails at the first malformed part. -/
def decodeCharsFrom? (index : Nat) : List UInt8 → Except Malformed (List Char)
  | [] => .ok []
  | b :: bs =>
    match _h : next b bs with
    | .char c rest => (decodeCharsFrom? (index + ((b :: bs).length - rest.length)) rest).map (c :: ·)
    | .malformed n _ => .error { index, length := some n }
    | .cutShort => .error { index, length := none }
termination_by bs => bs.length
decreasing_by
  have := length_rest_next b bs
  simp only [_h, Step.rest] at this
  simp only [List.length_cons]
  omega

/-- The text of some bytes, if they are well formed. -/
def decode? (bs : List UInt8) : Except Malformed String :=
  (decodeCharsFrom? 0 bs).map String.ofList

end Monkey.Text.Utf8
