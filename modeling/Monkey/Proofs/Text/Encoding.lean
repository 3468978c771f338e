import Mathlib.Algebra.Group.Nat.Defs
import Monkey.Token.Lexer

/-!
  Monkey/Proofs/Text/Encoding.lean
  ================================
  **What the bytes of a text say about its characters.**

  A byte below `0x80` is a character of its own, and no longer form of a
  character has such a byte in it.  So a text of such bytes is read and written
  byte for byte (`encode_decodeLossy`), and a double quote stands in the bytes
  exactly where it stands in the text (`quote_mem_of_encode`,
  `quote_mem_of_decodeLossy`).
-/
namespace Monkey.Text.Utf8

theorem encodeChars_append (cs ds : List Char) :
    encodeChars (cs ++ ds) = encodeChars cs ++ encodeChars ds :=
  List.flatMap_append

theorem encode_append (s t : String) : encode (s ++ t) = encode s ++ encode t := by
  rw [encode, String.toList_append, encodeChars_append]
  rfl

/-! ### Bytes below `0x80` -/

theorem toNat_ofNat_of_lt {n : Nat} (h : n < 0xD800) : (Char.ofNat n).toNat = n := by
  have hv : n.isValidChar := .inl h
  rw [Char.ofNat, dif_pos hv]
  rfl

theorem encodeChar_char {b : UInt8} (h : b < 0x80) : encodeChar (Byte.char b) = [b] := by
  have hb : b.toNat < 0x80 := h
  rw [encodeChar, Byte.char, toNat_ofNat_of_lt (by omega)]
  simp only [hb, if_true, UInt8.ofNat_toNat]

theorem encodeChars_map_char {bs : List UInt8} (h : ∀ b ∈ bs, b < 0x80) :
    encodeChars (bs.map Byte.char) = bs := by
  induction bs with
  | nil => rfl
  | cons b bs ih =>
    have hb := encodeChar_char (h b (by simp))
    have hbs := ih fun c hc => h c (by simp [hc])
    rw [List.map_cons, encodeChars, List.flatMap_cons, hb]
    exact congrArg (b :: ·) hbs

theorem map_char_encodeChars {cs : List Char} (h : ∀ c ∈ cs, c.toNat < 0x80) :
    (encodeChars cs).map Byte.char = cs := by
  induction cs with
  | nil => rfl
  | cons c cs ih =>
    have hc : c.toNat < 0x80 := h c List.mem_cons_self
    have hcs := ih fun d hd => h d (List.mem_cons_of_mem c hd)
    have hb : Byte.char (UInt8.ofNat c.toNat) = c := by
      rw [Byte.char, UInt8.toNat_ofNat', Nat.mod_eq_of_lt (by omega), Char.ofNat_toNat]
    have he : encodeChars (c :: cs) = UInt8.ofNat c.toNat :: encodeChars cs := by
      rw [encodeChars, List.flatMap_cons, encodeChar, if_pos hc]
      rfl
    rw [he, List.map_cons, hb, hcs]

theorem toList_decodeLossy {bs : List UInt8} (h : ∀ b ∈ bs, b < 0x80) :
    (decodeLossy bs).toList = bs.map Byte.char := by
  rw [decodeLossy, String.toList_ofList, ← decodeChars_encodeChars (bs.map Byte.char),
    encodeChars_map_char h]

/-- Text of bytes below `0x80` is read byte for byte. -/
theorem encode_decodeLossy {bs : List UInt8} (h : ∀ b ∈ bs, b < 0x80) :
    encode (decodeLossy bs) = bs := by
  rw [encode, toList_decodeLossy h, encodeChars_map_char h]

/-! ### Double quotes -/

theorem le_of_mem_encodeChar {c : Char} {b : UInt8} (hc : 0x80 ≤ c.toNat) (hb : b ∈ encodeChar c) :
    0x80 ≤ b.toNat := by
  have hv : c.toNat < 0x110000 := by
    have : c.toNat < 0xD800 ∨ (0xDFFF < c.toNat ∧ c.toNat < 0x110000) := c.valid
    omega
  unfold encodeChar at hb
  generalize c.toNat = n at *
  simp only [Nat.not_lt.2 hc, if_false] at hb
  split at hb
  · simp only [List.mem_cons, List.not_mem_nil, or_false] at hb
    rcases hb with rfl | rfl
    all_goals
      rw [UInt8.toNat_ofNat']
      omega
  · split at hb
    · simp only [List.mem_cons, List.not_mem_nil, or_false] at hb
      rcases hb with rfl | rfl | rfl
      all_goals
        rw [UInt8.toNat_ofNat']
        omega
    · simp only [List.mem_cons, List.not_mem_nil, or_false] at hb
      rcases hb with rfl | rfl | rfl | rfl
      all_goals
        rw [UInt8.toNat_ofNat']
        omega

theorem quote_mem_of_encode {s : String} (h : 0x22 ∈ encode s) : '"' ∈ s.toList := by
  obtain ⟨c, hc, hb⟩ := List.mem_flatMap.1 h
  have hn : c.toNat < 0x80 := by
    refine Nat.not_le.1 fun hn => ?_
    have := le_of_mem_encodeChar hn hb
    simp at this
  rw [encodeChar, if_pos hn, List.mem_singleton] at hb
  have he := congrArg UInt8.toNat hb
  rw [UInt8.toNat_ofNat', Nat.mod_eq_of_lt (by omega)] at he
  have hq : c = '"' := Char.toNat_inj.1 he.symm
  exact hq ▸ hc

/-- The number of a character that takes several bytes is at least what its first
    two bytes promise. -/
theorem le_of_continueChar {more bits used : Nat} {low high : UInt8} {bs rest : List UInt8}
    {c : Char} (h : continueChar (more + 1) bits used low high bs = .char c rest) :
    ∃ n, c = Char.ofNat n ∧ (bits * 0x40 + (low.toNat - 0x80)) * 0x40 ^ more ≤ n := by
  induction more generalizing bits used low high bs with
  | zero =>
    rcases bs with _ | ⟨b, bs⟩
    · cases h
    rw [continueChar] at h
    split at h
    · rename_i hb
      have hl : low.toNat ≤ b.toNat := hb.1
      obtain ⟨hc, -⟩ := Step.char.inj h
      rw [Nat.pow_zero, Nat.mul_one]
      exact ⟨_, hc.symm, by omega⟩
    · cases h
  | succ more ih =>
    rcases bs with _ | ⟨b, bs⟩
    · cases h
    rw [continueChar] at h
    split at h
    · rename_i hb
      have hl : low.toNat ≤ b.toNat := hb.1
      obtain ⟨n, hc, hn⟩ := ih h
      refine ⟨n, hc, Nat.le_trans ?_ hn⟩
      calc (bits * 0x40 + (low.toNat - 0x80)) * 0x40 ^ (more + 1)
        _ = (bits * 0x40 + (low.toNat - 0x80)) * 0x40 * 0x40 ^ more := by
          rw [Nat.pow_succ, Nat.mul_comm (0x40 ^ more), Nat.mul_assoc]
        _ ≤ ((bits * 0x40 + (b.toNat - 0x80)) * 0x40 + 0) * 0x40 ^ more :=
          Nat.mul_le_mul_right _ (by omega)
    · cases h

/-- What the first byte of several promises is at least the number `0x80`. -/
theorem le_of_lead? {b : UInt8} {l : Lead} (h : lead? b = some l) (hb : ¬ b < 0x80) :
    ∃ more, l.more = more + 1 ∧ 0x80 ≤ (l.bits * 0x40 + (l.low.toNat - 0x80)) * 0x40 ^ more := by
  rw [lead?, if_neg hb] at h
  repeat' split at h
  all_goals cases h
  all_goals refine ⟨_, rfl, ?_⟩
  all_goals simp only [UInt8.lt_iff_toNat_lt, ← UInt8.toNat_inj, UInt8.reduceToNat] at *
  all_goals omega

theorem quote_of_next {b : UInt8} {bs rest : List UInt8} (h : next b bs = .char '"' rest) :
    b = 0x22 := by
  unfold next at h
  split at h
  · cases h
  rename_i l hl
  by_cases hb : b < 0x80
  · rw [lead?, if_pos hb] at hl
    cases hl
    obtain ⟨hc, -⟩ := Step.char.inj h
    have hb : b.toNat < 0x80 := hb
    have hn : b.toNat = 0x22 := by
      rw [← toNat_ofNat_of_lt (n := b.toNat) (by omega), hc]
      rfl
    exact UInt8.toNat_inj.1 hn
  · obtain ⟨more, hm, hle⟩ := le_of_lead? hl hb
    rw [hm] at h
    obtain ⟨n, hc, hn⟩ := le_of_continueChar h
    have hq : (Char.ofNat n).toNat = 0x22 := by
      rw [← hc]
      rfl
    by_cases hv : n.isValidChar
    · rw [Char.ofNat, dif_pos hv] at hq
      have hq : n = 0x22 := hq
      omega
    · rw [Char.ofNat, dif_neg hv] at hq
      cases hq

theorem quote_mem_of_decodeChars {bs : List UInt8} (h : '"' ∈ decodeChars bs) : 0x22 ∈ bs := by
  fun_induction decodeChars bs with
  | case1 => cases h
  | case2 b bs c rest hn ih =>
    have hs : rest <:+ bs := by simpa only [hn, Step.rest] using suffix_rest_next b bs
    rcases List.mem_cons.1 h with rfl | h
    · rw [quote_of_next hn]
      exact List.mem_cons_self
    · exact List.mem_cons_of_mem b (hs.subset (ih h))
  | case3 b bs n rest hn ih =>
    have hs : rest <:+ bs := by simpa only [hn, Step.rest] using suffix_rest_next b bs
    rcases List.mem_cons.1 h with h | h
    · exact absurd h (by decide)
    · exact List.mem_cons_of_mem b (hs.subset (ih h))
  | case4 b bs hn => exact absurd h (by decide)

theorem quote_mem_of_decodeLossy {bs : List UInt8} (h : '"' ∈ (decodeLossy bs).toList) :
    0x22 ∈ bs := by
  rw [decodeLossy, String.toList_ofList] at h
  exact quote_mem_of_decodeChars h

theorem next_quote (bs : List UInt8) : next 0x22 bs = .char '"' bs :=
  rfl

/-- A text starts with a double quote if its bytes do, and only then. -/
theorem head?_decodeLossy_quote {bs : List UInt8} :
    (decodeLossy bs).toList.head? = some '"' ↔ bs.head? = some 0x22 := by
  rw [decodeLossy, String.toList_ofList]
  cases bs with
  | nil =>
    rw [decodeChars]
    exact iff_of_false (by simp) (by simp)
  | cons b bs =>
    rw [decodeChars]
    constructor
    · intro h
      split at h
      · rename_i c rest hn
        cases h
        rw [quote_of_next hn]
        rfl
      · cases h
      · cases h
    · intro h
      cases h
      rw [next_quote]
      rfl

/-! ### Between characters -/

theorem encodeChars_cons (c : Char) (cs : List Char) :
    encodeChars (c :: cs) = encodeChar c ++ encodeChars cs :=
  List.flatMap_cons

/-- Of the bytes of a character the first one continues none, and the others do. -/
theorem exists_lead (c : Char) : ∃ b bs, encodeChar c = b :: bs ∧ Byte.isContinuation b = false ∧
    ∀ x ∈ bs, Byte.isContinuation x = true := by
  have hv : c.toNat < 0x110000 := by
    have : c.toNat < 0xD800 ∨ (0xDFFF < c.toNat ∧ c.toNat < 0x110000) := c.valid
    omega
  have hfirst {n : Nat} (hn : n < 0x80 ∨ 0xC0 ≤ n) (hlt : n < 0x100) :
      Byte.isContinuation (UInt8.ofNat n) = false := by
    simp [Byte.isContinuation, UInt8.le_iff_toNat_le, Nat.mod_eq_of_lt hlt]
    omega
  have hmore (n : Nat) : Byte.isContinuation (UInt8.ofNat (0x80 + n % 0x40)) = true := by
    simp [Byte.isContinuation, UInt8.le_iff_toNat_le]
    omega
  unfold encodeChar
  generalize c.toNat = n at *
  simp only
  split
  · exact ⟨_, _, rfl, hfirst (by omega) (by omega), List.forall_mem_nil _⟩
  split
  · exact ⟨_, _, rfl, hfirst (by omega) (by omega), List.forall_mem_singleton.2 (hmore _)⟩
  split
  · refine ⟨_, _, rfl, hfirst (by omega) (by omega), List.forall_mem_cons.2 ⟨hmore _, ?_⟩⟩
    exact List.forall_mem_singleton.2 (hmore _)
  · refine ⟨_, _, rfl, hfirst (by omega) (by omega), List.forall_mem_cons.2 ⟨hmore _, ?_⟩⟩
    exact List.forall_mem_cons.2 ⟨hmore _, List.forall_mem_singleton.2 (hmore _)⟩

/-- In front of a byte that continues no character there is a place between two. -/
theorem exists_split {cs : List Char} {l rest : List UInt8} (h : encodeChars cs = l ++ rest)
    (hr : ∀ b ∈ rest.head?, Byte.isContinuation b = false) :
    ∃ ds es, encodeChars ds = l ∧ encodeChars es = rest := by
  induction cs generalizing l with
  | nil =>
    obtain ⟨rfl, rfl⟩ := List.append_eq_nil_iff.1 h.symm
    exact ⟨[], [], rfl, rfl⟩
  | cons c cs ih =>
    cases l with
    | nil => exact ⟨[], c :: cs, rfl, h⟩
    | cons x l =>
      obtain ⟨b, bs, he, -, hbs⟩ := exists_lead c
      rw [encodeChars_cons, he, List.cons_append, List.cons_append] at h
      obtain ⟨rfl, hcs⟩ := List.cons.inj h
      rcases List.append_eq_append_iff.1 hcs with ⟨m, rfl, hm⟩ | ⟨m, rfl, rfl⟩
      · obtain ⟨ds, es, rfl, rfl⟩ := ih hm
        exact ⟨c :: ds, es, by rw [encodeChars_cons, he, List.cons_append], rfl⟩
      · cases m with
        | nil =>
          refine ⟨[c], cs, ?_, rfl⟩
          rw [encodeChars_cons, he, List.append_nil]
          exact List.append_nil _
        | cons y m =>
          -- the place would be inside the character
          have hy := hbs y (List.mem_append_right l List.mem_cons_self)
          rw [hr y rfl] at hy
          cases hy

/-- The bytes are those of a text. -/
def IsText (bs : List UInt8) : Prop :=
  ∃ s, encode s = bs

theorem isText_encodeChars (cs : List Char) : IsText (encodeChars cs) :=
  ⟨String.ofList cs, by rw [encode, String.toList_ofList]⟩

namespace IsText

variable {l rest : List UInt8}

theorem split (h : IsText (l ++ rest)) (hr : ∀ b ∈ rest.head?, Byte.isContinuation b = false) :
    IsText l ∧ IsText rest := by
  obtain ⟨s, hs⟩ := h
  obtain ⟨ds, es, rfl, rfl⟩ := exists_split hs hr
  exact ⟨isText_encodeChars ds, isText_encodeChars es⟩

theorem tail {b : UInt8} (h : IsText (b :: rest)) (hb : b < 0x80) : IsText rest := by
  obtain ⟨s, hs⟩ := h
  rw [encode] at hs
  cases hcs : s.toList with
  | nil =>
    rw [hcs] at hs
    cases hs
  | cons c cs =>
    rw [hcs, encodeChars_cons] at hs
    have hc : c.toNat < 0x80 := by
      obtain ⟨x, xs, he, -⟩ := exists_lead c
      rw [he] at hs
      obtain ⟨rfl, -⟩ := List.cons.inj hs
      refine Nat.not_le.1 fun hle => ?_
      have hx := le_of_mem_encodeChar hle (he ▸ List.mem_cons_self)
      exact absurd (UInt8.lt_iff_toNat_lt.1 hb) (Nat.not_lt.2 hx)
    rw [encodeChar, if_pos hc] at hs
    obtain ⟨-, rfl⟩ := List.cons.inj hs
    exact isText_encodeChars cs

/-- In front of a byte below `0x80` and behind it there is a place between two characters. -/
theorem split_byte {b : UInt8} (h : IsText (l ++ b :: rest)) (hb : b < 0x80) :
    IsText l ∧ IsText rest := by
  have hc : Byte.isContinuation b = false := by
    rw [Byte.isContinuation, decide_eq_false (by rwa [UInt8.not_le])]
    rfl
  obtain ⟨hl, hr⟩ : IsText l ∧ IsText (b :: rest) := by
    refine h.split ?_
    rintro x ⟨⟩
    exact hc
  exact ⟨hl, hr.tail hb⟩

end IsText

end Monkey.Text.Utf8
