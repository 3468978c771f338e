import Monkey.Proofs.Text.Numeral
import Monkey.Proofs.Token.Lexicon

/-!
  Monkey/Proofs/Token/Scan.lean
  =============================
  **The text of a token is scanned as that token.**

  `scanFrom` is scanning from a given line on.  For every kind of text that a tree
  is written with there is one equation: it takes the text off the front and leaves
  the scan of what follows.  A word or a numeral needs something behind it that
  cannot belong to it (`Stops`).

  Conversely the scanner spells well (`WellSpelt`): an identifier token is a word
  that is not reserved, an integer token holds digits only, and a string token no
  double quote.
-/
namespace Monkey

open Text Utf8

/-! ### Classes of texts -/

/-- A letter or an underscore, and then letters, underscores and digits. -/
def Text.isWord (s : String) : Bool :=
  match encode s with
  | [] => false
  | b :: bs => Byte.isWordStart b && bs.all Byte.isWordPart

/-- Digits only, and at least one. -/
def Text.isNumeral (s : String) : Bool :=
  match encode s with
  | [] => false
  | b :: bs => Byte.isDigit b && bs.all Byte.isDigit

/-- Bytes in front of which a word or a numeral ends. -/
def Stops : List UInt8 → Prop
  | [] => True
  | b :: _ => Byte.isWordPart b = false

theorem stops_blank (rest : List UInt8) : Stops (encode " " ++ rest) :=
  rfl

theorem Stops.ends_isWordPart {rest : List UInt8} (h : Stops rest) : Ends Byte.isWordPart rest := by
  cases rest with
  | nil =>
    intro b hb
    cases hb
  | cons b more =>
    intro x hx
    cases hx
    exact h

theorem Stops.ends_isDigit {rest : List UInt8} (h : Stops rest) : Ends Byte.isDigit rest :=
  fun b hb => (Bool.or_eq_false_iff.1 (h.ends_isWordPart b hb)).2

namespace Token

/-! ### The texts of tokens -/

/-- A lexeme on one line whose bytes are the text of its token. -/
theorem scanFrom_lexeme {s : String} {rest : List UInt8} {k : Kind}
    (h : Lexeme k (encode s) rest) (hs : k ≠ .string) (hi : k ≠ .illegal) (line : Nat) :
    scanFrom line (encode s ++ rest) = ⟨k, s, line⟩ :: scanFrom line rest := by
  have hc := List.count_eq_zero.2 (h.lineFeed_not_mem hs hi)
  rw [scanFrom_of_lexeme h, Piece.content, if_neg hs, decodeLossy_encode, hc, Nat.add_zero]

theorem scanFrom_blank (line : Nat) (rest : List UInt8) :
    scanFrom line (encode " " ++ rest) = scanFrom line rest :=
  scanFrom_of_blank (.layout rfl) line

theorem scanFrom_punctuator (s : String) {b : UInt8} {k : Kind} (hs : encode s = [b])
    (hk : Kind.ofPunctuator? (Byte.char b) = some k) (line : Nat) (rest : List UInt8) :
    scanFrom line (encode s ++ rest) = ⟨k, s, line⟩ :: scanFrom line rest := by
  have hk := Kind.ofPunctuator?_eq_some_iff.1 hk
  obtain ⟨-, -, hstring, hillegal, -⟩ := hk.kind_ne
  have hl : Lexeme k (encode s) rest := by
    rw [hs]
    exact .punctuator hk
  exact scanFrom_lexeme hl hstring hillegal line

/-- A punctuator and a blank. -/
theorem scanFrom_spaced (s t : String) {b : UInt8} {k : Kind} (ht : t = s ++ " ")
    (hs : encode s = [b]) (hk : Kind.ofPunctuator? (Byte.char b) = some k) (line : Nat)
    (rest : List UInt8) :
    scanFrom line (encode t ++ rest) = ⟨k, s, line⟩ :: scanFrom line rest := by
  rw [ht, encode_append, List.append_assoc, scanFrom_punctuator s hs hk, scanFrom_blank]

theorem scanFrom_word {s : String} (h : isWord s = true) {rest : List UInt8} (hr : Stops rest)
    (line : Nat) :
    scanFrom line (encode s ++ rest) = ⟨Kind.ofWord s, s, line⟩ :: scanFrom line rest := by
  have hk := word_ofWord s
  obtain ⟨-, hstring, hillegal, -⟩ := hk.kind_ne
  have hl : Lexeme (Kind.ofWord s) (encode s) rest := by
    unfold isWord at h
    cases hs : encode s with
    | nil =>
      rw [hs] at h
      cases h
    | cons b bs =>
      rw [hs] at h
      obtain ⟨hb, hbs⟩ := Bool.and_eq_true_iff.1 h
      exact .word hk hs hb (List.all_eq_true.1 hbs) hr.ends_isWordPart
  exact scanFrom_lexeme hl hstring hillegal line

theorem isNumeral_ofInt {i : Int} (h : 0 ≤ i) : isNumeral (Decimal.ofInt i) = true := by
  have hd : ∀ c ∈ Decimal.digits i.toNat, c.isDigit = true := fun _ => Decimal.isDigit_of_mem_digits
  have hm : (encode (Decimal.ofInt i)).map Byte.char = Decimal.digits i.toNat := by
    rw [encode, Decimal.ofInt, String.toList_ofList, Decimal.intChars_of_nonneg h]
    refine map_char_encodeChars fun c hc => ?_
    exact Nat.lt_of_le_of_lt (Char.isDigit_iff_toNat.1 (hd c hc)).2 (by decide)
  have ha : ∀ b ∈ encode (Decimal.ofInt i), Byte.isDigit b = true := by
    intro b hb
    refine hd _ ?_
    rw [← hm]
    exact List.mem_map_of_mem hb
  unfold isNumeral
  cases he : encode (Decimal.ofInt i) with
  | nil =>
    rw [he] at hm
    exact absurd hm.symm (Decimal.digits_ne_nil i.toNat)
  | cons b bs =>
    rw [he] at ha
    obtain ⟨hb, hbs⟩ := List.forall_mem_cons.1 ha
    exact Bool.and_eq_true_iff.2 ⟨hb, List.all_eq_true.2 hbs⟩

theorem scanFrom_numeral {s : String} (h : isNumeral s = true) {rest : List UInt8} (hr : Stops rest)
    (line : Nat) :
    scanFrom line (encode s ++ rest) = ⟨.integer, s, line⟩ :: scanFrom line rest := by
  have hl : Lexeme .integer (encode s) rest := by
    unfold isNumeral at h
    cases hs : encode s with
    | nil =>
      rw [hs] at h
      cases h
    | cons b bs =>
      rw [hs] at h
      obtain ⟨hb, hbs⟩ := Bool.and_eq_true_iff.1 h
      exact .integer hb (List.all_eq_true.1 hbs) hr.ends_isDigit
  exact scanFrom_lexeme hl (by decide) (by decide) line

theorem scanFrom_string {s : String} (h : '"' ∉ s.toList) (line : Nat) (rest : List UInt8) :
    ∃ line', scanFrom line (encode "\"" ++ (encode s ++ (encode "\"" ++ rest))) =
      ⟨.string, s, line⟩ :: scanFrom line' rest := by
  have hl : Lexeme .string (0x22 :: (encode s ++ [0x22])) rest :=
    .string fun hq => h (quote_mem_of_encode hq)
  have hc : decodeLossy (Piece.content .string (0x22 :: (encode s ++ [0x22]))) = s := by
    rw [Piece.content, if_pos rfl, List.tail_cons, List.dropLast_concat, decodeLossy_encode]
  have he : encode "\"" ++ (encode s ++ (encode "\"" ++ rest)) =
      0x22 :: (encode s ++ [0x22]) ++ rest := by
    rw [List.cons_append, List.append_assoc]
    rfl
  rw [he, scanFrom_of_lexeme hl, hc]
  exact ⟨_, rfl⟩

theorem scanFrom_bang {rest : List UInt8} (h : Piece.startsWith '=' rest = false) (line : Nat) :
    scanFrom line (encode "!" ++ rest) = ⟨.bang, "!", line⟩ :: scanFrom line rest :=
  scanFrom_lexeme (.bang h) (by decide) (by decide) line

/-! ### What the scanner spells -/

/-- What every token of a scan satisfies. -/
def WellSpelt (t : Token) : Prop :=
  match t.kind with
  | .identifier => isWord t.literal = true ∧ Kind.ofWord t.literal = .identifier
  | .integer => ∀ c ∈ t.literal.toList, c.isDigit = true
  | .string => '"' ∉ t.literal.toList
  | _ => True

theorem wellSpelt_word {k : Kind} {b : UInt8} {bs : List UInt8}
    (hk : Word k (decodeLossy (b :: bs))) (hb : Byte.isWordStart b = true)
    (hbs : ∀ x ∈ bs, Byte.isWordPart x = true) (line : Nat) :
    WellSpelt ⟨k, decodeLossy (b :: bs), line⟩ := by
  have hw : isWord (decodeLossy (b :: bs)) = true := by
    rw [isWord, encode_word hb hbs]
    exact Bool.and_eq_true_iff.2 ⟨hb, List.all_eq_true.2 hbs⟩
  obtain ⟨hinteger, hstring, -, -⟩ := hk.kind_ne
  rw [WellSpelt]
  split
  · rename_i he
    exact ⟨hw, (Kind.eq_ofWord_iff.2 hk).symm.trans he⟩
  · rename_i he
    exact absurd he hinteger
  · rename_i he
    exact absurd he hstring
  · trivial

theorem wellSpelt_numeral {bs : List UInt8} (h : ∀ b ∈ bs, Byte.isDigit b = true) (line : Nat) :
    WellSpelt ⟨.integer, decodeLossy bs, line⟩ := by
  intro c hc
  have hl : ∀ b ∈ bs, b < 0x80 := fun b hb =>
    (Byte.word_class b (Byte.isWordPart_of_isDigit (h b hb))).1
  rw [toList_decodeLossy hl] at hc
  obtain ⟨b, hb, rfl⟩ := List.mem_map.1 hc
  exact h b hb

theorem wellSpelt_string {bs : List UInt8} (h : 0x22 ∉ bs) (line : Nat) :
    WellSpelt ⟨.string, decodeLossy bs, line⟩ :=
  fun hq => h (quote_mem_of_decodeLossy hq)

theorem wellSpelt_of_lexeme {k : Kind} {l rest : List UInt8} (h : Lexeme k l rest) (line : Nat) :
    WellSpelt ⟨k, decodeLossy (Piece.content k l), line⟩ := by
  cases h with
  | punctuator hk =>
    obtain ⟨hidentifier, hinteger, hstring, -, -⟩ := hk.kind_ne
    unfold WellSpelt
    split <;> first | contradiction | trivial
  | @integer b bs _ hb hbs =>
    rw [Piece.content, if_neg (by decide)]
    exact wellSpelt_numeral (List.forall_mem_cons.2 ⟨hb, hbs⟩) line
  | @word _ s b bs _ hk hs hb hbs =>
    have hd : decodeLossy (b :: bs) = s := by rw [← hs, decodeLossy_encode]
    rw [Piece.content, if_neg hk.kind_ne.2.1]
    exact wellSpelt_word (hd.symm ▸ hk) hb hbs line
  | @string bs _ hbs =>
    rw [Piece.content, if_pos rfl, List.tail_cons, List.dropLast_concat]
    exact wellSpelt_string hbs line
  | _ => trivial

theorem wellSpelt_of_mem_cut {bs : List UInt8} {p : Piece} {k : Kind} (h : p ∈ Piece.cut bs)
    (hk : p.kind = some k) (line : Nat) :
    WellSpelt ⟨k, decodeLossy (Piece.content k p.text), line⟩ := by
  obtain ⟨rest, hl⟩ := Piece.exists_lexeme h hk
  exact wellSpelt_of_lexeme hl line

theorem wellSpelt_of_mem_ofPieces {ps : List Piece} {line : Nat} {t : Token}
    (hp : ∀ p ∈ ps, ∀ k, p.kind = some k → ∀ line,
      WellSpelt ⟨k, decodeLossy (Piece.content k p.text), line⟩)
    (h : t ∈ ofPieces line ps) : t.WellSpelt := by
  induction ps generalizing line with
  | nil =>
    rw [List.mem_singleton.1 h]
    trivial
  | cons p ps ih =>
    have hps := fun q hq => hp q (List.mem_cons_of_mem p hq)
    rw [ofPieces] at h
    split at h
    · exact ih hps h
    · rename_i k hk
      rcases List.mem_cons.1 h with rfl | h
      · exact hp p List.mem_cons_self k hk line
      · exact ih hps h

/-- The scanner spells well. -/
theorem wellSpelt_of_mem_scan {source : List UInt8} {t : Token} (h : t ∈ scan source) :
    t.WellSpelt :=
  wellSpelt_of_mem_ofPieces (fun _ hp _ hk line => wellSpelt_of_mem_cut hp hk line) h

end Token

end Monkey
