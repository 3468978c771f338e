import Monkey.Proofs.Text.Encoding

/-!
  Monkey/Proofs/Token/Lexicon.lean
  ================================
  **The lexical grammar.**

  `Lexeme` says of every kind of token which bytes it may have and what may stand
  behind them; the latter is what makes a lexeme as long as possible.  `Gap` says what
  may stand between two lexemes.  Neither of them mentions the scanner, and punctuators
  and reserved words are written out; the tables of the scanner agree with them
  (`ofPunctuator?_eq_some_iff`, `eq_ofWord_iff`).

  A lexeme in front of the bytes is the piece that the scanner cuts off, and so is a part
  of a gap (`munch_of_correct`).  So the bytes of a source are gaps and lexemes in turn in
  one way and in no other (`factors_iff`), and the lexemes are those of its tokens
  (`spellings_ofPieces`).  One lexeme in front makes one token, and a blank none
  (`scanFrom_of_lexeme`, `scanFrom_of_blank`).

  A lexeme stays one where nothing follows any more, or layout does (`Lexeme.separated`);
  a string that nothing ends is one only in front of nothing.
-/
namespace Monkey

open Text Utf8

/-! ### The grammar -/

/-- No byte of a class stands in front. -/
def Ends (p : UInt8 → Bool) (bs : List UInt8) : Prop :=
  ∀ b ∈ bs.head?, p b = false

/-- The tokens of one character that need not look at what follows. -/
inductive Punctuator : Token.Kind → Char → Prop where
  | leftParen : Punctuator .leftParen '('
  | rightParen : Punctuator .rightParen ')'
  | leftBrace : Punctuator .leftBrace '{'
  | rightBrace : Punctuator .rightBrace '}'
  | leftBracket : Punctuator .leftBracket '['
  | rightBracket : Punctuator .rightBracket ']'
  | comma : Punctuator .comma ','
  | colon : Punctuator .colon ':'
  | semicolon : Punctuator .semicolon ';'
  | minus : Punctuator .minus '-'
  | plus : Punctuator .plus '+'
  | star : Punctuator .star '*'
  | less : Punctuator .less '<'
  | greater : Punctuator .greater '>'

/-- The reserved words. -/
inductive Reserved : Token.Kind → String → Prop where
  | fnWord : Reserved .fnWord "fn"
  | letWord : Reserved .letWord "let"
  | trueWord : Reserved .trueWord "true"
  | falseWord : Reserved .falseWord "false"
  | ifWord : Reserved .ifWord "if"
  | elseWord : Reserved .elseWord "else"
  | returnWord : Reserved .returnWord "return"

/-- Words: a word that is not reserved is an identifier. -/
inductive Word : Token.Kind → String → Prop where
  | reserved {k s} (h : Reserved k s) : Word k s
  | identifier {s} (h : ∀ k, ¬ Reserved k s) : Word .identifier s

/-- A byte that starts no token of its own, and no gap. -/
structure Stray (b : UInt8) : Prop where
  layout : Byte.isLayout b = false
  punctuator : ∀ k, ¬ Punctuator k (Byte.char b)
  other : Byte.char b ≠ '!' ∧ Byte.char b ≠ '=' ∧ Byte.char b ≠ '/' ∧ Byte.char b ≠ '"'
  digit : Byte.isDigit b = false
  word : Byte.isWordStart b = false

/-- The lexemes of each kind, in front of the bytes that follow. -/
inductive Lexeme : Token.Kind → List UInt8 → List UInt8 → Prop where
  | punctuator {k b rest} (hk : Punctuator k (Byte.char b)) : Lexeme k [b] rest
  | slash {rest} (hr : Piece.startsWith '/' rest = false) : Lexeme .slash [0x2F] rest
  | bang {rest} (hr : Piece.startsWith '=' rest = false) : Lexeme .bang [0x21] rest
  | bangEqual {rest} : Lexeme .bangEqual [0x21, 0x3D] rest
  | equal {rest} (hr : Piece.startsWith '=' rest = false) : Lexeme .equal [0x3D] rest
  | equalEqual {rest} : Lexeme .equalEqual [0x3D, 0x3D] rest
  | integer {b bs rest} (hb : Byte.isDigit b = true) (hbs : ∀ x ∈ bs, Byte.isDigit x = true)
      (hr : Ends Byte.isDigit rest) : Lexeme .integer (b :: bs) rest
  /-- The bytes of a word `s`, which may be reserved. -/
  | word {k s b bs rest} (hk : Word k s) (hs : encode s = b :: bs)
      (hb : Byte.isWordStart b = true) (hbs : ∀ x ∈ bs, Byte.isWordPart x = true)
      (hr : Ends Byte.isWordPart rest) : Lexeme k (b :: bs) rest
  | string {bs rest} (hbs : 0x22 ∉ bs) : Lexeme .string (0x22 :: (bs ++ [0x22])) rest
  /-- A string that nothing ends. -/
  | unclosed {bs} (hbs : 0x22 ∉ bs) : Lexeme .illegal (0x22 :: bs) []
  | stray {b bs rest} (hb : Stray b) (hbs : ∀ x ∈ bs, Byte.isContinuation x = true)
      (hr : Ends Byte.isContinuation rest) : Lexeme .illegal (b :: bs) rest

/-- A byte of layout, or a comment, which takes the rest of its line. -/
inductive Blank : List UInt8 → List UInt8 → Prop where
  | layout {b rest} (hb : Byte.isLayout b = true) : Blank [b] rest
  | comment {bs rest} (hbs : Byte.lineFeed ∉ bs) (hr : Ends Byte.inLine rest) :
      Blank (0x2F :: 0x2F :: bs) rest

/-- Layout and comments, in front of the bytes that follow. -/
inductive Gap : List UInt8 → List UInt8 → Prop where
  | nil {rest} : Gap [] rest
  | cons {p g rest} (hp : Blank p (g ++ rest)) (hg : Gap g rest) : Gap (p ++ g) rest

/-- A lexeme, its kind and the gap in front of it. -/
structure Factor where
  gap : List UInt8
  kind : Token.Kind
  lexeme : List UInt8
deriving DecidableEq, Repr

/-- The bytes are these factors, one behind the other, and a last gap. -/
inductive Factors : List UInt8 → List Factor → List UInt8 → Prop where
  | last {gap} (h : Gap gap []) : Factors gap [] gap
  | cons {gap k lexeme rest fs g} (hg : Gap gap (lexeme ++ rest)) (hl : Lexeme k lexeme rest)
      (h : Factors rest fs g) : Factors (gap ++ (lexeme ++ rest)) (⟨gap, k, lexeme⟩ :: fs) g

theorem Factors.flatMap_text {bs last : List UInt8} {fs : List Factor} (h : Factors bs fs last) :
    fs.flatMap (fun f => f.gap ++ f.lexeme) ++ last = bs := by
  induction h with
  | last => rfl
  | cons _ _ _ ih => rw [List.flatMap_cons, List.append_assoc, ih, List.append_assoc]

theorem Lexeme.ne_nil {k : Token.Kind} {l rest : List UInt8} (h : Lexeme k l rest) : l ≠ [] := by
  cases h <;> exact List.cons_ne_nil _ _

theorem Factors.lexeme_ne_nil {bs last : List UInt8} {fs : List Factor} (h : Factors bs fs last) :
    ∀ f ∈ fs, f.lexeme ≠ [] := by
  induction h with
  | last => exact fun f hf => absurd hf List.not_mem_nil
  | cons _ hl _ ih => exact List.forall_mem_cons.2 ⟨hl.ne_nil, ih⟩

theorem Blank.ne_nil {p rest : List UInt8} (h : Blank p rest) : p ≠ [] := by
  cases h <;> exact List.cons_ne_nil _ _

/-! ### Classes -/

namespace Byte

theorem forall_of_lt {p : UInt8 → Prop} (h : ∀ n < 256, p (UInt8.ofNat n)) (b : UInt8) : p b := by
  have := h b.toNat b.toNat_lt
  rwa [UInt8.ofNat_toNat] at this

theorem word_class (b : UInt8) : isWordPart b = true → b < 0x80 ∧ inLine b = true := by
  revert b
  exact forall_of_lt (by decide +kernel)

theorem isWordPart_of_isDigit {b : UInt8} (h : isDigit b = true) : isWordPart b = true := by
  rw [isWordPart, h, Bool.or_true]

theorem isWordPart_of_isWordStart {b : UInt8} (h : isWordStart b = true) : isWordPart b = true := by
  rw [isWordPart, h, Bool.true_or]

theorem wordStart_class (b : UInt8) : isWordStart b = true →
    isLayout b = false ∧ Token.Kind.ofPunctuator? (char b) = none ∧ char b ≠ '!' ∧ char b ≠ '=' ∧
      char b ≠ '/' ∧ char b ≠ '"' ∧ isDigit b = false := by
  revert b
  exact forall_of_lt (by decide +kernel)

theorem digit_class (b : UInt8) : isDigit b = true →
    isLayout b = false ∧ Token.Kind.ofPunctuator? (char b) = none ∧ char b ≠ '!' ∧ char b ≠ '=' ∧
      char b ≠ '/' ∧ char b ≠ '"' := by
  revert b
  exact forall_of_lt (by decide +kernel)

theorem punctuator_class (b : UInt8) : Token.Kind.ofPunctuator? (char b) ≠ none →
    isLayout b = false ∧ inLine b = true := by
  revert b
  exact forall_of_lt (by decide +kernel)

theorem layout_class (b : UInt8) : isLayout b = true →
    isDigit b = false ∧ isWordPart b = false ∧ isContinuation b = false ∧
      (char b == '=') = false ∧ (char b == '/') = false := by
  revert b
  exact forall_of_lt (by decide +kernel)

theorem eq_of_char {b c : UInt8} (h : char b = char c) : b = c := by
  have hn : (char b).toNat = (char c).toNat := congrArg Char.toNat h
  have hlt (x : UInt8) : x.toNat < 0xD800 := Nat.lt_trans x.toNat_lt (by decide)
  rw [char, char, toNat_ofNat_of_lt (hlt b), toNat_ofNat_of_lt (hlt c)] at hn
  exact UInt8.toNat_inj.1 hn

theorem inQuotes_iff {b : UInt8} : inQuotes b = true ↔ b ≠ 0x22 := by
  rw [inQuotes, bne_iff_ne]
  exact not_congr ⟨fun h => eq_of_char h, fun h => h ▸ rfl⟩

end Byte

/-- A run of a class that is as long as possible. -/
theorem takeWhile_append_of_ends {p : UInt8 → Bool} {bs rest : List UInt8}
    (h : ∀ x ∈ bs, p x = true) (hr : Ends p rest) : (bs ++ rest).takeWhile p = bs := by
  have he : rest.takeWhile p = [] := by
    cases rest with
    | nil => rfl
    | cons b more => rw [List.takeWhile_cons, hr b rfl, if_neg Bool.false_ne_true]
  rw [List.takeWhile_append_of_pos h, he, List.append_nil]

theorem exists_run (p : UInt8 → Bool) (bs : List UInt8) :
    ∃ cs rest, bs = cs ++ rest ∧ (∀ x ∈ cs, p x = true) ∧ Ends p rest := by
  induction bs with
  | nil =>
    refine ⟨[], [], rfl, fun x hx => absurd hx List.not_mem_nil, ?_⟩
    intro x hx
    cases hx
  | cons b bs ih =>
    by_cases hb : p b = true
    · obtain ⟨cs, rest, rfl, hcs, hr⟩ := ih
      exact ⟨b :: cs, rest, rfl, List.forall_mem_cons.2 ⟨hb, hcs⟩, hr⟩
    · refine ⟨[], b :: bs, rfl, fun x hx => absurd hx List.not_mem_nil, ?_⟩
      intro x hx
      cases hx
      exact Bool.eq_false_iff.2 hb

theorem startsWith_iff {c : UInt8} {bs : List UInt8} :
    Piece.startsWith (Byte.char c) bs = true ↔ ∃ rest, bs = c :: rest := by
  cases bs with
  | nil =>
    constructor
    · intro h
      cases h
    · rintro ⟨rest, h⟩
      cases h
  | cons b bs =>
    constructor
    · intro h
      exact ⟨bs, by rw [Byte.eq_of_char (beq_iff_eq.1 h)]⟩
    · rintro ⟨rest, h⟩
      cases h
      exact beq_iff_eq.2 rfl

theorem startsWith_eq_false_iff {c : Char} {bs : List UInt8} :
    Piece.startsWith c bs = false ↔ Ends (fun b => Byte.char b == c) bs :=
  Option.any_eq_false ..

/-! ### Punctuators and words -/

/-- The scanner knows the punctuators. -/
theorem Token.Kind.ofPunctuator?_eq_some_iff {c : Char} {k : Kind} :
    ofPunctuator? c = some k ↔ Punctuator k c := by
  constructor
  · intro h
    unfold ofPunctuator? at h
    split at h <;> cases h <;> constructor
  · rintro ⟨⟩ <;> rfl

theorem Token.Kind.ofPunctuator?_eq_none_iff {c : Char} :
    ofPunctuator? c = none ↔ ∀ k, ¬ Punctuator k c := by
  simp only [Option.eq_none_iff_forall_ne_some, ne_eq, ofPunctuator?_eq_some_iff]

theorem Punctuator.ofPunctuator?_ne_none {c : Char} {k : Token.Kind} (h : Punctuator k c) :
    Token.Kind.ofPunctuator? c ≠ none := by
  rw [Token.Kind.ofPunctuator?_eq_some_iff.2 h]
  exact Option.some_ne_none k

theorem word_ofWord (s : String) : Word (Token.Kind.ofWord s) s := by
  unfold Token.Kind.ofWord
  split
  next h => exact .reserved (h ▸ .fnWord)
  split
  next h => exact .reserved (h ▸ .letWord)
  split
  next h => exact .reserved (h ▸ .trueWord)
  split
  next h => exact .reserved (h ▸ .falseWord)
  split
  next h => exact .reserved (h ▸ .ifWord)
  split
  next h => exact .reserved (h ▸ .elseWord)
  split
  next h => exact .reserved (h ▸ .returnWord)
  refine .identifier fun k hk => ?_
  cases hk <;> contradiction

/-- The scanner knows the reserved words. -/
theorem Token.Kind.eq_ofWord_iff {s : String} {k : Kind} : k = ofWord s ↔ Word k s := by
  constructor
  · rintro rfl
    exact word_ofWord s
  · intro h
    cases h with
    | reserved h => cases h <;> rfl
    | identifier h =>
      have hw := word_ofWord s
      generalize ofWord s = k at hw ⊢
      cases hw with
      | reserved h' => exact absurd h' (h k)
      | identifier => rfl

theorem Punctuator.kind_ne {c : Char} {k : Token.Kind} (h : Punctuator k c) :
    k ≠ .identifier ∧ k ≠ .integer ∧ k ≠ .string ∧ k ≠ .illegal ∧ k ≠ .endOfInput := by
  cases h <;> decide

theorem Word.kind_ne {s : String} {k : Token.Kind} (h : Word k s) :
    k ≠ .integer ∧ k ≠ .string ∧ k ≠ .illegal ∧ k ≠ .endOfInput := by
  rcases h with ⟨⟨⟩⟩ | _ <;> decide

/-! ### Kinds and lexemes -/

namespace Lexeme

variable {k : Token.Kind} {l rest : List UInt8}

/-- The end of the input has no bytes. -/
theorem kind_ne (h : Lexeme k l rest) : k ≠ .endOfInput := by
  cases h with
  | punctuator hk => exact hk.kind_ne.2.2.2.2
  | word hk => exact hk.kind_ne.2.2.2
  | _ => decide

/-- A string token has two double quotes. -/
theorem exists_of_string (h : Lexeme .string l rest) :
    ∃ bs, 0x22 ∉ bs ∧ l = 0x22 :: (bs ++ [0x22]) := by
  generalize hk : Token.Kind.string = k at h
  cases h with
  | punctuator hp => exact absurd hk.symm hp.kind_ne.2.2.1
  | word hw => exact absurd hk.symm hw.kind_ne.2.1
  | @string bs _ hbs => exact ⟨bs, hbs, rfl⟩
  | _ => cases hk

/-- Only strings, whether they end or not, go over several lines. -/
theorem lineFeed_not_mem (h : Lexeme k l rest) (hs : k ≠ .string) (hi : k ≠ .illegal) :
    Byte.lineFeed ∉ l := by
  have hclass {p : UInt8 → Bool} {bs : List UInt8} (hbs : ∀ x ∈ bs, p x = true)
      (hp : p Byte.lineFeed = false) : Byte.lineFeed ∉ bs :=
    fun hm => Bool.eq_false_iff.1 hp (hbs _ hm)
  cases h with
  | @punctuator _ b _ hk =>
    have hb := (Byte.punctuator_class b hk.ofPunctuator?_ne_none).2
    exact fun hm => bne_iff_ne.1 hb (List.mem_singleton.1 hm).symm
  | @integer b bs _ hb hbs _ => exact hclass (List.forall_mem_cons.2 ⟨hb, hbs⟩) rfl
  | word _ _ hb hbs _ =>
    have hb' := Byte.isWordPart_of_isWordStart hb
    exact hclass (List.forall_mem_cons.2 ⟨hb', hbs⟩) rfl
  | string => exact absurd rfl hs
  | unclosed => exact absurd rfl hi
  | stray => exact absurd rfl hi
  | _ => decide

/-- Nothing follows a string that nothing ends. -/
theorem eq_nil_of_unclosed (h : Lexeme .illegal l rest) (hl : l.head? = some 0x22) :
    rest = [] := by
  generalize hk : Token.Kind.illegal = k at h
  cases h with
  | punctuator hp => exact absurd hk.symm hp.kind_ne.2.2.2.1
  | word hw => exact absurd hk.symm hw.kind_ne.2.2.1
  | unclosed => rfl
  | stray hb =>
    cases hl
    exact absurd rfl hb.other.2.2.2
  | _ => cases hk

end Lexeme

/-! ### What may follow -/

/-- Bytes that may follow where others did: none, or layout first, or the same byte first. -/
def Separated (rest rest' : List UInt8) : Prop :=
  ∀ b ∈ rest'.head?, Byte.isLayout b = true ∨ rest.head? = some b

theorem Separated.ends {p : UInt8 → Bool} {rest rest' : List UInt8} (hs : Separated rest rest')
    (hp : ∀ b, Byte.isLayout b = true → p b = false) (h : Ends p rest) : Ends p rest' := by
  intro b hb
  rcases hs b hb with hl | he
  · exact hp b hl
  · exact h b he

/-- A lexeme stays one where other bytes follow that may.  Behind a string that nothing ends
    there must still be none. -/
theorem Lexeme.separated {k : Token.Kind} {l rest rest' : List UInt8} (h : Lexeme k l rest)
    (hs : Separated rest rest') (hu : k = .illegal → l.head? = some 0x22 → rest' = []) :
    Lexeme k l rest' := by
  have hstarts {c : Char} (hc : ∀ b, Byte.isLayout b = true → (Byte.char b == c) = false)
      (hr : Piece.startsWith c rest = false) : Piece.startsWith c rest' = false :=
    startsWith_eq_false_iff.2 (hs.ends hc (startsWith_eq_false_iff.1 hr))
  have hequal (b : UInt8) (hb : Byte.isLayout b = true) := (Byte.layout_class b hb).2.2.2.1
  have hslash (b : UInt8) (hb : Byte.isLayout b = true) := (Byte.layout_class b hb).2.2.2.2
  cases h with
  | punctuator hk => exact .punctuator hk
  | slash hr => exact .slash (hstarts hslash hr)
  | bang hr => exact .bang (hstarts hequal hr)
  | bangEqual => exact .bangEqual
  | equal hr => exact .equal (hstarts hequal hr)
  | equalEqual => exact .equalEqual
  | integer hb hbs hr =>
    exact .integer hb hbs (hs.ends (fun b hb => (Byte.layout_class b hb).1) hr)
  | word hk hw hb hbs hr =>
    exact .word hk hw hb hbs (hs.ends (fun b hb => (Byte.layout_class b hb).2.1) hr)
  | string hbs => exact .string hbs
  | unclosed hbs =>
    obtain rfl := hu rfl rfl
    exact .unclosed hbs
  | stray hb hbs hr =>
    exact .stray hb hbs (hs.ends (fun b hb => (Byte.layout_class b hb).2.2.1) hr)

/-! ### What the bytes start with -/

/-- What the grammar says of a piece. -/
def Piece.Correct : Option Token.Kind → List UInt8 → List UInt8 → Prop
  | none => Blank
  | some k => Lexeme k

/-- A word has no bytes but those of its text. -/
theorem encode_word {b : UInt8} {bs : List UInt8} (hb : Byte.isWordStart b = true)
    (hbs : ∀ x ∈ bs, Byte.isWordPart x = true) : encode (decodeLossy (b :: bs)) = b :: bs := by
  apply encode_decodeLossy
  intro x hx
  rcases List.mem_cons.1 hx with rfl | hx
  · exact (Byte.word_class _ (Byte.isWordPart_of_isWordStart hb)).1
  · exact (Byte.word_class _ (hbs x hx)).1

/-- Whatever the bytes are, they start with a lexeme or with a part of a gap. -/
theorem exists_correct (b : UInt8) (bs : List UInt8) :
    ∃ kind cs rest, bs = cs ++ rest ∧ Piece.Correct kind (b :: cs) rest := by
  by_cases hlayout : Byte.isLayout b = true
  · exact ⟨none, [], bs, rfl, .layout hlayout⟩
  by_cases hpunctuator : ∃ k, Punctuator k (Byte.char b)
  · obtain ⟨k, hk⟩ := hpunctuator
    exact ⟨some k, [], bs, rfl, .punctuator hk⟩
  by_cases hbang : Byte.char b = '!'
  · obtain rfl : b = 0x21 := Byte.eq_of_char hbang
    by_cases hs : Piece.startsWith '=' bs = true
    · obtain ⟨rest, rfl⟩ := (startsWith_iff (c := 0x3D)).1 hs
      exact ⟨some .bangEqual, [0x3D], rest, rfl, .bangEqual⟩
    · exact ⟨some .bang, [], bs, rfl, .bang (Bool.eq_false_iff.2 hs)⟩
  by_cases hequal : Byte.char b = '='
  · obtain rfl : b = 0x3D := Byte.eq_of_char hequal
    by_cases hs : Piece.startsWith '=' bs = true
    · obtain ⟨rest, rfl⟩ := (startsWith_iff (c := 0x3D)).1 hs
      exact ⟨some .equalEqual, [0x3D], rest, rfl, .equalEqual⟩
    · exact ⟨some .equal, [], bs, rfl, .equal (Bool.eq_false_iff.2 hs)⟩
  by_cases hslash : Byte.char b = '/'
  · obtain rfl : b = 0x2F := Byte.eq_of_char hslash
    by_cases hs : Piece.startsWith '/' bs = true
    · obtain ⟨more, rfl⟩ := (startsWith_iff (c := 0x2F)).1 hs
      obtain ⟨cs, rest, rfl, hcs, hr⟩ := exists_run Byte.inLine more
      exact ⟨none, 0x2F :: cs, rest, rfl, .comment (fun h => bne_iff_ne.1 (hcs _ h) rfl) hr⟩
    · exact ⟨some .slash, [], bs, rfl, .slash (Bool.eq_false_iff.2 hs)⟩
  by_cases hquote : Byte.char b = '"'
  · obtain rfl : b = 0x22 := Byte.eq_of_char hquote
    obtain ⟨cs, rest, rfl, hcs, hr⟩ := exists_run Byte.inQuotes bs
    have hin : 0x22 ∉ cs := fun h => Byte.inQuotes_iff.1 (hcs _ h) rfl
    cases rest with
    | nil => exact ⟨some .illegal, cs, [], rfl, .unclosed hin⟩
    | cons x rest =>
      have hx : ¬ x ≠ 0x22 := fun h => Bool.eq_false_iff.1 (hr x rfl) (Byte.inQuotes_iff.2 h)
      obtain rfl : x = 0x22 := Decidable.not_not.1 hx
      exact ⟨some .string, cs ++ [0x22], rest, List.append_cons .., .string hin⟩
  by_cases hdigit : Byte.isDigit b = true
  · obtain ⟨cs, rest, rfl, hcs, hr⟩ := exists_run Byte.isDigit bs
    exact ⟨some .integer, cs, rest, rfl, .integer hdigit hcs hr⟩
  by_cases hword : Byte.isWordStart b = true
  · obtain ⟨cs, rest, rfl, hcs, hr⟩ := exists_run Byte.isWordPart bs
    have hk := Token.Kind.eq_ofWord_iff.1 (rfl : _ = Token.Kind.ofWord (decodeLossy (b :: cs)))
    exact ⟨some _, cs, rest, rfl, .word hk (encode_word hword hcs) hword hcs hr⟩
  · obtain ⟨cs, rest, rfl, hcs, hr⟩ := exists_run Byte.isContinuation bs
    refine ⟨some .illegal, cs, rest, rfl, .stray ?_ hcs hr⟩
    constructor
    · exact Bool.eq_false_iff.2 hlayout
    · exact fun k hk => hpunctuator ⟨k, hk⟩
    · exact ⟨hbang, hequal, hslash, hquote⟩
    · exact Bool.eq_false_iff.2 hdigit
    · exact Bool.eq_false_iff.2 hword

/-! ### What the scanner takes off the front -/

namespace Piece

theorem munch_quote (bs : List UInt8) :
    munch 0x22 bs =
      if (bs.takeWhile Byte.inQuotes).length < bs.length then
        (some .string, (bs.takeWhile Byte.inQuotes).length + 1)
      else (some .illegal, (bs.takeWhile Byte.inQuotes).length) :=
  rfl

/-- A lexeme is what the scanner takes off the front. -/
theorem munch_of_lexeme {k : Token.Kind} {b : UInt8} {bs rest : List UInt8}
    (h : Lexeme k (b :: bs) rest) : munch b (bs ++ rest) = (some k, bs.length) := by
  cases h with
  | punctuator hk =>
    obtain ⟨hl, -⟩ := Byte.punctuator_class _ hk.ofPunctuator?_ne_none
    have hk := Token.Kind.ofPunctuator?_eq_some_iff.2 hk
    simp only [munch, hl, hk, if_false, Bool.false_eq_true]
    rfl
  | slash hr =>
    have hm : munch 0x2F rest = if startsWith '/' rest then
        (none, (rest.takeWhile Byte.inLine).length) else (some .slash, 0) := rfl
    rwa [hr, if_neg Bool.false_ne_true] at hm
  | bang hr =>
    have hm : munch 0x21 rest =
        if startsWith '=' rest then (some .bangEqual, 1) else (some .bang, 0) := rfl
    rwa [hr, if_neg Bool.false_ne_true] at hm
  | bangEqual => rfl
  | equal hr =>
    have hm : munch 0x3D rest =
        if startsWith '=' rest then (some .equalEqual, 1) else (some .equal, 0) := rfl
    rwa [hr, if_neg Bool.false_ne_true] at hm
  | equalEqual => rfl
  | integer hb hbs hr =>
    obtain ⟨h₁, h₂, h₃, h₄, h₅, h₆⟩ := Byte.digit_class b hb
    simp only [munch, h₁, h₂, h₃, h₄, h₅, h₆, hb, takeWhile_append_of_ends hbs hr, if_true,
      if_false, Bool.false_eq_true]
  | @word _ s _ _ _ hk hs hb hbs hr =>
    obtain rfl := Token.Kind.eq_ofWord_iff.2 hk
    obtain ⟨h₁, h₂, h₃, h₄, h₅, h₆, h₇⟩ := Byte.wordStart_class b hb
    have hd : decodeLossy (b :: bs) = s := by rw [← hs, decodeLossy_encode]
    simp only [munch, h₁, h₂, h₃, h₄, h₅, h₆, h₇, hb, takeWhile_append_of_ends hbs hr, hd, if_true,
      if_false, Bool.false_eq_true]
  | @string bs _ hbs =>
    have ht : (bs ++ 0x22 :: rest).takeWhile Byte.inQuotes = bs := by
      apply takeWhile_append_of_ends
      · intro x hx
        exact Byte.inQuotes_iff.2 fun he => hbs (he ▸ hx)
      · rintro x hx
        cases hx
        rfl
    have hlt : bs.length < (bs ++ 0x22 :: rest).length := by
      rw [List.length_append]
      exact Nat.lt_add_of_pos_right (Nat.zero_lt_succ _)
    rw [List.append_assoc, List.singleton_append, munch_quote, ht, if_pos hlt,
      List.length_append]
    rfl
  | unclosed hbs =>
    have ht : (bs ++ []).takeWhile Byte.inQuotes = bs := by
      apply takeWhile_append_of_ends
      · intro x hx
        exact Byte.inQuotes_iff.2 fun he => hbs (he ▸ hx)
      · intro x hx
        cases hx
    rw [munch_quote, ht, List.append_nil, if_neg (Nat.lt_irrefl _)]
  | stray hb hbs hr =>
    obtain ⟨h₃, h₄, h₅, h₆⟩ := hb.other
    have hp := Token.Kind.ofPunctuator?_eq_none_iff.2 hb.punctuator
    simp only [munch, hb.layout, hp, h₃, h₄, h₅, h₆, hb.digit, hb.word,
      takeWhile_append_of_ends hbs hr, if_false, Bool.false_eq_true]

theorem munch_of_blank {b : UInt8} {bs rest : List UInt8} (h : Blank (b :: bs) rest) :
    munch b (bs ++ rest) = (none, bs.length) := by
  cases h with
  | layout hb =>
    simp only [munch, hb, if_true]
    rfl
  | @comment bs _ hbs hr =>
    have ht : (0x2F :: bs ++ rest).takeWhile Byte.inLine = 0x2F :: bs := by
      refine takeWhile_append_of_ends (fun x hx => bne_iff_ne.2 ?_) hr
      rcases List.mem_cons.1 hx with rfl | hx
      · decide
      · exact fun he => hbs (he ▸ hx)
    have hm : munch 0x2F (0x2F :: bs ++ rest) =
      (none, ((0x2F :: bs ++ rest).takeWhile Byte.inLine).length) := rfl
    rw [hm, ht]

theorem munch_of_correct {kind : Option Token.Kind} {b : UInt8} {bs rest : List UInt8}
    (h : Correct kind (b :: bs) rest) : munch b (bs ++ rest) = (kind, bs.length) := by
  cases kind with
  | none => exact munch_of_blank h
  | some k => exact munch_of_lexeme h

theorem cut_of_correct (kind : Option Token.Kind) {p rest : List UInt8} (h : Correct kind p rest)
    (hp : p ≠ []) : cut (p ++ rest) = ⟨kind, p⟩ :: cut rest := by
  obtain ⟨b, bs, rfl⟩ := List.exists_cons_of_ne_nil hp
  rw [List.cons_append, cut, munch_of_correct h]
  simp only [List.take_left, List.drop_left]

theorem correct_munch (b : UInt8) (bs : List UInt8) :
    Correct (munch b bs).1 (b :: bs.take (munch b bs).2) (bs.drop (munch b bs).2) := by
  obtain ⟨kind, cs, rest, rfl, hc⟩ := exists_correct b bs
  rw [munch_of_correct hc, List.take_left, List.drop_left]
  exact hc

theorem exists_correct_of_mem_cut {bs : List UInt8} {p : Piece} (h : p ∈ cut bs) :
    ∃ rest, Correct p.kind p.text rest := by
  fun_induction cut bs with
  | case1 => cases h
  | case2 b bs kind n hm ih =>
    rcases List.mem_cons.1 h with rfl | h
    · have hc := correct_munch b bs
      rw [hm] at hc
      exact ⟨_, hc⟩
    · exact ih h

theorem exists_lexeme {bs : List UInt8} {p : Piece} {k : Token.Kind} (h : p ∈ cut bs)
    (hk : p.kind = some k) : ∃ rest, Lexeme k p.text rest := by
  obtain ⟨rest, hc⟩ := exists_correct_of_mem_cut h
  rw [hk] at hc
  exact ⟨rest, hc⟩

/-! ### Gaps and lexemes in turn -/

theorem cut_of_gap {g rest : List UInt8} (h : Gap g rest) :
    ∃ ps : List Piece, (∀ p ∈ ps, p.kind = none) ∧ ps.flatMap text = g ∧
      cut (g ++ rest) = ps ++ cut rest := by
  induction h with
  | nil => exact ⟨[], fun p hp => absurd hp List.not_mem_nil, rfl, rfl⟩
  | @cons p g rest hp hg ih =>
    obtain ⟨ps, hps, htext, hcut⟩ := ih
    refine ⟨⟨none, p⟩ :: ps, List.forall_mem_cons.2 ⟨rfl, hps⟩, ?_, ?_⟩
    · rw [List.flatMap_cons, htext]
    · rw [List.append_assoc, cut_of_correct none hp hp.ne_nil, hcut, List.cons_append]

end Piece

namespace Factor

/-- Bytes in front of all factors. -/
def prepend (g : List UInt8) : List Factor × List UInt8 → List Factor × List UInt8
  | ([], last) => ([], g ++ last)
  | (f :: fs, last) => ({ f with gap := g ++ f.gap } :: fs, last)

/-- The factors of a list of pieces, and the last gap. -/
def ofPieces : List Piece → List Factor × List UInt8
  | [] => ([], [])
  | p :: ps =>
    match p.kind with
    | none => prepend p.text (ofPieces ps)
    | some k => (⟨[], k, p.text⟩ :: (ofPieces ps).1, (ofPieces ps).2)

theorem nil_prepend (x : List Factor × List UInt8) : prepend [] x = x := by
  obtain ⟨_ | ⟨f, fs⟩, last⟩ := x <;> rfl

theorem prepend_prepend (g h : List UInt8) (x : List Factor × List UInt8) :
    prepend g (prepend h x) = prepend (g ++ h) x := by
  obtain ⟨_ | ⟨f, fs⟩, last⟩ := x
  · rw [prepend, prepend, prepend, List.append_assoc]
  · rw [prepend, prepend, prepend, List.append_assoc]

theorem ofPieces_append {ps : List Piece} (h : ∀ p ∈ ps, p.kind = none) (qs : List Piece) :
    ofPieces (ps ++ qs) = prepend (ps.flatMap Piece.text) (ofPieces qs) := by
  induction ps with
  | nil => exact (nil_prepend _).symm
  | cons p ps ih =>
    obtain ⟨hp, hps⟩ := List.forall_mem_cons.1 h
    rw [List.cons_append, ofPieces, hp, List.flatMap_cons, ih hps]
    exact prepend_prepend _ _ _

/-- Factors of the bytes are those of the pieces that the scanner cuts them into. -/
theorem ofPieces_cut {bs last : List UInt8} {fs : List Factor} (h : Factors bs fs last) :
    ofPieces (Piece.cut bs) = (fs, last) := by
  induction h with
  | @last gap hg =>
    obtain ⟨ps, hps, htext, hcut⟩ := Piece.cut_of_gap hg
    have hnil : Piece.cut [] = [] := by rw [Piece.cut]
    rw [List.append_nil, hnil] at hcut
    rw [hcut, ofPieces_append hps, htext, ofPieces, prepend, List.append_nil]
  | @cons gap k lexeme rest fs last hg hl _ ih =>
    obtain ⟨ps, hps, htext, hcut⟩ := Piece.cut_of_gap hg
    rw [hcut, Piece.cut_of_correct (some k) hl hl.ne_nil, ofPieces_append hps, htext,
      ofPieces, ih, prepend, List.append_nil]

theorem exists_prepend {p rest last : List UInt8} {fs : List Factor} (hp : Blank p rest)
    (h : Factors rest fs last) : ∃ fs' last', Factors (p ++ rest) fs' last' := by
  cases h with
  | last hg =>
    have hb : Blank p (rest ++ []) := (List.append_nil rest).symm ▸ hp
    exact ⟨[], p ++ rest, .last (.cons hb hg)⟩
  | @cons gap k lexeme rest fs last hg hl h =>
    refine ⟨⟨p ++ gap, k, lexeme⟩ :: fs, last, ?_⟩
    rw [← List.append_assoc]
    exact .cons (.cons hp hg) hl h

/-- Every list of bytes has factors. -/
theorem exists_factors (bs : List UInt8) : ∃ fs last, Factors bs fs last := by
  cases bs with
  | nil => exact ⟨[], [], .last .nil⟩
  | cons b bs =>
    obtain ⟨kind, cs, rest, rfl, hc⟩ := exists_correct b bs
    obtain ⟨fs, last, h⟩ := exists_factors rest
    cases kind with
    | none => exact exists_prepend hc h
    | some k => exact ⟨⟨[], k, b :: cs⟩ :: fs, last, .cons .nil hc h⟩
termination_by bs.length

/-- **The bytes are gaps and lexemes in turn in one way**: that of the scanner. -/
theorem factors_iff {bs last : List UInt8} {fs : List Factor} :
    Factors bs fs last ↔ ofPieces (Piece.cut bs) = (fs, last) := by
  constructor
  · exact ofPieces_cut
  · intro h
    obtain ⟨fs', last', h'⟩ := exists_factors bs
    rw [ofPieces_cut h'] at h
    cases h
    exact h'

/-- The kind and the text of the token that a factor makes. -/
def spelling (f : Factor) : Token.Kind × String :=
  (f.kind, decodeLossy (Piece.content f.kind f.lexeme))

theorem map_spelling_prepend (g : List UInt8) (x : List Factor × List UInt8) :
    (prepend g x).1.map spelling = x.1.map spelling := by
  obtain ⟨_ | ⟨f, fs⟩, last⟩ := x <;> rfl

end Factor

namespace Token

/-! ### Tokens -/

/-- The kind and the text of a token. -/
def spelling (t : Token) : Kind × String :=
  (t.kind, t.literal)

/-- The tokens of a list of pieces are those of its factors. -/
theorem spellings_ofPieces (line : Nat) (ps : List Piece) :
    ∃ ts line', ofPieces line ps = ts ++ [⟨.endOfInput, "", line'⟩] ∧
      ts.map spelling = (Factor.ofPieces ps).1.map Factor.spelling := by
  induction ps generalizing line with
  | nil => exact ⟨[], line, rfl, rfl⟩
  | cons p ps ih =>
    obtain ⟨ts, line', hts, hs⟩ := ih (line + p.lineFeeds)
    obtain ⟨_ | k, text⟩ := p
    · refine ⟨ts, line', hts, ?_⟩
      rw [hs, Factor.ofPieces]
      exact (Factor.map_spelling_prepend _ _).symm
    · refine ⟨_ :: ts, line', congrArg (List.cons _) hts, ?_⟩
      rw [List.map_cons, hs]
      rfl

/-- The tokens of bytes that start on a given line. -/
def scanFrom (line : Nat) (bs : List UInt8) : List Token :=
  ofPieces line (Piece.cut bs)

theorem scanFrom_nil (line : Nat) : scanFrom line [] = [⟨.endOfInput, "", line⟩] := by
  rw [scanFrom, Piece.cut, ofPieces]

theorem scanFrom_of_lexeme {k : Token.Kind} {p rest : List UInt8} (h : Lexeme k p rest)
    (line : Nat) : scanFrom line (p ++ rest) =
      ⟨k, decodeLossy (Piece.content k p), line⟩ ::
        scanFrom (line + p.count Byte.lineFeed) rest := by
  rw [scanFrom, Piece.cut_of_correct (some k) h h.ne_nil, ofPieces]
  rfl

theorem scanFrom_of_blank {p rest : List UInt8} (h : Blank p rest) (line : Nat) :
    scanFrom line (p ++ rest) = scanFrom (line + p.count Byte.lineFeed) rest := by
  rw [scanFrom, Piece.cut_of_correct none h h.ne_nil, ofPieces]
  rfl

end Token

end Monkey
