import Monkey.Proofs.Token.Lines

/-!
  Monkey/Proofs/Token/Respelling.lean
  ===================================
  **Tokens determine their text, but for layout.**

  The tokens of a text are written out again one by one, with a blank between each two
  and a string between its quotes (`Token.respell`).  What has been written has the same
  tokens (`spelling_respell`): a blank ends any lexeme but a string without an end, and
  behind such a string there is nothing to write.

  That the bytes are those of a text matters.  The text of a token is written in full
  characters, so its lexeme must not end inside of one (`Lexeme.isText`).
-/
namespace Monkey

open Text Utf8

/-! ### Lexemes of texts -/

theorem Byte.lt_of_alone (b : UInt8) :
    isLayout b = true ∨ Token.Kind.ofPunctuator? (char b) ≠ none → b < 0x80 := by
  revert b
  exact forall_of_lt (by decide +kernel)

theorem Text.Utf8.IsText.split_of_lt {l rest : List UInt8} (h : IsText (l ++ rest))
    (hl : ∀ b ∈ l, b < 0x80) : IsText l ∧ IsText rest := by
  refine ⟨⟨decodeLossy l, encode_decodeLossy hl⟩, ?_⟩
  induction l with
  | nil => exact h
  | cons b l ih =>
    obtain ⟨hb, hl⟩ := List.forall_mem_cons.1 hl
    exact ih (h.tail hb) hl

/-- In the bytes of a text a lexeme ends between two characters, and so does the text of its
    token. -/
theorem Lexeme.isText {k : Token.Kind} {l rest : List UInt8} (h : Lexeme k l rest)
    (ht : IsText (l ++ rest)) : IsText (Piece.content k l) ∧ IsText rest := by
  have hword {b : UInt8} (hb : Byte.isWordPart b = true) : b < 0x80 := (Byte.word_class b hb).1
  cases h with
  | @punctuator _ b _ hk =>
    have hb := Byte.lt_of_alone b (.inr hk.ofPunctuator?_ne_none)
    rw [Piece.content, if_neg hk.kind_ne.2.2.1]
    exact ht.split_of_lt (List.forall_mem_singleton.2 hb)
  | slash | bang | bangEqual | equal | equalEqual => exact ht.split_of_lt (by decide +kernel)
  | integer hb hbs =>
    refine ht.split_of_lt (List.forall_mem_cons.2 ⟨?_, fun x hx => ?_⟩)
    · exact hword (Byte.isWordPart_of_isDigit hb)
    · exact hword (Byte.isWordPart_of_isDigit (hbs x hx))
  | word hk _ hb hbs =>
    rw [Piece.content, if_neg hk.kind_ne.2.1]
    refine ht.split_of_lt (List.forall_mem_cons.2 ⟨?_, fun x hx => hword (hbs x hx)⟩)
    exact hword (Byte.isWordPart_of_isWordStart hb)
  | @string bs _ hbs =>
    rw [Piece.content, if_pos rfl, List.tail_cons, List.dropLast_concat]
    rw [List.cons_append, List.append_assoc] at ht
    exact (ht.tail (by decide)).split_byte (by decide)
  | unclosed =>
    rw [List.append_nil] at ht
    exact ⟨ht, "", rfl⟩
  | stray _ _ hr => exact ht.split hr

theorem Blank.isText {p rest : List UInt8} (h : Blank p rest) (ht : IsText (p ++ rest)) :
    IsText rest := by
  cases h with
  | layout hb => exact ht.tail (Byte.lt_of_alone _ (.inl hb))
  | comment _ hr =>
    refine (ht.split fun b hb => ?_).2
    obtain rfl : b = Byte.lineFeed := bne_eq_false_iff_eq.1 (hr b hb)
    rfl

theorem Gap.isText {g rest : List UInt8} (h : Gap g rest) (ht : IsText (g ++ rest)) :
    IsText rest := by
  induction h with
  | nil => exact ht
  | cons hp _ ih =>
    rw [List.append_assoc] at ht
    exact ih (hp.isText ht)

/-! ### Blanks between lexemes -/

theorem Factors.eq_nil {last : List UInt8} {fs : List Factor} (h : Factors [] fs last) :
    fs = [] := by
  have hf := Factor.ofPieces_cut h
  rw [Piece.cut] at hf
  exact (congrArg Prod.fst hf).symm

/-- The lexemes of factors, each behind a blank, are lexemes still. -/
theorem Factors.spaced {bs last : List UInt8} {fs : List Factor} (h : Factors bs fs last) :
    Factors (fs.flatMap fun f => 0x20 :: f.lexeme)
      (fs.map fun f => { f with gap := [0x20] }) [] := by
  induction h with
  | last => exact .last .nil
  | @cons gap k lexeme rest fs last _ hl h ih =>
    have hs : Separated rest (fs.flatMap fun f => 0x20 :: f.lexeme) := by
      cases fs with
      | nil => exact nofun
      | cons f fs =>
        rintro b ⟨⟩
        exact .inl rfl
    have hu (hk : k = .illegal) (hq : lexeme.head? = some 0x22) :
        fs.flatMap (fun f => 0x20 :: f.lexeme) = [] := by
      subst hk
      obtain rfl := hl.eq_nil_of_unclosed hq
      rw [h.eq_nil]
      rfl
    rw [List.flatMap_cons]
    exact .cons (.cons (.layout rfl) .nil) (hl.separated hs hu) ih

/-! ### Writing tokens -/

namespace Token

/-- How a token is written: a string between double quotes, and any other token as its text. -/
def written (t : Token) : String :=
  if t.kind = .string then "\"" ++ t.literal ++ "\"" else t.literal

/-- The tokens in front of the end of the input, with a blank between each two. -/
def respell (ts : List Token) : String :=
  " ".intercalate ((ts.filter fun t => t.kind ≠ .endOfInput).map written)

/-- A token is written as the lexeme that it comes from. -/
theorem encode_written {k : Kind} {l rest : List UInt8} (h : Lexeme k l rest)
    (ht : IsText (Piece.content k l)) (line : Nat) :
    encode (written ⟨k, decodeLossy (Piece.content k l), line⟩) = l := by
  obtain ⟨s, hs⟩ := ht
  rw [← hs, decodeLossy_encode]
  by_cases hk : k = .string
  · subst hk
    obtain ⟨bs, -, rfl⟩ := h.exists_of_string
    rw [Piece.content, if_pos rfl, List.tail_cons, List.dropLast_concat] at hs
    rw [written, if_pos rfl, encode_append, encode_append, hs]
    rfl
  · rw [Piece.content, if_neg hk] at hs
    rw [written, if_neg hk, hs]

theorem map_written_tokens {bs last : List UInt8} {fs : List Factor} (h : Factors bs fs last)
    (ht : IsText bs) (before : List UInt8) :
    (((Factor.tokens before last fs).filter fun t => t.kind ≠ .endOfInput).map written).map encode =
      fs.map Factor.lexeme := by
  induction h generalizing before with
  | last => rfl
  | @cons gap k lexeme rest fs last hg hl _ ih =>
    obtain ⟨hlexeme, hrest⟩ := hl.isText (hg.isText ht)
    have hk : decide ((Factor.token before ⟨gap, k, lexeme⟩).kind ≠ .endOfInput) = true :=
      decide_eq_true hl.kind_ne
    rw [Factor.tokens, List.filter_cons, if_pos hk, List.map_cons, List.map_cons, ih hrest,
      Factor.token, encode_written hl hlexeme]
    rfl

theorem encode_intercalate {ss : List String} (h : ss ≠ []) :
    0x20 :: encode (" ".intercalate ss) = ss.flatMap fun s => 0x20 :: encode s := by
  induction ss with
  | nil => exact absurd rfl h
  | cons s ss ih =>
    cases ss with
    | nil => rw [String.intercalate_singleton, List.flatMap_cons, List.flatMap_nil, List.append_nil]
    | cons s' ss =>
      rw [String.intercalate_cons_cons, encode_append, encode_append, List.flatMap_cons,
        ← ih (List.cons_ne_nil _ _), List.append_assoc]
      rfl

theorem scan_intercalate (ss : List String) :
    scan (encode (" ".intercalate ss)) = scan (ss.flatMap fun s => 0x20 :: encode s) := by
  by_cases h : ss = []
  · rw [h]
    rfl
  · rw [← encode_intercalate h]
    exact (scanFrom_blank 1 _).symm

/-- **Tokens determine their text, but for layout.**  The tokens of a text, written out
    one by one with a blank between each two, are scanned as tokens of the same kinds with the
    same texts. -/
theorem spelling_respell (s : String) :
    (scan (encode (respell (scan (encode s))))).map spelling = (scan (encode s)).map spelling := by
  obtain ⟨fs, last, h⟩ := Factor.exists_factors (encode s)
  have hscan := scan_of_factors h
  have htext : (((scan (encode s)).filter fun t => t.kind ≠ .endOfInput).map written).map encode =
      fs.map Factor.lexeme := by
    rw [hscan, map_written_tokens h ⟨s, rfl⟩]
  have hbytes : scan (encode (respell (scan (encode s)))) =
      scan (fs.flatMap fun f => 0x20 :: f.lexeme) := by
    rw [respell, scan_intercalate, ← List.flatMap_map encode (fun l => 0x20 :: l), htext,
      List.flatMap_map]
  rw [hbytes, hscan, scan_of_factors h.spaced, Factor.map_spelling_tokens,
    Factor.map_spelling_tokens, List.map_map]
  rfl

example : respell (scan (encode "x=1/ /2// y\n\"a  b\"!\"c // d")) =
    "x = 1 / / 2 \"a  b\" ! \"c // d" := by
  decide +kernel

end Token

end Monkey
