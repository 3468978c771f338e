import Monkey.Proofs.Token.Cursor

/-!
  Monkey/Proofs/Token/Lines.lean
  ==============================
  **The lines of tokens.**

  Whatever stands in front of a lexeme, be it layout, comments or strings of several
  lines, its line feeds are counted once each: the line of a token is one more than the
  number of the line feeds in front of its lexeme, and that of the end of the input is
  one more than the number of all (`scan_lines`).

  So the line at which one source ends is known, and what follows it on a line of its
  own stands that much further down (`scan_append_lineFeed`).
-/
namespace Monkey

open Text Utf8

/-! ### The tokens of factors -/

namespace Factor

/-- The bytes of a factor. -/
def bytes (f : Factor) : List UInt8 :=
  f.gap ++ f.lexeme

/-- The token that a factor makes behind some bytes. -/
def token (before : List UInt8) (f : Factor) : Token :=
  { kind := f.kind
    literal := decodeLossy (Piece.content f.kind f.lexeme)
    line := 1 + (before ++ f.gap).count Byte.lineFeed }

/-- The tokens that factors make behind some bytes, and the end of the input. -/
def tokens (before last : List UInt8) : List Factor → List Token
  | [] => [⟨.endOfInput, "", 1 + (before ++ last).count Byte.lineFeed⟩]
  | f :: fs => f.token before :: tokens (before ++ f.bytes) last fs

theorem length_tokens (before last : List UInt8) (fs : List Factor) :
    (tokens before last fs).length = fs.length + 1 := by
  induction fs generalizing before with
  | nil => rfl
  | cons f fs ih => rw [tokens, List.length_cons, ih, List.length_cons]

/-- A token stands where its factor does. -/
theorem getElem?_tokens (before last : List UInt8) (fs₁ : List Factor) (f : Factor)
    (fs₂ : List Factor) :
    (tokens before last (fs₁ ++ f :: fs₂))[fs₁.length]? =
      some (f.token (before ++ fs₁.flatMap bytes)) := by
  induction fs₁ generalizing before with
  | nil => rw [List.flatMap_nil, List.append_nil]; rfl
  | cons f' fs₁ ih =>
    rw [List.cons_append, tokens, List.length_cons, List.getElem?_cons_succ, ih,
      List.flatMap_cons, List.append_assoc]

/-- The end of the input stands behind all bytes. -/
theorem getLast?_tokens (before last : List UInt8) (fs : List Factor) :
    (tokens before last fs).getLast? =
      some ⟨.endOfInput, "", 1 + (before ++ (fs.flatMap bytes ++ last)).count Byte.lineFeed⟩ := by
  induction fs generalizing before with
  | nil => rfl
  | cons f fs ih =>
    rw [tokens, List.getLast?_cons, ih, List.flatMap_cons, List.append_assoc, List.append_assoc]
    rfl

theorem map_spelling_tokens (before last : List UInt8) (fs : List Factor) :
    (tokens before last fs).map Token.spelling =
      fs.map spelling ++ [(.endOfInput, "")] := by
  induction fs generalizing before with
  | nil => rfl
  | cons f fs ih => rw [tokens, List.map_cons, ih]; rfl

end Factor

namespace Token

theorem scanFrom_of_gap {g rest : List UInt8} (h : Gap g rest) (line : Nat) :
    scanFrom line (g ++ rest) = scanFrom (line + g.count Byte.lineFeed) rest := by
  induction h generalizing line with
  | nil => rfl
  | @cons p g rest hp hg ih =>
    rw [List.append_assoc, scanFrom_of_blank hp, ih, List.count_append, Nat.add_assoc]

/-- Behind some bytes the scanner yields the tokens of the factors. -/
theorem scanFrom_of_factors {bs last : List UInt8} {fs : List Factor} (h : Factors bs fs last)
    (before : List UInt8) :
    scanFrom (1 + before.count Byte.lineFeed) bs = Factor.tokens before last fs := by
  induction h generalizing before with
  | @last gap hg =>
    have hs := scanFrom_of_gap hg (1 + before.count Byte.lineFeed)
    rw [List.append_nil, scanFrom_nil] at hs
    rw [hs, Factor.tokens, List.count_append, Nat.add_assoc]
  | @cons gap k lexeme rest fs last hg hl _ ih =>
    have hadd (xs ys : List UInt8) : 1 + xs.count Byte.lineFeed + ys.count Byte.lineFeed =
        1 + (xs ++ ys).count Byte.lineFeed := by
      rw [List.count_append, Nat.add_assoc]
    rw [scanFrom_of_gap hg, scanFrom_of_lexeme hl, hadd, hadd, List.append_assoc, ih]
    rfl

theorem scan_of_factors {bs last : List UInt8} {fs : List Factor} (h : Factors bs fs last) :
    scan bs = Factor.tokens [] last fs :=
  scanFrom_of_factors h []

/-! ### Lines -/

/-- The end of the input is one line further down for each line feed. -/
theorem getLast?_scan (source : List UInt8) : (scan source).getLast? =
    some { kind := .endOfInput, literal := "", line := 1 + source.count Byte.lineFeed } := by
  obtain ⟨fs, last, h⟩ := Factor.exists_factors source
  have hbytes : fs.flatMap Factor.bytes ++ last = source := h.flatMap_text
  rw [scan_of_factors h, Factor.getLast?_tokens, hbytes, List.nil_append]

/-- **The lines of tokens are exact.**  A token has the line of the first byte of its lexeme:
    one more than the number of the line feeds in front.  That of a string is the line of its
    first quote, however many lines the string goes over.  The end of the input has one more than the
    number of all line feeds.  The scanner yields these tokens one by one. -/
theorem scan_lines (source : List UInt8) :
    ∃ fs last, Factors source fs last ∧ (scan source).length = fs.length + 1 ∧
      (∀ fs₁ f fs₂, fs = fs₁ ++ f :: fs₂ → ∃ before behind,
        before = fs₁.flatMap Factor.bytes ++ f.gap ∧ source = before ++ (f.lexeme ++ behind) ∧
        (scan source)[fs₁.length]? = some
          { kind := f.kind
            literal := decodeLossy (Piece.content f.kind f.lexeme)
            line := 1 + before.count Byte.lineFeed }) ∧
      (scan source).getLast? =
        some { kind := .endOfInput, literal := "", line := 1 + source.count Byte.lineFeed } ∧
      ∀ n, (Cursor.ofSource source).calls n =
        some ((List.range n).map fun i => (scan source)[i]?) := by
  obtain ⟨fs, last, h⟩ := Factor.exists_factors source
  have hbytes : fs.flatMap Factor.bytes ++ last = source := h.flatMap_text
  refine ⟨fs, last, h, ?_, ?_, getLast?_scan source, fun n => ?_⟩
  · rw [scan_of_factors h, Factor.length_tokens]
  · rintro fs₁ f fs₂ rfl
    refine ⟨_, fs₂.flatMap Factor.bytes ++ last, rfl, ?_, ?_⟩
    · rw [← hbytes, List.flatMap_append, List.flatMap_cons, Factor.bytes]
      simp only [List.append_assoc]
    · rw [scan_of_factors h, Factor.getElem?_tokens]
      rfl
  · rw [Cursor.calls_eq, Cursor.tokens_ofSource]

/-- Lines do not go down. -/
theorem le_line_of_mem_ofPieces {line : Nat} {ps : List Piece} {t : Token}
    (h : t ∈ ofPieces line ps) : line ≤ t.line := by
  induction ps generalizing line with
  | nil => exact Nat.le_of_eq (congrArg Token.line (List.mem_singleton.1 h)).symm
  | cons p ps ih =>
    have hmore (ht : t ∈ ofPieces (line + p.lineFeeds) ps) : line ≤ t.line :=
      Nat.le_trans (Nat.le_add_right _ _) (ih ht)
    rw [ofPieces] at h
    split at h
    · exact hmore h
    · rcases List.mem_cons.1 h with rfl | h
      · exact Nat.le_refl _
      · exact hmore h

theorem sorted_ofPieces (line : Nat) (ps : List Piece) :
    (ofPieces line ps).Pairwise fun t u => t.line ≤ u.line := by
  induction ps generalizing line with
  | nil => exact List.pairwise_singleton _ _
  | cons p ps ih =>
    rw [ofPieces]
    split
    · exact ih _
    · refine List.pairwise_cons.2 ⟨fun t ht => ?_, ih _⟩
      exact Nat.le_trans (Nat.le_add_right _ _) (le_line_of_mem_ofPieces ht)

/-! ### What follows on a line of its own -/

/-- **Scanning goes on behind a line feed as from the start.**  Where a source does not end
    inside a string, a line feed and another source behind it add the tokens of the other
    one, each further down by the number of the lines in front. -/
theorem scan_append_lineFeed {source₁ : List UInt8} (h : ∀ t ∈ scan source₁, ¬ t.Unclosed)
    (source₂ : List UInt8) :
    scan (source₁ ++ Byte.lineFeed :: source₂) =
      (scan source₁).dropLast ++
        (scan source₂).map (moveDown (1 + source₁.count Byte.lineFeed)) := by
  obtain ⟨ts, line, hts, -⟩ := scan_eq source₁
  have hend := getLast?_scan source₁
  rw [hts, List.getLast?_concat] at hend
  obtain rfl : line = 1 + source₁.count Byte.lineFeed :=
    congrArg Token.line (Option.some.inj hend)
  have hlast : ∀ t ∈ ts.getLast?, ¬ t.Unclosed := by
    intro t ht
    refine h t ?_
    rw [hts]
    exact List.mem_append_left _ (List.mem_of_getLast? ht)
  rw [scan_join hts hlast, hts, List.dropLast_concat]

/-- A string of two lines, and the first byte of a character that is not there. -/
def brokenSource : List UInt8 :=
  encode "\"a\nb\"" ++ [0xE2]

/-- The broken character is an illegal token, and what follows it stands on line three. -/
theorem scan_append_brokenSource :
    (∀ t ∈ scan brokenSource, ¬ t.Unclosed) ∧
      scan (brokenSource ++ Byte.lineFeed :: encode "!x // y") =
        [⟨.string, "a\nb", 1⟩, ⟨.illegal, "\uFFFD", 2⟩, ⟨.bang, "!", 3⟩, ⟨.identifier, "x", 3⟩,
          ⟨.endOfInput, "", 3⟩] := by
  have h : ∀ t ∈ scan brokenSource, ¬ t.Unclosed := by decide +kernel
  refine ⟨h, ?_⟩
  rw [scan_append_lineFeed h]
  decide +kernel

end Token

end Monkey
