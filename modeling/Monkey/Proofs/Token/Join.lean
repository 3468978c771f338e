import Monkey.Proofs.Token.Scan

/-!
  Monkey/Proofs/Token/Join.lean
  =============================
  **Scanning two sources with a line feed between them.**

  A line feed ends whatever lexeme or comment stands in front of it, with the one
  exception of a string.  So a source that does not end inside a string is cut into
  the same pieces if a line feed and more follow (`Piece.cut_join`).  The tokens of
  the two sources then stand one behind the other, those of the second further
  down by the number of lines in front of them (`scan_join`).
-/
namespace Monkey

open Text Utf8

/-- The token, a number of lines further down. -/
def Token.moveDown (lines : Nat) (t : Token) : Token :=
  { t with line := t.line + lines }

/-- The token without its line. -/
def Token.lineless (t : Token) : Token :=
  { t with line := 0 }

/-! ### Strings that nothing ends -/

/-- The piece is a string that nothing ends. -/
def Piece.Unclosed (p : Piece) : Prop :=
  p.kind = some .illegal ∧ p.text.head? = some 0x22

/-- The token is that of a string that nothing ends.  Other illegal tokens do not start with
    a double quote. -/
def Token.Unclosed (t : Token) : Prop :=
  t.kind = .illegal ∧ t.literal.toList.head? = some '"'

instance : DecidablePred Token.Unclosed :=
  fun _ => inferInstanceAs (Decidable (_ ∧ _))

theorem Token.unclosed_iff {k : Token.Kind} {text : List UInt8} {line : Nat} :
    (Token.mk k (decodeLossy (Piece.content k text)) line).Unclosed ↔
      (Piece.mk (some k) text).Unclosed := by
  refine Iff.trans (and_congr_right fun hk => ?_) (and_congr_left' Option.some_inj.symm)
  obtain rfl : k = .illegal := hk
  exact head?_decodeLossy_quote

namespace Piece

/-! ### Pieces in front of a line feed -/

theorem separated_join (rest more : List UInt8) :
    Separated rest (rest ++ Byte.lineFeed :: more) := by
  cases rest with
  | nil =>
    rintro b ⟨⟩
    exact .inl rfl
  | cons b bs => exact fun x hx => .inr hx

theorem correct_join {kind : Option Token.Kind} {p rest : List UInt8} (h : Correct kind p rest)
    (hp : ¬ Unclosed ⟨kind, p⟩) (more : List UInt8) :
    Correct kind p (rest ++ Byte.lineFeed :: more) := by
  cases kind with
  | none =>
    cases h with
    | layout hb => exact .layout hb
    | comment hbs hr =>
      refine .comment hbs fun b hb => ?_
      cases rest with
      | nil =>
        cases hb
        rfl
      | cons x rest => exact hr b hb
  | some k =>
    refine Lexeme.separated h (separated_join rest more) fun hk hl => ?_
    exact absurd ⟨congrArg some hk, hl⟩ hp

/-- Only the last piece can be a string that nothing ends. -/
theorem not_unclosed_of_correct {kind : Option Token.Kind} {p rest : List UInt8}
    (h : Correct kind p rest) (hr : rest ≠ []) : ¬ Unclosed ⟨kind, p⟩ := by
  rintro ⟨rfl, hl⟩
  exact hr (Lexeme.eq_nil_of_unclosed h hl)

theorem cut_join {bs : List UInt8} (h : ∀ p ∈ (cut bs).getLast?, ¬ p.Unclosed)
    (rest : List UInt8) :
    cut (bs ++ Byte.lineFeed :: rest) = cut bs ++ cut (Byte.lineFeed :: rest) := by
  fun_induction cut bs with
  | case1 => rfl
  | case2 b bs kind n hm ih =>
    have hc := correct_munch b bs
    rw [hm] at hc
    have hp : ¬ Unclosed ⟨kind, b :: bs.take n⟩ := by
      by_cases hd : bs.drop n = []
      · -- the piece is the last one
        have hnil : cut (bs.drop n) = [] := by rw [hd, cut]
        rw [hnil] at h
        exact h _ rfl
      · exact not_unclosed_of_correct hc hd
    have hj := cut_of_correct kind (correct_join hc hp rest) (List.cons_ne_nil _ _)
    rw [← List.append_assoc, List.cons_append, List.take_append_drop] at hj
    rw [hj, ih, List.cons_append]
    intro p hp
    refine h p ?_
    rw [List.getLast?_cons, Option.mem_def.1 hp]
    rfl

end Piece

namespace Token

/-! ### Tokens -/

theorem ofPieces_append (line : Nat) (ps : List Piece) :
    ∃ ts line', (∀ t ∈ ts, ∃ p ∈ ps, p.kind = some t.kind) ∧
      ∀ qs, ofPieces line (ps ++ qs) = ts ++ ofPieces line' qs := by
  induction ps generalizing line with
  | nil => exact ⟨[], line, fun t ht => absurd ht List.not_mem_nil, fun qs => rfl⟩
  | cons p ps ih =>
    obtain ⟨ts, line', hts, h⟩ := ih (line + p.lineFeeds)
    have hts' (t : Token) (ht : t ∈ ts) : ∃ q ∈ p :: ps, q.kind = some t.kind := by
      obtain ⟨q, hq, hk⟩ := hts t ht
      exact ⟨q, List.mem_cons_of_mem p hq, hk⟩
    obtain ⟨kind, text⟩ := p
    cases kind with
    | none => exact ⟨ts, line', hts', h⟩
    | some k =>
      refine ⟨⟨k, decodeLossy (Piece.content k text), line⟩ :: ts, line', ?_, fun qs => ?_⟩
      · intro t ht
        rcases List.mem_cons.1 ht with rfl | ht
        · exact ⟨_, List.mem_cons_self, rfl⟩
        · exact hts' t ht
      · rw [List.cons_append, ofPieces]
        exact congrArg (List.cons _) (h qs)

theorem ofPieces_add (line lines : Nat) (ps : List Piece) :
    ofPieces (line + lines) ps = (ofPieces line ps).map (moveDown lines) := by
  induction ps generalizing line with
  | nil => rfl
  | cons p ps ih =>
    obtain ⟨kind, text⟩ := p
    have hl (n : Nat) : line + lines + n = line + n + lines := Nat.add_right_comm ..
    cases kind with
    | none =>
      simp only [ofPieces, hl]
      exact ih _
    | some k =>
      simp only [ofPieces, hl, List.map_cons, ih]
      rfl

theorem kind_ne_of_mem_cut {bs : List UInt8} {p : Piece} (h : p ∈ Piece.cut bs) :
    p.kind ≠ some .endOfInput := by
  intro hk
  obtain ⟨rest, hl⟩ := Piece.exists_lexeme h hk
  exact hl.kind_ne rfl

/-- A scan ends with the one token for the end of the input. -/
theorem scan_eq (source : List UInt8) :
    ∃ ts line, scan source = ts ++ [⟨.endOfInput, "", line⟩] ∧ ∀ t ∈ ts, t.kind ≠ .endOfInput := by
  obtain ⟨ts, line, hts, h⟩ := ofPieces_append 1 (Piece.cut source)
  have hs := h []
  rw [List.append_nil] at hs
  refine ⟨ts, line, hs, fun t ht he => ?_⟩
  obtain ⟨p, hp, hk⟩ := hts t ht
  exact kind_ne_of_mem_cut hp (he ▸ hk)

theorem scan_lineFeed (line : Nat) (source : List UInt8) :
    ofPieces line (Piece.cut (Byte.lineFeed :: source)) =
      ofPieces (line + 1) (Piece.cut source) :=
  scanFrom_of_blank (.layout (b := Byte.lineFeed) rfl) line

/-- The tokens of two sources with a line feed between them, where the first one does
    not end inside a string. -/
theorem scan_join {source₁ : List UInt8} {ts : List Token} {line : Nat}
    (h : scan source₁ = ts ++ [⟨.endOfInput, "", line⟩])
    (hlast : ∀ t ∈ ts.getLast?, ¬ t.Unclosed) (source₂ : List UInt8) :
    scan (source₁ ++ Byte.lineFeed :: source₂) = ts ++ (scan source₂).map (moveDown line) := by
  have hcut : ∀ p ∈ (Piece.cut source₁).getLast?, ¬ p.Unclosed := by
    intro p hp hu
    obtain ⟨ps, hps⟩ := List.getLast?_eq_some_iff.1 hp
    obtain ⟨us, line', -, hus⟩ := ofPieces_append 1 ps
    obtain ⟨kind, text⟩ := p
    obtain rfl : kind = some .illegal := hu.1
    have hq : ts ++ [⟨.endOfInput, "", line⟩] =
        us ++ [⟨.illegal, decodeLossy (Piece.content .illegal text), line'⟩] ++
          ofPieces (line' + text.count Byte.lineFeed) [] := by
      rw [← h, scan, hps, hus, List.append_assoc]
      rfl
    obtain ⟨rfl, -⟩ := List.append_inj' hq rfl
    exact hlast _ List.getLast?_concat (unclosed_iff.2 hu)
  obtain ⟨us, line', -, hus⟩ := ofPieces_append 1 (Piece.cut source₁)
  have hnil := hus []
  rw [List.append_nil, ← scan, h] at hnil
  obtain ⟨rfl, hline⟩ := List.append_inj' hnil rfl
  cases hline
  rw [scan, Piece.cut_join hcut, hus, scan_lineFeed, scan, Nat.add_comm, ofPieces_add]

end Token

end Monkey
