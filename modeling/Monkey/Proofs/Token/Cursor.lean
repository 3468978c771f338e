import Monkey.Proofs.Token.Join

/-!
  Monkey/Proofs/Token/Cursor.lean
  ===============================
  **Scanning by position, one token at a time.**

  A cursor reads the bytes of a source by their numbers, and each call (`next`) looks
  for one more token.  Reading a byte or a part that the source does not have gives
  nothing at all, and such a call has no outcome.

  That does not happen.  In front of a lexeme or a part of a gap the cursor steps behind
  it, by the constructors of the grammar (`scanToken_of_lexeme`, `scanToken_of_blank`).
  So it yields the tokens of the source one by one, and then none for ever after
  (`next_eq`, `calls_eq`).
-/
namespace Monkey

open Text Utf8

/-- A scanner on its way through a source: where the present lexeme starts, how far the
    scanner has got, and the lines of these two places. -/
structure Cursor where
  source : List UInt8
  start : Nat
  position : Nat
  line : Nat
  startLine : Nat

namespace Cursor

/-! ### Reading bytes -/

/-- The scanner in front of a source (`new`). -/
def ofSource (source : List UInt8) : Cursor :=
  { source, start := 0, position := 0, line := 1, startLine := 1 }

/-- Whether no byte is left (`is_at_end`). -/
def atEnd (c : Cursor) : Bool :=
  c.source.length ≤ c.position

/-- The scanner one byte further on. -/
def step (c : Cursor) : Cursor :=
  { c with position := c.position + 1 }

/-- Takes the next byte, which must be there (`advance`). -/
def advance (c : Cursor) : Option (UInt8 × Cursor) :=
  c.source[c.position]?.map fun b => (b, c.step)

theorem lt_of_advance {c c' : Cursor} {b : UInt8} (h : c.advance = some (b, c')) :
    c.position < c.source.length ∧ c' = c.step := by
  obtain ⟨x, hx, he⟩ := Option.map_eq_some_iff.1 h
  obtain ⟨hlt, -⟩ := List.getElem?_eq_some_iff.1 hx
  cases he
  exact ⟨hlt, rfl⟩

/-- The next byte, or zero at the end (`peek`). -/
def peek (c : Cursor) : Option UInt8 :=
  if c.atEnd then some 0 else c.source[c.position]?

/-- Takes the next byte if it is a given one (`match_byte`). -/
def accept (expected : UInt8) (c : Cursor) : Option (Bool × Cursor) :=
  if c.atEnd then some (false, c)
  else do
    let b ← c.peek
    if b = expected then
      let (_, c) ← c.advance
      return (true, c)
    else return (false, c)

/-- The bytes from one number to another, which must be numbers of bytes. -/
def slice (c : Cursor) (first last : Nat) : Option (List UInt8) :=
  if first ≤ last ∧ last ≤ c.source.length then some ((c.source.drop first).take (last - first))
  else none

theorem slice_eq {c : Cursor} {xs bs ys : List UInt8} {first last : Nat}
    (h : c.source = xs ++ (bs ++ ys)) (hf : first = xs.length) (hl : last = xs.length + bs.length) :
    c.slice first last = some bs := by
  have hle : first ≤ last ∧ last ≤ c.source.length := by
    rw [hf, hl, h, List.length_append, List.length_append]
    omega
  rw [slice, if_pos hle, hf, hl, h, List.drop_left, Nat.add_sub_cancel_left, List.take_left]

/-- The scanner a line further down, if the byte is a line feed. -/
def countLine (b : UInt8) (c : Cursor) : Cursor :=
  if b = Byte.lineFeed then { c with line := c.line + 1 } else c

theorem source_countLine (b : UInt8) (c : Cursor) : (c.countLine b).source = c.source := by
  unfold countLine
  split <;> rfl

theorem position_countLine (b : UInt8) (c : Cursor) : (c.countLine b).position = c.position := by
  unfold countLine
  split <;> rfl

/-- Takes the bytes of a class, as the loops of `scan_integer` and `scan_identifier` do. -/
def skipWhile (p : UInt8 → Bool) (c : Cursor) : Option Cursor := do
  let b ← c.peek
  if p b then
    match h : c.advance with
    | none => none
    | some (_, c') =>
      have := lt_of_advance h
      skipWhile p c'
  else some c
termination_by c.source.length - c.position
decreasing_by
  obtain ⟨hlt, rfl⟩ := this
  exact Nat.sub_succ_lt_self _ _ hlt

/-- Takes the bytes up to the next double quote, or up to the end: the loop of
    `scan_string`. -/
def skipQuoted (c : Cursor) : Option Cursor :=
  if c.atEnd then some c
  else do
    let b ← c.peek
    if b = 0x22 then some c
    else
      match h : c.advance with
      | none => none
      | some (b, c') =>
        have := lt_of_advance h
        skipQuoted (c'.countLine b)
termination_by c.source.length - c.position
decreasing_by
  obtain ⟨hlt, rfl⟩ := this
  rw [source_countLine, position_countLine]
  exact Nat.sub_succ_lt_self _ _ hlt

/-- Goes to the next line feed, or to the end. -/
def skipLine (c : Cursor) : Option Cursor := do
  let bs ← c.slice c.position c.source.length
  match bs.findIdx? (· == Byte.lineFeed) with
  | some n => return { c with position := c.position + n }
  | none => return { c with position := c.source.length }

/-! ### Scanning a piece -/

/-- Takes the rest of a piece behind its first byte, by the cases of `scan_token`.  A
    piece has a kind or is part of a gap. -/
def scanBehind (b : UInt8) (c : Cursor) : Option (Option Token.Kind × Cursor) := do
  if Byte.isLayout b then return (none, c.countLine b)
  else if let some k := Token.Kind.ofPunctuator? (Byte.char b) then return (some k, c)
  else if Byte.char b = '!' then
    let (both, c) ← c.accept 0x3D
    return (some (if both then .bangEqual else .bang), c)
  else if Byte.char b = '=' then
    let (both, c) ← c.accept 0x3D
    return (some (if both then .equalEqual else .equal), c)
  else if Byte.char b = '/' then
    let (both, c) ← c.accept 0x2F
    if both then
      let c ← c.skipLine
      return (none, c)
    else return (some .slash, c)
  else if Byte.char b = '"' then
    let c ← c.skipQuoted
    if c.atEnd then return (some .illegal, c)
    else
      let (_, c) ← c.advance
      return (some .string, c)
  else if Byte.isDigit b then
    let c ← c.skipWhile Byte.isDigit
    return (some .integer, c)
  else if Byte.isWordStart b then
    let c ← c.skipWhile Byte.isWordPart
    let bs ← c.slice c.start c.position
    return (some (.ofWord (decodeLossy bs)), c)
  else
    let c ← c.skipWhile Byte.isContinuation
    return (some .illegal, c)

theorem scanBehind_bang (c : Cursor) : c.scanBehind 0x21 = do
    let (both, c) ← c.accept 0x3D
    return (some (if both then .bangEqual else .bang), c) :=
  rfl

theorem scanBehind_equal (c : Cursor) : c.scanBehind 0x3D = do
    let (both, c) ← c.accept 0x3D
    return (some (if both then .equalEqual else .equal), c) :=
  rfl

theorem scanBehind_slash (c : Cursor) : c.scanBehind 0x2F = do
    let (both, c) ← c.accept 0x2F
    if both then
      let c ← c.skipLine
      return (none, c)
    else return (some .slash, c) :=
  rfl

theorem scanBehind_quote (c : Cursor) : c.scanBehind 0x22 = do
    let c ← c.skipQuoted
    if c.atEnd then return (some .illegal, c)
    else
      let (_, c) ← c.advance
      return (some .string, c) :=
  rfl

/-- Takes one piece (`scan_token`). -/
def scanToken (c : Cursor) : Option (Option Token.Kind × Cursor) := do
  let (b, c) ← c.advance
  c.scanBehind b

/-- The text of a token of a given kind (`literal`): that of the lexeme, or what is between
    its quotes. -/
def literal (k : Token.Kind) (c : Cursor) : Option String :=
  let bs :=
    if k = .string then c.slice (c.start + 1) (c.position - 1) else c.slice c.start c.position
  bs.map decodeLossy

/-- The scanner at the start of a piece. -/
def begin (c : Cursor) : Cursor :=
  { c with start := c.position, startLine := c.line }

/-! ### Where the scanner is -/

/-- The scanner has the bytes `done` behind it and `bs` in front. -/
structure At (c : Cursor) (done bs : List UInt8) : Prop where
  source : c.source = done ++ bs
  position : c.position = done.length

/-- The scanner behind some more bytes. -/
def past (c : Cursor) (bs : List UInt8) : Cursor :=
  { c with position := c.position + bs.length, line := c.line + bs.count Byte.lineFeed }

theorem past_past (c : Cursor) (bs cs : List UInt8) : (c.past bs).past cs = c.past (bs ++ cs) := by
  simp only [past, List.length_append, List.count_append, Nat.add_assoc]

theorem past_of_not_mem {bs : List UInt8} (h : Byte.lineFeed ∉ bs) (c : Cursor) :
    c.past bs = { c with position := c.position + bs.length } := by
  rw [past, List.count_eq_zero.2 h]
  rfl

theorem countLine_step (b : UInt8) (c : Cursor) : c.step.countLine b = c.past [b] := by
  by_cases hb : b = Byte.lineFeed
  · rw [countLine, if_pos hb, hb]
    rfl
  · have hn : Byte.lineFeed ∉ [b] := fun h => hb (List.mem_singleton.1 h).symm
    rw [countLine, if_neg hb, past_of_not_mem hn]
    rfl

theorem step_eq_past {b : UInt8} (hb : b ≠ Byte.lineFeed) (c : Cursor) : c.step = c.past [b] := by
  rw [← countLine_step, countLine, if_neg hb]

theorem step_past {b : UInt8} (hb : b ≠ Byte.lineFeed) (c : Cursor) (bs : List UInt8) :
    c.step.past bs = c.past (b :: bs) := by
  rw [step_eq_past hb, past_past, List.singleton_append]

namespace At

variable {c : Cursor} {done bs rest : List UInt8} {b : UInt8}

theorem le (h : At c done bs) : c.position ≤ c.source.length := by
  rw [h.source, h.position, List.length_append]
  exact Nat.le_add_right _ _

theorem past (h : At c done (bs ++ rest)) : At (c.past bs) (done ++ bs) rest where
  source := h.source.trans (List.append_assoc done bs rest).symm
  position := by rw [Cursor.past, h.position, List.length_append]

theorem step (h : At c done (b :: bs)) : At c.step (done ++ [b]) bs where
  source := h.source.trans (List.append_cons done b bs)
  position := by rw [Cursor.step, h.position, List.length_append, List.length_singleton]

theorem atEnd_nil (h : At c done []) : c.atEnd = true := by
  rw [atEnd, h.source, h.position, List.append_nil]
  exact decide_eq_true (Nat.le_refl _)

theorem atEnd_cons (h : At c done (b :: bs)) : c.atEnd = false := by
  rw [atEnd, h.source, h.position, List.length_append]
  exact decide_eq_false (Nat.not_le.2 (Nat.lt_add_of_pos_right (Nat.zero_lt_succ _)))

theorem getElem?_cons (h : At c done (b :: bs)) : c.source[c.position]? = some b := by
  rw [h.source, h.position, List.getElem?_append_right (Nat.le_refl _), Nat.sub_self]
  rfl

theorem advance (h : At c done (b :: bs)) : c.advance = some (b, c.step) := by
  rw [Cursor.advance, h.getElem?_cons]
  rfl

theorem peek_nil (h : At c done []) : c.peek = some 0 := by
  rw [peek, h.atEnd_nil, if_pos rfl]

theorem peek_cons (h : At c done (b :: bs)) : c.peek = some b := by
  rw [peek, h.atEnd_cons, if_neg Bool.false_ne_true, h.getElem?_cons]

theorem slice_past (h : At c done (bs ++ rest)) (hc : c.start = c.position) :
    (c.past bs).slice (c.past bs).start (c.past bs).position = some bs :=
  slice_eq h.source (hc.trans h.position) (congrArg (· + bs.length) h.position)

theorem skipWhile {p : UInt8 → Bool} (hzero : p 0 = false) (hline : p Byte.lineFeed = false)
    (h : At c done (bs ++ rest)) (hbs : ∀ x ∈ bs, p x = true) (hr : Ends p rest) :
    c.skipWhile p = some (c.past bs) := by
  induction bs generalizing c done with
  | nil =>
    rw [Cursor.skipWhile]
    cases rest with
    | nil =>
      rw [h.peek_nil]
      simp only [Option.bind_eq_bind, Option.bind_some, hzero]
      rfl
    | cons x rest =>
      rw [h.peek_cons]
      simp only [Option.bind_eq_bind, Option.bind_some, hr x rfl]
      rfl
  | cons b bs ih =>
    obtain ⟨hb, hbs⟩ := List.forall_mem_cons.1 hbs
    have hne : b ≠ Byte.lineFeed := by
      rintro rfl
      exact Bool.eq_false_iff.1 hline hb
    have hp : At (c.past [b]) (done ++ [b]) (bs ++ rest) := At.past h
    have hi := ih hp hbs
    rw [past_past, List.singleton_append] at hi
    rw [Cursor.skipWhile, h.peek_cons]
    simp only [Option.bind_eq_bind, Option.bind_some, hb, if_true]
    split
    · rename_i he
      rw [h.advance] at he
      cases he
    · rename_i he
      rw [h.advance] at he
      cases he
      rwa [step_eq_past hne]

theorem skipQuoted (h : At c done (bs ++ rest)) (hbs : 0x22 ∉ bs)
    (hr : ∀ x ∈ rest.head?, x = 0x22) : c.skipQuoted = some (c.past bs) := by
  induction bs generalizing c done with
  | nil =>
    rw [Cursor.skipQuoted]
    cases rest with
    | nil =>
      rw [h.atEnd_nil, if_pos rfl]
      rfl
    | cons x rest =>
      rw [h.atEnd_cons, h.peek_cons, hr x rfl]
      rfl
  | cons b bs ih =>
    have hb : b ≠ 0x22 := fun he => hbs (he ▸ List.mem_cons_self)
    have hp : At (c.past [b]) (done ++ [b]) (bs ++ rest) := At.past h
    have hi := ih hp fun hm => hbs (List.mem_cons_of_mem b hm)
    rw [past_past, List.singleton_append] at hi
    rw [Cursor.skipQuoted, h.atEnd_cons, h.peek_cons]
    simp only [Option.bind_eq_bind, Option.bind_some, hb, if_false, Bool.false_eq_true]
    split
    · rename_i he
      rw [h.advance] at he
      cases he
    · rename_i he
      rw [h.advance] at he
      cases he
      rwa [countLine_step]

theorem skipLine (h : At c done (bs ++ rest)) (hbs : Byte.lineFeed ∉ bs)
    (hr : Ends Byte.inLine rest) : c.skipLine = some (c.past bs) := by
  have hs : c.slice c.position c.source.length = some (bs ++ rest) := by
    have he : c.source = done ++ (bs ++ rest ++ []) := by rw [h.source, List.append_nil]
    apply slice_eq he h.position
    rw [h.source, List.length_append]
  have hnone : bs.findIdx? (· == Byte.lineFeed) = none := by
    refine List.findIdx?_eq_none_iff.2 fun x hx => beq_eq_false_iff_ne.2 ?_
    rintro rfl
    exact hbs hx
  rw [Cursor.skipLine, hs, past_of_not_mem hbs]
  simp only [Option.bind_eq_bind, Option.bind_some, List.findIdx?_append, hnone, Option.none_or]
  cases rest with
  | nil =>
    simp only [List.findIdx?_nil, Option.map_none, h.source, h.position, List.length_append,
      List.append_nil]
    rfl
  | cons x rest =>
    have hx : (x == Byte.lineFeed) = true := Bool.not_eq_eq_eq_not.1 (hr x rfl)
    simp only [List.findIdx?_cons, hx, if_true, Option.map_some, Nat.zero_add]
    rfl

theorem accept_of_ne {expected : UInt8} (h : At c done bs) (hb : ∀ b ∈ bs.head?, b ≠ expected) :
    c.accept expected = some (false, c) := by
  cases bs with
  | nil => rw [accept, h.atEnd_nil, if_pos rfl]
  | cons b bs =>
    rw [accept, h.atEnd_cons, h.peek_cons]
    simp only [Option.bind_eq_bind, Option.bind_some, hb b rfl, if_false, Bool.false_eq_true]
    rfl

theorem accept (h : At c done (b :: bs)) : c.accept b = some (true, c.step) := by
  rw [Cursor.accept, h.atEnd_cons, h.peek_cons]
  simp only [Option.bind_eq_bind, Option.bind_some, h.advance, if_true, if_false,
    Bool.false_eq_true]
  rfl

end At

/-! ### Scanning a piece -/

theorem At.scanToken {c : Cursor} {done bs : List UInt8} {b : UInt8} (h : At c done (b :: bs)) :
    c.scanToken = c.step.scanBehind b := by
  rw [Cursor.scanToken, h.advance]
  rfl

theorem scanToken_of_blank {c : Cursor} {done p rest : List UInt8} (hp : Blank p rest)
    (h : At c done (p ++ rest)) : c.scanToken = some (none, c.past p) := by
  cases hp with
  | @layout b _ hb =>
    rw [At.scanToken h, scanBehind, if_pos hb, countLine_step]
    rfl
  | @comment bs _ hbs hr =>
    have hs : At c.step (done ++ [0x2F]) (0x2F :: (bs ++ rest)) := At.step h
    rw [At.scanToken h, scanBehind_slash, hs.accept]
    simp only [Option.bind_eq_bind, Option.bind_some, hs.step.skipLine hbs hr, if_true]
    rw [step_past (b := 0x2F) (by decide), step_past (b := 0x2F) (by decide)]
    rfl

theorem ne_of_startsWith {x : UInt8} {bs : List UInt8}
    (h : Piece.startsWith (Byte.char x) bs = false) : ∀ b ∈ bs.head?, b ≠ x := by
  rintro b hb rfl
  obtain ⟨rest, rfl⟩ := List.head?_eq_some_iff.1 hb
  exact Bool.eq_false_iff.1 h (startsWith_iff.2 ⟨rest, rfl⟩)

theorem scanToken_of_lexeme {c : Cursor} {k : Token.Kind} {done p rest : List UInt8}
    (hp : Lexeme k p rest) (h : At c done (p ++ rest)) (hc : c.start = c.position) :
    c.scanToken = some (some k, c.past p) := by
  cases hp with
  | @punctuator _ b _ hk =>
    obtain ⟨hl, hn⟩ := Byte.punctuator_class b hk.ofPunctuator?_ne_none
    rw [At.scanToken h, step_eq_past (bne_iff_ne.1 hn), scanBehind, hl,
      Token.Kind.ofPunctuator?_eq_some_iff.2 hk]
    rfl
  | slash hr =>
    have hs : At c.step (done ++ [0x2F]) rest := At.step h
    have ha := hs.accept_of_ne (ne_of_startsWith (x := 0x2F) hr)
    rw [At.scanToken h, scanBehind_slash, ha, step_eq_past (b := 0x2F) (by decide)]
    rfl
  | bang hr =>
    have hs : At c.step (done ++ [0x21]) rest := At.step h
    have ha := hs.accept_of_ne (ne_of_startsWith (x := 0x3D) hr)
    rw [At.scanToken h, scanBehind_bang, ha, step_eq_past (b := 0x21) (by decide)]
    rfl
  | bangEqual =>
    have hs : At c.step (done ++ [0x21]) (0x3D :: rest) := At.step h
    rw [At.scanToken h, scanBehind_bang, hs.accept, step_eq_past (b := 0x3D) (by decide),
      step_past (b := 0x21) (by decide)]
    rfl
  | equal hr =>
    have hs : At c.step (done ++ [0x3D]) rest := At.step h
    have ha := hs.accept_of_ne (ne_of_startsWith (x := 0x3D) hr)
    rw [At.scanToken h, scanBehind_equal, ha, step_eq_past (b := 0x3D) (by decide)]
    rfl
  | equalEqual =>
    have hs : At c.step (done ++ [0x3D]) (0x3D :: rest) := At.step h
    rw [At.scanToken h, scanBehind_equal, hs.accept, step_eq_past (b := 0x3D) (by decide),
      step_past (b := 0x3D) (by decide)]
    rfl
  | @integer b bs _ hb hbs hr =>
    obtain ⟨h₁, h₂, h₃, h₄, h₅, h₆⟩ := Byte.digit_class b hb
    have hw := (At.step h).skipWhile rfl rfl hbs hr
    have hn := bne_iff_ne.1 (Byte.word_class b (Byte.isWordPart_of_isDigit hb)).2
    rw [At.scanToken h, scanBehind]
    simp only [h₁, h₂, h₃, h₄, h₅, h₆, hb, hw, if_true, if_false, Bool.false_eq_true,
      Option.bind_eq_bind, Option.bind_some, step_past hn]
    rfl
  | @word _ s b bs _ hk hs hb hbs hr =>
    obtain rfl := Token.Kind.eq_ofWord_iff.2 hk
    obtain ⟨h₁, h₂, h₃, h₄, h₅, h₆, h₇⟩ := Byte.wordStart_class b hb
    have hw := (At.step h).skipWhile rfl rfl hbs hr
    have hn := bne_iff_ne.1 (Byte.word_class b (Byte.isWordPart_of_isWordStart hb)).2
    have ht := At.slice_past h hc
    rw [At.scanToken h, scanBehind]
    simp only [h₁, h₂, h₃, h₄, h₅, h₆, h₇, hb, hw, if_true, if_false, Bool.false_eq_true,
      Option.bind_eq_bind, Option.bind_some, step_past hn, ht]
    rw [← hs, decodeLossy_encode]
    rfl
  | @string bs _ hbs =>
    have he : 0x22 :: (bs ++ [0x22]) ++ rest = 0x22 :: (bs ++ 0x22 :: rest) := by
      rw [List.cons_append, List.append_assoc, List.singleton_append]
    rw [he] at h
    have hs : At c.step (done ++ [0x22]) (bs ++ 0x22 :: rest) := At.step h
    have hq := hs.skipQuoted hbs (by rintro x hx; cases hx; rfl)
    rw [At.scanToken h, scanBehind_quote, hq]
    simp only [Option.bind_eq_bind, Option.bind_some, hs.past.atEnd_cons, hs.past.advance,
      if_false, Bool.false_eq_true]
    rw [step_past (b := 0x22) (by decide), step_eq_past (b := 0x22) (by decide), past_past]
    rfl
  | @unclosed bs hbs =>
    have hs : At c.step (done ++ [0x22]) (bs ++ []) := At.step h
    have hq := hs.skipQuoted hbs (by rintro x hx; cases hx)
    rw [At.scanToken h, scanBehind_quote, hq]
    simp only [Option.bind_eq_bind, Option.bind_some, hs.past.atEnd_nil, if_true]
    rw [step_past (b := 0x22) (by decide)]
    rfl
  | @stray b bs _ hb hbs hr =>
    obtain ⟨h₃, h₄, h₅, h₆⟩ := hb.other
    have hp := Token.Kind.ofPunctuator?_eq_none_iff.2 hb.punctuator
    have hw := (At.step h).skipWhile rfl rfl hbs hr
    have hn : b ≠ Byte.lineFeed := by
      rintro rfl
      exact Bool.false_ne_true hb.layout.symm
    rw [At.scanToken h, scanBehind]
    simp only [hb.layout, hp, h₃, h₄, h₅, h₆, hb.digit, hb.word, hw, if_false,
      Bool.false_eq_true, Option.bind_eq_bind, Option.bind_some, step_past hn]
    rfl

theorem At.literal {c : Cursor} {k : Token.Kind} {done p rest : List UInt8} (hp : Lexeme k p rest)
    (h : At c done (p ++ rest)) (hc : c.start = c.position) :
    (c.past p).literal k = some (decodeLossy (Piece.content k p)) := by
  rw [Cursor.literal, Piece.content]
  by_cases hk : k = .string
  · subst hk
    obtain ⟨bs, -, rfl⟩ := hp.exists_of_string
    have he : c.source = done ++ [0x22] ++ (bs ++ 0x22 :: rest) := by
      rw [h.source]
      simp only [List.append_assoc, List.cons_append, List.nil_append]
    have hs : c.slice (c.start + 1) (c.position + (bs ++ [0x22]).length) = some bs := by
      apply slice_eq he
      · rw [hc, h.position, List.length_append, List.length_singleton]
      · simp only [h.position, List.length_append, List.length_singleton]
        omega
    rw [if_pos rfl, if_pos rfl, List.tail_cons, List.dropLast_concat]
    exact congrArg (Option.map decodeLossy) hs
  · rw [if_neg hk, if_neg hk, h.slice_past hc]
    rfl

/-! ### One token at a time -/

theorem At.begin {c : Cursor} {done bs : List UInt8} (h : At c done bs) : At c.begin done bs where
  source := h.source
  position := h.position

theorem exists_at {c : Cursor} (h : c.position ≤ c.source.length) :
    At c (c.source.take c.position) (c.source.drop c.position) where
  source := (List.take_append_drop c.position c.source).symm
  position := (List.length_take_of_le h).symm

/-- In front of some bytes the scanner takes a piece that starts with the first one. -/
theorem exists_scanToken {c : Cursor} (h : c.position < c.source.length) :
    ∃ kind p done rest, p ≠ [] ∧ Piece.Correct kind p rest ∧ At c done (p ++ rest) ∧
      c.begin.scanToken = some (kind, c.begin.past p) := by
  have ha := exists_at (Nat.le_of_lt h)
  rw [List.drop_eq_getElem_cons h] at ha
  obtain ⟨kind, cs, rest, he, hp⟩ := exists_correct c.source[c.position]
    (c.source.drop (c.position + 1))
  rw [he] at ha
  refine ⟨kind, _, _, rest, List.cons_ne_nil _ _, hp, ha, ?_⟩
  cases kind with
  | none => exact scanToken_of_blank hp ha.begin
  | some k => exact scanToken_of_lexeme hp ha.begin rfl

theorem lt_of_scanToken {c c' : Cursor} {kind : Option Token.Kind}
    (h : c.position < c.source.length) (hs : c.begin.scanToken = some (kind, c')) :
    c.source = c'.source ∧ c.position < c'.position := by
  obtain ⟨kind', p, done, rest, hp, -, -, hs'⟩ := exists_scanToken h
  rw [hs] at hs'
  cases hs'
  exact ⟨rfl, Nat.lt_add_of_pos_right (List.length_pos_iff.2 hp)⟩

/-- Looks for one more token (`next`).  The end of the input is one of them. -/
def next (c : Cursor) : Option (Option Token × Cursor) :=
  if hpast : c.source.length < c.position then some (none, c)
  else if hend : c.position = c.source.length then
    some (some ⟨.endOfInput, "", c.line⟩, { c with position := c.position + 1 })
  else
    match h : c.begin.scanToken with
    | none => none
    | some (some k, c') => (c'.literal k).map fun text => (some ⟨k, text, c'.startLine⟩, c')
    | some (none, c') =>
      have hlt : c.position < c.source.length := by omega
      have := lt_of_scanToken hlt h
      next c'
termination_by c.source.length - c.position
decreasing_by
  obtain ⟨he, hlt'⟩ := this
  rw [← he]
  omega

/-- The tokens that are still to come. -/
def tokens (c : Cursor) : List Token :=
  if c.source.length < c.position then [] else Token.scanFrom c.line (c.source.drop c.position)

theorem At.tokens {c : Cursor} {done bs : List UInt8} (h : At c done bs) :
    c.tokens = Token.scanFrom c.line bs := by
  rw [Cursor.tokens, if_neg (Nat.not_lt.2 h.le), h.source, h.position, List.drop_left]

/-- **A call yields the next token**, and never reads what the source does not have. -/
theorem next_eq (c : Cursor) :
    ∃ c', c.next = some (c.tokens.head?, c') ∧ c'.tokens = c.tokens.tail := by
  fun_induction next c with
  | case1 c hpast =>
    have ht : c.tokens = [] := if_pos hpast
    rw [ht]
    exact ⟨c, rfl, ht⟩
  | case2 c hpast hend =>
    have ha := exists_at (Nat.le_of_eq hend)
    rw [hend, List.drop_length] at ha
    rw [ha.tokens, Token.scanFrom_nil]
    refine ⟨_, rfl, if_pos ?_⟩
    exact Nat.lt_succ_of_le (Nat.le_of_eq hend.symm)
  | case3 c hpast hend h =>
    have hlt : c.position < c.source.length := by omega
    obtain ⟨kind, p, done, rest, -, -, -, hs⟩ := exists_scanToken hlt
    rw [hs] at h
    cases h
  | case4 c hpast hend k c' h =>
    have hlt : c.position < c.source.length := by omega
    obtain ⟨kind, p, done, rest, -, hp, ha, hs⟩ := exists_scanToken hlt
    rw [hs] at h
    cases h
    rw [At.literal hp ha.begin rfl, ha.tokens, Token.scanFrom_of_lexeme hp]
    exact ⟨_, rfl, ha.begin.past.tokens⟩
  | case5 c hpast hend c' h hlt _ ih =>
    obtain ⟨kind, p, done, rest, -, hp, ha, hs⟩ := exists_scanToken hlt
    rw [hs] at h
    cases h
    rw [ha.begin.past.tokens] at ih
    rw [ha.tokens, Token.scanFrom_of_blank hp]
    exact ih

/-- What a number of calls yield. -/
def calls : Nat → Cursor → Option (List (Option Token))
  | 0, _ => some []
  | n + 1, c => do
    let (t, c) ← c.next
    let ts ← calls n c
    return t :: ts

theorem calls_eq (n : Nat) (c : Cursor) :
    c.calls n = some ((List.range n).map fun i => c.tokens[i]?) := by
  induction n generalizing c with
  | zero => rfl
  | succ n ih =>
    obtain ⟨c', hn, ht⟩ := next_eq c
    rw [calls, hn]
    simp only [Option.bind_eq_bind, Option.bind_some, ih, ht, List.range_succ_eq_map,
      List.map_cons, List.map_map, List.head?_eq_getElem?, Function.comp_def, List.getElem?_tail]
    rfl

theorem tokens_ofSource (source : List UInt8) : (ofSource source).tokens = Token.scan source := by
  have h : At (ofSource source) [] source := ⟨rfl, rfl⟩
  exact h.tokens

end Cursor

/-- **The scanner goes by the lexical grammar, and accounts for every byte.**  It yields
    the tokens of the source one by one, of which the last one and no other is the end of
    the input, and then none for ever after; it never reads a byte that the source does
    not have.  The source is gaps and lexemes in turn, in one way and in no other, and the
    lexemes are those of the tokens, in their order. -/
theorem Token.scan_lexemes (source : List UInt8) :
    ∃ ts line fs last, scan source = ts ++ [⟨.endOfInput, "", line⟩] ∧
      (∀ t ∈ ts, t.kind ≠ .endOfInput) ∧
      (∀ n, (Cursor.ofSource source).calls n =
        some ((List.range n).map fun i => (scan source)[i]?)) ∧
      Factors source fs last ∧ (∀ fs' last', Factors source fs' last' → fs' = fs ∧ last' = last) ∧
      fs.flatMap (fun f => f.gap ++ f.lexeme) ++ last = source ∧ (∀ f ∈ fs, f.lexeme ≠ []) ∧
      ts.map spelling = fs.map Factor.spelling := by
  obtain ⟨ts, line, hts, hk⟩ := scan_eq source
  obtain ⟨ts', line', hts', hs⟩ := spellings_ofPieces 1 (Piece.cut source)
  rw [← scan, hts] at hts'
  obtain ⟨rfl, -⟩ := List.append_inj' hts' rfl
  generalize hf : Factor.ofPieces (Piece.cut source) = x at hs
  obtain ⟨fs, last⟩ := x
  have h : Factors source fs last := Factor.factors_iff.2 hf
  refine ⟨ts, line, fs, last, hts, hk, ?_, h, ?_, h.flatMap_text, ?_, ?_⟩
  · intro n
    rw [Cursor.calls_eq, Cursor.tokens_ofSource]
  · intro fs' last' h'
    rw [Factor.factors_iff.1 h'] at hf
    cases hf
    exact ⟨rfl, rfl⟩
  · exact h.lexeme_ne_nil
  · exact hs

end Monkey
