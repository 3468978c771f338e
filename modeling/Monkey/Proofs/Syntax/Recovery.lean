import Monkey.Proofs.Syntax.Locality
import Monkey.Proofs.Syntax.Offender

/-!
  Monkey/Proofs/Syntax/Recovery.lean
  ==================================
  **Where reading goes on after a fault in the body of a function.**

  A statement that binds a function is dropped if its body is faulty, and it leaves
  one diagnostic.  But the next statement is looked for by tokens and not by
  braces: at the next `let` or `return`, or behind the next `;` (`Resumes`).  If the
  body holds one of these from the fault on, then reading goes on inside of it, and
  what stands there is read as statements of the program (`not_dropped_as_a_whole`).
  If it holds none of them, reading goes on behind the statement.

  Either way it does not get beyond the statement: what follows is read as if nothing
  stood in front of it (`read_faultyBinding`).
-/
namespace Monkey

namespace Rule

/-! ### Boundaries -/

/-- A token at which the next statement may start, or behind which it may. -/
def Boundary (t : Token) : Prop :=
  t.kind = .semicolon ∨ t.kind = .letWord ∨ t.kind = .returnWord

instance : DecidablePred Boundary := fun t =>
  inferInstanceAs (Decidable (t.kind = .semicolon ∨ t.kind = .letWord ∨ t.kind = .returnWord))

/-- Where reading goes on that stopped in front of given tokens: they are skipped until just
    behind a `;`, or until a `let` or a `return`. -/
inductive Resumes : List Token → List Token → Prop where
  | behind {t ts} (ht : t.kind = .semicolon) : Resumes (t :: ts) ts
  | keyword {t ts} (ht : t.kind = .letWord ∨ t.kind = .returnWord) : Resumes (t :: ts) (t :: ts)
  | skip {t ts us} (ht : ¬ Boundary t) (h : Resumes ts us) : Resumes (t :: ts) us

theorem nextBoundary_semicolon {s : Token} (hs : s.kind = .semicolon) (us : List Token) :
    nextBoundary (s :: us) = us := by
  have hn : ¬ (s.kind = .letWord ∨ s.kind = .returnWord ∨ s.kind = .endOfInput) := by
    simp [hs]
  rw [nextBoundary, if_neg hn, if_pos hs]

theorem nextBoundary_of_none {ts : List Token}
    (h : ∀ t ∈ ts, ¬ Boundary t ∧ t.kind ≠ .endOfInput) (us : List Token) :
    nextBoundary (ts ++ us) = nextBoundary us := by
  induction ts with
  | nil => rfl
  | cons t ts ih =>
    obtain ⟨⟨ht, hend⟩, hts⟩ := List.forall_mem_cons.1 h
    obtain ⟨hs, hl, hr⟩ : t.kind ≠ .semicolon ∧ t.kind ≠ .letWord ∧ t.kind ≠ .returnWord := by
      simpa only [Boundary, not_or] using ht
    have hn : ¬ (t.kind = .letWord ∨ t.kind = .returnWord ∨ t.kind = .endOfInput) := by
      simp only [not_or]
      exact ⟨hl, hr, hend⟩
    rw [List.cons_append, nextBoundary, if_neg hn, if_neg hs]
    exact ih hts

/-- If the first boundary behind the fault is a `;`, then reading goes on behind it. -/
theorem resume_of_none (problem : Problem) {ts : List Token} (hne : ts ≠ [])
    (h : ∀ t ∈ ts, ¬ Boundary t ∧ t.kind ≠ .endOfInput) {s : Token} (hs : s.kind = .semicolon)
    (us : List Token) : (Failure.mk problem (ts ++ s :: us)).resume = us := by
  obtain ⟨t, ts, rfl⟩ := List.exists_cons_of_ne_nil hne
  have hall := (nextBoundary_of_none h (s :: us)).trans (nextBoundary_semicolon hs us)
  obtain ⟨⟨ht, -⟩, hts⟩ := List.forall_mem_cons.1 h
  cases problem with
  | unexpected => exact hall
  | noOperand | notAnInteger =>
    have hn : t.kind ≠ .semicolon := fun hk => ht (.inl hk)
    simp only [Failure.resume, List.cons_append, if_neg hn]
    exact (nextBoundary_of_none hts (s :: us)).trans (nextBoundary_semicolon hs us)

theorem Terminated.tail_ne_nil {t : Token} {ts : List Token} (h : Terminated (t :: ts))
    (ht : t.kind ≠ .semicolon) : ts ≠ [] := by
  rintro rfl
  exact ht (h.last t rfl)

theorem resumes_nextBoundary {ts : List Token} (h : Terminated ts) (hne : ts ≠ []) :
    Resumes ts (nextBoundary ts) := by
  induction ts with
  | nil => exact absurd rfl hne
  | cons t ts ih =>
    have hend := h.endless t List.mem_cons_self
    unfold nextBoundary
    by_cases hk : t.kind = .letWord ∨ t.kind = .returnWord
    · rw [if_pos (or_assoc.1 (.inl hk))]
      exact .keyword hk
    · have hn : ¬ (t.kind = .letWord ∨ t.kind = .returnWord ∨ t.kind = .endOfInput) := by
        rw [← or_assoc]
        exact not_or.2 ⟨hk, hend⟩
      rw [if_neg hn]
      split
      · exact .behind ‹_›
      · rename_i hs
        exact .skip (not_or.2 ⟨hs, hk⟩) (ih (h.suffix (List.suffix_cons t ts)) (h.tail_ne_nil hs))

/-- Where the token that is dropped is no `let` or `return`, reading goes on as documented. -/
theorem resumes_dropped {t : Token} {ts : List Token} (h : Terminated (t :: ts))
    (hk : ¬ (t.kind = .letWord ∨ t.kind = .returnWord)) :
    Resumes (t :: ts) (if t.kind = .semicolon then ts else nextBoundary ts) := by
  split
  · exact .behind ‹_›
  · rename_i hs
    exact .skip (not_or.2 ⟨hs, hk⟩)
      (resumes_nextBoundary (h.suffix (List.suffix_cons t ts)) (h.tail_ne_nil hs))

/-- Reading goes on as documented, unless it was a `let` or a `return` that no expression
    starts with. -/
theorem resumes_resume {f : Failure} (ha : f.Apt) (h : Terminated f.remaining)
    (hne : f.remaining ≠ []) (hl : f.problem ≠ .noOperand .letWord)
    (hr : f.problem ≠ .noOperand .returnWord) : Resumes f.remaining f.resume := by
  obtain ⟨problem, _ | ⟨t, ts⟩⟩ := f
  · exact absurd rfl hne
  have ht : problem.About t := ha t (by rintro _ ⟨⟩; rfl) rfl
  cases problem with
  | unexpected => exact resumes_nextBoundary h hne
  | noOperand found =>
    refine resumes_dropped h ?_
    have hk : t.kind = found := ht
    rintro (he | he)
    · exact hl (congrArg Problem.noOperand (hk.symm.trans he))
    · exact hr (congrArg Problem.noOperand (hk.symm.trans he))
  | notAnInteger literal =>
    refine resumes_dropped h ?_
    rw [ht.1]
    decide

/-- No statement starts with a `;`. -/
theorem statement_semicolon {t : Token} (ht : t.kind = .semicolon) (ts : List Token) :
    statement (t :: ts) = .error ⟨.noOperand .semicolon, t :: ts⟩ := by
  obtain ⟨kind, literal, line⟩ := t
  cases ht
  simp only [statement, expression, operand]
  rfl

/-! ### Properly nested braces -/

theorem excess_append (ts us : List Token) : excess (ts ++ us) = excess ts + excess us := by
  induction ts with
  | nil => exact (Int.zero_add _).symm
  | cons t ts ih =>
    rw [List.cons_append, excess, excess, ih]
    omega

/-- Every closing brace closes one that was opened before it, and every brace that is
    opened is closed. -/
structure Nested (ts : List Token) : Prop where
  prefixes : ∀ us, us <+: ts → 0 ≤ excess us
  whole : excess ts = 0

theorem Nested.suffixes {ts us : List Token} (h : Nested ts) (hs : us <:+ ts) : excess us ≤ 0 := by
  obtain ⟨vs, rfl⟩ := hs
  have hp := h.prefixes vs (List.prefix_append vs us)
  have hw := h.whole
  rw [excess_append] at hw
  omega

/-- A part at the end of two lists lies in the second one or has it at its end. -/
theorem suffix_append_cases {ts us vs : List Token} (h : vs <:+ ts ++ us) :
    vs <:+ us ∨ ∃ ws, ws <:+ ts ∧ vs = ws ++ us := by
  rcases List.suffix_or_suffix_of_suffix h (List.suffix_append ts us) with h' | h'
  · exact .inl h'
  · obtain ⟨ws, rfl⟩ := h'
    obtain ⟨ps, hp⟩ := h
    rw [← List.append_assoc] at hp
    exact .inr ⟨ws, ⟨ps, List.append_cancel_right hp⟩, rfl⟩

theorem bind_of_error {x : Except Failure α} {g : α → Except Failure β} {f : Failure}
    (h : x = .error f) : x >>= g = .error f := by
  rw [h]
  rfl

theorem Yields.bind_error {P : List Token → Prop} {x : Except Failure (α × { rest // P rest })}
    {g : α × { rest // P rest } → Except Failure β} {a : α} {rest : List Token} {f : Failure}
    (hx : Yields x a rest) (hg : ∀ h, g (a, ⟨rest, h⟩) = .error f) : x >>= g = .error f := by
  obtain ⟨h, rfl⟩ := hx
  exact hg h

theorem excess_of_weightless {ts : List Token} (h : ∀ t ∈ ts, t.kind.weight = 0) :
    excess ts = 0 := by
  induction ts with
  | nil => rfl
  | cons t ts ih =>
    obtain ⟨ht, hts⟩ := List.forall_mem_cons.1 h
    rw [excess, ht, ih hts, Int.zero_add]

theorem nested_of_weightless {ts : List Token} (h : ∀ t ∈ ts, t.kind.weight = 0) : Nested ts where
  prefixes _ hs := Int.le_of_eq (excess_of_weightless fun t ht => h t (hs.subset ht)).symm
  whole := excess_of_weightless h

theorem WordsMoreNames.kind_of_mem {ids : List Identifier} {ts : List Token}
    (h : WordsMoreNames ids ts) {t : Token} (ht : t ∈ ts) :
    t.kind = .comma ∨ t.kind = .identifier := by
  induction h with
  | nil => cases ht
  | cons hm hi _ ih =>
    rcases List.mem_cons.1 ht with rfl | ht
    · exact .inl hm
    · rcases List.mem_cons.1 ht with rfl | ht
      · exact .inr hi
      · exact ih ht

theorem WordsNames.kind_of_mem {ids : List Identifier} {ts : List Token} (h : WordsNames ids ts)
    {t : Token} (ht : t ∈ ts) : t.kind = .comma ∨ t.kind = .identifier := by
  cases h with
  | nil => cases ht
  | cons hi h =>
    rcases List.mem_cons.1 ht with rfl | ht
    · exact .inr hi
    · exact h.kind_of_mem ht

end Rule

/-! ### Statements that bind a function -/

/-- The tokens of a statement `let name = fn(parameters) { body };`. -/
structure FunctionBinding where
  letWord : Token
  name : Token
  equal : Token
  fnWord : Token
  openParen : Token
  parameters : List Token
  closeParen : Token
  openBrace : Token
  body : List Token
  closeBrace : Token
  semicolon : Token
  letWord_kind : letWord.kind = .letWord
  name_kind : name.kind = .identifier
  equal_kind : equal.kind = .equal
  fnWord_kind : fnWord.kind = .fnWord
  openParen_kind : openParen.kind = .leftParen
  parameters_words : ∃ ids, Rule.WordsNames ids parameters
  closeParen_kind : closeParen.kind = .rightParen
  openBrace_kind : openBrace.kind = .leftBrace
  closeBrace_kind : closeBrace.kind = .rightBrace
  semicolon_kind : semicolon.kind = .semicolon
  body_endless : ∀ t ∈ body, t.kind ≠ .endOfInput
  body_nested : Rule.Nested body

namespace FunctionBinding

open Rule

variable (b : FunctionBinding)

/-- The tokens in front of the body, without the brace. -/
def beginning : List Token :=
  b.letWord :: b.name :: b.equal :: b.fnWord :: b.openParen :: (b.parameters ++ [b.closeParen])

/-- The tokens behind the body. -/
def ending : List Token :=
  [b.closeBrace, b.semicolon]

/-- The tokens of the statement. -/
def tokens : List Token :=
  b.beginning ++ b.openBrace :: (b.body ++ b.ending)

theorem tokens_eq : b.tokens = b.letWord :: b.name :: b.equal :: b.fnWord :: b.openParen ::
    (b.parameters ++ b.closeParen :: b.openBrace :: (b.body ++ b.ending)) := by
  simp only [tokens, beginning, List.cons_append, List.append_assoc, List.nil_append]

theorem excess_ending : excess b.ending = -1 := by
  have hc := excess_close b.closeBrace_kind [b.semicolon]
  have hs := excess_plain b.semicolon_kind rfl []
  have hn : excess [] = 0 := rfl
  rw [ending]
  omega

/-- In front of the body stand words, names, commas and parentheses. -/
theorem kind_of_mem_beginning {t : Token} (ht : t ∈ b.beginning) :
    t.kind.weight = 0 ∧ t.kind ≠ .endOfInput := by
  have hk {u : Token} {k : Token.Kind} (hu : u.kind = k) (h : k.weight = 0 ∧ k ≠ .endOfInput) :
      u.kind.weight = 0 ∧ u.kind ≠ .endOfInput := hu ▸ h
  obtain ⟨ids, hw⟩ := b.parameters_words
  simp only [beginning, List.mem_cons, List.mem_append, List.not_mem_nil, or_false] at ht
  rcases ht with rfl | rfl | rfl | rfl | rfl | ht | rfl
  · exact hk b.letWord_kind ⟨rfl, by decide⟩
  · exact hk b.name_kind ⟨rfl, by decide⟩
  · exact hk b.equal_kind ⟨rfl, by decide⟩
  · exact hk b.fnWord_kind ⟨rfl, by decide⟩
  · exact hk b.openParen_kind ⟨rfl, by decide⟩
  · rcases hw.kind_of_mem ht with h | h
    · exact hk h ⟨rfl, by decide⟩
    · exact hk h ⟨rfl, by decide⟩
  · exact hk b.closeParen_kind ⟨rfl, by decide⟩

/-- What can remain of the body and the tokens behind it. -/
theorem remaining_cases {us : List Token} (hs : us <:+ b.body ++ b.ending) :
    us = [] ∨ us = [b.semicolon] ∨
      ∃ behind, behind <:+ b.body ∧ us = behind ++ b.ending ∧ excess us < 0 := by
  have hx := b.excess_ending
  rcases suffix_append_cases hs with h | ⟨behind, hb, rfl⟩
  · rcases List.suffix_cons_iff.1 h with rfl | h
    · exact .inr (.inr ⟨[], List.nil_suffix, rfl, hx ▸ by decide⟩)
    · rcases List.suffix_cons_iff.1 h with rfl | h
      · exact .inr (.inl rfl)
      · exact .inl (List.suffix_nil.1 h)
  · have hle := b.body_nested.suffixes hb
    refine .inr (.inr ⟨behind, hb, rfl, ?_⟩)
    rw [excess_append]
    omega

theorem excess_semicolon : excess [b.semicolon] = 0 := by
  rw [excess_plain b.semicolon_kind rfl]
  rfl

theorem excess_body : excess (b.body ++ b.ending) = -1 := by
  rw [excess_append, b.body_nested.whole, b.excess_ending]
  rfl

/-- The statement ends with a `;` and closes what it opens. -/
theorem closing_tokens : Closing b.tokens where
  terminated := by
    constructor
    · intro t ht
      simp only [tokens, ending, List.mem_append, List.mem_cons, List.not_mem_nil, or_false] at ht
      rcases ht with ht | rfl | ht | rfl | rfl
      · exact (b.kind_of_mem_beginning ht).2
      · rw [b.openBrace_kind]
        decide
      · exact b.body_endless t ht
      · rw [b.closeBrace_kind]
        decide
      · rw [b.semicolon_kind]
        decide
    · intro t ht
      have hlast : b.tokens =
          b.beginning ++ b.openBrace :: (b.body ++ [b.closeBrace]) ++ [b.semicolon] := by
        simp [tokens, ending]
      rw [hlast, List.getLast?_concat] at ht
      cases ht
      exact b.semicolon_kind
  excess_le := by
    intro us hs
    have ho := excess_open b.openBrace_kind (b.body ++ b.ending)
    have hx := b.excess_body
    rcases suffix_append_cases hs with h | ⟨ws, hw, rfl⟩
    · rcases List.suffix_cons_iff.1 h with rfl | h
      · omega
      · rcases b.remaining_cases h with rfl | rfl | ⟨_, -, -, hlt⟩
        · exact Int.le_refl 0
        · exact Int.le_of_eq b.excess_semicolon
        · omega
    · have hz : excess ws = 0 :=
        excess_of_weightless fun t ht => (b.kind_of_mem_beginning (hw.subset ht)).1
      rw [excess_append]
      omega

theorem closing_body : Closing (b.body ++ b.ending) :=
  b.closing_tokens.suffix ((List.suffix_cons _ _).trans (List.suffix_append _ _))

/-- Where the body is read, the statement is. -/
theorem derives_tokens {ss : List Statement}
    (h : Yields (blockBody (b.body ++ b.ending)) ss [b.semicolon]) :
    ∃ s, Derives (.statement b.tokens s []) := by
  obtain ⟨ids, hw⟩ := b.parameters_words
  have hs : Derives (.block (b.body ++ b.ending) ss [b.semicolon]) := derives_iff.2 h
  have hn := parameters_of_words hw b.closeParen_kind (b.openBrace :: (b.body ++ b.ending))
  have hstop : ¬ Precedence.lowest < .of (kindAt [b.semicolon]) := by
    simp only [kindAt, b.semicolon_kind]
    decide
  have he := Derives.expression
    (.function b.fnWord_kind b.openParen_kind hn b.openBrace_kind hs) (.stop hstop)
  have hl := Derives.letBind b.letWord_kind b.name_kind b.equal_kind he
  rw [optionalSemicolon_of_eq b.semicolon_kind] at hl
  rw [b.tokens_eq]
  exact ⟨_, hl⟩

/-- Where the body is faulty, the statement fails there. -/
theorem statement_of_body {f : Failure} (h : blockBody (b.body ++ b.ending) = .error f) :
    statement b.tokens = .error f := by
  obtain ⟨ids, hw⟩ := b.parameters_words
  have hn := parameters_of_words hw b.closeParen_kind (b.openBrace :: (b.body ++ b.ending))
  rw [b.tokens_eq, statement, b.letWord_kind]
  refine (yields_expect b.name_kind).bind_error fun _ => ?_
  refine (yields_expect b.equal_kind).bind_error fun _ => ?_
  refine bind_of_error ?_
  rw [expression]
  refine bind_of_error ?_
  rw [operand, b.fnWord_kind]
  refine (yields_expect b.openParen_kind).bind_error fun _ => ?_
  refine hn.bind_error fun _ => ?_
  refine (yields_expect b.openBrace_kind).bind_error fun _ => ?_
  exact bind_of_error h

/-- The body is read up to its brace, or it is faulty, and the fault is in front of a token of
    the body or of its brace. -/
theorem body_cases : (∃ ss, Yields (blockBody (b.body ++ b.ending)) ss [b.semicolon]) ∨
    ∃ f behind, blockBody (b.body ++ b.ending) = .error f ∧ behind <:+ b.body ∧
      f.remaining = behind ++ b.ending := by
  have hx := b.excess_body
  have hu := (undisturbed_rules [] (b.body ++ b.ending)).blockBody b.closing_body (by omega)
  generalize blockBody (b.body ++ b.ending ++ []) = y at hu
  generalize blockBody (b.body ++ b.ending) = x at hu ⊢
  cases hu with
  | @ok ss rest hp hq hs hr =>
    obtain ⟨hne, hr⟩ := hr
    rcases b.remaining_cases hs with rfl | rfl | ⟨behind, -, -, hlt⟩
    · exact absurd rfl hne
    · exact .inl ⟨ss, .ok⟩
    · omega
  | @error f hs hne hr =>
    rcases b.remaining_cases hs with he | he | ⟨behind, hb, he, -⟩
    · exact absurd he hne
    · rw [he, b.excess_semicolon] at hr
      omega
    · exact .inr ⟨f, behind, rfl, hb, he⟩

/-- Where no statement may start behind the fault, reading goes on behind the statement. -/
theorem resume_eq_nil {f : Failure} {behind : List Token} (hb : behind <:+ b.body)
    (hf : f.remaining = behind ++ b.ending) (h : ∀ t ∈ behind, ¬ Boundary t) :
    f.resume = [] := by
  have hclose : ¬ Boundary b.closeBrace ∧ b.closeBrace.kind ≠ .endOfInput := by
    simp [Boundary, b.closeBrace_kind]
  have hnone : ∀ t ∈ behind ++ [b.closeBrace], ¬ Boundary t ∧ t.kind ≠ .endOfInput := by
    intro t ht
    rcases List.mem_append.1 ht with ht | ht
    · exact ⟨h t ht, b.body_endless t (hb.subset ht)⟩
    · rw [List.mem_singleton.1 ht]
      exact hclose
  have hr := resume_of_none f.problem (List.concat_ne_nil _ _) hnone b.semicolon_kind []
  rwa [List.append_assoc, List.singleton_append, ← ending, ← hf] at hr

/-- A part at the end of the statement, from inside of its body on, is not read without a
    fault: it closes a brace that it does not open, or it is a lone `;`. -/
theorem diagnostics_ne_nil {us : List Token} (hs : us <:+ b.body ++ b.ending) (hne : us ≠ []) :
    (Program.read us).diagnostics ≠ [] := by
  intro h
  have hc : Closing us := b.closing_body.suffix hs
  have hss := Program.rounds_of_terminated hc.terminated h
  rcases b.remaining_cases hs with rfl | rfl | ⟨_, -, -, hlt⟩
  · exact hne rfl
  · have hk : b.semicolon.kind ≠ .endOfInput := hc.terminated.endless _ List.mem_cons_self
    rw [rounds_of_error hk (statement_semicolon b.semicolon_kind [])] at hss
    obtain ⟨_, _, -, he, -⟩ := List.map_eq_cons_iff.1 hss.symm
    cases he
  · have hx := excess_of_rounds hc hss
    omega

end FunctionBinding

namespace Program

open Rule

theorem read_of_derives {ts : List Token} {s : Statement} (hts : Terminated ts)
    (h : Derives (.statement ts s [])) : (read ts).diagnostics = [] := by
  obtain ⟨hne, e⟩ := holds_of_derives h
  obtain ⟨t, ts, rfl⟩ := List.exists_cons_of_ne_nil (List.length_pos_iff.1 hne)
  have hr := rounds_of_ok (hts.endless t List.mem_cons_self) e
  rw [rounds] at hr
  rw [read, body_of_terminated hts, hr]
  rfl

/-- A statement that fails leaves its diagnostic, and reading goes on where the failure
    says. -/
theorem read_of_failure {ts : List Token} {f : Failure} (hts : Closing ts) (hne : ts ≠ [])
    (h : statement ts = .error f) :
    (read ts).program.statements = (read f.resume).program.statements ∧
      (read ts).diagnostics = f.diagnostic (endLine ts) :: (read f.resume).diagnostics := by
  obtain ⟨t, ts, rfl⟩ := List.exists_cons_of_ne_nil hne
  obtain ⟨hs, -⟩ := statement_append_of_error [] hts hne h
  have hc : Closing f.resume := hts.suffix ((suffix_resume f).trans hs)
  have hr := rounds_of_error (hts.terminated.endless t List.mem_cons_self) h
  simp only [read, body_of_terminated hts.terminated, body_of_terminated hc.terminated, hr,
    List.filterMap_cons, statement?, failure?, List.map_cons]
  refine ⟨trivial, congrArg (List.cons _) ?_⟩
  apply List.map_congr_left
  intro g hg
  exact Failure.diagnostic_congr (remaining_ne_nil hc (mem_of_mem_failures hg)) _ _

/-- **A function whose body is faulty leaves one diagnostic, and nothing behind it is
    touched.**  Let a statement bind a function, with braces properly nested in its body,
    and let something be wrong with it.  Then it fails in front of a token of the body or
    of the closing brace.  Reading goes on at a part of what remains there, which is found
    by tokens unless the fault is a `let` or a `return` that no expression starts with; and
    what follows the statement is read for itself.

    The statement is dropped as a whole, with one diagnostic, exactly if reading goes on
    right behind it; and so it does if no token of the body from the fault on is a `;`, a
    `let` or a `return`. -/
theorem read_faultyBinding (b : FunctionBinding) (h : (read b.tokens).diagnostics ≠ [])
    (us : List Token) :
    ∃ f behind rest, statement b.tokens = .error f ∧ behind <:+ b.body ∧
      f.remaining = behind ++ b.ending ∧ rest <:+ f.remaining ∧
      (f.problem ≠ .noOperand .letWord → f.problem ≠ .noOperand .returnWord →
        Resumes f.remaining rest) ∧
      (read (b.tokens ++ us)).program.statements =
        (read rest).program.statements ++ (read us).program.statements ∧
      (read (b.tokens ++ us)).diagnostics =
        f.diagnostic (endLine b.tokens) :: (read rest).diagnostics ++ (read us).diagnostics ∧
      ((read (b.tokens ++ us)).program.statements = (read us).program.statements ∧
        (read (b.tokens ++ us)).diagnostics.length = (read us).diagnostics.length + 1 ↔
          rest = []) ∧
      ((∀ t ∈ behind, ¬ Boundary t) → rest = []) := by
  have hc := b.closing_tokens
  have hne : b.tokens ≠ [] := by
    rw [b.tokens_eq]
    exact List.cons_ne_nil _ _
  rcases b.body_cases with ⟨ss, hss⟩ | ⟨f, behind, hf, hb, hr⟩
  · -- the statement is read, and nothing is left of it
    obtain ⟨s, hd⟩ := b.derives_tokens hss
    exact absurd (read_of_derives hc.terminated hd) h
  · have hs := b.statement_of_body hf
    obtain ⟨hstatements, hdiagnostics⟩ := read_append_of_closing hc us
    obtain ⟨hs', hd'⟩ := read_of_failure hc hne hs
    rw [hs'] at hstatements
    rw [hd'] at hdiagnostics
    have hremaining : f.remaining <:+ b.body ++ b.ending := by
      rw [hr]
      exact List.suffix_append_self_iff.2 hb
    have hbody : f.resume <:+ b.body ++ b.ending := (suffix_resume f).trans hremaining
    have hfaulty : f.remaining ≠ [] := by
      rw [hr]
      exact List.append_ne_nil_of_right_ne_nil _ (List.cons_ne_nil _ _)
    have hresumes := resumes_resume ((truthful_rules _).statement f hs)
      (b.closing_body.suffix hremaining).terminated hfaulty
    refine ⟨f, behind, f.resume, hs, hb, hr, suffix_resume f, hresumes, hstatements, hdiagnostics,
      ?_, b.resume_eq_nil hb hr⟩
    rw [hstatements, hdiagnostics]
    constructor
    · rintro ⟨-, hlength⟩
      by_cases hn : f.resume = []
      · exact hn
      · have hpos := List.length_pos_iff.2 (b.diagnostics_ne_nil hbody hn)
        simp only [List.cons_append, List.length_cons, List.length_append] at hlength
        omega
    · intro hnil
      rw [hnil, read_nil]
      exact ⟨rfl, rfl⟩

/-- The statement `let f = fn(x) { body };`, all of it on the first line. -/
def bindingOf (body : List Token) (hend : ∀ t ∈ body, t.kind ≠ .endOfInput)
    (hnested : Nested body) : FunctionBinding where
  letWord := ⟨.letWord, "let", 1⟩
  name := ⟨.identifier, "f", 1⟩
  equal := ⟨.equal, "=", 1⟩
  fnWord := ⟨.fnWord, "fn", 1⟩
  openParen := ⟨.leftParen, "(", 1⟩
  parameters := [⟨.identifier, "x", 1⟩]
  closeParen := ⟨.rightParen, ")", 1⟩
  openBrace := ⟨.leftBrace, "\x7b", 1⟩
  body := body
  closeBrace := ⟨.rightBrace, "\x7d", 1⟩
  semicolon := ⟨.semicolon, ";", 1⟩
  letWord_kind := rfl
  name_kind := rfl
  equal_kind := rfl
  fnWord_kind := rfl
  openParen_kind := rfl
  parameters_words := ⟨_, .cons rfl .nil⟩
  closeParen_kind := rfl
  openBrace_kind := rfl
  closeBrace_kind := rfl
  semicolon_kind := rfl
  body_endless := hend
  body_nested := hnested

/-- The tokens of `x +`. -/
def unfinishedSum : List Token :=
  body (Token.scan (Text.Utf8.encode "x +"))

/-- The tokens of `x + ; let y = 1;`. -/
def sumAndBinding : List Token :=
  body (Token.scan (Text.Utf8.encode "x + ; let y = 1;"))

theorem weight_of_mem_unfinishedSum : ∀ t ∈ unfinishedSum, t.kind.weight = 0 := by
  decide +kernel

theorem weight_of_mem_sumAndBinding : ∀ t ∈ sumAndBinding, t.kind.weight = 0 := by
  decide +kernel

/-- The statement `let f = fn(x) { x + };`. -/
def unfinishedBinding : FunctionBinding :=
  bindingOf unfinishedSum (by decide +kernel) (nested_of_weightless weight_of_mem_unfinishedSum)

/-- The statement `let f = fn(x) { x + ; let y = 1; };`. -/
def bindingInside : FunctionBinding :=
  bindingOf sumAndBinding (by decide +kernel) (nested_of_weightless weight_of_mem_sumAndBinding)

/-- The tokens of `let z = 3;`, the end of the input with them. -/
def bindingBehind : List Token :=
  Token.scan (Text.Utf8.encode "let z = 3;")

/-- A body without an operand, and no boundary from there to its brace. -/
theorem read_unfinishedBinding :
    (read unfinishedBinding.tokens).diagnostics ≠ [] ∧
      (read (unfinishedBinding.tokens ++ bindingBehind)).program.statements =
        (read bindingBehind).program.statements ∧
      (read (unfinishedBinding.tokens ++ bindingBehind)).diagnostics.length =
        (read bindingBehind).diagnostics.length + 1 ∧
      (read bindingBehind).program.statements.length = 1 := by
  have hfaulty : (read unfinishedBinding.tokens).diagnostics ≠ [] := by decide +kernel
  have hnone : ∀ t ∈ unfinishedBinding.body, ¬ Boundary t := by decide +kernel
  obtain ⟨f, behind, rest, -, hb, -, -, -, -, -, hwhole, hresume⟩ :=
    read_faultyBinding unfinishedBinding hfaulty bindingBehind
  obtain ⟨hstatements, hlength⟩ := hwhole.2 (hresume fun t ht => hnone t (hb.subset ht))
  refine ⟨hfaulty, hstatements, hlength, ?_⟩
  decide +kernel

/-- **A faulty function is not always dropped as a whole.**  The `let` behind the fault
    becomes a statement of the program, and the brace behind it a second fault. -/
theorem not_dropped_as_a_whole :
    ¬ ∀ (b : FunctionBinding) (us : List Token), (read b.tokens).diagnostics ≠ [] →
      (read (b.tokens ++ us)).program.statements = (read us).program.statements ∧
        (read (b.tokens ++ us)).diagnostics.length = (read us).diagnostics.length + 1 := by
  intro h
  have hfaulty : (read bindingInside.tokens).diagnostics ≠ [] := by decide +kernel
  obtain ⟨hstatements, -⟩ := h bindingInside [] hfaulty
  have hlength := congrArg List.length hstatements
  revert hlength
  decide +kernel

end Program

end Monkey
