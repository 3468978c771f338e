import Monkey.Proofs.Syntax.Canonical

/-!
  Monkey/Proofs/Syntax/RoundTrip.lean
  ===================================
  **Reading undoes printing.**

  Whatever bytes a program was read from, its text is read without a diagnostic and
  as the same program, up to the tokens of its nodes (`reread_readSource`).  Nothing
  is asked of the bytes: they may be no UTF-8 and have statements in them that were
  dropped.

  The scanner spells well, so that all statements that were read are canonical, and
  the text of a canonical program is scanned as a writing of it, which is read as
  what it writes.
-/
namespace Monkey

open Text

namespace Rule

/-- Every statement of a program was read by the rule for statements, from some
    token on. -/
theorem derives_of_mem_rounds {ts : List Token} {s : Statement} (h : .ok s ∈ rounds ts) :
    ∃ us rest, us <:+ ts ∧ Derives (.statement us s rest) := by
  fun_induction rounds ts with
  | case1 => cases h
  | case2 t ts ht => cases h
  | case3 t ts ht s' ts₁ h₁ e ih =>
    have hy : Yields (statement (t :: ts)) s' ts₁ := ⟨h₁, e⟩
    have hd : Derives (.statement (t :: ts) s' ts₁) := derives_iff.2 hy
    rcases List.mem_cons.1 h with h | h
    · cases h
      exact ⟨t :: ts, ts₁, List.suffix_rfl, hd⟩
    · obtain ⟨us, rest, hu, hd'⟩ := ih h
      exact ⟨us, rest, hu.trans (suffix_of_derives hd), hd'⟩
  | case4 t ts ht f e _ ih =>
    have hf : f.remaining <:+ t :: ts :=
      (orderly_rules (t :: ts)).statement.remaining f e
    rcases List.mem_cons.1 h with h | h
    · cases h
    · obtain ⟨us, rest, hu, hd'⟩ := ih h
      exact ⟨us, rest, hu.trans ((suffix_resume f).trans hf), hd'⟩

end Rule

namespace Program

/-- Reads the text of a program. -/
def reread (p : Program) : Reading :=
  readSource (Utf8.encode p.render)

theorem subset_body (tokens : List Token) : ∀ t ∈ body tokens, t ∈ tokens := by
  intro t ht
  unfold body at ht
  split at ht
  · split at ht
    · exact List.dropLast_subset tokens ht
    · exact ht
  · cases ht

/-- All statements that are read are canonical. -/
theorem canonical_readSource (source : List UInt8) :
    ∀ s ∈ (readSource source).program.statements, s.Canonical := by
  intro s hs
  obtain ⟨x, hx, hxs⟩ := List.mem_filterMap.1 hs
  cases x with
  | error f => cases hxs
  | ok s' =>
    cases hxs
    obtain ⟨us, rest, hu, hd⟩ := Rule.derives_of_mem_rounds hx
    refine canonical_of_derives hd fun t ht => ?_
    exact Token.wellSpelt_of_mem_scan (subset_body _ t (hu.subset ht))

/-- The text of a canonical program is read as that program. -/
theorem reread_of_canonical {p : Program} (h : ∀ s ∈ p.statements, s.Canonical) :
    p.reread.diagnostics = [] ∧ p.reread.program.bare = p.bare := by
  obtain ⟨ts, line, hw, e⟩ := spells_statements h 1 [] trivial
  obtain ⟨ss, hr, hb⟩ := Rule.rounds_of_writing hw
  have hs : Token.scan (Utf8.encode p.render) = ts ++ [⟨.endOfInput, "", line⟩] := by
    rw [List.append_nil, Token.scanFrom_nil] at e
    exact e
  have hp : p.reread = { program := { statements := ss }, diagnostics := [] } := by
    rw [reread, readSource, hs]
    exact read_of_rounds rfl hr
  rw [hp]
  refine ⟨rfl, ?_⟩
  rw [bare, hb]
  rfl

/-- Canonical programs with the same text are the same program. -/
theorem bare_eq_of_render_eq {p q : Program} (hp : ∀ s ∈ p.statements, s.Canonical)
    (hq : ∀ s ∈ q.statements, s.Canonical) (h : p.render = q.render) : p.bare = q.bare := by
  have hr : p.reread = q.reread := by rw [reread, reread, h]
  rw [← (reread_of_canonical hp).2, hr, (reread_of_canonical hq).2]

/-- The text of a program that was read, from whatever bytes, is read without a
    diagnostic and as the same program, and so its text is the same again. -/
theorem reread_readSource (source : List UInt8) :
    (readSource source).program.reread.diagnostics = [] ∧
      (readSource source).program.reread.program.bare = (readSource source).program.bare ∧
      (readSource source).program.reread.program.render = (readSource source).program.render := by
  obtain ⟨hd, hb⟩ := reread_of_canonical (canonical_readSource source)
  refine ⟨hd, hb, ?_⟩
  calc (readSource source).program.reread.program.render
    _ = (readSource source).program.reread.program.bare.render := (render_bare _).symm
    _ = (readSource source).program.bare.render := congrArg render hb
    _ = (readSource source).program.render := render_bare _

end Program

end Monkey
