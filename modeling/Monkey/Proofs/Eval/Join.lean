import Monkey.Proofs.Eval.Bound
import Monkey.Proofs.Eval.Tokens
import Monkey.Proofs.Syntax.Append
import Monkey.Proofs.Syntax.Transport
import Monkey.Proofs.Token.Join

/-!
  Monkey/Proofs/Eval/Join.lean
  ============================
  **A session does not depend on how its text is cut.**

  A session that runs one source and then another comes to the same as one that runs
  the two as a single source, with a line feed between them (`Session.run_join`).
  The first source has to end with a `;` and leave no block open, so that nothing of
  what follows belongs to its last statement, and none of its statements may give a
  signal, which would end the single program there.

  Both ways enumerate the entries of hashes in the order that the session has.  With an
  order for each of them, what they print may differ (`output_depends_on_enumeration`).

  The two ways differ in the lines of the tokens from the second source on, which the
  functions made there keep.  They also differ in when the labels of the second
  source are given out; but the labels are the same, and evaluation does not look at
  the next free one.
-/
namespace Monkey

open Token (lineless moveDown)

theorem Token.keepsText_moveDown (lines : Nat) : KeepsText (moveDown lines) :=
  ⟨fun _ => rfl, fun _ => rfl⟩

/-! ### Reading -/

namespace Program

/-- The statements of the one program and then those of the other. -/
def append (p q : Program) : Program :=
  { statements := p.statements ++ q.statements }

theorem mapTokens_append (f : Token → Token) (p q : Program) :
    (p.append q).mapTokens f = (p.mapTokens f).append (q.mapTokens f) := by
  simp only [append, mapTokens, Statement.mapTokensAll_eq_map, List.map_append]

/-- Two sources with a line feed between them are read as the statements of the first
    and then those of the second, which stand further down. -/
theorem readSource_join {source₁ source₂ : List UInt8}
    (hclean₁ : (readSource source₁).diagnostics = [])
    (hbraces : (Token.scan source₁).countP (·.kind = .leftBrace) =
      (Token.scan source₁).countP (·.kind = .rightBrace))
    (hlast : (body (Token.scan source₁)).getLast?.map Token.kind = some .semicolon)
    (hclean₂ : (readSource source₂).diagnostics = []) :
    ∃ lines, readSource (source₁ ++ Byte.lineFeed :: source₂) =
      { program := (readSource source₁).program.append
          ((readSource source₂).program.mapTokens (moveDown lines))
        diagnostics := [] } := by
  obtain ⟨ts₁, line₁, hs₁, hend₁⟩ := Token.scan_eq source₁
  obtain ⟨ts₂, line₂, hs₂, -⟩ := Token.scan_eq source₂
  rw [hs₁, body_concat rfl] at hlast
  rw [hs₁, List.countP_append, List.countP_append] at hbraces
  rw [readSource, hs₁] at hclean₁
  rw [readSource, hs₂] at hclean₂
  have hkind : ∀ t ∈ ts₁.getLast?, t.kind = .semicolon := by
    intro t ht
    rw [Option.mem_def.1 ht] at hlast
    exact Option.some.inj hlast
  have hts₁ : Rule.Terminated ts₁ := ⟨hend₁, hkind⟩
  have hclosed : ∀ t ∈ ts₁.getLast?, ¬ t.Unclosed := by
    intro t ht hu
    exact absurd ((hkind t ht).symm.trans hu.1) (by decide)
  have hscan : Token.scan (source₁ ++ Byte.lineFeed :: source₂) =
      ts₁ ++ ts₂.map (moveDown line₁) ++ [moveDown line₁ ⟨.endOfInput, "", line₂⟩] := by
    rw [Token.scan_join hs₁ hclosed source₂, hs₂, List.map_append, List.append_assoc]
    rfl
  have hrounds := Rule.rounds_append hts₁ (Rule.excess_eq_zero hbraces) (rounds_of_read rfl hclean₁)
    (ts₂.map (moveDown line₁))
  rw [Rule.rounds_map (Token.keepsText_moveDown line₁) (rounds_of_read rfl hclean₂),
    ← List.map_append] at hrounds
  refine ⟨line₁, ?_⟩
  rw [readSource, hscan, read_of_rounds rfl hrounds, readSource, hs₁, readSource, hs₂]
  rfl

end Program

/-! ### Labels -/

theorem Statement.labelAll_append (ss ts : List Statement) (k : Nat) :
    (Statement.labelAll (ss ++ ts)).run k =
      (((Statement.labelAll ss).run k).1 ++
          ((Statement.labelAll ts).run ((Statement.labelAll ss).run k).2).1,
        ((Statement.labelAll ts).run ((Statement.labelAll ss).run k).2).2) := by
  induction ss generalizing k with
  | nil => rfl
  | cons s ss ih =>
    have hcons (us : List Statement) : (Statement.labelAll (s :: us)).run k =
        ((s.label.run k).1 :: ((Statement.labelAll us).run (s.label.run k).2).1,
          ((Statement.labelAll us).run (s.label.run k).2).2) := rfl
    rw [List.cons_append, hcons, hcons, ih]
    rfl

/-! ### Evaluation -/

/-- No statement gives a signal, if they are evaluated one after another. -/
def Uninterrupted (n : Nat) (e : ScopeId) : List Statement → Store → Prop
  | [], _ => True
  | s :: ss, σ => ∀ v σ', eval n (.statement s) e σ = some (v, σ') →
      v.isSignal = false ∧ Uninterrupted n e ss σ'

/-- Whether the statements all end within a bound, and none of them with a signal. -/
def runsThrough (n : Nat) (e : ScopeId) : List Statement → Store → Bool
  | [], _ => true
  | s :: ss, σ =>
    match eval n (.statement s) e σ with
    | some (v, σ') => !v.isSignal && runsThrough n e ss σ'
    | none => false

theorem uninterrupted_of_runsThrough {m : Nat} {e : ScopeId} {ss : List Statement} {σ : Store}
    (h : runsThrough m e ss σ = true) (n : Nat) : Uninterrupted n e ss σ := by
  induction ss generalizing σ with
  | nil => trivial
  | cons s ss ih =>
    intro v σ' hv
    unfold runsThrough at h
    split at h
    · rename_i w τ hw
      -- whatever the bounds, the statement ends in one way
      have hmax := eval_of_le (Nat.le_max_left n m) hv
      rw [eval_of_le (Nat.le_max_right n m) hw] at hmax
      cases hmax
      simp only [Bool.and_eq_true, Bool.not_eq_true'] at h
      exact ⟨h.1, ih h.2⟩
    · cases h

theorem runStatements_append {n : Nat} {e : ScopeId} {ss ts : List Statement} (ht : ts ≠ [])
    {σ : Store} (hq : Uninterrupted n e ss σ) (last : Value) :
    runStatements (fun s => eval n (.statement s) e) last (ss ++ ts) σ =
      (runStatements (fun s => eval n (.statement s) e) last ss σ).bind fun r =>
        runStatements (fun s => eval n (.statement s) e) .null ts r.2 := by
  have hproceed (s : Statement) (us : List Statement) (last : Value) (σ : Store) :
      runStatements (fun s => eval n (.statement s) e) last (s :: us) σ =
        (eval n (.statement s) e σ).bind fun r => (if r.1.isSignal then Pure.pure r.1
          else runStatements (fun s => eval n (.statement s) e) r.1 us : Run Value) r.2 := rfl
  induction ss generalizing σ last with
  | nil =>
    -- the value in front does not matter, as there is a statement
    obtain ⟨t, ts, rfl⟩ := List.exists_cons_of_ne_nil ht
    rfl
  | cons s ss ih =>
    rw [List.cons_append, hproceed, hproceed]
    rcases hs : eval n (.statement s) e σ with _ | ⟨v, τ⟩
    · rfl
    · obtain ⟨hv, hq'⟩ := hq v τ hs
      simp only [Option.bind_some, hv, if_neg Bool.false_ne_true]
      exact ih hq' v

theorem eval_append {n : Nat} {e : ScopeId} {p q : Program} (hne : q.statements ≠ []) {σ : Store}
    (hq : ∀ n, Uninterrupted n e p.statements σ) :
    eval n (.program (p.append q)) e σ =
      (eval n (.program p) e σ).bind fun r => eval n (.program q) e r.2 := by
  cases n with
  | zero => rfl
  | succ n =>
    have hprogram (p : Program) (σ : Store) : eval (n + 1) (.program p) e σ =
        (runStatements (fun s => eval n (.statement s) e) .null p.statements σ).bind fun r =>
          some (r.1.unwrapReturn, r.2) := rfl
    simp only [hprogram, Program.append, runStatements_append hne (hq n), Option.bind_assoc]
    rfl

theorem Program.label_append (p q : Program) (k : Nat) :
    (p.append q).label.run k = ((p.label.run k).1.append (q.label.run (p.label.run k).2).1,
      (q.label.run (p.label.run k).2).2) := by
  have hlabel (p : Program) (k : Nat) : p.label.run k =
      ({ statements := ((Statement.labelAll p.statements).run k).1 },
        ((Statement.labelAll p.statements).run k).2) := rfl
  rw [hlabel, append, Statement.labelAll_append, hlabel, hlabel]
  rfl

theorem Program.label_ne_nil {p : Program} (h : p.statements ≠ []) (k : Nat) :
    (p.label.run k).1.statements ≠ [] := by
  obtain ⟨s, ss, hs⟩ := List.exists_cons_of_ne_nil h
  obtain ⟨statements⟩ := p
  cases hs
  exact List.cons_ne_nil _ _

/-- The order of hash keys, the other way round. -/
def Enumeration.reversed : Enumeration where
  keys := List.reverse
  perm := List.reverse_perm

namespace Session

theorem run_append (f : Token → Token) {p q : Program} (hne : q.statements ≠ []) (s : Session)
    (hq : ∀ n, Uninterrupted n s.root (s.store.load p).1.statements (s.store.load p).2) (n : Nat) :
    ((s.run n p).bind fun r => r.2.run n q).map (fun r => (r.1.mapTokens f, r.2.mapTokens f)) =
      (s.run n (p.append q)).map fun r => (r.1.mapTokens f, r.2.mapTokens f) := by
  have hlabel := p.label_append q s.store.nextLabel
  have hne' := Program.label_ne_nil hne (p.label.run s.store.nextLabel).2
  change ∀ n, Uninterrupted n s.root (p.label.run s.store.nextLabel).1.statements
    (s.store.withNextLabel (p.label.run s.store.nextLabel).2) at hq
  rw [map_run, hlabel, Option.map_bind, run_eq, Option.bind_map]
  generalize p.label.run s.store.nextLabel = l₁ at *
  generalize hl₂ : q.label.run l₁.2 = l₂ at *
  -- with tokens changed, and the last label as the next one, both are the same run
  have hmaps (p : Program) (σ : Store) :
      eval n (.program (p.mapTokens f)) s.root ((σ.mapTokens f).withNextLabel l₂.2) =
        (eval n (.program p) s.root σ).map fun r =>
          (r.1.mapTokens f, (r.2.mapTokens f).withNextLabel l₂.2) :=
    eval_mapTokens f l₂.2 n (.program p) s.root σ
  have hstore : ((s.store.withNextLabel l₁.2).mapTokens f).withNextLabel l₂.2 =
      (s.store.mapTokens f).withNextLabel l₂.2 := rfl
  rw [← hstore, hmaps, eval_append hne' hq, Option.map_bind, Option.map_bind]
  refine Option.bind_congr fun r hr => ?_
  have hnext : r.2.nextLabel = l₁.2 := nextLabel_eval (v := r.1) hr
  change (Session.run ⟨r.2, s.root⟩ n q).map _ = _
  rw [map_run]
  change Option.map _ (eval n (.program ((q.label.run r.2.nextLabel).1.mapTokens f)) s.root
    ((r.2.mapTokens f).withNextLabel (q.label.run r.2.nextLabel).2)) = _
  rw [hnext, hl₂, hmaps]
  rfl

/-- Outcomes that are the same but for the lines of tokens. -/
def SameUpToLines (a b : Value × Session) : Prop :=
  a.1.mapTokens lineless = b.1.mapTokens lineless ∧
    a.2.mapTokens lineless = b.2.mapTokens lineless ∧ a.2.store.output = b.2.store.output

/-- **A session does not depend on how its text is cut.**  Let the first of two sources be
    read without a diagnostic, have as many `{` as `}` tokens and a `;` as its last
    token, and let none of its statements give a signal in the session.  Let the second
    be read without a diagnostic, as one statement or more.  Then the two with a line
    feed between them are read without a diagnostic too, and running first the one and
    then the other goes beyond the bound if and only if running them as one does.  If
    not, the same is printed, and the value and the session are the same but for the
    lines of tokens. -/
theorem run_join {source₁ source₂ : List UInt8} (s : Session)
    (hclean₁ : (Program.readSource source₁).diagnostics = [])
    (hbraces : (Token.scan source₁).countP (·.kind = .leftBrace) =
      (Token.scan source₁).countP (·.kind = .rightBrace))
    (hlast : (Program.body (Token.scan source₁)).getLast?.map Token.kind = some .semicolon)
    (hrun : ∀ n, Uninterrupted n s.root
      (s.store.load (Program.readSource source₁).program).1.statements
      (s.store.load (Program.readSource source₁).program).2)
    (hclean₂ : (Program.readSource source₂).diagnostics = [])
    (hne : (Program.readSource source₂).program.statements ≠ []) (limit : Nat) :
    (Program.readSource (source₁ ++ Byte.lineFeed :: source₂)).diagnostics = [] ∧
      Option.Rel SameUpToLines
        ((s.run limit (Program.readSource source₁).program).bind fun r =>
          r.2.run limit (Program.readSource source₂).program)
        (s.run limit (Program.readSource (source₁ ++ Byte.lineFeed :: source₂)).program) := by
  obtain ⟨lines, hread⟩ := Program.readSource_join hclean₁ hbraces hlast hclean₂
  rw [hread]
  refine ⟨rfl, ?_⟩
  generalize (Program.readSource source₁).program = p at hrun ⊢
  generalize (Program.readSource source₂).program = q at hne ⊢
  have hlines : (p.append (q.mapTokens (moveDown lines))).mapTokens lineless =
      (p.append q).mapTokens lineless := by
    rw [Program.mapTokens_append, Program.mapTokens_append, Program.mapTokens_mapTokens]
    rfl
  have h : ((s.run limit p).bind fun r => r.2.run limit q).map
        (fun r => (r.1.mapTokens lineless, r.2.mapTokens lineless)) =
      (s.run limit (p.append (q.mapTokens (moveDown lines)))).map
        fun r => (r.1.mapTokens lineless, r.2.mapTokens lineless) := by
    rw [run_append lineless hne s hrun, ← run_mapTokens, ← run_mapTokens, hlines]
  exact rel_of_map_eq h fun a b hv ht => ⟨hv, ht, congrArg (fun u => u.store.output) ht⟩

/-- A source that binds a function, with a comment behind it. -/
def bindFunctionSource : List UInt8 :=
  Text.Utf8.encode "let f = fn(x) \x7b puts(x); x \x7d; // prints"

/-- A source that calls it. -/
def callFunctionSource : List UInt8 :=
  Text.Utf8.encode "f(1)"

/-- The function is called from the second source on a line of its own, or from the
    same source as the one that binds it. -/
theorem run_join_bindFunction :
    ∃ a b, ((start.run 20 (Program.readSource bindFunctionSource).program).bind fun r =>
        r.2.run 20 (Program.readSource callFunctionSource).program) = some a ∧
      start.run 20 (Program.readSource
        (bindFunctionSource ++ Byte.lineFeed :: callFunctionSource)).program = some b ∧
      SameUpToLines a b ∧ b.1.render = "1" ∧ b.2.store.output = "1\n" := by
  have hrun : ∀ n, Uninterrupted n start.root
      (start.store.load (Program.readSource bindFunctionSource).program).1.statements
      (start.store.load (Program.readSource bindFunctionSource).program).2 :=
    uninterrupted_of_runsThrough (m := 9) (by decide +kernel)
  have hrel := (run_join start (by decide +kernel) (by decide +kernel) (by decide +kernel) hrun
    (show (Program.readSource callFunctionSource).diagnostics = [] by decide +kernel)
    (List.ne_nil_of_length_pos (by decide +kernel)) 20).2
  have hvalue : (start.run 20 (Program.readSource
      (bindFunctionSource ++ Byte.lineFeed :: callFunctionSource)).program).map
        (fun r => (r.1.render, r.2.store.output)) = some ("1", "1\n") := by
    decide +kernel
  generalize (start.run 20 (Program.readSource bindFunctionSource).program).bind _ = x at hrel ⊢
  generalize start.run 20 _ = y at hrel hvalue ⊢
  cases hrel with
  | none => cases hvalue
  | @some a b h =>
    obtain ⟨hv, ho⟩ := Prod.mk.inj (Option.some.inj hvalue)
    exact ⟨a, b, rfl, rfl, h, hv, ho⟩

/-- A source that binds a hash. -/
def bindHashSource : List UInt8 :=
  Text.Utf8.encode "let h = \x7b1: 1, 2: 2, 3: 3\x7d;"

/-- A source that prints it. -/
def printHashSource : List UInt8 :=
  Text.Utf8.encode "puts(h); 1"

/-- **What is printed depends on the order of the entries of hashes.**  Where the two ways
    enumerate a hash in different orders, they print it differently. -/
theorem output_depends_on_enumeration :
    ¬ ∀ (o o' : Enumeration) (source₁ source₂ : List UInt8),
      (Program.readSource source₁).diagnostics = [] →
      (Token.scan source₁).countP (·.kind = .leftBrace) =
        (Token.scan source₁).countP (·.kind = .rightBrace) →
      (Program.body (Token.scan source₁)).getLast?.map Token.kind = some .semicolon →
      (∀ n, Uninterrupted n (start o).root
        ((start o).store.load (Program.readSource source₁).program).1.statements
        ((start o).store.load (Program.readSource source₁).program).2) →
      (Program.readSource source₂).diagnostics = [] →
      (Program.readSource source₂).program.statements ≠ [] →
      ∀ limit, (((start o).run limit (Program.readSource source₁).program).bind fun r =>
          r.2.run limit (Program.readSource source₂).program).map (fun r => r.2.store.output) =
        ((start o').run limit (Program.readSource
          (source₁ ++ Byte.lineFeed :: source₂)).program).map fun r => r.2.store.output := by
  intro h
  have he := h .stored .reversed bindHashSource printHashSource (by decide +kernel)
    (by decide +kernel) (by decide +kernel)
    (uninterrupted_of_runsThrough (m := 9) (by decide +kernel)) (by decide +kernel)
    (List.ne_nil_of_length_pos (by decide +kernel)) 20
  revert he
  decide +kernel

end Session

end Monkey
