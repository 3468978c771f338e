import Monkey.Eval

/-!
  Monkey/Proofs/Eval/Record.lean
  ==============================
  **The record of an evaluation.**

  An evaluation asks for others, and these for others again: the operands of an
  operator, the statements of a block, the body of a function.  `record n` runs a
  phrase as `eval n` does, by the same steps, and writes all of them down as a
  tree: what was evaluated, the stores before and behind it, its value, and its
  parts in the order in which they were run.

  The record changes nothing (`follows_record`): leave it out, and what remains is
  `eval`.
-/
namespace Monkey

/-! ### Trees of evaluations -/

/-- What can be evaluated: a phrase in a scope, or a call. -/
inductive Task where
  | phrase (p : Phrase) (scope : ScopeId)
  | call (callee : Value) (arguments : List Value)

namespace Task

/-- Whether a `return` ends here. -/
def takesReturn : Task → Bool
  | phrase (.program _) _ => true
  | phrase _ _ => false
  | call _ _ => true

/-- The run of a task by itself. -/
def run (n : Nat) : Task → Run Value
  | phrase p scope => eval n p scope
  | call callee arguments => callStep (eval n) callee arguments

/-- What a task makes of the value of its last part. -/
def finish (t : Task) (v : Value) : Value :=
  if t.takesReturn then v.unwrapReturn else v

end Task

/-- An evaluation that has ended. -/
inductive Evaluation where
  | mk (task : Task) (before : Store) (parts : List Evaluation) (value : Value) (after : Store)

namespace Evaluation

def task : Evaluation → Task
  | mk task _ _ _ _ => task

def before : Evaluation → Store
  | mk _ before _ _ _ => before

def parts : Evaluation → List Evaluation
  | mk _ _ parts _ _ => parts

def value : Evaluation → Value
  | mk _ _ _ value _ => value

def after : Evaluation → Store
  | mk _ _ _ _ after => after

/-- `s` is `t` or a part of `t`, at any depth. -/
inductive Within (s : Evaluation) : Evaluation → Prop where
  | here : Within s s
  | part {c t : Evaluation} (hc : c ∈ t.parts) (h : Within s c) : Within s t

/-- `s` is the last evaluation in `t`: it is `t`, or it closes the last part of `t`.
    The tasks strictly around `s`, up to that of `t`, are all in `P`. -/
inductive Closes (P : Task → Prop) (s : Evaluation) : Evaluation → Prop where
  | here : Closes P s s
  | last {c t : Evaluation} {others : List Evaluation} (hp : P t.task)
      (hc : t.parts = others ++ [c]) (h : Closes P s c) : Closes P s t

/-- `b` is the innermost call or program around `s`, and `s` is the last evaluation
    in it. -/
def ReturnsFrom (s b : Evaluation) : Prop :=
  b.task.takesReturn = true ∧
    ∃ c others, b.parts = others ++ [c] ∧ s.Closes (fun task => task.takesReturn = false) c

end Evaluation

/-! ### Recorded runs -/

/-- A run that adds what it evaluates to a record. -/
abbrev Recorded (α : Type) : Type :=
  StateT (List Evaluation) Run α

namespace Recorded

/-- Adds one evaluation to the record, whose parts are what `x` records. -/
def observe (task : Task) (x : Recorded Value) : Recorded Value :=
  fun earlier σ =>
    match x [] σ with
    | some ((v, parts), σ') => some ((v, earlier ++ [.mk task σ parts v σ']), σ')
    | none => none

end Recorded

/-- Evaluates a phrase in a scope, at most `n` evaluations nested in one another,
    and records every evaluation. -/
def record : (n : Nat) → Phrase → ScopeId → Recorded Value
  | 0, _, _ => liftM (Run.tooDeep : Run Value)
  | n + 1, phrase, scope =>
    Recorded.observe (.phrase phrase scope) (phrase.step
      { phrase := record n
        call := fun callee arguments =>
          Recorded.observe (.call callee arguments) (callStep (record n) callee arguments) }
      scope)

/-- The tree of an evaluation that ends. -/
def evaluation? (n : Nat) (p : Phrase) (scope : ScopeId) (σ : Store) : Option Evaluation :=
  (record n p scope [] σ).bind fun r => r.1.2.head?

/-! ### Leaving the record out -/

/-- From the store `σ`, `x` does what `y` does, and `R` holds of what it records,
    its result and the store behind it. -/
def Recorded.Follows (σ : Store) (x : Recorded α) (y : Run α)
    (R : List Evaluation → α → Store → Prop) : Prop :=
  ∀ ts, (x ts σ = none ∧ y σ = none) ∨
    ∃ a new σ', x ts σ = some ((a, ts ++ new), σ') ∧ y σ = some (a, σ') ∧ R new a σ'

namespace Recorded.Follows

variable {σ : Store}

theorem pure {R : List Evaluation → α → Store → Prop} {a : α} (h : R [] a σ) :
    Follows σ (Pure.pure a) (Pure.pure a) R := by
  intro ts
  exact .inr ⟨a, [], σ, by rw [List.append_nil]; rfl, rfl, h⟩

theorem lift (y : Run α) : Follows σ (liftM y) y fun new _ _ => new = [] := by
  intro ts
  rcases hy : y σ with _ | ⟨a, σ'⟩
  · refine .inl ⟨?_, rfl⟩
    change (y σ).bind _ = none
    rw [hy]
    rfl
  · refine .inr ⟨a, [], σ', ?_, rfl, rfl⟩
    change (y σ).bind _ = some ((a, ts ++ []), σ')
    rw [hy, List.append_nil]
    rfl

theorem bind {R : List Evaluation → α → Store → Prop} {S : List Evaluation → β → Store → Prop}
    {x : Recorded α} {y : Run α} {f : α → Recorded β} {g : α → Run β} (hx : Follows σ x y R)
    (hf : ∀ new a σ', R new a σ' →
      Follows σ' (f a) (g a) fun more b σ'' => S (new ++ more) b σ'') :
    Follows σ (x >>= f) (y >>= g) S := by
  intro ts
  have ex : (x >>= f) ts σ = (x ts σ).bind fun p => f p.1.1 p.1.2 p.2 := rfl
  have ey : (y >>= g) σ = (y σ).bind fun p => g p.1 p.2 := rfl
  rw [ex, ey]
  rcases hx ts with ⟨h₁, h₂⟩ | ⟨a, new, σ₁, h₁, h₂, hr⟩
  · exact .inl ⟨by rw [h₁]; rfl, by rw [h₂]; rfl⟩
  · rw [h₁, h₂]
    rcases hf new a σ₁ hr (ts ++ new) with ⟨h₃, h₄⟩ | ⟨b, more, σ₂, h₃, h₄, hs⟩
    · exact .inl ⟨h₃, h₄⟩
    · refine .inr ⟨b, new ++ more, σ₂, ?_, h₄, hs⟩
      rw [← List.append_assoc]
      exact h₃

/-- What is lifted records nothing. -/
theorem bind_lift {S : List Evaluation → β → Store → Prop} (y : Run α) {f : α → Recorded β}
    {g : α → Run β} (h : ∀ a σ', Follows σ' (f a) (g a) S) :
    Follows σ (liftM y >>= f) ((liftM y : Run α) >>= g) S := by
  refine bind (lift y) fun new a σ' hn => ?_
  rw [hn]
  exact h a σ'

theorem mono {R S : List Evaluation → α → Store → Prop} {x : Recorded α} {y : Run α}
    (hx : Follows σ x y R) (h : ∀ new a σ', R new a σ' → S new a σ') : Follows σ x y S := by
  intro ts
  rcases hx ts with hn | ⟨a, new, σ', h₁, h₂, hr⟩
  · exact .inl hn
  · exact .inr ⟨a, new, σ', h₁, h₂, h new a σ' hr⟩

/-- Observing a run records one evaluation, which has what the run records as its
    parts. -/
theorem observe {R : List Evaluation → Value → Store → Prop} {task : Task} {x : Recorded Value}
    {y : Run Value} (hx : Follows σ x y R) :
    Follows σ (observe task x) y fun new v σ' => ∃ parts, y σ = some (v, σ') ∧ R parts v σ' ∧
      new = [.mk task σ parts v σ'] := by
  intro ts
  rcases hx [] with ⟨h₁, h₂⟩ | ⟨v, parts, σ', h₁, h₂, hr⟩
  · exact .inl ⟨by simp only [Recorded.observe, h₁], h₂⟩
  · refine .inr ⟨v, [.mk task σ parts v σ'], σ', ?_, h₂, parts, h₂, hr, rfl⟩
    rw [List.nil_append] at h₁
    simp only [Recorded.observe, h₁]

end Recorded.Follows

end Monkey
