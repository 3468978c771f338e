import Monkey.Proofs.Eval.Bound
import Monkey.Proofs.Eval.Signal

/-!
  Monkey/Proofs/Eval/Parts.lean
  =============================
  **What an evaluation asks for.**

  `σ.GivesBy e p tasks v σ'` says more than that `p` gives `v`: the evaluations that it asks
  for itself are those of `tasks`, in that order, and no others.  This is read off the
  record of the evaluation, which holds them as the parts of its root.

  Rules as for `Run.Ends` say so of recorded runs (`Recorded.Ends`): runs one behind the
  other ask for what the one and then the other asks for, and the run of a phrase for that
  phrase.
-/
namespace Monkey

open Recorded

/-! ### Recorded runs without a bound -/

/-- From some bound on, the recorded run that starts from `σ` ends with `a`, leaves `σ'`
    and records the evaluations of `tasks`. -/
def Recorded.Ends (x : Nat → Recorded α) (σ : Store) (tasks : List Task) (a : α) (σ' : Store) :
    Prop :=
  ∃ n, ∀ m, n ≤ m → ∀ ts, ∃ new, new.map Evaluation.task = tasks ∧
    x m ts σ = some ((a, ts ++ new), σ')

namespace Recorded.Ends

variable {σ σ₁ σ' : Store}

theorem pure (a : α) : Ends (fun _ => Pure.pure a) σ [] a σ :=
  ⟨0, fun _ _ ts => ⟨[], rfl, by rw [List.append_nil]; rfl⟩⟩

theorem bind {x : Nat → Recorded α} {f : Nat → α → Recorded β} {tasks more : List Task} {a : α}
    {b : β} (hx : Ends x σ tasks a σ₁) (hf : Ends (fun n => f n a) σ₁ more b σ') :
    Ends (fun n => x n >>= f n) σ (tasks ++ more) b σ' := by
  obtain ⟨n, hn⟩ := hx
  obtain ⟨m, hm⟩ := hf
  refine ⟨max n m, fun k hk ts => ?_⟩
  obtain ⟨new, ht, hnew⟩ := hn k (Nat.le_trans (Nat.le_max_left n m) hk) ts
  obtain ⟨new', ht', hnew'⟩ := hm k (Nat.le_trans (Nat.le_max_right n m) hk) (ts ++ new)
  refine ⟨new ++ new', by rw [List.map_append, ht, ht'], ?_⟩
  change (x k ts σ).bind (fun p => f k p.1.1 p.1.2 p.2) = _
  rw [hnew, ← List.append_assoc]
  exact hnew'

/-- A value that is no signal is used. -/
theorem proceed {x : Nat → Recorded Value} {use : Nat → Value → Recorded Value}
    {tasks more : List Task} {v w : Value} (hx : Ends x σ tasks v σ₁) (hv : v.isSignal = false)
    (hu : Ends (fun n => use n v) σ₁ more w σ') :
    Ends (fun n => Monkey.proceed (x n) (use n)) σ (tasks ++ more) w σ' := by
  refine hx.bind ?_
  simp only [hv, Bool.false_eq_true, if_false]
  exact hu

end Recorded.Ends

/-! ### Evaluations and their parts -/

/-- An observed run adds one evaluation to the record: the task, with what the run records
    as its parts. -/
theorem Recorded.observe_eq_some_iff {task : Task} {x : Recorded Value} {ts us : List Evaluation}
    {σ σ' : Store} {v : Value} : observe task x ts σ = some ((v, us), σ') ↔
      ∃ parts, x [] σ = some ((v, parts), σ') ∧ us = ts ++ [.mk task σ parts v σ'] := by
  unfold observe
  rcases x [] σ with _ | ⟨⟨w, parts⟩, τ⟩
  · constructor
    · rintro ⟨⟩
    · rintro ⟨parts, h, -⟩
      cases h
  · constructor
    · rintro ⟨⟩
      exact ⟨parts, rfl, rfl⟩
    · rintro ⟨parts, ⟨⟩, rfl⟩
      rfl

/-- The run of a phrase is recorded as the evaluation of that phrase. -/
theorem Store.Gives.recorded {σ σ' : Store} {e : ScopeId} {p : Phrase} {v : Value}
    (h : σ.Gives e p v σ') : Recorded.Ends (fun n => record n p e) σ [.phrase p e] v σ' := by
  obtain ⟨n, hn⟩ := h
  refine ⟨n + 1, fun m hm ts => ?_⟩
  obtain ⟨k, rfl⟩ := Nat.exists_eq_add_of_le' hm
  have he : eval (k + n + 1) p e σ = some (v, σ') := hn _ (by omega)
  rcases follows_record (k + n + 1) p e σ ts with ⟨-, h⟩ | ⟨w, new, τ, hr, h, -⟩
  · rw [he] at h
    cases h
  · rw [he] at h
    cases h
    obtain ⟨parts, -, hnew⟩ := observe_eq_some_iff.1 hr
    rw [List.append_cancel_left hnew] at hr
    exact ⟨_, rfl, hr⟩

/-- From some bound on, evaluating a phrase in a scope of the store `σ` gives `v` and leaves
    the store `σ'`, and it asks for the evaluations of `tasks`, in that order, and for no
    others. -/
def Store.GivesBy (σ : Store) (e : ScopeId) (p : Phrase) (tasks : List Task) (v : Value)
    (σ' : Store) : Prop :=
  ∃ n, ∀ m, n ≤ m → eval m p e σ = some (v, σ') ∧
    ∃ t, evaluation? m p e σ = some t ∧ t.parts.map Evaluation.task = tasks

/-- What the steps of a phrase record are the evaluations that it asks for. -/
theorem Recorded.Ends.givesBy {σ σ' : Store} {e : ScopeId} {p : Phrase} {tasks : List Task}
    {v : Value}
    (h : Recorded.Ends (fun n => p.step
      { phrase := record n
        call := fun callee arguments =>
          observe (.call callee arguments) (callStep (record n) callee arguments) } e)
      σ tasks v σ') : σ.GivesBy e p tasks v σ' := by
  obtain ⟨n, hn⟩ := h
  refine ⟨n + 1, fun m hm => ?_⟩
  obtain ⟨k, rfl⟩ := Nat.exists_eq_add_of_le' hm
  obtain ⟨new, ht, hnew⟩ := hn (k + n) (Nat.le_add_left n k) []
  have hr : record (k + n + 1) p e [] σ =
      some ((v, [.mk (.phrase p e) σ new v σ']), σ') :=
    observe_eq_some_iff.2 ⟨new, hnew, rfl⟩
  have hv : evaluation? (k + n + 1) p e σ = some (.mk (.phrase p e) σ new v σ') := by
    rw [evaluation?, hr]
    rfl
  refine ⟨?_, _, hv, ht⟩
  have he := evaluation?_eq (k + n + 1) p e σ
  rw [hv] at he
  exact he.symm

end Monkey
