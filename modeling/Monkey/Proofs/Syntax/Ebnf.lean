import Mathlib.Data.List.Chain

/-!
  Monkey/Proofs/Syntax/Ebnf.lean
  ==============================
  **Grammars in extended Backus-Naur form.**

  A grammar gives each rule its right side: terminals and names of rules, put together
  by sequence, alternative, option and repetition.  `Derives g e w` says that the word
  `w` is derived from the right side `e`.

  Two terminals may be neighbours in a word only where a right side puts what ends with
  the one in front of what starts with the other.  That is read off the grammar
  (`Ebnf.meets`), and where no right side does it, no word does (`Apart.isChain`).  A
  grammar may be exchanged for another one where their right sides derive the same, as
  far as they are needed (`Derives.exchange`).
-/
namespace Monkey

/-- The right side of a rule; the rules have names in `N`. -/
inductive Ebnf (N T : Type) where
  | terminal (t : T)
  | rule (n : N)
  | sequence (a b : Ebnf N T)
  | choice (a b : Ebnf N T)
  | maybe (a : Ebnf N T)
  | many (a : Ebnf N T)

namespace Ebnf

variable {N T : Type}

instance : Append (Ebnf N T) := ⟨sequence⟩

instance : OrOp (Ebnf N T) := ⟨choice⟩

/-- One of some terminals. -/
def anyOf (t : T) : List T → Ebnf N T
  | [] => terminal t
  | u :: us => terminal t ||| anyOf u us

/-- The words that a right side derives. -/
inductive Derives (g : N → Ebnf N T) : Ebnf N T → List T → Prop where
  | terminal {t} : Derives g (.terminal t) [t]
  | rule {n w} (h : Derives g (g n) w) : Derives g (.rule n) w
  | append {a b v w} (h : Derives g a v) (h' : Derives g b w) : Derives g (a ++ b) (v ++ w)
  | left {a b w} (h : Derives g a w) : Derives g (a ||| b) w
  | right {a b w} (h : Derives g b w) : Derives g (a ||| b) w
  | absent {a} : Derives g (.maybe a) []
  | present {a w} (h : Derives g a w) : Derives g (.maybe a) w
  | none {a} : Derives g (.many a) []
  | more {a v w} (h : Derives g a v) (h' : Derives g (.many a) w) : Derives g (.many a) (v ++ w)

theorem Derives.of_eq {g : N → Ebnf N T} {e : Ebnf N T} {v w : List T} (h : Derives g e v)
    (hw : w = v) : Derives g e w :=
  hw ▸ h

theorem derives_anyOf {g : N → Ebnf N T} {u t : T} {ts : List T} (h : u ∈ t :: ts) :
    Derives g (anyOf t ts) [u] := by
  induction ts generalizing t with
  | nil =>
    rw [List.mem_singleton.1 h]
    exact .terminal
  | cons s ts ih =>
    rcases List.mem_cons.1 h with rfl | h
    · exact .left .terminal
    · exact .right (ih h)

/-- One more at the end of a repetition. -/
theorem Derives.concat {g : N → Ebnf N T} {a : Ebnf N T} {v w : List T} (h : Derives g (.many a) v)
    (h' : Derives g a w) : Derives g (.many a) (v ++ w) := by
  generalize he : Ebnf.many a = e at h
  induction h with
  | none =>
    cases he
    rw [List.nil_append, ← List.append_nil w]
    exact .more h' .none
  | more h _ _ ih =>
    cases he
    rw [List.append_assoc]
    exact .more h (ih rfl)
  | _ => cases he

/-! ### Neighbours -/

section

variable [DecidableEq T] (x y : T)

/-- Whether the empty word may be derived, if it is not from a rule. -/
def nullable : Ebnf N T → Bool
  | terminal _ | rule _ => false
  | sequence a b => a.nullable && b.nullable
  | choice a b => a.nullable || b.nullable
  | maybe _ | many _ => true

/-- Whether a word may start with `y`, if none does that is derived from a rule. -/
def starts : Ebnf N T → Bool
  | terminal t => t = y
  | rule _ => false
  | sequence a b => a.starts || (a.nullable && b.starts)
  | choice a b => a.starts || b.starts
  | maybe a | many a => a.starts

/-- Whether a word may end with `x`, if none does that is derived from a rule. -/
def ends : Ebnf N T → Bool
  | terminal t => t = x
  | rule _ => false
  | sequence a b => b.ends || (b.nullable && a.ends)
  | choice a b => a.ends || b.ends
  | maybe a | many a => a.ends

/-- Whether `x` may stand in front of `y`, if it does not in words derived from rules. -/
def meets : Ebnf N T → Bool
  | terminal _ | rule _ => false
  | sequence a b => a.meets || b.meets || (a.ends x && b.starts y)
  | choice a b => a.meets || b.meets
  | maybe a => a.meets
  | many a => a.meets || (a.ends x && a.starts y)

/-- No word derived from a rule is empty, starts with `y` or ends with `x`, and no right side
    puts `x` in front of `y`. -/
structure Apart (g : N → Ebnf N T) : Prop where
  nullable : ∀ n, (g n).nullable = false
  starts : ∀ n, (g n).starts y = false
  ends : ∀ n, (g n).ends x = false
  meets : ∀ n, (g n).meets x y = false

end

namespace Apart

variable [DecidableEq T] {x y : T} {g : N → Ebnf N T} {e : Ebnf N T} {w : List T}

theorem nullable_of_nil (hg : Apart x y g) (h : Derives g e w) (hw : w = []) :
    e.nullable = true := by
  induction h with
  | terminal => cases hw
  | @rule n w _ ih => exact absurd (ih hw) (Bool.eq_false_iff.1 (hg.nullable n))
  | append _ _ ih ih' =>
    obtain ⟨hv, hw⟩ := List.append_eq_nil_iff.1 hw
    exact Bool.and_eq_true_iff.2 ⟨ih hv, ih' hw⟩
  | left _ ih => exact Bool.or_eq_true_iff.2 (.inl (ih hw))
  | right _ ih => exact Bool.or_eq_true_iff.2 (.inr (ih hw))
  | absent | present | none | more => rfl

theorem starts_of_head (hg : Apart x y g) (h : Derives g e w) (hw : y ∈ w.head?) :
    e.starts y = true := by
  induction h with
  | @terminal t =>
    cases hw
    exact decide_eq_true rfl
  | @rule n w _ ih => exact absurd (ih hw) (Bool.eq_false_iff.1 (hg.starts n))
  | @append a b v w h _ ih ih' =>
    rcases v with _ | ⟨t, v⟩
    · have hb := Bool.and_eq_true_iff.2 ⟨hg.nullable_of_nil h rfl, ih' hw⟩
      exact Bool.or_eq_true_iff.2 (.inr hb)
    · exact Bool.or_eq_true_iff.2 (.inl (ih hw))
  | left _ ih => exact Bool.or_eq_true_iff.2 (.inl (ih hw))
  | right _ ih => exact Bool.or_eq_true_iff.2 (.inr (ih hw))
  | absent | none => cases hw
  | present _ ih => exact ih hw
  | @more a v w _ _ ih ih' =>
    rcases v with _ | ⟨t, v⟩
    · exact ih' hw
    · exact ih hw

theorem ends_of_getLast (hg : Apart x y g) (h : Derives g e w) (hw : x ∈ w.getLast?) :
    e.ends x = true := by
  induction h with
  | @terminal t =>
    cases hw
    exact decide_eq_true rfl
  | @rule n w _ ih => exact absurd (ih hw) (Bool.eq_false_iff.1 (hg.ends n))
  | @append a b v w _ h' ih ih' =>
    by_cases hne : w = []
    · subst hne
      rw [List.append_nil] at hw
      have ha := Bool.and_eq_true_iff.2 ⟨hg.nullable_of_nil h' rfl, ih hw⟩
      exact Bool.or_eq_true_iff.2 (.inr ha)
    · rw [List.getLast?_append_of_ne_nil v hne] at hw
      exact Bool.or_eq_true_iff.2 (.inl (ih' hw))
  | left _ ih => exact Bool.or_eq_true_iff.2 (.inl (ih hw))
  | right _ ih => exact Bool.or_eq_true_iff.2 (.inr (ih hw))
  | absent | none => cases hw
  | present _ ih => exact ih hw
  | @more a v w _ _ ih ih' =>
    by_cases hne : w = []
    · subst hne
      rw [List.append_nil] at hw
      exact ih hw
    · rw [List.getLast?_append_of_ne_nil v hne] at hw
      exact ih' hw

/-- In no word that is derived, `x` stands directly in front of `y`. -/
theorem isChain (hg : Apart x y g) (h : Derives g e w) (he : e.meets x y = false) :
    w.IsChain fun a b => a = x → b ≠ y := by
  induction h with
  | terminal => exact .singleton _
  | @rule n w _ ih => exact ih (hg.meets n)
  | @append a b v w h h' ih ih' =>
    obtain ⟨hab, hm⟩ := Bool.or_eq_false_iff.1 he
    obtain ⟨ha, hb⟩ := Bool.or_eq_false_iff.1 hab
    refine List.isChain_append.2 ⟨ih ha, ih' hb, ?_⟩
    rintro s hs t ht rfl rfl
    have hn := Bool.and_eq_true_iff.2 ⟨hg.ends_of_getLast h hs, hg.starts_of_head h' ht⟩
    exact Bool.eq_false_iff.1 hm hn
  | left _ ih => exact ih (Bool.or_eq_false_iff.1 he).1
  | right _ ih => exact ih (Bool.or_eq_false_iff.1 he).2
  | absent | none => exact .nil
  | present _ ih => exact ih he
  | @more a v w h h' ih ih' =>
    obtain ⟨ha, hm⟩ := Bool.or_eq_false_iff.1 he
    refine List.isChain_append.2 ⟨ih ha, ih' he, ?_⟩
    rintro s hs t ht rfl rfl
    have hn := Bool.and_eq_true_iff.2 ⟨hg.ends_of_getLast h hs, hg.starts_of_head h' ht⟩
    exact Bool.eq_false_iff.1 hm hn

end Apart

/-! ### Other right sides -/

/-- A word is derived in another grammar too, if of the words whose neighbours are related
    its right sides derive no fewer. -/
theorem Derives.exchange {g g' : N → Ebnf N T} {R : T → T → Prop}
    (hg : ∀ n w, w.IsChain R → Derives g' (g n) w → Derives g' (g' n) w) {e : Ebnf N T}
    {w : List T} (h : Derives g e w) (hw : w.IsChain R) : Derives g' e w := by
  induction h with
  | terminal => exact .terminal
  | @rule n w _ ih => exact .rule (hg n w hw (ih hw))
  | append _ _ ih ih' => exact .append (ih hw.left_of_append) (ih' hw.right_of_append)
  | left _ ih => exact .left (ih hw)
  | right _ ih => exact .right (ih hw)
  | absent => exact .absent
  | present _ ih => exact .present (ih hw)
  | none => exact .none
  | more _ _ ih ih' => exact .more (ih hw.left_of_append) (ih' hw.right_of_append)

end Ebnf

end Monkey
