import Monkey.Eval

/-!
  Monkey/Proofs/Eval/Operators.lean
  =================================
  **What operators and built-in functions make of values.**

  They make integers, booleans, strings, null and errors.  Besides they copy: an element
  of an array, a value of a hash, or some of the elements into a new array.  So a class
  of values that holds what they make and is closed under copying (`Value.Closed`) is
  not left by them, except for errors.
-/
namespace Monkey

namespace Value

/-- A class that holds of integers, booleans, strings and null, of arrays if and only if
    it holds of their elements, and of a hash only if it holds of its values. -/
structure Closed (P : Value → Prop) : Prop where
  integer : ∀ i, P (.integer i)
  boolean : ∀ b, P (.boolean b)
  string : ∀ s, P (.string s)
  null : P .null
  array : ∀ {elements : List Value}, (∀ v ∈ elements, P v) → P (.array elements)
  elements : ∀ {elements : List Value}, P (.array elements) → ∀ v ∈ elements, P v
  values : ∀ {entries : List Entry}, P (.hash entries) → ∀ e ∈ entries, P e.value

/-- The class holds of the value, or the value is an error. -/
inductive OrError (P : Value → Prop) : Value → Prop where
  | of {v : Value} (h : P v) : OrError P v
  | error (message : String) : OrError P (.error message)

variable {P : Value → Prop}

theorem orError_toValue (f : Fault) : f.toValue.OrError P :=
  .error f.message

/-- Indexing copies an element of an array or a value of a hash. -/
theorem Closed.at (hP : Closed P) {a : Value} (h : P a) (i : Value) : (a.at i).OrError P := by
  unfold Value.at
  split
  · rename_i elements k
    by_cases hk : k < 0
    · rw [if_pos hk]
      exact .of hP.null
    · rw [if_neg hk]
      cases he : elements[k.toInt.toNat]? with
      | none => exact .of hP.null
      | some v => exact .of (hP.elements h v (List.mem_of_getElem? he))
  · rename_i entries
    cases i.hashKey? with
    | none => exact orError_toValue _
    | some k =>
      simp only
      cases he : Entry.find? k entries with
      | none => exact .of hP.null
      | some e => exact .of (hP.values h e (List.mem_of_find?_eq_some he))
  · exact orError_toValue _

end Value

open Value

variable {P : Value → Prop}

/-! ### Operators -/

theorem PrefixOperator.orError_apply (hP : Closed P) (op : PrefixOperator) (v : Value) :
    (op.apply v).OrError P := by
  cases op with
  | bang => exact .of (hP.boolean _)
  | minus =>
    cases v with
    | integer i => exact .of (hP.integer _)
    | _ => exact orError_toValue _

theorem InfixOperator.orError_applyIntegers (hP : Closed P) (op : InfixOperator) (a b : Int64) :
    (op.applyIntegers a b).OrError P := by
  cases op with
  | plus | minus | star => exact .of (hP.integer _)
  | slash =>
    by_cases h : b = 0
    · simp only [applyIntegers, if_pos h]
      exact orError_toValue _
    · simp only [applyIntegers, if_neg h]
      exact .of (hP.integer _)
  | less | greater | equal | notEqual => exact .of (hP.boolean _)

theorem InfixOperator.orError_apply (hP : Closed P) (op : InfixOperator) (a b : Value) :
    (op.apply a b).OrError P := by
  unfold apply
  split
  · exact orError_applyIntegers hP _ _ _
  · exact .of (hP.boolean _)
  · exact .of (hP.boolean _)
  · exact .of (hP.string _)
  · split <;> exact orError_toValue _

/-! ### Built-in functions -/

namespace Builtin

theorem orError_withArray (hP : Closed P) {b : Builtin} {v : Value} {f : List Value → Value}
    (h : P v) (hf : ∀ elements, (∀ w ∈ elements, P w) → P (f elements)) :
    (withArray b v f).OrError P := by
  cases v with
  | array elements => exact .of (hf elements (hP.elements h))
  | _ => exact orError_toValue _

/-- Built-in functions copy elements of their arguments. -/
theorem orError_result (hP : Closed P) (b : Builtin) {arguments : List Value}
    (h : ∀ v ∈ arguments, P v) : (b.result arguments).OrError P := by
  unfold result
  split
  case h_1 => exact .of (hP.integer _)
  case h_2 => exact .of (hP.integer _)
  case h_5 v =>
    refine orError_withArray hP (h v List.mem_cons_self) fun elements he => ?_
    rcases hw : elements.head? with _ | w
    · exact hP.null
    · exact he w (List.mem_of_head? hw)
  case h_7 v =>
    refine orError_withArray hP (h v List.mem_cons_self) fun elements he => ?_
    rcases hw : elements.getLast? with _ | w
    · exact hP.null
    · exact he w (List.mem_of_getLast? hw)
  case h_9 v =>
    refine orError_withArray hP (h v List.mem_cons_self) fun elements he => ?_
    split
    · exact hP.null
    · exact hP.array fun w hw => he w (List.mem_of_mem_tail hw)
  case h_11 v new =>
    refine orError_withArray hP (h v List.mem_cons_self) fun elements he => hP.array fun w hw => ?_
    rcases List.mem_append.1 hw with hw | hw
    · exact he w hw
    · rw [List.mem_singleton.1 hw]
      exact h new (List.mem_cons_of_mem _ List.mem_cons_self)
  case h_13 => exact .of hP.null
  all_goals exact orError_toValue _

end Builtin

end Monkey
