import Monkey.Proofs.Eval.Rules
import Monkey.Session

/-!
  Monkey/Proofs/Eval/Arithmetic.lean
  ==================================
  **Integers are computed modulo `2^64`.**

  An expression made of integers, of variables bound to integers, and of negations,
  sums, differences and products has a value over the unbounded integers
  (`Expr.Denotes`).  What its evaluation gives stands for that value in the range from
  `-2^63` to `2^63 - 1` (`Stands`), however many intermediate results fall out of
  the range.  Each operator passes that on, so the proof is an induction on the tree.
-/
namespace Monkey

/-! ### Integers modulo `2^64` -/

/-- `i` stands for `z`: it is the one number from `-2^63` to `2^63 - 1` that is congruent
    to `z` modulo `2^64`. -/
def Stands (i : Int64) (z : Int) : Prop :=
  ∀ r : Int, r = i.toInt ↔
    Int64.minValue.toInt ≤ r ∧ r ≤ Int64.maxValue.toInt ∧ r % Int64.size = z % Int64.size

theorem stands_ofInt (z : Int) : Stands (Int64.ofInt z) z := by
  intro r
  have hmin : Int64.minValue.toInt = -9223372036854775808 := rfl
  have hmax : Int64.maxValue.toInt = 9223372036854775807 := rfl
  rw [Int64.toInt_ofInt, Int.bmod_def, hmin, hmax]
  simp only [Int64.size]
  omega

/-! ### Values over the unbounded integers -/

/-- What an operator does to unbounded integers.  Only sums, differences and products are
    taken there. -/
def InfixOperator.unbounded? : InfixOperator → Option (Int → Int → Int)
  | plus => some (· + ·)
  | minus => some (· - ·)
  | star => some (· * ·)
  | _ => none

/-- On integers that stand for others, an operator does what it does to those. -/
theorem InfixOperator.apply_ofInt {op : InfixOperator} {f : Int → Int → Int}
    (h : op.unbounded? = some f) (y z : Int) :
    op.apply (.integer (Int64.ofInt y)) (.integer (Int64.ofInt z)) =
      .integer (Int64.ofInt (f y z)) := by
  cases op with
  | plus =>
    cases h
    rw [Int64.ofInt_add]
    rfl
  | minus =>
    cases h
    rw [Int64.ofInt_sub]
    rfl
  | star =>
    cases h
    rw [Int64.ofInt_mul]
    rfl
  | _ => cases h

/-- The value over the unbounded integers of an expression made of integers, variables
    bound to integers, negations, sums, differences and products. -/
inductive Expr.Denotes (bound : String → Option Value) : Expr → Int → Prop where
  | integer (t : Token) (i : Int64) : Denotes bound (.integer t i) i.toInt
  | identifier {id : Identifier} {i : Int64} (h : bound id.name = some (.integer i)) :
      Denotes bound (.identifier id) i.toInt
  | negation (t : Token) {x : Expr} {z : Int} (h : Denotes bound x z) :
      Denotes bound (.prefixOp t .minus x) (-z)
  | operation (t : Token) {op : InfixOperator} {f : Int → Int → Int} {a b : Expr} {y z : Int}
      (hf : op.unbounded? = some f) (ha : Denotes bound a y) (hb : Denotes bound b z) :
      Denotes bound (.infixOp t a op b) (f y z)

theorem Expr.Denotes.gives {σ : Store} {e : ScopeId} {x : Expr} {z : Int}
    (h : x.Denotes (σ.lookup e) z) : σ.Gives e (.expression x) (.integer (Int64.ofInt z)) σ := by
  induction h with
  | integer t i =>
    rw [Int64.ofInt_toInt]
    exact .integer t i
  | identifier h =>
    rw [Int64.ofInt_toInt]
    exact .identifier h
  | negation t _ ih =>
    rw [Int64.ofInt_neg]
    exact .prefixOp t .minus ih rfl
  | operation t hf _ _ iha ihb =>
    rw [← InfixOperator.apply_ofInt hf]
    exact .infixOp t _ iha rfl ihb rfl

/-- **Integers are computed modulo `2^64`.**  An expression made of integers, variables bound
    to integers, negations, sums, differences and products gives the one integer from
    `-2^63` to `2^63 - 1` that is congruent modulo `2^64` to its value over the unbounded
    integers, and changes nothing in the store. -/
theorem Expr.gives_modulo {σ : Store} {e : ScopeId} {x : Expr} {z : Int}
    (h : x.Denotes (σ.lookup e) z) :
    ∃ i, Stands i z ∧ σ.Gives e (.expression x) (.integer i) σ :=
  ⟨Int64.ofInt z, stands_ofInt z, h.gives⟩

/-- The expression `-x * 3 - 9223372036854775807 + x`. -/
def Expr.overflowing : Expr :=
  .infixOp default
    (.infixOp default
      (.infixOp default (.prefixOp default .minus (.identifier ⟨default, "x"⟩)) .star
        (.integer default 3))
      .minus (.integer default 9223372036854775807))
    .plus (.identifier ⟨default, "x"⟩)

/-- A root scope that binds `x` to the least integer. -/
def Store.leastBound : Store :=
  Session.start.store.define 0 "x" (.integer Int64.minValue)

/-- With the least integer as `x` the negation, the product and the sum are all out of the
    range, and `9223372036854775809` comes out as `-9223372036854775807`. -/
theorem Expr.gives_overflowing :
    Expr.overflowing.Denotes (Store.leastBound.lookup 0) 9223372036854775809 ∧
      ∃ i, i.toInt = -9223372036854775807 ∧
        Store.leastBound.Gives 0 (.expression .overflowing) (.integer i) .leastBound := by
  have hx : (Expr.identifier ⟨default, "x"⟩).Denotes (Store.leastBound.lookup 0)
      Int64.minValue.toInt := by
    apply Denotes.identifier
    rw [Store.lookup]
    rfl
  have hstar : InfixOperator.star.unbounded? = some (· * ·) := rfl
  have hminus : InfixOperator.minus.unbounded? = some (· - ·) := rfl
  have hplus : InfixOperator.plus.unbounded? = some (· + ·) := rfl
  have hproduct := Denotes.operation default hstar (.negation default hx) (.integer default 3)
  have hdifference := Denotes.operation default hminus hproduct
    (.integer default 9223372036854775807)
  have hsum : Expr.overflowing.Denotes (Store.leastBound.lookup 0)
      (-Int64.minValue.toInt * Int64.toInt 3 - Int64.toInt 9223372036854775807 +
        Int64.minValue.toInt) :=
    .operation default hplus hdifference hx
  have hz : -Int64.minValue.toInt * Int64.toInt 3 - Int64.toInt 9223372036854775807 +
      Int64.minValue.toInt = 9223372036854775809 := by
    decide
  rw [hz] at hsum
  obtain ⟨i, hi, hg⟩ := Expr.gives_modulo hsum
  exact ⟨hsum, i, ((hi (-9223372036854775807)).2 (by decide)).symm, hg⟩

end Monkey
