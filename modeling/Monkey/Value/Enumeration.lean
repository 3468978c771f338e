import Monkey.Value

/-!
  Monkey/Value/Enumeration.lean
  =============================
  **The order in which the entries of a hash are written.**

  A hash has no order: entries are found by their hash keys, and hashes are compared
  entry by entry.  Only its text has the entries one behind another, and the order in
  which they stand there is left open; it may be another one each time a hash is made.

  An `Enumeration` is an order that is fixed by the entries: it goes by the hash keys
  that are there, and not by when or how they were filed.  What is shown of programs
  that print hashes is shown for every enumeration, and where two runs are compared it
  is assumed that both have the same.
-/
namespace Monkey

/-- An order for every set of hash keys. -/
structure Enumeration where
  /-- The hash keys of a hash, in the order in which its entries are written. -/
  keys : List HashKey → List HashKey
  perm : ∀ ks, (keys ks).Perm ks

namespace Enumeration

/-- The order in which entries are filed. -/
def stored : Enumeration where
  keys := id
  perm _ := .refl _

instance : Inhabited Enumeration := ⟨stored⟩

/-- What stands under hash keys, in the order of an enumeration. -/
def arrange (o : Enumeration) (xs : List (HashKey × α)) : List α :=
  (o.keys (xs.map Prod.fst)).filterMap fun k => xs.lookup k

end Enumeration

end Monkey
