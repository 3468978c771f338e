import Monkey.Digest
import Monkey.Syntax
import Monkey.Text.Utf8

/-!
  Monkey/Value.lean
  =================
  **Values.**

  What a program computes.  Two sorts of values are signals: an error, and a
  value on its way out of a `return`.  Whatever meets a signal hands it on.

  Integers, booleans and strings have a hash key.  The entries of a hash are filed
  in the order of their hash keys, one entry for each key, so that two hashes with
  the same entries are the same value.  This order is not the one in which they are
  written (`Monkey.Value.Enumeration`).
-/
namespace Monkey

open Text

/-! ### Hash keys -/

/-- The sorts of values that have a hash key. -/
inductive HashTag where
  | integer
  | boolean
  | string
deriving DecidableEq, Repr

/-- The name of the sort of a hash key. -/
def HashTag.name : HashTag → String
  | integer => "Integer"
  | boolean => "Boolean"
  | string => "String"

/-- The place of a sort in the order of hash keys. -/
def HashTag.rank : HashTag → Nat
  | integer => 0
  | boolean => 1
  | string => 2

/-- A sort and a digest.  Keys of different sorts differ even where their digests
    agree. -/
structure HashKey where
  tag : HashTag
  digest : UInt64
deriving DecidableEq, Repr

/-- Hash keys are ordered by sort and then by digest. -/
def HashKey.precedes (a b : HashKey) : Bool :=
  a.tag.rank < b.tag.rank || (a.tag.rank == b.tag.rank && a.digest < b.digest)

/-! ### Values -/

/-- The built-in functions. -/
inductive Builtin where
  | len
  | first
  | last
  | rest
  | push
  | puts
deriving DecidableEq, Repr

/-- A scope of the store, by its index. -/
abbrev ScopeId : Type := Nat

/-- A function: the literal that made it and the scope that was current then. -/
structure Closure where
  literal : FunctionLiteral
  scope : ScopeId
deriving Repr

mutual

/-- Values. -/
inductive Value where
  | integer (i : Int64)
  | boolean (b : Bool)
  | string (s : String)
  | null
  | array (elements : List Value)
  | hash (entries : List Entry)
  | function (closure : Closure)
  | builtin (b : Builtin)
  /-- A value on its way out of a `return`. -/
  | returned (v : Value)
  | error (message : String)

/-- An entry of a hash: the hash key under which it is filed, and the key and
    the value as they were given. -/
structure Entry where
  filed : HashKey
  key : Value
  value : Value

end

deriving instance Repr for Value, Entry
deriving instance Inhabited for Value

/-! ### Sorts of values -/

/-- The sorts of values. -/
inductive ValueSort where
  | integer
  | boolean
  | string
  | null
  | array
  | hash
  | function
  | builtin
  | returned
  | error
deriving DecidableEq, Repr

/-- The name of a sort, as messages write it (`type_name`). -/
def ValueSort.name : ValueSort → String
  | integer => "INTEGER"
  | boolean => "BOOLEAN"
  | string => "STRING"
  | null => "NULL"
  | array => "ARRAY"
  | hash => "HASH"
  | function => "FUNCTION"
  | builtin => "BUILTIN"
  | returned => "RETURN_VALUE"
  | error => "ERROR"

namespace Value

/-- The sort of a value. -/
def sort : Value → ValueSort
  | integer _ => .integer
  | boolean _ => .boolean
  | string _ => .string
  | null => .null
  | array _ => .array
  | hash _ => .hash
  | function _ => .function
  | builtin _ => .builtin
  | returned _ => .returned
  | error _ => .error

/-- Only `null` and `false` count as false (`is_truthy`). -/
def isTruthy : Value → Bool
  | null => false
  | boolean b => b
  | _ => true

/-- Whether a value is an error (`is_error`). -/
def isError : Value → Bool
  | error _ => true
  | _ => false

/-- Whether a value is handed on by whatever meets it (`is_signal`). -/
def isSignal : Value → Bool
  | error _ => true
  | returned _ => true
  | _ => false

/-- Takes one `return` off a value; any other value stays as it is. -/
def unwrapReturn : Value → Value
  | returned v => v
  | v => v

/-- The hash key of an integer, a boolean or a string (`hash_key`). -/
def hashKey? : Value → Option HashKey
  | integer i => some { tag := .integer, digest := i.toUInt64 }
  | boolean b => some { tag := .boolean, digest := if b then 1 else 0 }
  | string s => some { tag := .string, digest := Digest.fnv1a (Utf8.encode s) }
  | _ => none

end Value

/-! ### The entries of a hash -/

namespace Entry

/-- Files an entry in its place; an entry under the same hash key is replaced. -/
def insert (e : Entry) : List Entry → List Entry
  | [] => [e]
  | d :: ds =>
    if e.filed = d.filed then e :: ds
    else if e.filed.precedes d.filed then e :: d :: ds
    else d :: insert e ds

/-- The entry that is filed under a hash key. -/
def find? (k : HashKey) (entries : List Entry) : Option Entry :=
  List.find? (fun e => e.filed == k) entries

/-- What was filed last under a hash key is what is found there; under every
    other key nothing changes. -/
theorem find?_insert (k : HashKey) (e : Entry) (entries : List Entry) :
    find? k (insert e entries) = if e.filed = k then some e else find? k entries := by
  induction entries with
  | nil => simp [insert, find?, List.find?_cons]; split <;> simp_all
  | cons d ds ih =>
    simp only [find?] at ih
    unfold insert
    split
    · rename_i h
      simp only [find?, List.find?_cons, ← h]
      split <;> simp_all
    · split
      · simp only [find?, List.find?_cons]
        split <;> simp_all
      · simp only [find?, List.find?_cons, ih]
        split <;> split <;> simp_all

end Entry

end Monkey
