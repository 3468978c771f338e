import Monkey.Builtin
import Monkey.Store
import Monkey.Syntax.MapTokens

/-!
  Monkey/Value/MapTokens.lean
  ===========================
  **Changing the tokens in values and stores.**

  The only tokens of a value are those in the literals of functions, which may lie
  anywhere in it.  Nothing that is asked of a value depends on them: neither its
  sort, nor its hash key, nor its text.  So it is of no account whether tokens are
  changed before a value is used or after (`Value.render_mapTokens`,
  `Entry.insert_mapTokens`, `Builtin.result_mapTokens`), and whether before a name
  is looked up or after (`Store.lookup_mapTokens`).
-/
namespace Monkey

variable (f : Token → Token)

def Closure.mapTokens (c : Closure) : Closure :=
  { c with literal := c.literal.mapTokens f }

mutual

def Value.mapTokens : Value → Value
  | .integer i => .integer i
  | .boolean b => .boolean b
  | .string s => .string s
  | .null => .null
  | .array elements => .array (Value.mapTokensAll elements)
  | .hash entries => .hash (Entry.mapTokensAll entries)
  | .function closure => .function (closure.mapTokens f)
  | .builtin b => .builtin b
  | .returned v => .returned v.mapTokens
  | .error message => .error message

def Value.mapTokensAll : List Value → List Value
  | [] => []
  | v :: vs => v.mapTokens :: Value.mapTokensAll vs

def Entry.mapTokens : Entry → Entry
  | ⟨filed, key, value⟩ => ⟨filed, key.mapTokens, value.mapTokens⟩

def Entry.mapTokensAll : List Entry → List Entry
  | [] => []
  | e :: es => e.mapTokens :: Entry.mapTokensAll es

end

theorem Value.mapTokensAll_eq_map (vs : List Value) :
    Value.mapTokensAll f vs = vs.map (Value.mapTokens f) := by
  induction vs with
  | nil => rfl
  | cons v vs ih => simp only [Value.mapTokensAll, List.map_cons, ih]

theorem Entry.mapTokensAll_eq_map (es : List Entry) :
    Entry.mapTokensAll f es = es.map (Entry.mapTokens f) := by
  induction es with
  | nil => rfl
  | cons e es ih => simp only [Entry.mapTokensAll, List.map_cons, ih]

/-! ### What is asked of a value -/

namespace Value

@[simp] theorem sort_mapTokens (v : Value) : (v.mapTokens f).sort = v.sort := by
  cases v <;> rfl

@[simp] theorem isTruthy_mapTokens (v : Value) : (v.mapTokens f).isTruthy = v.isTruthy := by
  cases v <;> rfl

@[simp] theorem isSignal_mapTokens (v : Value) : (v.mapTokens f).isSignal = v.isSignal := by
  cases v <;> rfl

@[simp] theorem hashKey?_mapTokens (v : Value) : (v.mapTokens f).hashKey? = v.hashKey? := by
  cases v <;> rfl

theorem unwrapReturn_mapTokens (v : Value) :
    (v.mapTokens f).unwrapReturn = v.unwrapReturn.mapTokens f := by
  cases v <;> rfl

/-- What is missing is null, whatever the tokens. -/
theorem getD_mapTokens (o : Option Value) :
    (o.map (mapTokens f)).getD .null = (o.getD .null).mapTokens f := by
  cases o <;> rfl

theorem mapTokens_eq_error {v : Value} {message : String} :
    v.mapTokens f = .error message ↔ v = .error message := by
  cases v <;> simp only [mapTokens, reduceCtorEq, error.injEq]

end Value

theorem Entry.filed_mapTokens (e : Entry) : (e.mapTokens f).filed = e.filed := by
  cases e
  rfl

mutual

@[simp] theorem Value.render_mapTokens (o : Enumeration) (v : Value) :
    (v.mapTokens f).render o = v.render o := by
  cases v with
  | integer | boolean | string | null | builtin | error => rfl
  | array elements =>
    exact congrArg (fun ts => "[" ++ ", ".intercalate ts ++ "]")
      (Value.renderAll_mapTokensAll o elements)
  | hash entries =>
    exact congrArg (fun ts => "\x7b" ++ ", ".intercalate (o.arrange ts) ++ "\x7d")
      (Entry.renderAll_mapTokensAll o entries)
  | function closure => exact closure.literal.render_mapTokens f
  | returned v => exact v.render_mapTokens o

theorem Value.renderAll_mapTokensAll (o : Enumeration) (vs : List Value) :
    Value.renderAll o (Value.mapTokensAll f vs) = Value.renderAll o vs := by
  cases vs with
  | nil => rfl
  | cons v vs =>
    simp only [Value.mapTokensAll, Value.renderAll, v.render_mapTokens,
      Value.renderAll_mapTokensAll o vs]

theorem Entry.render_mapTokens (o : Enumeration) (e : Entry) :
    (e.mapTokens f).render o = e.render o := by
  obtain ⟨filed, key, value⟩ := e
  simp only [Entry.mapTokens, Entry.render, key.render_mapTokens, value.render_mapTokens]

theorem Entry.renderAll_mapTokensAll (o : Enumeration) (es : List Entry) :
    Entry.renderAll o (Entry.mapTokensAll f es) = Entry.renderAll o es := by
  cases es with
  | nil => rfl
  | cons e es =>
    simp only [Entry.mapTokensAll, Entry.renderAll, e.render_mapTokens,
      Entry.filed_mapTokens, Entry.renderAll_mapTokensAll o es]

end

/-! ### Hashes -/

namespace Entry

theorem insert_mapTokens (e : Entry) (es : List Entry) :
    insert (e.mapTokens f) (mapTokensAll f es) = mapTokensAll f (insert e es) := by
  induction es with
  | nil => rfl
  | cons d ds ih =>
    simp only [mapTokensAll, insert, filed_mapTokens]
    by_cases h : e.filed = d.filed
    · simp only [if_pos h, mapTokensAll]
    · by_cases hp : e.filed.precedes d.filed = true
      · simp only [if_neg h, if_pos hp, mapTokensAll]
      · simp only [if_neg h, if_neg hp, mapTokensAll, ih]

theorem find?_mapTokens (k : HashKey) (es : List Entry) :
    find? k (mapTokensAll f es) = (find? k es).map (mapTokens f) := by
  have h : (fun e : Entry => e.filed == k) ∘ mapTokens f = fun e => e.filed == k := by
    funext e
    exact congrArg (· == k) (filed_mapTokens f e)
  rw [mapTokensAll_eq_map, find?, List.find?_map, h, find?]

end Entry

/-! ### Built-in functions -/

namespace Builtin

theorem withArray_mapTokens (b : Builtin) (v : Value) {h h' : List Value → Value}
    (hh : ∀ vs, h' (Value.mapTokensAll f vs) = (h vs).mapTokens f) :
    b.withArray (v.mapTokens f) h' = (b.withArray v h).mapTokens f := by
  cases v with
  | array elements => exact hh elements
  | _ => rfl

theorem result_mapTokens (b : Builtin) (vs : List Value) :
    b.result (vs.map (Value.mapTokens f)) = (b.result vs).mapTokens f := by
  have hc (n : Nat) :
      wrongCount n (vs.map (Value.mapTokens f)) = (wrongCount n vs).mapTokens f := by
    rw [wrongCount, List.length_map]
    rfl
  cases b with
  | len =>
    match vs with
    | [v] =>
      cases v with
      | array elements =>
        have hl : (Value.mapTokensAll f elements).length = elements.length := by
          rw [Value.mapTokensAll_eq_map, List.length_map]
        exact congrArg (fun n => Value.integer (Int64.ofNat n)) hl
      | _ => rfl
    | [] => exact hc 1
    | v :: _ :: _ => cases v <;> exact hc 1
  | first =>
    match vs with
    | [v] =>
      refine withArray_mapTokens f first v fun vs => ?_
      rw [Value.mapTokensAll_eq_map, List.head?_map, Value.getD_mapTokens]
    | [] | _ :: _ :: _ => exact hc 1
  | last =>
    match vs with
    | [v] =>
      refine withArray_mapTokens f last v fun vs => ?_
      rw [Value.mapTokensAll_eq_map, List.getLast?_map, Value.getD_mapTokens]
    | [] | _ :: _ :: _ => exact hc 1
  | rest =>
    match vs with
    | [v] =>
      refine withArray_mapTokens f rest v fun vs => ?_
      cases vs <;> rfl
    | [] | _ :: _ :: _ => exact hc 1
  | push =>
    match vs with
    | [v, new] =>
      refine withArray_mapTokens f push v fun vs => ?_
      simp only [Value.mapTokens, Value.mapTokensAll_eq_map, List.map_append, List.map_cons,
        List.map_nil]
    | [] | [_] | _ :: _ :: _ :: _ => exact hc 2
  | puts => rfl

theorem printed_mapTokens (b : Builtin) (vs : List Value) (o : Enumeration) :
    b.printed (vs.map (Value.mapTokens f)) o = b.printed vs o := by
  cases b with
  | puts => simp only [printed, List.map_map, Function.comp_def, Value.render_mapTokens]
  | _ => rfl

end Builtin

/-! ### Stores -/

namespace Scope

def mapTokens (s : Scope) : Scope :=
  { s with bindings := s.bindings.map fun b => (b.1, b.2.mapTokens f) }

theorem get?_mapTokens (s : Scope) (name : String) :
    (s.mapTokens f).get? name = (s.get? name).map (Value.mapTokens f) := by
  obtain ⟨bindings, outer⟩ := s
  simp only [get?, mapTokens]
  induction bindings with
  | nil => rfl
  | cons b bs ih =>
    obtain ⟨n, v⟩ := b
    simp only [List.map_cons, List.lookup_cons]
    by_cases h : name = n
    · simp only [h, BEq.rfl, Option.map_some]
    · simp only [beq_eq_false_iff_ne.2 h, ih]

theorem define_mapTokens (s : Scope) (name : String) (v : Value) :
    (s.mapTokens f).define name (v.mapTokens f) = (s.define name v).mapTokens f := by
  obtain ⟨bindings, outer⟩ := s
  simp only [define, mapTokens, mk.injEq, and_true]
  induction bindings with
  | nil => rfl
  | cons b bs ih =>
    simp only [bind, List.map_cons]
    by_cases h : b.1 = name
    · simp only [if_pos h, List.map_cons]
    · simp only [if_neg h, List.map_cons, ih]

end Scope

namespace Store

def mapTokens (σ : Store) : Store :=
  { σ with scopes := σ.scopes.map (Scope.mapTokens f) }

/-- The store in which the next free label is `k`. -/
def withNextLabel (k : Nat) (σ : Store) : Store :=
  { σ with nextLabel := k }

variable (k : Nat)

theorem lookup_mapTokens (σ : Store) (e : ScopeId) (name : String) :
    ((σ.mapTokens f).withNextLabel k).lookup e name =
      (σ.lookup e name).map (Value.mapTokens f) := by
  have hs (i : ScopeId) : ((σ.mapTokens f).withNextLabel k).scope? i =
      (σ.scope? i).map (Scope.mapTokens f) := Array.getElem?_map
  -- the scope around `e` is older, and the look-up goes on there
  induction e using Nat.strongRecOn with
  | ind e ih =>
    rw [lookup, lookup, hs]
    rcases σ.scope? e with _ | s
    · rfl
    · simp only [Option.map_some, Scope.get?_mapTokens]
      rcases s.get? name with _ | v
      · have ho : (s.mapTokens f).outer = s.outer := rfl
        simp only [Option.map_none, ho]
        rcases s.outer with _ | o
        · rfl
        · by_cases h : o < e
          · simp only [if_pos h]
            exact ih o h
          · simp only [if_neg h, Option.map_none]
      · rfl

theorem define_mapTokens (σ : Store) (e : ScopeId) (name : String) (v : Value) :
    ((σ.mapTokens f).withNextLabel k).define e name (v.mapTokens f) =
      ((σ.define e name v).mapTokens f).withNextLabel k := by
  have h : (σ.scopes.map (Scope.mapTokens f)).modify e (·.define name (v.mapTokens f)) =
      (σ.scopes.modify e (·.define name v)).map (Scope.mapTokens f) := by
    refine Array.ext_getElem? fun i => ?_
    simp only [Array.getElem?_modify, Array.getElem?_map]
    by_cases he : e = i
    · simp only [if_pos he, Option.map_map, Function.comp_def, Scope.define_mapTokens]
    · simp only [if_neg he]
  simp only [define, mapTokens, withNextLabel, h]

theorem openScope_mapTokens (σ : Store) (outer : Option ScopeId) :
    ((σ.mapTokens f).withNextLabel k).openScope outer =
      ((σ.openScope outer).1, ((σ.openScope outer).2.mapTokens f).withNextLabel k) := by
  simp only [openScope, mapTokens, withNextLabel, Array.size_map, Array.map_push]
  rfl

end Store

end Monkey
