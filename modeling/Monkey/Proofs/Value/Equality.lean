import Mathlib.Data.List.Perm.Subperm
import Monkey.Proofs.Eval.HashLiteral
import Monkey.Value.Equality

/-!
  Monkey/Proofs/Value/Equality.lean
  =================================
  **Equality of values is a congruence.**

  Values that are equal are built in the same way from parts that are equal
  (`Value.Alike`).  So whatever is equal to the one is equal to the other
  (`Value.same_congr`), and from this and reflexivity come symmetry and transitivity.

  Equality of hashes is defined by going through the entries side by side.  Since the
  entries stand in the order of their hash keys, this comes to the same as looking up
  every entry of the one hash in the other (`Entry.sameAll_iff`), and the order in which
  entries were filed does not matter (`Entry.ofList_eq`).

  Equal values have the same sort and the same hash key.  Filed under it, the one takes
  the place of the other (`Entry.sameAll_foldl_file`).
-/
namespace Monkey

/-! ### Equal values -/

/-- The ways in which two values can be equal. -/
inductive Value.Alike : Value → Value → Prop where
  | integer (i : Int64) : Alike (.integer i) (.integer i)
  | boolean (b : Bool) : Alike (.boolean b) (.boolean b)
  | string (s : String) : Alike (.string s) (.string s)
  | null : Alike .null .null
  | array {as bs : List Value} (h : Value.sameAll as bs = true) : Alike (.array as) (.array bs)
  | hash {ds es : List Entry} (h : Entry.sameAll ds es = true) : Alike (.hash ds) (.hash es)
  | function {f g : Closure} (h : f.same g = true) : Alike (.function f) (.function g)
  | builtin (b : Builtin) : Alike (.builtin b) (.builtin b)
  | returned {a b : Value} (h : a.same b = true) : Alike (.returned a) (.returned b)
  | error (message : String) : Alike (.error message) (.error message)

theorem Closure.same_iff {f g : Closure} :
    f.same g = true ↔ f.literal.label = g.literal.label ∧ f.scope = g.scope := by
  rw [Closure.same, Bool.and_eq_true, beq_iff_eq, beq_iff_eq]

theorem Entry.same_iff {d e : Entry} : d.same e = true ↔
    d.filed = e.filed ∧ d.key.same e.key = true ∧ d.value.same e.value = true := by
  obtain ⟨filed, key, value⟩ := d
  obtain ⟨filed', key', value'⟩ := e
  rw [Entry.same, Bool.and_eq_true, Bool.and_eq_true, beq_iff_eq, and_assoc]

theorem Value.sameAll_nil_iff {bs : List Value} : Value.sameAll [] bs = true ↔ bs = [] := by
  cases bs <;> simp [Value.sameAll]

theorem Value.sameAll_cons_iff {a : Value} {as bs : List Value} :
    Value.sameAll (a :: as) bs = true ↔
      ∃ b bs', bs = b :: bs' ∧ a.same b = true ∧ Value.sameAll as bs' = true := by
  cases bs <;> simp [Value.sameAll]

theorem Entry.sameAll_nil_iff {es : List Entry} : Entry.sameAll [] es = true ↔ es = [] := by
  cases es <;> simp [Entry.sameAll]

theorem Entry.sameAll_cons_iff {d : Entry} {ds es : List Entry} :
    Entry.sameAll (d :: ds) es = true ↔
      ∃ e es', es = e :: es' ∧ d.same e = true ∧ Entry.sameAll ds es' = true := by
  cases es <;> simp [Entry.sameAll]

/-- Equal values are equal in one of these ways. -/
theorem Value.alike_of_same {a b : Value} (h : a.same b = true) : a.Alike b := by
  revert h
  fun_cases Value.same a b with
  | case1 | case2 | case3 | case8 | case10 =>
    intro h
    obtain rfl := eq_of_beq h
    constructor
  | case4 => exact fun _ => .null
  | case5 as bs => exact .array
  | case6 ds es => exact .hash
  | case7 f g => exact .function
  | case9 a b => exact .returned
  | case11 => exact fun h => absurd h Bool.false_ne_true

mutual

theorem Value.same_refl (a : Value) : a.same a = true := by
  cases a with
  | integer | boolean | string | null | builtin | error => simp only [Value.same, beq_self_eq_true]
  | array as => rw [Value.same, Value.sameAll_refl as]
  | hash ds => rw [Value.same, Entry.sameAll_refl ds]
  | function f => rw [Value.same, Closure.same_iff.2 ⟨rfl, rfl⟩]
  | returned a => rw [Value.same, a.same_refl]

theorem Value.sameAll_refl (as : List Value) : Value.sameAll as as = true := by
  cases as with
  | nil => rw [Value.sameAll]
  | cons a as => rw [Value.sameAll, a.same_refl, Value.sameAll_refl as, Bool.and_self]

theorem Entry.same_refl (d : Entry) : d.same d = true := by
  obtain ⟨filed, key, value⟩ := d
  exact Entry.same_iff.2 ⟨rfl, key.same_refl, value.same_refl⟩

theorem Entry.sameAll_refl (ds : List Entry) : Entry.sameAll ds ds = true := by
  cases ds with
  | nil => rw [Entry.sameAll]
  | cons d ds => rw [Entry.sameAll, d.same_refl, Entry.sameAll_refl ds, Bool.and_self]

end

mutual

/-- Equal values are equal to the same values. -/
theorem Value.same_congr {a b : Value} (h : a.same b = true) (c : Value) :
    a.same c = b.same c := by
  cases a with
  | integer | boolean | string | null | builtin | error =>
    cases Value.alike_of_same h
    rfl
  | array as =>
    cases Value.alike_of_same h with
    | array has =>
      cases c with
      | array cs => rw [Value.same, Value.same, Value.sameAll_congr has cs]
      | _ => simp only [Value.same]
  | hash ds =>
    cases Value.alike_of_same h with
    | hash hds =>
      cases c with
      | hash fs => rw [Value.same, Value.same, Entry.sameAll_congr hds fs]
      | _ => simp only [Value.same]
  | function f =>
    cases Value.alike_of_same h with
    | function hf =>
      obtain ⟨hl, hs⟩ := Closure.same_iff.1 hf
      cases c with
      | function k => simp only [Value.same, Closure.same, hl, hs]
      | _ => simp only [Value.same]
  | returned a =>
    cases Value.alike_of_same h with
    | returned ha =>
      cases c with
      | returned c => rw [Value.same, Value.same, Value.same_congr ha c]
      | _ => simp only [Value.same]

theorem Value.sameAll_congr {as bs : List Value} (h : Value.sameAll as bs = true)
    (cs : List Value) : Value.sameAll as cs = Value.sameAll bs cs := by
  cases as with
  | nil =>
    obtain rfl := Value.sameAll_nil_iff.1 h
    rfl
  | cons a as =>
    obtain ⟨b, bs, rfl, hab, has⟩ := Value.sameAll_cons_iff.1 h
    cases cs with
    | nil => simp only [Value.sameAll]
    | cons c cs =>
      rw [Value.sameAll, Value.sameAll, Value.same_congr hab c, Value.sameAll_congr has cs]

theorem Entry.same_congr {d e : Entry} (h : d.same e = true) (f : Entry) :
    d.same f = e.same f := by
  obtain ⟨filed, key, value⟩ := d
  obtain ⟨filed', key', value'⟩ := e
  obtain ⟨filed'', key'', value''⟩ := f
  obtain ⟨rfl, hk, hv⟩ := Entry.same_iff.1 h
  rw [Entry.same, Entry.same, Value.same_congr hk, Value.same_congr hv]

theorem Entry.sameAll_congr {ds es : List Entry} (h : Entry.sameAll ds es = true)
    (fs : List Entry) : Entry.sameAll ds fs = Entry.sameAll es fs := by
  cases ds with
  | nil =>
    obtain rfl := Entry.sameAll_nil_iff.1 h
    rfl
  | cons d ds =>
    obtain ⟨e, es, rfl, hde, hds⟩ := Entry.sameAll_cons_iff.1 h
    cases fs with
    | nil => simp only [Entry.sameAll]
    | cons f fs =>
      rw [Entry.sameAll, Entry.sameAll, Entry.same_congr hde f, Entry.sameAll_congr hds fs]

end

/-- Equality is an equivalence. -/
instance : EquivBEq Value where
  rfl := Value.same_refl _
  symm {a _} h := (Value.same_congr h a).symm.trans a.same_refl
  trans {_ _ c} h h' := (Value.same_congr h c).trans h'

/-! ### What equal values have in common -/

namespace Value

variable {a b : Value}

theorem sort_eq_of_same (h : a.same b = true) : a.sort = b.sort := by
  cases alike_of_same h <;> rfl

theorem isTruthy_eq_of_same (h : a.same b = true) : a.isTruthy = b.isTruthy := by
  cases alike_of_same h <;> rfl

theorem hashKey?_eq_of_same (h : a.same b = true) : a.hashKey? = b.hashKey? := by
  cases alike_of_same h <;> rfl

/-- Equal values find the same in every hash. -/
theorem at_hash_eq_of_same (h : a.same b = true) (entries : List Entry) :
    (Value.hash entries).at a = (Value.hash entries).at b := by
  simp only [Value.at, hashKey?_eq_of_same h, sort_eq_of_same h]

end Value

/-! ### Equal hashes -/

namespace Entry

variable {d e : Entry} {ds es : List Entry}

theorem length_eq_of_sameAll (h : sameAll ds es = true) : ds.length = es.length := by
  induction ds generalizing es with
  | nil => rw [sameAll_nil_iff.1 h]
  | cons d ds ih =>
    obtain ⟨e, es, rfl, -, hds⟩ := sameAll_cons_iff.1 h
    rw [List.length_cons, List.length_cons, ih hds]

theorem exists_mem_of_sameAll (h : sameAll ds es = true) (hd : d ∈ ds) :
    ∃ e ∈ es, d.same e = true := by
  induction ds generalizing es with
  | nil => cases hd
  | cons c ds ih =>
    obtain ⟨e, es, rfl, hce, hds⟩ := sameAll_cons_iff.1 h
    rcases List.mem_cons.1 hd with rfl | hd
    · exact ⟨e, List.mem_cons_self, hce⟩
    · obtain ⟨e', he', hs⟩ := ih hds hd
      exact ⟨e', List.mem_cons_of_mem e he', hs⟩

/-- In two lists of entries in order, what is filed in the one is filed in the other under
    the same hash keys, if the lists are equally long. -/
theorem map_filed_eq (hds : Ordered ds) (hes : Ordered es) (hl : ds.length = es.length)
    (h : ∀ d ∈ ds, ∃ e ∈ es, e.filed = d.filed) : ds.map filed = es.map filed := by
  have hsub : ds.map filed ⊆ es.map filed := by
    intro K hK
    obtain ⟨d, hd, rfl⟩ := List.mem_map.1 hK
    obtain ⟨e, he, hf⟩ := h d hd
    exact List.mem_map.2 ⟨e, he, hf⟩
  have hlen : (es.map filed).length = (ds.map filed).length := by
    rw [List.length_map, List.length_map, hl]
  have hsubperm := List.subperm_of_subset hds.nodup_filed hsub
  have hperm := hsubperm.perm_of_length_le (Nat.le_of_eq hlen)
  exact hperm.eq_of_pairwise (fun _ _ _ _ hp hp' => absurd hp' (HashKey.not_precedes hp))
    hds.pairwise_filed hes.pairwise_filed

theorem sameAll_of_map_filed_eq (hf : ds.map filed = es.map filed) (hn : (es.map filed).Nodup)
    (h : ∀ d ∈ ds, ∃ e ∈ es, d.same e = true) : sameAll ds es = true := by
  induction ds generalizing es with
  | nil => exact sameAll_nil_iff.2 (List.map_eq_nil_iff.1 hf.symm)
  | cons d ds ih =>
    obtain ⟨e, es, rfl, hde, hfs⟩ := List.map_eq_cons_iff.1 hf.symm
    obtain ⟨hne, hn⟩ := List.nodup_cons.1 hn
    obtain ⟨hd, hds⟩ := List.forall_mem_cons.1 h
    -- the head and no other entry has the hash key of the head
    have hhead : d.same e = true := by
      obtain ⟨e', he', hs⟩ := hd
      rcases List.mem_cons.1 he' with rfl | he'
      · exact hs
      · refine absurd (List.mem_map.2 ⟨e', he', ?_⟩) hne
        rw [hde, (same_iff.1 hs).1]
    refine sameAll_cons_iff.2 ⟨e, es, rfl, hhead, ih hfs.symm hn fun d' hd' => ?_⟩
    obtain ⟨e', he', hs⟩ := hds d' hd'
    rcases List.mem_cons.1 he' with rfl | he'
    · refine absurd ?_ hne
      rw [hfs, ← (same_iff.1 hs).1]
      exact List.mem_map_of_mem hd'
    · exact ⟨e', he', hs⟩

/-- Two hashes are equal if and only if they have equally many entries, and for every entry
    of the one an equal entry is found in the other. -/
theorem sameAll_iff (hds : Ordered ds) (hes : Ordered es) : sameAll ds es = true ↔
    ds.length = es.length ∧ ∀ d ∈ ds, ∃ e, find? d.filed es = some e ∧
      d.key.same e.key = true ∧ d.value.same e.value = true := by
  constructor
  · intro h
    refine ⟨length_eq_of_sameAll h, fun d hd => ?_⟩
    obtain ⟨e, he, hs⟩ := exists_mem_of_sameAll h hd
    obtain ⟨hf, hk, hv⟩ := same_iff.1 hs
    exact ⟨e, hes.find?_eq_some_iff.2 ⟨he, hf.symm⟩, hk, hv⟩
  · rintro ⟨hl, h⟩
    have hmem : ∀ d ∈ ds, ∃ e ∈ es, d.same e = true := by
      intro d hd
      obtain ⟨e, hfind, hk, hv⟩ := h d hd
      obtain ⟨he, hf⟩ := hes.find?_eq_some_iff.1 hfind
      exact ⟨e, he, same_iff.2 ⟨hf.symm, hk, hv⟩⟩
    refine sameAll_of_map_filed_eq (map_filed_eq hds hes hl fun d hd => ?_) hes.nodup_filed hmem
    obtain ⟨e, he, hs⟩ := hmem d hd
    exact ⟨e, he, (same_iff.1 hs).1.symm⟩

/-! ### The order of filing -/

/-- Files entries one after another. -/
def ofList (entries : List Entry) : List Entry :=
  entries.foldl (fun filed e => insert e filed) []

theorem ordered_foldl_insert (h : Ordered es) (ds : List Entry) :
    Ordered (ds.foldl (fun filed e => insert e filed) es) := by
  induction ds generalizing es with
  | nil => exact h
  | cons d ds ih => exact ih (h.insert d)

theorem ordered_ofList (ds : List Entry) : Ordered (ofList ds) :=
  ordered_foldl_insert List.Pairwise.nil ds

/-- Entries that were filed under different hash keys are all there. -/
theorem find?_foldl_insert (hn : (ds.map filed).Nodup) (K : HashKey) :
    find? K (ds.foldl (fun filed e => insert e filed) es) = (find? K ds).or (find? K es) := by
  induction ds generalizing es with
  | nil => rfl
  | cons d ds ih =>
    obtain ⟨hd, hn⟩ := List.nodup_cons.1 hn
    rw [List.foldl_cons, ih hn, find?_insert, find?_cons]
    by_cases hK : d.filed = K
    · have hnone : find? K ds = none := by
        refine find?_eq_none_iff.2 fun e he hf => hd ?_
        rw [hK, ← hf]
        exact List.mem_map_of_mem he
      rw [if_pos hK, if_pos hK, hnone]
      rfl
    · rw [if_neg hK, if_neg hK]

/-- Hashes with the same entries that were filed under different hash keys, in whatever
    order, are the same. -/
theorem ofList_eq (hd : (ds.map filed).Nodup) (he : (es.map filed).Nodup)
    (h : ∀ e, e ∈ ds ↔ e ∈ es) : ofList ds = ofList es := by
  refine (ordered_ofList ds).ext (ordered_ofList es) fun K => ?_
  rw [ofList, ofList, find?_foldl_insert hd, find?_foldl_insert he]
  congr 1
  refine Option.ext fun e => ?_
  rw [find?_eq_some_iff hd, find?_eq_some_iff he, h e]

/-! ### Filing equal keys -/

theorem sameAll_insert (hde : d.same e = true) (h : sameAll ds es = true) :
    sameAll (insert d ds) (insert e es) = true := by
  obtain ⟨hf, -⟩ := same_iff.1 hde
  induction ds generalizing es with
  | nil =>
    obtain rfl := sameAll_nil_iff.1 h
    exact sameAll_cons_iff.2 ⟨e, [], rfl, hde, h⟩
  | cons d' ds ih =>
    obtain ⟨e', es, rfl, hde', hds⟩ := sameAll_cons_iff.1 h
    obtain ⟨hf', -⟩ := same_iff.1 hde'
    rw [insert, insert, hf, hf']
    split
    · exact sameAll_cons_iff.2 ⟨e, es, rfl, hde, hds⟩
    · split
      · exact sameAll_cons_iff.2 ⟨e, e' :: es, rfl, hde, h⟩
      · exact sameAll_cons_iff.2 ⟨e', insert e es, rfl, hde', ih hds⟩

theorem sameAll_file {p q : Value × Value} (hk : p.1.same q.1 = true) (hv : p.2.same q.2 = true)
    (h : sameAll ds es = true) : sameAll (file ds p) (file es q) = true := by
  rw [file, file, Value.hashKey?_eq_of_same hk]
  split
  · exact sameAll_insert (same_iff.2 ⟨rfl, hk, hv⟩) h
  · exact h

/-- Keys and values may be replaced by equal ones. -/
theorem sameAll_foldl_file {kvs kvs' : List (Value × Value)}
    (hs : List.Forall₂ (fun p q => p.1.same q.1 = true ∧ p.2.same q.2 = true) kvs kvs')
    (h : sameAll ds es = true) : sameAll (kvs.foldl file ds) (kvs'.foldl file es) = true := by
  induction hs generalizing ds es with
  | nil => exact h
  | cons hpq _ ih => exact ih (sameAll_file hpq.1 hpq.2 h)

end Entry

/-- What a hash literal gives whose pairs evaluate to keys with hash keys. -/
theorem Store.GivesPairs.gives {e : ScopeId} {σ σ₁ : Store} {pairs : List (Expr × Expr)}
    {kvs : List (Value × Value)} (h : σ.GivesPairs e pairs kvs σ₁) (t : Token) :
    σ.Gives e (.expression (.hash t pairs)) (.hash (kvs.foldl Entry.file [])) σ₁ := by
  have hnil : Recorded.Ends (fun n => runPairs (fun x => record n (.expression x) e) []
      (kvs.foldl Entry.file [])) σ₁ [] (.hash (kvs.foldl Entry.file [])) σ₁ := .pure _
  have hpairs := h.recorded hnil
  rw [List.append_nil] at hpairs
  obtain ⟨n, hn⟩ := hpairs.givesBy (p := .expression (.hash t pairs))
  exact ⟨n, fun m hm => (hn m hm).1⟩

/-! ### The congruence -/

theorem Value.beq_hash (ds es : List Entry) :
    (Value.hash ds == Value.hash es) = Entry.sameAll ds es := by
  change Value.same _ _ = _
  rw [Value.same]

/-- **Equality of values is a congruence.**

    It is an equivalence.  Two hashes are equal if and only if they have equally many
    entries and for every entry of the one an equal entry is found in the other, and hashes
    with the same entries are equal in whatever order these were filed.

    Equal values have sorts of the same name, the same truth value and the same hash key.
    They find the same entry in every hash, and two hash literals whose pairs evaluate to
    equal keys and equal values give equal hashes. -/
theorem Value.beq_congruence :
    (∀ a : Value, a == a) ∧
    (∀ a b : Value, a == b → b == a) ∧
    (∀ a b c : Value, a == b → b == c → a == c) ∧
    (∀ ds es, Entry.Ordered ds → Entry.Ordered es →
      (Value.hash ds == Value.hash es ↔ ds.length = es.length ∧
        ∀ d ∈ ds, ∃ e, Entry.find? d.filed es = some e ∧ d.key == e.key ∧ d.value == e.value)) ∧
    (∀ ds es : List Entry, (ds.map Entry.filed).Nodup → (es.map Entry.filed).Nodup →
      (∀ e, e ∈ ds ↔ e ∈ es) → Value.hash (Entry.ofList ds) == Value.hash (Entry.ofList es)) ∧
    (∀ a b : Value, a == b →
      a.sort.name = b.sort.name ∧ a.isTruthy = b.isTruthy ∧ a.hashKey? = b.hashKey?) ∧
    (∀ a b : Value, a == b → ∀ entries,
      (a.hashKey?.bind fun K => Entry.find? K entries) =
        (b.hashKey?.bind fun K => Entry.find? K entries) ∧
      (Value.hash entries).at a = (Value.hash entries).at b) ∧
    ∀ {σ σ₁ τ τ₁ : Store} {e e' : ScopeId} {pairs pairs' : List (Expr × Expr)}
      {kvs kvs' : List (Value × Value)},
      σ.GivesPairs e pairs kvs σ₁ → τ.GivesPairs e' pairs' kvs' τ₁ →
      List.Forall₂ (fun p q => p.1 == q.1 ∧ p.2 == q.2) kvs kvs' →
      ∀ t t', ∃ ds es, Entry.Ordered ds ∧ Entry.Ordered es ∧
        σ.Gives e (.expression (.hash t pairs)) (.hash ds) σ₁ ∧
        τ.Gives e' (.expression (.hash t' pairs')) (.hash es) τ₁ ∧
        Value.hash ds == Value.hash es := by
  refine ⟨fun _ => BEq.rfl, fun _ _ => BEq.symm, fun _ _ _ => BEq.trans, ?_, ?_, ?_, ?_, ?_⟩
  · intro ds es hds hes
    rw [beq_hash]
    exact Entry.sameAll_iff hds hes
  · intro ds es hd he h
    rw [Entry.ofList_eq hd he h]
    exact BEq.rfl
  · intro a b h
    exact ⟨congrArg ValueSort.name (sort_eq_of_same h), isTruthy_eq_of_same h,
      hashKey?_eq_of_same h⟩
  · intro a b h entries
    exact ⟨by rw [hashKey?_eq_of_same h], at_hash_eq_of_same h entries⟩
  · intro σ σ₁ τ τ₁ e e' pairs pairs' kvs kvs' h h' hs t t'
    refine ⟨_, _, Entry.ordered_foldl_file .nil kvs, Entry.ordered_foldl_file .nil kvs',
      h.gives t, h'.gives t', ?_⟩
    rw [beq_hash]
    exact Entry.sameAll_foldl_file hs (Entry.sameAll_nil_iff.2 rfl)

/-- Entries under the keys `1` and `true`, whose digests agree. -/
def Entry.oneAndTrue : List Entry :=
  [⟨⟨.integer, 1⟩, .integer 1, .array [.string "one"]⟩, ⟨⟨.boolean, 1⟩, .boolean true, .hash []⟩]

/-- Filed in either order, the two entries make equal hashes, in which either key finds its
    own value.  The literals `{true: 1}` and `{!false: 1}` give equal hashes. -/
theorem Value.beq_oneAndTrue :
    Value.hash (Entry.ofList Entry.oneAndTrue) ==
      Value.hash (Entry.ofList Entry.oneAndTrue.reverse) ∧
    Value.hash (Entry.ofList Entry.oneAndTrue.reverse) ==
      Value.hash (Entry.ofList Entry.oneAndTrue) ∧
    (∃ e, Entry.find? ⟨.boolean, 1⟩ (Entry.ofList Entry.oneAndTrue.reverse) = some e ∧
      Value.boolean true == e.key ∧ Value.hash [] == e.value) ∧
    (Value.hash (Entry.ofList Entry.oneAndTrue)).hashKey? =
      (Value.hash (Entry.ofList Entry.oneAndTrue.reverse)).hashKey? ∧
    (Value.hash []).at (Value.hash (Entry.ofList Entry.oneAndTrue)) =
      (Value.hash []).at (Value.hash (Entry.ofList Entry.oneAndTrue.reverse)) ∧
    ∃ ds es, Entry.Ordered ds ∧ Entry.Ordered es ∧
      Session.start.store.Gives 0 (.expression (.hash default
        [(.boolean default true, .integer default 1)])) (.hash ds) Session.start.store ∧
      Session.start.store.Gives 0 (.expression (.hash default
        [(.prefixOp default .bang (.boolean default false), .integer default 1)]))
        (.hash es) Session.start.store ∧
      Value.hash ds == Value.hash es := by
  obtain ⟨hrefl, hsymm, htrans, hhash, hfiled, hcommon, hfind, hliteral⟩ := Value.beq_congruence
  have heq := hfiled Entry.oneAndTrue Entry.oneAndTrue.reverse (by decide) (by decide)
    fun e => List.mem_reverse.symm
  have hfound := (hhash _ _ (Entry.ordered_ofList _) (Entry.ordered_ofList _)).1
    (htrans _ _ _ heq (hrefl _))
  have htrue : Session.start.store.Gives 0
      (.expression (.prefixOp default .bang (.boolean default false))) (.boolean true)
      Session.start.store := .prefixOp default .bang (.boolean default false) rfl
  refine ⟨heq, hsymm _ _ heq, ?_, (hcommon _ _ heq).2.2, (hfind _ _ heq []).2, ?_⟩
  · exact hfound.2 ⟨⟨.boolean, 1⟩, .boolean true, .hash []⟩ (.tail _ (.head _))
  · exact hliteral (.cons (.boolean default true) rfl (.integer default 1) rfl .nil)
      (.cons htrue rfl (.integer default 1) rfl .nil)
      (.cons ⟨hrefl _, hrefl _⟩ .nil) default default

end Monkey
