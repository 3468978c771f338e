import Monkey.Proofs.Eval.Parts
import Monkey.Proofs.Eval.Rules
import Monkey.Proofs.Value.Entries
import Monkey.Session

/-!
  Monkey/Proofs/Eval/HashLiteral.lean
  ===================================
  **In a hash literal the last pair wins.**

  The pairs of a hash literal are evaluated from left to right, in each pair the key
  before its value (`Store.GivesPairs`).  Of the pairs whose keys have the same hash key,
  the last one is in the hash (`Entry.LastFiled`), and there are no other entries.  Looking
  up a value in the hash finds what is filed under its hash key.

  A key without a hash key ends the evaluation with an error; its value and the pairs
  behind it are not evaluated.  What is evaluated, and in which order, is read off the
  record of the evaluation.
-/
namespace Monkey

open Recorded

/-! ### Filing keys with their values -/

namespace Entry

/-- Files a key with its value under the hash key of the key, if it has one. -/
def file (entries : List Entry) (p : Value × Value) : List Entry :=
  match p.1.hashKey? with
  | some filed => insert { filed, key := p.1, value := p.2 } entries
  | none => entries

/-- Of the pairs whose key has the hash key `K`, the last one consists of `k` and `v`. -/
def LastFiled (kvs : List (Value × Value)) (K : HashKey) (k v : Value) : Prop :=
  ∃ earlier later, kvs = earlier ++ (k, v) :: later ∧ k.hashKey? = some K ∧
    ∀ p ∈ later, p.1.hashKey? ≠ some K

theorem ordered_file {entries : List Entry} (h : Ordered entries) (p : Value × Value) :
    Ordered (file entries p) := by
  unfold file
  split
  · exact h.insert _
  · exact h

theorem ordered_foldl_file {entries : List Entry} (h : Ordered entries)
    (kvs : List (Value × Value)) : Ordered (kvs.foldl file entries) := by
  induction kvs generalizing entries with
  | nil => exact h
  | cons p kvs ih => exact ih (ordered_file h p)

theorem find?_file_of_eq {entries : List Entry} {K : HashKey} {k v : Value}
    (h : k.hashKey? = some K) : find? K (file entries (k, v)) = some ⟨K, k, v⟩ := by
  simp only [file, h, find?_insert, if_true]

theorem find?_file_of_ne {entries : List Entry} {K : HashKey} {p : Value × Value}
    (h : p.1.hashKey? ≠ some K) : find? K (file entries p) = find? K entries := by
  unfold file
  split
  · rename_i filed hf
    have hne : filed ≠ K := fun e => h (e ▸ hf)
    rw [find?_insert, if_neg hne]
  · rfl

theorem find?_foldl_file_of_ne {K : HashKey} {kvs : List (Value × Value)}
    (h : ∀ p ∈ kvs, p.1.hashKey? ≠ some K) (entries : List Entry) :
    find? K (kvs.foldl file entries) = find? K entries := by
  induction kvs generalizing entries with
  | nil => rfl
  | cons p kvs ih =>
    obtain ⟨hp, hkvs⟩ := List.forall_mem_cons.1 h
    rw [List.foldl_cons, ih hkvs, find?_file_of_ne hp]

variable {kvs : List (Value × Value)} {K : HashKey}

/-- Either no pair has the hash key, or there is a last one that has it. -/
theorem exists_lastFiled (kvs : List (Value × Value)) (K : HashKey) :
    (∀ p ∈ kvs, p.1.hashKey? ≠ some K) ∨ ∃ k v, LastFiled kvs K k v := by
  induction kvs with
  | nil => exact .inl fun p hp => absurd hp List.not_mem_nil
  | cons q kvs ih =>
    obtain ⟨k, v⟩ := q
    rcases ih with h | ⟨k', v', earlier, later, rfl, hk, hl⟩
    · by_cases hk : k.hashKey? = some K
      · exact .inr ⟨k, v, [], kvs, rfl, hk, h⟩
      · exact .inl (List.forall_mem_cons.2 ⟨hk, h⟩)
    · exact .inr ⟨k', v', (k, v) :: earlier, later, rfl, hk, hl⟩

theorem LastFiled.find? {k v : Value} (h : LastFiled kvs K k v) :
    find? K (kvs.foldl file []) = some ⟨K, k, v⟩ := by
  obtain ⟨earlier, later, rfl, hk, hl⟩ := h
  rw [List.foldl_append, List.foldl_cons, find?_foldl_file_of_ne hl, find?_file_of_eq hk]

/-- The entries of the hash are the last pairs. -/
theorem mem_foldl_file {d : Entry} :
    d ∈ kvs.foldl file [] ↔ LastFiled kvs d.filed d.key d.value := by
  have hfind : d ∈ kvs.foldl file [] ↔ find? d.filed (kvs.foldl file []) = some d := by
    rw [(ordered_foldl_file List.Pairwise.nil kvs).find?_eq_some_iff]
    exact (and_iff_left rfl).symm
  rw [hfind]
  obtain ⟨filed, key, value⟩ := d
  constructor
  · intro h
    rcases exists_lastFiled kvs filed with hn | ⟨k, v, hl⟩
    · rw [find?_foldl_file_of_ne hn] at h
      cases h
    · rw [hl.find?] at h
      cases h
      exact hl
  · exact LastFiled.find?

/-- There is an entry under the hash keys of the keys, and under no others. -/
theorem exists_mem_foldl_file :
    (∃ d ∈ kvs.foldl file [], d.filed = K) ↔ ∃ p ∈ kvs, p.1.hashKey? = some K := by
  constructor
  · rintro ⟨d, hd, rfl⟩
    obtain ⟨earlier, later, rfl, hk, -⟩ := mem_foldl_file.1 hd
    exact ⟨(d.key, d.value), by simp, hk⟩
  · rintro ⟨p, hp, hk⟩
    rcases exists_lastFiled kvs K with hn | ⟨k, v, hl⟩
    · exact absurd hk (hn p hp)
    · exact ⟨⟨K, k, v⟩, mem_foldl_file.2 hl, rfl⟩

end Entry

theorem Value.at_hash {entries : List Entry} {i : Value} {K : HashKey} (h : i.hashKey? = some K) :
    (Value.hash entries).at i = ((Entry.find? K entries).map Entry.value).getD .null := by
  simp only [Value.at, h]

/-- The entries are the last pairs of their hash keys, one for each hash key of a pair, and
    these are what is found in the hash. -/
structure Entry.LastWins (kvs : List (Value × Value)) (entries : List Entry) : Prop where
  /-- No two entries have the same hash key. -/
  nodup : (entries.map Entry.filed).Nodup
  /-- The hash keys of the entries are those of the pairs. -/
  filed (K : HashKey) : (∃ d ∈ entries, d.filed = K) ↔ ∃ p ∈ kvs, p.1.hashKey? = some K
  /-- An entry has the key and the value of the last pair with its hash key. -/
  mem (d : Entry) : d ∈ entries ↔ Entry.LastFiled kvs d.filed d.key d.value
  /-- Looking up finds the value of the last pair with the hash key. -/
  at_lastFiled {i k v : Value} {K : HashKey} (hi : i.hashKey? = some K)
    (h : Entry.LastFiled kvs K k v) : (Value.hash entries).at i = v
  /-- Looking up a value whose hash key no pair has finds nothing. -/
  at_absent {i : Value} {K : HashKey} (hi : i.hashKey? = some K)
    (h : ∀ p ∈ kvs, p.1.hashKey? ≠ some K) : (Value.hash entries).at i = .null

theorem Entry.lastWins_foldl_file (kvs : List (Value × Value)) :
    Entry.LastWins kvs (kvs.foldl Entry.file []) where
  nodup := (ordered_foldl_file List.Pairwise.nil kvs).nodup_filed
  filed _ := exists_mem_foldl_file
  mem _ := mem_foldl_file
  at_lastFiled hi h := by
    rw [Value.at_hash hi, h.find?]
    rfl
  at_absent hi h := by
    rw [Value.at_hash hi, find?_foldl_file_of_ne h]
    rfl

/-! ### Evaluating the pairs -/

/-- Pairs evaluated from left to right, each key before its value.  The keys have hash keys,
    and no value is a signal. -/
inductive Store.GivesPairs (e : ScopeId) :
    Store → List (Expr × Expr) → List (Value × Value) → Store → Prop where
  | nil {σ : Store} : GivesPairs e σ [] [] σ
  | cons {σ σ₁ σ₂ σ' : Store} {key value : Expr} {pairs : List (Expr × Expr)} {k v : Value}
      {kvs : List (Value × Value)} {K : HashKey} (hk : σ.Gives e (.expression key) k σ₁)
      (hK : k.hashKey? = some K) (hv : σ₁.Gives e (.expression value) v σ₂)
      (hs : v.isSignal = false) (h : GivesPairs e σ₂ pairs kvs σ') :
      GivesPairs e σ ((key, value) :: pairs) ((k, v) :: kvs) σ'

/-- The evaluations of the key and the value of a pair. -/
def Task.ofPair (e : ScopeId) (p : Expr × Expr) : List Task :=
  [.phrase (.expression p.1) e, .phrase (.expression p.2) e]

/-- The pairs in front are filed, and the run goes on with the others. -/
theorem Store.GivesPairs.recorded {e : ScopeId} {σ σ₁ σ' : Store} {pairs rest : List (Expr × Expr)}
    {kvs : List (Value × Value)} {entries : List Entry} {tasks : List Task} {w : Value}
    (h : σ.GivesPairs e pairs kvs σ₁)
    (hrest : Recorded.Ends (fun n => runPairs (fun x => record n (.expression x) e) rest
      (kvs.foldl Entry.file entries)) σ₁ tasks w σ') :
    Recorded.Ends (fun n => runPairs (fun x => record n (.expression x) e) (pairs ++ rest) entries)
      σ (pairs.flatMap (Task.ofPair e) ++ tasks) w σ' := by
  induction h generalizing entries with
  | nil => exact hrest
  | cons hk hK hv hs _ ih =>
    have hrest' := ih hrest
    refine hk.recorded.proceed (Value.isSignal_of_hashKey? hK) ?_
    simp only [hK]
    refine hv.recorded.proceed hs ?_
    rw [Entry.file, hK] at hrest'
    exact hrest'

/-- **In a hash literal the last pair wins.**  If the pairs of a hash literal evaluate, from
    left to right and each key before its value, to keys with hash keys and values that are
    no signals, the hash has one entry for each hash key, which holds the last pair with it
    (`Entry.LastWins`), and nothing but the pairs is evaluated.  If they are followed by a
    pair whose key evaluates to a value without a hash key, the literal gives an error; the
    pairs in front and that key are evaluated, its value and the pairs behind are not.
    Integers and booleans have the same hash key if they are equal, and values of different
    sorts never do. -/
theorem Expr.hash_lastWins {σ σ₁ : Store} {e : ScopeId} {pairs : List (Expr × Expr)}
    {kvs : List (Value × Value)} (h : σ.GivesPairs e pairs kvs σ₁) :
    (∀ t, ∃ entries, Entry.LastWins kvs entries ∧
      σ.GivesBy e (.expression (.hash t pairs)) (pairs.flatMap (Task.ofPair e))
        (.hash entries) σ₁) ∧
    (∀ t key value later k σ₂, σ₁.Gives e (.expression key) k σ₂ → k.isSignal = false →
      k.hashKey? = none →
      σ.GivesBy e (.expression (.hash t (pairs ++ (key, value) :: later)))
        (pairs.flatMap (Task.ofPair e) ++ [.phrase (.expression key) e])
        (.error ("unusable as hash key: " ++ k.sort.name)) σ₂) ∧
    (∀ i j, (Value.integer i).hashKey? = (Value.integer j).hashKey? ↔ i = j) ∧
    (∀ a b, (Value.boolean a).hashKey? = (Value.boolean b).hashKey? ↔ a = b) ∧
    ∀ (v w : Value) (K : HashKey), v.hashKey? = some K → w.hashKey? = some K →
      v.sort = w.sort := by
  refine ⟨fun t => ?_, fun t key value later k σ₂ hk hs hn => ?_, fun i j => ?_, fun a b => ?_,
    fun v w K => ?_⟩
  · refine ⟨kvs.foldl Entry.file [], Entry.lastWins_foldl_file kvs, Recorded.Ends.givesBy ?_⟩
    have hnil : Recorded.Ends (fun n => runPairs (fun x => record n (.expression x) e) []
        (kvs.foldl Entry.file [])) σ₁ [] (.hash (kvs.foldl Entry.file [])) σ₁ := .pure _
    have hpairs := h.recorded hnil
    rw [List.append_nil, List.append_nil] at hpairs
    exact hpairs
  · refine Recorded.Ends.givesBy (h.recorded ?_)
    refine hk.recorded.proceed hs ?_
    simp only [hn]
    exact .pure _
  · exact Value.hashKey?_integer_inj
  · exact Value.hashKey?_boolean_inj
  · exact Value.sort_eq_of_hashKey?

/-- The pairs of `{1: 10, true: 20, 1: 30}`. -/
def Expr.repeatedKey : List (Expr × Expr) :=
  [(.integer default 1, .integer default 10), (.boolean default true, .integer default 20),
    (.integer default 1, .integer default 30)]

/-- The second value of the key `1` is in the hash, the key `true` has its own, and the empty
    array as a fourth key ends the evaluation in front of its value. -/
theorem Expr.hash_repeatedKey :
    ∃ entries kvs, Session.start.store.GivesPairs 0 repeatedKey kvs Session.start.store ∧
      Session.start.store.GivesBy 0 (.expression (.hash default repeatedKey))
        (repeatedKey.flatMap (Task.ofPair 0)) (.hash entries) Session.start.store ∧
      (Value.hash entries).at (.integer 1) = .integer 30 ∧
      (Value.hash entries).at (.boolean true) = .integer 20 ∧
      (Value.hash entries).at (.integer 2) = .null ∧
      Session.start.store.GivesBy 0
        (.expression (.hash default (repeatedKey ++ [(.array default [], .integer default 40)])))
        (repeatedKey.flatMap (Task.ofPair 0) ++ [.phrase (.expression (.array default [])) 0])
        (.error "unusable as hash key: ARRAY") Session.start.store := by
  have h : Session.start.store.GivesPairs 0 repeatedKey
      [(.integer 1, .integer 10), (.boolean true, .integer 20), (.integer 1, .integer 30)]
      Session.start.store :=
    .cons (.integer default 1) rfl (.integer default 10) rfl <|
      .cons (.boolean default true) rfl (.integer default 20) rfl <|
        .cons (.integer default 1) rfl (.integer default 30) rfl .nil
  obtain ⟨hash, unhashable, -⟩ := Expr.hash_lastWins h
  obtain ⟨entries, hlast, hgives⟩ := hash default
  refine ⟨entries, _, h, hgives, ?_, ?_, ?_, ?_⟩
  · exact hlast.at_lastFiled rfl ⟨[(.integer 1, .integer 10), (.boolean true, .integer 20)], [],
      rfl, rfl, by decide⟩
  · exact hlast.at_lastFiled rfl ⟨[(.integer 1, .integer 10)], [(.integer 1, .integer 30)],
      rfl, rfl, by decide⟩
  · exact hlast.at_absent rfl (by decide)
  · exact unhashable default (.array default []) (.integer default 40) [] (.array []) _
      (.array default .nil) rfl rfl

end Monkey
