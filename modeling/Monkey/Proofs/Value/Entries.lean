import Mathlib.Data.List.Basic
import Monkey.Value.Render

/-!
  Monkey/Proofs/Value/Entries.lean
  ================================
  **The entries of a hash.**

  The order of hash keys is a strict total order.  Filing an entry keeps the entries in
  that order (`Ordered.insert`), so that there is one entry for each hash key
  (`Ordered.nodup_filed`), and what is found under a hash key is the entry that stands
  there (`Ordered.find?_eq_some_iff`).  Whatever the enumeration, the text of a hash has
  the text of each entry once (`Ordered.arrange_renderAll`).

  Integers and booleans are told apart by their hash keys, and so are values of different
  sorts; strings are not.
-/
namespace Monkey

/-! ### The order of hash keys -/

theorem HashTag.rank_inj {a b : HashTag} : a.rank = b.rank ↔ a = b := by
  cases a <;> cases b <;> decide

namespace HashKey

theorem precedes_iff {a b : HashKey} : a.precedes b = true ↔
    a.tag.rank < b.tag.rank ∨ a.tag.rank = b.tag.rank ∧ a.digest.toNat < b.digest.toNat := by
  simp only [precedes, Bool.or_eq_true, Bool.and_eq_true, decide_eq_true_eq, beq_iff_eq,
    UInt64.lt_iff_toNat_lt]

theorem precedes_trans {a b c : HashKey} (h : a.precedes b = true) (h' : b.precedes c = true) :
    a.precedes c = true := by
  rw [precedes_iff] at h h' ⊢
  omega

theorem ne_of_precedes {a b : HashKey} (h : a.precedes b = true) : a ≠ b := by
  rintro rfl
  rw [precedes_iff] at h
  omega

theorem not_precedes {a b : HashKey} (h : a.precedes b = true) : ¬ b.precedes a = true :=
  fun h' => ne_of_precedes (precedes_trans h h') rfl

theorem precedes_of_not {a b : HashKey} (hne : a ≠ b) (h : ¬ a.precedes b = true) :
    b.precedes a = true := by
  rw [precedes_iff] at h ⊢
  by_cases ht : a.tag.rank = b.tag.rank
  · have hd : a.digest.toNat ≠ b.digest.toNat := by
      intro hd
      apply hne
      obtain ⟨tag, digest⟩ := a
      obtain ⟨tag', digest'⟩ := b
      obtain rfl := HashTag.rank_inj.1 ht
      obtain rfl := UInt64.toNat_inj.1 hd
      rfl
    omega
  · omega

end HashKey

/-! ### Entries in order -/

namespace Entry

/-- The entries stand in the order of their hash keys, each of them once. -/
def Ordered (entries : List Entry) : Prop :=
  entries.Pairwise fun d d' => d.filed.precedes d'.filed = true

theorem find?_cons (k : HashKey) (d : Entry) (ds : List Entry) :
    find? k (d :: ds) = if d.filed = k then some d else find? k ds := by
  simp only [find?, List.find?_cons]
  split <;> simp_all

theorem find?_eq_none_iff {k : HashKey} {entries : List Entry} :
    find? k entries = none ↔ ∀ d ∈ entries, d.filed ≠ k := by
  simp only [find?, List.find?_eq_none, beq_iff_eq, ne_eq]

/-- Where no two entries are filed under the same hash key, the entry that stands there is
    found. -/
theorem find?_eq_some_iff {entries : List Entry} (h : (entries.map filed).Nodup) {k : HashKey}
    {d : Entry} : find? k entries = some d ↔ d ∈ entries ∧ d.filed = k := by
  induction entries with
  | nil => simp [find?]
  | cons c cs ih =>
    obtain ⟨hc, hcs⟩ := List.nodup_cons.1 h
    rw [find?_cons]
    by_cases hk : c.filed = k
    · rw [if_pos hk]
      constructor
      · rintro ⟨⟩
        exact ⟨List.mem_cons_self, hk⟩
      · rintro ⟨hd, rfl⟩
        rcases List.mem_cons.1 hd with rfl | hd
        · rfl
        · exact absurd (hk ▸ List.mem_map_of_mem hd) hc
    · rw [if_neg hk, ih hcs]
      constructor
      · rintro ⟨hd, hdk⟩
        exact ⟨List.mem_cons_of_mem c hd, hdk⟩
      · rintro ⟨hd, hdk⟩
        rcases List.mem_cons.1 hd with rfl | hd
        · exact absurd hdk hk
        · exact ⟨hd, hdk⟩

theorem mem_of_mem_insert {e d : Entry} {entries : List Entry} (h : d ∈ insert e entries) :
    d = e ∨ d ∈ entries := by
  induction entries with
  | nil => exact .inl (by simpa [insert] using h)
  | cons f fs ih =>
    unfold insert at h
    split at h
    · rcases List.mem_cons.1 h with rfl | h
      · exact .inl rfl
      · exact .inr (List.mem_cons_of_mem _ h)
    · split at h
      · rcases List.mem_cons.1 h with rfl | h
        · exact .inl rfl
        · exact .inr h
      · rcases List.mem_cons.1 h with rfl | h
        · exact .inr (by simp)
        · rcases ih h with rfl | h
          · exact .inl rfl
          · exact .inr (List.mem_cons_of_mem _ h)

namespace Ordered

variable {entries : List Entry}

theorem insert (h : Ordered entries) (e : Entry) : Ordered (Entry.insert e entries) := by
  induction entries with
  | nil => exact List.pairwise_singleton _ e
  | cons d ds ih =>
    obtain ⟨hd, hds⟩ := List.pairwise_cons.1 h
    rw [Entry.insert]
    by_cases heq : e.filed = d.filed
    · rw [if_pos heq]
      exact List.pairwise_cons.2 ⟨fun c hc => heq ▸ hd c hc, hds⟩
    · rw [if_neg heq]
      by_cases hp : e.filed.precedes d.filed = true
      · rw [if_pos hp]
        refine List.pairwise_cons.2 ⟨?_, h⟩
        intro c hc
        rcases List.mem_cons.1 hc with rfl | hc
        · exact hp
        · exact HashKey.precedes_trans hp (hd c hc)
      · rw [if_neg hp]
        refine List.pairwise_cons.2 ⟨?_, ih hds⟩
        intro c hc
        rcases mem_of_mem_insert hc with rfl | hc
        · exact HashKey.precedes_of_not heq hp
        · exact hd c hc

theorem pairwise_filed (h : Ordered entries) :
    (entries.map filed).Pairwise fun K K' => K.precedes K' = true :=
  List.pairwise_map.2 h

theorem nodup_filed (h : Ordered entries) : (entries.map Entry.filed).Nodup :=
  h.pairwise_filed.imp HashKey.ne_of_precedes

theorem nodup (h : Ordered entries) : entries.Nodup :=
  h.imp fun hp => ne_of_apply_ne filed (HashKey.ne_of_precedes hp)

theorem find?_eq_some_iff (h : Ordered entries) {k : HashKey} {d : Entry} :
    find? k entries = some d ↔ d ∈ entries ∧ d.filed = k :=
  Entry.find?_eq_some_iff h.nodup_filed

/-- Entries in order are determined by what is found under each hash key. -/
theorem ext {entries' : List Entry} (h : Ordered entries) (h' : Ordered entries')
    (hfind : ∀ k, find? k entries = find? k entries') : entries = entries' := by
  have hmem : ∀ d, d ∈ entries ↔ d ∈ entries' := by
    intro d
    have hd : find? d.filed entries = some d ↔ find? d.filed entries' = some d := by
      rw [hfind]
    rw [h.find?_eq_some_iff, h'.find?_eq_some_iff] at hd
    simpa only [and_true] using hd
  have hperm := (List.perm_ext_iff_of_nodup h.nodup h'.nodup).2 hmem
  exact hperm.eq_of_pairwise (fun _ _ _ _ hp hp' => absurd hp' (HashKey.not_precedes hp)) h h'

end Ordered

/-! ### The text of a hash -/

theorem map_fst_renderAll (o : Enumeration) (entries : List Entry) :
    (renderAll o entries).map Prod.fst = entries.map filed := by
  induction entries with
  | nil => rfl
  | cons e es ih => rw [renderAll, List.map_cons, List.map_cons, ih]

theorem lookup_renderAll (o : Enumeration) (k : HashKey) (entries : List Entry) :
    (renderAll o entries).lookup k = (find? k entries).map (render o) := by
  induction entries with
  | nil => rfl
  | cons e es ih =>
    rw [renderAll, List.lookup_cons, find?_cons, ih]
    by_cases h : e.filed = k
    · rw [if_pos h, h, beq_self_eq_true, Option.map_some]
    · rw [if_neg h, beq_false_of_ne (Ne.symm h)]

/-- An enumeration writes every entry once. -/
theorem Ordered.arrange_renderAll {entries : List Entry} (h : Ordered entries) (o : Enumeration) :
    (o.arrange (renderAll o entries)).Perm (entries.map (render o)) := by
  have hall : (entries.map filed).filterMap (fun k => (renderAll o entries).lookup k) =
      entries.map (render o) := by
    rw [List.filterMap_map, List.filterMap_eq_map_iff_forall_eq_some]
    intro e he
    rw [Function.comp_apply, lookup_renderAll, (h.find?_eq_some_iff).2 ⟨he, rfl⟩, Option.map_some]
  rw [← hall, Enumeration.arrange, map_fst_renderAll]
  exact (o.perm _).filterMap _

end Entry

/-! ### Which values have the same hash key -/

/-- The sort of the values whose hash keys have a tag. -/
def HashTag.sort : HashTag → ValueSort
  | integer => .integer
  | boolean => .boolean
  | string => .string

namespace Value

theorem hashKey?_integer_inj {i j : Int64} :
    (Value.integer i).hashKey? = (Value.integer j).hashKey? ↔ i = j := by
  constructor
  · intro h
    have hd : i.toUInt64 = j.toUInt64 := congrArg HashKey.digest (Option.some.inj h)
    exact congrArg Int64.ofUInt64 hd
  · rintro rfl
    rfl

theorem hashKey?_boolean_inj {a b : Bool} :
    (Value.boolean a).hashKey? = (Value.boolean b).hashKey? ↔ a = b := by
  cases a <;> cases b <;> decide

theorem sort_of_hashKey? {v : Value} {k : HashKey} (h : v.hashKey? = some k) :
    v.sort = k.tag.sort := by
  cases v with
  | integer | boolean | string =>
    cases h
    rfl
  | _ => cases h

/-- Hash keys tell the sorts of values apart. -/
theorem sort_eq_of_hashKey? {a b : Value} {k : HashKey} (ha : a.hashKey? = some k)
    (hb : b.hashKey? = some k) : a.sort = b.sort := by
  rw [sort_of_hashKey? ha, sort_of_hashKey? hb]

/-- A value with a hash key is used, as it is no signal. -/
theorem isSignal_of_hashKey? {v : Value} {k : HashKey} (h : v.hashKey? = some k) :
    v.isSignal = false := by
  cases v with
  | integer | boolean | string => rfl
  | _ => cases h

end Value

end Monkey
