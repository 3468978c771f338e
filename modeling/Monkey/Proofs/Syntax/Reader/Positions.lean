import Monkey.Proofs.Syntax.Reader.Closed

/-!
  Monkey/Proofs/Syntax/Reader/Positions.lean
  ==========================================
  **Where a reader stands.**

  A reader that stands on one of its tokens, the last of which is the end of the input,
  never looks for a token that it does not have, and it never goes back (`Sound`).  The
  rules are sound because the actions are that they are put together from; what goes to
  the next statement after a failure looks at the token in front of the present one, and
  it is sound because it takes a step before it looks (`sound_synchronize`).

  A round that is repeated takes the reader further on, unless it fails (`Advances`).
-/
namespace Monkey.Reader

/-- The reader stands on one of its tokens, the last of which is the end of the input.  The
    trail ends there, and it has never led back. -/
structure Valid (r : Reader) : Prop where
  last : ∃ t, r.tokens.getLast? = some t ∧ t.kind = .endOfInput
  current : r.current < r.tokens.length
  head : r.trail.head? = some r.current
  sorted : r.trail.Pairwise (· ≥ ·)

/-- The second reader is the first one further on, or where it was. -/
structure Onward (r r' : Reader) : Prop where
  tokens : r'.tokens = r.tokens
  valid : r'.Valid
  current : r.current ≤ r'.current
  trail : r.trail <:+ r'.trail

variable {r r' : Reader}

theorem Valid.onward (h : r.Valid) : r.Onward r where
  tokens := rfl
  valid := h
  current := Nat.le_refl _
  trail := List.suffix_rfl

theorem Onward.trans {r'' : Reader} (h : r.Onward r') (h' : r'.Onward r'') : r.Onward r'' where
  tokens := h'.tokens.trans h.tokens
  valid := h'.valid
  current := Nat.le_trans h.current h'.current
  trail := h.trail.trans h'.trail

theorem exists_last_closed (ts : List Token) :
    ∃ t, (closed ts).getLast? = some t ∧ t.kind = .endOfInput := by
  unfold closed
  split
  · split
    · exact ⟨_, ‹_›, ‹_›⟩
    · exact ⟨_, List.getLast?_concat, rfl⟩
  · exact ⟨_, rfl, rfl⟩

theorem valid_ofTokens (ts : List Token) : (ofTokens ts).Valid where
  last := exists_last_closed ts
  current := by
    obtain ⟨t, ht, -⟩ := exists_last_closed ts
    exact List.length_pos_of_mem (List.mem_of_getLast? ht)
  head := rfl
  sorted := List.pairwise_singleton _ _

/-! ### The tokens from the present one on -/

/-- The tokens from the present one on, without the last one. -/
def here (r : Reader) : List Token :=
  r.tokens.dropLast.drop r.current

/-- The tokens behind the present one, without the last one. -/
def ahead (r : Reader) : List Token :=
  r.here.tail

/-- The line of the end of the input. -/
def endLine (r : Reader) : Nat :=
  Program.endLine r.tokens

namespace Valid

theorem length_here (h : r.Valid) : r.current + r.here.length + 1 = r.tokens.length := by
  have hc := h.current
  rw [here, List.length_drop, List.length_dropLast]
  omega

/-- A token is the first one of those from it on, or it is the last one of all. -/
theorem tokenAt (h : r.Valid) {i : Nat} (hi : i < r.tokens.length) :
    ∃ t, tokenAt i r = .ok (some t, r) ∧ (∀ u ∈ (r.tokens.dropLast.drop i).head?, t = u) ∧
      t.kind = kindAt (r.tokens.dropLast.drop i) ∧
      t.line = lineAt r.endLine (r.tokens.dropLast.drop i) := by
  obtain ⟨last, hlast, hk⟩ := h.last
  obtain ⟨ts, hts⟩ := List.getLast?_eq_some_iff.1 hlast
  have hline : r.endLine = last.line := by
    rw [endLine, Program.endLine, hlast]
  unfold Reader.tokenAt
  rw [hts, List.length_append, List.length_singleton] at hi
  simp only [hline, hts, List.dropLast_concat]
  by_cases hlt : i < ts.length
  · rw [List.getElem?_append_left hlt, List.getElem?_eq_getElem hlt, List.drop_eq_getElem_cons hlt]
    exact ⟨_, rfl, fun u hu => Option.some.inj hu, rfl, rfl⟩
  · obtain rfl : i = ts.length := by omega
    rw [List.getElem?_concat_length, List.drop_length]
    exact ⟨last, rfl, nofun, hk, rfl⟩

theorem cur (h : r.Valid) : ∃ t, cur r = .ok (some t, r) ∧ (∀ u ∈ r.here.head?, t = u) ∧
    t.kind = kindAt r.here ∧ t.line = lineAt r.endLine r.here :=
  h.tokenAt h.current

theorem drop_following (h : r.Valid) : r.tokens.dropLast.drop r.following = r.ahead := by
  rw [ahead, here, List.tail_drop]
  have hc := h.current
  by_cases hs : r.current + 1 < r.tokens.length
  · rw [following, Nat.min_eq_left (by omega)]
  · rw [following, Nat.min_eq_right (by omega)]
    rw [List.drop_eq_nil_iff.2 (by simp), List.drop_eq_nil_iff.2 (by simp; omega)]

theorem peek (h : r.Valid) : ∃ t, peek r = .ok (some t, r) ∧ (∀ u ∈ r.ahead.head?, t = u) ∧
    t.kind = kindAt r.ahead ∧ t.line = lineAt r.endLine r.ahead := by
  have hc := h.current
  have ht := h.tokenAt (i := r.following) (by unfold following; omega)
  rwa [h.drop_following] at ht

/-- Behind a token that does not end the input there is another one. -/
theorem succ_lt (h : r.Valid) (hk : kindAt r.here ≠ .endOfInput) :
    r.current + 1 < r.tokens.length := by
  have hl := h.length_here
  rcases he : r.here with _ | ⟨t, ts⟩
  · rw [he] at hk
    exact absurd rfl hk
  · rw [he, List.length_cons] at hl
    omega

theorem succ_lt_of_ahead (h : r.Valid) (hk : kindAt r.ahead ≠ .endOfInput) :
    r.current + 1 < r.tokens.length := by
  have hl := h.length_here
  rcases he : r.here with _ | ⟨t, ts⟩
  · rw [ahead, he] at hk
    exact absurd rfl hk
  · rw [he, List.length_cons] at hl
    omega

/-! ### Steps -/

theorem le_of_mem_trail (h : r.Valid) {i : Nat} (hi : i ∈ r.trail) : i ≤ r.current := by
  obtain ⟨is, hr⟩ := List.head?_eq_some_iff.1 h.head
  have hs := h.sorted
  rw [hr] at hi hs
  rcases List.mem_cons.1 hi with rfl | hi
  · exact Nat.le_refl _
  · exact (List.pairwise_cons.1 hs).1 i hi

theorem next (h : r.Valid) : r.Onward r.next where
  tokens := rfl
  valid := by
    have hc := h.current
    refine ⟨h.last, ?_, rfl, List.pairwise_cons.2 ⟨fun i hi => ?_, h.sorted⟩⟩
    · dsimp only [Reader.next]
      split <;> omega
    · have hi := h.le_of_mem_trail hi
      split <;> omega
  current := by
    dsimp only [Reader.next]
    split <;> omega
  trail := List.suffix_cons _ _

theorem here_next (h : r.Valid) : r.next.here = r.ahead := by
  have hc := h.current
  rw [← h.drop_following, here, Reader.next, following]
  congr 1
  dsimp only
  split <;> omega

end Valid

theorem current_next (h : r.current + 1 < r.tokens.length) : r.next.current = r.current + 1 :=
  if_pos h

/-- A reader that goes on comes to stand behind the token where it was, if that was not the
    last one. -/
theorem Onward.lt_next (h : r.Onward r') (hr : r.current + 1 < r.tokens.length) :
    r.current < r'.next.current := by
  have hc := h.current
  have hv := h.valid.current
  have ht := h.tokens
  by_cases hs : r'.current + 1 < r'.tokens.length
  · rw [current_next hs]
    omega
  · have hn := h.valid.next.current
    rw [ht] at hs hv
    omega

/-! ### Soundness -/

/-- What is done does not look for a token that is not there, and does not go back. -/
structure Sound (α : Type) (x : Act α) : Prop where
  inside : ∀ r, r.Valid → x r ≠ .error .outside
  onward : ∀ r o r', r.Valid → x r = .ok (o, r') → r.Onward r'

theorem sound_of_eq {x : Act α} (h : ∀ r, r.Valid → ∃ o r', x r = .ok (o, r') ∧ r.Onward r') :
    Sound α x where
  inside r hr := by
    obtain ⟨o, r', hx, -⟩ := h r hr
    rw [hx]
    exact nofun
  onward r o r' hr hx := by
    obtain ⟨o₁, r₁, hx', ho⟩ := h r hr
    rw [hx] at hx'
    cases hx'
    exact ho

theorem closed_sound : Closed Sound where
  pure a := sound_of_eq fun r hr => ⟨some a, r, rfl, hr.onward⟩
  bind {α β x f} hx hf := by
    constructor
    · intro r hr
      rcases h : x r with halt | ⟨a | a, r₁⟩
      · rw [bind_error h]
        rintro ⟨⟩
        exact hx.inside r hr h
      · rw [bind_none h]
        exact nofun
      · rw [bind_some h]
        exact (hf a).inside r₁ (hx.onward r _ r₁ hr h).valid
    · intro r o r' hr he
      rcases h : x r with halt | ⟨a | a, r₁⟩
      · rw [bind_error h] at he
        cases he
      · rw [bind_none h] at he
        cases he
        exact hx.onward r _ _ hr h
      · rw [bind_some h] at he
        have ho := hx.onward r _ r₁ hr h
        exact ho.trans ((hf a).onward r₁ o r' ho.valid he)
  tooDeep := ⟨fun _ _ => nofun, fun _ _ _ _ => nofun⟩
  cur := sound_of_eq fun r hr => ⟨_, r, hr.cur.choose_spec.1, hr.onward⟩
  peek := sound_of_eq fun r hr => ⟨_, r, hr.peek.choose_spec.1, hr.onward⟩
  nextToken := sound_of_eq fun r hr => ⟨_, r.next, rfl, hr.next⟩
  fail position t message := sound_of_eq fun r hr =>
    ⟨none, _, rfl, rfl, ⟨hr.last, hr.current, hr.head, hr.sorted⟩, Nat.le_refl _, List.suffix_rfl⟩

/-! ### Going to the next statement -/

/-- The reader does not stand on the first of several tokens. -/
def Started (r : Reader) : Prop :=
  0 < r.current ∨ r.tokens.length = 1

theorem started_next (h : r.Valid) : r.next.Started := by
  have hc := h.current
  by_cases hs : r.current + 1 < r.tokens.length
  · exact .inl (by rw [current_next hs]; omega)
  · have hn := h.next.current
    unfold Started
    simp only [Reader.next] at hn ⊢
    omega

namespace Valid

theorem curIs (h : r.Valid) (k : Token.Kind) :
    curIs k r = .ok (some (decide (kindAt r.here = k)), r) := by
  obtain ⟨t, ht, -, hk, -⟩ := h.cur
  rw [Reader.curIs, bind_some ht, hk]
  rfl

theorem peekIs (h : r.Valid) (k : Token.Kind) :
    peekIs k r = .ok (some (decide (kindAt r.ahead = k)), r) := by
  obtain ⟨t, ht, -, hk, -⟩ := h.peek
  rw [Reader.peekIs, bind_some ht, hk]
  rfl

theorem continues (h : r.Valid) (level : Precedence) :
    continues level r =
      .ok (some (decide (kindAt r.ahead ≠ .semicolon ∧ level < .of (kindAt r.ahead))), r) := by
  obtain ⟨t, ht, -, hk, -⟩ := h.peek
  rw [Reader.continues, bind_some ht, hk]
  rfl

theorem insideBlock (h : r.Valid) :
    insideBlock r =
      .ok (some (decide (kindAt r.here ≠ .rightBrace ∧ kindAt r.here ≠ .endOfInput)), r) := by
  obtain ⟨t, ht, -, hk, -⟩ := h.cur
  rw [Reader.insideBlock, bind_some ht, hk]
  rfl

theorem insideHash (h : r.Valid) :
    insideHash r = .ok (some (decide (kindAt r.ahead ≠ .rightBrace)), r) := by
  obtain ⟨t, ht, -, hk, -⟩ := h.peek
  rw [Reader.insideHash, bind_some ht, hk]
  rfl

theorem unfinished (h : r.Valid) :
    unfinished r = .ok (some (decide (kindAt r.here ≠ .endOfInput)), r) := by
  obtain ⟨t, ht, -, hk, -⟩ := h.cur
  rw [Reader.unfinished, bind_some ht, hk]
  rfl

theorem previous (h : r.Valid) (hpos : 0 < r.current) :
    ∃ t, r.tokens[r.current - 1]? = some t ∧ previous r = .ok (some t, r) := by
  have hc := h.current
  have hlt : r.current - 1 < r.tokens.length := by omega
  refine ⟨_, List.getElem?_eq_getElem hlt, ?_⟩
  rw [Reader.previous, if_neg (by omega)]
  simp only [Reader.tokenAt, List.getElem?_eq_getElem hlt]

/-- The first of several tokens does not end the input, and a reader that has started does not
    stand there. -/
theorem pos_of_started (h : r.Valid) (hs : r.Started) (hk : kindAt r.here ≠ .endOfInput) :
    0 < r.current := by
  have hlt := h.succ_lt hk
  rcases hs with hs | hs
  · exact hs
  · omega

theorem unsynchronized_of_end (h : r.Valid) (hk : kindAt r.here = .endOfInput) :
    unsynchronized r = .ok (some false, r) := by
  rw [Reader.unsynchronized, bind_some (h.curIs _), if_pos (decide_eq_true hk)]
  rfl

theorem unsynchronized_of_ne (h : r.Valid) (hs : r.Started) (hk : kindAt r.here ≠ .endOfInput) :
    ∃ t, r.tokens[r.current - 1]? = some t ∧ unsynchronized r =
      .ok (some (decide (t.kind ≠ .semicolon ∧
        ¬ (kindAt r.here = .letWord ∨ kindAt r.here = .returnWord))), r) := by
  obtain ⟨t, ht, hp⟩ := h.previous (h.pos_of_started hs hk)
  obtain ⟨u, hu, -, huk, -⟩ := h.cur
  refine ⟨t, ht, ?_⟩
  rw [Reader.unsynchronized, bind_some (h.curIs _), if_neg (by simpa using hk), bind_some hp]
  by_cases hsemi : t.kind = .semicolon
  · rw [if_pos hsemi, decide_eq_false fun hn => hn.1 hsemi]
    rfl
  · rw [if_neg hsemi, bind_some hu]
    simp only [hsemi, huk, not_false_eq_true, true_and, ne_eq]
    rfl

theorem unsynchronized (h : r.Valid) (hs : r.Started) :
    ∃ b, unsynchronized r = .ok (some b, r) := by
  by_cases hk : kindAt r.here = .endOfInput
  · exact ⟨_, h.unsynchronized_of_end hk⟩
  · obtain ⟨t, -, he⟩ := h.unsynchronized_of_ne hs hk
    exact ⟨_, he⟩

end Valid

/-- The loop never looks in front of the first token. -/
theorem sound_skipping (depth : Nat) (hr : r.Valid) (hs : r.Started) :
    iterate unsynchronized (fun _ => nextToken) depth () r = .error .tooDeep ∨
      ∃ r', iterate unsynchronized (fun _ => nextToken) depth () r = .ok (some (), r') ∧
        r.Onward r' := by
  induction depth generalizing r with
  | zero => exact .inl rfl
  | succ depth ih =>
    obtain ⟨b, hb⟩ := hr.unsynchronized hs
    rw [iterate, bind_some hb]
    cases b with
    | false => exact .inr ⟨r, rfl, hr.onward⟩
    | true =>
      rcases ih hr.next.valid (started_next hr) with he | ⟨r', he, ho⟩
      · exact .inl he
      · exact .inr ⟨r', he, hr.next.trans ho⟩

theorem sound_synchronize (depth : Nat) : Sound Unit (synchronize depth) where
  inside r hr := by
    rw [synchronize, nextToken_bind]
    rcases sound_skipping depth hr.next.valid (started_next hr) with he | ⟨r', he, -⟩
    · rw [he]
      exact nofun
    · rw [he]
      exact nofun
  onward r o r' hr h := by
    rw [synchronize, nextToken_bind] at h
    rcases sound_skipping depth hr.next.valid (started_next hr) with he | ⟨r'', he, ho⟩
    · rw [he] at h
      cases h
    · rw [he] at h
      cases h
      exact hr.next.trans ho

theorem sound_attempt {x : Act α} (hx : Sound α x) : Sound (Option α) (attempt x) where
  inside r hr := by
    rcases h : x r with halt | ⟨o, r₁⟩
    · rw [attempt_of_error h]
      rintro ⟨⟩
      exact hx.inside r hr h
    · rw [attempt_of_ok h]
      exact nofun
  onward r o r' hr he := by
    rcases h : x r with halt | ⟨o₁, r₁⟩
    · rw [attempt_of_error h] at he
      cases he
    · rw [attempt_of_ok h] at he
      cases he
      exact hx.onward r o₁ r' hr h

theorem sound_round (depth : Nat) : Sound (Option Statement) (round depth) := by
  have hs := (closed_sound.rules depth).statement
  refine closed_sound.bind (sound_attempt hs) fun o => ?_
  cases o with
  | some s => exact closed_sound.bind closed_sound.nextToken fun _ => closed_sound.pure _
  | none => exact closed_sound.bind (sound_synchronize depth) fun _ => closed_sound.pure _

theorem sound_rounds (depth : Nat) : Sound (List (Option Statement)) (rounds depth) :=
  closed_sound.collect (closed_sound.bind closed_sound.cur fun _ => closed_sound.pure _)
    (sound_round depth) depth

/-! ### Rounds -/

/-- A round that is repeated for as long as something holds takes the reader further on, or it
    fails. -/
def Advances (guard : Act Bool) (round : Act α) : Prop :=
  ∀ r, r.Valid → guard r = .ok (some false, r) ∨
    guard r = .ok (some true, r) ∧
      ∀ o r', round r = .ok (o, r') → o = none ∨ r.current < r'.current

theorem advances_of_some {guard : Act Bool} {round : Act α}
    (hg : ∀ r, r.Valid → ∃ b, guard r = .ok (some b, r))
    (h : ∀ r a r', r.Valid → guard r = .ok (some true, r) → round r = .ok (some a, r') →
      r.current < r'.current) : Advances guard round := by
  intro r hr
  obtain ⟨b, hb⟩ := hg r hr
  cases b with
  | false => exact .inl hb
  | true =>
    refine .inr ⟨hb, fun o r' he => ?_⟩
    cases o with
    | none => exact .inl rfl
    | some a => exact .inr (h r a r' hr hb he)

theorem eq_true_of_guard {b : Bool} (h : (.ok (some b, r) : Except Halt (Option Bool × Reader)) =
    .ok (some true, r)) : b = true := by
  cases h
  rfl

theorem lt_of_expectPeek {k : Token.Kind} (hr : r.Valid) (hk : k ≠ .endOfInput)
    (h : expectPeek k r = .ok (some u, r')) : r.current < r'.current := by
  obtain ⟨t, ht, -, htk, -⟩ := hr.peek
  rw [expectPeek, bind_some ht] at h
  split at h
  · rename_i hw
    cases h
    exact hr.onward.lt_next (hr.succ_lt_of_ahead (by rwa [← htk, hw]))
  · cases h

section

variable {e : Precedence → Act Expr} (he : ∀ level, Sound Expr (e level)) (depth : Nat)

include he

theorem advances_blockRound : Advances insideBlock (blockRound e) := by
  refine advances_of_some (fun r hr => ⟨_, hr.insideBlock⟩) fun r s r' hr hg h => ?_
  rw [hr.insideBlock] at hg
  obtain ⟨-, hk⟩ := of_decide_eq_true (eq_true_of_guard hg)
  obtain ⟨s', r₁, hs, h⟩ := of_bind_some h
  cases h
  exact ((closed_sound.statement he).onward r _ r₁ hr hs).lt_next (hr.succ_lt hk)

theorem advances_pairRound : Advances insideHash (pairRound e) := by
  refine advances_of_some (fun r hr => ⟨_, hr.insideHash⟩) fun r p r' hr _ h => ?_
  rw [pairRound, nextToken_bind] at h
  obtain ⟨key, r₁, hkey, h⟩ := of_bind_some h
  obtain ⟨_, r₂, hcolon, h⟩ := of_bind_some h
  have h₁ := hr.next.trans ((he _).onward _ _ _ hr.next.valid hkey)
  have hlt := lt_of_expectPeek h₁.valid (by decide) hcolon
  have h₂ := (closed_sound.expectPeek _).onward _ _ _ h₁.valid hcolon
  -- what is behind the colon does not lead back
  have hrest : Sound (Expr × Expr) (do
      nextToken
      let value ← e .lowest
      separator
      return (key, value)) :=
    closed_sound.bind closed_sound.nextToken fun _ => closed_sound.bind (he _) fun _ =>
      closed_sound.bind closed_sound.separator fun _ => closed_sound.pure _
  have h₃ := (hrest.onward _ _ _ h₂.valid h).current
  exact Nat.lt_of_le_of_lt h₁.current (Nat.lt_of_lt_of_le hlt h₃)

theorem advances_extensionRound (level : Precedence) (left : Expr) :
    Advances (continues level) (extensionRound depth e left) := by
  refine advances_of_some (fun r hr => ⟨_, hr.continues level⟩) fun r _ r' hr hg h => ?_
  rw [hr.continues] at hg
  obtain ⟨-, hlt⟩ := of_decide_eq_true (eq_true_of_guard hg)
  have hk : kindAt r.ahead ≠ .endOfInput := by
    intro hk
    rw [hk] at hlt
    exact Nat.not_lt_zero _ hlt
  rw [extensionRound, nextToken_bind] at h
  have hc := ((closed_sound.extension he depth left).onward _ _ _ hr.next.valid h).current
  exact Nat.lt_of_lt_of_le (hr.onward.lt_next (hr.succ_lt_of_ahead hk)) hc

end

/-- A round of a program takes the reader further on even if its statement fails. -/
theorem lt_of_round {depth : Nat} {o : Option (Option Statement)} (hr : r.Valid)
    (hg : unfinished r = .ok (some true, r)) (h : round depth r = .ok (o, r')) :
    r.current < r'.current := by
  rw [hr.unfinished] at hg
  have hlt := hr.succ_lt (of_decide_eq_true (eq_true_of_guard hg))
  have hs := (closed_sound.rules depth).statement
  rw [round] at h
  rcases hx : statement (expression depth) r with halt | ⟨s | s, r₁⟩
  · rw [bind_error (attempt_of_error hx)] at h
    cases h
  · rw [bind_some (attempt_of_ok hx)] at h
    have h₁ := hs.onward _ _ _ hr hx
    have hskip := sound_skipping depth h₁.valid.next.valid (started_next h₁.valid)
    simp only [synchronize, bind_assoc, nextToken_bind] at h
    rcases hskip with he | ⟨r₂, he, h₂⟩
    · rw [bind_error he] at h
      cases h
    · rw [bind_some he] at h
      cases h
      exact Nat.lt_of_lt_of_le (h₁.lt_next hlt) h₂.current
  · rw [bind_some (attempt_of_ok hx)] at h
    cases h
    exact (hs.onward _ _ _ hr hx).lt_next hlt

theorem advances_round (depth : Nat) : Advances unfinished (round depth) :=
  advances_of_some (fun _ hr => ⟨_, hr.unfinished⟩) fun _ _ _ hr hg h => lt_of_round hr hg h

end Monkey.Reader
