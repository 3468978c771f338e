import Monkey.Proofs.Syntax.Reader.Agreement

/-!
  Monkey/Proofs/Syntax/Reader/Program.lean
  ========================================
  **Whole programs by position.**

  After a failure the reader takes one step and then goes on until it has passed a `;` or
  stands on `let`, `return` or the end.  So it gets to where the list of tokens is read
  on (`exists_synchronize`), and its rounds are those of the list (`exists_rounds`).

  In the end it has read the program that is read from the list, it has reported the
  same diagnostics, and it has never left the tokens (`program_ends`).
-/
namespace Monkey.Reader

open Rule

variable {r r' : Reader}

/-! ### To the next statement -/

/-- What the reader does to get to the next statement, after the first step. -/
abbrev skip (depth : Nat) : Act Unit :=
  iterate unsynchronized (fun _ => nextToken) depth ()

namespace Valid

theorem getElem?_of_here {t : Token} {ts : List Token} (hh : r.here = t :: ts) :
    r.tokens[r.current]? = some t := by
  have hd : r.tokens.dropLast[r.current]? = some t := by
    rw [← List.head?_drop, ← here, hh]
    rfl
  rw [List.getElem?_dropLast] at hd
  split at hd
  · exact hd
  · cases hd

/-- The token that is behind the reader once it has taken a step. -/
theorem previous_next (h : r.Valid) {t : Token} {ts : List Token} (hh : r.here = t :: ts) :
    r.next.tokens[r.next.current - 1]? = some t := by
  have hl := h.length_here
  rw [hh, List.length_cons] at hl
  rw [current_next (by omega), Nat.add_sub_cancel]
  exact getElem?_of_here hh

theorem skip_of_end (h : r.Valid) (hk : kindAt r.here = .endOfInput) {depth : Nat}
    (hd : 0 < depth) : skip depth r = .ok (some (), r) := by
  obtain ⟨depth, rfl⟩ := exists_depth hd
  exact iterate_of_false (h.unsynchronized_of_end hk)

/-- Behind a `;` the next statement starts. -/
theorem skip_of_semicolon (h : r.Valid) (hs : r.Started) {t : Token}
    (ht : r.tokens[r.current - 1]? = some t) (hk : t.kind = .semicolon) {depth : Nat}
    (hd : 0 < depth) : skip depth r = .ok (some (), r) := by
  by_cases hend : kindAt r.here = .endOfInput
  · exact h.skip_of_end hend hd
  · obtain ⟨depth, rfl⟩ := exists_depth hd
    obtain ⟨u, hu, he⟩ := h.unsynchronized_of_ne hs hend
    obtain rfl : t = u := Option.some.inj (ht.symm.trans hu)
    rw [decide_eq_false fun hn => hn.1 hk] at he
    exact iterate_of_false he

theorem skip_of_boundary (h : r.Valid) (hs : r.Started) {t : Token} {ts : List Token}
    (hh : r.here = t :: ts)
    (hk : t.kind = .letWord ∨ t.kind = .returnWord ∨ t.kind = .endOfInput) {depth : Nat}
    (hd : 0 < depth) : skip depth r = .ok (some (), r) := by
  by_cases hend : t.kind = .endOfInput
  · exact h.skip_of_end (by rw [hh]; exact hend) hd
  · obtain ⟨depth, rfl⟩ := exists_depth hd
    obtain ⟨u, -, he⟩ := h.unsynchronized_of_ne hs (by rw [hh]; exact hend)
    have hw : t.kind = .letWord ∨ t.kind = .returnWord :=
      hk.imp_right fun hor => hor.resolve_right hend
    rw [hh, decide_eq_false fun hn => hn.2 hw] at he
    exact iterate_of_false he

theorem skip_of_not (h : r.Valid) (hs : r.Started) {t : Token} {ts : List Token}
    (hh : r.here = t :: ts) (hp : ∀ u ∈ r.tokens[r.current - 1]?, u.kind ≠ .semicolon)
    (hk : ¬ (t.kind = .letWord ∨ t.kind = .returnWord ∨ t.kind = .endOfInput)) (depth : Nat) :
    skip (depth + 1) r = skip depth r.next := by
  obtain ⟨hl, hr, hend⟩ : t.kind ≠ .letWord ∧ t.kind ≠ .returnWord ∧ t.kind ≠ .endOfInput := by
    simpa only [not_or] using hk
  obtain ⟨u, hu, he⟩ := h.unsynchronized_of_ne hs (by rw [hh]; exact hend)
  rw [hh, decide_eq_true ⟨hp u hu, not_or.2 ⟨hl, hr⟩⟩] at he
  rw [skip, iterate_of_true he, nextToken_bind]

/-- Behind any other token it is looked for from the present one on. -/
theorem exists_skip (h : r.Valid) (hs : r.Started)
    (hp : ∀ u ∈ r.tokens[r.current - 1]?, u.kind ≠ .semicolon) {depth : Nat}
    (hd : r.here.length < depth) :
    ∃ r', skip depth r = .ok (some (), r') ∧ r.Onward r' ∧ r'.here = nextBoundary r.here ∧
      r'.reports = r.reports := by
  generalize hh : r.here = ts at hd
  induction ts generalizing r depth with
  | nil => exact ⟨r, h.skip_of_end (by rw [hh]; rfl) (Nat.zero_lt_of_lt hd), h.onward, hh, rfl⟩
  | cons t ts ih =>
    have hpos := Nat.zero_lt_of_lt hd
    unfold nextBoundary
    split
    · rename_i hk
      exact ⟨r, h.skip_of_boundary hs hh hk hpos, h.onward, hh, rfl⟩
    · rename_i hk
      obtain ⟨depth, rfl⟩ := exists_depth hpos
      have hn : r.next.here = ts := h.here_next.trans (ahead_of_here hh)
      have hprev := h.previous_next hh
      rw [h.skip_of_not hs hh hp hk]
      split
      · rename_i hsemi
        have hd := Nat.zero_lt_of_lt (Nat.lt_of_succ_lt_succ hd)
        have he := h.next.valid.skip_of_semicolon (started_next h) hprev hsemi hd
        exact ⟨r.next, he, h.next, hn, rfl⟩
      · rename_i hsemi
        have hp' : ∀ u ∈ r.next.tokens[r.next.current - 1]?, u.kind ≠ .semicolon := by
          rw [hprev]
          rintro u ⟨⟩
          exact hsemi
        obtain ⟨r', he, ho, hb, hr⟩ :=
          ih h.next.valid (started_next h) hp' hn (Nat.lt_of_succ_lt_succ hd)
        exact ⟨r', he, h.next.trans ho, hb, hr⟩

/-- From a token that is no `;` the next statement is looked for behind it. -/
theorem exists_skip_next (h : r.Valid) (hc : r.Clear) {depth : Nat}
    (hd : r.ahead.length < depth) :
    ∃ r', skip depth r.next = .ok (some (), r') ∧ r.Onward r' ∧ r'.here = nextBoundary r.ahead ∧
      r'.reports = r.reports := by
  rcases hh : r.here with _ | ⟨t, ts⟩
  · have hn : r.next.here = [] := h.here_next.trans (congrArg List.tail hh)
    have ha : r.ahead = [] := congrArg List.tail hh
    rw [ha]
    have he := h.next.valid.skip_of_end (by rw [hn]; rfl) (Nat.zero_lt_of_lt hd)
    exact ⟨r.next, he, h.next, hn, rfl⟩
  · have hp : ∀ u ∈ r.next.tokens[r.next.current - 1]?, u.kind ≠ .semicolon := by
      rw [h.previous_next hh]
      rintro u ⟨⟩
      rwa [Clear, hh] at hc
    obtain ⟨r', he, ho, hb, hr⟩ :=
      h.next.valid.exists_skip (started_next h) hp (by rwa [h.here_next])
    exact ⟨r', he, h.next.trans ho, by rw [hb, h.here_next], hr⟩

/-- The next statement is looked for where the list of tokens is read on. -/
theorem exists_synchronize (h : r.Valid) {f : Failure} (hf : r.StuckAt f) {depth : Nat}
    (hd : f.remaining.length < depth) :
    ∃ r', synchronize depth r = .ok (some (), r') ∧ r.Onward r' ∧ r'.here = f.resume ∧
      r'.reports = r.reports := by
  rw [synchronize, nextToken_bind]
  by_cases hu : ∃ wanted found, f.problem = .unexpected wanted found
  · obtain ⟨problem, ts⟩ := f
    obtain ⟨wanted, found, rfl⟩ := hu
    obtain ⟨hc, rfl⟩ := hf
    exact h.exists_skip_next hc hd
  · obtain ⟨problem, ts⟩ := f
    have hh : r.here = ts := by
      cases problem with
      | unexpected wanted found => exact absurd ⟨wanted, found, rfl⟩ hu
      | noOperand | notAnInteger => exact hf
    have hresume : (Failure.mk problem ts).resume =
        if kindAt ts = .semicolon then ts.tail else nextBoundary ts.tail := by
      cases problem with
      | unexpected wanted found => exact absurd ⟨wanted, found, rfl⟩ hu
      | noOperand | notAnInteger => cases ts <;> rfl
    have ha : r.ahead = ts.tail := congrArg List.tail hh
    rw [hresume, ← ha]
    split
    · rename_i hk
      cases ts with
      | nil => cases hk
      | cons t ts =>
        have hd := Nat.zero_lt_of_lt hd
        have he := h.next.valid.skip_of_semicolon (started_next h) (h.previous_next hh) hk hd
        exact ⟨r.next, he, h.next, h.here_next, rfl⟩
    · rename_i hk
      refine h.exists_skip_next (by rwa [Clear, hh]) ?_
      rw [ha, List.length_tail]
      exact Nat.lt_of_le_of_lt (Nat.sub_le _ _) hd

end Valid

/-! ### Rounds -/

theorem Valid.unfinished_of_eq (h : r.Valid) (hk : kindAt r.here = .endOfInput) :
    Reader.unfinished r = .ok (some false, r) := by
  rw [h.unfinished, decide_eq_false fun hn => hn hk]

theorem Valid.unfinished_of_ne (h : r.Valid) (hk : kindAt r.here ≠ .endOfInput) :
    Reader.unfinished r = .ok (some true, r) := by
  rw [h.unfinished, decide_eq_true hk]

theorem round_of_some {depth : Nat} {s : Statement}
    (h : statement (expression depth) r = .ok (some s, r')) :
    round depth r = .ok (some (some s), r'.next) := by
  rw [round, bind_some (attempt_of_ok h)]
  rfl

theorem round_of_none {depth : Nat} {r'' : Reader}
    (h : statement (expression depth) r = .ok (none, r'))
    (hs : synchronize depth r' = .ok (some (), r'')) :
    round depth r = .ok (some none, r'') := by
  rw [round, bind_some (attempt_of_ok h)]
  exact bind_some hs

/-- The reader reads the statement that is read from the list. -/
theorem exists_round_of_ok {ts rest : List Token} {s : Statement} {hl : rest.length < ts.length}
    {depth : Nat} (h : r.Valid) (hh : r.here = ts) (hd : ts.length < depth)
    (he : Rule.statement ts = .ok (s, ⟨rest, hl⟩)) :
    ∃ r', round depth r = .ok (some (some s), r') ∧ r.Onward r' ∧ r'.here = rest ∧
      r'.reports = r.reports := by
  have hf := (follows_rules ts).statement h hh hd
  rw [he] at hf
  generalize hz : statement (expression depth) r = z at hf
  cases hf with
  | @some _ _ r₁ _ ho ha _ hr =>
    have hn := ho.valid.here_next.trans ha
    exact ⟨r₁.next, round_of_some hz, ho.trans ho.valid.next, hn, hr⟩

/-- Where the statement fails the reader reports the failure, and goes to where the list is read
    on. -/
theorem exists_round_of_error {ts : List Token} {f : Failure} {depth : Nat} (h : r.Valid)
    (hh : r.here = ts) (hd : ts.length < depth) (he : Rule.statement ts = .error f) :
    ∃ r', round depth r = .ok (some none, r') ∧ r.Onward r' ∧ r'.here = f.resume ∧
      r'.reports = r.reports ++ [f.report r.tokens] := by
  have hf := (follows_rules ts).statement h hh hd
  have hle := ((orderly_rules ts).statement.remaining f he).length_le
  rw [he] at hf
  generalize hz : statement (expression depth) r = z at hf
  cases hf with
  | @none _ r₁ ho hstuck hr =>
    obtain ⟨r₂, hs, ho₂, hn, hr₂⟩ :=
      ho.valid.exists_synchronize hstuck (Nat.lt_of_le_of_lt hle hd)
    exact ⟨r₂, round_of_none hz hs, ho.trans ho₂, hn, hr₂.trans hr⟩

/-- The reader goes through the rounds of the list of tokens, and reports their failures. -/
theorem exists_rounds {ts : List Token} {depth k : Nat} (h : r.Valid) (hh : r.here = ts)
    (hk : ts.length < k) (hd : ts.length < depth) :
    ∃ r', collect unfinished (round depth) k r =
        .ok (some ((Rule.rounds ts).map statement?), r') ∧ r.Onward r' ∧
      r'.reports = r.reports ++
        ((Rule.rounds ts).filterMap failure?).map (Failure.report r.tokens) := by
  fun_induction Rule.rounds ts generalizing r k with
  | case1 =>
    obtain ⟨k, rfl⟩ := exists_depth hk
    have hg := h.unfinished_of_eq (by rw [hh]; rfl)
    exact ⟨r, collect_of_false hg, h.onward, (List.append_nil _).symm⟩
  | case2 t ts ht =>
    obtain ⟨k, rfl⟩ := exists_depth hk
    have hg := h.unfinished_of_eq (by rw [hh]; exact ht)
    exact ⟨r, collect_of_false hg, h.onward, (List.append_nil _).symm⟩
  | case3 t ts ht s ts₁ h₁ e ih =>
    obtain ⟨k, rfl⟩ := exists_depth hk
    have hg := h.unfinished_of_ne (by rw [hh]; exact ht)
    obtain ⟨r₁, hround, ho, hh₁, hr⟩ := exists_round_of_ok h hh hd e
    obtain ⟨r', he, ho', hr'⟩ := ih (k := k) ho.valid hh₁ (by omega) (by omega)
    rw [collect_of_true hg, bind_some hround, bind_some he]
    refine ⟨r', rfl, ho.trans ho', ?_⟩
    rw [hr', hr, ho.tokens]
    rfl
  | case4 t ts ht f e _ ih =>
    obtain ⟨k, rfl⟩ := exists_depth hk
    have hg := h.unfinished_of_ne (by rw [hh]; exact ht)
    have hlt := length_resume_lt_of_statement e
    obtain ⟨r₁, hround, ho, hh₁, hr⟩ := exists_round_of_error h hh hd e
    obtain ⟨r', he, ho', hr'⟩ := ih (k := k) ho.valid hh₁ (by omega) (by omega)
    rw [collect_of_true hg, bind_some hround, bind_some he]
    refine ⟨r', rfl, ho.trans ho', ?_⟩
    rw [hr', hr, ho.tokens, List.append_assoc]
    rfl

/-! ### Programs -/

theorem dropLast_closed (ts : List Token) : (closed ts).dropLast = Program.body ts := by
  unfold closed Program.body
  rcases ts.getLast? with _ | last
  · rfl
  · dsimp only
    split
    · rfl
    · exact List.dropLast_concat

theorem endLine_closed (ts : List Token) : Program.endLine (closed ts) = Program.endLine ts := by
  unfold closed
  split
  · rename_i last hl
    split
    · rfl
    · simp only [Program.endLine, List.getLast?_concat, hl]
  · rename_i hl
    simp only [Program.endLine, hl]
    rfl

theorem exists_program (ts : List Token) {depth : Nat} (hd : ts.length < depth) :
    ∃ r', rounds depth (ofTokens ts) =
        .ok (some ((Rule.rounds (Program.body ts)).map statement?), r') ∧
      (ofTokens ts).Onward r' ∧
      r'.reports = ((Rule.rounds (Program.body ts)).filterMap failure?).map
        (Failure.report (closed ts)) := by
  have hh : (ofTokens ts).here = Program.body ts := dropLast_closed ts
  have hle : (Program.body ts).length ≤ ts.length := by
    unfold Program.body
    split
    · split
      · exact List.length_dropLast ▸ Nat.sub_le _ _
      · exact Nat.le_refl _
    · exact Nat.zero_le _
  exact exists_rounds (valid_ofTokens ts) hh (by omega) (by omega)

/-! ### Every round ends -/

/-- To a depth of more than the number of the tokens it is done to its end. -/
def Ends (depth : Nat) (x : Act α) : Prop :=
  ∀ r, r.Valid → r.tokens.length < depth → ∃ o r', x r = .ok (o, r') ∧ r.Onward r'

theorem Follows.ends {Q : Reader → Prop} {P : List Token → Prop}
    {x : Except Failure (α × { rest // P rest })} {z : Except Halt (Option α × Reader)}
    (h : Follows Q r x z) : ∃ o r', z = .ok (o, r') ∧ r.Onward r' := by
  cases h with
  | some ho => exact ⟨_, _, rfl, ho⟩
  | none ho => exact ⟨_, _, rfl, ho⟩

theorem Valid.length_here_lt (h : r.Valid) {depth : Nat} (hd : r.tokens.length < depth) :
    r.here.length < depth := by
  have hl := h.length_here
  omega

namespace Ends

variable {depth : Nat}

theorem bind {x : Act α} {f : α → Act β} (hx : Ends depth x) (hf : ∀ a, Ends depth (f a)) :
    Ends depth (x >>= f) := by
  intro r hr hd
  obtain ⟨o, r₁, he, ho⟩ := hx r hr hd
  cases o with
  | none => exact ⟨none, r₁, bind_none he, ho⟩
  | some a =>
    obtain ⟨o, r₂, he', ho'⟩ := hf a r₁ ho.valid (by rwa [ho.tokens])
    exact ⟨o, r₂, (bind_some he).trans he', ho.trans ho'⟩

theorem pure (a : α) : Ends depth (Pure.pure a : Act α) :=
  fun r hr _ => ⟨some a, r, rfl, hr.onward⟩

theorem nextToken : Ends depth nextToken :=
  fun r hr _ => ⟨some (), r.next, rfl, hr.next⟩

theorem fail (position : Reader → Nat) (t : Token) (message : String) :
    Ends depth (Reader.fail position t message : Act α) :=
  fun _ hr _ => ⟨none, _, rfl, hr.report _⟩

theorem expectPeek (k : Token.Kind) : Ends depth (expectPeek k) := by
  intro r hr _
  by_cases hk : kindAt r.ahead = k
  · exact ⟨_, _, hr.expectPeek_of_eq hk, hr.next⟩
  · exact ⟨_, _, hr.expectPeek_of_ne hk, hr.report _⟩

theorem separator : Ends depth separator := by
  intro r hr hd
  by_cases hk : kindAt r.ahead = .rightBrace
  · exact ⟨_, r, separator_of_eq hr hk, hr.onward⟩
  · rw [separator_of_ne hr hk]
    exact expectPeek .comma r hr hd

theorem expression (level : Precedence) : Ends depth (expression depth level) :=
  fun _ hr hd => ((follows_rules _).expression level hr rfl (hr.length_here_lt hd)).ends

theorem statement : Ends depth (statement (Reader.expression depth)) :=
  fun _ hr hd => ((follows_rules _).statement hr rfl (hr.length_here_lt hd)).ends

theorem blockRound : Ends depth (blockRound (Reader.expression depth)) :=
  statement.bind fun _ => nextToken.bind fun _ => .pure _

theorem pairRound : Ends depth (pairRound (Reader.expression depth)) :=
  nextToken.bind fun _ => (expression _).bind fun _ => (expectPeek _).bind fun _ =>
    nextToken.bind fun _ => (expression _).bind fun _ => separator.bind fun _ => .pure _

theorem extension (left : Expr) : Ends depth (extension depth (Reader.expression depth) left) := by
  intro r hr hd
  obtain ⟨u, hu, -, huk, -⟩ := hr.cur
  rcases hh : r.here with _ | ⟨t, rest⟩
  · rw [hh] at huk
    rw [Reader.extension, bind_some hu, huk]
    exact fail current u _ r hr hd
  cases hx : Extension.ofKind? t.kind with
  | none =>
    rw [Reader.extension, bind_some (hr.cur_eq hh), hx]
    exact fail current t _ r hr hd
  | some x =>
    cases x with
    | infixOp op =>
      rw [extension_of_infixOp hr hh hx]
      exact (nextToken.bind fun _ => (expression _).bind fun _ => .pure _) r hr hd
    | index =>
      rw [extension_of_index hr hh hx]
      exact (nextToken.bind fun _ => (expression _).bind fun _ => (expectPeek _).bind fun _ =>
        .pure _) r hr hd
    | call =>
      have hc : r.Clear := clear_of_here hh (by rw [kind_of_call hx]; decide)
      have hl := hr.length_here_lt hd
      rw [hh, List.length_cons] at hl
      have hi := (follows_rules rest).items .rightParen (by decide) (by decide) hr hc
        (ahead_of_here hh) (Nat.lt_of_succ_lt hl)
      obtain ⟨o, r₁, he, ho⟩ := hi.ends
      rw [extension_of_call hr hh hx, call]
      cases o with
      | none => exact ⟨_, _, bind_none he, ho⟩
      | some arguments => exact ⟨_, _, bind_some he, ho⟩

theorem extensionRound (left : Expr) :
    Ends depth (extensionRound depth (Reader.expression depth) left) :=
  nextToken.bind fun _ => extension left

theorem round : Ends depth (round depth) := by
  intro r hr hd
  have hl := hr.length_here_lt hd
  cases he : Rule.statement r.here with
  | ok a =>
    obtain ⟨r', hround, ho, -⟩ := exists_round_of_ok hr rfl hl he
    exact ⟨_, r', hround, ho⟩
  | error f =>
    obtain ⟨r', hround, ho, -⟩ := exists_round_of_error hr rfl hl he
    exact ⟨_, r', hround, ho⟩

end Ends

/-- What the reader reports of a failure is its diagnostic. -/
theorem report_closed (ts : List Token) (f : Failure) :
    ((f.report (closed ts)).line, (f.report (closed ts)).message) =
      ((f.diagnostic (Program.endLine ts)).line,
        (f.diagnostic (Program.endLine ts)).problem.message) := by
  simp only [Failure.report, Failure.diagnostic, endLine_closed]

/-- A round that is repeated for as long as something holds is done to its end.  It takes the
    reader further on, or it fails. -/
def LeadsOn (depth : Nat) (guard : Act Bool) (round : Act α) : Prop :=
  ∀ r, r.Valid → r.tokens.length < depth → guard r = .ok (some false, r) ∨
    guard r = .ok (some true, r) ∧
      ∃ o r', round r = .ok (o, r') ∧ (o = none ∨ r.current < r'.current)

theorem leadsOn_of_advances {depth : Nat} {guard : Act Bool} {round : Act α}
    (ha : Advances guard round) (he : Ends depth round) : LeadsOn depth guard round := by
  intro r hr hd
  refine (ha r hr).imp_right fun ⟨hg, hround⟩ => ⟨hg, ?_⟩
  obtain ⟨o, r', h, -⟩ := he r hr hd
  exact ⟨o, r', h, hround o r' h⟩

/-- **Reading always ends, and never leaves the tokens.**  Whatever the tokens are, a depth of
    one more than their number is enough, and more depth makes no difference: the reader
    reads the program and reports the diagnostics that are read from the list of tokens.  It
    never goes back, and each number on its trail is that of a token.

    From wherever it stands, no rule, no way to the next statement and no rest of a program looks
    for a token that is not there, in front of the first one either, or leads back; and each
    round that is repeated leads on, or it is the last one, or the statement fails. -/
theorem program_ends (ts : List Token) (n : Nat) :
    (∃ r, program (ts.length + 1 + n) (ofTokens ts) = .ok (some (Program.read ts).program, r) ∧
      r.tokens = closed ts ∧
      r.reports.map (fun p => (p.line, p.message)) =
        (Program.read ts).diagnostics.map (fun d => (d.line, d.problem.message)) ∧
      r.trail.Pairwise (· ≥ ·) ∧ ∀ i ∈ r.trail, i < (closed ts).length) ∧
    (∀ depth, EveryRule Sound depth (expression depth) ∧ Sound Unit (synchronize depth) ∧
      Sound (List (Option Statement)) (rounds depth)) ∧
    ∀ depth, LeadsOn depth unfinished (round depth) ∧
      LeadsOn depth insideBlock (blockRound (expression depth)) ∧
      LeadsOn depth insideHash (pairRound (expression depth)) ∧
      ∀ level left,
        LeadsOn depth (continues level) (extensionRound depth (expression depth) left) := by
  refine ⟨?_, fun depth => ?_, fun depth => ?_⟩
  · have hd : ts.length < ts.length + 1 + n := by omega
    obtain ⟨r, he, ho, hr⟩ := exists_program ts hd
    refine ⟨r, ?_, ho.tokens, ?_, ho.valid.sorted, fun i hi => ?_⟩
    · rw [program, bind_some he, Program.read, List.filterMap_map]
      rfl
    · rw [hr, Program.read, List.map_map, List.map_map]
      exact List.map_congr_left fun f _ => report_closed ts f
    · have hc := ho.valid.current
      rw [ho.tokens] at hc
      exact Nat.lt_of_le_of_lt (ho.valid.le_of_mem_trail hi) hc
  · exact ⟨closed_sound.rules depth, sound_synchronize depth, sound_rounds depth⟩
  · have he := (closed_sound.rules depth).expression
    refine ⟨leadsOn_of_advances (advances_round depth) .round,
      leadsOn_of_advances (advances_blockRound he) .blockRound,
      leadsOn_of_advances (advances_pairRound he) .pairRound, fun level left => ?_⟩
    exact leadsOn_of_advances (advances_extensionRound he depth level left) (.extensionRound left)

end Monkey.Reader
