import Mathlib.Data.List.Perm.Subperm
import Monkey.Proofs.Syntax.Offender
import Monkey.Proofs.Syntax.Reader.Program
import Monkey.Proofs.Token.Lines

/-!
  Monkey/Proofs/Syntax/Reader/Order.lean
  ======================================
  **Reports come in the order of the tokens.**

  A report has the number of the offending token, which follows from how many tokens
  remained.  As each failure has fewer tokens remaining than the one before, the numbers go up
  (`increasing_positions`); and what stands at a number is the token that the failure speaks of
  (`about_report`).

  So there are no more reports than tokens, and their lines are in order if those of the tokens
  are (`sorted_lines`), which they are in a scanned source (`program_in_order`).
-/
namespace Monkey

/-- The report is about the token of its number: it has the line of the token, and words a
    problem that the token has. -/
def Report.About (tokens : List Token) (p : Report) : Prop :=
  ∃ t, tokens[p.position]? = some t ∧ p.line = t.line ∧
    ∃ problem : Problem, problem.About t ∧ p.message = problem.message

namespace Reader

open Rule

variable {ts : List Token} {f g : Failure}

theorem length_closed (ts : List Token) : (closed ts).length = (Program.body ts).length + 1 := by
  have hl := (valid_ofTokens ts).length_here
  have hh : (ofTokens ts).here = Program.body ts := dropLast_closed ts
  rw [hh] at hl
  change 0 + _ + 1 = (closed ts).length at hl
  omega

/-! ### Numbers -/

theorem position_report (ts : List Token) (f : Failure) :
    (f.report (closed ts)).position = (Program.body ts).length - f.remaining.length := by
  rw [Failure.report, length_closed, Nat.add_sub_cancel]

/-- Where fewer tokens remain the number is higher. -/
theorem position_lt_of_length_lt (hf : f.remaining <:+ Program.body ts)
    (hlt : g.remaining.length < f.remaining.length) :
    (f.report (closed ts)).position < (g.report (closed ts)).position := by
  have hle := hf.length_le
  rw [position_report, position_report]
  omega

theorem getElem?_of_tokenAt {r r' : Reader} {i : Nat} {t : Token}
    (h : tokenAt i r = .ok (some t, r')) : r.tokens[i]? = some t := by
  unfold tokenAt at h
  split at h
  · rename_i u hu
    cases h
    exact hu
  · cases h

/-- The token of a number is the first one of those from it on, or the end of the input. -/
theorem exists_getElem?_closed {i : Nat} (hi : i < (closed ts).length) :
    ∃ t, (closed ts)[i]? = some t ∧ (∀ u ∈ ((Program.body ts).drop i).head?, t = u) ∧
      t.kind = kindAt ((Program.body ts).drop i) ∧
      t.line = lineAt (Program.endLine (closed ts)) ((Program.body ts).drop i) := by
  obtain ⟨t, ht, hhead, hkind, hline⟩ := (valid_ofTokens ts).tokenAt hi
  rw [← dropLast_closed]
  exact ⟨t, getElem?_of_tokenAt ht, hhead, hkind, hline⟩

/-- The token of its number is the one that a failure speaks of. -/
theorem about_report (hf : f.remaining <:+ Program.body ts) (ha : f.Apt) :
    (f.report (closed ts)).About (closed ts) := by
  have hdrop : (Program.body ts).drop (f.report (closed ts)).position = f.remaining := by
    rw [position_report, ← List.suffix_iff_eq_drop.1 hf]
  have hlt : (f.report (closed ts)).position < (closed ts).length := by
    rw [length_closed, position_report]
    omega
  obtain ⟨t, ht, hhead, hkind, hline⟩ := exists_getElem?_closed hlt
  rw [hdrop] at hhead hkind hline
  exact ⟨t, ht, hline.symm, f.problem, ha t hhead hkind, rfl⟩

/-! ### All reports of a program -/

/-- The reports of the failures of a program. -/
def reportsOf (ts : List Token) : List Report :=
  (failures (Program.body ts)).map (Failure.report (closed ts))

theorem exists_reports (ts : List Token) (n : Nat) :
    ∃ r, program (ts.length + 1 + n) (ofTokens ts) = .ok (some (Program.read ts).program, r) ∧
      r.reports = reportsOf ts := by
  have hd : ts.length < ts.length + 1 + n := by omega
  obtain ⟨r, he, -, hr⟩ := exists_program ts hd
  refine ⟨r, ?_, hr⟩
  rw [program, bind_some he, Program.read, List.filterMap_map]
  rfl

theorem about_of_mem_reportsOf {p : Report} (h : p ∈ reportsOf ts) : p.About (closed ts) := by
  obtain ⟨f, hf, rfl⟩ := List.mem_map.1 h
  exact about_report (suffix_of_mem_failures hf) (apt_of_mem_failures hf)

theorem increasing_positions (ts : List Token) :
    ((reportsOf ts).map Report.position).Pairwise (· < ·) := by
  rw [List.pairwise_map, reportsOf, List.pairwise_map]
  refine (pairwise_failures (Program.body ts)).imp_of_mem fun hf _ hlt => ?_
  exact position_lt_of_length_lt (suffix_of_mem_failures hf) hlt

/-- At most one report is about each token. -/
theorem length_reportsOf_le (ts : List Token) : (reportsOf ts).length ≤ (closed ts).length := by
  have hnodup : ((reportsOf ts).map Report.position).Nodup :=
    (increasing_positions ts).imp fun hlt => Nat.ne_of_lt hlt
  have hsub : (reportsOf ts).map Report.position ⊆ List.range (closed ts).length := by
    intro i hi
    obtain ⟨p, hp, rfl⟩ := List.mem_map.1 hi
    obtain ⟨t, ht, -⟩ := about_of_mem_reportsOf hp
    exact List.mem_range.2 (List.getElem?_eq_some_iff.1 ht).1
  have hle := (hnodup.subperm hsub).length_le
  rwa [List.length_map, List.length_range] at hle

/-- If no token stands on an earlier line than the one before, no report does. -/
theorem sorted_lines (h : (closed ts).Pairwise fun t u => t.line ≤ u.line) :
    ((reportsOf ts).map Report.line).Pairwise (· ≤ ·) := by
  rw [List.pairwise_map]
  refine (List.pairwise_map.1 (increasing_positions ts)).imp_of_mem fun {p q} hp hq hlt => ?_
  obtain ⟨t, ht, htl, -⟩ := about_of_mem_reportsOf hp
  obtain ⟨u, hu, hul, -⟩ := about_of_mem_reportsOf hq
  obtain ⟨hi, rfl⟩ := List.getElem?_eq_some_iff.1 ht
  obtain ⟨hj, rfl⟩ := List.getElem?_eq_some_iff.1 hu
  rw [htl, hul]
  exact List.pairwise_iff_getElem.1 h _ _ hi hj hlt

theorem map_reportsOf (ts : List Token) :
    (reportsOf ts).map (fun p => (p.line, p.message)) =
      (Program.read ts).diagnostics.map (fun d => (d.line, d.problem.message)) := by
  rw [reportsOf, failures, Program.read, List.map_map, List.map_map]
  exact List.map_congr_left fun f _ => report_closed ts f

theorem closed_scan (source : List UInt8) : closed (Token.scan source) = Token.scan source := by
  unfold closed
  rw [Token.getLast?_scan]
  rfl

/-- **Diagnostics come in source order, at most one per token.**  Whatever the tokens are, the
    numbers of the tokens that the reports are about go up from each report to the next, and
    each report has the line of its token and says of it what is so.  So the diagnostics of a
    source do not go back to an earlier line, and there are at most as many as tokens. -/
theorem program_in_order :
    (∀ (ts : List Token) (n : Nat),
      ∃ r, program (ts.length + 1 + n) (ofTokens ts) = .ok (some (Program.read ts).program, r) ∧
        r.reports.map (fun p => (p.line, p.message)) =
          (Program.read ts).diagnostics.map (fun d => (d.line, d.problem.message)) ∧
        (r.reports.map Report.position).Pairwise (· < ·) ∧
        (∀ p ∈ r.reports, p.About (closed ts)) ∧
        r.reports.length ≤ (closed ts).length) ∧
    ∀ source : List UInt8,
      ((Program.readSource source).diagnostics.map Diagnostic.line).Pairwise (· ≤ ·) ∧
      (Program.readSource source).diagnostics.length ≤ (Token.scan source).length := by
  refine ⟨fun ts n => ?_, fun source => ?_⟩
  · obtain ⟨r, he, hr⟩ := exists_reports ts n
    refine ⟨r, he, ?_⟩
    rw [hr]
    exact ⟨map_reportsOf ts, increasing_positions ts, fun p => about_of_mem_reportsOf,
      length_reportsOf_le ts⟩
  · have hmap := map_reportsOf (Token.scan source)
    have hlines : (reportsOf (Token.scan source)).map Report.line =
        (Program.readSource source).diagnostics.map Diagnostic.line := by
      have hfst := congrArg (List.map Prod.fst) hmap
      rwa [List.map_map, List.map_map] at hfst
    have hlength : (reportsOf (Token.scan source)).length =
        (Program.readSource source).diagnostics.length := by
      have hl := congrArg List.length hmap
      rwa [List.length_map, List.length_map] at hl
    refine ⟨?_, ?_⟩
    · rw [← hlines]
      refine sorted_lines ?_
      rw [closed_scan]
      exact Token.sorted_ofPieces 1 (Piece.cut source)
    · have hle := length_reportsOf_le (Token.scan source)
      rwa [closed_scan, hlength] at hle

end Reader

end Monkey
