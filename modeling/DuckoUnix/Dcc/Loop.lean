import DuckoUnix.Dcc.Program

/-!
# Does dcc end?

An iteration of the loop of `main` on a name reads at least the parenthesis behind it or stops with
an error. On any other token `compile_statement` does nothing, and unless the token ends the loop,
the loop goes on forever. So dcc ends on a text unless the text has, behind complete statements, a
token that begins none.
-/

namespace DuckoUnix.Dcc

variable {s : State} {l m : Lexeme} {ls : List Lexeme} {cs : List Clause} {input : Str}
  {created : Bool}

/-- What stands behind the name `w` in a statement that dcc compiles: the argument of `reboot` is any
lexeme. -/
inductive Statement (w : Str) : List Lexeme → Prop
  | reboot (arg : Lexeme) (hw : w = rebootName) : Statement w [.lparen, arg, .rparen, .semicolon]
  | call (hw : w ≠ rebootName) : Statement w [.lparen, .rparen, .semicolon]

/-- Complete statements, one after the other. -/
inductive Statements : List Lexeme → Prop
  | nil : Statements []
  | cons {w : Str} {st ls : List Lexeme} (head : Statement w st) (tail : Statements ls) :
      Statements (.name w :: st ++ ls)

/-- The text has, behind the header and complete statements, a token that begins none. -/
def Stuck (input : Str) : Prop :=
  ∃ m ls l rest, IsMain m ∧ Statements ls ∧ Idle l.token ∧
    Reads input (headerOf m ++ ls ++ [l]) rest

theorem statement_rest (c : Clause) : Statement c.name c.rest := by
  cases c with
  | reboot arg => exact .reboot arg rfl
  | call w hw => exact .call hw

theorem statements_iff : Statements ls ↔ ∃ cs : List Clause, ls = cs.flatMap Clause.lexemes := by
  constructor
  · intro h
    induction h with
    | nil => exact ⟨[], rfl⟩
    | @cons w st ls head _ ih =>
      obtain ⟨cs, rfl⟩ := ih
      cases head with
      | reboot arg hw =>
        subst hw
        exact ⟨.reboot arg :: cs, rfl⟩
      | call hw => exact ⟨.call w hw :: cs, rfl⟩
  · rintro ⟨cs, rfl⟩
    induction cs with
    | nil => exact .nil
    | cons c cs ih => exact .cons (statement_rest c) ih

theorem At.stuck (h : At input m cs l s) (hidle : Idle s.token) : Stuck input := by
  rw [h.current.token] at hidle
  exact ⟨m, _, l, s.src, h.main, statements_iff.mpr ⟨cs, rfl⟩, hidle, h.reads⟩

/-! ## dcc -/

/-- On a stuck text dcc runs forever or overruns an array. -/
theorem not_ends_of_stuck (h : Stuck input) : ¬ Ends created input := by
  obtain ⟨m, ls, l, rest, hm, hls, hidle, hread⟩ := h
  obtain ⟨cs, rfl⟩ := statements_iff.mp hls
  rintro ⟨n, r, hr, hne⟩
  rcases reaches created hm hread with ⟨⟨k, hk⟩, -⟩ | ⟨s₀, s, hs₀, ⟨k, hk⟩, hat, -⟩
  · exact hne (dcc_det hr hk)
  · have hmore := dcc_mono hr k
    rw [← hat.current.token] at hidle
    rw [dcc_of_header hs₀, Nat.add_comm, hk, loop_idle hidle] at hmore
    cases hmore

/-- The induction is on what is left of the text. -/
theorem At.loop_ends_or (h : At input m cs l s) : (∃ n r, loop n s = some r) ∨ Stuck input := by
  induction hlen : s.src.length using Nat.strong_induction_on generalizing s cs l with
  | _ k ih =>
    subst hlen
    by_cases hend : s.token = .RBRACE ∨ s.token = .EOF
    · exact .inl ⟨1, .ok s, if_pos hend⟩
    obtain ⟨hr, he⟩ := not_or.mp hend
    by_cases htok : s.token = .NAME
    swap
    · exact .inr (h.stuck ⟨htok, hr, he⟩)
    cases hc : compileStatement s with
    | error e => exact .inl ⟨1, .error e, loop_error htok hc⟩
    | ok s' =>
      obtain ⟨c, l', h'⟩ := h.step htok hc
      rcases ih _ (compileStatement_shorter htok hc) h' rfl with ⟨n, r, hn⟩ | hstuck
      · refine .inl ⟨n + 1, r, ?_⟩
        rw [loop_succ hr he, hc]
        exact hn
      · exact .inr hstuck

theorem ends_or_overruns_of_not_stuck (h : ¬ Stuck input) :
    Ends created input ∨ Overruns created input := by
  have houtcome : ∃ n r, dcc n created input = some r := by
    cases hs : header input with
    | error e => exact ⟨0, .error e, by unfold dcc; rw [hs]⟩
    | ok s =>
      obtain ⟨m, l, hat⟩ := At.of_header hs
      obtain ⟨n, r, hn⟩ := hat.loop_ends_or.resolve_right h
      exact ⟨n, r >>= finish created, by rw [dcc_of_header hs, hn]; rfl⟩
  obtain ⟨n, r, hn⟩ := houtcome
  by_cases hr : r = .error .overrun
  · exact .inr ⟨n, hr ▸ hn⟩
  · exact .inl ⟨n, r, hn, hr⟩

end DuckoUnix.Dcc
