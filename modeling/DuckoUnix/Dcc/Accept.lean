import DuckoUnix.Dcc.Loop
import DuckoUnix.Dcc.Meaning

/-!
# What dcc accepts

dcc writes its output exactly for the programs that fit into its arrays, and the output is the code of
their calls. Any token passes for the argument of `reboot`: the byte that is pushed is the value of the
last number that dcc has read.
-/

namespace DuckoUnix.Dcc

open Lib

variable {s : State} {l arg : Lexeme} {input out src rest ds : Str} {m : Lexeme} {cs : List Clause}
  {n : ℕ} {created : Bool}

/-! ## The argument of reboot -/

theorem punctuation_ne_num {c : BitVec 8} : punctuation c ≠ some (.num ds) := by
  unfold punctuation
  split_ifs <;> nofun

theorem isDigit_of_num (h : lexeme src = .ok (.num ds, rest)) : ∀ c ∈ ds, isDigit c = true := by
  unfold lexeme at h
  generalize src.dropWhile isSpace = src at h
  dsimp only at h
  split at h
  · cases h
  split at h
  · rename_i hp
    cases h
    exact absurd hp punctuation_ne_num
  split at h
  · cases (inTokenString_eq_ok h).1
  split at h
  · have hname := (inTokenString_eq_ok h).1
    split at hname <;> cases hname
  split at h
  · cases h
    exact fun c hc => List.mem_takeWhile_imp hc
  · cases h

theorem value_byte (h : ∀ c ∈ ds, isDigit c = true) :
    (value ds).setWidth 8 = BitVec.ofNat 8 (number ds) := by
  unfold value number
  suffices hfold : ∀ (v : BitVec 32) (k : ℕ), v.toNat % 256 = k % 256 →
      (ds.foldl (fun v c => v * 10 + (c.setWidth 32 - (chr '0').setWidth 32)) v).toNat % 256 =
        ds.foldl (fun n c => n * 10 + (c.toNat - (chr '0').toNat)) k % 256 by
    apply BitVec.eq_of_toNat_eq
    rw [BitVec.toNat_setWidth, BitVec.toNat_ofNat]
    exact hfold 0 0 rfl
  induction ds with
  | nil => exact fun v k hvk => hvk
  | cons c ds ih =>
    intro v k hvk
    rw [List.forall_mem_cons] at h
    refine ih h.2 _ _ ?_
    -- a digit is at least '0', and 256 divides 2 ^ 32
    have hc : 48 ≤ c.toNat := by
      have := h.1
      unfold isDigit at this
      simp [chr, BitVec.le_def] at this
      omega
    have hlt := c.isLt
    simp [chr, BitVec.toNat_add, BitVec.toNat_mul, BitVec.toNat_sub]
    omega

/-- The calls of `reboot` have numbers for their arguments, and they push the values modulo 256. -/
def Literal (cs : List Clause) : Prop :=
  ∀ before arg after, cs = before ++ .reboot arg :: after → ∃ ds, arg = .num ds ∧
    codeOf (before ++ [.reboot arg]) =
      codeOf before ++ ([0x6A, BitVec.ofNat 8 (number ds)] ++ callCode 23)

/-- In the text there is a call of `reboot` with another token in the place of the argument. -/
def NonLiteral (input : Str) : Prop := ∃ m cs arg rest, IsMain m ∧
  Reads input (front m cs ++ [.name rebootName, .lparen, arg]) rest ∧ ∀ ds, arg ≠ .num ds

/-- dcc takes nothing but a number for the argument of `reboot`. -/
structure TakesNumbers (input : Str) : Prop where
  accepts : ∀ n created out, dcc n created input = some (.ok out) →
    ∃ cs, Accepted input cs ∧ out = compiled (codeOf cs ++ callCode 2) ∧ Literal cs
  rejects : NonLiteral input → ∀ created, ∃ n e, dcc n created input = some (.error e) ∧ e ≠ .overrun

/-- An argument is read behind the calls before it. -/
theorem Accepted.reads_arg {before after : List Clause}
    (h : Accepted input (before ++ .reboot arg :: after)) : ∃ m rest, IsMain m ∧
      Reads input (front m before ++ [.name rebootName, .lparen] ++ [arg]) rest := by
  obtain ⟨m, x, rest, hm, hread⟩ := h.reads
  have hsplit : front m (before ++ .reboot arg :: after) ++ [.rbrace] ++ [x] =
      (front m before ++ [.name rebootName, .lparen] ++ [arg]) ++
        ([.rparen, .semicolon] ++ after.flatMap Clause.lexemes ++ [.rbrace] ++ [x]) := by
    simp [front, Clause.lexemes, Clause.rest, Clause.opening, Clause.name]
  rw [hsplit, Reads.append_iff] at hread
  obtain ⟨mid, hread, -⟩ := hread
  exact ⟨m, mid, hm, hread⟩

theorem Accepted.literal (h : Accepted input cs) (hlit : ¬ NonLiteral input) : Literal cs := by
  rintro before arg after rfl
  obtain ⟨m, rest, hm, hread⟩ := h.reads_arg
  have hnum : ∃ ds, arg = .num ds := by
    by_contra hno
    exact hlit ⟨m, before, arg, rest, hm, by simpa using hread, fun ds he => hno ⟨ds, he⟩⟩
  obtain ⟨ds, rfl⟩ := hnum
  obtain ⟨mid, -, hlast⟩ := Reads.append_iff.mp hread
  obtain ⟨_, hds, -⟩ := hlast.uncons
  refine ⟨ds, rfl, ?_⟩
  rw [codeOf_concat, ← value_byte (isDigit_of_num hds)]
  rfl

/-- For every text: dcc takes nothing but a number for the argument of `reboot`, and stops with an
error at anything else, exactly if a text with another token there is no program that fits, has no
token where dcc loops forever, and does not overrun an array. -/
theorem reboot_literal_iff (input : Str) : TakesNumbers input ↔
    (NonLiteral input → (∀ cs, ¬ Accepted input cs) ∧ ¬ Stuck input ∧ ¬ Overlong input) := by
  constructor
  · intro h hnon
    obtain ⟨n, e, hn, he⟩ := h.rejects hnon true
    refine ⟨fun cs hcs => ?_, fun hstuck => ?_, fun hlong => ?_⟩
    · obtain ⟨k, hk⟩ := ok_of_accepted hcs
      cases dcc_det hn hk
    · exact not_ends_of_stuck hstuck ⟨n, .error e, hn, fun heq => he (Except.error.inj heq)⟩
    · have hover : Overruns true input := overruns_of_overlong hlong
      obtain ⟨k, hk⟩ := hover
      exact he (Except.error.inj (dcc_det hn hk))
  · intro h
    constructor
    · intro n created out hok
      obtain ⟨cs, hcs, -, hout⟩ := accepted_of_ok hok
      exact ⟨cs, hcs, hout, hcs.literal fun hnon => (h hnon).1 cs hcs⟩
    · intro hnon created
      obtain ⟨hacc, hstuck, hlong⟩ := h hnon
      have hover : ¬ Overruns created input := fun hover => hlong (overlong_of_overruns hover)
      obtain ⟨n, r, hn, hr⟩ := (ends_or_overruns_of_not_stuck hstuck).resolve_right hover
      cases r with
      | ok out =>
        obtain ⟨cs, hcs, -⟩ := accepted_of_ok hn
        exact absurd hcs (hacc cs)
      | error e => exact ⟨n, e, hn, fun he => hr (by rw [he])⟩

/-- `int main(){reboot(x);}` -/
def rebootNameText : Str := mainHead ++ lit ['r', 'e', 'b', 'o', 'o', 't', '(', 'x', ')', ';', '}']

/-- dcc accepts `reboot(x)` and pushes 0. -/
theorem reboot_name_accepted : NonLiteral rebootNameText ∧
    dcc 2 true rebootNameText = some (.ok (compiled (rebootCode 0 ++ callCode 2))) := by
  refine ⟨⟨.name mainName, [], .name (lit ['x']), lit [')', ';', '}'], .inl rfl, ?_, nofun⟩, ?_⟩
  · exact .cons rfl (.cons rfl (.cons rfl (.cons rfl (.cons rfl (.cons rfl (.cons rfl
      (.cons rfl .nil)))))))
  · decide +kernel

end DuckoUnix.Dcc
