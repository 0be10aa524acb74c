import Xv6.Shell.Parse

/-! # The parser returns what was printed

The parser does not run out of calls: each of its loops and of its recursive calls is after a token. With
what it does on the tokens of a command, it returns the command that was printed. -/

namespace Xv6.Shell

open Scan

variable {buf text set : List Char} {es s n argc : ℕ} {cmd : Cmd} {t : Tree} {toks : List Tok}

/-! ### Every line is parsed or refused -/

/-- The parser has stopped for another reason than want of calls. -/
def Refused (e : ShellError) : Prop := e ≠ .outOfFuel

/-- There is a token to come. -/
def More (buf : List Char) (es s : ℕ) : Prop := charAt buf (skipSpace buf es s) ≠ NUL

theorem skipSpace_idem : skipSpace buf es (skipSpace buf es s) = skipSpace buf es s :=
  scan_stop scan_stops

section

variable (hnul : charAt buf es = NUL) (hs : s ≤ es)

include hnul hs

/-- A token ends behind its first character, and within the line. -/
theorem lt_tokenAt (h : charAt buf s ≠ NUL) (hspace : whitespace.contains (charAt buf s) = false) :
    s < (tokenAt buf es s).2 ∧ (tokenAt buf es s).2 ≤ es := by
  have hlt : s < es := by
    refine lt_of_le_of_ne hs ?_
    rintro rfl
    exact h hnul
  unfold tokenAt
  split
  case h_1 hc => exact absurd hc h
  case h_8 hc =>
    split
    · rename_i hc'
      have hne : s + 1 ≠ es := by
        rintro rfl
        rw [hnul] at hc'
        cases hc'
      exact ⟨by omega, by omega⟩
    · exact ⟨by omega, by omega⟩
  case h_9 h0 hbar hlparen hrparen hsemi hamp hless hgreater =>
    have hsymbols : symbols.contains (charAt buf s) = false := by
      rw [symbols, List.contains_eq_mem, decide_eq_false_iff_not]
      simp only [List.mem_cons, List.not_mem_nil, or_false, not_or]
      exact ⟨hless, hbar, hgreater, hamp, hsemi, hlparen, hrparen⟩
    have hplain : plain (charAt buf s) = true := by
      rw [plain, hspace, hsymbols]
      rfl
    refine ⟨?_, scan_le hs⟩
    rw [skipWord, scan_step hlt hplain]
    exact le_scan
  all_goals exact ⟨by omega, by omega⟩

theorem wp_gettoken_advances :
    Wp (gettoken buf es) Refused
      (fun t s' => s ≤ s' ∧ s' ≤ es ∧ (t.ret ≠ NUL ∨ More buf es s → s < s')) s := by
  simp only [gettoken, wp_bind, wp_get, wp_set, wp_pure]
  have hle : s ≤ skipSpace buf es s := le_scan
  have hq : skipSpace buf es s ≤ es := scan_le hs
  by_cases hc : charAt buf (skipSpace buf es s) = NUL
  · have htok : tokenAt buf es (skipSpace buf es s) = (NUL, skipSpace buf es s) := by
      rw [tokenAt, hc]
      rfl
    rw [htok]
    dsimp only
    rw [skipSpace_idem]
    exact ⟨hle, hq, fun h => h.elim (absurd rfl) (absurd hc)⟩
  · have hlt : skipSpace buf es s < es := by
      refine lt_of_le_of_ne hq fun heq => hc ?_
      rw [heq, hnul]
    obtain ⟨hadv, hend⟩ := lt_tokenAt hnul hq hc (scan_stops hlt)
    have hskip : (tokenAt buf es (skipSpace buf es s)).2 ≤
        skipSpace buf es (tokenAt buf es (skipSpace buf es s)).2 := le_scan
    exact ⟨by omega, scan_le hend, fun _ => by omega⟩

omit hnul in
theorem wp_peek_advances :
    Wp (peek buf es set) Refused (fun b s' => s ≤ s' ∧ s' ≤ es ∧ (b = true → More buf es s')) s := by
  simp only [peek, wp_bind, wp_get, wp_set, wp_pure]
  refine ⟨le_scan, scan_le hs, fun hb => ?_⟩
  rw [More, skipSpace_idem]
  exact bne_iff_ne.mp ((Bool.and_eq_true _ _).mp hb).1

/-! The loops, with as many calls as there are characters left. -/

theorem wp_parseredirs_advances (hn : es - s < n) :
    Wp (parseredirs buf es n cmd) Refused (fun _ s' => s ≤ s' ∧ s' ≤ es) s := by
  induction n generalizing s cmd with
  | zero => omega
  | succ n ih =>
    rw [parseredirs]
    refine (wp_peek_advances hs).bind ?_
    rintro b s₁ ⟨h₁, hs₁, hmore⟩
    rw [wp_ite]
    refine ⟨fun hb => ?_, fun _ => ⟨h₁, hs₁⟩⟩
    refine (wp_gettoken_advances hnul hs₁).bind ?_
    rintro tok s₂ ⟨_, hs₂, hadv⟩
    have hlt := hadv (.inr (hmore hb))
    refine (wp_gettoken_advances hnul hs₂).bind ?_
    rintro file s₃ ⟨h₃, hs₃, _⟩
    rw [wp_ite]
    refine ⟨by rintro - ⟨⟩, fun _ => ?_⟩
    have hrest : ∀ cmd, Wp (parseredirs buf es n cmd) Refused (fun _ s' => s ≤ s' ∧ s' ≤ es) s₃ :=
      fun cmd => (ih hs₃ (by omega)).mono fun _ s' h => ⟨by omega, h.2⟩
    split
    all_goals exact hrest _

theorem wp_parseargs_advances (hn : es - s < n) :
    Wp (parseargs buf es n argc cmd) Refused (fun _ s' => s ≤ s' ∧ s' ≤ es) s := by
  induction n generalizing s argc cmd with
  | zero => omega
  | succ n ih =>
    rw [parseargs]
    refine (wp_peek_advances hs).bind ?_
    rintro b s₁ ⟨h₁, hs₁, _⟩
    rw [wp_ite]
    refine ⟨fun _ => ⟨h₁, hs₁⟩, fun _ => ?_⟩
    refine (wp_gettoken_advances hnul hs₁).bind ?_
    rintro tok s₂ ⟨h₂, hs₂, hadv⟩
    rw [wp_ite]
    refine ⟨fun _ => ⟨h₁.trans h₂, hs₂⟩, fun hret => ?_⟩
    have hlt := hadv (.inl hret)
    rw [wp_ite]
    refine ⟨by rintro - ⟨⟩, fun _ => ?_⟩
    rw [wp_ite]
    refine ⟨by rintro - ⟨⟩, fun _ => ?_⟩
    refine (wp_parseredirs_advances hnul hs₂ (by omega)).bind ?_
    rintro ret s₃ ⟨h₃, hs₃⟩
    exact (ih hs₃ (by omega)).mono fun _ s' h => ⟨by omega, h.2⟩

theorem wp_parseback_advances (hn : es - s < n) :
    Wp (parseback buf es n cmd) Refused (fun _ s' => s ≤ s' ∧ s' ≤ es) s := by
  induction n generalizing s cmd with
  | zero => omega
  | succ n ih =>
    rw [parseback]
    refine (wp_peek_advances hs).bind ?_
    rintro b s₁ ⟨h₁, hs₁, hmore⟩
    rw [wp_ite]
    refine ⟨fun hb => ?_, fun _ => ⟨h₁, hs₁⟩⟩
    refine (wp_gettoken_advances hnul hs₁).bind ?_
    rintro tok s₂ ⟨_, hs₂, hadv⟩
    have hlt := hadv (.inr (hmore hb))
    exact (ih hs₂ (by omega)).mono fun _ s' h => ⟨by omega, h.2⟩

end

/-- With this many calls no parser runs out of them: four for each character that is left, and one more
for each parser that is called before the next token is taken. -/
structure Advances (buf : List Char) (es n : ℕ) : Prop where
  line : ∀ s ≤ es, 4 * (es - s) + 4 ≤ n →
    Wp (parseline buf es n) Refused (fun _ s' => s ≤ s' ∧ s' ≤ es) s
  pipe : ∀ s ≤ es, 4 * (es - s) + 3 ≤ n →
    Wp (parsepipe buf es n) Refused (fun _ s' => s ≤ s' ∧ s' ≤ es) s
  exec : ∀ s ≤ es, 4 * (es - s) + 2 ≤ n →
    Wp (parseexec buf es n) Refused (fun _ s' => s ≤ s' ∧ s' ≤ es) s
  block : ∀ s ≤ es, 4 * (es - s) + 1 ≤ n →
    Wp (parseblock buf es n) Refused (fun _ s' => s ≤ s' ∧ s' ≤ es) s

theorem advances (hnul : charAt buf es = NUL) (n : ℕ) : Advances buf es n := by
  induction n with
  | zero => constructor <;> (intro s _ hn; omega)
  | succ n ih =>
    constructor
    case line =>
      intro s hs hn
      rw [parseline]
      refine (ih.pipe s hs (by omega)).bind ?_
      rintro cmd s₁ ⟨h₁, hs₁⟩
      refine (wp_parseback_advances hnul hs₁ (by omega)).bind ?_
      rintro cmd s₂ ⟨h₂, hs₂⟩
      refine (wp_peek_advances hs₂).bind ?_
      rintro b s₃ ⟨h₃, hs₃, hmore⟩
      rw [wp_ite]
      refine ⟨fun hb => ?_, fun _ => ⟨by omega, hs₃⟩⟩
      refine (wp_gettoken_advances hnul hs₃).bind ?_
      rintro tok s₄ ⟨_, hs₄, hadv⟩
      have hlt := hadv (.inr (hmore hb))
      rw [wp_bind]
      exact (ih.line s₄ hs₄ (by omega)).mono fun _ s' h => ⟨by omega, h.2⟩
    case pipe =>
      intro s hs hn
      rw [parsepipe]
      refine (ih.exec s hs (by omega)).bind ?_
      rintro cmd s₁ ⟨h₁, hs₁⟩
      refine (wp_peek_advances hs₁).bind ?_
      rintro b s₂ ⟨h₂, hs₂, hmore⟩
      rw [wp_ite]
      refine ⟨fun hb => ?_, fun _ => ⟨by omega, hs₂⟩⟩
      refine (wp_gettoken_advances hnul hs₂).bind ?_
      rintro tok s₃ ⟨_, hs₃, hadv⟩
      have hlt := hadv (.inr (hmore hb))
      rw [wp_bind]
      exact (ih.pipe s₃ hs₃ (by omega)).mono fun _ s' h => ⟨by omega, h.2⟩
    case exec =>
      intro s hs hn
      rw [parseexec]
      refine (wp_peek_advances hs).bind ?_
      rintro b s₁ ⟨h₁, hs₁, _⟩
      rw [wp_ite]
      refine ⟨fun _ => ?_, fun _ => ?_⟩
      · exact (ih.block s₁ hs₁ (by omega)).mono fun _ s' h => ⟨by omega, h.2⟩
      · refine (wp_parseredirs_advances hnul hs₁ (by omega)).bind ?_
        rintro ret s₂ ⟨h₂, hs₂⟩
        exact (wp_parseargs_advances hnul hs₂ (by omega)).mono fun _ s' h => ⟨by omega, h.2⟩
    case block =>
      intro s hs hn
      rw [parseblock]
      refine (wp_peek_advances hs).bind ?_
      rintro b s₁ ⟨h₁, hs₁, hmore⟩
      rw [wp_ite]
      refine ⟨by rintro - ⟨⟩, fun hb => ?_⟩
      refine (wp_gettoken_advances hnul hs₁).bind ?_
      rintro tok s₂ ⟨_, hs₂, hadv⟩
      have hlt := hadv (.inr (hmore (by simpa using hb)))
      refine (ih.line s₂ hs₂ (by omega)).bind ?_
      rintro cmd s₃ ⟨h₃, hs₃⟩
      refine (wp_peek_advances hs₃).bind ?_
      rintro b s₄ ⟨h₄, hs₄, _⟩
      rw [wp_ite]
      refine ⟨by rintro - ⟨⟩, fun _ => ?_⟩
      refine (wp_gettoken_advances hnul hs₄).bind ?_
      rintro tok s₅ ⟨h₅, hs₅, _⟩
      exact (wp_parseredirs_advances hnul hs₅ (by omega)).mono fun _ s' h => ⟨by omega, h.2⟩

/-! ### The round trip -/

/-- A string ends with a NUL. -/
theorem charAt_cstring_length (buf : List Char) : charAt buf (cstring buf 0).length = NUL := by
  rw [cstring, List.drop_zero]
  induction buf with
  | nil => rfl
  | cons c buf ih =>
    rw [List.takeWhile_cons]
    split
    · exact ih
    · rename_i hc
      exact not_not.mp fun h => hc (bne_iff_ne.mpr h)

theorem wp_parsewhole_advances (hnul : charAt buf es = NUL) :
    Wp (parsewhole buf es) Refused (fun _ s' => s' ≤ es) 0 := by
  rw [parsewhole]
  refine ((advances hnul _).line 0 (Nat.zero_le es) le_rfl).bind fun cmd s ⟨_, hs⟩ => ?_
  rw [wp_bind]
  exact (wp_peek_advances hs).mono fun _ s' h => h.2.1

theorem parsecmd_error {e : ShellError} (he : parsewhole buf (cstring buf 0).length 0 = .error e) :
    parsecmd buf = .error e := by
  rw [parsecmd, StateT.run, he]
  rfl

theorem parsecmd_ok (hs : parsewhole buf (cstring buf 0).length 0 = .ok (cmd, s)) :
    parsecmd buf = if s ≠ (cstring buf 0).length then .error (.panic "syntax")
      else .ok (cmd, nulterminate cmd buf) := by
  rw [parsecmd, StateT.run, hs]
  rfl

/-- The parser terminates on every line: it returns a command, or the shell gives up with a message. -/
theorem parsecmd_ne_outOfFuel (buf : List Char) : parsecmd buf ≠ .error .outOfFuel := by
  have hwp := wp_parsewhole_advances (charAt_cstring_length buf)
  cases hrun : parsewhole buf (cstring buf 0).length 0 with
  | error e =>
    rw [parsecmd_error hrun]
    exact fun h => hwp.error hrun (Except.error.inj h)
  | ok p =>
    rw [parsecmd_ok hrun]
    split <;> exact nofun

theorem Tok.ne_nul (tok : Tok) {c : Char} (hc : c ∈ tok.chars) : c ≠ NUL := by
  rintro rfl
  cases tok with
  | word w => cases w.all NUL hc
  | _ => exact absurd hc (by decide)

/-- There is no NUL in the text of a command. -/
theorem Layout.ne_nul (h : Layout toks text) {c : Char} (hc : c ∈ text) : c ≠ NUL := by
  induction h with
  | nil hws =>
    rintro rfl
    cases hws NUL hc
  | @cons ws text tok toks hws _ _ ih =>
    rcases List.mem_append.mp hc with hc | hc
    · rintro rfl
      cases hws NUL hc
    · rcases List.mem_append.mp hc with hc | hc
      · exact tok.ne_nul hc
      · exact ih hc

theorem Layout.cstring (h : Layout toks text) : cstring (text ++ [NUL]) 0 = text := by
  rw [Shell.cstring, List.drop_zero, List.takeWhile_append_of_pos fun c hc => bne_iff_ne.mpr (h.ne_nul hc)]
  exact List.append_nil text

/-- However the tokens of a command are laid out with white space, the parser returns the command. -/
theorem parsecmd_layout (h : Layout (t.tokens 3) text) :
    ∃ cmd buf, parsecmd (text ++ [NUL]) = .ok (cmd, buf) ∧ cmd.read buf = some t := by
  have hleft : Left (text ++ [NUL]) text.length 0 (t.tokens 3 ++ []) := by
    rw [List.append_nil]
    exact ⟨text, rfl, Nat.zero_add _, h⟩
  have hparse : Wp (parsewhole (text ++ [NUL]) text.length) OutOfFuel
      (fun cmd s => Spells (text ++ [NUL]) cmd t ∧ s = text.length) 0 := by
    rw [parsewhole]
    refine ((parses _ _ t).line (.inl rfl) hleft).bind fun cmd s hcs => ?_
    rw [wp_bind]
    exact (wp_peek_nil hcs.2).mono fun _ s' hs => ⟨hcs.1, hs⟩
  have hnul := charAt_cstring_length (text ++ [NUL])
  rw [h.cstring] at hnul
  obtain ⟨cmd, s, hrun, hspells, hs⟩ :=
    hparse.returns_of_disjoint (wp_parsewhole_advances hnul) fun e he hne => hne he
  have hend : ¬ s ≠ (cstring (text ++ [NUL]) 0).length := by
    rw [h.cstring]
    exact not_not_intro hs
  have hok : parsecmd (text ++ [NUL]) = .ok (cmd, nulterminate cmd (text ++ [NUL])) := by
    rw [parsecmd_ok (by rw [h.cstring]; exact hrun), if_neg hend]
  exact ⟨cmd, _, hok, hspells.read hspells.terminated⟩

/-- **The parser inverts printing.** Whatever the command, `parsecmd` of its text returns structures that
stand for the command again, with every argument and every file a string in the line. -/
theorem parsecmd_print (t : Tree) :
    ∃ cmd buf, parsecmd (print t ++ [NUL]) = .ok (cmd, buf) ∧ cmd.read buf = some t :=
  parsecmd_layout (layout_spaced (t.tokens 3))

end Xv6.Shell
