import Xv6.Shell.Tokens

/-! # Command trees

A command as the user means it, how it is written, and how it is read back from the structures that the
parser builds in front of the line. -/

namespace Xv6.Shell

/-- The three redirections. -/
inductive Redirection where
  | input
  | output
  | append
  deriving DecidableEq

namespace Redirection

def tok : Redirection → Tok
  | input => .lt
  | output => .gt
  | append => .gtgt

/-- The mode that the file is opened with. -/
def mode : Redirection → ℕ
  | input => O_RDONLY
  | output => O_WRONLY ||| O_CREATE ||| O_TRUNC
  | append => O_WRONLY ||| O_CREATE

/-- The file descriptor that is redirected. -/
def fd : Redirection → ℕ
  | input => 0
  | output => 1
  | append => 1

/-- The redirection with the given mode and file descriptor. -/
def ofMode (mode fd : ℕ) : Option Redirection :=
  [input, output, append].find? fun k => k.mode == mode && k.fd == fd

theorem ofMode_mode (k : Redirection) : ofMode k.mode k.fd = some k := by
  cases k <;> rfl

end Redirection

/-- A command. -/
inductive Tree where
  | exec (args : {ws : List Word // ws.length < MAXARGS})
  | redir (cmd : Tree) (kind : Redirection) (file : Word)
  | pipe (left right : Tree)
  | list (left right : Tree)
  | back (cmd : Tree)
  deriving DecidableEq

/-- The tokens, in parentheses if need be. -/
def bracket (need : Prop) [Decidable need] (toks : List Tok) : List Tok :=
  if need then .lparen :: (toks ++ [.rparen]) else toks

/-- The tokens of a command at a place where the grammar has a block (0), a pipeline (1), a pipeline in
the background (2) or a line (3). -/
def Tree.tokens : Tree → ℕ → List Tok
  | .exec args, _ => args.val.map .word
  | .redir cmd kind file, _ => cmd.tokens 0 ++ [kind.tok, .word file]
  | .pipe left right, place => bracket (place < 1) (left.tokens 0 ++ .bar :: right.tokens 1)
  | .back cmd, place => bracket (place < 2) (cmd.tokens 2 ++ [.amp])
  | .list left right, place => bracket (place < 3) (left.tokens 2 ++ .semi :: right.tokens 3)

/-- The tokens with a blank after each. -/
def spaced (toks : List Tok) : List Char := toks.flatMap fun tok => tok.chars ++ [' ']

/-- A command as text. -/
def print (t : Tree) : List Char := spaced (t.tokens 3)

/-- A blank before the text is white space. -/
theorem Layout.blank {toks : List Tok} {text : List Char} (h : Layout toks text) :
    Layout toks (' ' :: text) := by
  cases h with
  | nil hws => exact .nil (List.forall_mem_cons.mpr ⟨rfl, hws⟩)
  | cons hws hends hrest =>
    rw [← List.cons_append]
    exact .cons (List.forall_mem_cons.mpr ⟨rfl, hws⟩) hends hrest

theorem layout_spaced (toks : List Tok) : Layout toks (spaced toks) := by
  induction toks with
  | nil => exact .nil nofun
  | cons tok toks ih =>
    have hends : tok.Ends (' ' :: spaced toks) := by
      cases tok with
      | word w =>
        rintro c ⟨⟩
        rfl
      | gt =>
        rintro c ⟨⟩
        decide
      | _ => exact trivial
    have hrest : Layout toks (' ' :: spaced toks) := ih.blank
    have htext : spaced (tok :: toks) = [] ++ (tok.chars ++ ' ' :: spaced toks) := by
      rw [spaced, List.flatMap_cons, List.append_assoc]
      rfl
    rw [htext]
    exact .cons nofun hends hrest

/-! ### Reading a command back -/

/-- The word that a string is. -/
def Word.ofString (cs : List Char) : Option Word :=
  if h : cs ≠ [] ∧ ∀ c ∈ cs, wordChar c = true then some ⟨cs, h.1, h.2⟩ else none

/-- The arguments up to the null pointer. -/
def ExecCmd.strings (buf : List Char) (cmd : ExecCmd) : List (List Char) :=
  (cmd.argv.takeWhile Option.isSome).reduceOption.map (cstring buf)

/-- The command that the structures stand for, with the strings as they are in the line. -/
def Cmd.read (buf : List Char) : Cmd → Option Tree
  | .exec cmd => do
    let ws ← (cmd.strings buf).mapM Word.ofString
    if h : ws.length < MAXARGS then return .exec ⟨ws, h⟩ else none
  | .redir cmd file _ mode fd =>
    return .redir (← cmd.read buf) (← Redirection.ofMode mode fd) (← Word.ofString (cstring buf file))
  | .pipe left right => return .pipe (← left.read buf) (← right.read buf)
  | .list left right => return .list (← left.read buf) (← right.read buf)
  | .back cmd => return .back (← cmd.read buf)

/-- The structure for arguments at the given positions. -/
def ExecCmd.ofArgs (args : List (ℕ × ℕ)) : ExecCmd where
  argv := args.map (some ·.1) ++ List.replicate (MAXARGS - args.length) none
  eargv := args.map (some ·.2) ++ List.replicate (MAXARGS - args.length) none

/-- The structures point to the words of the command in the line. -/
inductive Spells (buf : List Char) : Cmd → Tree → Prop where
  | exec {args : List (ℕ × ℕ)} {ws : {ws : List Word // ws.length < MAXARGS}}
      (h : List.Forall₂ (fun a w => At buf w a.1 a.2) args ws.val) :
      Spells buf (.exec (.ofArgs args)) (.exec ws)
  | redir {cmd : Cmd} {t : Tree} {kind : Redirection} {w : Word} {file efile : ℕ} (h : Spells buf cmd t)
      (hfile : At buf w file efile) :
      Spells buf (.redir cmd file efile kind.mode kind.fd) (.redir t kind w)
  | pipe {left right : Cmd} {t u : Tree} (hl : Spells buf left t) (hr : Spells buf right u) :
      Spells buf (.pipe left right) (.pipe t u)
  | list {left right : Cmd} {t u : Tree} (hl : Spells buf left t) (hr : Spells buf right u) :
      Spells buf (.list left right) (.list t u)
  | back {cmd : Cmd} {t : Tree} (h : Spells buf cmd t) : Spells buf (.back cmd) (.back t)

/-! ### The ends of the strings -/

/-- Where `nulterminate` ends the arguments. -/
def argEnds : List (Option ℕ) → List (Option ℕ) → List ℕ
  | some _ :: argv, some eq :: eargv => eq :: argEnds argv eargv
  | _, _ => []

/-- Where `nulterminate` writes a NUL. -/
def Cmd.ends : Cmd → List ℕ
  | .exec cmd => argEnds cmd.argv cmd.eargv
  | .redir cmd _ efile _ _ => efile :: cmd.ends
  | .pipe left right => right.ends ++ left.ends
  | .list left right => right.ends ++ left.ends
  | .back cmd => cmd.ends

variable {buf buf' cs rest : List Char} {i s q eq : ℕ} {c : Char} {w : Word} {cmd : Cmd} {t : Tree}

theorem charAt_set : charAt (buf.set eq NUL) i = if i = eq then NUL else charAt buf i := by
  unfold charAt
  rw [List.getD_eq_getElem?_getD, List.getD_eq_getElem?_getD, List.getElem?_set]
  split
  · rename_i h
    rw [if_pos h.symm]
    split <;> rfl
  · rename_i h
    rw [if_neg fun hi => h hi.symm]

theorem charAt_nulterminateArgs {argv eargv : List (Option ℕ)} :
    charAt (nulterminateArgs argv eargv buf) i = if i ∈ argEnds argv eargv then NUL else charAt buf i := by
  fun_induction nulterminateArgs argv eargv buf with
  | case1 p argv eq eargv buf ih =>
    simp only [ih, charAt_set, argEnds, List.mem_cons]
    by_cases hi : i = eq <;> simp [hi]
  | case2 argv eargv buf h =>
    rw [argEnds.eq_def]
    split
    · exact (h _ _ _ _ rfl rfl).elim
    · rfl

theorem charAt_nulterminate :
    charAt (nulterminate cmd buf) i = if i ∈ cmd.ends then NUL else charAt buf i := by
  induction cmd generalizing buf with
  | exec cmd => exact charAt_nulterminateArgs
  | redir cmd file efile mode fd ih =>
    simp only [nulterminate, charAt_set, ih, Cmd.ends, List.mem_cons, ite_or]
  | pipe left right ihl ihr =>
    simp only [nulterminate, ihr, ihl, Cmd.ends, List.mem_append, ite_or]
  | list left right ihl ihr =>
    simp only [nulterminate, ihr, ihl, Cmd.ends, List.mem_append, ite_or]
  | back cmd ih => exact ih

/-- The arguments end where they were found to end. -/
theorem argEnds_ofArgs {args : List (ℕ × ℕ)} :
    argEnds (ExecCmd.ofArgs args).argv (ExecCmd.ofArgs args).eargv = args.map Prod.snd := by
  suffices h : ∀ n, argEnds (args.map (some ·.1) ++ List.replicate n none)
      (args.map (some ·.2) ++ List.replicate n none) = args.map Prod.snd from h _
  intro n
  induction args with
  | nil =>
    cases n with
    | zero => rfl
    | succ n => rfl
  | cons a args ih =>
    rw [List.map_cons, List.map_cons, List.cons_append, List.cons_append, argEnds, ih]
    rfl

theorem not_wordChar_of_mem {args : List (ℕ × ℕ)} {ws : List Word}
    (h : List.Forall₂ (fun a w => At buf w a.1 a.2) args ws) (he : eq ∈ args.map Prod.snd) :
    wordChar (charAt buf eq) = false := by
  induction h with
  | nil => cases he
  | cons hat _ ih =>
    rcases List.mem_cons.mp he with rfl | he
    · exact hat.ends
    · exact ih he

/-- No string ends at a character of a word. -/
theorem Spells.ends_not_wordChar (h : Spells buf cmd t) (he : eq ∈ cmd.ends) :
    wordChar (charAt buf eq) = false := by
  induction h with
  | exec h =>
    rw [Cmd.ends, argEnds_ofArgs] at he
    exact not_wordChar_of_mem h he
  | redir h hfile ih =>
    rcases List.mem_cons.mp he with rfl | he
    · exact hfile.ends
    · exact ih he
  | pipe hl hr ihl ihr => exact (List.mem_append.mp he).elim ihr ihl
  | list hl hr ihl ihr => exact (List.mem_append.mp he).elim ihr ihl
  | back h ih => exact ih he

/-! ### Strings -/

theorem cstring_cons (h : charAt buf q = c) (hc : c ≠ NUL) : cstring buf q = c :: cstring buf (q + 1) := by
  have hlt : q < buf.length := by
    by_contra hge
    rw [charAt, List.getD_eq_default _ _ (Nat.le_of_not_lt hge)] at h
    exact hc h.symm
  have hget : buf[q] = c := by rw [← h, charAt, List.getD_eq_getElem _ _ hlt]
  have hpos : (c != NUL) = true := bne_iff_ne.mpr hc
  rw [cstring, List.drop_eq_getElem_cons hlt, hget, List.takeWhile_cons, if_pos hpos]
  rfl

theorem cstring_nil (h : charAt buf q = NUL) : cstring buf q = [] := by
  unfold cstring
  cases hdrop : buf.drop q with
  | nil => rfl
  | cons c rest =>
    obtain rfl : c = NUL := (charAt_of_drop hdrop).symm.trans h
    rfl

/-- The words of the line are its strings once its other characters are overwritten. -/
theorem cstring_eq (hdrop : buf.drop q = cs ++ rest) (hcs : ∀ c ∈ cs, wordChar c = true)
    (hkeep : ∀ i, wordChar (charAt buf i) = true → charAt buf' i = charAt buf i)
    (hnul : charAt buf' (q + cs.length) = NUL) : cstring buf' q = cs := by
  induction cs generalizing q with
  | nil => exact cstring_nil hnul
  | cons c cs ih =>
    have hc : charAt buf q = c := charAt_of_drop hdrop
    have hword := hcs c List.mem_cons_self
    have hc' : charAt buf' q = c := by rw [hkeep q (by rwa [hc]), hc]
    have hne : c ≠ NUL := by
      rintro rfl
      cases hword
    have hrest : buf.drop (q + 1) = cs ++ rest := by
      have hcons : buf.drop q = [c] ++ (cs ++ rest) := hdrop
      exact drop_of_append hcons
    rw [cstring_cons hc' hne, ih hrest]
    · exact fun d hd => hcs d (List.mem_cons_of_mem c hd)
    · rwa [List.length_cons, Nat.add_comm cs.length, ← Nat.add_assoc] at hnul

/-- The line after its words have been terminated: what was a word is as before, and the ends are NUL. -/
structure Terminated (buf buf' : List Char) (ends : List ℕ) : Prop where
  keep : ∀ i, wordChar (charAt buf i) = true → charAt buf' i = charAt buf i
  nul : ∀ i ∈ ends, charAt buf' i = NUL

theorem At.cstring {ends : List ℕ} (h : At buf w q eq) (ht : Terminated buf buf' ends) (he : eq ∈ ends) :
    cstring buf' q = w.chars :=
  cstring_eq h.drop w.all ht.keep (h.stop ▸ ht.nul eq he)

theorem Terminated.mono {ends ends' : List ℕ} (h : Terminated buf buf' ends) (hsub : ends' ⊆ ends) :
    Terminated buf buf' ends' := ⟨h.keep, fun i hi => h.nul i (hsub hi)⟩

/-- `nulterminate` ends every string, and no string within a word. -/
theorem Spells.terminated (h : Spells buf cmd t) : Terminated buf (nulterminate cmd buf) cmd.ends := by
  refine ⟨fun i hi => ?_, fun i hi => ?_⟩
  · have hmem : i ∉ cmd.ends := by
      intro hmem
      rw [h.ends_not_wordChar hmem] at hi
      cases hi
    rw [charAt_nulterminate, if_neg hmem]
  · rw [charAt_nulterminate, if_pos hi]

/-! ### The command is read back -/

theorem Word.ofString_chars (w : Word) : Word.ofString w.chars = some w :=
  dif_pos ⟨w.ne_nil, w.all⟩

theorem strings_ofArgs {args : List (ℕ × ℕ)} :
    (ExecCmd.ofArgs args).strings buf = args.map fun a => cstring buf a.1 := by
  suffices h : ∀ n, ((args.map (fun a : ℕ × ℕ => some a.1) ++ List.replicate n none).takeWhile
      Option.isSome).reduceOption = args.map Prod.fst by
    rw [ExecCmd.strings, ExecCmd.ofArgs, h, List.map_map]
    rfl
  intro n
  induction args with
  | nil =>
    cases n with
    | zero => rfl
    | succ n => rfl
  | cons a args ih =>
    rw [List.map_cons, List.map_cons, ← ih]
    rfl

theorem mapM_ofString {args : List (ℕ × ℕ)} {ws : List Word}
    (h : List.Forall₂ (fun a w => At buf w a.1 a.2) args ws)
    (ht : Terminated buf buf' (args.map Prod.snd)) :
    (args.map fun a => cstring buf' a.1).mapM Word.ofString = some ws := by
  induction h with
  | nil => rfl
  | cons hat _ ih =>
    rw [List.map_cons, List.mapM_cons, hat.cstring ht List.mem_cons_self, Word.ofString_chars,
      ih (ht.mono (List.subset_cons_self _ _))]
    rfl

/-- From a line in which the strings are terminated the command is read as it was meant. -/
theorem Spells.read (h : Spells buf cmd t) (ht : Terminated buf buf' cmd.ends) :
    cmd.read buf' = some t := by
  induction h with
  | @exec args ws h =>
    rw [Cmd.ends, argEnds_ofArgs] at ht
    rw [Cmd.read, strings_ofArgs, mapM_ofString h ht]
    exact dif_pos ws.2
  | redir h hfile ih =>
    rw [Cmd.read, ih (ht.mono (List.subset_cons_self _ _)), Redirection.ofMode_mode,
      hfile.cstring ht List.mem_cons_self, Word.ofString_chars]
    rfl
  | pipe hl hr ihl ihr =>
    rw [Cmd.read, ihl (ht.mono (List.subset_append_right _ _)),
      ihr (ht.mono (List.subset_append_left _ _))]
    rfl
  | list hl hr ihl ihr =>
    rw [Cmd.read, ihl (ht.mono (List.subset_append_right _ _)),
      ihr (ht.mono (List.subset_append_left _ _))]
    rfl
  | back h ih =>
    rw [Cmd.read, ih ht]
    rfl

end Xv6.Shell
