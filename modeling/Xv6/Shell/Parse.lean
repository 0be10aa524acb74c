import Xv6.Shell.Tree

/-! # Parsing inverts printing

What each parser does on the tokens of a command, whatever follows them that the grammar allows there. A
parser may run out of calls here: that it does not is a matter of its own. -/

namespace Xv6.Shell

variable {buf set set' : List Char} {es s n m argc : ℕ} {tok : Tok} {toks rest : List Tok} {cmd : Cmd}
  {t u : Tree} {w : Word} {ws ws' : List Word} {kind : Redirection} {rs : List (Redirection × Word)}

/-- The parser may only stop for want of calls. -/
def OutOfFuel (e : ShellError) : Prop := e = .outOfFuel

/-- The tokens are at an end, or go on with one of the symbols. -/
def Follow (set : List Char) (toks : List Tok) : Prop := toks = [] ∨ starts set toks = true

theorem Follow.starts_eq_false (h : Follow set toks) (hdisj : set.all (!set'.contains ·) = true) :
    starts set' toks = false := by
  rcases h with rfl | h
  · rfl
  · cases toks with
    | nil => rfl
    | cons tok toks =>
      obtain ⟨c, hc, hmem⟩ := (Option.any_eq_true _ _).mp h
      rw [starts, hc]
      exact (Bool.not_eq_true' _).mp (List.all_eq_true.mp hdisj c (List.contains_iff_mem.mp hmem))

theorem Follow.mono (h : Follow set toks) (hsub : set.all set'.contains = true) : Follow set' toks := by
  refine h.imp_right fun h => ?_
  cases toks with
  | nil => cases h
  | cons tok toks =>
    obtain ⟨c, hc, hmem⟩ := (Option.any_eq_true _ _).mp h
    rw [starts, hc]
    exact List.all_eq_true.mp hsub c (List.contains_iff_mem.mp hmem)

/-! ### Tokens -/

section

variable {E : ShellError → Prop} {Q : Bool → ℕ → Prop} {R : Token → ℕ → Prop}

theorem wp_peek_true (hset : set.all symbols.contains = true) (hstarts : starts set toks = true)
    (h : Left buf es s toks) (hQ : ∀ s', Left buf es s' toks → Q true s') : Wp (peek buf es set) E Q s :=
  (wp_peek (List.all_eq_true.mp hset) h).mono fun b s' hb => by
    obtain rfl : b = true := hb.1.trans hstarts
    exact hQ s' hb.2

theorem wp_peek_false (hset : set.all symbols.contains = true) (hstarts : starts set toks = false)
    (h : Left buf es s toks) (hQ : ∀ s', Left buf es s' toks → Q false s') : Wp (peek buf es set) E Q s :=
  (wp_peek (List.all_eq_true.mp hset) h).mono fun b s' hb => by
    obtain rfl : b = false := hb.1.trans hstarts
    exact hQ s' hb.2

theorem wp_gettoken_of (h : Left buf es s (tok :: toks))
    (hQ : ∀ t s', t.ret = tok.ret → (∀ w, tok = .word w → At buf w t.q t.eq) → Left buf es s' toks → R t s') :
    Wp (gettoken buf es) E R s :=
  (wp_gettoken h).mono fun t s' ht => hQ t s' ht.1 ht.2.1 ht.2.2

end

/-! ### Redirections -/

/-- The tokens of redirections. -/
def redirToks (rs : List (Redirection × Word)) : List Tok := rs.flatMap fun r => [r.1.tok, .word r.2]

/-- The command with the redirections, the first one innermost. -/
def Tree.wrap (t : Tree) (rs : List (Redirection × Word)) : Tree := rs.foldl (fun t r => .redir t r.1 r.2) t

theorem starts_redir (kind : Redirection) : starts ['<', '>'] (kind.tok :: toks) = true := by
  cases kind <;> rfl

/-- One round of `parseredirs`. -/
theorem wp_parseredirs_cons {Q : Cmd → ℕ → Prop} (h : Left buf es s (kind.tok :: .word w :: toks))
    (hQ : ∀ file efile n s', At buf w file efile → Left buf es s' toks →
      Wp (parseredirs buf es n (.redir cmd file efile kind.mode kind.fd)) OutOfFuel Q s') :
    Wp (parseredirs buf es n cmd) OutOfFuel Q s := by
  cases n with
  | zero => rfl
  | succ n =>
    simp only [parseredirs, wp_bind]
    refine wp_peek_true rfl (starts_redir kind) h fun s h => ?_
    rw [if_pos rfl]
    rw [wp_bind]
    refine wp_gettoken_of h fun tok s htok _ h => ?_
    rw [wp_bind]
    refine wp_gettoken_of h fun file s hfile hat hleft => ?_
    have hword : file.ret = 'a' := hfile
    rw [if_neg (not_not_intro hword), htok]
    cases kind with
    | input => exact hQ _ _ n s (hat w rfl) hleft
    | output => exact hQ _ _ n s (hat w rfl) hleft
    | append => exact hQ _ _ n s (hat w rfl) hleft

theorem wp_parseredirs (hrest : starts ['<', '>'] rest = false) (hcmd : Spells buf cmd t)
    (h : Left buf es s (redirToks rs ++ rest)) :
    Wp (parseredirs buf es n cmd) OutOfFuel
      (fun cmd s' => Spells buf cmd (t.wrap rs) ∧ Left buf es s' rest) s := by
  induction rs generalizing cmd t n s with
  | nil =>
    cases n with
    | zero => rfl
    | succ n =>
      simp only [parseredirs, wp_bind]
      refine wp_peek_false rfl hrest h fun s h => ?_
      rw [if_neg (by decide)]
      exact ⟨hcmd, h⟩
  | cons r rs ih =>
    refine wp_parseredirs_cons h fun file efile n s hat h => ?_
    exact ih (.redir hcmd hat) h

/-! ### Arguments -/

/-- The words at the bottom of a command that redirects them. -/
def Tree.args : Tree → Option (List Word)
  | .exec args => some args.val
  | .redir cmd _ _ => cmd.args
  | _ => none

theorem Tree.args_wrap : (t.wrap rs).args = t.args := by
  induction rs generalizing t with
  | nil => rfl
  | cons r rs ih => exact ih

/-- An array of pointers, changed at the first null pointer. -/
theorem set_append_replicate {α : Type} (l : List α) (k : ℕ) (a : α) (d : α) :
    (l ++ List.replicate (k + 1) d).set l.length a = l ++ a :: List.replicate k d := by
  rw [List.set_append_right _ _ le_rfl, Nat.sub_self]
  rfl

theorem ofArgs_set_none (args : List (ℕ × ℕ)) (h : args.length < MAXARGS) :
    (ExecCmd.ofArgs args).set args.length none none = .ofArgs args := by
  obtain ⟨k, hk⟩ : ∃ k, MAXARGS - args.length = k + 1 := ⟨MAXARGS - args.length - 1, by omega⟩
  have h1 := set_append_replicate (args.map fun a => some a.1) k none none
  have h2 := set_append_replicate (args.map fun a => some a.2) k none none
  rw [List.length_map] at h1 h2
  rw [ExecCmd.ofArgs, ExecCmd.set, hk, h1, h2]
  rfl

theorem ofArgs_set_some (args : List (ℕ × ℕ)) (q eq : ℕ) (h : args.length < MAXARGS) :
    (ExecCmd.ofArgs args).set args.length (some q) (some eq) = .ofArgs (args ++ [(q, eq)]) := by
  obtain ⟨k, hk⟩ : ∃ k, MAXARGS - args.length = k + 1 := ⟨MAXARGS - args.length - 1, by omega⟩
  have h1 := set_append_replicate (args.map fun a => some a.1) k (some q) none
  have h2 := set_append_replicate (args.map fun a => some a.2) k (some eq) none
  have hk' : MAXARGS - (args ++ [(q, eq)]).length = k := by
    rw [List.length_append, List.length_singleton]
    omega
  rw [List.length_map] at h1 h2
  rw [ExecCmd.ofArgs, ExecCmd.set, hk, h1, h2, ExecCmd.ofArgs, hk', List.map_append, List.map_append,
    List.append_assoc, List.append_assoc]
  rfl

/-- The null pointer after the arguments is there already. -/
theorem Spells.onExec_set_none (h : Spells buf cmd t) (hargs : t.args = some ws) :
    cmd.onExec (.set ws.length none none) = cmd := by
  induction h with
  | @exec _ args h =>
    cases hargs
    rw [Cmd.onExec, ← h.length_eq, ofArgs_set_none _ (h.length_eq.trans_lt args.2)]
  | redir h hfile ih => rw [Cmd.onExec, ih hargs]
  | _ => cases hargs

/-- The next argument. -/
theorem Spells.onExec_set_some {args : {ws : List Word // ws.length < MAXARGS}} {q eq : ℕ}
    (h : Spells buf cmd (.exec args)) (hat : At buf w q eq) (hlen : (args.val ++ [w]).length < MAXARGS) :
    Spells buf (cmd.onExec (.set args.val.length (some q) (some eq))) (.exec ⟨args.val ++ [w], hlen⟩) := by
  cases h with
  | exec h =>
    rw [Cmd.onExec, ← h.length_eq, ofArgs_set_some _ _ _ (h.length_eq.trans_lt args.2)]
    exact .exec (List.rel_append h (.cons hat .nil))

/-- The loop of `parseexec`, with the redirections before each round: the words are taken up to the
redirections. -/
theorem wp_parseargs {args : {ws : List Word // ws.length < MAXARGS}}
    (hrest : Follow ['|', ')', '&', ';'] rest) (hcmd : Spells buf cmd (.exec args))
    (hlen : (args.val ++ ws).length < MAXARGS)
    (h : Left buf es s (ws.map .word ++ (redirToks rs ++ rest))) :
    Wp (parseredirs buf es n cmd) OutOfFuel
      (fun cmd => Wp (parseargs buf es m args.val.length cmd) OutOfFuel fun cmd s' =>
        Spells buf cmd (Tree.wrap (.exec ⟨args.val ++ ws, hlen⟩) rs) ∧ Left buf es s' rest) s := by
  induction ws generalizing cmd args n m s with
  | nil =>
    have hargs : (⟨args.val ++ [], hlen⟩ : {ws : List Word // ws.length < MAXARGS}) = args :=
      Subtype.ext (List.append_nil _)
    rw [hargs]
    refine (wp_parseredirs (hrest.starts_eq_false rfl) hcmd h).mono fun cmd s ⟨hcmd, h⟩ => ?_
    have hset := hcmd.onExec_set_none Tree.args_wrap
    cases m with
    | zero => rfl
    | succ m =>
      rw [parseargs, wp_bind]
      rcases hrest with rfl | hstarts
      · refine wp_peek_false rfl rfl h fun s h => ?_
        rw [if_neg (by decide)]
        refine (wp_gettoken_nil h).bind fun tok s htok => ?_
        rw [if_pos htok.1, wp_pure]
        exact ⟨by rwa [hset], htok.2⟩
      · refine wp_peek_true rfl hstarts h fun s h => ?_
        rw [if_pos rfl, wp_pure]
        exact ⟨by rwa [hset], h⟩
  | cons w ws ih =>
    have hnone : Left buf es s (redirToks [] ++ .word w :: (ws.map .word ++ (redirToks rs ++ rest))) := h
    refine (wp_parseredirs rfl hcmd hnone).mono fun cmd s ⟨hcmd, h⟩ => ?_
    have hlen' : (args.val ++ [w]).length < MAXARGS := by
      simp only [List.length_append, List.length_cons, List.length_nil] at hlen ⊢
      omega
    cases m with
    | zero => rfl
    | succ m =>
      rw [parseargs, wp_bind]
      refine wp_peek_false rfl rfl h fun s h => ?_
      rw [if_neg (by decide), wp_bind]
      refine wp_gettoken_of h fun tok s htok hat h => ?_
      have hargc : ¬ args.val.length + 1 ≥ MAXARGS := by
        rw [List.length_append, List.length_singleton] at hlen'
        exact Nat.not_le_of_lt hlen'
      have hword : tok.ret = 'a' := htok
      rw [if_neg (by rw [hword]; decide), if_neg (not_not_intro hword), if_neg hargc, wp_bind]
      have hmore := ih (n := m) (m := m) (hcmd.onExec_set_some (hat w rfl) hlen')
        (by rwa [List.append_assoc]) h
      simp only [List.append_assoc, List.length_append, List.length_singleton,
        List.singleton_append] at hmore
      exact hmore

/-! ### Commands -/

/-- `parseexec` takes the tokens of the command as a block, and the redirections that follow. -/
def ParsesBlock (buf : List Char) (es : ℕ) (t : Tree) : Prop :=
  ∀ ⦃rs rest n s⦄, Follow ['|', ')', '&', ';'] rest → Left buf es s (t.tokens 0 ++ (redirToks rs ++ rest)) →
    Wp (parseexec buf es n) OutOfFuel (fun cmd s' => Spells buf cmd (t.wrap rs) ∧ Left buf es s' rest) s

/-- `parsepipe` takes the tokens of the command as a pipeline. -/
def ParsesPipe (buf : List Char) (es : ℕ) (t : Tree) : Prop :=
  ∀ ⦃rest n s⦄, Follow [')', '&', ';'] rest → Left buf es s (t.tokens 1 ++ rest) →
    Wp (parsepipe buf es n) OutOfFuel (fun cmd s' => Spells buf cmd t ∧ Left buf es s' rest) s

/-- `parseline` takes the tokens of the command as a pipeline in the background, and then its loop goes
on with what follows. -/
def ParsesBack (buf : List Char) (es : ℕ) (t : Tree) : Prop :=
  ∀ ⦃rest n m s⦄ ⦃Q : Cmd → ℕ → Prop⦄, Follow [')', '&', ';'] rest → Left buf es s (t.tokens 2 ++ rest) →
    (∀ m cmd s', Spells buf cmd t → Left buf es s' rest → Wp (parseback buf es m cmd) OutOfFuel Q s') →
    Wp (parsepipe buf es n) OutOfFuel (fun cmd => Wp (parseback buf es m cmd) OutOfFuel Q) s

/-- `parseline` takes the tokens of the command as a line. -/
def ParsesLine (buf : List Char) (es : ℕ) (t : Tree) : Prop :=
  ∀ ⦃rest n s⦄, Follow [')'] rest → Left buf es s (t.tokens 3 ++ rest) →
    Wp (parseline buf es n) OutOfFuel (fun cmd s' => Spells buf cmd t ∧ Left buf es s' rest) s

theorem parsesBlock_exec (args : {ws : List Word // ws.length < MAXARGS}) :
    ParsesBlock buf es (.exec args) := by
  intro rs rest n s hrest h
  cases n with
  | zero => rfl
  | succ n =>
    have hblock : starts ['('] (args.val.map Tok.word ++ (redirToks rs ++ rest)) = false := by
      cases args.val with
      | cons w ws => rfl
      | nil =>
        cases rs with
        | nil => exact hrest.starts_eq_false rfl
        | cons r rs =>
          obtain ⟨kind, w⟩ := r
          cases kind <;> rfl
    have hempty : Spells buf (.exec (.ofArgs [])) (.exec ⟨[], by decide⟩) := .exec .nil
    rw [parseexec, wp_bind]
    refine wp_peek_false rfl hblock h fun s h => ?_
    rw [if_neg (by decide), wp_bind]
    exact wp_parseargs hrest hempty args.2 h

theorem ParsesBlock.redir (h : ParsesBlock buf es t) (kind : Redirection) (w : Word) :
    ParsesBlock buf es (.redir t kind w) := by
  intro rs rest n s hrest hleft
  have htoks : (Tree.redir t kind w).tokens 0 ++ (redirToks rs ++ rest) =
      t.tokens 0 ++ (redirToks ((kind, w) :: rs) ++ rest) := by
    simp only [Tree.tokens, redirToks, List.flatMap_cons, List.append_assoc]
  rw [htoks] at hleft
  exact h hrest hleft

/-- A command that is not a pipeline is one of one block. -/
theorem ParsesBlock.pipe (h : ParsesBlock buf es t) (htoks : t.tokens 1 = t.tokens 0) :
    ParsesPipe buf es t := by
  intro rest n s hrest hleft
  have hleft : Left buf es s (t.tokens 0 ++ (redirToks [] ++ rest)) := htoks ▸ hleft
  cases n with
  | zero => rfl
  | succ n =>
    rw [parsepipe]
    refine (h (hrest.mono rfl) hleft).bind fun cmd s hcs => ?_
    rw [wp_bind]
    refine wp_peek_false rfl (hrest.starts_eq_false rfl) hcs.2 fun s hleft => ?_
    rw [if_neg (by decide)]
    exact ⟨hcs.1, hleft⟩

theorem ParsesPipe.pipe (hl : ParsesBlock buf es t) (hr : ParsesPipe buf es u) :
    ParsesPipe buf es (.pipe t u) := by
  intro rest n s hrest hleft
  have htoks : (Tree.pipe t u).tokens 1 ++ rest = t.tokens 0 ++ (redirToks [] ++ .bar :: (u.tokens 1 ++ rest)) := by
    rw [Tree.tokens, bracket, if_neg (by decide), List.append_assoc]
    rfl
  rw [htoks] at hleft
  cases n with
  | zero => rfl
  | succ n =>
    rw [parsepipe]
    refine (hl (.inr rfl) hleft).bind fun left s hcs => ?_
    rw [wp_bind]
    refine wp_peek_true rfl rfl hcs.2 fun s hleft => ?_
    rw [if_pos rfl, wp_bind]
    refine wp_gettoken_of hleft fun _ s _ _ hleft => ?_
    refine (hr hrest hleft).bind fun right s hcs' => ?_
    exact ⟨.pipe hcs.1 hcs'.1, hcs'.2⟩

theorem ParsesPipe.back (h : ParsesPipe buf es t) (htoks : t.tokens 2 = t.tokens 1) : ParsesBack buf es t := by
  intro rest n m s Q hrest hleft hQ
  rw [htoks] at hleft
  exact (h hrest hleft).mono fun cmd s hcs => hQ m cmd s hcs.1 hcs.2

theorem ParsesBack.back (h : ParsesBack buf es t) : ParsesBack buf es (.back t) := by
  intro rest n m s Q hrest hleft hQ
  have htoks : (Tree.back t).tokens 2 ++ rest = t.tokens 2 ++ .amp :: rest := by
    rw [Tree.tokens, bracket, if_neg (by decide), List.append_assoc]
    rfl
  rw [htoks] at hleft
  refine h (.inr rfl) hleft fun m cmd s hcmd hleft => ?_
  cases m with
  | zero => rfl
  | succ m =>
    rw [parseback, wp_bind]
    refine wp_peek_true rfl rfl hleft fun s hleft => ?_
    rw [if_pos rfl, wp_bind]
    refine wp_gettoken_of hleft fun _ s _ _ hleft => ?_
    exact hQ m _ s (.back hcmd) hleft

/-- The loop over the `&` ends where there is none. -/
theorem wp_parseback_stop {Q : Cmd → ℕ → Prop} (hrest : starts ['&'] rest = false)
    (hleft : Left buf es s rest) (hQ : ∀ s', Left buf es s' rest → Q cmd s') :
    Wp (parseback buf es n cmd) OutOfFuel Q s := by
  cases n with
  | zero => rfl
  | succ n =>
    rw [parseback, wp_bind]
    refine wp_peek_false rfl hrest hleft fun s hleft => ?_
    rw [if_neg (by decide)]
    exact hQ s hleft

theorem ParsesBack.line (h : ParsesBack buf es t) (htoks : t.tokens 3 = t.tokens 2) : ParsesLine buf es t := by
  intro rest n s hrest hleft
  rw [htoks] at hleft
  cases n with
  | zero => rfl
  | succ n =>
    rw [parseline]
    refine (h (m := n) (hrest.mono rfl) hleft fun m cmd s hcmd hleft => ?_).bind
      fun cmd s hback => (wp_bind _ _).mpr hback
    refine wp_parseback_stop (hrest.starts_eq_false rfl) hleft fun s hleft => ?_
    rw [wp_bind]
    refine wp_peek_false rfl (hrest.starts_eq_false rfl) hleft fun s hleft => ?_
    rw [if_neg (by decide)]
    exact ⟨hcmd, hleft⟩

theorem ParsesLine.list (hl : ParsesBack buf es t) (hr : ParsesLine buf es u) :
    ParsesLine buf es (.list t u) := by
  intro rest n s hrest hleft
  have htoks : (Tree.list t u).tokens 3 ++ rest = t.tokens 2 ++ .semi :: (u.tokens 3 ++ rest) := by
    rw [Tree.tokens, bracket, if_neg (by decide), List.append_assoc]
    rfl
  rw [htoks] at hleft
  cases n with
  | zero => rfl
  | succ n =>
    rw [parseline]
    refine (hl (m := n) (.inr rfl) hleft fun m left s hcmd hleft => ?_).bind
      fun cmd s hback => (wp_bind _ _).mpr hback
    refine wp_parseback_stop rfl hleft fun s hleft => ?_
    rw [wp_bind]
    refine wp_peek_true rfl rfl hleft fun s hleft => ?_
    rw [if_pos rfl, wp_bind]
    refine wp_gettoken_of hleft fun _ s _ _ hleft => ?_
    refine (hr hrest hleft).bind fun right s hcs => ?_
    exact ⟨.list hcmd hcs.1, hcs.2⟩

/-- In parentheses any command is a block. -/
theorem ParsesLine.block (h : ParsesLine buf es t)
    (htoks : t.tokens 0 = .lparen :: (t.tokens 3 ++ [.rparen])) : ParsesBlock buf es t := by
  intro rs rest n s hrest hleft
  have htoks : t.tokens 0 ++ (redirToks rs ++ rest) =
      .lparen :: (t.tokens 3 ++ .rparen :: (redirToks rs ++ rest)) := by
    rw [htoks, List.cons_append, List.append_assoc]
    rfl
  rw [htoks] at hleft
  cases n with
  | zero => rfl
  | succ n =>
    rw [parseexec, wp_bind]
    refine wp_peek_true rfl rfl hleft fun s hleft => ?_
    rw [if_pos rfl]
    cases n with
    | zero => rfl
    | succ n =>
      rw [parseblock, wp_bind]
      refine wp_peek_true rfl rfl hleft fun s hleft => ?_
      rw [if_neg (by decide), wp_bind]
      refine wp_gettoken_of hleft fun _ s _ _ hleft => ?_
      refine (h (.inr rfl) hleft).bind fun cmd s hcs => ?_
      rw [wp_bind]
      refine wp_peek_true rfl rfl hcs.2 fun s hleft => ?_
      rw [if_neg (by decide), wp_bind]
      refine wp_gettoken_of hleft fun _ s _ _ hleft => ?_
      exact wp_parseredirs (hrest.starts_eq_false rfl) hcs.1 hleft

/-- What the parsers do on the tokens of a command, by the place of the command in the grammar. -/
structure Parses (buf : List Char) (es : ℕ) (t : Tree) : Prop where
  block : ParsesBlock buf es t
  pipe : ParsesPipe buf es t
  back : ParsesBack buf es t
  line : ParsesLine buf es t

/-- Every command is parsed at every place of the grammar. By induction on the command: from the place
where it stands without parentheses upwards, and from a line in parentheses back to a block. -/
theorem parses (buf : List Char) (es : ℕ) (t : Tree) : Parses buf es t := by
  induction t with
  | exec args =>
    have hblock : ParsesBlock buf es (.exec args) := parsesBlock_exec args
    have hpipe := hblock.pipe rfl
    have hback := hpipe.back rfl
    exact ⟨hblock, hpipe, hback, hback.line rfl⟩
  | redir t kind w ih =>
    have hblock := ih.block.redir kind w
    have hpipe := hblock.pipe rfl
    have hback := hpipe.back rfl
    exact ⟨hblock, hpipe, hback, hback.line rfl⟩
  | pipe t u iht ihu =>
    have hpipe := ParsesPipe.pipe iht.block ihu.pipe
    have hback := hpipe.back rfl
    have hline := hback.line rfl
    exact ⟨hline.block rfl, hpipe, hback, hline⟩
  | back t ih =>
    have hback := ih.back.back
    have hline := hback.line rfl
    have hblock := hline.block rfl
    exact ⟨hblock, hblock.pipe rfl, hback, hline⟩
  | list t u iht ihu =>
    have hline := ParsesLine.list iht.back ihu.line
    have hblock := hline.block rfl
    have hpipe := hblock.pipe rfl
    exact ⟨hblock, hpipe, hpipe.back rfl, hline⟩

end Xv6.Shell
