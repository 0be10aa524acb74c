import Xv6.Lib.Wp
import Xv6.Shell.Basic

/-! # Tokens of a command line

The text of a line is a sequence of tokens with white space around them. `gettoken` and `peek` find them
one after the other. -/

namespace Xv6.Shell

open Scan

/-- A character of a word. -/
def wordChar (c : Char) : Bool := c != NUL && plain c

/-- A word: a non-empty string without white space and symbols. -/
structure Word where
  chars : List Char
  ne_nil : chars ≠ []
  all : ∀ c ∈ chars, wordChar c = true
  deriving DecidableEq

/-- A token. -/
inductive Tok where
  | word (w : Word)
  | bar
  | lparen
  | rparen
  | semi
  | amp
  | lt
  | gt
  | gtgt

namespace Tok

/-- How a token is written. -/
def chars : Tok → List Char
  | word w => w.chars
  | bar => ['|']
  | lparen => ['(']
  | rparen => [')']
  | semi => [';']
  | amp => ['&']
  | lt => ['<']
  | gt => ['>']
  | gtgt => ['>', '>']

/-- What `gettoken` returns for a token. -/
def ret : Tok → Char
  | word _ => 'a'
  | bar => '|'
  | lparen => '('
  | rparen => ')'
  | semi => ';'
  | amp => '&'
  | lt => '<'
  | gt => '>'
  | gtgt => '+'

/-- The symbol that a token other than a word starts with. -/
def symbol : Tok → Option Char
  | word _ => none
  | bar => some '|'
  | lparen => some '('
  | rparen => some ')'
  | semi => some ';'
  | amp => some '&'
  | lt => some '<'
  | gt => some '>'
  | gtgt => some '>'

/-- The token is not read on into the text that follows. -/
def Ends : Tok → List Char → Prop
  | word _, text => ∀ c ∈ text.head?, plain c = false
  | gt, text => ∀ c ∈ text.head?, c ≠ '>'
  | _, _ => True

end Tok

/-- The text consists of the tokens, with white space before, between and after them. -/
inductive Layout : List Tok → List Char → Prop where
  | nil {ws : List Char} (hws : ∀ c ∈ ws, whitespace.contains c = true) : Layout [] ws
  | cons {ws text : List Char} {tok : Tok} {toks : List Tok}
      (hws : ∀ c ∈ ws, whitespace.contains c = true) (hends : tok.Ends text)
      (hrest : Layout toks text) : Layout (tok :: toks) (ws ++ (tok.chars ++ text))

/-- The tokens start with one of the symbols. -/
def starts (set : List Char) : List Tok → Bool
  | [] => false
  | tok :: _ => tok.symbol.any set.contains

variable {buf ws text set : List Char} {es s q eq : ℕ} {tok : Tok} {toks : List Tok} {c : Char} {w : Word}
  {E : ShellError → Prop}

/-- What is left of the line from `s` on. -/
structure Rest (buf : List Char) (es s : ℕ) (toks : List Tok) (text : List Char) : Prop where
  drop : buf.drop s = text ++ [NUL]
  stop : s + text.length = es
  layout : Layout toks text

/-- The tokens from `s` on. -/
def Left (buf : List Char) (es s : ℕ) (toks : List Tok) : Prop := ∃ text, Rest buf es s toks text

/-- The word is in the line from `q` up to `eq`. -/
structure At (buf : List Char) (w : Word) (q eq : ℕ) : Prop where
  drop : buf.drop q = w.chars ++ buf.drop eq
  stop : eq = q + w.chars.length
  lt : eq < buf.length
  ends : wordChar (charAt buf eq) = false

/-! ### Characters -/

theorem charAt_of_drop (h : buf.drop s = c :: text) : charAt buf s = c := by
  rw [charAt, List.getD_eq_getElem?_getD, ← List.head?_drop, h]
  rfl

theorem drop_of_append (h : buf.drop s = ws ++ text) : buf.drop (s + ws.length) = text := by
  rw [← List.drop_drop, h, List.drop_left]

theorem plain_of_wordChar (h : wordChar c = true) : plain c = true := ((Bool.and_eq_true _ _).mp h).2

theorem plain_whitespace (h : plain c = true) : whitespace.contains c = false := by
  simpa using ((Bool.and_eq_true _ _).mp h).1

theorem plain_symbols (h : plain c = true) : symbols.contains c = false := by
  simpa using ((Bool.and_eq_true _ _).mp h).2

theorem ne_of_plain (h : plain c = true) {d : Char} (hd : symbols.contains d = true) : c ≠ d := by
  rintro rfl
  rw [plain_symbols h] at hd
  cases hd

/-- A token begins with a character that is not white space. -/
theorem Tok.chars_eq_cons (tok : Tok) :
    ∃ c cs, tok.chars = c :: cs ∧ whitespace.contains c = false ∧ c ≠ NUL := by
  cases tok with
  | word w =>
    obtain ⟨c, cs, hw⟩ := List.exists_cons_of_ne_nil w.ne_nil
    have hc : wordChar c = true := w.all c (by rw [hw]; exact List.mem_cons_self)
    refine ⟨c, cs, hw, plain_whitespace (plain_of_wordChar hc), ?_⟩
    rintro rfl
    cases hc
  | _ => exact ⟨_, _, rfl, by decide, by decide⟩

/-! ### White space -/

theorem skipSpace_append (hdrop : buf.drop s = ws ++ (text ++ [NUL]))
    (hstop : s + ws.length + text.length = es) (hws : ∀ c ∈ ws, whitespace.contains c = true)
    (htext : ∀ c ∈ text.head?, whitespace.contains c = false) :
    skipSpace buf es s = s + ws.length := by
  refine scan_append hdrop hws (by omega) fun hlt => ?_
  have hrest := drop_of_append hdrop
  cases text with
  | nil => exact absurd hstop (by simp only [List.length_nil]; omega)
  | cons c text =>
    have hc : charAt buf (s + ws.length) = c := charAt_of_drop hrest
    show whitespace.contains (charAt buf (s + ws.length)) = false
    rw [hc]
    exact htext c rfl

theorem Rest.skipSpace_nil (h : Rest buf es s [] text) : Rest buf es (skipSpace buf es s) [] [] := by
  cases h.layout with
  | nil hws =>
    have hdrop : buf.drop s = text ++ ([] ++ [NUL]) := h.drop
    have hskip := skipSpace_append hdrop h.stop hws nofun
    rw [hskip]
    exact ⟨drop_of_append hdrop, h.stop, .nil nofun⟩

/-- After the white space there is the first token. -/
theorem Rest.skipSpace_cons (h : Rest buf es s (tok :: toks) text) :
    ∃ text', Rest buf es (skipSpace buf es s) (tok :: toks) (tok.chars ++ text') ∧ tok.Ends text' ∧
      Layout toks text' := by
  cases h.layout with
  | @cons ws text' _ _ hws hends hrest =>
    have hdrop : buf.drop s = ws ++ ((tok.chars ++ text') ++ [NUL]) := by
      rw [h.drop, List.append_assoc]
    have hstop : s + ws.length + (tok.chars ++ text').length = es := by
      have hstop := h.stop
      simp only [List.length_append] at hstop ⊢
      omega
    obtain ⟨c, cs, hchars, hc, -⟩ := tok.chars_eq_cons
    have hskip : skipSpace buf es s = s + ws.length := by
      refine skipSpace_append hdrop hstop hws fun d hd => ?_
      rw [hchars] at hd
      obtain rfl : c = d := Option.some.inj hd
      exact hc
    rw [hskip]
    have hlayout : Layout (tok :: toks) ([] ++ (tok.chars ++ text')) :=
      .cons (fun d hd => absurd hd List.not_mem_nil) hends hrest
    exact ⟨text', ⟨drop_of_append hdrop, hstop, hlayout⟩, hends, hrest⟩

theorem Left.skipSpace (h : Left buf es s toks) : Left buf es (skipSpace buf es s) toks := by
  obtain ⟨text, h⟩ := h
  cases toks with
  | nil => exact ⟨[], h.skipSpace_nil⟩
  | cons tok toks =>
    obtain ⟨text', h', -⟩ := h.skipSpace_cons
    exact ⟨_, h'⟩

/-! ### One token -/

/-- The scan of a word stops at its end. -/
theorem skipWord_eq (hdrop : buf.drop s = w.chars ++ (text ++ [NUL]))
    (hstop : s + w.chars.length + text.length = es) (hends : (Tok.word w).Ends text) :
    skipWord buf es s = s + w.chars.length := by
  refine scan_append hdrop (fun c hc => plain_of_wordChar (w.all c hc)) (by omega) fun hlt => ?_
  cases text with
  | nil => exact absurd hstop (by simp only [List.length_nil]; omega)
  | cons c text =>
    have hc : charAt buf (s + w.chars.length) = c := charAt_of_drop (drop_of_append hdrop)
    show plain (charAt buf (s + w.chars.length)) = false
    rw [hc]
    exact hends c rfl

theorem tokenAt_word (h : wordChar (charAt buf s) = true) : tokenAt buf es s = ('a', skipWord buf es s) := by
  have hplain := plain_of_wordChar h
  unfold tokenAt
  split
  case h_1 hc =>
    rw [hc] at h
    cases h
  case h_9 => rfl
  all_goals
    rename_i hc
    rw [hc] at h
    cases h

theorem tokenAt_eq (hdrop : buf.drop s = tok.chars ++ (text ++ [NUL]))
    (hstop : s + tok.chars.length + text.length = es) (hends : tok.Ends text) :
    tokenAt buf es s = (tok.ret, s + tok.chars.length) := by
  obtain ⟨c, cs, hchars, -⟩ := tok.chars_eq_cons
  have hc : charAt buf s = c := charAt_of_drop (by rw [hdrop, hchars]; rfl)
  cases tok with
  | word w =>
    have hword : wordChar (charAt buf s) = true := by
      rw [hc]
      refine w.all c ?_
      rw [show w.chars = c :: cs from hchars]
      exact List.mem_cons_self
    rw [tokenAt_word hword, skipWord_eq hdrop hstop hends]
    rfl
  | gt =>
    obtain ⟨rfl, rfl⟩ := List.cons.inj hchars
    have hnext : charAt buf (s + 1) ≠ '>' := by
      have hdrop' : buf.drop (s + 1) = text ++ [NUL] := drop_of_append hdrop
      cases text with
      | nil =>
        rw [charAt_of_drop hdrop']
        decide
      | cons d text =>
        rw [charAt_of_drop hdrop']
        exact hends d rfl
    rw [tokenAt, hc]
    exact if_neg hnext
  | gtgt =>
    obtain ⟨rfl, rfl⟩ := List.cons.inj hchars
    have hnext : charAt buf (s + 1) = '>' := by
      have hcons : buf.drop s = ['>'] ++ '>' :: (text ++ [NUL]) := hdrop
      have hdrop' : buf.drop (s + 1) = '>' :: (text ++ [NUL]) := drop_of_append hcons
      exact charAt_of_drop hdrop'
    rw [tokenAt, hc]
    exact if_pos hnext
  | _ =>
    obtain ⟨rfl, rfl⟩ := List.cons.inj hchars
    rw [tokenAt, hc]
    rfl

/-- A word that ends before the text is where it was found. -/
theorem at_of_drop (hdrop : buf.drop q = w.chars ++ (text ++ [NUL])) (heq : eq = q + w.chars.length)
    (hends : (Tok.word w).Ends text) : At buf w q eq := by
  have hrest : buf.drop eq = text ++ [NUL] := heq ▸ drop_of_append hdrop
  refine ⟨by rw [hdrop, hrest], heq, ?_, ?_⟩
  · by_contra hge
    rw [List.drop_eq_nil_of_le (Nat.le_of_not_lt hge)] at hrest
    exact List.append_ne_nil_of_right_ne_nil text (List.cons_ne_nil NUL []) hrest.symm
  · cases text with
    | nil =>
      rw [charAt_of_drop hrest]
      rfl
    | cons c text =>
      rw [charAt_of_drop hrest, wordChar, hends c rfl, Bool.and_false]

/-- `gettoken` returns the first token and leaves the others. -/
theorem wp_gettoken (h : Left buf es s (tok :: toks)) :
    Wp (gettoken buf es) E (fun t s' => t.ret = tok.ret ∧ (∀ w, tok = .word w → At buf w t.q t.eq) ∧
      Left buf es s' toks) s := by
  obtain ⟨text, h⟩ := h
  obtain ⟨text, h, hends, hlayout⟩ := h.skipSpace_cons
  have hdrop := h.drop
  have hstop := h.stop
  rw [List.append_assoc] at hdrop
  rw [List.length_append, ← Nat.add_assoc] at hstop
  have hrest : Rest buf es (skipSpace buf es s + tok.chars.length) toks text :=
    ⟨drop_of_append hdrop, hstop, hlayout⟩
  have htok := tokenAt_eq hdrop hstop hends
  simp only [gettoken, wp_bind, wp_get, wp_set, wp_pure, htok]
  refine ⟨trivial, ?_, Left.skipSpace ⟨text, hrest⟩⟩
  rintro w rfl
  exact at_of_drop hdrop rfl hends

/-- At the end of the line there is no token. -/
theorem wp_gettoken_nil (h : Left buf es s []) :
    Wp (gettoken buf es) E (fun t s' => t.ret = NUL ∧ Left buf es s' []) s := by
  obtain ⟨text, h⟩ := h
  have hskip := h.skipSpace_nil
  have hc : charAt buf (skipSpace buf es s) = NUL := charAt_of_drop hskip.drop
  have htok : tokenAt buf es (skipSpace buf es s) = (NUL, skipSpace buf es s) := by
    rw [tokenAt, hc]
    rfl
  simp only [gettoken, wp_bind, wp_get, wp_set, wp_pure, htok]
  exact ⟨trivial, Left.skipSpace ⟨_, hskip⟩⟩

/-- Whether a token starts with one of the symbols is seen from its first character. -/
theorem Tok.symbol_any (hset : ∀ c ∈ set, symbols.contains c = true) {cs : List Char}
    (hchars : tok.chars = c :: cs) : tok.symbol.any set.contains = set.contains c := by
  cases tok with
  | word w =>
    have hc : wordChar c = true := by
      refine w.all c ?_
      rw [show w.chars = c :: cs from hchars]
      exact List.mem_cons_self
    refine (Bool.eq_false_iff.mpr fun hmem => ?_).symm
    exact ne_of_plain (plain_of_wordChar hc) (hset c (List.contains_iff_mem.mp hmem)) rfl
  | _ =>
    obtain ⟨rfl, -⟩ := List.cons.inj hchars
    rfl

/-- `peek` sees whether the next token starts with one of the symbols. -/
theorem wp_peek (hset : ∀ c ∈ set, symbols.contains c = true) (h : Left buf es s toks) :
    Wp (peek buf es set) E (fun b s' => b = starts set toks ∧ Left buf es s' toks) s := by
  simp only [peek, wp_bind, wp_get, wp_set, wp_pure]
  refine ⟨?_, h.skipSpace⟩
  obtain ⟨text, h⟩ := h
  cases toks with
  | nil =>
    rw [charAt_of_drop h.skipSpace_nil.drop]
    rfl
  | cons tok toks =>
    obtain ⟨text', h', -⟩ := h.skipSpace_cons
    obtain ⟨c, cs, hchars, -, hnul⟩ := tok.chars_eq_cons
    have hc : charAt buf (skipSpace buf es s) = c :=
      charAt_of_drop (by rw [h'.drop, hchars]; rfl)
    rw [hc, bne_iff_ne.mpr hnul, Bool.true_and]
    exact (Tok.symbol_any hset hchars).symm

/-- At the end of the line `peek` stops at the NUL. -/
theorem wp_peek_nil (h : Left buf es s []) : Wp (peek buf es set) E (fun _ s' => s' = es) s := by
  obtain ⟨text, h⟩ := h
  simp only [peek, wp_bind, wp_get, wp_set, wp_pure]
  exact h.skipSpace_nil.stop

end Xv6.Shell
