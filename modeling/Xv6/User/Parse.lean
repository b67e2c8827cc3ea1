/-
# The shell parses its grammar

The parser of `sh.c` reads the line through `peek` and `gettoken`, which look at the front of the
sequence of tokens only: each of its functions does on the line what the descent of the grammar does
on the tokens, and builds the tree of the derivation that the descent finds (`simulates`). The
arguments and redirections of a command are collected by mutation, one at a time; that they end up
in the order of the grammar's tree is `addArgs_eq`.

`nulterminate` cuts the words out of the line: behind each word it overwrites a byte that belongs to
no word (`cstring_terminated`), so that afterwards every pointer of the tree is to its own word
(`nulterminate_isolates`).

`parsecmd_parses` is the result: on every line `parsecmd` comes to an end, with the tree of the
line's only derivation if there is one and in a panic if there is none.
-/
import Xv6.User.Grammar

namespace Xv6.Sh

open List
open Redir (wrap file)

/-! ## The parser follows the descent -/

/-- The parser ends as the descent does: with the tree `f d` of what the descent finds, and the
cursor in front of the tokens it leaves. -/
def Result.Sim {α : Type} (f : α → Cmd) (r : Result (Cmd × Str)) (r' : Result (α × List Token)) :
    Prop :=
  match r, r' with
  | .ok (c, s), .ok (d, ts) => c = f d ∧ tokens s = ts
  | .panic m, .panic m' => m = m'
  | .out, .out => True
  | _, _ => False

namespace Result.Sim

variable {α β : Type} {f : α → Cmd} {g : β → Cmd} {r : Result (Cmd × Str)}

theorem ok {c : Cmd} {s : Str} {d : α} {ts : List Token} (hc : c = f d) (hs : tokens s = ts) :
    Sim f (.ok (c, s)) (.ok (d, ts)) :=
  ⟨hc, hs⟩

theorem of_panic {m : String} (h : Sim f r (.panic m)) : r = .panic m := by
  cases r with
  | ok a => exact h.elim
  | panic m' => exact congrArg Result.panic h
  | out => exact h.elim

theorem of_ok {d : α} {ts : List Token} (h : Sim f r (.ok (d, ts))) :
    ∃ s, r = .ok (f d, s) ∧ tokens s = ts := by
  cases r with
  | ok a => exact ⟨a.2, by rw [← h.1], h.2⟩
  | panic m' => exact h.elim
  | out => exact h.elim

theorem bind {r' : Result (α × List Token)} (h : Sim f r r')
    {k : Cmd × Str → Result (Cmd × Str)} {k' : α × List Token → Result (β × List Token)}
    (hk : ∀ d s, Sim g (k (f d, s)) (k' (d, tokens s))) : Sim g (r >>= k) (r' >>= k') := by
  cases r' with
  | ok a' =>
    obtain ⟨s, rfl, hs⟩ := h.of_ok
    have := hk a'.1 s
    rwa [hs] at this
  | panic m =>
    rw [h.of_panic]
    rfl
  | out =>
    cases r with
    | ok a => exact h.elim
    | panic m => exact h.elim
    | out => trivial

/-- The tree of what is found may be read off later. -/
theorem map {r' : Result (α × List Token)} (h : Sim f r r')
    {k' : α × List Token → Result (β × List Token)}
    (hk : ∀ d s, Sim g (.ok (f d, s)) (k' (d, tokens s))) : Sim g r (r' >>= k') := by
  have heq : r = (r >>= Result.ok) := by cases r <;> rfl
  rw [heq]
  exact h.bind hk

end Result.Sim

theorem redircmd_token (op : RedirOp) (c : Cmd) (w : Word) :
    redircmd op.token.tok c w = wrap c ⟨op, w⟩ := by
  cases op <;> rfl

variable (s : Str)

include s

/-- A redirection is what `peek(ps, es, "<>")` looks for. -/
theorem peek_redir : (peek s [60, 62]).1 = ((tokens s).head?.bind Token.redirOp).isSome := by
  rw [peek_fst s (by simp [symbols])]
  cases tokens s with
  | nil => rfl
  | cons t ts => cases t <;> rfl

/-- The end of a command that is not the end of the line is what `peek(ps, es, "|)&;")` looks
for. -/
theorem peek_ends :
    (peek s [124, 41, 38, 59]).1 = ((next (tokens s)).ends && decide (next (tokens s) ≠ .eof)) := by
  rw [peek_fst s (by simp [symbols])]
  cases next (tokens s) <;> rfl

/-- `peek` for the symbol of one token. -/
theorem peek_one {c : UInt8} {t : Tok} (hc : c ∈ symbols)
    (h : ∀ t' : Tok, t'.first.any ([c].contains ·) = decide (t' = t)) :
    (peek s [c]).1 = decide (next (tokens s) = t) := by
  rw [peek_fst s (by simpa using hc)]
  exact h _

theorem peek_lpar : (peek s [40]).1 = decide (next (tokens s) = .lpar) :=
  peek_one s (by decide) fun t' => by cases t' <;> rfl

theorem peek_rpar : (peek s [41]).1 = decide (next (tokens s) = .rpar) :=
  peek_one s (by decide) fun t' => by cases t' <;> rfl

theorem peek_amp : (peek s [38]).1 = decide (next (tokens s) = .amp) :=
  peek_one s (by decide) fun t' => by cases t' <;> rfl

theorem peek_semi : (peek s [59]).1 = decide (next (tokens s) = .semi) :=
  peek_one s (by decide) fun t' => by cases t' <;> rfl

theorem peek_bar : (peek s [124]).1 = decide (next (tokens s) = .bar) :=
  peek_one s (by decide) fun t' => by cases t' <;> rfl

omit s

variable {fuel : ℕ}

theorem parseredirs_sim : ∀ (cmd : Cmd) (s : Str),
    Result.Sim (fun rs => rs.foldl wrap cmd) (parseredirs fuel cmd s)
      (deriveRedirs fuel (tokens s)) := by
  induction fuel with
  | zero =>
    intro cmd s
    trivial
  | succ fuel ih =>
    intro cmd s
    rw [parseredirs]
    simp only [peek_snd, gettoken_skip, peek_redir]
    cases hop : (tokens s).head?.bind Token.redirOp with
    | none =>
      have hstop : ∀ t ∈ (tokens s).head?, t.redirOp = none := Option.bind_eq_none_iff.1 hop
      rw [deriveRedirs_stop hstop]
      exact .ok rfl (tokens_skip s)
    | some op =>
      obtain ⟨t, ht, hop⟩ := Option.bind_eq_some_iff.1 hop
      obtain ⟨ts, hts⟩ := head?_eq_some_iff.1 ht
      obtain ⟨h1, h2⟩ := gettoken_cons hts
      rw [h1, hts, RedirOp.of_redirOp hop]
      simp only [Option.isSome_some, if_true]
      by_cases hw : next ts = .word
      · obtain ⟨tk, ts', rfl, htk⟩ := next_eq hw (by simp)
        cases tk with
        | word w =>
          obtain ⟨h3, h4⟩ := gettoken_cons h2
          rw [if_neg (by simp [h3, Token.tok]), gettoken_word h2, redircmd_token,
            deriveRedirs_word, ← h4]
          exact (ih _ _).map fun d s => .ok rfl rfl
        | _ => cases htk
      · rw [deriveRedirs_missing op hw, if_pos (by rw [gettoken_fst, h2]; exact hw)]
        rfl

/-- What one round of the loop of `parseexec` does to the tree. -/
def addArg (ret : Cmd) (a : Arg) : Cmd :=
  a.redirs.foldl Redir.wrap (ret.pushArg a.word)

theorem parseargs_sim : ∀ (argc : ℕ) (ret : Cmd) (s : Str),
    Result.Sim (fun as => as.foldl addArg ret) (parseargs fuel argc ret s)
      (deriveArgs fuel argc (tokens s)) := by
  induction fuel with
  | zero =>
    intro argc ret s
    trivial
  | succ fuel ih =>
    intro argc ret s
    rw [parseargs]
    simp only [peek_snd, gettoken_skip, peek_ends, gettoken_fst]
    cases hends : (next (tokens s)).ends with
    | true =>
      rw [deriveArgs_stop hends]
      by_cases heof : next (tokens s) = .eof
      · simp only [heof, ne_eq, not_true, decide_false, Bool.and_false,
          Bool.false_eq_true, if_false,
          if_true]
        have hnil : tokens s = [] := by
          cases hts : tokens s with
          | nil => rfl
          | cons t ts =>
            rw [hts] at heof
            cases t <;> cases heof
        refine .ok rfl ?_
        rw [← tokens_skip, show (gettoken s).2.2 = [] by
          rw [← gettoken_skip, (skip_eq_nil_iff s).2 hnil]
          rfl, hnil]
        rfl
      · simp only [heof, ne_eq, not_false_eq_true, decide_true, Bool.and_true, if_true]
        exact .ok rfl (tokens_skip s)
    | false =>
      have heof : next (tokens s) ≠ .eof := by
        intro h
        rw [h] at hends
        cases hends
      simp only [Bool.false_and, Bool.false_eq_true, if_false, heof]
      by_cases hw : next (tokens s) = .word
      · obtain ⟨tk, ts, hts, htk⟩ := next_eq hw (by simp)
        cases tk with
        | word w =>
          rw [if_neg (by simp [hw]), hts, deriveArgs, gettoken_word hts]
          split_ifs
          · rfl
          · rw [← (gettoken_cons hts).2]
            refine (parseredirs_sim _ _).bind fun rs s => ?_
            exact (ih _ _ _).map fun d s => .ok rfl rfl
        | _ => cases htk
      · rw [deriveArgs_stuck hends hw, if_pos hw]
        rfl

theorem parsebacks_sim : ∀ (cmd : Cmd) (s : Str),
    Result.Sim (fun k => Cmd.back^[k] cmd) (parsebacks fuel cmd s)
      (deriveAmps fuel (tokens s)) := by
  induction fuel with
  | zero =>
    intro cmd s
    trivial
  | succ fuel ih =>
    intro cmd s
    rw [parsebacks]
    simp only [peek_snd, gettoken_skip, peek_amp]
    by_cases ha : next (tokens s) = .amp
    · obtain ⟨tk, ts, hts, htk⟩ := next_eq ha (by simp)
      cases tk with
      | amp =>
        rw [hts, deriveAmps, ← (gettoken_cons hts).2]
        simp only [next, Token.tok, decide_true, if_true]
        exact (ih _ _).map fun d s => .ok rfl rfl
      | _ => cases htk
    · rw [deriveAmps_stop ha]
      simp only [ha, decide_false, Bool.false_eq_true, if_false]
      exact .ok rfl (tokens_skip s)

/-- An argument goes past the redirections to the list of words. -/
theorem pushArg_foldl (rs : List Redir) (w : Word) : ∀ c : Cmd,
    (rs.foldl wrap c).pushArg w = rs.foldl wrap (c.pushArg w) := by
  induction rs with
  | nil =>
    intro c
    rfl
  | cons r rs ih =>
    intro c
    rw [foldl_cons, foldl_cons, ih]
    obtain ⟨op, file⟩ := r
    cases op <;> rfl

/-- **The tree of a command**: all redirections around the words, whatever their order was. -/
theorem addArgs_eq (as : List Arg) : ∀ (rs : List Redir) (ws : List Word),
    as.foldl addArg (rs.foldl wrap (.exec ws)) =
      (rs ++ as.flatMap Arg.redirs).foldl wrap (.exec (ws ++ as.map Arg.word)) := by
  induction as with
  | nil =>
    intro rs ws
    simp
  | cons a as ih =>
    intro rs ws
    have hstep : addArg (rs.foldl wrap (.exec ws)) a =
        (rs ++ a.redirs).foldl wrap (.exec (ws ++ [a.word])) := by
      rw [addArg, pushArg_foldl, foldl_append]
      rfl
    rw [foldl_cons, hstep, ih]
    simp

/-- With `fuel` rounds each function of the parser follows its function of the descent. -/
structure Simulates (fuel : ℕ) : Prop where
  line : ∀ s, Result.Sim Line.cmd (parseline fuel s) (deriveLine fuel (tokens s))
  pipe : ∀ s, Result.Sim Pipeline.cmd (parsepipe fuel s) (derivePipe fuel (tokens s))
  cmd : ∀ s, Result.Sim Command.cmd (parseexec fuel s) (deriveCmd fuel (tokens s))
  block : ∀ s ts, tokens s = .lpar :: ts →
    Result.Sim Command.cmd (parseblock fuel s) (deriveBlock fuel ts)

namespace Simulates

variable {fuel : ℕ} (ih : Simulates fuel)
include ih

theorem line_succ (s : Str) :
    Result.Sim Line.cmd (parseline (fuel + 1) s) (deriveLine (fuel + 1) (tokens s)) := by
  rw [parseline, deriveLine]
  refine (ih.pipe s).bind fun p s => ?_
  refine (parsebacks_sim p.cmd s).bind fun amps s => ?_
  simp only [peek_snd, gettoken_skip, peek_semi]
  by_cases hs : next (tokens s) = .semi
  · obtain ⟨tk, ts, hts, htk⟩ := next_eq hs (by simp)
    cases tk with
    | semi =>
      rw [hts, ← (gettoken_cons hts).2]
      simp only [next, Token.tok, decide_true, if_true]
      exact (ih.line _).bind fun l s => .ok rfl rfl
    | _ => cases htk
  · simp only [hs, decide_false, Bool.false_eq_true, if_false]
    split
    · rename_i heq
      rw [heq] at hs
      exact absurd rfl hs
    · exact .ok rfl (tokens_skip s)

theorem pipe_succ (s : Str) :
    Result.Sim Pipeline.cmd (parsepipe (fuel + 1) s) (derivePipe (fuel + 1) (tokens s)) := by
  rw [parsepipe, derivePipe]
  refine (ih.cmd s).bind fun c s => ?_
  simp only [peek_snd, gettoken_skip, peek_bar]
  by_cases hs : next (tokens s) = .bar
  · obtain ⟨tk, ts, hts, htk⟩ := next_eq hs (by simp)
    cases tk with
    | bar =>
      rw [hts, ← (gettoken_cons hts).2]
      simp only [next, Token.tok, decide_true, if_true]
      exact (ih.pipe _).bind fun l s => .ok rfl rfl
    | _ => cases htk
  · simp only [hs, decide_false, Bool.false_eq_true, if_false]
    split
    · rename_i heq
      rw [heq] at hs
      exact absurd rfl hs
    · exact .ok rfl (tokens_skip s)

theorem cmd_succ (s : Str) :
    Result.Sim Command.cmd (parseexec (fuel + 1) s) (deriveCmd (fuel + 1) (tokens s)) := by
  rw [parseexec]
  simp only [peek_snd, peek_lpar]
  by_cases hs : next (tokens s) = .lpar
  · obtain ⟨tk, ts, hts, htk⟩ := next_eq hs (by simp)
    cases tk with
    | lpar =>
      rw [hts, deriveCmd]
      simp only [next, Token.tok, decide_true, if_true]
      exact ih.block (skip s) ts ((tokens_skip s).trans hts)
    | _ => cases htk
  · simp only [hs, decide_false, Bool.false_eq_true, if_false]
    rw [deriveCmd_exec hs, ← tokens_skip]
    refine (parseredirs_sim _ _).bind fun rs s => ?_
    refine (parseargs_sim 0 _ s).map fun as s => .ok ?_ rfl
    exact addArgs_eq as rs []

theorem block_succ (s : Str) (ts : List Token) (hts : tokens s = .lpar :: ts) :
    Result.Sim Command.cmd (parseblock (fuel + 1) s) (deriveBlock (fuel + 1) ts) := by
  have hl : next (tokens s) = .lpar := by rw [hts]; rfl
  rw [parseblock, deriveBlock]
  simp only [peek_snd, gettoken_skip, peek_lpar, peek_rpar, hl, decide_true, Bool.not_true,
    Bool.false_eq_true, if_false]
  rw [← (gettoken_cons hts).2]
  refine (ih.line _).bind fun l s => ?_
  by_cases hs : next (tokens s) = .rpar
  · obtain ⟨tk, ts, hts, htk⟩ := next_eq hs (by simp)
    cases tk with
    | rpar =>
      simp only [hs, decide_true, Bool.not_true, Bool.false_eq_true, if_false]
      rw [hts, ← (gettoken_cons hts).2]
      exact (parseredirs_sim _ _).map fun rs s => .ok rfl rfl
    | _ => cases htk
  · simp only [hs, decide_false, Bool.not_false, if_true]
    split
    · rename_i heq
      rw [heq] at hs
      exact absurd rfl hs
    · rfl

end Simulates

/-- **The parser follows the descent.** -/
theorem simulates (fuel : ℕ) : Simulates fuel := by
  induction fuel with
  | zero => constructor <;> intros <;> trivial
  | succ fuel ih => exact ⟨ih.line_succ, ih.pipe_succ, ih.cmd_succ, ih.block_succ⟩

/-! ## The words are cut out of the line -/

/-- Where a word stands in a line: its bytes are bytes of words, and the byte behind it is not. -/
structure Word.At (w : Word) (pre t s : Str) : Prop where
  line : s = pre ++ (t ++ w.eq)
  q : w.q = t ++ w.eq
  isWord : ∀ c ∈ t, isWord c = true
  behind : ∀ c ∈ w.eq.head?, Sh.isWord c = false

variable {s : Str}

theorem gettoken_at (h : (gettoken s).1 = .word) : ∃ pre t, (gettoken s).2.1.At pre t s := by
  have h0 : (scan (skip s)).1 = .word := h
  have hq : (gettoken s).2.1 = ⟨skip s, (scan (skip s)).2⟩ := rfl
  have heq : (scan (skip s)).2 = (skip s).dropWhile isWord := by
    cases hs : skip s with
    | nil => rfl
    | cons c t =>
      rw [hs] at h0
      rcases scan_cons c t with ⟨tok, s', h2, h3, -⟩ | ⟨h2, -⟩
      · rw [h2] at h0
        rw [show tok = .word from h0] at h3
        cases h3
      · rw [h2]
  rw [hq, heq]
  refine ⟨s.takeWhile fun c => whitespace.contains c, (skip s).takeWhile isWord, ?_, ?_, ?_, ?_⟩
  · rw [takeWhile_append_dropWhile, skip, takeWhile_append_dropWhile]
  · rw [takeWhile_append_dropWhile]
  · intro c hc
    exact mem_takeWhile_imp hc
  · intro c hc
    have := head?_dropWhile_not isWord (skip s)
    rw [show ((skip s).dropWhile isWord).head? = some c from hc] at this
    exact this

theorem gettoken_suffix (s : Str) : (gettoken s).2.2 <:+ s := by
  have hscan : ∀ q, (scan q).2 <:+ q := by
    intro q
    cases q with
    | nil => exact suffix_rfl
    | cons c t =>
      rcases scan_cons c t with ⟨tok, s', h, -, hs⟩ | ⟨h, -⟩
      · rw [h]
        exact hs.trans (suffix_cons c t)
      · rw [h]
        exact dropWhile_suffix isWord
  exact ((dropWhile_suffix _).trans (hscan _)).trans (dropWhile_suffix _)

variable {w : Word}

/-- The words of the sequence stand in the line. -/
theorem tokens_at : ∀ {n : ℕ} {s : Str}, s.length ≤ n → .word w ∈ tokens s →
    ∃ pre t, w.At pre t s := by
  intro n
  induction n with
  | zero =>
    intro s hs h
    rw [length_eq_zero_iff.1 (by omega : s.length = 0)] at h
    cases h
  | succ n ih =>
    intro s hs h
    rw [tokens_eq] at h
    cases ht : (gettoken s).1.token (gettoken s).2.1 with
    | none =>
      rw [ht] at h
      cases h
    | some tk =>
      have hne : (gettoken s).1 ≠ .eof := by
        intro h
        rw [token_eq_none.2 h] at ht
        cases ht
      rw [ht] at h
      rcases mem_cons.1 h with h | h
      · subst h
        have htok : (gettoken s).1 = .word := (token_tok ht).symm
        rw [htok] at ht
        cases ht
        exact gettoken_at htok
      · obtain ⟨pre, t, hw⟩ := ih (by have := gettoken_length hne; omega) h
        obtain ⟨pre', hpre⟩ : (gettoken s).2.2 <:+ s := gettoken_suffix s
        have hline : s = (pre' ++ pre) ++ (t ++ w.eq) := by
          rw [append_assoc, ← hw.line, hpre]
        exact ⟨pre' ++ pre, t, hline, hw.q, hw.isWord, hw.behind⟩

/-- `nulterminate` writes a NUL behind each word of the tree. -/
theorem nulterminate_eq (n : ℕ) : ∀ (c : Cmd) (buf : List UInt8),
    nulterminate n c buf = c.words.foldl (fun buf w => buf.set (n - w.eq.length) 0) buf := by
  intro c
  induction c with
  | exec argv =>
    intro buf
    rfl
  | redir c file mode fd ih =>
    intro buf
    rw [nulterminate, Cmd.words, foldl_append, ih]
    rfl
  | pipe l r ihl ihr | list l r ihl ihr =>
    intro buf
    rw [nulterminate, Cmd.words, foldl_append, ihl, ihr]
  | back c ih =>
    intro buf
    exact ih buf

/-- The bytes of a buffer after NULs were written at some places. -/
theorem getElem?_foldl_set {α : Type} (place : α → ℕ) (ws : List α) :
    ∀ (buf : List UInt8) (i : ℕ),
      (ws.foldl (fun buf w => buf.set (place w) 0) buf)[i]? =
        if ∃ w ∈ ws, place w = i then buf[i]?.map fun _ => 0 else buf[i]? := by
  induction ws with
  | nil =>
    intro buf i
    simp
  | cons w ws ih =>
    intro buf i
    rw [foldl_cons, ih, getElem?_set]
    by_cases hw : place w = i
    · subst hw
      by_cases hlt : place w < buf.length
      · simp [hlt]
      · simp [hlt]
    · simp [hw]

/-- A string ends at the first NUL. -/
theorem cstring_append {t r : List UInt8} (ht : ∀ c ∈ t, c ≠ 0) : cstring (t ++ 0 :: r) = t := by
  rw [cstring, takeWhile_append_of_pos (by simpa using ht),
    takeWhile_cons_of_neg (by simp), append_nil]

theorem Word.At.text {pre t : Str} (h : w.At pre t s) : w.text = t := by
  rw [Word.text, h.q, length_append, Nat.add_sub_cancel, take_left]

/-- The place behind a word is inside no word. -/
theorem Word.At.place_ne {w' : Word} {pre t pre' t' : Str} (h : w.At pre t s) (h' : w'.At pre' t' s)
    {i : ℕ} (hi : i < t.length) : s.length - w'.eq.length ≠ pre.length + i := by
  intro heq
  have hlen := congrArg length h'.line
  simp only [length_append] at hlen
  have hin : s[pre.length + i]? = some (t[i]) := by
    rw [h.line, getElem?_append_right (by omega),
      getElem?_append_left (by omega), show pre.length + i - pre.length = i by omega,
      getElem?_eq_getElem hi]
  have hout : s[pre.length + i]? = w'.eq.head? := by
    rw [h'.line, ← append_assoc, getElem?_append_right (by rw [length_append]; omega),
      head?_eq_getElem?]
    congr 1
    rw [length_append]
    omega
  have hbehind := h'.behind t[i] (hout ▸ hin)
  rw [h.isWord _ (getElem_mem hi)] at hbehind
  cases hbehind

/-- The buffer of a line after NULs were written behind the words `ws`, in this order. -/
def terminated (line : Str) (ws : List Word) : List UInt8 :=
  ws.foldl (fun buf w => buf.set (line.length - w.eq.length) 0) (line ++ [0])

/-- **NULs behind the words cut them out**: the string at each word is the word. -/
theorem cstring_terminated {line : Str} (h0 : ∀ c ∈ line, c ≠ 0) {ws : List Word}
    (hws : ∀ w ∈ ws, ∃ pre t, w.At pre t line) (hw : w ∈ ws) :
    cstring ((terminated line ws).drop (line.length - w.q.length)) = w.text := by
  obtain ⟨pre, t, hat⟩ := hws w hw
  have hlen := congrArg length hat.line
  have hq := congrArg length hat.q
  simp only [length_append] at hlen hq
  have ht0 : ∀ c ∈ t, c ≠ 0 := fun c hc => h0 c (by rw [hat.line]; simp [hc])
  rw [hat.text, show line.length - w.q.length = pre.length by omega]
  set buf := terminated line ws with hbuf
  have hbytes := getElem?_foldl_set (fun w : Word => line.length - w.eq.length) ws (line ++ [0])
  have hsplit : buf.drop pre.length = t ++ 0 :: buf.drop (pre.length + t.length + 1) := by
    refine ext_getElem? fun i => ?_
    rw [getElem?_drop]
    rcases Nat.lt_trichotomy i t.length with hi | hi | hi
    · have hno : ¬∃ w' ∈ ws, line.length - w'.eq.length = pre.length + i := by
        rintro ⟨w', hw', heq⟩
        obtain ⟨pre', t', hat'⟩ := hws w' hw'
        exact hat.place_ne hat' hi heq
      rw [hbuf, terminated, hbytes, if_neg hno, getElem?_append_left hi,
        getElem?_append_left (by omega), hat.line, getElem?_append_right (by omega),
        getElem?_append_left (by omega), show pre.length + i - pre.length = i by omega]
    · have hyes : ∃ w' ∈ ws, line.length - w'.eq.length = pre.length + i :=
        ⟨w, hw, by omega⟩
      have hin : pre.length + i < (line ++ [0]).length := by
        rw [length_append, length_singleton]
        omega
      rw [hbuf, terminated, hbytes, if_pos hyes, getElem?_eq_getElem hin,
        getElem?_append_right (by omega)]
      simp [hi]
    · rw [getElem?_append_right (by omega), getElem?_cons, if_neg (by omega), getElem?_drop]
      congr 1
      omega
  rw [hsplit, cstring_append ht0]

/-- `nulterminate` writes its NULs in the order of the tree. -/
theorem nulterminate_eq_terminated (line : Str) (c : Cmd) :
    nulterminate line.length c (line ++ [0]) = terminated line c.words :=
  nulterminate_eq line.length c (line ++ [0])

/-! ## The words of a tree are words of its line -/

theorem words_foldl (rs : List Redir) : ∀ c : Cmd,
    (rs.foldl wrap c).words = c.words ++ rs.map file := by
  induction rs with
  | nil =>
    intro c
    simp
  | cons r rs ih =>
    intro c
    have hr : (wrap c r).words = c.words ++ [r.file] := by
      obtain ⟨op, file⟩ := r
      cases op <;> rfl
    rw [foldl_cons, ih, hr]
    simp

theorem words_back (k : ℕ) (c : Cmd) : (Cmd.back^[k] c).words = c.words := by
  induction k generalizing c with
  | zero => rfl
  | succ k ih => rw [Function.iterate_succ_apply, ih]; rfl

theorem mem_redirsYield {rs : List Redir} (h : w ∈ rs.map file) :
    .word w ∈ redirsYield rs := by
  obtain ⟨r, hr, rfl⟩ := mem_map.1 h
  exact mem_flatMap.2 ⟨r, hr, by simp⟩

theorem mem_argsYield {as : List Arg}
    (h : w ∈ as.map Arg.word ∨ w ∈ (as.flatMap Arg.redirs).map file) :
    .word w ∈ argsYield as := by
  rcases h with h | h
  · obtain ⟨a, ha, rfl⟩ := mem_map.1 h
    exact mem_flatMap.2 ⟨a, ha, by simp⟩
  · obtain ⟨r, hr, rfl⟩ := mem_map.1 h
    obtain ⟨a, ha, hr⟩ := mem_flatMap.1 hr
    exact mem_flatMap.2 ⟨a, ha, mem_cons_of_mem _ (mem_redirsYield (mem_map_of_mem hr))⟩

mutual

theorem Line.mem_yield : ∀ {l : Line}, w ∈ l.cmd.words → .word w ∈ l.yield
  | .last p amps, h => by
    rw [Line.cmd, words_back] at h
    exact mem_append_left _ (Pipeline.mem_yield h)
  | .seq p amps l, h => by
    rw [Line.cmd, Cmd.words, words_back] at h
    rcases mem_append.1 h with h | h
    · exact mem_append_left _ (Pipeline.mem_yield h)
    · exact mem_append_right _
        (mem_append_right _ (mem_cons_of_mem _ (Line.mem_yield h)))

theorem Pipeline.mem_yield : ∀ {p : Pipeline}, w ∈ p.cmd.words → .word w ∈ p.yield
  | .last c, h => Command.mem_yield (c := c) h
  | .pipe c p, h => by
    rcases mem_append.1 h with h | h
    · exact mem_append_left _ (Command.mem_yield h)
    · exact mem_append_right _ (mem_cons_of_mem _ (Pipeline.mem_yield h))

theorem Command.mem_yield : ∀ {c : Command}, w ∈ c.cmd.words → .word w ∈ c.yield
  | .block l rs, h => by
    rw [Command.cmd, words_foldl] at h
    refine mem_cons_of_mem _ ?_
    rcases mem_append.1 h with h | h
    · exact mem_append_left _ (Line.mem_yield h)
    · exact mem_append_right _ (mem_cons_of_mem _ (mem_redirsYield h))
  | .exec rs as, h => by
    rw [Command.cmd, words_foldl, Cmd.words, map_append] at h
    rcases mem_append.1 h with h | h
    · exact mem_append_right _ (mem_argsYield (.inl h))
    · rcases mem_append.1 h with h | h
      · exact mem_append_left _ (mem_redirsYield h)
      · exact mem_append_right _ (mem_argsYield (.inr h))

end

/-! ## The result -/

theorem tokens_length_le (s : Str) : (tokens s).length ≤ s.length := by
  have h : ∀ n s, (lex n s).length ≤ n := by
    intro n
    induction n with
    | zero =>
      intro s
      exact le_refl _
    | succ n ih =>
      intro s
      rw [lex]
      split
      · exact Nat.zero_le _
      · exact Nat.succ_le_succ (ih _)
  exact h _ s

theorem cstring_ne_zero (s : List UInt8) : ∀ c ∈ cstring s, c ≠ 0 := by
  intro c hc
  simpa using mem_takeWhile_imp hc

/-- **`parsecmd` parses the grammar.** On every string it comes to an end. If the tokens of the
string are derived from `line`, they have one derivation, `parsecmd` returns its tree, and the
strings that the tree points to are the words of the line; if they are not derived, it ends in a
panic. -/
theorem parsecmd_parses (s : List UInt8) : ∃ rounds, ∀ fuel ≥ rounds,
    (∃ l : Line, l.Derives (tokens (cstring s)) ∧
      (∀ l' : Line, l'.Derives (tokens (cstring s)) → l' = l) ∧
      ∃ buf, parsecmd fuel s = .ok (l.cmd, buf) ∧
        ∀ w ∈ l.cmd.words, cstring (buf.drop ((cstring s).length - w.q.length)) = w.text) ∨
    (¬∃ l : Line, l.Derives (tokens (cstring s))) ∧ ∃ msg, parsecmd fuel s = .panic msg := by
  refine ⟨4 * (cstring s).length + 4, fun fuel hfuel => ?_⟩
  have hlen := tokens_length_le (cstring s)
  have hder := derives_iff (show 4 * (tokens (cstring s)).length + 4 ≤ fuel by omega)
  have hsim := (simulates fuel).line (cstring s)
  cases hd : deriveLine fuel (tokens (cstring s)) with
  | out => exact absurd hd ((ends fuel).line (by omega))
  | panic msg =>
    have hp := (hd ▸ hsim).of_panic
    refine .inr ⟨?_, msg, by simp [parsecmd, hp]⟩
    rintro ⟨l, hl⟩
    rw [(hder l).1 hl] at hd
    cases hd
  | ok a =>
    obtain ⟨l, ts⟩ := a
    obtain ⟨ps, hp, hts⟩ := (hd ▸ hsim).of_ok
    cases ts with
    | nil =>
      have hl := (hder l).2 hd
      refine .inl ⟨l, hl, ?_, nulterminate (cstring s).length l.cmd (cstring s ++ [0]), ?_, ?_⟩
      · intro l' hl'
        have h := (hder l').1 hl'
        rw [hd] at h
        cases h
        rfl
      · simp [parsecmd, hp, (skip_eq_nil_iff ps).2 hts]
      · intro w hw
        rw [nulterminate_eq_terminated]
        refine cstring_terminated (cstring_ne_zero s) (fun w hw => ?_) hw
        exact tokens_at (le_refl _) (hl.2 ▸ l.mem_yield hw)
    | cons t ts =>
      refine .inr ⟨?_, "syntax", ?_⟩
      · rintro ⟨l', hl'⟩
        have h := (hder l').1 hl'
        rw [hd] at h
        cases h
      · have hne : skip ps ≠ [] := by
          intro h
          rw [(skip_eq_nil_iff ps).1 h] at hts
          cases hts
        simp [parsecmd, hp, hne]

/-- The words of a tree that `parsecmd` returns are words of the line, and the buffer has a NUL
behind each of them. -/
theorem parsecmd_words {s buf : List UInt8} {c : Cmd} (h : parsecmd fuel s = .ok (c, buf)) :
    buf = terminated (cstring s) c.words ∧ ∀ w ∈ c.words, .word w ∈ tokens (cstring s) := by
  rw [parsecmd, Result.bind_eq_ok] at h
  obtain ⟨⟨c', ps⟩, hp, h⟩ := h
  have hsim := (simulates fuel).line (cstring s)
  rw [hp] at hsim
  cases hd : deriveLine fuel (tokens (cstring s)) with
  | out => exact (hd ▸ hsim).elim
  | panic msg => exact (hd ▸ hsim).elim
  | ok a =>
    obtain ⟨l, ts⟩ := a
    rw [hd] at hsim
    obtain ⟨rfl, -⟩ : c' = l.cmd ∧ tokens ps = ts := hsim
    obtain ⟨hyield, -⟩ := (sound fuel).line hd
    dsimp only at h
    split_ifs at h
    cases h
    refine ⟨nulterminate_eq_terminated _ _, fun w hw => ?_⟩
    rw [hyield]
    exact mem_append_left ts (l.mem_yield hw)

/-- **`nulterminate` isolates the tokens.** In a tree that `parsecmd` returns, each argument and
each file of a redirection is a word that the lexer finds in the line, and the string at its pointer
in the buffer is the word's characters in the line; so it is in whatever order the NULs are
written. -/
theorem nulterminate_isolates {fuel : ℕ} {s buf : List UInt8} {c : Cmd}
    (h : parsecmd fuel s = .ok (c, buf)) : ∀ w ∈ c.words,
      .word w ∈ tokens (cstring s) ∧
      (∃ pre, cstring s = pre ++ (w.text ++ w.eq) ∧ w.q = w.text ++ w.eq) ∧
      cstring (buf.drop ((cstring s).length - w.q.length)) = w.text ∧
      ∀ ws : List Word, ws.Perm c.words →
        cstring ((terminated (cstring s) ws).drop ((cstring s).length - w.q.length)) = w.text := by
  intro w hw
  obtain ⟨rfl, htok⟩ := parsecmd_words h
  have hat : ∀ w ∈ c.words, ∃ pre t, w.At pre t (cstring s) := fun w hw =>
    tokens_at (le_refl _) (htok w hw)
  obtain ⟨pre, t, hw'⟩ := hat w hw
  refine ⟨htok w hw, ⟨pre, ?_⟩, ?_, fun ws hperm => ?_⟩
  · rw [hw'.text]
    exact ⟨hw'.line, hw'.q⟩
  · exact cstring_terminated (cstring_ne_zero s) hat hw
  · exact cstring_terminated (cstring_ne_zero s) (fun w hw => hat w (hperm.mem_iff.1 hw))
      (hperm.mem_iff.2 hw)

/-- The hypothesis of `nulterminate_isolates` is satisfiable: `a>b|c`, without blanks. -/
theorem nulterminate_isolates_sample : ∃ c buf,
    parsecmd 30 [97, 62, 98, 124, 99, 10] = .ok (c, buf) ∧
    c.words.map (fun w => cstring (buf.drop (6 - w.q.length))) = [[97], [98], [99]] := by
  obtain ⟨c, buf, h⟩ : ∃ c buf, parsecmd 30 [97, 62, 98, 124, 99, 10] = .ok (c, buf) :=
    ⟨_, _, rfl⟩
  refine ⟨c, buf, h, ?_⟩
  have hwords : c.words.map Word.text = [[97], [98], [99]] := by
    have hc : (match parsecmd 30 [97, 62, 98, 124, 99, 10] with
      | .ok (c, _) => c.words.map Word.text
      | _ => []) = [[97], [98], [99]] := by decide
    rwa [h] at hc
  rw [← hwords]
  refine map_congr_left fun w hw => ?_
  exact (nulterminate_isolates h w hw).2.2.1

end Xv6.Sh
