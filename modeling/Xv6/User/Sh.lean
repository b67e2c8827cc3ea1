/-
# The shell's lexer and parser

`sh.c`, from `gettoken` to `nulterminate`: the recursive-descent parser that turns a command line
into a tree of `execcmd`, `redircmd`, `pipecmd`, `listcmd` and `backcmd` nodes.

A pointer into the command line is what is left of the line from there (`Str`): `es` is the empty
rest, where the byte is 0, and `s < es` says that something is left. The cursor `*ps` that every
function of the parser advances is passed in and handed back. The tree keeps the pointers of its
words, as the source does; `nulterminate` then writes the NULs behind them into the line.
`malloc` is taken to succeed.

The functions that loop or call each other take a number of rounds, and `Result.out` says that it
was used up; `panic` ends the shell, with its message.

`tokens_eq` says what repeated calls of `gettoken` find, and `peek_fst`, `gettoken_cons` that
`peek` and `gettoken` look at the front of that sequence only.
-/
import Mathlib.Data.List.TakeWhile
import Mathlib.Data.List.Lemmas
import Mathlib.Tactic.Common

namespace Xv6.Sh

open List

/-! ## The lexer -/

/-- The rest of the command line from a pointer into it. -/
abbrev Str := List UInt8

/-- `char whitespace[] = " \t\r\n\v"`. -/
def whitespace : List UInt8 := [32, 9, 13, 10, 11]

/-- `char symbols[] = "<|>&;()"`. -/
def symbols : List UInt8 := [60, 124, 62, 38, 59, 40, 41]

/-- What `gettoken` returns: 0 at the end, `'+'` for `>>`, `'a'` for a word, and otherwise the
symbol itself. -/
inductive Tok where
  | eof
  | bar
  | lpar
  | rpar
  | semi
  | amp
  | lt
  | gt
  | append
  | word
  deriving DecidableEq, Repr

/-- A word of the line: the pointers to its first byte and past its last one, `q` and `eq`. -/
structure Word where
  /-- The line from the word's first byte. -/
  q : Str
  /-- The line from behind the word. -/
  eq : Str
  deriving DecidableEq, Repr

/-- The bytes of the word. -/
def Word.text (w : Word) : List UInt8 :=
  w.q.take (w.q.length - w.eq.length)

/-- The loop `while(s < es && strchr(whitespace, *s)) s++`. -/
def skip (s : Str) : Str :=
  s.dropWhile fun c => whitespace.contains c

/-- A byte that a word consists of. -/
def isWord (c : UInt8) : Bool :=
  !whitespace.contains c && !symbols.contains c

/-- The switch of `gettoken` at `*s`: the token, and the line behind it. -/
def scan : Str → Tok × Str
  | [] => (.eof, [])
  | c :: s =>
    if c = 124 then (.bar, s)
    else if c = 40 then (.lpar, s)
    else if c = 41 then (.rpar, s)
    else if c = 59 then (.semi, s)
    else if c = 38 then (.amp, s)
    else if c = 60 then (.lt, s)
    else if c = 62 then
      match s with
      | [] => (.gt, [])
      | c' :: s' => if c' = 62 then (.append, s') else (.gt, c' :: s')
    else (.word, (c :: s).dropWhile isWord)

/-- `gettoken(ps, es, q, eq)`: the token, its ends, and the cursor behind the blanks that follow
it. -/
def gettoken (ps : Str) : Tok × Word × Str :=
  let s := skip ps
  let (ret, s') := scan s
  (ret, ⟨s, s'⟩, skip s')

/-- `peek(ps, es, toks)`: whether the next byte that is no blank is one of `toks`, and the cursor
moved to it. -/
def peek (ps : Str) (toks : List UInt8) : Bool × Str :=
  let s := skip ps
  (match s with
    | [] => false
    | c :: _ => toks.contains c, s)

/-! ## The tree -/

/-- `MAXARGS`. -/
def MAXARGS : ℕ := 10

/-- `O_RDONLY`. -/
def O_RDONLY : ℕ := 0x000

/-- `O_WRONLY|O_CREATE`. -/
def O_WRONLY_O_CREATE : ℕ := 0x201

/-- `struct cmd` and its kinds. -/
inductive Cmd where
  | exec (argv : List Word)
  | redir (cmd : Cmd) (file : Word) (mode fd : ℕ)
  | pipe (left right : Cmd)
  | list (left right : Cmd)
  | back (cmd : Cmd)
  deriving DecidableEq, Repr

/-- `cmd->argv[argc] = q; cmd->eargv[argc] = eq` on the `execcmd` that redirections have been
wrapped around. -/
def Cmd.pushArg : Cmd → Word → Cmd
  | .exec argv, w => .exec (argv ++ [w])
  | .redir cmd file mode fd, w => .redir (cmd.pushArg w) file mode fd
  | .pipe l r, _ => .pipe l r
  | .list l r, _ => .list l r
  | .back cmd, _ => .back cmd

/-- The words of the tree: arguments and the files of redirections. -/
def Cmd.words : Cmd → List Word
  | .exec argv => argv
  | .redir cmd file _ _ => cmd.words ++ [file]
  | .pipe l r => l.words ++ r.words
  | .list l r => l.words ++ r.words
  | .back cmd => cmd.words

/-! ## The parser -/

/-- How a call ends: with a value, in `panic` with its message, or with its rounds used up. -/
inductive Result (α : Type) where
  | ok (a : α)
  | panic (msg : String)
  | out
  deriving DecidableEq, Repr

namespace Result

/-- Sequencing: only a value goes on. -/
protected def bind {α β : Type} (x : Result α) (f : α → Result β) : Result β :=
  match x with
  | .ok a => f a
  | .panic msg => .panic msg
  | .out => .out

instance : Monad Result where
  pure := .ok
  bind := Result.bind

variable {α β : Type}

@[simp]
theorem ok_bind (a : α) (f : α → Result β) : (Result.ok a >>= f) = f a :=
  rfl

@[simp]
theorem panic_bind (msg : String) (f : α → Result β) :
    (Result.panic msg >>= f) = Result.panic msg :=
  rfl

@[simp]
theorem out_bind (f : α → Result β) : ((Result.out : Result α) >>= f) = Result.out :=
  rfl

/-- A sequence that ends with a value goes through a value. -/
theorem bind_eq_ok {x : Result α} {f : α → Result β} {b : β} :
    (x >>= f) = .ok b ↔ ∃ a, x = .ok a ∧ f a = .ok b := by
  cases x with
  | ok a => simp
  | panic msg => simp
  | out => simp

/-- A sequence runs out of rounds only where one of its parts does. -/
theorem bind_ne_out {x : Result α} {f : α → Result β} (hx : x ≠ .out)
    (hf : ∀ a, x = .ok a → f a ≠ .out) : (x >>= f) ≠ .out := by
  cases x with
  | ok a => exact hf a rfl
  | panic msg => simp
  | out => exact absurd rfl hx

end Result

/-- The mode and descriptor of the switch in `parseredirs`: `>>` opens its file as `>` does. -/
def redircmd (tok : Tok) (cmd : Cmd) (file : Word) : Cmd :=
  match tok with
  | .lt => .redir cmd file O_RDONLY 0
  | .gt => .redir cmd file O_WRONLY_O_CREATE 1
  | .append => .redir cmd file O_WRONLY_O_CREATE 1
  | _ => cmd

/-- `parseredirs(cmd, ps, es)`. -/
def parseredirs : ℕ → Cmd → Str → Result (Cmd × Str)
  | 0, _, _ => .out
  | fuel + 1, cmd, ps =>
    let (more, ps) := peek ps [60, 62]
    if more then
      let (tok, _, ps) := gettoken ps
      let (tok', w, ps) := gettoken ps
      if tok' ≠ .word then .panic "missing file for redirection"
      else parseredirs fuel (redircmd tok cmd w) ps
    else .ok (cmd, ps)

/-- The loop `while(!peek(ps, es, "|)&;"))` of `parseexec`; `ret` holds the `execcmd` with the
redirections read so far around it. -/
def parseargs : ℕ → ℕ → Cmd → Str → Result (Cmd × Str)
  | 0, _, _, _ => .out
  | fuel + 1, argc, ret, ps =>
    let (stop, ps) := peek ps [124, 41, 38, 59]
    if stop then .ok (ret, ps)
    else
      let (tok, w, ps) := gettoken ps
      if tok = .eof then .ok (ret, ps)
      else if tok ≠ .word then .panic "syntax"
      else
        let ret := ret.pushArg w
        let argc := argc + 1
        if argc ≥ MAXARGS then .panic "too many args"
        else do
          let (ret, ps) ← parseredirs fuel ret ps
          parseargs fuel argc ret ps

/-- The loop `while(peek(ps, es, "&"))` of `parseline`. -/
def parsebacks : ℕ → Cmd → Str → Result (Cmd × Str)
  | 0, _, _ => .out
  | fuel + 1, cmd, ps =>
    let (more, ps) := peek ps [38]
    if more then
      let (_, _, ps) := gettoken ps
      parsebacks fuel (.back cmd) ps
    else .ok (cmd, ps)

mutual

/-- `parseline(ps, es)`. -/
def parseline : ℕ → Str → Result (Cmd × Str)
  | 0, _ => .out
  | fuel + 1, ps => do
    let (cmd, ps) ← parsepipe fuel ps
    let (cmd, ps) ← parsebacks fuel cmd ps
    let (more, ps) := peek ps [59]
    if more then
      let (_, _, ps) := gettoken ps
      let (right, ps) ← parseline fuel ps
      .ok (.list cmd right, ps)
    else .ok (cmd, ps)

/-- `parsepipe(ps, es)`. -/
def parsepipe : ℕ → Str → Result (Cmd × Str)
  | 0, _ => .out
  | fuel + 1, ps => do
    let (cmd, ps) ← parseexec fuel ps
    let (more, ps) := peek ps [124]
    if more then
      let (_, _, ps) := gettoken ps
      let (right, ps) ← parsepipe fuel ps
      .ok (.pipe cmd right, ps)
    else .ok (cmd, ps)

/-- `parseexec(ps, es)`. -/
def parseexec : ℕ → Str → Result (Cmd × Str)
  | 0, _ => .out
  | fuel + 1, ps =>
    let (block, ps) := peek ps [40]
    if block then parseblock fuel ps
    else do
      let (ret, ps) ← parseredirs fuel (.exec []) ps
      parseargs fuel 0 ret ps

/-- `parseblock(ps, es)`. -/
def parseblock : ℕ → Str → Result (Cmd × Str)
  | 0, _ => .out
  | fuel + 1, ps =>
    let (open', ps) := peek ps [40]
    if !open' then .panic "parseblock"
    else do
      let (_, _, ps) := gettoken ps
      let (cmd, ps) ← parseline fuel ps
      let (close, ps) := peek ps [41]
      if !close then .panic "syntax - missing )"
      else
        let (_, _, ps) := gettoken ps
        parseredirs fuel cmd ps

end

/-- `nulterminate(cmd)` on the buffer that holds a line of `n` bytes and the NUL behind it. -/
def nulterminate (n : ℕ) : Cmd → List UInt8 → List UInt8
  | .exec argv, buf => argv.foldl (fun buf w => buf.set (n - w.eq.length) 0) buf
  | .redir cmd file _ _, buf => (nulterminate n cmd buf).set (n - file.eq.length) 0
  | .pipe l r, buf => nulterminate n r (nulterminate n l buf)
  | .list l r, buf => nulterminate n r (nulterminate n l buf)
  | .back cmd, buf => nulterminate n cmd buf

/-- The C string that starts at the head of `s`. -/
def cstring (s : List UInt8) : List UInt8 :=
  s.takeWhile (· ≠ 0)

/-- `parsecmd(s)`: the tree, and the buffer with its NULs. The message of the panic on leftovers
follows the line `leftovers: ` on the console. -/
def parsecmd (fuel : ℕ) (s : List UInt8) : Result (Cmd × List UInt8) := do
  let line := cstring s
  let (cmd, ps) ← parseline fuel line
  let (_, ps) := peek ps []
  if ps ≠ [] then .panic "syntax"
  else .ok (cmd, nulterminate line.length cmd (line ++ [0]))

/-! ## The sequence of tokens -/

/-- A token of the line. -/
inductive Token where
  | bar
  | lpar
  | rpar
  | semi
  | amp
  | lt
  | gt
  | append
  | word (w : Word)
  deriving DecidableEq, Repr

/-- The token that a call of `gettoken` found; none at the end of the line. -/
def Tok.token : Tok → Word → Option Token
  | .eof, _ => none
  | .bar, _ => some .bar
  | .lpar, _ => some .lpar
  | .rpar, _ => some .rpar
  | .semi, _ => some .semi
  | .amp, _ => some .amp
  | .lt, _ => some .lt
  | .gt, _ => some .gt
  | .append, _ => some .append
  | .word, w => some (.word w)

/-- At most `n` calls of `gettoken`, up to the first that returns 0. -/
def lex : ℕ → Str → List Token
  | 0, _ => []
  | n + 1, s =>
    match (gettoken s).1.token (gettoken s).2.1 with
    | none => []
    | some t => t :: lex n (gettoken s).2.2

/-- The tokens that repeated calls of `gettoken` return. -/
def tokens (s : Str) : List Token :=
  lex s.length s

/-- The return value of the call that found the token. -/
def Token.tok : Token → Tok
  | .bar => .bar
  | .lpar => .lpar
  | .rpar => .rpar
  | .semi => .semi
  | .amp => .amp
  | .lt => .lt
  | .gt => .gt
  | .append => .append
  | .word _ => .word

/-- The return value of the next call of `gettoken`. -/
def next : List Token → Tok
  | [] => .eof
  | t :: _ => t.tok

variable {w : Word}

theorem token_eq_none {t : Tok} : t.token w = none ↔ t = .eof := by
  cases t <;> simp [Tok.token]

theorem token_tok {t : Tok} {tk : Token} (h : t.token w = some tk) : tk.tok = t := by
  cases t <;> simp [Tok.token] at h <;> subst h <;> rfl

theorem skip_length_le (s : Str) : (skip s).length ≤ s.length :=
  (dropWhile_suffix _).length_le

variable {s : Str}

/-- The byte a pointer past blanks is at is no blank. -/
theorem skip_cons {t : Str} {c : UInt8} (h : skip s = c :: t) : whitespace.contains c = false := by
  have hne : s.dropWhile (fun c => whitespace.contains c) ≠ [] := by
    intro h0
    rw [skip, h0] at h
    cases h
  have hd := head_dropWhile_not (fun c => whitespace.contains c) hne
  simp only [skip] at h
  simp only [h, head_cons] at hd
  exact hd

@[simp]
theorem skip_skip (s : Str) : skip (skip s) = skip s := by
  cases h : skip s with
  | nil => rfl
  | cons c t =>
    have hc := skip_cons h
    rw [skip, dropWhile_cons_of_neg (by rw [hc]; exact Bool.false_ne_true)]

@[simp]
theorem gettoken_skip (s : Str) : gettoken (skip s) = gettoken s := by
  simp [gettoken]

/-- The symbols that a token starts with. -/
def Tok.first : Tok → List UInt8
  | .eof => []
  | .bar => [124]
  | .lpar => [40]
  | .rpar => [41]
  | .semi => [59]
  | .amp => [38]
  | .lt => [60]
  | .gt => [62]
  | .append => [62]
  | .word => []

/-- What the switch of `gettoken` finds at a byte: the token of a symbol, or a word. -/
theorem scan_cons (c : UInt8) (s : Str) :
    (∃ t s', scan (c :: s) = (t, s') ∧ t.first = [c] ∧ s' <:+ s) ∨
      (scan (c :: s) = (.word, (c :: s).dropWhile isWord) ∧ c ∉ symbols) := by
  unfold scan
  dsimp only
  by_cases h1 : c = 124
  · rw [if_pos h1]
    exact .inl ⟨_, _, rfl, by rw [h1, Tok.first], suffix_rfl⟩
  rw [if_neg h1]
  by_cases h2 : c = 40
  · rw [if_pos h2]
    exact .inl ⟨_, _, rfl, by rw [h2, Tok.first], suffix_rfl⟩
  rw [if_neg h2]
  by_cases h3 : c = 41
  · rw [if_pos h3]
    exact .inl ⟨_, _, rfl, by rw [h3, Tok.first], suffix_rfl⟩
  rw [if_neg h3]
  by_cases h4 : c = 59
  · rw [if_pos h4]
    exact .inl ⟨_, _, rfl, by rw [h4, Tok.first], suffix_rfl⟩
  rw [if_neg h4]
  by_cases h5 : c = 38
  · rw [if_pos h5]
    exact .inl ⟨_, _, rfl, by rw [h5, Tok.first], suffix_rfl⟩
  rw [if_neg h5]
  by_cases h6 : c = 60
  · rw [if_pos h6]
    exact .inl ⟨_, _, rfl, by rw [h6, Tok.first], suffix_rfl⟩
  rw [if_neg h6]
  by_cases h7 : c = 62
  · rw [if_pos h7]
    cases s with
    | nil => exact .inl ⟨_, _, rfl, by rw [h7, Tok.first], suffix_rfl⟩
    | cons c' s =>
      dsimp only
      split
      · exact .inl ⟨_, _, rfl, by rw [h7, Tok.first], suffix_cons _ _⟩
      · exact .inl ⟨_, _, rfl, by rw [h7, Tok.first], suffix_rfl⟩
  rw [if_neg h7]
  exact .inr ⟨rfl, by simp [symbols, h1, h2, h3, h4, h5, h6, h7]⟩

/-- A token takes at least one byte. -/
theorem scan_length {c : UInt8} (hc : whitespace.contains c = false) :
    (scan (c :: s)).2.length < (c :: s).length := by
  rcases scan_cons c s with ⟨t, s', h, -, hs⟩ | ⟨h, hn⟩
  · rw [h]
    exact Nat.lt_succ_of_le hs.length_le
  · have hw : isWord c = true := by
      simp only [isWord, hc, contains_eq_mem, hn, decide_false, Bool.not_false, Bool.and_self]
    rw [h]
    dsimp only
    rw [dropWhile_cons_of_pos hw]
    exact Nat.lt_succ_of_le (dropWhile_suffix isWord).length_le

theorem gettoken_length (h : (gettoken s).1 ≠ .eof) : (gettoken s).2.2.length < s.length := by
  have h1 : (gettoken s).2.2.length ≤ (scan (skip s)).2.length := skip_length_le _
  have h3 := skip_length_le s
  cases hs : skip s with
  | nil =>
    refine absurd ?_ h
    show (scan (skip s)).1 = .eof
    rw [hs]
    rfl
  | cons c t =>
    have h2 := scan_length (s := t) (skip_cons hs)
    rw [hs] at h1 h3
    omega

/-- Further calls find nothing new. -/
theorem lex_eq_of_le : ∀ {n : ℕ} {s : Str}, s.length ≤ n → lex n s = tokens s := by
  intro n
  induction n using Nat.strongRecOn with
  | ind n ih =>
    intro s hs
    cases n with
    | zero =>
      have : s = [] := length_eq_zero_iff.1 (by omega)
      subst this
      rfl
    | succ n =>
      cases s with
      | nil => rfl
      | cons c s =>
        show lex (n + 1) (c :: s) = lex (s.length + 1) (c :: s)
        rw [lex, lex]
        cases ht : (gettoken (c :: s)).1.token (gettoken (c :: s)).2.1 with
        | none => rfl
        | some t =>
          have hne : (gettoken (c :: s)).1 ≠ .eof := by
            intro h
            rw [token_eq_none.2 h] at ht
            cases ht
          have hlen := gettoken_length hne
          simp only [length_cons] at hlen hs
          dsimp only
          rw [ih n (by omega) (by omega)]
          by_cases hn : s.length = n
          · rw [hn, ih n (by omega) (by omega)]
          · rw [ih s.length (by omega) (by omega)]

/-- **The tokens of a line**: the one `gettoken` returns, and those of the line behind it. -/
theorem tokens_eq (s : Str) :
    tokens s = match (gettoken s).1.token (gettoken s).2.1 with
      | none => []
      | some t => t :: tokens (gettoken s).2.2 := by
  rw [← lex_eq_of_le (Nat.le_succ s.length), lex]
  cases ht : (gettoken s).1.token (gettoken s).2.1 with
  | none => rfl
  | some t =>
    have hne : (gettoken s).1 ≠ .eof := by
      intro h
      rw [token_eq_none.2 h] at ht
      cases ht
    dsimp only
    rw [lex_eq_of_le (by have := gettoken_length hne; omega)]

@[simp]
theorem tokens_skip (s : Str) : tokens (skip s) = tokens s := by
  rw [tokens_eq, tokens_eq s, gettoken_skip]

/-- `gettoken` returns the front of the sequence. -/
theorem gettoken_fst (s : Str) : (gettoken s).1 = next (tokens s) := by
  rw [tokens_eq]
  cases ht : (gettoken s).1.token (gettoken s).2.1 with
  | none => exact token_eq_none.1 ht
  | some t => exact (token_tok ht).symm

/-- `gettoken` takes the front of the sequence away. -/
theorem gettoken_cons {t : Token} {ts : List Token} (h : tokens s = t :: ts) :
    (gettoken s).1 = t.tok ∧ tokens (gettoken s).2.2 = ts := by
  refine ⟨(gettoken_fst s).trans (by rw [h]; rfl), ?_⟩
  rw [tokens_eq s] at h
  cases ht : (gettoken s).1.token (gettoken s).2.1 with
  | none =>
    rw [ht] at h
    cases h
  | some t' =>
    rw [ht] at h
    exact (cons.inj h).2

/-- The word that `gettoken` returns is the one of the sequence. -/
theorem gettoken_word {ts : List Token} (h : tokens s = .word w :: ts) : (gettoken s).2.1 = w := by
  have h1 := (gettoken_cons h).1
  rw [tokens_eq, h1] at h
  simp only [Token.tok, Tok.token, cons.injEq, Token.word.injEq] at h
  exact h.1

/-- Nothing is left behind the blanks when no token is. -/
theorem skip_eq_nil_iff (s : Str) : skip s = [] ↔ tokens s = [] := by
  constructor
  · intro h
    rw [← tokens_skip, h]
    rfl
  · intro h
    have h1 : (scan (skip s)).1 = .eof := (gettoken_fst s).trans (by rw [h]; rfl)
    cases hs : skip s with
    | nil => rfl
    | cons c t =>
      rw [hs] at h1
      rcases scan_cons c t with ⟨tok, s', h2, h3, -⟩ | ⟨h2, -⟩
      · rw [h2] at h1
        rw [show tok = .eof from h1] at h3
        cases h3
      · rw [h2] at h1
        cases h1

/-- **`peek` looks at the next token**: it finds one of the symbols `toks` when that is what the
token starts with. -/
theorem peek_fst (s : Str) {toks : List UInt8} (h : ∀ c ∈ toks, c ∈ symbols) :
    (peek s toks).1 = (next (tokens s)).first.any (toks.contains ·) := by
  rw [← gettoken_fst]
  show (match skip s with
    | [] => false
    | c :: _ => toks.contains c) = ((scan (skip s)).1).first.any (toks.contains ·)
  cases hs : skip s with
  | nil => rfl
  | cons c t =>
    rcases scan_cons c t with ⟨tok, s', h2, h3, -⟩ | ⟨h2, h3⟩
    · rw [h2, h3]
      simp
    · rw [h2]
      simp only [Tok.first, any_nil, contains_eq_mem, decide_eq_false_iff_not]
      exact fun hc => h3 (h c hc)

@[simp]
theorem peek_snd (s : Str) (toks : List UInt8) : (peek s toks).2 = skip s :=
  rfl

end Xv6.Sh
