/-
# The grammar of command lines

The grammar that the shell's parser is written from,

    line ::= pipe '&'* [';' line]
    pipe ::= cmd ['|' pipe]
    cmd  ::= '(' line ')' redir* | redir* (word redir*)*
    redir ::= ('<' | '>' | '>>') word

with at most `MAXARGS - 1` words in a command, as a type of derivations: `yield` is the sequence of
tokens that a derivation derives and `cmd` the tree that belongs to it. `;` and `|` nest to the
right, each `&` is one `backcmd`, the redirections of a command are wrapped around it in textual
order, the last one outermost, and `argv` lists the words in order.

`deriveLine` is the recursive descent on tokens that finds the derivation. It finds only derivations
of what it takes (`sound`), ends within a number of rounds that the length of the sequence bounds
(`ends`), and finds every derivation (`complete`): hence there is at most one (`derives_iff`).
-/
import Xv6.User.Sh

namespace Xv6.Sh

open List
open Result (bind_ne_out)

/-! ## Derivations -/

/-- The three redirections. -/
inductive RedirOp where
  | lt
  | gt
  | append
  deriving DecidableEq, Repr

/-- A redirection and its file. -/
structure Redir where
  /-- The symbol. -/
  op : RedirOp
  /-- The word behind it. -/
  file : Word
  deriving DecidableEq, Repr

/-- A word of a command and the redirections behind it. -/
structure Arg where
  /-- The word. -/
  word : Word
  /-- The redirections. -/
  redirs : List Redir
  deriving DecidableEq, Repr

mutual

/-- Derivations from `line`: a pipe, a number of `&`, and another line behind a `;`. -/
inductive Line where
  | last (p : Pipeline) (amps : ℕ)
  | seq (p : Pipeline) (amps : ℕ) (l : Line)

/-- Derivations from `pipe`. -/
inductive Pipeline where
  | last (c : Command)
  | pipe (c : Command) (p : Pipeline)

/-- Derivations from `cmd`. -/
inductive Command where
  | block (l : Line) (redirs : List Redir)
  | exec (redirs : List Redir) (args : List Arg)

end

/-- The token of a redirection symbol. -/
def RedirOp.token : RedirOp → Token
  | .lt => .lt
  | .gt => .gt
  | .append => .append

/-- The tokens of some redirections. -/
def redirsYield (rs : List Redir) : List Token :=
  rs.flatMap fun r => [r.op.token, .word r.file]

/-- The tokens of the words of a command, with the redirections between them. -/
def argsYield (as : List Arg) : List Token :=
  as.flatMap fun a => .word a.word :: redirsYield a.redirs

mutual

/-- The tokens of a line. -/
def Line.yield : Line → List Token
  | .last p amps => p.yield ++ replicate amps .amp
  | .seq p amps l => p.yield ++ (replicate amps .amp ++ .semi :: l.yield)

/-- The tokens of a pipe. -/
def Pipeline.yield : Pipeline → List Token
  | .last c => c.yield
  | .pipe c p => c.yield ++ .bar :: p.yield

/-- The tokens of a command. -/
def Command.yield : Command → List Token
  | .block l rs => .lpar :: (l.yield ++ .rpar :: redirsYield rs)
  | .exec rs as => redirsYield rs ++ argsYield as

end

/-- The node of a redirection around a command. -/
def Redir.wrap (c : Cmd) (r : Redir) : Cmd :=
  match r.op with
  | .lt => .redir c r.file O_RDONLY 0
  | .gt => .redir c r.file O_WRONLY_O_CREATE 1
  | .append => .redir c r.file O_WRONLY_O_CREATE 1

mutual

/-- The tree of a line. -/
def Line.cmd : Line → Cmd
  | .last p amps => Cmd.back^[amps] p.cmd
  | .seq p amps l => .list (Cmd.back^[amps] p.cmd) l.cmd

/-- The tree of a pipe. -/
def Pipeline.cmd : Pipeline → Cmd
  | .last c => c.cmd
  | .pipe c p => .pipe c.cmd p.cmd

/-- The tree of a command: all its redirections around the list of its words. -/
def Command.cmd : Command → Cmd
  | .block l rs => rs.foldl Redir.wrap l.cmd
  | .exec rs as => (rs ++ as.flatMap Arg.redirs).foldl Redir.wrap (.exec (as.map Arg.word))

end

mutual

/-- No command of the line has more than `MAXARGS - 1` words. -/
def Line.Ok : Line → Prop
  | .last p _ => p.Ok
  | .seq p _ l => p.Ok ∧ l.Ok

/-- No command of the pipe has more than `MAXARGS - 1` words. -/
def Pipeline.Ok : Pipeline → Prop
  | .last c => c.Ok
  | .pipe c p => c.Ok ∧ p.Ok

/-- The command has no more than `MAXARGS - 1` words, nor has one inside it. -/
def Command.Ok : Command → Prop
  | .block l _ => l.Ok
  | .exec _ as => as.length ≤ MAXARGS - 1

end

/-- `l` derives the sequence of tokens `ts` from `line`. -/
def Line.Derives (l : Line) (ts : List Token) : Prop :=
  l.Ok ∧ l.yield = ts

/-! ## The descent on tokens -/

/-- The redirection that a token starts. -/
def Token.redirOp : Token → Option RedirOp
  | .lt => some .lt
  | .gt => some .gt
  | .append => some .append
  | _ => none

/-- `redir*`. -/
def deriveRedirs : ℕ → List Token → Result (List Redir × List Token)
  | 0, _ => .out
  | _ + 1, [] => .ok ([], [])
  | fuel + 1, t :: ts =>
    match t.redirOp with
    | none => .ok ([], t :: ts)
    | some op =>
      match ts with
      | .word w :: ts => do
        let (rs, ts) ← deriveRedirs fuel ts
        .ok (⟨op, w⟩ :: rs, ts)
      | _ => .panic "missing file for redirection"

/-- The tokens that end a command. -/
def Tok.ends : Tok → Bool
  | .eof | .bar | .rpar | .amp | .semi => true
  | _ => false

/-- `(word redir*)*`, behind `argc` words. -/
def deriveArgs : ℕ → ℕ → List Token → Result (List Arg × List Token)
  | 0, _, _ => .out
  | fuel + 1, argc, .word w :: ts =>
    if argc + 1 ≥ MAXARGS then .panic "too many args"
    else do
      let (rs, ts) ← deriveRedirs fuel ts
      let (as, ts) ← deriveArgs fuel (argc + 1) ts
      .ok (⟨w, rs⟩ :: as, ts)
  | _ + 1, _, ts => if (next ts).ends then .ok ([], ts) else .panic "syntax"

/-- `'&'*`. -/
def deriveAmps : ℕ → List Token → Result (ℕ × List Token)
  | 0, _ => .out
  | fuel + 1, .amp :: ts => do
    let (k, ts) ← deriveAmps fuel ts
    .ok (k + 1, ts)
  | _ + 1, ts => .ok (0, ts)

mutual

/-- `line`. -/
def deriveLine : ℕ → List Token → Result (Line × List Token)
  | 0, _ => .out
  | fuel + 1, ts => do
    let (p, ts) ← derivePipe fuel ts
    let (amps, ts) ← deriveAmps fuel ts
    match ts with
    | .semi :: ts => do
      let (l, ts) ← deriveLine fuel ts
      .ok (.seq p amps l, ts)
    | ts => .ok (.last p amps, ts)

/-- `pipe`. -/
def derivePipe : ℕ → List Token → Result (Pipeline × List Token)
  | 0, _ => .out
  | fuel + 1, ts => do
    let (c, ts) ← deriveCmd fuel ts
    match ts with
    | .bar :: ts => do
      let (p, ts) ← derivePipe fuel ts
      .ok (.pipe c p, ts)
    | ts => .ok (.last c, ts)

/-- `cmd`. -/
def deriveCmd : ℕ → List Token → Result (Command × List Token)
  | 0, _ => .out
  | fuel + 1, .lpar :: ts => deriveBlock fuel ts
  | fuel + 1, ts => do
    let (rs, ts) ← deriveRedirs fuel ts
    let (as, ts) ← deriveArgs fuel 0 ts
    .ok (.exec rs as, ts)

/-- `line ')' redir*`, behind the `(`. -/
def deriveBlock : ℕ → List Token → Result (Command × List Token)
  | 0, _ => .out
  | fuel + 1, ts => do
    let (l, ts) ← deriveLine fuel ts
    match ts with
    | .rpar :: ts => do
      let (rs, ts) ← deriveRedirs fuel ts
      .ok (.block l rs, ts)
    | _ => .panic "syntax - missing )"

end

variable {ts ts' : List Token} {fuel : ℕ}

/-- A token of that kind is in front. -/
theorem next_eq {t : Tok} (h : next ts = t) (ht : t ≠ .eof) :
    ∃ tk ts', ts = tk :: ts' ∧ tk.tok = t := by
  cases ts with
  | nil => exact absurd h.symm ht
  | cons tk ts' => exact ⟨tk, ts', rfl, h⟩

theorem RedirOp.of_redirOp {t : Token} {op : RedirOp} (h : t.redirOp = some op) : t = op.token := by
  cases t <;> simp only [Token.redirOp, Option.some.injEq, reduceCtorEq] at h <;> subst h <;> rfl

@[simp]
theorem RedirOp.redirOp_token (op : RedirOp) : op.token.redirOp = some op := by
  cases op <;> rfl

theorem deriveRedirs_stop (h : ∀ t ∈ ts.head?, t.redirOp = none) (fuel : ℕ) :
    deriveRedirs (fuel + 1) ts = .ok ([], ts) := by
  cases ts with
  | nil => rfl
  | cons t ts => simp only [deriveRedirs, h t rfl]

theorem deriveRedirs_word (op : RedirOp) (w : Word) (ts : List Token) (fuel : ℕ) :
    deriveRedirs (fuel + 1) (op.token :: .word w :: ts) =
      (do
        let (rs, ts) ← deriveRedirs fuel ts
        .ok (⟨op, w⟩ :: rs, ts)) := by
  simp only [deriveRedirs, RedirOp.redirOp_token]

theorem deriveRedirs_missing (op : RedirOp) (h : next ts ≠ .word) (fuel : ℕ) :
    deriveRedirs (fuel + 1) (op.token :: ts) = .panic "missing file for redirection" := by
  simp only [deriveRedirs, RedirOp.redirOp_token]
  split
  · exact absurd rfl h
  · rfl

theorem deriveArgs_stop (h : (next ts).ends = true) (fuel argc : ℕ) :
    deriveArgs (fuel + 1) argc ts = .ok ([], ts) := by
  unfold deriveArgs
  split
  · cases ‹_ + 1 = 0›
  · cases h
  · rw [if_pos h]

theorem deriveArgs_stuck (h : (next ts).ends = false) (hw : next ts ≠ .word)
    (fuel argc : ℕ) : deriveArgs (fuel + 1) argc ts = .panic "syntax" := by
  unfold deriveArgs
  split
  · cases ‹_ + 1 = 0›
  · exact absurd rfl hw
  · rw [if_neg (by simp [h])]

theorem deriveAmps_stop (h : next ts ≠ .amp) (fuel : ℕ) :
    deriveAmps (fuel + 1) ts = .ok (0, ts) := by
  unfold deriveAmps
  split
  · cases ‹_ + 1 = 0›
  · exact absurd rfl h
  · rfl

theorem deriveCmd_exec (h : next ts ≠ .lpar) (fuel : ℕ) :
    deriveCmd (fuel + 1) ts =
      (do
        let (rs, ts) ← deriveRedirs fuel ts
        let (as, ts) ← deriveArgs fuel 0 ts
        .ok (.exec rs as, ts)) := by
  unfold deriveCmd
  split
  · cases ‹_ + 1 = 0›
  · exact absurd rfl h
  · rename_i heq _
    cases heq
    rfl

/-! ## What the descent takes is derived -/

theorem deriveRedirs_sound : ∀ {ts : List Token} {rs : List Redir} {ts' : List Token},
    deriveRedirs fuel ts = .ok (rs, ts') → ts = redirsYield rs ++ ts' := by
  induction fuel with
  | zero =>
    intro ts rs ts' h
    cases h
  | succ fuel ih =>
    intro ts rs ts' h
    cases ts with
    | nil =>
      cases h
      rfl
    | cons t ts =>
      simp only [deriveRedirs] at h
      cases ht : t.redirOp with
      | none =>
        rw [ht] at h
        cases h
        rfl
      | some op =>
        simp only [ht] at h
        split at h
        · rename_i w ts
          obtain ⟨⟨rs', ts1⟩, h1, h2⟩ := Result.bind_eq_ok.1 h
          cases h2
          rw [ih h1, RedirOp.of_redirOp ht]
          rfl
        · cases h

theorem deriveArgs_sound :
    ∀ {argc : ℕ} {ts : List Token} {as : List Arg} {ts' : List Token},
      deriveArgs fuel argc ts = .ok (as, ts') → argc < MAXARGS →
        ts = argsYield as ++ ts' ∧ argc + as.length < MAXARGS := by
  induction fuel with
  | zero =>
    intro argc ts as ts' h
    cases h
  | succ fuel ih =>
    intro argc ts as ts' h hn
    unfold deriveArgs at h
    split at h
    · cases h
    · rename_i fuel' argc' w ts heq
      cases heq
      split_ifs at h with hmax
      obtain ⟨⟨rs, ts1⟩, h1, h⟩ := Result.bind_eq_ok.1 h
      obtain ⟨⟨as', ts2⟩, h2, h3⟩ := Result.bind_eq_ok.1 h
      cases h3
      obtain ⟨h4, h5⟩ := ih h2 (by omega)
      refine ⟨?_, by simp only [length_cons]; omega⟩
      rw [deriveRedirs_sound h1, h4]
      simp [argsYield]
    · split_ifs at h
      cases h
      exact ⟨rfl, hn⟩

theorem deriveAmps_sound : ∀ {ts : List Token} {k : ℕ} {ts' : List Token},
    deriveAmps fuel ts = .ok (k, ts') → ts = replicate k .amp ++ ts' := by
  induction fuel with
  | zero =>
    intro ts k ts' h
    cases h
  | succ fuel ih =>
    intro ts k ts' h
    unfold deriveAmps at h
    split at h
    · cases h
    · rename_i fuel' ts heq
      cases heq
      obtain ⟨⟨k', ts1⟩, h1, h2⟩ := Result.bind_eq_ok.1 h
      cases h2
      rw [ih h1]
      rfl
    · cases h
      rfl

/-- What the functions of the descent take with `fuel` rounds is derived by what they find. -/
structure Sound (fuel : ℕ) : Prop where
  line : ∀ {ts l ts'}, deriveLine fuel ts = .ok (l, ts') → ts = l.yield ++ ts' ∧ l.Ok
  pipe : ∀ {ts p ts'}, derivePipe fuel ts = .ok (p, ts') → ts = p.yield ++ ts' ∧ p.Ok
  cmd : ∀ {ts c ts'}, deriveCmd fuel ts = .ok (c, ts') → ts = c.yield ++ ts' ∧ c.Ok
  block : ∀ {ts c ts'}, deriveBlock fuel ts = .ok (c, ts') → .lpar :: ts = c.yield ++ ts' ∧ c.Ok

namespace Sound

variable {fuel : ℕ} (ih : Sound fuel)
include ih

theorem line_succ {l : Line}
    (h : deriveLine (fuel + 1) ts = .ok (l, ts')) : ts = l.yield ++ ts' ∧ l.Ok := by
  rw [deriveLine] at h
  obtain ⟨⟨p, ts1⟩, h1, h⟩ := Result.bind_eq_ok.1 h
  obtain ⟨⟨amps, ts2⟩, h2, h⟩ := Result.bind_eq_ok.1 h
  obtain ⟨hp, hok⟩ := ih.pipe h1
  have ha := deriveAmps_sound h2
  dsimp only at h
  split at h
  · obtain ⟨⟨l', ts3⟩, h3, h⟩ := Result.bind_eq_ok.1 h
    obtain ⟨hl, hok'⟩ := ih.line h3
    cases h
    refine ⟨?_, hok, hok'⟩
    rw [hp, ha, hl]
    simp [Line.yield]
  · cases h
    refine ⟨?_, hok⟩
    rw [hp, ha]
    simp [Line.yield]

theorem pipe_succ {p : Pipeline}
    (h : derivePipe (fuel + 1) ts = .ok (p, ts')) : ts = p.yield ++ ts' ∧ p.Ok := by
  rw [derivePipe] at h
  obtain ⟨⟨c, ts1⟩, h1, h⟩ := Result.bind_eq_ok.1 h
  obtain ⟨hc, hok⟩ := ih.cmd h1
  dsimp only at h
  split at h
  · obtain ⟨⟨p', ts2⟩, h2, h⟩ := Result.bind_eq_ok.1 h
    obtain ⟨hp, hok'⟩ := ih.pipe h2
    cases h
    refine ⟨?_, hok, hok'⟩
    rw [hc, hp]
    simp [Pipeline.yield]
  · cases h
    exact ⟨hc, hok⟩

theorem cmd_succ {c : Command}
    (h : deriveCmd (fuel + 1) ts = .ok (c, ts')) : ts = c.yield ++ ts' ∧ c.Ok := by
  unfold deriveCmd at h
  split at h
  · cases ‹_ + 1 = 0›
  · rename_i ts heq
    cases heq
    exact ih.block h
  · rename_i heq _
    cases heq
    obtain ⟨⟨rs, ts1⟩, h1, h⟩ := Result.bind_eq_ok.1 h
    obtain ⟨⟨as, ts2⟩, h2, h⟩ := Result.bind_eq_ok.1 h
    obtain ⟨ha, hn⟩ := deriveArgs_sound h2 (by decide)
    cases h
    refine ⟨?_, show as.length ≤ MAXARGS - 1 by omega⟩
    rw [deriveRedirs_sound h1, ha]
    simp [Command.yield]

theorem block_succ {c : Command}
    (h : deriveBlock (fuel + 1) ts = .ok (c, ts')) : .lpar :: ts = c.yield ++ ts' ∧ c.Ok := by
  rw [deriveBlock] at h
  obtain ⟨⟨l, ts1⟩, h1, h⟩ := Result.bind_eq_ok.1 h
  obtain ⟨hl, hok⟩ := ih.line h1
  dsimp only at h
  split at h
  · obtain ⟨⟨rs, ts2⟩, h2, h⟩ := Result.bind_eq_ok.1 h
    cases h
    refine ⟨?_, hok⟩
    rw [hl, deriveRedirs_sound h2]
    simp [Command.yield]
  · cases h

end Sound

/-- **The descent takes only what is derived.** -/
theorem sound (fuel : ℕ) : Sound fuel := by
  induction fuel with
  | zero =>
    constructor <;> intro ts d ts' h <;> simp [deriveLine, derivePipe, deriveCmd, deriveBlock] at h
  | succ fuel ih => exact ⟨ih.line_succ, ih.pipe_succ, ih.cmd_succ, ih.block_succ⟩

/-! ## The descent ends -/

theorem deriveRedirs_ne_out : ∀ {ts : List Token}, ts.length < fuel →
    deriveRedirs fuel ts ≠ .out := by
  induction fuel with
  | zero =>
    intro ts h
    omega
  | succ fuel ih =>
    intro ts h
    cases ts with
    | nil => simp [deriveRedirs]
    | cons t ts =>
      simp only [deriveRedirs]
      split
      · simp
      · split
        · simp only [length_cons] at h
          exact bind_ne_out (ih (by omega)) fun a _ => by simp
        · simp

theorem deriveArgs_ne_out : ∀ {argc : ℕ} {ts : List Token}, ts.length < fuel →
    deriveArgs fuel argc ts ≠ .out := by
  induction fuel with
  | zero =>
    intro argc ts h
    omega
  | succ fuel ih =>
    intro argc ts h
    unfold deriveArgs
    split
    · omega
    · rename_i heq
      cases heq
      simp only [length_cons] at h
      split_ifs
      · simp
      · refine bind_ne_out (deriveRedirs_ne_out (by omega)) fun a ha => ?_
        have hlen := congrArg length (deriveRedirs_sound ha)
        rw [length_append] at hlen
        exact bind_ne_out (ih (by omega)) fun a _ => by simp
    · split_ifs <;> simp

theorem deriveAmps_ne_out : ∀ {ts : List Token}, ts.length < fuel →
    deriveAmps fuel ts ≠ .out := by
  induction fuel with
  | zero =>
    intro ts h
    omega
  | succ fuel ih =>
    intro ts h
    unfold deriveAmps
    split
    · omega
    · rename_i heq
      cases heq
      simp only [length_cons] at h
      exact bind_ne_out (ih (by omega)) fun a _ => by simp
    · simp

/-- With `fuel` rounds the functions of the descent come to an end on short enough sequences. -/
structure Ends (fuel : ℕ) : Prop where
  line : ∀ {ts}, 4 * ts.length + 4 ≤ fuel → deriveLine fuel ts ≠ .out
  pipe : ∀ {ts}, 4 * ts.length + 3 ≤ fuel → derivePipe fuel ts ≠ .out
  cmd : ∀ {ts}, 4 * ts.length + 2 ≤ fuel → deriveCmd fuel ts ≠ .out
  block : ∀ {ts}, 4 * ts.length + 5 ≤ fuel → deriveBlock fuel ts ≠ .out

namespace Ends

variable {fuel : ℕ} (ih : Ends fuel)
include ih

theorem line_succ (h : 4 * ts.length + 4 ≤ fuel + 1) : deriveLine (fuel + 1) ts ≠ .out := by
  rw [deriveLine]
  refine bind_ne_out (ih.pipe (by omega)) fun ⟨p, ts1⟩ ha => ?_
  have h1 := congrArg length ((sound fuel).pipe ha).1
  rw [length_append] at h1
  refine bind_ne_out (deriveAmps_ne_out (by omega)) fun ⟨k, ts2⟩ hb => ?_
  have h2 := congrArg length (deriveAmps_sound hb)
  rw [length_append] at h2
  dsimp only
  split
  · rw [length_cons] at h2
    exact bind_ne_out (ih.line (by omega)) fun c _ => by simp
  · simp

theorem pipe_succ (h : 4 * ts.length + 3 ≤ fuel + 1) : derivePipe (fuel + 1) ts ≠ .out := by
  rw [derivePipe]
  refine bind_ne_out (ih.cmd (by omega)) fun ⟨c, ts1⟩ ha => ?_
  have h1 := congrArg length ((sound fuel).cmd ha).1
  rw [length_append] at h1
  dsimp only
  split
  · rw [length_cons] at h1
    exact bind_ne_out (ih.pipe (by omega)) fun c _ => by simp
  · simp

theorem cmd_succ (h : 4 * ts.length + 2 ≤ fuel + 1) : deriveCmd (fuel + 1) ts ≠ .out := by
  unfold deriveCmd
  split
  · omega
  · rename_i heq
    cases heq
    simp only [length_cons] at h
    exact ih.block (by omega)
  · rename_i heq _
    cases heq
    refine bind_ne_out (deriveRedirs_ne_out (by omega)) fun a ha => ?_
    have h1 := congrArg length (deriveRedirs_sound ha)
    rw [length_append] at h1
    exact bind_ne_out (deriveArgs_ne_out (by omega)) fun c _ => by simp

theorem block_succ (h : 4 * ts.length + 5 ≤ fuel + 1) : deriveBlock (fuel + 1) ts ≠ .out := by
  rw [deriveBlock]
  refine bind_ne_out (ih.line (by omega)) fun ⟨l, ts1⟩ ha => ?_
  have h1 := congrArg length ((sound fuel).line ha).1
  rw [length_append] at h1
  dsimp only
  split
  · rw [length_cons] at h1
    exact bind_ne_out (deriveRedirs_ne_out (by omega)) fun c _ => by simp
  · simp

end Ends

/-- **The descent ends** within a number of rounds that the length of the sequence bounds. -/
theorem ends (fuel : ℕ) : Ends fuel := by
  induction fuel with
  | zero => constructor <;> intro ts h <;> omega
  | succ fuel ih => exact ⟨ih.line_succ, ih.pipe_succ, ih.cmd_succ, ih.block_succ⟩

/-! ## Every derivation is found -/

/-- The call ends with `x`, unless its rounds are used up. -/
def Result.Finds {α : Type} (r : Result α) (x : α) : Prop :=
  r = .out ∨ r = .ok x

theorem Result.Finds.bind {α β : Type} {r : Result α} {x : α} {f : α → Result β} {y : β}
    (h : r.Finds x) (hf : (f x).Finds y) : (r >>= f).Finds y := by
  rcases h with rfl | rfl
  · exact .inl rfl
  · exact hf

theorem deriveRedirs_finds (hts : ∀ t ∈ ts.head?, t.redirOp = none)
    (rs : List Redir) : ∀ fuel, (deriveRedirs fuel (redirsYield rs ++ ts)).Finds (rs, ts) := by
  induction rs with
  | nil =>
    intro fuel
    cases fuel with
    | zero => exact .inl rfl
    | succ fuel =>
      exact .inr (deriveRedirs_stop hts fuel)
  | cons r rs ih =>
    intro fuel
    cases fuel with
    | zero => exact .inl rfl
    | succ fuel =>
      have heq : redirsYield (r :: rs) ++ ts =
          r.op.token :: .word r.file :: (redirsYield rs ++ ts) := by
        simp [redirsYield]
      rw [heq, deriveRedirs_word]
      exact (ih fuel).bind (.inr rfl)

/-- A command ends in front of what is no part of it. -/
theorem redirOp_of_ends (h : (next ts).ends = true) : ∀ t ∈ ts.head?, t.redirOp = none := by
  cases ts with
  | nil => simp
  | cons t ts =>
    intro t' ht'
    cases ht'
    cases t <;> first | rfl | cases h

/-- Redirections end in front of a word and in front of the end of the command. -/
theorem redirOp_of_args (as : List Arg) (hts : (next ts).ends = true) :
    ∀ t ∈ (argsYield as ++ ts).head?, t.redirOp = none := by
  cases as with
  | nil => exact redirOp_of_ends hts
  | cons b bs =>
    intro t ht
    cases ht
    rfl

theorem deriveArgs_finds (hts : (next ts).ends = true) (as : List Arg) :
    ∀ fuel argc, argc + as.length < MAXARGS →
      (deriveArgs fuel argc (argsYield as ++ ts)).Finds (as, ts) := by
  induction as with
  | nil =>
    intro fuel argc hn
    cases fuel with
    | zero => exact .inl rfl
    | succ fuel => exact .inr (deriveArgs_stop hts fuel argc)
  | cons a as ih =>
    intro fuel argc hn
    cases fuel with
    | zero => exact .inl rfl
    | succ fuel =>
      simp only [length_cons] at hn
      have heq : argsYield (a :: as) ++ ts =
          .word a.word :: (redirsYield a.redirs ++ (argsYield as ++ ts)) := by
        simp [argsYield]
      rw [heq, deriveArgs, if_neg (by omega)]
      exact (deriveRedirs_finds (redirOp_of_args as hts) a.redirs fuel).bind
        ((ih fuel (argc + 1) (by omega)).bind (.inr rfl))

theorem deriveAmps_finds (hts : next ts ≠ .amp) (k : ℕ) :
    ∀ fuel, (deriveAmps fuel (replicate k .amp ++ ts)).Finds (k, ts) := by
  induction k with
  | zero =>
    intro fuel
    cases fuel with
    | zero => exact .inl rfl
    | succ fuel => exact .inr (deriveAmps_stop hts fuel)
  | succ k ih =>
    intro fuel
    cases fuel with
    | zero => exact .inl rfl
    | succ fuel =>
      rw [replicate_succ, cons_append, deriveAmps]
      exact (ih fuel).bind (.inr rfl)

/-- A command does not start with the `(` of another one. -/
theorem exec_next {rs : List Redir} {as : List Arg}
    (hts : (next ts).ends = true) : next (redirsYield rs ++ (argsYield as ++ ts)) ≠ .lpar := by
  cases rs with
  | cons r rs =>
    obtain ⟨op, w⟩ := r
    cases op <;> simp [redirsYield, next, Token.tok, RedirOp.token]
  | nil =>
    cases as with
    | cons a as => simp [redirsYield, argsYield, next, Token.tok]
    | nil =>
      intro h
      rw [show next ts = .lpar from h] at hts
      cases hts

/-- With `fuel` rounds the functions of the descent find the derivations of what is in front of a
token that cannot continue them. -/
structure Complete (fuel : ℕ) : Prop where
  line : ∀ {l : Line} {ts}, l.Ok → next ts = .eof ∨ next ts = .rpar →
    (deriveLine fuel (l.yield ++ ts)).Finds (l, ts)
  pipe : ∀ {p : Pipeline} {ts}, p.Ok → (next ts).ends = true → next ts ≠ .bar →
    (derivePipe fuel (p.yield ++ ts)).Finds (p, ts)
  cmd : ∀ {c : Command} {ts}, c.Ok → (next ts).ends = true →
    (deriveCmd fuel (c.yield ++ ts)).Finds (c, ts)
  block : ∀ {l : Line} {rs ts}, l.Ok → (next ts).ends = true →
    (deriveBlock fuel (l.yield ++ .rpar :: (redirsYield rs ++ ts))).Finds (.block l rs, ts)

namespace Complete

variable {fuel : ℕ} (ih : Complete fuel)
include ih

theorem line_succ {l : Line} (hok : l.Ok) (hts : next ts = .eof ∨ next ts = .rpar) :
    (deriveLine (fuel + 1) (l.yield ++ ts)).Finds (l, ts) := by
  rw [deriveLine]
  cases l with
  | last p amps =>
    have hnext : (next (replicate amps .amp ++ ts)).ends = true ∧
        next (replicate amps .amp ++ ts) ≠ .bar := by
      cases amps with
      | zero => rcases hts with h | h <;> simp [h, Tok.ends]
      | succ k => exact ⟨rfl, by simp [replicate_succ, next, Token.tok]⟩
    rw [Line.yield, append_assoc]
    refine (ih.pipe hok hnext.1 hnext.2).bind ((deriveAmps_finds ?_ amps fuel).bind ?_)
    · rcases hts with h | h <;> simp [h]
    · dsimp only
      split
      · rcases hts with h | h <;> cases h
      · exact .inr rfl
  | seq p amps l =>
    have hnext : (next (replicate amps .amp ++ .semi :: (l.yield ++ ts))).ends = true ∧
        next (replicate amps .amp ++ .semi :: (l.yield ++ ts)) ≠ .bar := by
      cases amps with
      | zero => exact ⟨rfl, by simp [next, Token.tok]⟩
      | succ k => exact ⟨rfl, by simp [replicate_succ, next, Token.tok]⟩
    rw [Line.yield, append_assoc, append_assoc, cons_append]
    refine (ih.pipe hok.1 hnext.1 hnext.2).bind ((deriveAmps_finds ?_ amps fuel).bind ?_)
    · simp [next, Token.tok]
    · exact (ih.line hok.2 hts).bind (.inr rfl)

theorem pipe_succ {p : Pipeline} (hok : p.Ok) (hts : (next ts).ends = true)
    (hbar : next ts ≠ .bar) : (derivePipe (fuel + 1) (p.yield ++ ts)).Finds (p, ts) := by
  rw [derivePipe]
  cases p with
  | last c =>
    refine (ih.cmd hok hts).bind ?_
    dsimp only
    split
    · exact absurd rfl hbar
    · exact .inr rfl
  | pipe c p =>
    rw [Pipeline.yield, append_assoc, cons_append]
    refine (ih.cmd hok.1 (by rfl)).bind ?_
    exact (ih.pipe hok.2 hts hbar).bind (.inr rfl)

theorem cmd_succ {c : Command} (hok : c.Ok) (hts : (next ts).ends = true) :
    (deriveCmd (fuel + 1) (c.yield ++ ts)).Finds (c, ts) := by
  cases c with
  | block l rs =>
    rw [Command.yield, cons_append, append_assoc, cons_append, deriveCmd]
    exact ih.block hok hts
  | exec rs as =>
    have hlen : as.length ≤ MAXARGS - 1 := hok
    rw [Command.yield, append_assoc, deriveCmd_exec (exec_next hts)]
    refine (deriveRedirs_finds (redirOp_of_args as hts) rs fuel).bind ?_
    exact (deriveArgs_finds hts as fuel 0 (by simp [MAXARGS] at hlen ⊢; omega)).bind (.inr rfl)

theorem block_succ {l : Line} {rs : List Redir} (hok : l.Ok) (hts : (next ts).ends = true) :
    (deriveBlock (fuel + 1) (l.yield ++ .rpar :: (redirsYield rs ++ ts))).Finds
      (.block l rs, ts) := by
  rw [deriveBlock]
  refine (ih.line hok (.inr rfl)).bind ?_
  exact (deriveRedirs_finds (redirOp_of_ends hts) rs fuel).bind (.inr rfl)

end Complete

/-- **The descent finds every derivation.** -/
theorem complete (fuel : ℕ) : Complete fuel := by
  induction fuel with
  | zero => constructor <;> intros <;> exact .inl rfl
  | succ fuel ih =>
    exact ⟨ih.line_succ, ih.pipe_succ, ih.cmd_succ, ih.block_succ⟩

/-- **A sequence has the derivation that the descent finds, and no other.** -/
theorem derives_iff (hfuel : 4 * ts.length + 4 ≤ fuel) (l : Line) :
    l.Derives ts ↔ deriveLine fuel ts = .ok (l, []) := by
  constructor
  · rintro ⟨hok, rfl⟩
    have h : (deriveLine fuel (l.yield ++ [])).Finds (l, []) := (complete fuel).line hok (.inl rfl)
    rw [append_nil] at h
    exact h.resolve_left ((ends fuel).line hfuel)
  · intro h
    obtain ⟨heq, hok⟩ := (sound fuel).line h
    exact ⟨hok, by rw [heq, append_nil]⟩

end Xv6.Sh
