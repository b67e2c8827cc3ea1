/-
# The arguments of a system call

`fetchint`, `fetchstr`, `argint`, `argptr` and `argstr` of `syscall.c`, and `sys_exec` of
`sysfile.c` up to its call of `exec`: how the kernel gets at the arguments, strings and pointers
that a process passes.

Addresses and sizes are the 32-bit numbers of the source and wrap around as they do there. The state
of these programs is the list of the user addresses that the kernel has loaded a byte from. Where
the source returns -1 the model returns none, and where it stores a pointer and returns 0 or a
length, these.

A process is at most `KERNBASE` bytes large, so that no sum in the checks wraps around past the
size: `args_confined` says that the kernel reads bytes of the process only, and hands on ranges and
strings of the process only.
-/
import Mathlib.Data.Int.Notation
import Mathlib.Data.Nat.Notation
import Xv6.Lib.Prog

namespace Xv6.Args

open Lib UInt32

/-- The process in a system call: its size, the user's stack pointer and its memory. -/
structure Proc where
  sz : UInt32
  /-- `tf->esp`. -/
  esp : UInt32
  mem : UInt32 → UInt8
  /-- The process ends below `KERNBASE`. -/
  sz_le : sz ≤ 0x80000000

/-- `MAXARG`. -/
def MAXARG : ℕ := 32

/-- Load a byte of the process. -/
def load (p : Proc) (a : UInt32) : Prog (List UInt32) UInt8 := do
  modify (a :: ·)
  pure (p.mem a)

/-- Load the `int` at `a`. -/
def loadInt (p : Proc) (a : UInt32) : Prog (List UInt32) UInt32 := do
  let b₀ ← load p a
  let b₁ ← load p (a + 1)
  let b₂ ← load p (a + 2)
  let b₃ ← load p (a + 3)
  pure (b₀.toUInt32 + 0x100 * b₁.toUInt32 + 0x10000 * b₂.toUInt32 + 0x1000000 * b₃.toUInt32)

/-- `fetchint(addr, ip)`: the number. -/
def fetchint (p : Proc) (addr : UInt32) : Prog (List UInt32) (Option UInt32) := do
  if addr ≥ p.sz ∨ addr + 4 > p.sz then pure none
  else do
    let i ← loadInt p addr
    pure (some i)

/-- The loop of `fetchstr`: the length of the string at `pp`. -/
def strLoop (p : Proc) (pp s : UInt32) : Prog (List UInt32) (Option UInt32) := do
  if s < p.sz then do
    let c ← load p s
    if c = 0 then pure (some (s - pp)) else strLoop p pp (s + 1)
  else pure none
termination_by p.sz.toNat - s.toNat
decreasing_by
  have hlt : s < p.sz := by assumption
  have hle := p.sz_le
  simp only [UInt32.lt_iff_toNat_lt, UInt32.le_iff_toNat_le, UInt32.toNat_add,
    reduceToNat] at *
  omega

/-- `fetchstr(addr, pp)`: the pointer and the length. -/
def fetchstr (p : Proc) (addr : UInt32) : Prog (List UInt32) (Option (UInt32 × UInt32)) := do
  if addr ≥ p.sz then pure none
  else do
    let len ← strLoop p addr addr
    pure (len.map fun len => (addr, len))

/-- `argint(n, ip)`. -/
def argint (p : Proc) (n : ℕ) : Prog (List UInt32) (Option UInt32) :=
  fetchint p (p.esp + 4 + 4 * ofNat n)

/-- `argptr(n, pp, size)`: the pointer. -/
def argptr (p : Proc) (n : ℕ) (size : Int32) : Prog (List UInt32) (Option UInt32) := do
  match ← argint p n with
  | none => pure none
  | some i =>
    if size < 0 ∨ i ≥ p.sz ∨ i + size.toUInt32 > p.sz then pure none else pure (some i)

/-- `argstr(n, pp)`: the pointer and the length. -/
def argstr (p : Proc) (n : ℕ) : Prog (List UInt32) (Option (UInt32 × UInt32)) := do
  match ← argint p n with
  | none => pure none
  | some addr => fetchstr p addr

/-- The loop of `sys_exec` from the argument `i` on, with room for `k` more: the strings. -/
def execLoop (p : Proc) (uargv : UInt32) :
    ℕ → UInt32 → Prog (List UInt32) (Option (List (UInt32 × UInt32)))
  | 0, _ => pure none
  | k + 1, i => do
    match ← fetchint p (uargv + 4 * i) with
    | none => pure none
    | some uarg =>
      if uarg = 0 then pure (some [])
      else
        match ← fetchstr p uarg with
        | none => pure none
        | some arg => do
          let args ← execLoop p uargv k (i + 1)
          pure (args.map (arg :: ·))

/-- `sys_exec`: what it calls `exec` with. -/
def sysExec (p : Proc) :
    Prog (List UInt32) (Option ((UInt32 × UInt32) × List (UInt32 × UInt32))) := do
  match ← argstr p 0 with
  | none => pure none
  | some path =>
    match ← argint p 1 with
    | none => pure none
    | some uargv => do
      let argv ← execLoop p uargv MAXARG 0
      pure (argv.map fun argv => (path, argv))

/-! ## What the kernel reads -/

/-- The addresses are inside the process. -/
def Inside (p : Proc) (log : List UInt32) : Prop := ∀ a ∈ log, a < p.sz

/-- The bytes from `a.1` on are a string of the length `a.2`, and it ends inside the process. -/
structure IsString (p : Proc) (a : UInt32 × UInt32) : Prop where
  inside : a.1.toNat + a.2.toNat < p.sz.toNat
  nul : p.mem (a.1 + a.2) = 0
  chars : ∀ i < a.2, p.mem (a.1 + i) ≠ 0

section

variable {p : Proc} {log : List UInt32} {E : Fail → Prop} {addr : UInt32}
  {Q : Option UInt32 → List UInt32 → Prop}

theorem Inside.cons {a : UInt32} (h : Inside p log) (ha : a < p.sz) : Inside p (a :: log) := by
  intro b hb
  rcases List.mem_cons.1 hb with rfl | hb
  · exact ha
  · exact h b hb

theorem wp_load {Q : UInt8 → List UInt32 → Prop} {a : UInt32} :
    wp (load p a) E Q log ↔ Q (p.mem a) (a :: log) := by
  rw [load, wp_bind, wp_modify, wp_pure]

/-- The check of `fetchint` does not wrap around. -/
theorem lt_of_check (h : ¬(addr ≥ p.sz ∨ addr + 4 > p.sz)) : addr.toNat + 4 ≤ p.sz.toNat := by
  have hle := p.sz_le
  obtain ⟨h1, h2⟩ := not_or.1 h
  simp only [ge_iff_le, gt_iff_lt, lt_iff_toNat_lt,
    UInt32.le_iff_toNat_le, UInt32.toNat_add, UInt32.reduceToNat] at *
  omega

theorem add_lt_sz {k : UInt32} (h : addr.toNat + 4 ≤ p.sz.toNat) (hk : k.toNat < 4) :
    addr + k < p.sz := by
  rw [UInt32.lt_iff_toNat_lt, UInt32.toNat_add]
  omega

/-- **`fetchint`** reads four bytes of the process, or nothing. -/
theorem wp_fetchint (hlog : Inside p log) (hnone : Q none log)
    (hsome : ∀ i log', addr.toNat + 4 ≤ p.sz.toNat → Inside p log' → Q (some i) log') :
    wp (fetchint p addr) E Q log := by
  rw [fetchint]
  refine wp_ite.2 ⟨fun _ => wp_pure.2 hnone, fun hcheck => ?_⟩
  have hin := lt_of_check hcheck
  rw [wp_bind, loadInt]
  simp only [wp_bind, wp_load, wp_pure]
  refine hsome _ _ hin ?_
  have h0 := add_lt_sz (k := 0) hin (by decide)
  rw [UInt32.add_zero] at h0
  exact (((hlog.cons h0).cons (add_lt_sz hin (by decide))).cons
    (add_lt_sz hin (by decide))).cons (add_lt_sz hin (by decide))

/-- **The loop of `fetchstr`** reads up to the NUL or to the end of the process. -/
theorem wp_strLoop {pp : UInt32} (hnone : ∀ log', Inside p log' → Q none log')
    (hsome : ∀ len log', IsString p (pp, len) → Inside p log' → Q (some len) log') :
    ∀ (k : ℕ) {s : UInt32} {log : List UInt32}, p.sz.toNat - s.toNat ≤ k → pp ≤ s →
    (∀ i < s - pp, p.mem (pp + i) ≠ 0) → Inside p log → wp (strLoop p pp s) E Q log := by
  intro k
  induction k with
  | zero =>
    intro s log hk _ _ hlog
    rw [strLoop, if_neg ?_, wp_pure]
    · exact hnone log hlog
    · rw [lt_iff_toNat_lt]
      omega
  | succ k ih =>
    intro s log hk hpp hchars hlog
    rw [strLoop]
    refine wp_ite.2 ⟨fun hlt => ?_, fun _ => wp_pure.2 (hnone log hlog)⟩
    have hlog' : Inside p (s :: log) := hlog.cons hlt
    have hle := p.sz_le
    have hsub : (s - pp).toNat = s.toNat - pp.toNat := UInt32.toNat_sub_of_le s pp hpp
    have hadd : pp + (s - pp) = s := by grind
    simp only [lt_iff_toNat_lt, le_iff_toNat_le, reduceToNat] at hlt hle hpp
    have hnext : (s + 1).toNat = s.toNat + 1 := by
      rw [UInt32.toNat_add, UInt32.toNat_one]
      omega
    rw [wp_bind, wp_load]
    refine wp_ite.2 ⟨fun hc => ?_, fun hc => ?_⟩
    · rw [wp_pure]
      refine hsome _ _ ⟨?_, ?_, hchars⟩ hlog'
      · dsimp only
        omega
      · dsimp only
        rw [hadd, hc]
    · refine ih (by omega) ?_ (fun i hi => ?_) hlog'
      · rw [le_iff_toNat_le]
        omega
      · have hsub' : (s + 1 - pp).toNat = s.toNat + 1 - pp.toNat := by
          rw [UInt32.toNat_sub_of_le _ _ (by rw [UInt32.le_iff_toNat_le]; omega), hnext]
        by_cases hi' : i < s - pp
        · exact hchars i hi'
        · have heq : i = s - pp := by
            rw [lt_iff_toNat_lt] at hi hi'
            exact UInt32.toNat_inj.1 (by omega)
          rw [heq, hadd]
          exact hc

/-- **`fetchstr`** finds a string of the process, or reads to its end. -/
theorem wp_fetchstr {Q : Option (UInt32 × UInt32) → List UInt32 → Prop} (hlog : Inside p log)
    (hnone : ∀ log', Inside p log' → Q none log')
    (hsome : ∀ a log', IsString p a → Inside p log' → Q (some a) log') :
    wp (fetchstr p addr) E Q log := by
  rw [fetchstr]
  refine wp_ite.2 ⟨fun _ => wp_pure.2 (hnone log hlog), fun _ => ?_⟩
  rw [wp_bind]
  refine wp_strLoop (fun log' hlog' => ?_) (fun len log' hstr hlog' => ?_) _ (Nat.le_refl _)
    (UInt32.le_refl addr) (fun i hi => ?_) hlog
  · exact wp_pure.2 (hnone log' hlog')
  · exact wp_pure.2 (hsome _ log' hstr hlog')
  · rw [UInt32.sub_self] at hi
    exact absurd hi (UInt32.not_lt.2 (UInt32.zero_le))

theorem wp_argint {n : ℕ} (hlog : Inside p log) (hnone : Q none log)
    (hsome : ∀ i log', Inside p log' → Q (some i) log') : wp (argint p n) E Q log :=
  wp_fetchint hlog hnone fun i log' _ hlog' => hsome i log' hlog'

/-- **`argptr`** checks the range that it returns. -/
theorem wp_argptr {n : ℕ} {size : Int32}
    (hlog : Inside p log) (hnone : ∀ log', Inside p log' → Q none log')
    (hsome : ∀ i log', 0 ≤ size.toInt → i.toNat + size.toInt.toNat ≤ p.sz.toNat →
      Inside p log' → Q (some i) log') :
    wp (argptr p n size) E Q log := by
  rw [argptr, wp_bind]
  refine wp_argint hlog (wp_pure.2 (hnone log hlog)) fun i log' hlog' => ?_
  dsimp only
  refine wp_ite.2 ⟨fun _ => wp_pure.2 (hnone log' hlog'), fun hcheck => wp_pure.2 ?_⟩
  obtain ⟨h1, h2⟩ := not_or.1 hcheck
  obtain ⟨h2, h3⟩ := not_or.1 h2
  have hle := p.sz_le
  have hpos : 0 ≤ size.toInt := by
    rw [Int32.lt_iff_toInt_lt, Int32.toInt_zero] at h1
    omega
  have hsize : (size.toUInt32.toNat : ℤ) = size.toInt := by
    have hbv : size.toInt = size.toUInt32.toBitVec.toInt := rfl
    rw [hbv, BitVec.toInt_eq_toNat_cond] at hpos ⊢
    rw [toNat_toBitVec] at hpos ⊢
    have := size.toUInt32.toNat_lt
    split_ifs at hpos ⊢ <;> omega
  have hlt := size.toInt_lt
  refine hsome i log' hpos ?_ hlog'
  simp only [ge_iff_le, gt_iff_lt, lt_iff_toNat_lt,
    UInt32.le_iff_toNat_le, UInt32.toNat_add, UInt32.reduceToNat] at *
  omega

theorem wp_argstr {Q : Option (UInt32 × UInt32) → List UInt32 → Prop} {n : ℕ}
    (hlog : Inside p log) (hnone : ∀ log', Inside p log' → Q none log')
    (hsome : ∀ a log', IsString p a → Inside p log' → Q (some a) log') :
    wp (argstr p n) E Q log := by
  rw [argstr, wp_bind]
  refine wp_argint hlog (wp_pure.2 (hnone log hlog)) fun i log' hlog' => ?_
  exact wp_fetchstr hlog' hnone hsome

/-- **The loop of `sys_exec`** reads pointers and strings of the process. -/
theorem wp_execLoop {Q : Option (List (UInt32 × UInt32)) → List UInt32 → Prop} {uargv : UInt32} :
    ∀ {k : ℕ} {i : UInt32} {log : List UInt32}, Inside p log →
    (∀ log', Inside p log' → Q none log') →
    (∀ args log', args.length < k → (∀ a ∈ args, IsString p a) → Inside p log' →
      Q (some args) log') →
    wp (execLoop p uargv k i) E Q log := by
  intro k
  induction k generalizing Q with
  | zero =>
    intro i log hlog hnone _
    exact wp_pure.2 (hnone log hlog)
  | succ k ih =>
    intro i log hlog hnone hsome
    rw [execLoop, wp_bind]
    refine wp_fetchint hlog (wp_pure.2 (hnone log hlog)) fun uarg log1 _ hlog1 => ?_
    dsimp only
    refine wp_ite.2 ⟨fun _ => ?_, fun _ => ?_⟩
    · exact wp_pure.2 (hsome [] log1 (Nat.succ_pos k)
        (fun a ha => absurd ha List.not_mem_nil) hlog1)
    · rw [wp_bind]
      refine wp_fetchstr hlog1 (fun log2 hlog2 => wp_pure.2 (hnone log2 hlog2))
        fun arg log2 harg hlog2 => ?_
      dsimp only
      rw [wp_bind]
      refine ih hlog2 (fun log3 hlog3 => wp_pure.2 (hnone log3 hlog3))
        fun args log3 hlen hargs hlog3 => wp_pure.2 ?_
      refine hsome (arg :: args) log3 (Nat.succ_lt_succ hlen) (fun a ha => ?_) hlog3
      rcases List.mem_cons.1 ha with rfl | ha
      · exact harg
      · exact hargs a ha

theorem wp_sysExec {Q : Option ((UInt32 × UInt32) × List (UInt32 × UInt32)) → List UInt32 → Prop}
    (hlog : Inside p log) (hnone : ∀ log', Inside p log' → Q none log')
    (hsome : ∀ path argv log', IsString p path → argv.length < MAXARG →
      (∀ a ∈ argv, IsString p a) → Inside p log' → Q (some (path, argv)) log') :
    wp (sysExec p) E Q log := by
  rw [sysExec, wp_bind]
  refine wp_argstr hlog (fun log1 hlog1 => wp_pure.2 (hnone log1 hlog1))
    fun path log1 hpath hlog1 => ?_
  dsimp only
  rw [wp_bind]
  refine wp_argint hlog1 (wp_pure.2 (hnone log1 hlog1)) fun uargv log2 hlog2 => ?_
  dsimp only
  rw [wp_bind]
  exact wp_execLoop hlog2 (fun log3 hlog3 => wp_pure.2 (hnone log3 hlog3))
    fun argv log3 hlen hargv hlog3 => wp_pure.2 (hsome path argv log3 hpath hlen hargv hlog3)

end

/-- **User pointers are confined.** Whatever the process, its stack pointer, its memory, the number
of the argument, an address that it passes and the size that is checked, these functions return, and
load bytes inside the process only. The `size` bytes at a pointer that `argptr` returns are inside
the process, and so are the strings that `argstr` and `fetchstr` return and `sys_exec` passes on,
with their NULs. -/
theorem args_confined (p : Proc) (n : Fin 6) (size : Int32) (addr : UInt32) :
    wp (fetchint p addr) (fun _ => False) (fun r log => Inside p log ∧
      (r.isSome → addr.toNat + 4 ≤ p.sz.toNat)) [] ∧
    wp (fetchstr p addr) (fun _ => False) (fun r log => Inside p log ∧
      ∀ a ∈ r, IsString p a) [] ∧
    wp (argint p n) (fun _ => False) (fun _ log => Inside p log) [] ∧
    wp (argptr p n size) (fun _ => False) (fun r log => Inside p log ∧
      ∀ i ∈ r, 0 ≤ size.toInt ∧ i.toNat + size.toInt.toNat ≤ p.sz.toNat) [] ∧
    wp (argstr p n) (fun _ => False) (fun r log => Inside p log ∧
      ∀ a ∈ r, IsString p a) [] ∧
    wp (sysExec p) (fun _ => False) (fun r log => Inside p log ∧
      ∀ a ∈ r, IsString p a.1 ∧ a.2.length < MAXARG ∧ ∀ arg ∈ a.2, IsString p arg) [] := by
  have hnil : Inside p [] := fun a ha => absurd ha List.not_mem_nil
  refine ⟨?_, ?_, ?_, ?_, ?_, ?_⟩
  · exact wp_fetchint hnil ⟨hnil, nofun⟩ fun i log hin hlog => ⟨hlog, fun _ => hin⟩
  · refine wp_fetchstr hnil (fun log hlog => ⟨hlog, nofun⟩) fun a log ha hlog => ⟨hlog, ?_⟩
    rintro _ ⟨⟩
    exact ha
  · exact wp_argint hnil hnil fun i log hlog => hlog
  · refine wp_argptr hnil (fun log hlog => ⟨hlog, nofun⟩) fun i log h0 hin hlog => ⟨hlog, ?_⟩
    rintro _ ⟨⟩
    exact ⟨h0, hin⟩
  · refine wp_argstr hnil (fun log hlog => ⟨hlog, nofun⟩) fun a log ha hlog => ⟨hlog, ?_⟩
    rintro _ ⟨⟩
    exact ha
  · refine wp_sysExec hnil (fun log hlog => ⟨hlog, nofun⟩)
      fun path argv log hpath hlen hargv hlog => ⟨hlog, ?_⟩
    rintro _ ⟨⟩
    exact ⟨hpath, hlen, hargv⟩

end Xv6.Args
