/-
# The phases of exec

`exec` of `exec.c` in three parts: `execImage` makes the new space, from `setupkvm` to the stack,
`execArgs` copies the arguments to the stack, and the rest commits. `exec_eq` says that this is
`exec`.

`execArgsWith` copies the arguments with a given function to look up pages. With `checked` lookups
it returns only if `uva2ka` is never applied to an address without a page table, and then it does
what `execArgs` does (`execArgs_refines`).
-/
import Xv6.Vm.Kernel
import Xv6.Vm.Lookup

namespace Xv6.Vm

open Lib Ptable

variable {L : Layout} {p : Slot} {ip : File} {path : List UInt8} {argv : List (List UInt8)}

/-! ## The phases of exec -/

/-- The stack of a loaded program of the size `sz`: the size with the stack, or none for
`goto bad`. -/
def execSpace (L : Layout) (pgdir sz : ℕ) : Prog Phys (Option ℕ) := do
  let sz ← allocuvm L pgdir (PGROUNDUP sz) (PGROUNDUP sz + 2 * PGSIZE)
  if sz = 0 then pure none
  else do
    clearpteu pgdir (sz - 2 * PGSIZE)
    pure (some sz)

/-- The new space: its directory, the size of the program and the size with the stack. The sizes are
none for `goto bad`. -/
def execImage (L : Layout) (ip : File) : Prog Phys (Option (ℕ × Option (ℕ × ℕ))) := do
  match ← setupkvm L with
  | none => pure none
  | some pgdir => do
    match ← loadSegments L pgdir ip ip.elfhdr.phnum ip.elfhdr.phoff 0 with
    | none => pure (some (pgdir, none))
    | some sz => do
      match ← execSpace L pgdir sz with
      | none => pure (some (pgdir, none))
      | some sz' => pure (some (pgdir, some (sz, sz')))

/-- The arguments: the stack pointer, or none for `goto bad`. -/
def execArgs (cur pgdir : ℕ) (argv : List (List UInt8)) (sz : ℕ) : Prog Phys (Option ℕ) := do
  match ← pushArgs cur pgdir argv 0 sz [] with
  | none => pure none
  | some (sp, ptrs) => do
    let argc := argv.length
    let ustack := [0xffffffff, argc, subSp sp ((argc + 1) * 4)] ++ ptrs ++ [0]
    let sp := subSp sp ((3 + argc + 1) * 4)
    let r ← copyout cur pgdir sp (wordBytes ustack)
    if r < 0 then pure none else pure (some sp)

/-- `pushArgs`, with the function that looks up the pages. -/
def pushArgsWith (lookup : ℕ → Prog Phys (Option ℕ)) :
    List (List UInt8) → ℕ → ℕ → List ℕ → Prog Phys (Option (ℕ × List ℕ))
  | [], _, sp, ustack => pure (some (sp, ustack))
  | arg :: argv, argc, sp, ustack => do
    if argc ≥ MAXARG then pure none
    else do
      let sp := subSp sp (arg.length + 1) / 4 * 4
      let r ← copyoutWith lookup sp (arg ++ [0])
      if r < 0 then pure none
      else pushArgsWith lookup argv (argc + 1) sp (ustack ++ [sp])

/-- `execArgs`, with the function that looks up the pages. -/
def execArgsWith (lookup : ℕ → Prog Phys (Option ℕ)) (argv : List (List UInt8)) (sz : ℕ) :
    Prog Phys (Option ℕ) := do
  match ← pushArgsWith lookup argv 0 sz [] with
  | none => pure none
  | some (sp, ptrs) => do
    let argc := argv.length
    let ustack := [0xffffffff, argc, subSp sp ((argc + 1) * 4)] ++ ptrs ++ [0]
    let sp := subSp sp ((3 + argc + 1) * 4)
    let r ← copyoutWith lookup sp (wordBytes ustack)
    if r < 0 then pure none else pure (some sp)

/-- The arguments and the commit. -/
def execLaunch (L : Layout) (p : Slot) (ip : File) (path : List UInt8) (argv : List (List UInt8))
    (pgdir sz : ℕ) : Prog Kernel ℤ := do
  let k ← get
  let cur := (k.proc p).pgdir
  match ← onPhys (execArgs cur pgdir argv sz) with
  | none => bad L pgdir
  | some sp => do
    setProc p fun q =>
      { q with
        name := safestrcpy (lastElem path) 16
        pgdir := pgdir
        sz := sz
        tf := ⟨ip.elfhdr.entry, sp⟩ }
    onPhys (freevm L cur)
    pure 0

variable {k : Kernel} {d sz : ℕ} {E : Fail → Prop} {Q : ℤ → Kernel → Prop}

theorem wp_onPhys {α : Type} {m : Prog Phys α} {Q : α → Kernel → Prop} :
    wp (onPhys m) E Q k ↔ wp m E (fun a s => Q a { k with phys := s }) k.phys :=
  wp_zoom

theorem wp_setProc {f : Proc → Proc} {Q : Unit → Kernel → Prop} :
    wp (setProc p f) E Q k ↔
      Q () { k with proc := Function.update k.proc p (f (k.proc p)) } := by
  rw [setProc, wp_modify]

/-- The end of `exec`, from a loaded program on. -/
theorem wp_phases_of_execStack (h : wp (execStack L p ip path argv d sz) E Q k) :
    wp (onPhys (execSpace L d sz)) E (fun r => wp (match r with
      | none => bad L d
      | some sz' => execLaunch L p ip path argv d sz') E Q) k := by
  rw [execStack, wp_bind, wp_get] at h
  dsimp only at h
  rw [wp_bind, wp_onPhys] at h
  rw [wp_onPhys, execSpace, wp_bind]
  refine wp_mono h fun sz' s h => ?_
  split_ifs at h ⊢ with h0
  · exact wp_pure.2 h
  rw [wp_bind, wp_onPhys] at h
  rw [wp_bind]
  refine wp_mono h fun _ s h => wp_pure.2 ?_
  rw [wp_bind, wp_onPhys] at h
  dsimp only
  rw [execLaunch, wp_bind, wp_get]
  dsimp only
  rw [wp_bind, wp_onPhys, execArgs, wp_bind]
  refine wp_mono h fun r s h => ?_
  cases r with
  | none => exact wp_pure.2 h
  | some x =>
    dsimp only at h ⊢
    rw [wp_bind, wp_onPhys] at h
    rw [wp_bind]
    refine wp_mono h fun r s h => ?_
    split_ifs at h ⊢ <;> exact wp_pure.2 h

/-- **`exec` is its phases.** -/
theorem exec_eq : exec L p (some ip) path argv k = (do
    if ip.readi 0 elfhdrSize ≠ elfhdrSize then pure (-1)
    else if ip.elfhdr.magic ≠ ELF_MAGIC then pure (-1)
    else
      match ← onPhys (execImage L ip) with
      | none => pure (-1)
      | some (d, none) => bad L d
      | some (d, some (_, sz)) => execLaunch L p ip path argv d sz : Prog Kernel ℤ) k := by
  refine eq_of_wp fun E Q h => ?_
  unfold exec at h
  dsimp only at h
  split_ifs at h ⊢
  · exact h
  · exact h
  rw [wp_bind, wp_onPhys] at h ⊢
  rw [execImage, wp_bind]
  refine wp_mono h fun r s h => ?_
  cases r with
  | none => exact wp_pure.2 h
  | some d =>
    rw [wp_bind, wp_onPhys] at h
    rw [wp_bind]
    refine wp_mono h fun r s h => ?_
    cases r with
    | none => exact wp_pure.2 h
    | some sz =>
      rw [wp_bind]
      refine wp_mono (wp_onPhys.1 (wp_phases_of_execStack h)) fun r s h => ?_
      cases r <;> exact wp_pure.2 h

/-- **The arguments are copied as with `checked` lookups.** -/
theorem execArgs_refines (cur : ℕ) :
    Refines (execArgsWith (checked d) argv sz) (execArgs cur d argv sz) := by
  have hpush : ∀ (argv : List (List UInt8)) (argc sp : ℕ) (us : List ℕ),
      Refines (pushArgsWith (checked d) argv argc sp us) (pushArgs cur d argv argc sp us) := by
    intro argv
    induction argv with
    | nil => exact fun _ _ _ => .refl _
    | cons arg argv ih =>
      intro argc sp us
      rw [pushArgsWith, pushArgs]
      dsimp only
      split_ifs
      · exact .refl _
      · refine (copyout_refines _ _).bind fun r => ?_
        split_ifs
        · exact .refl _
        · exact ih _ _ _
  refine (hpush _ _ _ _).bind fun r => ?_
  cases r with
  | none => exact .refl _
  | some x => exact (copyout_refines _ _).bind fun r => .refl _

end Xv6.Vm
