/-
# Every reference to a file is counted

The invariant behind the counts of `ftable` and the flags of the pipes, over any
interleaving of the steps of `Ftable.State.step`.

A process holds references in its descriptors and in the local variables of the call
it is in; a descriptor that `sys_dup` has filled before `filedup`, or that `exit` has
not cleared after `fileclose`, is not counted (`Proc.net`).  The `ref` of an entry is
the sum over the processes (`Inv.ref`).  An end of a pipe is open as long as the entry
of its file is in use or its `pipeclose` is still to come, and there is exactly one
such thing for each flag that is set (`Inv.ends`).

`file_refs` reads this off when no call is in progress.
-/

import Xv6.File.Table
import Xv6.Lib.Counting

namespace Xv6.Ftable

open Finset Function Lib Nat Option State

variable {s s' : State} {o : Fd → Option Entry} {f : Entry} {P : Proc} {fd : Fd} {p np : Slot}
  {x : File} {t : Entry → File} {k : Kont} {page : Option ℕ} {w : Bool} {c : Pc} {a n : ℕ}

/-! ### What is counted -/

/-- 1 if the two are the same. -/
def one (f f' : Entry) : ℕ := if f = f' then 1 else 0

theorem one_self (f : Entry) : one f f = 1 := if_pos rfl

/-- The number of descriptors that refer to `f`. -/
@[irreducible] def slots (o : Fd → Option Entry) (f : Entry) : ℕ :=
  ∑ fd, if o fd = some f then 1 else 0

/-- The references a call holds while `fileclose` runs for it. -/
def Kont.holds : Kont → Entry → ℕ
  | pipe f', f => one f' f
  | _, _ => 0

/-- The references a call holds in its local variables. -/
def Pc.holds : Pc → Entry → ℕ
  | openFd _ _ f', f | pipeAlloc1 f', f | pipeFd1 _ f' _, f | forkStore _ _ f', f => one f' f
  | pipeKalloc f0 f1, f | pipeFd0 f0 f1, f => one f0 f + one f1 f
  | fileclose _ (.exit _), _ => 0
  | fileclose f' k, f => one f' f + k.holds f
  | pipeclose _ _ k, f => k.holds f
  | _, _ => 0

/-- The descriptor that has no reference of its own: not yet in `sys_dup`, no longer in `exit`. -/
def Pc.loose : Pc → Option Fd
  | dup _ fd | exitStore fd | pipeclose _ _ (.exit fd) => some fd
  | _ => none

/-- The descriptors that have a reference. -/
def Proc.counted (P : Proc) : Fd → Option Entry :=
  match P.pc.loose with
  | some fd => update P.ofile fd none
  | none => P.ofile

/-- The references of a process. -/
def Proc.net (P : Proc) (f : Entry) : ℕ := slots P.counted f + P.pc.holds f

/-- An entry the call has allocated and not set yet. -/
def Pc.fresh : Pc → Entry → Prop
  | openFd _ _ f', f | openSet _ _ f' _, f | pipeAlloc1 f', f => f' = f
  | pipeKalloc f0 f1, f => f0 = f ∨ f1 = f
  | _, _ => False

/-- The new process of a `fork`, and the descriptor it is at. -/
def Pc.child : Pc → Option (Slot × ℕ)
  | forkDup np fd => some (np, fd)
  | forkStore np fd _ => some (np, fd)
  | _ => none

/-- A `fork` that goes on from `c` to `c'` has the same new process. -/
def Pc.Forks (c c' : Pc) : Prop :=
  ∀ np n, c'.child = some (np, n) → ∃ m, c.child = some (np, m) ∧ m ≤ n

/-- The descriptors that `exit` has cleared. -/
def Kont.Wf (o : Fd → Option Entry) : Kont → Prop
  | exit fd => ∀ j, j < fd → o j = none
  | _ => True

/-- What the local variables of a call say about the descriptors of its process. -/
def Proc.Wf (P : Proc) : Prop :=
  match P.pc with
  | .openSet _ _ f fd | .pipeFd1 f _ fd => P.ofile fd = some f
  | .dup f fd => P.ofile fd = some f ∧ ∃ fd', fd' ≠ fd ∧ P.ofile fd' = some f
  | .exitFd n => ∀ j : Fd, j.val < n → P.ofile j = none
  | .exitStore fd => Kont.Wf P.ofile (.exit fd)
  | .fileclose f (.exit fd) => P.ofile fd = some f ∧ Kont.Wf P.ofile (.exit fd)
  | .pipeclose _ _ k => k.Wf P.ofile
  | _ => True

/-- The entry is in use, for the end `w` of the pipe at `a`. -/
def File.isEnd (x : File) (a : ℕ) (w : Bool) : Prop :=
  0 < x.ref ∧ x.type = .pipe ∧ x.pipe = a ∧ x.writable = w

instance (x : File) (a : ℕ) (w : Bool) : Decidable (x.isEnd a w) :=
  inferInstanceAs (Decidable (_ ∧ _ ∧ _ ∧ _))

/-- 1 if the call is about to run `pipeclose(a, w)`. -/
def Pc.closing : Pc → ℕ → Bool → ℕ
  | pipeclose a' w' _, a, w => if a' = a ∧ w' = w then 1 else 0
  | _, _, _ => 0

/-- The number of entries for the end `w` of the pipe at `a`. -/
@[irreducible] def endFiles (t : Entry → File) (a : ℕ) (w : Bool) : ℕ :=
  ∑ f, if (t f).isEnd a w then 1 else 0

/-- The number of things that keep the end `w` of the pipe at `a` open. -/
def State.ends (s : State) (a : ℕ) (w : Bool) : ℕ :=
  endFiles s.file a w + ∑ p, (s.proc p).pc.closing a w

/-- `writeopen` or `readopen`. -/
def Pipe.isOpen (q : Pipe) (w : Bool) : Bool := if w then q.writeopen else q.readopen

/-- 1 if the end `w` of the pipe at `a` is open. -/
def State.openEnd (s : State) (a : ℕ) (w : Bool) : ℕ :=
  if s.used a = true ∧ (s.page a).isOpen w = true then 1 else 0

/-- What holds after every step. -/
structure Inv (s : State) : Prop where
  ref : ∀ f, (s.file f).ref = ∑ p, (s.proc p).net f
  free : ∀ f, (s.file f).ref = 0 → (s.file f).type = .none
  fresh : ∀ p f, (s.proc p).pc.fresh f → (s.file f).type = .none ∧ (s.file f).ref = 1
  wf : ∀ p, (s.proc p).Wf
  child : ∀ p np n, (s.proc p).pc.child = some (np, n) →
    (s.proc np).life = .embryo ∧ ∀ j : Fd, n ≤ j.val → (s.proc np).ofile j = none
  owner : ∀ p q np m n, (s.proc p).pc.child = some (np, m) → (s.proc q).pc.child = some (np, n) →
    p = q
  idle : ∀ p, (s.proc p).life ≠ .live → (∃ r, (s.proc p).pc = .user r) ∧
    ((s.proc p).life ≠ .embryo → ∀ j, (s.proc p).ofile j = none)
  ends : ∀ a w, s.ends a w = s.openEnd a w
  half : ∀ a, s.used a = true → (s.page a).readopen = true ∨ (s.page a).writeopen = true

theorem slots_none (f : Entry) : slots (fun _ => none) f = 0 := by
  simp [slots]

theorem slots_update (o : Fd → Option Entry) (fd : Fd) (v : Option Entry) (f : Entry) :
    slots (update o fd v) f + (if o fd = some f then 1 else 0) =
      slots o f + if v = some f then 1 else 0 := by
  unfold slots
  exact sum_update (fun x => if x = some f then 1 else 0) o fd v

theorem le_slots {d : Fd} (h : o d = some f) : 0 < slots o f := by
  have := le_sum (fun x => if x = some f then 1 else 0) o d
  rw [if_pos h] at this
  unfold slots
  exact this

theorem Proc.net_of_loose (h : P.pc.loose = none) (f : Entry) :
    P.net f = slots P.ofile f + P.pc.holds f := by
  unfold Proc.net Proc.counted
  rw [h]

theorem Proc.net_at (hpc : P.pc = c) (h : c.loose = none) (f : Entry) :
    P.net f = slots P.ofile f + c.holds f := by
  subst hpc
  exact Proc.net_of_loose h f

/-- The references of a process with a descriptor that is not counted. -/
theorem Proc.net_add_loose (h : P.pc.loose = some fd) (f : Entry) :
    P.net f + (if P.ofile fd = some f then 1 else 0) = slots P.ofile f + P.pc.holds f := by
  have hs := slots_update P.ofile fd none f
  unfold Proc.net Proc.counted
  rw [h]
  dsimp only
  simp only [reduceCtorEq, if_false] at hs
  omega

theorem inv_init : Inv State.init where
  ref f := by
    have hnet : ∀ p, (init.proc p).net f = 0 := fun p => by
      rw [Proc.net_of_loose rfl]
      change slots (fun _ => none) f + 0 = 0
      rw [slots_none]
    simp only [hnet, sum_const_zero]
    rfl
  free _ _ := rfl
  fresh _ _ h := h.elim
  wf _ := trivial
  child _ _ _ h := by cases h
  owner _ _ _ _ _ h := by cases h
  idle _ _ := ⟨⟨0, rfl⟩, fun _ _ => rfl⟩
  ends a w := by
    have h1 : endFiles init.file a w = 0 := by
      unfold endFiles
      exact sum_eq_zero fun f _ => if_neg fun h => absurd h.1 (lt_irrefl 0)
    have h2 : ∑ p, (init.proc p).pc.closing a w = 0 := sum_eq_zero fun p _ => rfl
    unfold ends openEnd
    rw [h1, h2, if_neg fun h => absurd h.1 Bool.false_ne_true]
  half _ h := by cases h

/-- A process with a reference to an entry keeps it in use. -/
theorem Inv.net_le (h : Inv s) (p : Slot) (f : Entry) : (s.proc p).net f ≤ (s.file f).ref := by
  rw [h.ref f]
  exact le_sum (fun P : Proc => P.net f) s.proc p

/-- Two processes with references to an entry are both counted. -/
theorem Inv.net_add_le (h : Inv s) {q : Slot} (hpq : p ≠ q) (f : Entry) :
    (s.proc p).net f + (s.proc q).net f ≤ (s.file f).ref := by
  rw [h.ref f, ← sum_pair (f := fun r => (s.proc r).net f) hpq]
  exact sum_le_univ_sum_of_nonneg fun _ => zero_le _

/-- A call has a reference to an entry it has allocated. -/
theorem Proc.Wf.net_pos (h : P.Wf) (hf : P.pc.fresh f) : 0 < P.net f := by
  have hloose : P.pc.loose = none := by
    cases hpc : P.pc <;> rw [hpc] at hf <;> first | rfl | exact hf.elim
  rw [Proc.net_of_loose hloose]
  unfold Proc.Wf at h
  cases hpc : P.pc <;> rw [hpc] at hf <;> simp only [hpc] at h <;> try exact hf.elim
  case openSet =>
    cases hf
    exact Nat.add_pos_left (le_slots h) _
  case openFd | pipeAlloc1 =>
    cases hf
    exact Nat.add_pos_right _ (by simp [Pc.holds, one])
  case pipeKalloc =>
    refine Nat.add_pos_right _ ?_
    rcases hf with rfl | rfl
    · simp [Pc.holds, one]
    · simp [Pc.holds, one]

theorem Inv.wf_at (h : Inv s) (hpc : (s.proc p).pc = c) :
    ({ s.proc p with pc := c } : Proc).Wf := by
  rw [← hpc]
  exact h.wf p

/-! ### A step of one process -/

/-- The rule for a step of process `p` that changes its own entry and files it has a reference
to, or that are free. -/
theorem Inv.own (h : Inv s) (hproc : s'.proc = update s.proc p P)
    (hemb : (s.proc p).life ≠ .embryo)
    (hidle : P.life ≠ .live → (∃ r, P.pc = .user r) ∧ ∀ j, P.ofile j = none)
    (href : ∀ f, (s'.file f).ref + (s.proc p).net f = (s.file f).ref + P.net f)
    (htouch : ∀ f, (s.file f).ref ≠ 0 → (s.proc p).net f = 0 → s'.file f = s.file f)
    (hfree : ∀ f, (s'.file f).ref = 0 → (s'.file f).type = .none)
    (hfresh : ∀ f, P.pc.fresh f → (s'.file f).type = .none ∧ (s'.file f).ref = 1)
    (hwf : P.Wf)
    (hchild : (s.proc p).pc.Forks P.pc)
    (hends : ∀ a w, s'.ends a w = s'.openEnd a w)
    (hhalf : ∀ a, s'.used a = true →
      (s'.page a).readopen = true ∨ (s'.page a).writeopen = true) : Inv s' := by
  have hself : s'.proc p = P := by rw [hproc, update_self]
  have hother : ∀ q, q ≠ p → s'.proc q = s.proc q := fun q hq => by
    rw [hproc, update_of_ne hq]
  have hchild' : ∀ q, (s.proc q).pc.Forks (s'.proc q).pc := fun q np n hc => by
    by_cases hq : q = p
    · rw [hq, hself] at hc
      rw [hq]
      exact hchild np n hc
    · rw [hother q hq] at hc
      exact ⟨n, hc, le_refl n⟩
  refine ⟨fun f => ?_, hfree, fun q f hf => ?_, fun q => ?_, fun q np n hc => ?_,
    fun q r np m n hq hr => ?_, fun q hq => ?_, hends, hhalf⟩
  · have hsum := sum_update (fun P : Proc => P.net f) s.proc p P
    rw [← hproc] at hsum
    have := h.ref f
    have := href f
    omega
  · by_cases hq : q = p
    · rw [hq, hself] at hf
      exact hfresh f hf
    · rw [hother q hq] at hf
      obtain ⟨h1, h2⟩ := h.fresh q f hf
      have hpos := (h.wf q).net_pos hf
      have hle := h.net_add_le hq f
      rw [htouch f (by omega) (by omega)]
      exact ⟨h1, h2⟩
  · by_cases hq : q = p
    · rw [hq, hself]
      exact hwf
    · rw [hother q hq]
      exact h.wf q
  · obtain ⟨m, hm, hmn⟩ := hchild' q np n hc
    obtain ⟨h1, h2⟩ := h.child q np m hm
    rw [hother np fun he => hemb (he ▸ h1)]
    exact ⟨h1, fun j hj => h2 j (hmn.trans hj)⟩
  · obtain ⟨m', hm', -⟩ := hchild' q np m hq
    obtain ⟨n', hn', -⟩ := hchild' r np n hr
    exact h.owner q r np m' n' hm' hn'
  · by_cases hqp : q = p
    · rw [hqp, hself] at hq ⊢
      exact ⟨(hidle hq).1, fun _ => (hidle hq).2⟩
    · rw [hother q hqp] at hq ⊢
      exact h.idle q hq

theorem endFiles_update (t : Entry → File) (f : Entry) (x : File) (a : ℕ) (w : Bool) :
    endFiles (update t f x) a w + (if (t f).isEnd a w then 1 else 0) =
      endFiles t a w + if x.isEnd a w then 1 else 0 := by
  unfold endFiles
  exact sum_update (fun x : File => if x.isEnd a w then 1 else 0) t f x

theorem closing_update (u : Slot → Proc) (p : Slot) (P : Proc) (a : ℕ) (w : Bool) :
    ∑ q, (update u p P q).pc.closing a w + (u p).pc.closing a w =
      ∑ q, (u q).pc.closing a w + P.pc.closing a w :=
  sum_update (fun P : Proc => P.pc.closing a w) u p P

/-- The rule for a step of process `p` that changes its own entry only. -/
theorem Inv.quiet (h : Inv s) (hemb : (s.proc p).life ≠ .embryo)
    (hidle : P.life ≠ .live → (∃ r, P.pc = .user r) ∧ ∀ j, P.ofile j = none)
    (hnet : ∀ f, P.net f = (s.proc p).net f) (hfresh : ∀ f, P.pc.fresh f → (s.proc p).pc.fresh f)
    (hwf : P.Wf) (hchild : (s.proc p).pc.Forks P.pc)
    (hclosing : ∀ a w, P.pc.closing a w = (s.proc p).pc.closing a w) : Inv (s.set p P) := by
  refine h.own rfl hemb hidle (fun f => ?_) (fun f _ _ => rfl) h.free
    (fun f hf => h.fresh p f (hfresh f hf)) hwf hchild (fun a w => ?_) h.half
  · rw [hnet]
    rfl
  · have hsum := closing_update s.proc p P a w
    have hc := hclosing a w
    have he := h.ends a w
    change endFiles s.file a w + ∑ q, (update s.proc p P q).pc.closing a w = s.openEnd a w
    unfold State.ends at he
    omega

theorem Life.not_embryo {l : Life} (h : l = .live) : l ≠ .embryo := by
  rw [h]
  simp

/-- The rule for a step of process `p` that changes one file. -/
theorem Inv.file (h : Inv s)
    (hlive : (s.proc p).life = .live) (hlive' : P.life = .live)
    (href : x.ref + (s.proc p).net f = (s.file f).ref + P.net f)
    (hnet : ∀ f', f' ≠ f → P.net f' = (s.proc p).net f')
    (htouch : (s.file f).ref = 0 ∨ 0 < (s.proc p).net f)
    (hfree : x.ref = 0 → x.type = .none)
    (hfresh : ∀ f', P.pc.fresh f' → f' = f ∧ x.type = .none ∧ x.ref = 1 ∨
      f' ≠ f ∧ (s.proc p).pc.fresh f') (hwf : P.Wf)
    (hchild : (s.proc p).pc.Forks P.pc)
    (hends : ∀ a w, (if x.isEnd a w then 1 else 0) + P.pc.closing a w =
      (if (s.file f).isEnd a w then 1 else 0) + (s.proc p).pc.closing a w) :
    Inv { s.set p P with file := update s.file f x } := by
  refine h.own (p := p) (P := P) rfl (Life.not_embryo hlive) (absurd hlive') (fun f' => ?_)
    (fun f' h1 h2 => ?_)
    (fun f' hf => ?_) (fun f' hf => ?_) hwf hchild (fun a w => ?_) h.half
  · change (update s.file f x f').ref + _ = _
    by_cases hff : f' = f
    · rw [hff, update_self]
      exact href
    · rw [update_of_ne hff, hnet f' hff]
  · change update s.file f x f' = _
    have hff : f' ≠ f := fun he => by
      rw [he] at h1 h2
      omega
    rw [update_of_ne hff]
  · change (update s.file f x f').ref = 0 at hf
    change (update s.file f x f').type = _
    rw [update_apply] at hf ⊢
    split_ifs at hf ⊢
    · exact hfree hf
    · exact h.free f' hf
  · change (update s.file f x f').type = _ ∧ (update s.file f x f').ref = 1
    rcases hfresh f' hf with ⟨rfl, hx⟩ | ⟨hff, hf⟩
    · rw [update_self]
      exact hx
    · rw [update_of_ne hff]
      exact h.fresh p f' hf
  · have hsum := closing_update s.proc p P a w
    have hfile := endFiles_update s.file f x a w
    have hx := hends a w
    have he := h.ends a w
    change endFiles (update s.file f x) a w +
      ∑ q, (update s.proc p P q).pc.closing a w = s.openEnd a w
    unfold State.ends at he
    omega

/-! ### The functions of the table -/

theorem filealloc_spec {t' : Entry → File} (h : filealloc t = some (f, t')) :
    (t f).ref = 0 ∧ t' = update t f { t f with ref := 1 } := by
  obtain ⟨f', hf, he⟩ := map_eq_some_iff.1 h
  cases he
  have := List.find?_some hf
  exact ⟨by simpa using this, rfl⟩

theorem fdalloc_spec {o' : Fd → Option Entry}
    (h : fdalloc o f = some (fd, o')) : o fd = none ∧ o' = update o fd (some f) := by
  obtain ⟨fd', hf, he⟩ := map_eq_some_iff.1 h
  cases he
  have := List.find?_some hf
  exact ⟨by simpa using this, rfl⟩

theorem argfd_spec {n : ℤ} (h : argfd o n = some (fd, f)) : o fd = some f := by
  unfold argfd at h
  split_ifs at h
  obtain ⟨f', hf, he⟩ := map_eq_some_iff.1 h
  cases he
  exact hf

/-- A descriptor that is filled adds one. -/
theorem slots_fill (h : o fd = none) (f' f : Entry) :
    slots (update o fd (some f')) f = slots o f + one f' f := by
  have hs := slots_update o fd (some f') f
  rw [h] at hs
  simp only [reduceCtorEq, if_false, some.injEq] at hs
  unfold one
  omega

/-- A descriptor that is cleared takes one away. -/
theorem slots_clear {f' : Entry} (h : o fd = some f')
    (f : Entry) : slots (update o fd none) f + one f' f = slots o f := by
  have hs := slots_update o fd none f
  rw [h] at hs
  simp only [reduceCtorEq, if_false, some.injEq] at hs
  unfold one
  omega

theorem not_isEnd_of_type (h : x.type ≠ .pipe) (a : ℕ) (w : Bool) : ¬x.isEnd a w :=
  fun he => h he.2.1

theorem isEnd_ref (hn : 0 < n) (hx : 0 < x.ref) (a : ℕ) (w : Bool) :
    ({ x with ref := n } : File).isEnd a w ↔ x.isEnd a w :=
  and_congr_left fun _ => ⟨fun _ => hx, fun _ => hn⟩

/-- `filealloc` gives the call a file of no type. -/
theorem Inv.filealloc (h : Inv s) (ha : filealloc s.file = some (f, t))
    (hlive : (s.proc p).life = .live) (hloose : (s.proc p).pc.loose = none)
    (hloose' : c.loose = none) (hholds : ∀ f', c.holds f' = (s.proc p).pc.holds f' + one f f')
    (hfresh : ∀ f', c.fresh f' → f' = f ∨ (s.proc p).pc.fresh f')
    (hwf : ({ s.proc p with pc := c } : Proc).Wf) (hchild : c.child = none)
    (hclosing : ∀ a w, c.closing a w = (s.proc p).pc.closing a w) :
    Inv { s.goto p c with file := t } := by
  obtain ⟨h0, rfl⟩ := filealloc_spec ha
  have hnet : ∀ f', ({ s.proc p with pc := c } : Proc).net f' = (s.proc p).net f' + one f f' :=
    fun f' => by
      rw [Proc.net_of_loose hloose', Proc.net_of_loose hloose]
      change slots (s.proc p).ofile f' + c.holds f' = _
      rw [hholds]
      omega
  have htype := h.free f h0
  have hle := h.net_le p f
  refine h.file hlive hlive ?_ (fun f' hf => ?_) (.inl h0) (fun h => absurd h one_ne_zero)
    (fun f' hf => ?_) hwf (fun np n hc => ?_) (fun a w => ?_)
  · rw [hnet, one_self, h0]
    change 1 + _ = _
    omega
  · rw [hnet, one, if_neg (Ne.symm hf), add_zero]
  · by_cases hff : f' = f
    · exact .inl ⟨hff, htype, rfl⟩
    · exact .inr ⟨hff, (hfresh f' hf).resolve_left hff⟩
  · rw [hchild] at hc
    cases hc
  · have hn : (s.file f).type ≠ .pipe := by
      rw [htype]
      decide
    have hn' := not_isEnd_of_type (x := { s.file f with ref := 1 }) hn a w
    rw [if_neg hn', if_neg (not_isEnd_of_type hn a w)]
    exact congrArg (0 + ·) (hclosing a w)

/-- `filedup` does not panic on a file the process has a reference to. -/
theorem Inv.filedup (h : Inv s) (hlive : (s.proc p).life = .live) (hlive' : P.life = .live)
    (hpos : 0 < (s.proc p).net f) (hnet : ∀ f', P.net f' = (s.proc p).net f' + one f f')
    (hfresh : ∀ f', ¬P.pc.fresh f') (hwf : P.Wf) (hchild : (s.proc p).pc.Forks P.pc)
    (hclosing : ∀ a w, P.pc.closing a w = (s.proc p).pc.closing a w) :
    ∃ t, filedup s.file f = .ok t ∧ Inv { s.set p P with file := t } := by
  have hle := h.net_le p f
  refine ⟨_, if_neg (by omega), ?_⟩
  refine h.file hlive hlive' ?_ (fun f' hf => ?_) (.inr hpos) (fun h => absurd h (by simp))
    (fun f' hf => absurd hf (hfresh f')) hwf hchild (fun a w => ?_)
  · rw [hnet, one_self]
    dsimp only
    omega
  · rw [hnet, one, if_neg (Ne.symm hf), add_zero]
  · simp only [isEnd_ref (succ_pos _) (show 0 < (s.file f).ref by omega), hclosing]

theorem Kont.resume_fresh (k : Kont) (f : Entry) : ¬k.resume.fresh f := by
  cases k <;> exact id

theorem Kont.resume_child (k : Kont) : k.resume.child = none := by
  cases k <;> rfl

theorem Kont.resume_closing (k : Kont) (a : ℕ) (w : Bool) : k.resume.closing a w = 0 := by
  cases k <;> rfl

theorem Kont.resume_wf (h : k.Wf P.ofile) : ({ P with pc := k.resume } : Proc).Wf := by
  cases k with
  | ret r => trivial
  | pipe f => trivial
  | exit fd => exact h

/-- The references of a call that returns from `fileclose`, before and after its `pipeclose`. -/
theorem Kont.net_resume (P : Proc) (k : Kont) (a : ℕ) (w : Bool) (f : Entry) :
    ({ P with pc := k.resume } : Proc).net f =
    ({ P with pc := .pipeclose a w k } : Proc).net f := by
  cases k <;> rfl

/-- The last thing `fileclose` does under the lock is to drop the reference of its caller. -/
theorem net_fileclose (hpc : P.pc = .fileclose f k) (h : P.Wf) (a : ℕ) (w : Bool) (f' : Entry) :
    ({ P with pc := .pipeclose a w k } : Proc).net f' + one f f' = P.net f' := by
  rw [Proc.net_at hpc rfl]
  cases k with
  | ret r =>
    rw [Proc.net_of_loose rfl]
    change slots P.ofile f' + 0 + one f f' = slots P.ofile f' + (one f f' + 0)
    omega
  | pipe f1 =>
    rw [Proc.net_of_loose rfl]
    change slots P.ofile f' + one f1 f' + one f f' = slots P.ofile f' + (one f f' + one f1 f')
    omega
  | exit fd =>
    rw [Proc.Wf, hpc] at h
    exact slots_clear h.1 f'

theorem wf_fileclose (hpc : P.pc = .fileclose f k) (h : P.Wf) : k.Wf P.ofile := by
  cases k with
  | ret r => trivial
  | pipe f1 => trivial
  | exit fd =>
    rw [Proc.Wf, hpc] at h
    exact h.2

variable (h : Inv s) (hlive : (s.proc p).life = .live)

include h hlive

/-- The section of `fileclose` under the lock, with the entry `x` it leaves. -/
theorem Inv.drop (hpc : (s.proc p).pc = .fileclose f k)
    (hc : c = k.resume ∨ ∃ a w, c = .pipeclose a w k) (href : x.ref + 1 = (s.file f).ref)
    (hfree : x.ref = 0 → x.type = .none)
    (hends : ∀ a w, (if x.isEnd a w then 1 else 0) + c.closing a w =
      if (s.file f).isEnd a w then 1 else 0) :
    Inv { s.goto p c with file := update s.file f x } := by
  have hkwf := wf_fileclose hpc (h.wf p)
  obtain ⟨hnet, hfresh, hwf, hchild⟩ : (∀ f', ({ s.proc p with pc := c } : Proc).net f' +
      one f f' = (s.proc p).net f') ∧ (∀ f', ¬c.fresh f') ∧
      ({ s.proc p with pc := c } : Proc).Wf ∧ c.child = none := by
    rcases hc with rfl | ⟨a, w, rfl⟩
    · refine ⟨fun f' => ?_, k.resume_fresh, Kont.resume_wf hkwf, k.resume_child⟩
      rw [Kont.net_resume (s.proc p) k 0 false f']
      exact net_fileclose hpc (h.wf p) 0 false f'
    · exact ⟨net_fileclose hpc (h.wf p) a w, fun _ => id, hkwf, rfl⟩
  have hself := hnet f
  rw [one_self] at hself
  refine h.file hlive hlive ?_ (fun f' hf => ?_) (.inr (by omega)) hfree
    (fun f' hf => absurd hf (hfresh f')) hwf (fun np n hc' => ?_) (fun a w => ?_)
  · omega
  · have := hnet f'
    rwa [one, if_neg (Ne.symm hf), add_zero] at this
  · exact absurd (hchild.symm.trans hc') (by simp)
  · refine (hends a w).trans ?_
    rw [hpc]
    rfl

/-- `fileclose` does not panic, and an end of a pipe whose last reference it drops is kept open
until its `pipeclose`. -/
theorem Inv.fileclose (hpc : (s.proc p).pc = .fileclose f k) :
    ∃ s', s.next p page = some (.ok s') ∧ Inv s' := by
  have hpos := net_fileclose hpc (h.wf p) 0 false f
  rw [one_self] at hpos
  have hle := h.net_le p f
  unfold next Ftable.fileclose
  simp only [hpc]
  rw [if_neg (by omega)]
  by_cases hlast : 0 < (s.file f).ref - 1
  · rw [if_pos hlast]
    refine ⟨_, rfl, h.drop hlive hpc (.inl rfl) (by dsimp only; omega)
      (fun h0 => by dsimp only at h0; omega) fun a w => ?_⟩
    rw [k.resume_closing]
    simp only [isEnd_ref hlast (show 0 < (s.file f).ref by omega), add_zero]
  · rw [if_neg hlast]
    have hends : ∀ a w, ¬({ s.file f with ref := 0, type := .none } : File).isEnd a w :=
      not_isEnd_of_type (by simp)
    by_cases htype : (s.file f).type = .pipe
    · refine ⟨{ s.goto p (.pipeclose (s.file f).pipe (s.file f).writable k) with
        file := update s.file f { s.file f with ref := 0, type := .none } }, ?_,
        h.drop hlive hpc (.inr ⟨_, _, rfl⟩) (by dsimp only; omega) (fun _ => rfl) fun a w => ?_⟩
      · simp only [Except.map, htype]
        rfl
      · rw [if_neg (hends a w), zero_add]
        refine if_congr ⟨fun he => ⟨by omega, htype, he.1, he.2⟩, fun he => he.2.2⟩ rfl rfl
    · refine ⟨{ s.goto p k.resume with
        file := update s.file f { s.file f with ref := 0, type := .none } }, ?_,
        h.drop hlive hpc (.inl rfl) (by dsimp only; omega) (fun _ => rfl) fun a w => ?_⟩
      · simp only [Except.map]
        rfl
      · rw [if_neg (hends a w), if_neg (not_isEnd_of_type htype a w), k.resume_closing]

/-! ### Pipes -/

/-- `pipealloc` opens both ends of a page that was not in use. -/
theorem Inv.pipeInit {f0 f1 : Entry} (hpc : (s.proc p).pc = .pipeKalloc f0 f1)
    (ha : s.used a = false) : Inv ((s.pipeInit a f0 f1).goto p (.pipeFd0 f0 f1)) := by
  obtain ⟨ht0, hr0⟩ := h.fresh p f0 (by rw [hpc]; exact .inl rfl)
  obtain ⟨ht1, hr1⟩ := h.fresh p f1 (by rw [hpc]; exact .inr rfl)
  have hnet : ∀ f, (s.proc p).net f = slots (s.proc p).ofile f + (one f0 f + one f1 f) :=
    Proc.net_at hpc rfl
  have hne : f1 ≠ f0 := fun he => by
    have hle := h.net_le p f0
    rw [hnet, he, one_self] at hle
    omega
  obtain ⟨x0, x1, hfile, hx0, hx1⟩ : ∃ x0 x1, (s.pipeInit a f0 f1).file =
      update (update s.file f0 x0) f1 x1 ∧
      (x0.type = .pipe ∧ x0.ref = 1 ∧ x0.pipe = a ∧ x0.writable = false) ∧
      x1.type = .pipe ∧ x1.ref = 1 ∧ x1.pipe = a ∧ x1.writable = true := by
    refine ⟨_, _, rfl, ⟨rfl, hr0, rfl, rfl⟩, rfl, ?_, rfl, rfl⟩
    dsimp only
    rw [update_of_ne hne]
    exact hr1
  have hf0 : (s.pipeInit a f0 f1).file f0 = x0 := by
    rw [hfile, update_of_ne hne.symm, update_self]
  have hf1 : (s.pipeInit a f0 f1).file f1 = x1 := by
    rw [hfile, update_self]
  have hfo : ∀ f, f ≠ f0 → f ≠ f1 → (s.pipeInit a f0 f1).file f = s.file f := fun f h0 h1 => by
    rw [hfile, update_of_ne h1, update_of_ne h0]
  have href : ∀ f, ((s.pipeInit a f0 f1).file f).ref = (s.file f).ref := fun f => by
    by_cases h0 : f = f0
    · rw [h0, hf0, hx0.2.1, hr0]
    · by_cases h1 : f = f1
      · rw [h1, hf1, hx1.2.1, hr1]
      · rw [hfo f h0 h1]
  refine h.own (p := p) (P := { s.proc p with pc := .pipeFd0 f0 f1 }) rfl (Life.not_embryo hlive)
    (absurd hlive)
    (fun f => ?_) (fun f h1 h2 => ?_) (fun f hf => ?_) (fun f hf => hf.elim) trivial
    nofun (fun b w => ?_) (fun b hb => ?_)
  · rw [hnet, Proc.net_of_loose rfl]
    exact congrArg (· + _) (href f)
  · rw [hnet] at h2
    refine hfo f (fun he => ?_) (fun he => ?_)
    · rw [he, one_self] at h2
      omega
    · rw [he, one_self] at h2
      omega
  · have hf' : (s.file f).ref = 0 := (href f).symm.trans hf
    have h0 : f ≠ f0 := fun he => by
      rw [he] at hf'
      omega
    have h1 : f ≠ f1 := fun he => by
      rw [he] at hf'
      omega
    change ((s.pipeInit a f0 f1).file f).type = _
    rw [hfo f h0 h1]
    exact h.free f hf'
  · have hsum := closing_update s.proc p { s.proc p with pc := .pipeFd0 f0 f1 } b w
    have he0 := endFiles_update s.file f0 x0 b w
    have he1 := endFiles_update (update s.file f0 x0) f1 x1 b w
    have he := h.ends b w
    rw [if_neg (not_isEnd_of_type (by rw [ht0]; decide) b w)] at he0
    rw [update_of_ne hne, if_neg (not_isEnd_of_type (by rw [ht1]; decide) b w)] at he1
    rw [hpc] at hsum
    change endFiles (s.pipeInit a f0 f1).file b w +
      ∑ q, (update s.proc p { s.proc p with pc := .pipeFd0 f0 f1 } q).pc.closing b w =
        if update s.used a true b = true ∧
          (update s.page a ⟨0, 0, true, true⟩ b).isOpen w = true then 1 else 0
    rw [hfile]
    unfold State.ends State.openEnd at he
    change _ + 0 = _ + 0 at hsum
    by_cases hb : b = a
    · subst hb
      rw [update_self, update_self]
      rw [if_neg fun hu => absurd (ha.symm.trans hu.1) (by decide)] at he
      have hi0 : x0.isEnd b w ↔ w = false := by simp [File.isEnd, hx0, eq_comm]
      have hi1 : x1.isEnd b w ↔ w = true := by simp [File.isEnd, hx1, eq_comm]
      have hopen : (⟨0, 0, true, true⟩ : Pipe).isOpen w = true := by cases w <;> rfl
      rw [if_pos ⟨rfl, hopen⟩]
      simp only [hi0] at he0
      simp only [hi1] at he1
      cases w
      · rw [if_pos rfl] at he0
        rw [if_neg (by decide)] at he1
        omega
      · rw [if_neg (by decide)] at he0
        rw [if_pos rfl] at he1
        omega
    · rw [update_of_ne hb, update_of_ne hb, ← he]
      rw [if_neg fun hx => hb (hx.2.2.1.symm.trans hx0.2.2.1)] at he0
      rw [if_neg fun hx => hb (hx.2.2.1.symm.trans hx1.2.2.1)] at he1
      omega
  · change update s.used a true b = true at hb
    change (update s.page a ⟨0, 0, true, true⟩ b).readopen = true ∨
      (update s.page a ⟨0, 0, true, true⟩ b).writeopen = true
    by_cases hba : b = a
    · rw [hba, update_self]
      exact .inl rfl
    · rw [update_of_ne hba] at hb ⊢
      exact h.half b hb

omit h hlive

theorem pipeclose_other {b : ℕ} (hb : b ≠ a) (w : Bool) :
    (s.pipeclose a w).page b = s.page b ∧ (s.pipeclose a w).used b = s.used b := by
  unfold pipeclose
  refine ⟨update_of_ne hb .., ?_⟩
  refine (apply_ite (fun u : ℕ → Bool => u b) _ _ _).trans ?_
  rw [update_of_ne hb, ite_self]

/-- The flags after `pipeclose` of an end that is open. -/
theorem pipeclose_openEnd (ha : s.used a = true)
    (hw : (s.page a).isOpen w = true) (b : ℕ) (v : Bool) :
    (s.pipeclose a w).openEnd b v + (if a = b ∧ w = v then 1 else 0) = s.openEnd b v := by
  by_cases hb : b = a
  · subst hb
    unfold openEnd pipeclose
    cases w <;> cases v <;> cases hr : (s.page b).readopen <;> cases hv : (s.page b).writeopen <;>
      simp_all [Pipe.isOpen]
  · unfold State.openEnd
    rw [if_neg (fun h : a = b ∧ w = v => hb h.1.symm), add_zero, (pipeclose_other hb w).1,
      (pipeclose_other hb w).2]

variable (h : Inv s)

include h

/-- `pipeclose` closes an end that nothing keeps open any more, and frees the page with the
second. -/
theorem Inv.pipeclose (hlive : (s.proc p).life = .live) (hpc : (s.proc p).pc = .pipeclose a w k) :
    Inv ((s.pipeclose a w).goto p k.resume) := by
  have hwf : k.Wf (s.proc p).ofile := h.wf_at hpc
  have hP : s.proc p = { s.proc p with pc := .pipeclose a w k } := by rw [← hpc]
  have hopen : s.used a = true ∧ (s.page a).isOpen w = true := by
    have he := h.ends a w
    have hle := le_sum (fun P : Proc => P.pc.closing a w) s.proc p
    rw [hpc] at hle
    change (if a = a ∧ w = w then 1 else 0) ≤ _ at hle
    rw [if_pos ⟨rfl, rfl⟩] at hle
    unfold State.ends State.openEnd at he
    by_contra hn
    rw [if_neg hn] at he
    omega
  refine h.own (p := p) (P := { s.proc p with pc := k.resume }) rfl (Life.not_embryo hlive)
    (absurd hlive)
    (fun f => ?_) (fun f _ _ => rfl) h.free (fun f hf => absurd hf (k.resume_fresh f))
    (Kont.resume_wf hwf) (fun np n hc => ?_) (fun b v => ?_) (fun b hb => ?_)
  · rw [Kont.net_resume (s.proc p) k a w f, ← hP]
    rfl
  · exact absurd (k.resume_child.symm.trans hc) (by simp)
  · have hsum := closing_update s.proc p { s.proc p with pc := k.resume } b v
    have he := h.ends b v
    rw [hpc] at hsum
    change _ + (if a = b ∧ w = v then 1 else 0) = _ + k.resume.closing b v at hsum
    rw [k.resume_closing] at hsum
    change endFiles s.file b v +
      ∑ q, (update s.proc p { s.proc p with pc := k.resume } q).pc.closing b v =
        (s.pipeclose a w).openEnd b v
    unfold State.ends at he
    have := pipeclose_openEnd hopen.1 hopen.2 b v
    omega
  · change (s.pipeclose a w).used b = true at hb
    change ((s.pipeclose a w).page b).readopen = true ∨ ((s.pipeclose a w).page b).writeopen = true
    by_cases hba : b = a
    · subst hba
      unfold State.pipeclose at hb ⊢
      dsimp only at hb ⊢
      rw [update_self]
      split_ifs at hb with hw hc hc
      · simp at hb
      · rw [if_pos hw]
        simpa [or_iff_not_imp_left] using hc
      · simp at hb
      · rw [if_neg hw]
        simpa [or_iff_not_imp_left] using hc
    · rw [(pipeclose_other hba w).2] at hb
      rw [(pipeclose_other hba w).1]
      exact h.half b hb

/-! ### `fork` -/

/-- The rule for a step of `fork` that changes the new process `np`. -/
theorem Inv.spawn {N : Proc} (hne : np ≠ p)
    (hlive : (s.proc p).life = .live) (hnp : (s.proc np).life ≠ .live)
    (hpc : N.pc = (s.proc np).pc)
    (hnet : ∀ f, ({ s.proc p with pc := c } : Proc).net f + slots N.ofile f =
      (s.proc p).net f + slots (s.proc np).ofile f)
    (hown : ∀ q n, q ≠ p → (s.proc q).pc.child ≠ some (np, n))
    (hc : (∃ n, c.child = some (np, n) ∧ N.life = .embryo ∧
      ∀ j : Fd, n ≤ j.val → N.ofile j = none) ∨ c.child = none ∧ N.life = .live)
    (hfresh : ∀ f, ¬c.fresh f) (hwf : ({ s.proc p with pc := c } : Proc).Wf)
    (hclosing : ∀ a w, c.closing a w = (s.proc p).pc.closing a w) :
    Inv ((s.set np N).goto p c) := by
  obtain ⟨r, hr⟩ := (h.idle np hnp).1
  have hNr : N.pc = .user r := hpc.trans hr
  have hproc : ((s.set np N).goto p c).proc =
      update (update s.proc np N) p { s.proc p with pc := c } := by
    change update (update s.proc np N) p
      { update s.proc np N p with pc := c } = _
    rw [update_of_ne hne.symm]
  have hself : ((s.set np N).goto p c).proc p = { s.proc p with pc := c } := by
    rw [hproc, update_self]
  have hchild : ((s.set np N).goto p c).proc np = N := by
    rw [hproc, update_of_ne hne, update_self]
  have hother : ∀ q, q ≠ p → q ≠ np → ((s.set np N).goto p c).proc q = s.proc q :=
    fun q h1 h2 => by rw [hproc, update_of_ne h1, update_of_ne h2]
  have hNnet : ∀ f, N.net f = slots N.ofile f := Proc.net_at hNr rfl
  have hnpnet : ∀ f, (s.proc np).net f = slots (s.proc np).ofile f := Proc.net_at hr rfl
  generalize ht : (s.set np N).goto p c = t at *
  have hfile : t.file = s.file := by rw [← ht]; rfl
  have hpage : t.page = s.page ∧ t.used = s.used := by rw [← ht]; exact ⟨rfl, rfl⟩
  clear ht
  have hcases : ∀ q, q = p ∧ t.proc q = { s.proc p with pc := c } ∨ q = np ∧ t.proc q = N ∨
      q ≠ p ∧ q ≠ np ∧ t.proc q = s.proc q := fun q => by
    by_cases h1 : q = p
    · exact .inl ⟨h1, h1 ▸ hself⟩
    · by_cases h2 : q = np
      · exact .inr (.inl ⟨h2, h2 ▸ hchild⟩)
      · exact .inr (.inr ⟨h1, h2, hother q h1 h2⟩)
  refine ⟨fun f => ?_, by rw [hfile]; exact h.free, fun q f hf => ?_, fun q => ?_,
    fun q m n hq => ?_, fun q q' m n n' hq hq' => ?_, fun q hq => ?_, fun a w => ?_,
    by rw [hpage.1, hpage.2]; exact h.half⟩
  · have h1 := sum_update (fun P : Proc => P.net f) s.proc np N
    have h2 := sum_update (fun P : Proc => P.net f) (update s.proc np N) p
      { s.proc p with pc := c }
    rw [← hproc, update_of_ne hne.symm] at h2
    have h3 := hnet f
    have h4 := h.ref f
    rw [hNnet, hnpnet] at h1
    rw [hfile]
    omega
  · rw [hfile]
    rcases hcases q with ⟨-, he⟩ | ⟨-, he⟩ | ⟨-, -, he⟩ <;> rw [he] at hf
    · exact absurd hf (hfresh f)
    · rw [hNr] at hf
      exact hf.elim
    · exact h.fresh q f hf
  · rcases hcases q with ⟨-, he⟩ | ⟨-, he⟩ | ⟨-, -, he⟩ <;> rw [he]
    · exact hwf
    · unfold Proc.Wf
      simp only [hNr]
    · exact h.wf q
  · rcases hcases q with ⟨-, he⟩ | ⟨-, he⟩ | ⟨hqp, -, he⟩ <;> rw [he] at hq
    · rcases hc with ⟨n', hn', hN⟩ | ⟨hn', -⟩
      · cases hn'.symm.trans hq
        rw [hchild]
        exact hN
      · cases hn'.symm.trans hq
    · rw [hNr] at hq
      cases hq
    · obtain ⟨h1, h2⟩ := h.child q m n hq
      have hmp : m ≠ p := fun hm => by
        rw [hm, hlive] at h1
        cases h1
      have hmn : m ≠ np := fun hm => hown q n hqp (hm ▸ hq)
      rw [hother m hmp hmn]
      exact ⟨h1, h2⟩
  · have hpq : ∀ q n, (t.proc q).pc.child = some (m, n) → q = p ∧ m = np ∨
        q ≠ p ∧ m ≠ np ∧ (s.proc q).pc.child = some (m, n) := fun q n hq => by
      rcases hcases q with ⟨hqp, he⟩ | ⟨-, he⟩ | ⟨hqp, -, he⟩ <;> rw [he] at hq
      · rcases hc with ⟨n', hn', hN⟩ | ⟨hn', -⟩
        · cases hn'.symm.trans hq
          exact .inl ⟨hqp, rfl⟩
        · cases hn'.symm.trans hq
      · rw [hNr] at hq
        cases hq
      · exact .inr ⟨hqp, fun hm => hown q n hqp (hm ▸ hq), hq⟩
    rcases hpq q n hq with ⟨hq1, hm⟩ | ⟨-, hm, hq1⟩ <;>
      rcases hpq q' n' hq' with ⟨hq2, hm'⟩ | ⟨-, hm', hq2⟩
    · rw [hq1, hq2]
    · exact absurd hm hm'
    · exact absurd hm' hm
    · exact h.owner q q' m n n' hq1 hq2
  · rcases hcases q with ⟨-, he⟩ | ⟨-, he⟩ | ⟨-, -, he⟩ <;> rw [he] at hq ⊢
    · exact absurd hlive hq
    · rcases hc with ⟨-, -, hN, -⟩ | ⟨-, hN⟩
      · exact ⟨⟨r, hNr⟩, fun hn => absurd hN hn⟩
      · exact absurd hN hq
    · exact h.idle q hq
  · have h1 := closing_update s.proc np N a w
    have h2 := closing_update (update s.proc np N) p { s.proc p with pc := c } a w
    rw [← hproc, update_of_ne hne.symm] at h2
    have h3 := hclosing a w
    have h4 := h.ends a w
    rw [hpc] at h1
    unfold State.ends State.openEnd at h4 ⊢
    rw [hfile, hpage.1, hpage.2]
    dsimp only at h2
    omega

/-! ### Steps and runs -/

/-- A call that fills or clears a descriptor. -/
theorem Inv.descriptor {c' : Pc} (hpc : (s.proc p).pc = c) (hlive : (s.proc p).life = .live)
    (hloose : c.loose = none) (hloose' : c'.loose = none)
    (hnet : ∀ f, slots o f + c'.holds f = slots (s.proc p).ofile f + c.holds f)
    (hfresh : ∀ f, c'.fresh f → c.fresh f) (hwf : (⟨(s.proc p).life, o, c'⟩ : Proc).Wf)
    (hchild : c.Forks c') (hclosing : ∀ a w, c'.closing a w = c.closing a w) :
    Inv (s.set p { s.proc p with ofile := o, pc := c' }) := by
  subst hpc
  refine h.quiet (Life.not_embryo hlive) (absurd hlive) (fun f => ?_) hfresh hwf hchild hclosing
  rw [Proc.net_of_loose hloose', Proc.net_of_loose hloose]
  exact hnet f

/-- The rule for a step of process `p` that moves its call on. -/
theorem Inv.go {c' : Pc} (hpc : (s.proc p).pc = c) (hlive : (s.proc p).life = .live)
    (hwf : ({ s.proc p with pc := c' } : Proc).Wf) (hchild : c.Forks c' := by exact nofun)
    (hloose : c.loose = none := by rfl) (hloose' : c'.loose = none := by rfl)
    (hholds : ∀ f, c'.holds f = c.holds f := by exact fun _ => rfl)
    (hfresh : ∀ f, ¬c'.fresh f := by exact fun _ => id)
    (hclosing : ∀ a w, c'.closing a w = c.closing a w := by exact fun _ _ => rfl) :
    Inv (s.goto p c') :=
  h.descriptor hpc hlive hloose hloose' (fun f => congrArg (_ + ·) (hholds f))
    (fun f hf => absurd hf (hfresh f)) hwf hchild hclosing

/-- A process in a call exists. -/
theorem Inv.live (hpc : (s.proc p).pc = c) (hc : ∀ r, c ≠ .user r) :
    (s.proc p).life = .live := by
  by_contra hn
  obtain ⟨r, hr⟩ := (h.idle p hn).1
  exact hc r (hpc.symm.trans hr)

theorem Inv.openSet {ip : Fs.Slot} {omode : UInt32} (hpc : (s.proc p).pc = .openSet ip omode f fd) :
    ∃ s', s.next p page = some (.ok s') ∧ Inv s' := by
  have hlive := h.live hpc nofun
  have hfr : (s.proc p).pc.fresh f := by
    rw [hpc]
    rfl
  obtain ⟨htype, href⟩ := h.fresh p f hfr
  have hnet : ∀ f', ({ s.proc p with pc := .user fd } : Proc).net f' = (s.proc p).net f' :=
    fun f' => by
      rw [Proc.net_of_loose rfl, Proc.net_at hpc rfl]
      rfl
  unfold next
  simp only [hpc]
  refine ⟨_, rfl, h.file hlive hlive ?_ (fun f' _ => hnet f') (.inr ((h.wf p).net_pos hfr))
    (fun h0 => ?_) (fun f' hf => hf.elim) trivial nofun (fun a w => ?_)⟩
  · rw [hnet]
  · dsimp only at h0
    omega
  · rw [if_neg (not_isEnd_of_type (by simp) a w),
      if_neg (not_isEnd_of_type (by rw [htype]; decide) a w), hpc]
    rfl

theorem Inv.dup (hpc : (s.proc p).pc = .dup f fd) :
    ∃ s', s.next p page = some (.ok s') ∧ Inv s' := by
  have hlive := h.live hpc nofun
  obtain ⟨hfd, fd', hne, hfd'⟩ := h.wf_at hpc
  have hloose : (s.proc p).pc.loose = some fd := by
    rw [hpc]
    rfl
  have hholds : ∀ f', (s.proc p).pc.holds f' = 0 := fun f' => by
    rw [hpc]
    rfl
  have hpos : 0 < (s.proc p).net f := by
    unfold Proc.net Proc.counted
    rw [hloose]
    refine Nat.add_pos_left (le_slots (d := fd') ?_) _
    dsimp only
    rw [update_of_ne hne]
    exact hfd'
  have hnet : ∀ f', ({ s.proc p with pc := .user fd } : Proc).net f' =
      (s.proc p).net f' + one f f' := fun f' => by
    have := Proc.net_add_loose hloose f'
    rw [hfd, hholds] at this
    rw [Proc.net_of_loose rfl]
    change slots (s.proc p).ofile f' + 0 = _
    simp only [some.injEq] at this
    unfold one
    omega
  obtain ⟨t, ht, hinv⟩ := h.filedup (P := { s.proc p with pc := .user fd }) hlive hlive hpos hnet
    (fun _ => id) trivial nofun (fun a w => by rw [hpc]; rfl)
  refine ⟨_, ?_, hinv⟩
  unfold next
  simp only [hpc, ht, Except.map]
  rfl

theorem Inv.child_ne (hlive : (s.proc p).life = .live)
    (hc : (s.proc p).pc.child = some (np, n)) : np ≠ p := by
  rintro rfl
  cases (h.child np np n hc).1.symm.trans hlive

theorem Inv.forkDup (hpc : (s.proc p).pc = .forkDup np n) :
    ∃ s', s.next p page = some (.ok s') ∧ Inv s' := by
  have hlive := h.live hpc nofun
  have hc : (s.proc p).pc.child = some (np, n) := by
    rw [hpc]
    rfl
  obtain ⟨hemb, hnone⟩ := h.child p np n hc
  have hne := h.child_ne hlive hc
  unfold next
  simp only [hpc]
  by_cases hn : n < NOFILE
  · rw [dif_pos hn]
    split
    · refine ⟨_, rfl, h.go hpc hlive trivial fun m k hk => ?_⟩
      cases hk
      exact ⟨n, rfl, le_succ n⟩
    · rename_i f hf
      have hpos : 0 < (s.proc p).net f := by
        rw [Proc.net_at hpc rfl]
        exact Nat.add_pos_left (le_slots hf) _
      have hnet : ∀ f', ({ s.proc p with pc := .forkStore np ⟨n, hn⟩ f } : Proc).net f' =
          (s.proc p).net f' + one f f' := fun f' => by
        rw [Proc.net_of_loose rfl, Proc.net_at hpc rfl]
        rfl
      obtain ⟨t, ht, hinv⟩ := h.filedup (P := { s.proc p with pc := .forkStore np ⟨n, hn⟩ f })
        hlive hlive hpos hnet (fun _ => id) trivial
        (fun m k hk => by cases hk; exact ⟨n, hc, le_refl n⟩) (fun a w => by rw [hpc]; rfl)
      refine ⟨_, ?_, hinv⟩
      rw [ht]
      rfl
  · rw [dif_neg hn]
    refine ⟨_, rfl, h.spawn hne hlive (by rw [hemb]; simp) rfl (fun f => ?_) (fun q m hq hm => ?_)
      (.inr ⟨rfl, rfl⟩) (fun _ => id) trivial (fun a w => by rw [hpc]; rfl)⟩
    · rw [Proc.net_of_loose rfl, Proc.net_at hpc rfl]
      rfl
    · exact hq (h.owner q p np m n hm hc)

theorem Inv.forkStore (hpc : (s.proc p).pc = .forkStore np fd f) :
    ∃ s', s.next p page = some (.ok s') ∧ Inv s' := by
  have hlive := h.live hpc nofun
  have hc : (s.proc p).pc.child = some (np, fd.val) := by
    rw [hpc]
    rfl
  obtain ⟨hemb, hnone⟩ := h.child p np fd hc
  have hne := h.child_ne hlive hc
  unfold next
  simp only [hpc]
  refine ⟨_, rfl, h.spawn hne hlive (by rw [hemb]; simp) rfl (fun f' => ?_) (fun q m hq hm => ?_)
    (.inl ⟨_, rfl, hemb, fun j hj => ?_⟩) (fun _ => id) trivial (fun a w => by rw [hpc]; rfl)⟩
  · rw [Proc.net_of_loose rfl, Proc.net_at hpc rfl]
    change slots (s.proc p).ofile f' + 0 + slots (update (s.proc np).ofile fd (some f)) f' =
      slots (s.proc p).ofile f' + one f f' + _
    rw [slots_fill (hnone fd (le_refl _))]
    omega
  · exact hq (h.owner q p np m fd hm hc)
  · have hjf : j ≠ fd := fun he => by
      rw [he] at hj
      exact absurd hj (not_succ_le_self _)
    dsimp only
    rw [update_of_ne hjf]
    exact hnone j (le_of_succ_le hj)

theorem Inv.exitFd (hpc : (s.proc p).pc = .exitFd n) :
    ∃ s', s.next p page = some (.ok s') ∧ Inv s' := by
  have hlive := h.live hpc nofun
  have hwf : ∀ j : Fd, j.val < n → (s.proc p).ofile j = none := h.wf_at hpc
  unfold next
  simp only [hpc]
  by_cases hn : n < NOFILE
  · rw [dif_pos hn]
    split
    · rename_i hf
      refine ⟨_, rfl, h.go hpc hlive fun j hj => ?_⟩
      rcases Nat.lt_succ_iff_lt_or_eq.1 hj with hj | hj
      · exact hwf j hj
      · rw [show j = ⟨n, hn⟩ from Fin.ext hj]
        exact hf
    · rename_i f hf
      exact ⟨_, rfl, h.go hpc hlive ⟨hf, fun j hj => hwf j hj⟩⟩
  · rw [dif_neg hn]
    refine ⟨_, rfl, h.quiet (Life.not_embryo hlive)
      (fun _ => ⟨⟨0, rfl⟩, fun j => hwf j (by omega)⟩) (fun f => ?_)
      (fun _ hf => hf.elim) trivial nofun (fun a w => by rw [hpc]; rfl)⟩
    rw [Proc.net_of_loose rfl, Proc.net_at hpc rfl]
    rfl

theorem Inv.exitStore (hpc : (s.proc p).pc = .exitStore fd) :
    ∃ s', s.next p page = some (.ok s') ∧ Inv s' := by
  have hlive := h.live hpc nofun
  have hwf : Kont.Wf (s.proc p).ofile (.exit fd) := h.wf_at hpc
  unfold next
  simp only [hpc]
  refine ⟨_, rfl, h.quiet (Life.not_embryo hlive) (absurd hlive) (fun f => ?_) (fun _ hf => hf.elim)
    (fun j hj => ?_) nofun (fun a w => by rw [hpc]; rfl)⟩
  · rw [Proc.net_of_loose rfl]
    unfold Proc.net Proc.counted
    rw [hpc]
    rfl
  · dsimp only at hj ⊢
    rw [update_apply]
    split_ifs with hjf
    · rfl
    · refine hwf j (lt_of_le_of_ne (Nat.lt_succ_iff.1 hj) hjf)

/-- Every step of a call keeps the invariant and does not panic. -/
theorem Inv.next {r : Except String State}
    (hs : s.next p page = some r) : ∃ s', r = .ok s' ∧ Inv s' := by
  have hok : (∃ s', s.next p page = some (.ok s') ∧ Inv s') → ∃ s', r = .ok s' ∧ Inv s' :=
    fun ⟨s', h1, h2⟩ => ⟨s', some.inj (hs.symm.trans h1), h2⟩
  cases hpc : (s.proc p).pc with
  | user r =>
    simp only [State.next, hpc] at hs
    cases hs
  | openAlloc ip omode | pipeAlloc0 =>
    refine hok ?_
    simp only [State.next, hpc]
    have hl := h.live hpc nofun
    split
    · exact ⟨_, rfl, h.go hpc hl trivial⟩
    · rename_i f t ha
      exact ⟨_, rfl, h.filealloc ha hl (by rw [hpc]; rfl) rfl
        (fun f' => by rw [hpc]; simp [Pc.holds])
        (fun f' hf => .inl hf.symm) trivial rfl (fun _ _ => by rw [hpc]; rfl)⟩
  | openFd ip omode f =>
    refine hok ?_
    simp only [State.next, hpc]
    have hl := h.live hpc nofun
    split
    · exact ⟨_, rfl, h.go hpc hl trivial⟩
    · rename_i fd o ho
      obtain ⟨hn, rfl⟩ := fdalloc_spec ho
      refine ⟨_, rfl, h.descriptor hpc hl rfl rfl (fun f' => ?_) (fun _ => id)
        (update_self ..) nofun (fun _ _ => rfl)⟩
      rw [slots_fill hn]
      rfl
  | openSet ip omode f fd => exact hok (h.openSet hpc)
  | pipeAlloc1 f0 =>
    refine hok ?_
    simp only [State.next, hpc]
    have hl := h.live hpc nofun
    split
    · exact ⟨_, rfl, h.go hpc hl trivial⟩
    · rename_i f t ha
      exact ⟨_, rfl, h.filealloc ha hl (by rw [hpc]; rfl) rfl (fun f' => by rw [hpc]; rfl)
        (fun f' hf => hf.symm.imp Eq.symm fun hf => by rw [hpc]; exact hf) trivial rfl
        (fun _ _ => by rw [hpc]; rfl)⟩
  | pipeKalloc f0 f1 =>
    have hl := h.live hpc nofun
    simp only [State.next, hpc] at hs
    split at hs
    · cases hs
      exact ⟨_, rfl, h.go hpc hl trivial⟩
    · split_ifs at hs with hu
      cases hs
      exact ⟨_, rfl, h.pipeInit hl hpc (by simpa using hu)⟩
  | pipeFd0 rf wf =>
    refine hok ?_
    simp only [State.next, hpc]
    have hl := h.live hpc nofun
    split
    · exact ⟨_, rfl, h.go hpc hl trivial⟩
    · rename_i fd o ho
      obtain ⟨hn, rfl⟩ := fdalloc_spec ho
      refine ⟨_, rfl, h.descriptor hpc hl rfl rfl (fun f' => ?_) (fun _ => id)
        (update_self ..) nofun (fun _ _ => rfl)⟩
      rw [slots_fill hn]
      change _ + one rf f' + one wf f' = _ + (one rf f' + one wf f')
      omega
  | pipeFd1 rf wf fd0 =>
    refine hok ?_
    have hwf : (s.proc p).ofile fd0 = some rf := h.wf_at hpc
    simp only [State.next, hpc]
    have hl := h.live hpc nofun
    split
    · refine ⟨_, rfl, h.descriptor hpc hl rfl rfl (fun f' => ?_) (fun _ hf => hf.elim) trivial
        nofun (fun _ _ => rfl)⟩
      have := slots_clear hwf f'
      change _ + (one rf f' + one wf f') = _ + one wf f'
      omega
    · rename_i fd o ho
      obtain ⟨hn, rfl⟩ := fdalloc_spec ho
      refine ⟨_, rfl, h.descriptor hpc hl rfl rfl (fun f' => ?_) (fun _ => id) trivial nofun
        (fun _ _ => rfl)⟩
      rw [slots_fill hn]
      rfl
  | dup f fd => exact hok (h.dup hpc)
  | forkDup np n => exact hok (h.forkDup hpc)
  | forkStore np fd f => exact hok (h.forkStore hpc)
  | exitFd n => exact hok (h.exitFd hpc)
  | exitStore fd => exact hok (h.exitStore hpc)
  | fileclose f k => exact hok (h.fileclose (h.live hpc nofun) hpc)
  | pipeclose a w k =>
    refine hok ?_
    simp only [State.next, hpc]
    exact ⟨_, rfl, h.pipeclose (h.live hpc nofun) hpc⟩

/-- `wait` frees the entry of an exited process. -/
theorem Inv.reap (hz : (s.proc p).life = .zombie) :
    Inv (s.set p { s.proc p with life := .unused }) := by
  obtain ⟨hu, ho⟩ := h.idle p (by rw [hz]; simp)
  exact h.quiet (by rw [hz]; simp) (fun _ => ⟨hu, ho (by rw [hz]; simp)⟩) (fun _ => rfl)
    (fun _ => id) (h.wf p) (fun np n hc => ⟨n, hc, le_refl n⟩) fun _ _ => rfl

/-- Every step keeps the invariant, and the only panic is that of init in `exit`. -/
theorem Inv.step {a : Act} {r : Except String State} (hs : s.step a = some r) :
    r = .error "init exiting" ∨ ∃ s', r = .ok s' ∧ Inv s' := by
  have hcall : ∀ {p f}, step.call s p f = some r →
      (s.proc p).life = .live ∧ (∃ k, (s.proc p).pc = .user k) ∧ r = .ok (f (s.proc p)) := by
    intro p f hc
    unfold step.call at hc
    split at hc
    · rename_i k h1 h2
      exact ⟨h1, ⟨k, h2⟩, (some.inj hc).symm⟩
    · cases hc
  cases a with
  | «open» p ip omode | pipe p =>
    simp only [State.step] at hs
    obtain ⟨hl, ⟨k, hpc⟩, rfl⟩ := hcall hs
    exact .inr ⟨_, rfl, h.go hpc hl trivial⟩
  | dup p fd =>
    simp only [State.step] at hs
    obtain ⟨hl, ⟨k, hpc⟩, rfl⟩ := hcall hs
    refine .inr ⟨_, rfl, ?_⟩
    split
    · exact h.go hpc hl trivial
    · rename_i fd' f ha
      split
      · exact h.go hpc hl trivial
      · rename_i fd'' o ho
        obtain ⟨hn, rfl⟩ := fdalloc_spec ho
        have hf := argfd_spec ha
        have hne : fd' ≠ fd'' := fun he => by
          rw [he, hn] at hf
          cases hf
        refine h.quiet (Life.not_embryo hl) (absurd hl) (fun f' => ?_) (fun _ hf => hf.elim) ?_
          nofun (fun a w => by rw [hpc]; rfl)
        · rw [Proc.net_at hpc rfl]
          change slots (update (update (s.proc p).ofile fd'' (some f)) fd'' none) f' +
            0 = slots (s.proc p).ofile f' + 0
          rw [update_idem, ← hn, update_eq_self]
        · refine ⟨update_self .., fd', hne, ?_⟩
          dsimp only
          rw [update_of_ne hne]
          exact hf
  | close p fd =>
    simp only [State.step] at hs
    obtain ⟨hl, ⟨k, hpc⟩, rfl⟩ := hcall hs
    refine .inr ⟨_, rfl, ?_⟩
    split
    · exact h.go hpc hl trivial
    · rename_i fd' f ha
      refine h.descriptor hpc hl rfl rfl (fun f' => ?_) (fun _ => id) trivial nofun (fun _ _ => rfl)
      exact slots_clear (argfd_spec ha) f'
  | fork p np =>
    simp only [State.step] at hs
    split_ifs at hs with hnp
    obtain ⟨hl, ⟨k, hpc⟩, rfl⟩ := hcall hs
    have hne : np ≠ p := fun he => by
      rw [he, hl] at hnp
      cases hnp
    have hnone := (h.idle np (by rw [hnp]; simp)).2 (by rw [hnp]; simp)
    refine .inr ⟨_, rfl, h.spawn hne hl (by rw [hnp]; simp) rfl (fun f => ?_) (fun q n _ hq => ?_)
      (.inl ⟨0, rfl, rfl, fun j _ => hnone j⟩) (fun _ => id) trivial (fun a w => by rw [hpc]; rfl)⟩
    · rw [Proc.net_of_loose rfl, Proc.net_at hpc rfl]
      rfl
    · have := (h.child q np n hq).1
      rw [hnp] at this
      cases this
  | exit p =>
    obtain ⟨r', hr', he⟩ := map_eq_some_iff.1 hs
    split_ifs at he
    · exact .inl he.symm
    · rw [he] at hr'
      obtain ⟨hl, ⟨k, hpc⟩, rfl⟩ := hcall hr'
      exact .inr ⟨_, rfl, h.go hpc hl fun j hj => absurd hj (not_lt_zero _)⟩
  | next p page => exact .inr (h.next hs)
  | reap p =>
    simp only [State.step] at hs
    split_ifs at hs with hz
    cases hs
    exact .inr ⟨_, rfl, h.reap hz⟩

omit h

theorem inv_of_reaches (h : Reaches State.step State.init s) : Inv s :=
  h.inv (fun s a s' hi hs => by
    rcases hi.step hs with he | ⟨s1, he, h1⟩
    · cases he
    · cases he
      exact h1) inv_init

/-- No call is in progress. -/
def State.quiescent (s : State) : Prop := ∀ p, ∃ r, (s.proc p).pc = .user r

theorem endFiles_eq_card (t : Entry → File) (a : ℕ) (w : Bool) :
    endFiles t a w = (univ.filter fun f => (t f).isEnd a w).card := by
  unfold endFiles
  rw [card_filter]

theorem endFiles_pos : 0 < endFiles t a w ↔ ∃ f, (t f).isEnd a w := by
  rw [endFiles_eq_card, card_pos]
  simp [Finset.Nonempty]

/-- When no call is in progress, the entries in use for an end of a pipe are counted by its
flag. -/
theorem Inv.endFiles (h : Inv s) (hq : s.quiescent) (a : ℕ) (w : Bool) :
    endFiles s.file a w = s.openEnd a w := by
  have hsum : ∑ p, (s.proc p).pc.closing a w = 0 := sum_eq_zero fun p _ => by
    obtain ⟨r, hr⟩ := hq p
    rw [hr]
    rfl
  rw [← h.ends a w]
  unfold State.ends
  rw [hsum, add_zero]

/-- A flag is set exactly when there is an entry in use for its end. -/
theorem Inv.isOpen_iff (h : Inv s) (hq : s.quiescent) (a : ℕ) (w : Bool) :
    s.used a = true ∧ (s.page a).isOpen w = true ↔ ∃ f, (s.file f).isEnd a w := by
  rw [← endFiles_pos, h.endFiles hq]
  unfold openEnd
  split_ifs with hu
  · exact iff_of_true hu one_pos
  · exact iff_of_false hu (lt_irrefl 0)

theorem Inv.end_unique (h : Inv s) (hq : s.quiescent) {f' : Entry}
    (hf : (s.file f).isEnd a w) (hf' : (s.file f').isEnd a w) : f = f' := by
  have hle : Ftable.endFiles s.file a w ≤ 1 := by
    rw [h.endFiles hq]
    unfold openEnd
    split_ifs <;> decide
  rw [endFiles_eq_card] at hle
  exact card_le_one.1 hle f (by simpa using hf) f' (by simpa using hf')

/-- **The counts of the file table and the flags of the pipes are exact.**  In every state that is
reached by any interleaving of the calls, `filedup` and `fileclose` do not panic in the next step;
and when no call is in progress, the `ref` of an entry is the number of descriptors that refer to
it, an entry with `ref` 0 has type `FD_NONE`, a page holds a pipe exactly while an entry in use
refers to it, and `readopen` or `writeopen` is set exactly when there is an entry in use for that
end, of which there is never more than one. -/
theorem file_refs (s : State) (h : Reaches State.step State.init s) :
    (∀ a, s.step a ≠ some (.error "filedup") ∧ s.step a ≠ some (.error "fileclose")) ∧
    (s.quiescent →
      (∀ f, (s.file f).ref = ∑ p, ∑ fd, if (s.proc p).ofile fd = some f then 1 else 0) ∧
      (∀ f, (s.file f).ref = 0 → (s.file f).type = .none) ∧
      (∀ a, s.used a = true ↔ ∃ f w, (s.file f).isEnd a w) ∧
      ∀ a, s.used a = true →
        ((s.page a).readopen = true ↔ ∃ f, (s.file f).isEnd a false) ∧
        ((s.page a).writeopen = true ↔ ∃ f, (s.file f).isEnd a true) ∧
        ∀ f f' w, (s.file f).isEnd a w → (s.file f').isEnd a w → f = f') := by
  have hi := inv_of_reaches h
  refine ⟨fun a => ⟨fun he => ?_, fun he => ?_⟩, fun hq => ?_⟩
  · rcases hi.step he with he | ⟨s₁, he, -⟩
    · exact absurd he (by simp)
    · cases he
  · rcases hi.step he with he | ⟨s₁, he, -⟩
    · exact absurd he (by simp)
    · cases he
  · have hopen := hi.isOpen_iff hq
    refine ⟨fun f => ?_, hi.free, fun a => ⟨fun ha => ?_, fun ⟨f, w, hf⟩ => ?_⟩, fun a ha => ?_⟩
    · rw [hi.ref f]
      refine sum_congr rfl fun p _ => ?_
      obtain ⟨r, hr⟩ := hq p
      rw [Proc.net_at hr rfl]
      change slots (s.proc p).ofile f + 0 = _
      rw [add_zero, slots]
    · rcases hi.half a ha with hr | hw
      · obtain ⟨f, hf⟩ := (hopen a false).1 ⟨ha, hr⟩
        exact ⟨f, false, hf⟩
      · obtain ⟨f, hf⟩ := (hopen a true).1 ⟨ha, hw⟩
        exact ⟨f, true, hf⟩
    · exact ((hopen a w).2 ⟨f, hf⟩).1
    · exact ⟨(and_iff_right ha).symm.trans (hopen a false),
        (and_iff_right ha).symm.trans (hopen a true), fun f f' w => hi.end_unique hq⟩

/-- The hypotheses of `file_refs` are satisfiable: init makes a pipe, forks and closes its read
end, and the child still has that end open. -/
theorem file_refs_pipe :
    ∃ s : State, Reaches State.step State.init s ∧ s.quiescent ∧
      (s.file 0).ref = 1 ∧ (s.file 1).ref = 2 ∧ (s.page 7).readopen = true ∧
        ∃ f, (s.file f).isEnd 7 false := by
  have hrun : Leads step init
      ([.pipe 0, .next 0 none, .next 0 none, .next 0 (some 7), .next 0 none, .next 0 none,
        .fork 0 1] ++ List.replicate 19 (.next 0 none) ++ [.close 0 0, .next 0 none]) fun s =>
      (∀ p, (s.proc p).pc = .user 0 ∨ (s.proc p).pc = .user 1) ∧ (s.file 0).ref = 1 ∧
        (s.file 1).ref = 2 ∧ s.used 7 = true ∧ (s.page 7).readopen = true := by decide +kernel
  obtain ⟨s, h, h₁, h₂, h₃, h₄, h₅⟩ := hrun.reaches
  have hq : s.quiescent := fun p => (h₁ p).elim (fun h => ⟨_, h⟩) (fun h => ⟨_, h⟩)
  exact ⟨s, h, hq, h₂, h₃, h₅, (((file_refs s h).2 hq).2.2.2 7 h₄).1.1 h₅⟩

end Xv6.Ftable
