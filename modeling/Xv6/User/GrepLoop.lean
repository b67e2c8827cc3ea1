/-
# The loop of grep

`grep` of `grep.c`, with `strchr` of `ulib.c`: it reads into `buf`, writes the complete lines that
match, and carries what follows the last newline over to the next `read`.  The answers of `read` are
a list of chunks, each as long as the call allows.

The loop resets `m` to 0 where it has found no newline (`p == buf`), which is meant for a line that
fills the buffer.  It also does so after a short read: a chunk without a newline is dropped, with
what was carried.  So `grep` writes the matching lines, whatever the pattern, exactly if no chunk
without a newline comes before one with a newline (`grep_lines_iff`), and how the input arrives
does matter (`grep_split_line`).
-/

import Xv6.User.Grep

namespace Xv6.Grep

open List Option

/-! ## The loop -/

/-- `strchr(s, c)` on the bytes from `s` to the NUL behind the buffer: those before the place it
returns, and those behind it. -/
def strchr (c : UInt8) : Str → Option (Str × Str)
  | [] => none
  | b :: s =>
    if b = 0 then none
    else if b = c then some ([], s)
    else (strchr c s).map fun r => (b :: r.1, r.2)

theorem strchr_eq_some {c : UInt8} {s u v : Str} (h : strchr c s = some (u, v)) :
    s = u ++ c :: v ∧ c ∉ u := by
  induction s generalizing u v with
  | nil => cases h
  | cons b s ih =>
    rw [strchr] at h
    split_ifs at h with h0 hc
    · cases h
      exact ⟨by rw [hc]; rfl, not_mem_nil⟩
    · obtain ⟨⟨u', v'⟩, hs, he⟩ := map_eq_some_iff.1 h
      cases he
      obtain ⟨rfl, hu⟩ := ih hs
      exact ⟨rfl, by simp [Ne.symm hc, hu]⟩

theorem strchr_eq_none {c : UInt8} {s : Str} (hs : 0 ∉ s) (h : strchr c s = none) : c ∉ s := by
  induction s with
  | nil => exact not_mem_nil
  | cons b s ih =>
    rw [mem_cons, not_or] at hs
    rw [strchr, if_neg (Ne.symm hs.1)] at h
    split_ifs at h with hc
    simp [Ne.symm hc, ih hs.2 (map_eq_none_iff.1 h)]

/-- The inner loop of `grep` from `p` on: what it writes, and the bytes from `p` on when it ends. -/
def scan (re p : Str) : Str × Str :=
  match h : strchr 10 p with
  | none => ([], p)
  | some (line, rest) =>
    ((if «match» re line then line ++ [10] else []) ++ (scan re rest).1, (scan re rest).2)
termination_by p.length
decreasing_by
  all_goals
    rw [(strchr_eq_some h).1, length_append, length_cons]
    omega

/-- The loop of `grep` with `buf` carried over, where `read` answers with the chunks `cs` and then
with 0: what it writes, or none if `read` cannot answer so. -/
def grep (re : Str) : Str → List Str → Option Str
  | _, [] => some []
  | buf, c :: cs =>
    if c = [] ∨ 1024 - buf.length - 1 < c.length then none
    else
      let (out, p) := scan re (buf ++ c)
      (grep re (if p.length = (buf ++ c).length then [] else p) cs).map (out ++ ·)

/-! ## The lines of the input -/

/-- The lines that end in a newline and match, each with its newline. -/
def matching (re s : Str) : Str :=
  ((s.splitOn 10).dropLast.filter («match» re)).flatMap (· ++ [10])

/-- What follows the last newline. -/
def unfinished (s : Str) : Str := (s.splitOn 10).getLastD []

variable {re s t u v : Str} {cs : List Str}

theorem matching_of_notMem (h : 10 ∉ s) : matching re s = [] := by
  rw [matching, splitOn_eq_singleton h]
  rfl

theorem unfinished_of_notMem (h : 10 ∉ s) : unfinished s = s := by
  rw [unfinished, splitOn_eq_singleton h]
  rfl

theorem matching_line (h : 10 ∉ u) : matching re (u ++ 10 :: v) =
    (if «match» re u then u ++ [10] else []) ++ matching re v := by
  rw [matching, matching, splitOn_append_cons_self_of_not_mem h,
    dropLast_cons_of_ne_nil (splitOn_ne_nil 10 v), filter_cons]
  split_ifs
  · rfl
  · rfl

theorem unfinished_line (h : 10 ∉ u) : unfinished (u ++ 10 :: v) = unfinished v := by
  rw [unfinished, unfinished, splitOn_append_cons_self_of_not_mem h]
  obtain ⟨l, ls, hls⟩ := exists_cons_of_ne_nil (splitOn_ne_nil 10 v)
  rw [hls, getLastD_cons, getLastD_cons, getLastD_cons]

/-- Induction over the lines of a text. -/
theorem lines_induction {P : Str → Prop} (last : ∀ s, 10 ∉ s → P s)
    (line : ∀ u v, 10 ∉ u → P v → P (u ++ 10 :: v)) (s : Str) : P s := by
  induction hn : s.length using Nat.strong_induction_on generalizing s with
  | _ n ih =>
    by_cases h : 10 ∈ s
    · obtain ⟨u, v, rfl, hu⟩ := eq_append_cons_of_mem h
      refine line u v hu (ih v.length ?_ v rfl)
      rw [← hn, length_append, length_cons]
      omega
    · exact last s h

/-- **What the inner loop does**: it writes the matching lines and stops behind the last newline. -/
theorem scan_eq (h : 0 ∉ s) : scan re s = (matching re s, unfinished s) := by
  fun_induction scan re s with
  | case1 p hp =>
    have hno := strchr_eq_none h hp
    rw [matching_of_notMem hno, unfinished_of_notMem hno]
  | case2 p line rest hp ih =>
    obtain ⟨rfl, hu⟩ := strchr_eq_some hp
    rw [matching_line hu, unfinished_line hu, ih (by simp_all)]

/-- The lines of two pieces: what the first leaves unfinished begins the next line. -/
theorem matching_append (re s t : Str) :
    matching re (s ++ t) = matching re s ++ matching re (unfinished s ++ t) := by
  induction s using lines_induction with
  | last s h => rw [matching_of_notMem h, unfinished_of_notMem h, nil_append]
  | line u v hu ih =>
    rw [append_assoc, cons_append, matching_line hu, matching_line hu,
      unfinished_line hu, ih, append_assoc]

theorem unfinished_append (h : 10 ∈ t) : unfinished (s ++ t) = unfinished t := by
  obtain ⟨u, v, rfl, hu⟩ := eq_append_cons_of_mem h
  induction s using lines_induction with
  | last s hs =>
    rw [← append_assoc, unfinished_line (by simp [hs, hu]), unfinished_line hu]
  | line u' v' hu' ih => rw [append_assoc, cons_append, unfinished_line hu', ih]

theorem unfinished_spec (s : Str) : 10 ∉ unfinished s ∧ (∀ b ∈ unfinished s, b ∈ s) ∧
    (10 ∈ s → (unfinished s).length < s.length) := by
  induction s using lines_induction with
  | last s h =>
    rw [unfinished_of_notMem h]
    exact ⟨h, fun _ => id, fun hs => absurd hs h⟩
  | line u v hu ih =>
    rw [unfinished_line hu]
    refine ⟨ih.1, fun b hb => by simp [ih.2.1 b hb], fun _ => ?_⟩
    have hle : (unfinished v).length ≤ v.length := by
      by_cases hv : 10 ∈ v
      · exact (ih.2.2 hv).le
      · rw [unfinished_of_notMem hv]
    rw [length_append, length_cons]
    omega

/-- The empty pattern matches every line. -/
theorem matching_nil (s : Str) : matching [] s ++ unfinished s = s := by
  induction s using lines_induction with
  | last s h => rw [matching_of_notMem h, unfinished_of_notMem h, nil_append]
  | line u v hu ih =>
    have hmatch : «match» [] u = true := by
      rw [«match», if_neg (by simp), matchLoop_iff]
      exact ⟨[], u, rfl, by rw [matchhere]⟩
    rw [matching_line hu, unfinished_line hu, if_pos hmatch, append_assoc, ih, append_assoc]
    rfl

/-! ## Whether a chunk is dropped -/

/-- What is carried over: nothing where there is no newline. -/
def carried (buf c : Str) : Str := if 10 ∈ buf ++ c then unfinished (buf ++ c) else []

/-- One round of the loop. -/
theorem grep_cons {buf c out : Str} (h0 : 0 ∉ buf ++ c)
    (h : grep re buf (c :: cs) = some out) : c ≠ [] ∧ ∃ out',
      grep re (carried buf c) cs = some out' ∧ out = matching re (buf ++ c) ++ out' := by
  rw [grep] at h
  split_ifs at h with hc
  rw [scan_eq h0] at h
  have hcarry : (if (unfinished (buf ++ c)).length = (buf ++ c).length then []
      else unfinished (buf ++ c)) = carried buf c := by
    rw [carried]
    by_cases h10 : 10 ∈ buf ++ c
    · rw [if_pos h10, if_neg ((unfinished_spec _).2.2 h10).ne]
    · rw [if_neg h10, if_pos (by rw [unfinished_of_notMem h10])]
  dsimp only at h
  rw [hcarry] at h
  obtain ⟨out', hout, rfl⟩ := map_eq_some_iff.1 h
  exact ⟨fun hnil => hc (.inl hnil), out', hout, rfl⟩

theorem carried_spec {buf c : Str} (h : 0 ∉ buf ++ c) : 10 ∉ carried buf c ∧ 0 ∉ carried buf c := by
  rw [carried]
  split_ifs
  · exact ⟨(unfinished_spec _).1, fun h0 => h ((unfinished_spec _).2.1 0 h0)⟩
  · exact ⟨not_mem_nil, not_mem_nil⟩

/-- No chunk without a newline comes before one with a newline. -/
def Unbroken (cs : List Str) : Prop := cs.Pairwise fun c c' => 10 ∈ c' → 10 ∈ c

/-- **Where no line is broken**, `grep` writes the matching lines. -/
theorem eq_matching : ∀ {buf out : Str}, 0 ∉ buf ++ cs.flatten → 10 ∉ buf →
    Unbroken cs → grep re buf cs = some out → out = matching re (buf ++ cs.flatten) := by
  induction cs with
  | nil =>
    intro buf out _ hbuf _ h
    rw [← some.inj h, flatten_nil, append_nil, matching_of_notMem hbuf]
  | cons c cs ih =>
    intro buf out h0 hbuf hw h
    rw [flatten_cons, ← append_assoc] at h0 ⊢
    obtain ⟨hc0, hcs0⟩ := not_or.1 (mt mem_append.2 h0)
    obtain ⟨hcarry, hcarry0⟩ := carried_spec hc0
    obtain ⟨hhead, htail⟩ := pairwise_cons.1 hw
    obtain ⟨-, out', hout, rfl⟩ := grep_cons hc0 h
    rw [ih (by simp [hcarry0, hcs0]) hcarry htail hout, matching_append re (buf ++ c), carried]
    by_cases h10 : 10 ∈ buf ++ c
    · rw [if_pos h10]
    · -- what is dropped is part of no line: no newline follows
      have hno : 10 ∉ cs.flatten := fun hmem => by
        obtain ⟨c', hc', h'⟩ := mem_flatten.1 hmem
        exact h10 (mem_append_right _ (hhead c' hc' h'))
      rw [if_neg h10, unfinished_of_notMem h10, nil_append, matching_of_notMem hno,
        matching_of_notMem (s := buf ++ c ++ _) (by simp_all)]

/-- **Where a line is broken**, the empty pattern shows it: `grep` writes fewer bytes. -/
theorem length_le : ∀ {buf out : Str}, 0 ∉ buf ++ cs.flatten → 10 ∉ buf →
    grep [] buf cs = some out → out.length ≤ (matching [] (buf ++ cs.flatten)).length ∧
      (out.length = (matching [] (buf ++ cs.flatten)).length → Unbroken cs) := by
  induction cs with
  | nil =>
    intro buf out _ _ h
    rw [← some.inj h]
    exact ⟨Nat.zero_le _, fun _ => .nil⟩
  | cons c cs ih =>
    intro buf out h0 hbuf h
    rw [flatten_cons, ← append_assoc] at h0 ⊢
    obtain ⟨hc0, hcs0⟩ := not_or.1 (mt mem_append.2 h0)
    obtain ⟨hcarry, hcarry0⟩ := carried_spec hc0
    obtain ⟨hne, out', hout, rfl⟩ := grep_cons hc0 h
    obtain ⟨hle, heq⟩ := ih (by simp [hcarry0, hcs0]) hcarry hout
    rw [matching_append [] (buf ++ c), length_append, length_append]
    rw [carried] at hle heq
    by_cases h10 : 10 ∈ buf ++ c
    · rw [if_pos h10] at hle heq
      refine ⟨Nat.add_le_add_left hle _, fun h => .cons (fun _ _ _ => ?_) (heq (by omega))⟩
      exact (mem_append.1 h10).resolve_left hbuf
    · rw [if_neg h10, nil_append] at hle heq
      rw [unfinished_of_notMem h10, matching_of_notMem h10]
      by_cases hmem : 10 ∈ cs.flatten
      · have hlen := congrArg length (matching_nil (buf ++ c ++ cs.flatten))
        have hlen' := congrArg length (matching_nil cs.flatten)
        have hpos := length_pos_iff.2 hne
        rw [unfinished_append hmem] at hlen
        simp only [length_append, length_nil] at hlen hlen' ⊢
        exact ⟨by omega, fun h => by omega⟩
      · rw [matching_of_notMem hmem] at hle heq
        rw [matching_of_notMem (s := buf ++ c ++ _) (by simp_all)]
        simp only [length_nil, Nat.zero_add] at hle heq ⊢
        refine ⟨hle, fun h => .cons (fun c' hc' h' => ?_) (heq h)⟩
        exact absurd (mem_flatten.2 ⟨c', hc', h'⟩) hmem

/-- **`grep` writes the matching lines exactly if no line is broken.**  For every NUL-free input and
every chunks in which `read` may return it: whatever the pattern, `grep` writes the lines that end
in a newline and match, in order, if and only if no chunk without a newline comes before a chunk
with a newline. -/
theorem grep_lines_iff (cs : List Str) (h₀ : 0 ∉ cs.flatten)
    (hread : ∀ re, (grep re [] cs).isSome) :
    (∀ re, grep re [] cs = some (matching re cs.flatten)) ↔ Unbroken cs := by
  constructor
  · exact fun h => (length_le (by simpa using h₀) not_mem_nil (h [])).2 rfl
  · intro hw re
    obtain ⟨out, hout⟩ := isSome_iff_exists.1 (hread re)
    rw [hout, eq_matching (by simpa using h₀) not_mem_nil hw hout]
    rfl

/-- The hypotheses of `grep_lines_iff` are satisfiable: two lines in two chunks. -/
theorem grep_lines_iff_two : grep [97] [] [[97, 10], [98, 10]] =
    some (matching [97] [97, 10, 98, 10]) :=
  (grep_lines_iff [[97, 10], [98, 10]] (by decide) fun re => by
    simp [grep, scan_eq, show unfinished [97, 10] = [] by decide]).2 (by simp [Unbroken]) [97]

/-- **A line in two chunks is lost.**  The line `ab` matches the pattern `a`; `grep` writes it if it
comes in one chunk, and nothing if its first byte comes alone. -/
theorem grep_split_line : matching [97] [97, 98, 10] = [97, 98, 10] ∧
    grep [97] [] [[97, 98, 10]] = some [97, 98, 10] ∧
      grep [97] [] [[97], [98, 10]] = some [] := by
  have hmatch : «match» [97] [97, 98] = true := by simp [«match», matchLoop, matchhere]
  refine ⟨?_, ?_, ?_⟩
  · simp [matching, show splitOn (10 : UInt8) [97, 98, 10] = [[97, 98], []] by decide, hmatch]
  · simp [grep, scan, strchr, hmatch]
  · simp [grep, scan, strchr, «match», matchLoop, matchhere]

end Xv6.Grep
