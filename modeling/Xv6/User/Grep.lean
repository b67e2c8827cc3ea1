/-
# The matcher of grep

`match`, `matchhere` and `matchstar` of `grep.c`: a backtracking matcher for patterns with the
metacharacters `^`, `$`, `.` and `*`.

A `char*` is the bytes from there up to the NUL, and `*text++` leaves the bytes behind the first.
The two loops run over the text, and the recursion between `matchhere` and `matchstar` takes bytes
off the pattern, so the functions are total.

What a pattern means is said apart from the matcher. `pattern` reads it from left to right into
items, each one letter or any number of letters, and the two anchors; an item denotes a language and
a sequence of items the product of their languages. `match_iff` is the agreement of the two.
-/
import Mathlib.Computability.Language
import Mathlib.Tactic.Common

namespace Xv6.Grep

open List

/-- The bytes of a string from a pointer into it up to its end. -/
abbrev Str := List UInt8

/-! ## The matcher -/

mutual

/-- `matchhere(re, text)`: search for `re` at the beginning of `text`. -/
def matchhere (re text : Str) : Bool :=
  match re with
  | [] => true
  | c :: re =>
    if re.head? = some 42 then matchstar c re.tail text
    else if c = 36 ∧ re = [] then text = []
    else
      match text with
      | [] => false
      | t :: text => if c = 46 ∨ c = t then matchhere re text else false
termination_by (2 * re.length, text.length)
decreasing_by
  · left
    simp only [length_cons, length_tail]
    omega
  · left
    simp only [length_cons]
    omega

/-- `matchstar(c, re, text)`: search for `c*re` at the beginning of `text`. -/
def matchstar (c : UInt8) (re text : Str) : Bool :=
  if matchhere re text then true
  else
    match text with
    | [] => false
    | t :: text => if t = c ∨ c = 46 then matchstar c re text else false
termination_by (2 * re.length + 1, text.length)
decreasing_by
  · left
    omega
  · right
    simp only [length_cons]
    omega

end

/-- The loop of `match`: the pattern at every position of the text, the end included. -/
def matchLoop (re : Str) : Str → Bool
  | [] => matchhere re []
  | t :: text => if matchhere re (t :: text) then true else matchLoop re text

/-- `match(re, text)`. -/
def «match» (re text : Str) : Bool :=
  if re.head? = some 94 then matchhere re.tail text else matchLoop re text

/-! ## What a pattern means -/

/-- A single letter of a pattern. -/
inductive Letter where
  /-- The character itself. -/
  | char (c : UInt8)
  /-- `.`: any one character. -/
  | any
  deriving DecidableEq, Repr

/-- A part of a pattern. -/
inductive Item where
  | one (x : Letter)
  /-- The letter, followed by `*`. -/
  | star (x : Letter)
  deriving DecidableEq, Repr

/-- A pattern: its items, and whether it is anchored at the start and at the end. -/
structure Pattern where
  start : Bool
  items : List Item
  stop : Bool
  deriving DecidableEq, Repr

/-- The letter that a character stands for. -/
def letter (c : UInt8) : Letter := if c = 46 then .any else .char c

/-- The items of a pattern behind its `^`, from left to right, and whether it ends in a `$` that is
an anchor. -/
def items : Str → List Item × Bool
  | [] => ([], false)
  | [c] => if c = 36 then ([], true) else ([.one (letter c)], false)
  | c :: c' :: re =>
    if c' = 42 then ((.star (letter c)) :: (items re).1, (items re).2)
    else ((.one (letter c)) :: (items (c' :: re)).1, (items (c' :: re)).2)

/-- How a pattern is read. -/
def pattern (re : Str) : Pattern :=
  if re.head? = some 94 then ⟨true, (items re.tail).1, (items re.tail).2⟩
  else ⟨false, (items re).1, (items re).2⟩

/-- The letter stands for the character `t`. -/
def Letter.Is : Letter → UInt8 → Prop
  | .char c, t => c = t
  | .any, _ => True

/-- The words of one character that the letter stands for. -/
def Letter.lang (x : Letter) : Language UInt8 := {v | ∃ t, x.Is t ∧ v = [t]}

/-- The words that an item stands for. -/
def Item.lang : Item → Language UInt8
  | .one x => x.lang
  | .star x => KStar.kstar x.lang

/-- A part of the text from its beginning is a word of the items, and all of it if `stop`. -/
def Here (is : List Item) (stop : Bool) (text : Str) : Prop :=
  ∃ v w, text = v ++ w ∧ v ∈ (is.map Item.lang).prod ∧ (stop = true → w = [])

/-- **The pattern matches the text**: some part of it is a word of the items, from the start and to
the end of the text where the pattern is anchored there. -/
def Pattern.Matches (p : Pattern) (text : Str) : Prop :=
  ∃ u text', text = u ++ text' ∧ (p.start = true → u = []) ∧ Here p.items p.stop text'

/-! ## The matcher and the meaning -/

section

variable {x : Letter} {is : List Item} {stop : Bool} {c t : UInt8} {re text : Str}

theorem letter_is : (letter c).Is t ↔ c = 46 ∨ c = t := by
  rw [letter]
  split_ifs with h <;> simp [h, Letter.Is]

/-- Any number of letters. -/
theorem mem_kstar_lang {v : Str} : v ∈ KStar.kstar x.lang ↔ ∀ t ∈ v, x.Is t := by
  rw [Language.mem_kstar]
  constructor
  · rintro ⟨vs, rfl, hvs⟩ t ht
    obtain ⟨v, hv, htv⟩ := mem_flatten.1 ht
    obtain ⟨t', ht', rfl⟩ := hvs v hv
    rwa [mem_singleton.1 htv]
  · intro h
    refine ⟨v.map fun t => [t], ?_, fun v' hv' => ?_⟩
    · induction v with
      | nil => rfl
      | cons t v ih =>
        rw [map_cons, flatten_cons, ← ih fun t' ht' => h t' (mem_cons_of_mem t ht')]
        rfl
    · obtain ⟨t, ht, rfl⟩ := mem_map.1 hv'
      exact ⟨t, h t ht, rfl⟩

/-- No items match the empty word. -/
theorem here_nil : Here [] stop text ↔ (stop = true → text = []) := by
  constructor
  · rintro ⟨v, w, rfl, hv, hw⟩ hstop
    rw [(Language.mem_one v).1 hv, hw hstop]
    rfl
  · exact fun h => ⟨[], text, rfl, (Language.mem_one []).2 rfl, h⟩

/-- The first item matches a word, and the others what is behind it. -/
theorem here_cons {i : Item} :
    Here (i :: is) stop text ↔ ∃ u text', text = u ++ text' ∧ u ∈ i.lang ∧ Here is stop text' := by
  constructor
  · rintro ⟨v, w, rfl, hv, hw⟩
    obtain ⟨u, hu, v', hv', rfl⟩ := Language.mem_mul.1 hv
    exact ⟨u, v' ++ w, append_assoc u v' w, hu, v', w, rfl, hv', hw⟩
  · rintro ⟨u, text', rfl, hu, v', w, rfl, hv', hw⟩
    exact ⟨u ++ v', w, (append_assoc u v' w).symm, Language.mem_mul.2 ⟨u, hu, v', hv', rfl⟩, hw⟩

theorem here_one : Here (.one x :: is) stop text ↔
    ∃ t text', text = t :: text' ∧ x.Is t ∧ Here is stop text' := by
  rw [here_cons]
  constructor
  · rintro ⟨u, text', rfl, ⟨t, ht, rfl⟩, h⟩
    exact ⟨t, text', rfl, ht, h⟩
  · rintro ⟨t, text', rfl, ht, h⟩
    exact ⟨[t], text', rfl, ⟨t, ht, rfl⟩, h⟩

theorem here_star : Here (.star x :: is) stop text ↔
    ∃ u text', text = u ++ text' ∧ (∀ t ∈ u, x.Is t) ∧ Here is stop text' := by
  rw [here_cons]
  simp only [Item.lang, mem_kstar_lang]

/-- **`matchstar`** skips some of the characters that `c` stands for. -/
theorem matchstar_iff : matchstar c re text = true ↔
    ∃ u text', text = u ++ text' ∧ (∀ t ∈ u, (letter c).Is t) ∧ matchhere re text' = true := by
  induction text with
  | nil =>
    rw [matchstar]
    constructor
    · intro h
      refine ⟨[], [], rfl, fun t ht => absurd ht not_mem_nil, ?_⟩
      simpa using h
    · rintro ⟨u, text', hnil, -, h⟩
      rw [(append_eq_nil_iff.1 hnil.symm).2] at h
      rw [if_pos h]
  | cons t text ih =>
    rw [matchstar]
    constructor
    · intro h
      by_cases hhere : matchhere re (t :: text) = true
      · exact ⟨[], t :: text, rfl, fun t ht => absurd ht not_mem_nil, hhere⟩
      · rw [if_neg hhere] at h
        by_cases hc : t = c ∨ c = 46
        · obtain ⟨u, text', rfl, hu, h'⟩ := ih.1 (by simpa [hc] using h)
          refine ⟨t :: u, text', rfl, fun t' ht' => ?_, h'⟩
          rcases mem_cons.1 ht' with rfl | ht'
          · exact letter_is.2 (hc.symm.imp id Eq.symm)
          · exact hu t' ht'
        · simp [hc] at h
    · rintro ⟨u, text', happ, hu, h⟩
      cases u with
      | nil =>
        rw [happ, nil_append, if_pos h]
      | cons t' u =>
        obtain ⟨rfl, rfl⟩ := cons.inj happ
        have hc : t = c ∨ c = 46 := (letter_is.1 (hu t mem_cons_self)).symm.imp Eq.symm id
        have hstar := ih.2 ⟨u, text', rfl, fun t' ht' => hu t' (mem_cons_of_mem t ht'), h⟩
        simp only [hc, if_true, hstar, ite_self]

/-- **`matchhere`** matches the items of the pattern. -/
theorem matchhere_iff (re : Str) : ∀ text : Str,
    matchhere re text = true ↔ Here (items re).1 (items re).2 text := by
  induction re using items.induct with
  | case1 =>
    intro text
    rw [matchhere, items, here_nil]
    simp
  | case2 =>
    intro text
    rw [matchhere.eq_def, items, if_pos rfl, here_nil]
    simp
  | case3 c hc =>
    intro text
    rw [matchhere.eq_def, items, if_neg hc, here_one]
    cases text with
    | nil => simp [hc]
    | cons t text => simp [hc, matchhere, letter_is, here_nil]
  | case4 c re ih =>
    intro text
    rw [matchhere.eq_def, items, if_pos rfl, here_star]
    dsimp only
    rw [if_pos head?_cons, tail_cons, matchstar_iff]
    simp only [ih]
  | case5 c c' re hc' ih =>
    intro text
    rw [matchhere.eq_def, items, if_neg hc', here_one]
    dsimp only
    rw [if_neg (by simpa using hc'), if_neg (by simp)]
    cases text with
    | nil => simp
    | cons t text =>
      by_cases hc : c = 46 ∨ c = t
      · simp [hc, ih, letter_is]
      · simp [hc, letter_is]

/-- The loop of `match` finds the first position from which the pattern matches. -/
theorem matchLoop_iff : matchLoop re text = true ↔
    ∃ u text', text = u ++ text' ∧ matchhere re text' = true := by
  induction text with
  | nil =>
    rw [matchLoop]
    constructor
    · exact fun h => ⟨[], [], rfl, h⟩
    · rintro ⟨u, text', hnil, h⟩
      rwa [(append_eq_nil_iff.1 hnil.symm).2] at h
  | cons t text ih =>
    rw [matchLoop]
    constructor
    · intro h
      by_cases hhere : matchhere re (t :: text) = true
      · exact ⟨[], t :: text, rfl, hhere⟩
      · rw [if_neg hhere] at h
        obtain ⟨u, text', rfl, h'⟩ := ih.1 h
        exact ⟨t :: u, text', rfl, h'⟩
    · rintro ⟨u, text', happ, h⟩
      cases u with
      | nil => rw [happ, nil_append, if_pos h]
      | cons t' u =>
        obtain ⟨rfl, rfl⟩ := cons.inj happ
        rw [ih.2 ⟨u, text', rfl, h⟩, ite_self]

end

/-- **The matcher implements its pattern language.** For every pattern and text, `match` returns 1
exactly when the pattern, as it is read, matches the text. -/
theorem match_iff (re text : Str) : «match» re text = true ↔ (pattern re).Matches text := by
  rw [«match», pattern]
  by_cases hre : re.head? = some 94
  · rw [if_pos hre, if_pos hre, matchhere_iff]
    constructor
    · exact fun h => ⟨[], text, rfl, fun _ => rfl, h⟩
    · rintro ⟨u, text', rfl, hu, h⟩
      rwa [hu rfl]
  · rw [if_neg hre, if_neg hre, matchLoop_iff]
    simp only [matchhere_iff, Pattern.Matches, Bool.false_eq_true, false_implies, true_and]

end Xv6.Grep
