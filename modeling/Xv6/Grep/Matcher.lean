import Mathlib

/-!
# The matcher of `grep`

`match`, `matchhere` and `matchstar` of `user/grep.c`, and the language of patterns that they
decide.  A string is the list of its bytes before the NUL, so that a test for NUL is a test for
the end of the list.

A pattern is read from left to right as a list of items, each with a language, and it may end
with `$`.  A text matches if it has a part in the product of these languages: a part at the
beginning if the pattern starts with `^`, and at the end if it ends with `$`.
-/

namespace Xv6.Grep

open scoped Computability

def STAR : UInt8 := 42
def DOLLAR : UInt8 := 36
def DOT : UInt8 := 46
def CARET : UInt8 := 94

/-! ## `user/grep.c` -/

mutual

/-- Search for `re` at the beginning of `text`. -/
def matchhere : List UInt8 → List UInt8 → Bool
  | [], _ => true
  | c :: re, text =>
      if re.head? = some STAR then matchstar c re.tail text
      else if c = DOLLAR ∧ re = [] then text.isEmpty
      else
        match text with
        | [] => false
        | t :: text => if c = DOT ∨ c = t then matchhere re text else false
termination_by re text => (re.length, text.length, 0)

/-- Search for `c*re` at the beginning of `text`. -/
def matchstar (c : UInt8) (re text : List UInt8) : Bool :=
  if matchhere re text then true
  else
    match text with
    | [] => false
    | t :: text => if t = c ∨ c = DOT then matchstar c re text else false
termination_by (re.length, text.length, 1)

end

/-- The loop of `match`.  It looks at the empty string, too. -/
def matchLoop (re : List UInt8) : List UInt8 → Bool
  | [] => matchhere re []
  | t :: text => if matchhere re (t :: text) then true else matchLoop re text

/-- `match`. -/
def matchRe : List UInt8 → List UInt8 → Bool
  | [], text => matchLoop [] text
  | c :: re, text => if c = CARET then matchhere re text else matchLoop (c :: re) text

section

variable {c t : UInt8} {re text : List UInt8}

theorem matchhere_star : matchhere (c :: STAR :: re) text = matchstar c re text := by
  rw [matchhere.eq_def]
  rfl

theorem matchhere_dollar : matchhere [DOLLAR] text = text.isEmpty := by
  rw [matchhere.eq_def]
  rfl

variable (hstar : re.head? ≠ some STAR) (hend : ¬ (c = DOLLAR ∧ re = []))
include hstar hend

theorem matchhere_char_nil : matchhere (c :: re) [] = false := by
  rw [matchhere.eq_def]
  simp only
  rw [if_neg hstar, if_neg hend]

theorem matchhere_char_cons : matchhere (c :: re) (t :: text) = true ↔
    (c = DOT ∨ c = t) ∧ matchhere re text = true := by
  rw [matchhere.eq_def]
  simp only
  rw [if_neg hstar, if_neg hend]
  by_cases h : c = DOT ∨ c = t
  · rw [if_pos h]
    exact ⟨fun hm => ⟨h, hm⟩, fun hm => hm.2⟩
  · rw [if_neg h]
    exact ⟨fun hm => absurd hm (by decide), fun hm => absurd hm.1 h⟩

end

/-! ## The language of patterns -/

/-- What a pattern is made of. -/
inductive Item where
  /-- Zero or more of a character. -/
  | many (c : UInt8)
  /-- Zero or more arbitrary characters. -/
  | anything
  /-- One arbitrary character. -/
  | any
  /-- A character. -/
  | char (c : UInt8)

def Item.language : Item → Language UInt8
  | .many c => ({[c]} : Language UInt8)∗
  | .anything => ⊤
  | .any => { w | w.length = 1 }
  | .char c => {[c]}

/-- A character that is followed by `*`. -/
def Item.star (c : UInt8) : Item := if c = DOT then .anything else .many c

/-- A character that is not followed by `*`. -/
def Item.one (c : UInt8) : Item := if c = DOT then .any else .char c

/-- A pattern: its items, and whether it ends with `$`. -/
structure Pattern where
  items : List Item
  atEnd : Bool

def Pattern.cons (i : Item) (p : Pattern) : Pattern := { p with items := i :: p.items }

/-- The pattern that a string says. -/
def Pattern.read : List UInt8 → Pattern
  | [] => ⟨[], false⟩
  | [c] => if c = DOLLAR then ⟨[], true⟩ else ⟨[.one c], false⟩
  | c :: d :: re => if d = STAR then .cons (.star c) (read re) else .cons (.one c) (read (d :: re))

def Pattern.language (p : Pattern) : Language UInt8 := (p.items.map Item.language).prod

/-- The pattern without `^`. -/
def body (re : List UInt8) : List UInt8 := if re.head? = some CARET then re.tail else re

/-- Some part of the text is in the language of the pattern. -/
def Accepts (re text : List UInt8) : Prop :=
  ∃ before w after, text = before ++ (w ++ after) ∧ w ∈ (Pattern.read (body re)).language ∧
    (re.head? = some CARET → before = []) ∧ ((Pattern.read (body re)).atEnd = true → after = [])

/-! ## The languages of items -/

variable {c t : UInt8} {re text w : List UInt8} {p : Pattern} {i : Item}

theorem mem_star_iff : w ∈ (Item.star c).language ↔ ∀ x ∈ w, x = c ∨ c = DOT := by
  by_cases hc : c = DOT
  · rw [Item.star, if_pos hc]
    exact ⟨fun _ _ _ => .inr hc, fun _ => trivial⟩
  · rw [Item.star, if_neg hc, Item.language, Language.mem_kstar]
    constructor
    · rintro ⟨parts, rfl, hparts⟩ x hx
      obtain ⟨y, hy, hxy⟩ := List.mem_flatten.mp hx
      rw [Set.mem_singleton_iff.mp (hparts y hy)] at hxy
      exact .inl (List.mem_singleton.mp hxy)
    · intro h
      refine ⟨w.map fun x => [x], by simp [← List.flatMap_def], fun y hy => ?_⟩
      obtain ⟨x, hx, rfl⟩ := List.mem_map.mp hy
      rw [(h x hx).resolve_right hc]
      rfl

theorem mem_one_iff : w ∈ (Item.one c).language ↔ ∃ x, w = [x] ∧ (c = DOT ∨ c = x) := by
  by_cases hc : c = DOT
  · rw [Item.one, if_pos hc]
    constructor
    · intro h
      obtain ⟨x, hx⟩ := List.length_eq_one_iff.mp h
      exact ⟨x, hx, .inl hc⟩
    · rintro ⟨x, rfl, -⟩
      rfl
  · rw [Item.one, if_neg hc]
    constructor
    · intro h
      exact ⟨c, h, .inr rfl⟩
    · rintro ⟨x, rfl, h⟩
      rw [h.resolve_left hc]
      rfl

/-! ## The matcher decides it -/

/-- Some part at the beginning of the text is in the language of the pattern. -/
def Pattern.Here (p : Pattern) (text : List UInt8) : Prop :=
  ∃ w after, text = w ++ after ∧ w ∈ p.language ∧ (p.atEnd = true → after = [])

theorem Pattern.here_cons :
    (Pattern.cons i p).Here text ↔ ∃ u v, text = u ++ v ∧ u ∈ i.language ∧ p.Here v := by
  constructor
  · rintro ⟨w, after, rfl, hw, hend⟩
    obtain ⟨u, hu, v, hv, rfl⟩ := Language.mem_mul.mp (by simpa [language, cons] using hw)
    exact ⟨u, v ++ after, List.append_assoc .., hu, v, after, rfl, hv, hend⟩
  · rintro ⟨u, _, rfl, hu, v, after, rfl, hv, hend⟩
    refine ⟨u ++ v, after, (List.append_assoc ..).symm, ?_, hend⟩
    simpa [language, cons] using Language.mem_mul.mpr ⟨u, hu, v, hv, rfl⟩

theorem Pattern.here_nil (hp : p.items = []) : p.Here text ↔ (p.atEnd = true → text = []) := by
  constructor
  · rintro ⟨w, after, rfl, hw, hend⟩ hat
    rw [language, hp] at hw
    rw [hend hat, List.append_nil]
    exact Language.mem_one w |>.mp hw
  · intro h
    refine ⟨[], text, rfl, ?_, h⟩
    rw [language, hp]
    exact Language.nil_mem_one

/-- One character of the pattern. -/
theorem Pattern.here_one : (Pattern.cons (.one c) p).Here text ↔
    ∃ t rest, text = t :: rest ∧ (c = DOT ∨ c = t) ∧ p.Here rest := by
  rw [here_cons]
  constructor
  · rintro ⟨u, v, rfl, hu, hv⟩
    obtain ⟨t, rfl, ht⟩ := mem_one_iff.mp hu
    exact ⟨t, v, rfl, ht, hv⟩
  · rintro ⟨t, rest, rfl, ht, hv⟩
    exact ⟨[t], rest, rfl, mem_one_iff.mpr ⟨t, rfl, ht⟩, hv⟩

/-- `matchstar` tries every number of characters. -/
theorem matchstar_iff (h : ∀ text, matchhere re text = true ↔ p.Here text) :
    matchstar c re text = true ↔ (Pattern.cons (.star c) p).Here text := by
  rw [Pattern.here_cons]
  induction text with
  | nil =>
      rw [matchstar]
      constructor
      · intro hm
        exact ⟨[], [], rfl, mem_star_iff.mpr (by simp), (h []).mp (by simpa using hm)⟩
      · rintro ⟨u, v, huv, -, hv⟩
        obtain ⟨rfl, rfl⟩ := List.append_eq_nil_iff.mp huv.symm
        simpa using (h []).mpr hv
  | cons t text ih =>
      rw [matchstar]
      by_cases hm : matchhere re (t :: text) = true
      · rw [if_pos hm]
        exact ⟨fun _ => ⟨[], t :: text, rfl, mem_star_iff.mpr (by simp), (h _).mp hm⟩, fun _ => rfl⟩
      · rw [if_neg hm]
        -- nothing is taken only if the rest matches here
        constructor
        · intro hs
          by_cases ht : t = c ∨ c = DOT
          · obtain ⟨u, v, rfl, hu, hv⟩ := ih.mp (by simpa [ht] using hs)
            refine ⟨t :: u, v, rfl, mem_star_iff.mpr ?_, hv⟩
            exact List.forall_mem_cons.mpr ⟨ht, mem_star_iff.mp hu⟩
          · simp [ht] at hs
        · rintro ⟨u, v, huv, hu, hv⟩
          cases u with
          | nil =>
              rw [List.nil_append] at huv
              rw [← huv] at hv
              exact absurd ((h _).mpr hv) hm
          | cons x u =>
              obtain ⟨rfl, rfl⟩ := List.cons.inj huv
              obtain ⟨ht, hu⟩ := List.forall_mem_cons.mp (mem_star_iff.mp hu)
              have := ih.mpr ⟨u, v, rfl, mem_star_iff.mpr hu, hv⟩
              simpa [ht] using this

/-- A character that is neither followed by `*` nor `$` at the end. -/
theorem matchhere_one_iff (hstar : re.head? ≠ some STAR) (hend : ¬ (c = DOLLAR ∧ re = []))
    (h : ∀ text, matchhere re text = true ↔ p.Here text) :
    matchhere (c :: re) text = true ↔ (Pattern.cons (.one c) p).Here text := by
  rw [Pattern.here_one]
  cases text with
  | nil =>
      rw [matchhere_char_nil hstar hend]
      constructor
      · intro hm
        cases hm
      · rintro ⟨t, rest, he, -⟩
        cases he
  | cons t text =>
      rw [matchhere_char_cons hstar hend, h]
      constructor
      · rintro ⟨ht, hm⟩
        exact ⟨t, text, rfl, ht, hm⟩
      · rintro ⟨_, _, ⟨⟩, ht, hm⟩
        exact ⟨ht, hm⟩

theorem matchhere_iff : matchhere re text = true ↔ (Pattern.read re).Here text := by
  induction re using Pattern.read.induct generalizing text with
  | case1 =>
      rw [matchhere.eq_def, Pattern.read, Pattern.here_nil rfl]
      simp
  | case2 =>
      rw [matchhere_dollar, Pattern.read, if_pos rfl, Pattern.here_nil rfl]
      simp
  | case3 c hc =>
      rw [Pattern.read, if_neg hc]
      refine matchhere_one_iff (p := .read []) (by simp) (fun h => hc h.1) fun text => ?_
      rw [matchhere.eq_def, Pattern.read, Pattern.here_nil rfl]
      simp
  | case4 c re ih =>
      rw [matchhere_star, Pattern.read, if_pos rfl]
      exact matchstar_iff fun text => ih
  | case5 c d re hd ih =>
      rw [Pattern.read, if_neg hd]
      exact matchhere_one_iff (by simpa using hd) (by simp) fun text => ih

theorem matchLoop_iff : matchLoop re text = true ↔
    ∃ before rest, text = before ++ rest ∧ (Pattern.read re).Here rest := by
  induction text with
  | nil =>
      rw [matchLoop, matchhere_iff]
      constructor
      · intro h
        exact ⟨[], [], rfl, h⟩
      · rintro ⟨before, rest, he, h⟩
        obtain ⟨rfl, rfl⟩ := List.append_eq_nil_iff.mp he.symm
        exact h
  | cons t text ih =>
      rw [matchLoop]
      constructor
      · intro h
        by_cases hm : matchhere re (t :: text) = true
        · exact ⟨[], t :: text, rfl, matchhere_iff.mp hm⟩
        · rw [if_neg hm] at h
          obtain ⟨before, rest, rfl, hr⟩ := ih.mp h
          exact ⟨t :: before, rest, rfl, hr⟩
      · rintro ⟨before, rest, he, h⟩
        cases before with
        | nil =>
            rw [he]
            simp [matchhere_iff.mpr h]
        | cons x before =>
            have htail := ih.mpr ⟨before, rest, (List.cons.inj he).2, h⟩
            simp [htail]

/-- `match` returns, and it returns 1 exactly for the texts that the pattern accepts. -/
theorem match_decides (re text : List UInt8) : matchRe re text = true ↔ Accepts re text := by
  have hloop : re.head? ≠ some CARET → (matchLoop re text = true ↔ Accepts re text) := by
    intro hre
    rw [matchLoop_iff, Accepts, body, if_neg hre]
    constructor
    · rintro ⟨before, _, rfl, w, after, rfl, hw, hend⟩
      exact ⟨before, w, after, rfl, hw, fun h => absurd h hre, hend⟩
    · rintro ⟨before, w, after, rfl, hw, -, hend⟩
      exact ⟨before, w ++ after, rfl, w, after, rfl, hw, hend⟩
  cases re with
  | nil => exact hloop (by simp)
  | cons c re =>
      rw [matchRe]
      by_cases hc : c = CARET
      · subst hc
        have hbody : body (CARET :: re) = re := rfl
        rw [if_pos rfl, matchhere_iff, Accepts, hbody]
        constructor
        · rintro ⟨w, after, rfl, hw, hend⟩
          exact ⟨[], w, after, rfl, hw, fun _ => rfl, hend⟩
        · rintro ⟨before, w, after, rfl, hw, hstart, hend⟩
          rw [hstart rfl]
          exact ⟨w, after, rfl, hw, hend⟩
      · rw [if_neg hc]
        exact hloop (by simpa using hc)

end Xv6.Grep
