import Xv6.Lib.Pattern
import Xv6.User.Grep
/-!
# `grep` finds what its pattern denotes

A pattern is read as a caret, if it starts with one, and elements with an optional star,
up to a dollar at its very end.
-/

namespace Xv6.User.Grep

open Xv6.Lib

/-! ## Reading a pattern -/

/-- A character of the pattern with or without a star. -/
structure Elem where
  char : UInt8
  starred : Bool

def Elem.text (e : Elem) : List UInt8 := if e.starred = true then [e.char, star] else [e.char]

def accepts (c t : UInt8) : Bool := c = dot ∨ c = t

def Elem.item (e : Elem) : Item UInt8 :=
  if e.starred = true then .many (accepts e.char) else .once (accepts e.char)

/-- A pattern without its caret. -/
structure Reading where
  elems : List Elem
  toEnd : Bool

def Reading.text (r : Reading) : List UInt8 :=
  r.elems.flatMap Elem.text ++ if r.toEnd = true then [dollar] else []

def Reading.items (r : Reading) : List (Item UInt8) := r.elems.map Elem.item

def Reading.cons (e : Elem) (r : Reading) : Reading := ⟨e :: r.elems, r.toEnd⟩

/-- A star belongs to the character before it; a dollar is an anchor only where the
pattern ends. -/
def read : List UInt8 → Reading
  | [] => ⟨[], false⟩
  | [c] => if c = dollar then ⟨[], true⟩ else ⟨[⟨c, false⟩], false⟩
  | c :: d :: rest =>
    if d = star then (read rest).cons ⟨c, true⟩ else (read (d :: rest)).cons ⟨c, false⟩

theorem text_read (re : List UInt8) : (read re).text = re := by
  induction re using read.induct with
  | case1 => rfl
  | case2 => rfl
  | case3 c hc =>
    rw [read, if_neg hc]
    rfl
  | case4 c rest ih =>
    rw [read, if_pos rfl]
    change c :: star :: (read rest).text = _
    rw [ih]
  | case5 c d rest hd ih =>
    rw [read, if_neg hd]
    change c :: (read (d :: rest)).text = _
    rw [ih]

/-! ## The matcher -/

section

variable {re text rest : List UInt8} {c t : UInt8} {items : List (Item UInt8)} {toEnd : Bool}

theorem accepts_iff : accepts c t = true ↔ c = dot ∨ c = t := by
  unfold accepts
  exact decide_eq_true_iff

/-- `matchstar` takes characters as long as `c` stands for them, and tries the rest of the
pattern before each. -/
theorem matchstar_iff (hre : ∀ text, matchhere re text = true ↔ Item.Here items toEnd text) :
    ∀ text, matchstar c re text = true ↔ Item.Here (.many (accepts c) :: items) toEnd text := by
  intro text
  induction text with
  | nil =>
    rw [matchstar, Item.here_many, ← hre]
    simp
  | cons t text ih =>
    rw [matchstar, Item.here_many, ← hre]
    by_cases hhere : matchhere re (t :: text) = true
    · simp [hhere]
    by_cases ht : t = c ∨ c = dot
    · have hacc : accepts c t = true := accepts_iff.mpr (ht.symm.imp_right Eq.symm)
      simp only [hhere, if_false, ht, if_true, ih, false_or, Bool.false_eq_true]
      constructor
      · exact fun h => ⟨t, text, rfl, hacc, h⟩
      rintro ⟨a, rest, heq, _, h⟩
      cases heq
      exact h
    · simp only [hhere, if_false, ht, false_or, Bool.false_eq_true, false_iff]
      rintro ⟨a, rest, heq, hacc, _⟩
      cases heq
      exact ht ((accepts_iff.mp hacc).symm.imp_left Eq.symm)

theorem matchhere_once (hstar : rest.head? ≠ some star) (hend : ¬(c = dollar ∧ rest = []))
    (hrest : ∀ text, matchhere rest text = true ↔ Item.Here items toEnd text) (text : List UInt8) :
    matchhere (c :: rest) text = true ↔ Item.Here (.once (accepts c) :: items) toEnd text := by
  rw [matchhere.eq_def, Item.here_once]
  simp only [if_neg hstar, if_neg hend]
  cases text with
  | nil => simp
  | cons t text =>
    by_cases ht : c = dot ∨ c = t
    · simp only [ht, if_true, hrest]
      constructor
      · exact fun h => ⟨t, text, rfl, accepts_iff.mpr ht, h⟩
      rintro ⟨a, rest, heq, _, h⟩
      cases heq
      exact h
    · simp only [ht, if_false, Bool.false_eq_true, false_iff]
      rintro ⟨a, rest, heq, hacc, _⟩
      cases heq
      exact ht (accepts_iff.mp hacc)

theorem matchhere_iff (re : List UInt8) : ∀ text, matchhere re text = true ↔
    Item.Here (read re).items (read re).toEnd text := by
  induction re using read.induct with
  | case1 =>
    intro text
    rw [matchhere]
    exact iff_of_true rfl (Item.here_nil.mpr fun h => by cases h)
  | case2 =>
    intro text
    rw [matchhere.eq_def]
    simp only [List.head?_nil, reduceCtorEq, if_false, and_self, if_true, List.isEmpty_iff]
    exact (Item.here_nil.trans ⟨fun h => h rfl, fun h _ => h⟩).symm
  | case3 c hc =>
    rw [read, if_neg hc]
    refine matchhere_once (by simp) (fun h => hc h.1) fun text => ?_
    rw [matchhere]
    exact iff_of_true rfl (Item.here_nil.mpr fun h => by cases h)
  | case4 c rest ih =>
    intro text
    rw [matchhere.eq_def, read, if_pos rfl]
    simp only [List.head?_cons, if_true, List.tail_cons]
    exact matchstar_iff ih text
  | case5 c d rest hd ih =>
    rw [read, if_neg hd]
    exact matchhere_once (by simpa using hd) (fun h => by cases h.2) ih

theorem matchLoop_iff : ∀ text, matchLoop re text = true ↔
    ∃ skipped rest, text = skipped ++ rest ∧ Item.Here (read re).items (read re).toEnd rest := by
  intro text
  induction text with
  | nil =>
    rw [matchLoop, matchhere_iff]
    constructor
    · exact fun h => ⟨[], [], rfl, h⟩
    rintro ⟨skipped, rest, heq, h⟩
    obtain ⟨_, rfl⟩ := List.append_eq_nil_iff.mp heq.symm
    exact h
  | cons t text ih =>
    rw [matchLoop]
    split
    · rename_i hhere
      exact iff_of_true rfl ⟨[], t :: text, rfl, (matchhere_iff re _).mp hhere⟩
    rename_i hhere
    rw [ih]
    constructor
    · rintro ⟨skipped, rest, rfl, h⟩
      exact ⟨t :: skipped, rest, rfl, h⟩
    rintro ⟨skipped, rest, heq, h⟩
    cases skipped with
    | nil =>
      rw [List.nil_append] at heq
      rw [← heq] at h
      exact absurd ((matchhere_iff re _).mpr h) hhere
    | cons s skipped =>
      obtain ⟨_, rfl⟩ := List.cons.inj heq
      exact ⟨skipped, rest, rfl, h⟩

/-- The pattern behind its caret. -/
def body (re : List UInt8) : List UInt8 := if re.head? = some caret then re.tail else re

/-- `match` returns 1 exactly if some part of the text is in the language of the pattern:
a prefix after a caret, a suffix before a dollar. -/
theorem match_iff_language (re text : List UInt8) : (read (body re)).text = body re ∧
    (matchText re text = true ↔ ∃ before word after, text = before ++ word ++ after ∧
      word ∈ Item.languages (read (body re)).items ∧
      (re.head? = some caret → before = []) ∧ ((read (body re)).toEnd = true → after = [])) := by
  refine ⟨text_read _, ?_⟩
  unfold matchText body
  by_cases hc : re.head? = some caret
  · simp only [if_pos hc]
    rw [matchhere_iff]
    constructor
    · rintro ⟨word, after, rfl, hword, hend⟩
      exact ⟨[], word, after, rfl, hword, fun _ => rfl, hend⟩
    rintro ⟨before, word, after, rfl, hword, hbefore, hend⟩
    rw [hbefore hc]
    exact ⟨word, after, rfl, hword, hend⟩
  · simp only [if_neg hc]
    rw [matchLoop_iff]
    constructor
    · rintro ⟨before, _, rfl, word, after, rfl, hword, hend⟩
      exact ⟨before, word, after, by rw [List.append_assoc], hword, fun h => absurd h hc, hend⟩
    · rintro ⟨before, word, after, rfl, hword, _, hend⟩
      exact ⟨before, word ++ after, by rw [List.append_assoc], word, after, rfl, hword, hend⟩

end

end Xv6.User.Grep
