import Xv6.User.Shell
import Mathlib.Data.List.TakeWhile
/-!
# The tokens of a command line

`Lex` says what the tokens of a line are, and `gettoken` and `peek` are compared
with it.
-/

namespace Xv6.User

open List

variable {e : Nat} {toks : List UInt8}

inductive Tok where
  | bar
  | lparen
  | rparen
  | semi
  | amp
  | lt
  | gt
  | append
  | word (w : List UInt8)

namespace Tok

def code : Tok → TokCode
  | bar => .bar
  | lparen => .lparen
  | rparen => .rparen
  | semi => .semi
  | amp => .amp
  | lt => .lt
  | gt => .gt
  | append => .append
  | word _ => .word

def first : Tok → Option UInt8
  | bar => some '|'.toUInt8
  | lparen => some '('.toUInt8
  | rparen => some ')'.toUInt8
  | semi => some ';'.toUInt8
  | amp => some '&'.toUInt8
  | lt => some '<'.toUInt8
  | gt | append => some '>'.toUInt8
  | word _ => none

end Tok

/-- The tokens of a line.  Words are as long as possible, and so is `>>`. -/
inductive Lex : List UInt8 → List Tok → Prop where
  | nil : Lex [] []
  | space {c : UInt8} {l : List UInt8} {ts : List Tok} :
      whitespace.contains c = true → Lex l ts → Lex (c :: l) ts
  | single {c : UInt8} {t : Tok} {l : List UInt8} {ts : List Tok} :
      single c = some t.code → Lex l ts → Lex (c :: l) (t :: ts)
  | append {l : List UInt8} {ts : List Tok} :
      Lex l ts → Lex ('>'.toUInt8 :: '>'.toUInt8 :: l) (.append :: ts)
  | gt {l : List UInt8} {ts : List Tok} :
      l.head? ≠ some '>'.toUInt8 → Lex l ts → Lex ('>'.toUInt8 :: l) (.gt :: ts)
  | word {w l : List UInt8} {ts : List Tok} :
      w ≠ [] → (∀ c ∈ w, isWordChar c = true) → (∀ c ∈ l.head?, isWordChar c = false) →
      Lex l ts → Lex (w ++ l) (.word w :: ts)

variable {s l w : List UInt8} {c : UInt8} {ts : List Tok} {i j n : Nat} {test : UInt8 → Bool}
  {t : TokCode}

/-! ## Loops over the line -/

theorem charAt_eq (hi : i < s.length) : s.drop i = charAt s i :: s.drop (i + 1) := by
  rw [charAt, getD_eq_getElem _ _ hi]
  exact drop_eq_getElem_cons hi

theorem charAt_end (hi : s.length ≤ i) : charAt s i = 0 := by
  exact getD_eq_default _ _ hi

theorem scan_eq (hn : n = s.length - i) :
    scan test s n i = i + ((s.drop i).takeWhile test).length := by
  induction n generalizing i with
  | zero =>
    rw [scan, drop_eq_nil_of_le (by omega)]
    rfl
  | succ n ih =>
    rw [scan, charAt_eq (by omega : i < s.length)]
    split
    · rename_i htest
      rw [ih (by omega), takeWhile_cons_of_pos htest, length_cons]
      omega
    · rename_i htest
      rw [takeWhile_cons_of_neg htest]
      rfl

theorem drop_takeWhile (test : UInt8 → Bool) (l : List UInt8) :
    l.drop (l.takeWhile test).length = l.dropWhile test := by
  have hdrop := @drop_left _ (l.takeWhile test) (l.dropWhile test)
  rwa [takeWhile_append_dropWhile] at hdrop

theorem drop_scan (s : List UInt8) (test : UInt8 → Bool) (i : Nat) :
    s.drop (scan test s (s.length - i) i) = (s.drop i).dropWhile test := by
  rw [scan_eq rfl, ← drop_drop, drop_takeWhile]

theorem scan_le (hi : i ≤ s.length) : scan test s (s.length - i) i ≤ s.length := by
  rw [scan_eq rfl]
  have hle := ( takeWhile_prefix test (l := s.drop i)).length_le
  rw [length_drop] at hle
  omega

/-! ## One byte decides -/

theorem single_symbol (h : single c = some t) : symbols.contains c = true := by
  unfold single at h
  repeat' split at h
  all_goals first
    | rename_i heq
      rw [heq]
      decide
    | cases h

theorem single_ne (h : single c = some t) : t ≠ .word ∧ t ≠ .eof ∧ t ≠ .gt ∧ t ≠ .append := by
  unfold single at h
  repeat' split at h
  all_goals cases h
  all_goals decide

theorem not_symbol_of_space (h : whitespace.contains c = true) : symbols.contains c = false := by
  have hall : ∀ c ∈ whitespace, symbols.contains c = false := by decide +kernel
  exact hall c (contains_iff_mem.mp h)

theorem symbol_cases (h : symbols.contains c = true) :
    c = '>'.toUInt8 ∨ ∃ t : Tok, single c = some t.code := by
  have hall : ∀ c ∈ symbols, c = '>'.toUInt8 ∨ single c = some .bar ∨ single c = some .lparen ∨
      single c = some .rparen ∨ single c = some .semi ∨ single c = some .amp ∨
      single c = some .lt := by decide +kernel
  rcases hall c (contains_iff_mem.mp h) with h | h | h | h | h | h | h
  · exact .inl h
  · exact .inr ⟨.bar, h⟩
  · exact .inr ⟨.lparen, h⟩
  · exact .inr ⟨.rparen, h⟩
  · exact .inr ⟨.semi, h⟩
  · exact .inr ⟨.amp, h⟩
  · exact .inr ⟨.lt, h⟩

theorem wordChar_iff :
    isWordChar c = true ↔ whitespace.contains c = false ∧ symbols.contains c = false := by
  unfold isWordChar
  rw [Bool.and_eq_true, Bool.not_eq_true', Bool.not_eq_true']

theorem wordChar_false_of_symbol (h : symbols.contains c = true) : isWordChar c = false := by
  unfold isWordChar
  rw [h, Bool.not_true, Bool.and_false]

theorem wordChar_false_of_space (h : whitespace.contains c = true) : isWordChar c = false := by
  unfold isWordChar
  rw [h, Bool.not_true, Bool.false_and]

theorem gt_symbol : symbols.contains '>'.toUInt8 = true := by decide

theorem single_gt : single '>'.toUInt8 = none := by decide

/-! ## The first token -/

namespace Lex

theorem of_space (h : Lex (c :: l) ts) (hc : whitespace.contains c = true) : Lex l ts := by
  generalize hm : c :: l = m at h
  cases h with
  | nil => cases hm
  | space _ h =>
    cases hm
    exact h
  | single hs h =>
    cases hm
    have hsym := single_symbol hs
    rw [not_symbol_of_space hc] at hsym
    cases hsym
  | append h =>
    cases hm
    have hsym := gt_symbol
    rw [not_symbol_of_space hc] at hsym
    cases hsym
  | gt _ h =>
    cases hm
    have hsym := gt_symbol
    rw [not_symbol_of_space hc] at hsym
    cases hsym
  | @word w l' ts' hne hw _ h =>
    cases w with
    | nil => exact absurd rfl hne
    | cons d w =>
      cases hm
      have hd := hw c mem_cons_self
      rw [wordChar_false_of_space hc] at hd
      cases hd

theorem of_single {t : Tok} (h : Lex (c :: l) ts) (hc : Xv6.User.single c = some t.code) :
    ∃ t' ts', ts = t' :: ts' ∧ t'.code = t.code ∧ Lex l ts' := by
  have hsym := single_symbol hc
  generalize hm : c :: l = m at h
  cases h with
  | nil => cases hm
  | space hsp h =>
    cases hm
    rw [not_symbol_of_space hsp] at hsym
    cases hsym
  | @single _ t' _ ts' hs h =>
    cases hm
    rw [hs] at hc
    exact ⟨t', ts', rfl, Option.some.inj hc, h⟩
  | append h =>
    cases hm
    rw [single_gt] at hc
    cases hc
  | gt _ h =>
    cases hm
    rw [single_gt] at hc
    cases hc
  | @word w l' ts' hne hw _ h =>
    cases w with
    | nil => exact absurd rfl hne
    | cons d w =>
      cases hm
      have hd := hw c mem_cons_self
      rw [wordChar_false_of_symbol hsym] at hd
      cases hd

theorem of_gt (h : Lex ('>'.toUInt8 :: l) ts) :
    (∃ l' ts', l = '>'.toUInt8 :: l' ∧ ts = .append :: ts' ∧ Lex l' ts') ∨
      l.head? ≠ some '>'.toUInt8 ∧ ∃ ts', ts = .gt :: ts' ∧ Lex l ts' := by
  generalize hm : '>'.toUInt8 :: l = m at h
  cases h with
  | nil => cases hm
  | space hsp h =>
    cases hm
    have hsym := not_symbol_of_space hsp
    rw [gt_symbol] at hsym
    cases hsym
  | single hs h =>
    cases hm
    rw [single_gt] at hs
    cases hs
  | @append l' ts' h =>
    cases hm
    exact .inl ⟨l', ts', rfl, rfl, h⟩
  | @gt _ ts' hne h =>
    cases hm
    exact .inr ⟨hne, ts', rfl, h⟩
  | @word w l' ts' hne hw _ h =>
    cases w with
    | nil => exact absurd rfl hne
    | cons d w =>
      cases hm
      have hd := hw _ mem_cons_self
      rw [wordChar_false_of_symbol gt_symbol] at hd
      cases hd

theorem of_word (h : Lex (c :: l) ts) (hc : isWordChar c = true) :
    ∃ ts', ts = .word ((c :: l).takeWhile isWordChar) :: ts' ∧
      Lex ((c :: l).dropWhile isWordChar) ts' := by
  obtain ⟨hsp, hsym⟩ := wordChar_iff.mp hc
  generalize hm : c :: l = m at h
  cases h with
  | nil => cases hm
  | space hsp' h =>
    cases hm
    rw [hsp] at hsp'
    cases hsp'
  | single hs h =>
    cases hm
    rw [single_symbol hs] at hsym
    cases hsym
  | append h =>
    cases hm
    rw [gt_symbol] at hsym
    cases hsym
  | gt _ h =>
    cases hm
    rw [gt_symbol] at hsym
    cases hsym
  | @word w l' ts' hne hw hend h =>
    have htake : l'.takeWhile isWordChar = [] := by
      cases l' with
      | nil => rfl
      | cons d l' => exact takeWhile_cons_of_neg (by rw [hend d rfl]; exact Bool.false_ne_true)
    have hdrop : l'.dropWhile isWordChar = l' := by
      cases l' with
      | nil => rfl
      | cons d l' => exact dropWhile_cons_of_neg (by rw [hend d rfl]; exact Bool.false_ne_true)
    refine ⟨ts', ?_, ?_⟩
    · rw [takeWhile_append_of_pos hw, htake, append_nil]
    · rw [dropWhile_append_of_pos hw, hdrop]
      exact h

theorem of_nil (h : Lex [] ts) : ts = [] := by
  generalize hm : ([] : List UInt8) = m at h
  cases h with
  | nil => rfl
  | word hne _ _ _ => exact absurd (append_eq_nil_iff.mp hm.symm).1 hne
  | _ => cases hm

theorem exists_lex (l : List UInt8) : ∃ ts, Lex l ts := by
  induction hn : l.length using Nat.strong_induction_on generalizing l with
  | _ n ih =>
    subst hn
    cases l with
    | nil => exact ⟨[], .nil⟩
    | cons c l =>
      obtain ⟨ts, hts⟩ := ih l.length (Nat.lt_succ_self _) l rfl
      by_cases hsp : whitespace.contains c = true
      · exact ⟨ts, .space hsp hts⟩
      by_cases hsym : symbols.contains c = true
      · rcases symbol_cases hsym with rfl | ⟨t, ht⟩
        · by_cases hgt : l.head? = some '>'.toUInt8
          · obtain ⟨l', rfl⟩ := List.head?_eq_some_iff.mp hgt
            obtain ⟨ts', hts'⟩ := ih l'.length (by simp only [length_cons]; omega) l' rfl
            exact ⟨.append :: ts', .append hts'⟩
          · exact ⟨.gt :: ts, .gt hgt hts⟩
        · exact ⟨t :: ts, .single ht hts⟩
      have hword : isWordChar c = true :=
        wordChar_iff.mpr ⟨Bool.eq_false_iff.mpr hsp, Bool.eq_false_iff.mpr hsym⟩
      have hlen : (l.dropWhile isWordChar).length < (c :: l).length :=
        Nat.lt_succ_of_le (dropWhile_suffix _).length_le
      obtain ⟨ts', hts'⟩ := ih _ hlen (l.dropWhile isWordChar) rfl
      refine ⟨.word (c :: l.takeWhile isWordChar) :: ts', ?_⟩
      have hsplit : c :: l = (c :: l.takeWhile isWordChar) ++ l.dropWhile isWordChar := by
        rw [cons_append, takeWhile_append_dropWhile]
      rw [hsplit]
      refine .word (cons_ne_nil _ _) (fun d hd => ?_) (fun d hd => ?_) hts'
      · rcases mem_cons.mp hd with rfl | hd
        · exact hword
        · exact mem_takeWhile_imp hd
      · have hnot := List.head?_dropWhile_not isWordChar l
        rw [hd] at hnot
        exact hnot

theorem length_le (h : Lex l ts) : ts.length ≤ l.length := by
  induction h with
  | nil => exact le_rfl
  | space _ _ ih => exact Nat.le_succ_of_le ih
  | single _ _ ih => exact Nat.succ_le_succ ih
  | append _ ih => exact Nat.succ_le_succ (Nat.le_succ_of_le ih)
  | gt _ _ ih => exact Nat.succ_le_succ ih
  | word hne _ _ _ ih =>
    have hpos := length_pos_iff.mpr hne
    rw [length_cons, length_append]
    omega

theorem dropSpace (h : Lex l ts) : Lex (l.dropWhile fun c => whitespace.contains c) ts := by
  induction l with
  | nil => exact h
  | cons c l ih =>
    rw [dropWhile_cons]
    split
    · rename_i hc
      exact ih (h.of_space hc)
    · exact h

end Lex

/-! ## `gettoken` and `peek` -/

def LexAt (s : List UInt8) (i : Nat) (ts : List Tok) : Prop := i ≤ s.length ∧ Lex (s.drop i) ts

/-- The pointers are to the start and the end of the word `w`. -/
structure IsWord (s : List UInt8) (sp : Span) (w : List UInt8) : Prop where
  text : (s.drop sp.q).takeWhile isWordChar = w
  stop : sp.eq = sp.q + w.length
  lt : sp.q < s.length

theorem LexAt.skipSpace (h : LexAt s i ts) : LexAt s (skipSpace s i) ts := by
  refine ⟨scan_le h.1, ?_⟩
  unfold Xv6.User.skipSpace
  rw [drop_scan]
  exact h.2.dropSpace

theorem skipSpace_stop (hlt : skipSpace s i < s.length) :
    whitespace.contains (charAt s (skipSpace s i)) = false := by
  have hdrop := drop_scan s (fun c => whitespace.contains c) i
  have hcons := charAt_eq hlt
  have hnot := List.head?_dropWhile_not (fun c => whitespace.contains c) (s.drop i)
  rw [← hdrop] at hnot
  unfold skipSpace at hcons ⊢
  rw [hcons] at hnot
  exact hnot

theorem charAt_ne_zero (hz : (0 : UInt8) ∉ s) (hi : i < s.length) : charAt s i ≠ 0 := by
  intro h
  rw [charAt, getD_eq_getElem _ _ hi] at h
  exact hz (h ▸ getElem_mem hi)

theorem first_of_single {t : Tok} (h : single c = some t.code) : t.first = some c := by
  unfold single at h
  repeat' split at h
  all_goals cases t <;> cases h <;> (rename_i heq; rw [heq]; rfl)

theorem LexAt.token (hz : (0 : UInt8) ∉ s) (h : LexAt s i ts)
    (hns : i < s.length → whitespace.contains (charAt s i) = false) :
    (i = s.length ∧ ts = [] ∧ token s i = (.eof, i)) ∨
      ∃ t ts' e, ts = t :: ts' ∧ token s i = (t.code, e) ∧ LexAt s e ts' ∧ i < s.length ∧
        (t.first = some (charAt s i) ∨ isWordChar (charAt s i) = true ∧ t.first = none) ∧
        ∀ w, t = .word w → IsWord s ⟨i, e⟩ w := by
  obtain ⟨hi, hlex⟩ := h
  by_cases hend : i = s.length
  · refine .inl ⟨hend, ?_, ?_⟩
    · rw [drop_eq_nil_of_le (Nat.le_of_eq hend.symm)] at hlex
      exact hlex.of_nil
    · unfold Xv6.User.token
      rw [if_pos (charAt_end (Nat.le_of_eq hend.symm))]
  have hlt : i < s.length := by omega
  have hdrop := charAt_eq hlt
  have hne := charAt_ne_zero hz hlt
  refine .inr ?_
  rw [hdrop] at hlex
  by_cases hsym : symbols.contains (charAt s i) = true
  · rcases symbol_cases hsym with hgt | ⟨t, ht⟩
    · rw [hgt] at hlex
      have htok : Xv6.User.token s i =
          if charAt s (i + 1) = '>'.toUInt8 then (.append, i + 2) else (.gt, i + 1) := by
        unfold Xv6.User.token
        rw [if_neg hne, hgt, single_gt]
        exact if_pos rfl
      rcases hlex.of_gt with ⟨l', ts', hl', rfl, hrest⟩ | ⟨hhead, ts', rfl, hrest⟩
      · have hlt' : i + 1 < s.length := by
          have hlen := congrArg List.length hl'
          rw [length_drop, length_cons] at hlen
          omega
        have hdrop' := charAt_eq hlt'
        rw [hl'] at hdrop'
        obtain ⟨hc, rfl⟩ := List.cons.inj hdrop'
        refine ⟨.append, ts', i + 2, rfl, ?_, ⟨hlt', hrest⟩, hlt, .inl ?_, nofun⟩
        · rw [htok, if_pos hc.symm]
          rfl
        · rw [hgt]
          rfl
      · refine ⟨.gt, ts', i + 1, rfl, ?_, ⟨hlt, hrest⟩, hlt, .inl ?_, nofun⟩
        · rw [htok, if_neg]
          · rfl
          intro hc
          refine hhead ?_
          have hlt' : i + 1 < s.length := by
            by_contra hge
            rw [charAt_end (by omega)] at hc
            exact absurd hc (by decide)
          rw [charAt_eq hlt', hc]
          rfl
        · rw [hgt]
          rfl
    · obtain ⟨t', ts', rfl, hcode, hrest⟩ := hlex.of_single ht
      rw [← hcode] at ht
      refine ⟨t', ts', i + 1, rfl, ?_, ⟨hlt, hrest⟩, hlt, .inl (first_of_single ht), ?_⟩
      · unfold Xv6.User.token
        rw [if_neg hne, ht]
      · rintro w rfl
        exact absurd rfl (single_ne ht).1
  · have hword : isWordChar (charAt s i) = true :=
      wordChar_iff.mpr ⟨hns hlt, Bool.eq_false_iff.mpr hsym⟩
    have hnone : single (charAt s i) = none := by
      rcases hcase : single (charAt s i) with _ | t
      · rfl
      · exact absurd (single_symbol hcase) hsym
    have hngt : charAt s i ≠ '>'.toUInt8 := by
      intro hgt
      rw [hgt] at hsym
      exact hsym gt_symbol
    obtain ⟨ts', rfl, hrest⟩ := hlex.of_word hword
    rw [← hdrop] at hrest ⊢
    refine ⟨_, ts', scan isWordChar s (s.length - i) i, rfl, ?_, ⟨scan_le hi, ?_⟩, hlt,
      .inr ⟨hword, rfl⟩, ?_⟩
    · unfold Xv6.User.token
      rw [if_neg hne, hnone]
      exact if_neg hngt
    · rw [drop_scan]
      exact hrest
    · intro w hw
      cases hw
      exact ⟨rfl, scan_eq rfl, hlt⟩

theorem gettoken_eq (h : token s (skipSpace s i) = (t, e)) :
    gettoken s i = ⟨t, ⟨skipSpace s i, e⟩, skipSpace s e⟩ := by
  unfold gettoken
  simp only [h]

section

variable (hz : (0 : UInt8) ∉ s) (h : LexAt s i ts)
include hz h

theorem LexAt.gettoken :
    (ts = [] ∧ (gettoken s i).ret = .eof ∧ LexAt s (gettoken s i).ps []) ∨
      ∃ t ts', ts = t :: ts' ∧ (gettoken s i).ret = t.code ∧ LexAt s (gettoken s i).ps ts' ∧
        ∀ w, t = .word w → IsWord s (gettoken s i).span w := by
  rcases h.skipSpace.token hz skipSpace_stop with
    ⟨_, rfl, htok⟩ | ⟨t, ts', e, rfl, htok, hrest, _, _, hw⟩
  · rw [gettoken_eq htok]
    exact .inl ⟨rfl, rfl, h.skipSpace.skipSpace⟩
  · rw [gettoken_eq htok]
    exact .inr ⟨t, ts', rfl, rfl, hrest.skipSpace, hw⟩

theorem LexAt.peek
    (htoks : ∀ c ∈ toks, symbols.contains c = true) : LexAt s (peek s i toks).2 ts ∧
      ((peek s i toks).1 = true ↔ ∃ t ts', ts = t :: ts' ∧ ∃ c ∈ toks, t.first = some c) := by
  refine ⟨h.skipSpace, ?_⟩
  unfold Xv6.User.peek
  simp only [ne_eq, decide_not, Bool.and_eq_true, Bool.not_eq_eq_eq_not, Bool.not_true,
    decide_eq_false_iff_not, contains_iff_mem]
  rcases h.skipSpace.token hz skipSpace_stop with ⟨hend, rfl, _⟩ |
    ⟨t, ts', e, rfl, _, _, hlt, hfirst, _⟩
  · constructor
    · rintro ⟨hne, _⟩
      exact absurd (charAt_end (Nat.le_of_eq hend.symm)) hne
    · rintro ⟨t, ts', hts, _⟩
      cases hts
  constructor
  · rintro ⟨_, hin⟩
    refine ⟨t, ts', rfl, _, hin, ?_⟩
    rcases hfirst with hfirst | ⟨hword, _⟩
    · exact hfirst
    · rw [wordChar_false_of_symbol (htoks _ hin)] at hword
      cases hword
  rintro ⟨t', ts'', hts, c, hc, hfirst'⟩
  cases hts
  refine ⟨charAt_ne_zero hz hlt, ?_⟩
  rcases hfirst with hfirst | ⟨_, hnone⟩
  · rw [hfirst] at hfirst'
    cases hfirst'
    exact hc
  · rw [hnone] at hfirst'
    cases hfirst'

theorem LexAt.peek_end (toks : List UInt8) :
    (Xv6.User.peek s i toks).2 = s.length ↔ ts = [] := by
  rcases h.skipSpace.token hz skipSpace_stop with ⟨hend, rfl, _⟩ | ⟨t, ts', e, rfl, _, _, hlt, _⟩
  · exact iff_of_true hend rfl
  · exact iff_of_false (Nat.ne_of_lt hlt) (cons_ne_nil _ _)

end

end Xv6.User
