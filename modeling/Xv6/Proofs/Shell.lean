import Xv6.Proofs.ShellLex
import Mathlib.Data.List.Forall2
import Mathlib.Data.List.Induction
/-!
# The grammar of the shell

A line is derived from its tokens by `Line`, `Pipeline` and `Simple`, and `parsecmd`
returns the command that is derived, when there is one.
-/

namespace Xv6.User

open Xv6.Kernel List

variable {α β : Type} {sp : Span} {w : List UInt8} {t : Tok} {c c' : Cmd Span}
  {us rest : List Tok} {r : Parse α} {f : α → Nat → Parse β} {P Q : Tok → Prop}

abbrev Word : Type := List UInt8

structure Redirection where
  file : Word
  mode : UInt32
  fd : Nat

/-- A redirection in front of the tokens `ts`. -/
inductive Redir : List Tok → Redirection → List Tok → Prop where
  | lt (w : Word) (ts : List Tok) : Redir (.lt :: .word w :: ts) ⟨w, O_RDONLY, 0⟩ ts
  | gt (w : Word) (ts : List Tok) :
      Redir (.gt :: .word w :: ts) ⟨w, O_WRONLY ||| O_CREATE ||| O_TRUNC, 1⟩ ts
  | append (w : Word) (ts : List Tok) :
      Redir (.append :: .word w :: ts) ⟨w, O_WRONLY ||| O_CREATE, 1⟩ ts

inductive Redirs : List Tok → List Redirection → Prop where
  | nil : Redirs [] []
  | cons {us ts : List Tok} {r : Redirection} {R : List Redirection} :
      Redir us r ts → Redirs ts R → Redirs us (r :: R)

/-- Words and redirections in any order. -/
inductive Args : List Tok → List Word → List Redirection → Prop where
  | nil : Args [] [] []
  | word {ts : List Tok} {w : Word} {ws : List Word} {R : List Redirection} :
      Args ts ws R → Args (.word w :: ts) (w :: ws) R
  | redir {us ts : List Tok} {r : Redirection} {ws : List Word} {R : List Redirection} :
      Redir us r ts → Args ts ws R → Args us ws (r :: R)

def wrap (T : Cmd Word) (R : List Redirection) : Cmd Word :=
  R.foldl (fun T r => .redir T r.file r.mode r.fd) T

def backs : Nat → Cmd Word → Cmd Word
  | 0, T => T
  | n + 1, T => .back (backs n T)

mutual

inductive Line : List Tok → Cmd Word → Prop where
  | one {ts : List Tok} {T : Cmd Word} (n : Nat) :
      Pipeline ts T → Line (ts ++ List.replicate n .amp) (backs n T)
  | list {ts us : List Tok} {T U : Cmd Word} (n : Nat) :
      Pipeline ts T → Line us U →
        Line (ts ++ (List.replicate n .amp ++ .semi :: us)) (.list (backs n T) U)

inductive Pipeline : List Tok → Cmd Word → Prop where
  | one {ts : List Tok} {T : Cmd Word} : Simple ts T → Pipeline ts T
  | pipe {ts us : List Tok} {T U : Cmd Word} :
      Simple ts T → Pipeline us U → Pipeline (ts ++ .bar :: us) (.pipe T U)

inductive Simple : List Tok → Cmd Word → Prop where
  | block {ts rs : List Tok} {T : Cmd Word} {R : List Redirection} :
      Line ts T → Redirs rs R → Simple (.lparen :: (ts ++ .rparen :: rs)) (wrap T R)
  | exec {ts : List Tok} {ws : List Word} {R : List Redirection} :
      Args ts ws R → ws.length ≤ MAXARGS - 1 → Simple ts (wrap (.exec ws) R)

end

variable {s : List UInt8} {ts : List Tok} {i j fuel : Nat} {ws ws' : List Word}
  {R R' : List Redirection} {T : Cmd Word}

/-! ## What `peek` sees -/

theorem first_amp : (∃ c ∈ bytes "&", t.first = some c) ↔ t = .amp := by
  cases t <;> simp [bytes, Tok.first] <;> decide

theorem first_semi : (∃ c ∈ bytes ";", t.first = some c) ↔ t = .semi := by
  cases t <;> simp [bytes, Tok.first] <;> decide

theorem first_bar : (∃ c ∈ bytes "|", t.first = some c) ↔ t = .bar := by
  cases t <;> simp [bytes, Tok.first] <;> decide

theorem first_lparen : (∃ c ∈ bytes "(", t.first = some c) ↔ t = .lparen := by
  cases t <;> simp [bytes, Tok.first] <;> decide

theorem first_rparen : (∃ c ∈ bytes ")", t.first = some c) ↔ t = .rparen := by
  cases t <;> simp [bytes, Tok.first] <;> decide

theorem first_redir :
    (∃ c ∈ bytes "<>", t.first = some c) ↔ t = .lt ∨ t = .gt ∨ t = .append := by
  cases t <;> simp [bytes, Tok.first] <;> decide

theorem first_stop :
    (∃ c ∈ bytes "|)&;", t.first = some c) ↔ t = .bar ∨ t = .rparen ∨ t = .amp ∨ t = .semi := by
  cases t <;> simp [bytes, Tok.first] <;> decide

theorem LexAt.peek_iff (hz : (0 : UInt8) ∉ s) (h : LexAt s i ts) {toks : List UInt8}
    (htoks : ∀ c ∈ toks, symbols.contains c = true)
    (hP : ∀ {t : Tok}, (∃ c ∈ toks, t.first = some c) ↔ P t) :
    LexAt s (Xv6.User.peek s i toks).2 ts ∧
      ((Xv6.User.peek s i toks).1 = true ↔ ∃ t ts', ts = t :: ts' ∧ P t) := by
  obtain ⟨hat, hiff⟩ := h.peek hz htoks
  refine ⟨hat, hiff.trans ⟨?_, ?_⟩⟩
  · rintro ⟨t, ts', hts, hfirst⟩
    exact ⟨t, ts', hts, hP.mp hfirst⟩
  · rintro ⟨t, ts', hts, ht⟩
    exact ⟨t, ts', hts, hP.mpr ht⟩

theorem amp_symbol : ∀ c ∈ bytes "&", symbols.contains c = true := by decide +kernel
theorem semi_symbol : ∀ c ∈ bytes ";", symbols.contains c = true := by decide +kernel
theorem bar_symbol : ∀ c ∈ bytes "|", symbols.contains c = true := by decide +kernel
theorem lparen_symbol : ∀ c ∈ bytes "(", symbols.contains c = true := by decide +kernel
theorem rparen_symbol : ∀ c ∈ bytes ")", symbols.contains c = true := by decide +kernel
theorem redir_symbol : ∀ c ∈ bytes "<>", symbols.contains c = true := by decide +kernel
theorem stop_symbol : ∀ c ∈ bytes "|)&;", symbols.contains c = true := by decide +kernel

theorem LexAt.next (hz : (0 : UInt8) ∉ s) (h : LexAt s i (t :: ts)) :
    (Xv6.User.gettoken s i).ret = t.code ∧ LexAt s (Xv6.User.gettoken s i).ps ts ∧
      ∀ w, t = .word w → IsWord s (Xv6.User.gettoken s i).span w := by
  rcases h.gettoken hz with ⟨hnil, _⟩ | ⟨t', ts', heq, hret, hat, hw⟩
  · cases hnil
  · cases heq
    exact ⟨hret, hat, hw⟩

theorem LexAt.last (hz : (0 : UInt8) ∉ s) (h : LexAt s i []) :
    (Xv6.User.gettoken s i).ret = .eof ∧ LexAt s (Xv6.User.gettoken s i).ps [] := by
  rcases h.gettoken hz with ⟨_, hret, hat⟩ | ⟨t', ts', heq, _⟩
  · exact ⟨hret, hat⟩
  · cases heq

theorem LexAt.word (hz : (0 : UInt8) ∉ s) (h : LexAt s i ts)
    (hword : ¬ (Xv6.User.gettoken s i).ret ≠ .word) :
    ∃ w ts', ts = .word w :: ts' ∧ LexAt s (Xv6.User.gettoken s i).ps ts' ∧
      IsWord s (Xv6.User.gettoken s i).span w := by
  rw [ne_eq, not_not] at hword
  rcases h.gettoken hz with ⟨_, heof, _⟩ | ⟨t, ts', rfl, hret, hat, hspan⟩
  · rw [heof] at hword
    cases hword
  rw [hret] at hword
  cases t
  case word w => exact ⟨w, ts', rfl, hat, hspan w rfl⟩
  all_goals cases hword

/-! ## Commands with pointers and commands with words -/

inductive Reads (s : List UInt8) : Cmd Span → Cmd Word → Prop where
  | exec {argv : List Span} {ws : List Word} :
      List.Forall₂ (IsWord s) argv ws → Reads s (.exec argv) (.exec ws)
  | redir {c : Cmd Span} {T : Cmd Word} {f : Span} {w : Word} (mode : UInt32) (fd : Nat) :
      Reads s c T → IsWord s f w → Reads s (.redir c f mode fd) (.redir T w mode fd)
  | pipe {c d : Cmd Span} {T U : Cmd Word} :
      Reads s c T → Reads s d U → Reads s (.pipe c d) (.pipe T U)
  | list {c d : Cmd Span} {T U : Cmd Word} :
      Reads s c T → Reads s d U → Reads s (.list c d) (.list T U)
  | back {c : Cmd Span} {T : Cmd Word} : Reads s c T → Reads s (.back c) (.back T)

theorem wrap_concat (T : Cmd Word) (R : List Redirection) (r : Redirection) :
    wrap T (R ++ [r]) = .redir (wrap T R) r.file r.mode r.fd := by
  unfold wrap
  rw [foldl_append]
  rfl

theorem wrap_append (T : Cmd Word) (R R' : List Redirection) :
    wrap T (R ++ R') = wrap (wrap T R) R' := foldl_append ..

theorem Reads.addArg (h : Reads s c (wrap (.exec ws) R)) (hw : IsWord s sp w) :
    Reads s (c.addArg sp) (wrap (.exec (ws ++ [w])) R) := by
  induction R using List.reverseRecOn generalizing c with
  | nil =>
    cases h with
    | exec hargv =>
      refine .exec ?_
      exact rel_append hargv (.cons hw .nil)
  | append_singleton R r ih =>
    rw [wrap_concat] at h ⊢
    cases h with
    | redir _ _ hc hf => exact .redir _ _ (ih hc) hf

theorem Redir.reads {r : Redirection} {f : Span}
    (h : Redir (t :: .word w :: us) r us) (hc : Reads s c T)
    (hf : IsWord s f w) : Reads s (redircmd t.code c f) (.redir T r.file r.mode r.fd) := by
  cases h with
  | lt => exact .redir _ _ hc hf
  | gt => exact .redir _ _ hc hf
  | append => exact .redir _ _ hc hf

theorem exists_redir (ht : t = .lt ∨ t = .gt ∨ t = .append) (w : Word) :
    ∃ r, ∀ us, Redir (t :: .word w :: us) r us := by
  rcases ht with rfl | rfl | rfl
  · exact ⟨_, .lt w⟩
  · exact ⟨_, .gt w⟩
  · exact ⟨_, .append w⟩

/-- A redirection is an operator and a word, whatever comes after it. -/
theorem Redir.shape {r : Redirection} (h : Redir us r ts) :
    ∃ t w, (t = .lt ∨ t = .gt ∨ t = .append) ∧ us = t :: .word w :: ts ∧
      ∀ ts, Redir (t :: .word w :: ts) r ts := by
  cases h with
  | lt w => exact ⟨.lt, w, .inl rfl, rfl, .lt w⟩
  | gt w => exact ⟨.gt, w, .inr (.inl rfl), rfl, .gt w⟩
  | append w => exact ⟨.append, w, .inr (.inr rfl), rfl, .append w⟩

/-! ## What is returned is derived -/

theorem Parse.andThen_ok {b : β}
    (h : r.andThen f = .ok b j) : ∃ a k, r = .ok a k ∧ f a k = .ok b j := by
  cases r with
  | ok a k => exact ⟨a, k, rfl, h⟩
  | panic e => cases h
  | unfinished => cases h

theorem backs_back (n : Nat) (T : Cmd Word) : backs n (.back T) = .back (backs n T) := by
  induction n with
  | zero => rfl
  | succ n ih => rw [backs, ih, backs]

theorem parseback_sound (hz : (0 : UInt8) ∉ s)
    (hlex : LexAt s i ts) (hc : Reads s c T) (h : parseback s fuel c i = .ok c' j) :
    ∃ n rest, ts = List.replicate n .amp ++ rest ∧ LexAt s j rest ∧ Reads s c' (backs n T) := by
  induction fuel generalizing c T i ts with
  | zero => cases h
  | succ fuel ih =>
    obtain ⟨hat, hpeek⟩ := hlex.peek_iff hz amp_symbol first_amp
    simp only [parseback] at h
    split at h
    · rename_i hyes
      obtain ⟨t, ts', rfl, rfl⟩ := hpeek.mp hyes
      obtain ⟨n, rest, rfl, hrest, hread⟩ := ih (hat.next hz).2.1 (.back hc) h
      refine ⟨n + 1, rest, rfl, hrest, ?_⟩
      rw [backs, ← backs_back]
      exact hread
    · cases h
      exact ⟨0, ts, rfl, hat, hc⟩

theorem parseredirs_sound (hz : (0 : UInt8) ∉ s)
    (hlex : LexAt s i ts) (hc : Reads s c T) (h : parseredirs s fuel c i = .ok c' j) :
    ∃ us rest R, ts = us ++ rest ∧ LexAt s j rest ∧ Redirs us R ∧ Reads s c' (wrap T R) := by
  induction fuel generalizing c T i ts with
  | zero => cases h
  | succ fuel ih =>
    obtain ⟨hat, hpeek⟩ := hlex.peek_iff hz redir_symbol first_redir
    simp only [parseredirs] at h
    split at h
    · rename_i hyes
      obtain ⟨t, ts', rfl, ht⟩ := hpeek.mp hyes
      obtain ⟨hret, hat', _⟩ := hat.next hz
      split at h
      · cases h
      rename_i hword
      obtain ⟨w, ts'', rfl, hat'', hspan⟩ := hat'.word hz hword
      rw [hret] at h
      obtain ⟨r, hr⟩ := exists_redir ht w
      obtain ⟨us, rest, R, rfl, hrest, hus, hread⟩ :=
        ih hat'' ((hr ts'').reads hc hspan) h
      exact ⟨t :: .word w :: us, rest, r :: R, rfl, hrest, .cons (hr us) hus, hread⟩
    · cases h
      exact ⟨[], ts, [], rfl, hat, .nil, hc⟩

theorem Args.redirs (hus : Redirs us R) (hts : Args ts ws R') : Args (us ++ ts) ws (R ++ R') := by
  induction hus with
  | nil => exact hts
  | cons hr _ ih =>
    obtain ⟨t, w, _, rfl, hr'⟩ := hr.shape
    exact .redir (hr' _) ih

theorem parseargs_sound (hz : (0 : UInt8) ∉ s)
    (hlex : LexAt s i ts) (hc : Reads s c (wrap (.exec ws) R))
    (hlen : ws.length ≤ MAXARGS - 1) (h : parseargs s fuel c ws.length i = .ok c' j) :
    ∃ us rest ws' R', ts = us ++ rest ∧ LexAt s j rest ∧ Args us ws' R' ∧
      (ws ++ ws').length ≤ MAXARGS - 1 ∧ Reads s c' (wrap (.exec (ws ++ ws')) (R ++ R')) := by
  induction fuel generalizing c ws R i ts with
  | zero => cases h
  | succ fuel ih =>
    obtain ⟨hat, hpeek⟩ := hlex.peek_iff hz stop_symbol first_stop
    have hdone : ∀ rest, ts = [] ++ rest → LexAt s j rest → c' = c → ∃ us rest ws' R',
        ts = us ++ rest ∧ LexAt s j rest ∧ Args us ws' R' ∧ (ws ++ ws').length ≤ MAXARGS - 1 ∧
          Reads s c' (wrap (.exec (ws ++ ws')) (R ++ R')) := by
      rintro rest hts hrest rfl
      refine ⟨[], rest, [], [], hts, hrest, .nil, ?_, ?_⟩
      · rw [append_nil]
        exact hlen
      · rw [append_nil, append_nil]
        exact hc
    simp only [parseargs] at h
    split at h
    · cases h
      exact hdone ts rfl hat rfl
    split at h
    · rename_i heof
      cases h
      rcases hat.gettoken hz with ⟨rfl, _, hat'⟩ | ⟨t, ts', rfl, hret, _⟩
      · exact hdone [] rfl hat' rfl
      · rw [hret] at heof
        cases t <;> cases heof
    split at h
    · cases h
    rename_i hword
    split at h
    · cases h
    rename_i hargs
    obtain ⟨w, ts', rfl, hat', hspan⟩ := hat.word hz hword
    obtain ⟨d, k, hd, h⟩ := Parse.andThen_ok h
    obtain ⟨us, rest, R₁, rfl, hrest, hus, hread⟩ :=
      parseredirs_sound hz hat' (hc.addArg hspan) hd
    rw [← wrap_append] at hread
    have hlen' : (ws ++ [w]).length = ws.length + 1 := by
      rw [length_append, length_singleton]
    rw [← hlen'] at h
    obtain ⟨us', rest', ws', R', rfl, hrest', hus', hcount, hread'⟩ :=
      ih hrest hread (by omega) h
    refine ⟨.word w :: (us ++ us'), rest', w :: ws', R₁ ++ R', ?_, hrest',
      .word (Args.redirs hus hus'), ?_, ?_⟩
    · rw [cons_append, append_assoc]
    · rw [append_assoc] at hcount
      exact hcount
    · rw [append_assoc, append_assoc] at hread'
      exact hread'

theorem parse_sound (hz : (0 : UInt8) ∉ s) (fuel : Nat) :
    (∀ {i ts c j}, LexAt s i ts → parseline s fuel i = .ok c j →
      ∃ us rest T, ts = us ++ rest ∧ LexAt s j rest ∧ Line us T ∧ Reads s c T) ∧
    (∀ {i ts c j}, LexAt s i ts → parsepipe s fuel i = .ok c j →
      ∃ us rest T, ts = us ++ rest ∧ LexAt s j rest ∧ Pipeline us T ∧ Reads s c T) ∧
    (∀ {i ts c j}, LexAt s i ts → parseblock s fuel i = .ok c j →
      ∃ us rest T, ts = us ++ rest ∧ LexAt s j rest ∧ Simple us T ∧ Reads s c T) ∧
    ∀ {i ts c j}, LexAt s i ts → parseexec s fuel i = .ok c j →
      ∃ us rest T, ts = us ++ rest ∧ LexAt s j rest ∧ Simple us T ∧ Reads s c T := by
  induction fuel with
  | zero =>
    refine ⟨?_, ?_, ?_, ?_⟩
    · intro i ts c j _ h
      rw [parseline] at h
      cases h
    · intro i ts c j _ h
      rw [parsepipe] at h
      cases h
    · intro i ts c j _ h
      rw [parseblock] at h
      cases h
    · intro i ts c j _ h
      rw [parseexec] at h
      cases h
  | succ fuel ih =>
    obtain ⟨ihline, ihpipe, ihblock, ihexec⟩ := ih
    refine ⟨?_, ?_, ?_, ?_⟩
    · intro i ts c j hlex h
      simp only [parseline] at h
      obtain ⟨c1, k, h1, h⟩ := Parse.andThen_ok h
      obtain ⟨us, rest, T, rfl, hrest, hT, hread⟩ := ihpipe hlex h1
      obtain ⟨c2, k', h2, h⟩ := Parse.andThen_ok h
      obtain ⟨n, rest', rfl, hrest', hread'⟩ := parseback_sound hz hrest hread h2
      obtain ⟨hat, hpeek⟩ := hrest'.peek_iff hz semi_symbol first_semi
      split at h
      · rename_i hyes
        obtain ⟨t, ts', rfl, rfl⟩ := hpeek.mp hyes
        obtain ⟨d, k'', hd, h⟩ := Parse.andThen_ok h
        cases h
        obtain ⟨vs, rest'', U, rfl, hrest'', hU, hreadU⟩ := ihline (hat.next hz).2.1 hd
        refine ⟨_, rest'', _, ?_, hrest'', .list n hT hU, .list hread' hreadU⟩
        simp only [append_assoc, cons_append]
      · cases h
        refine ⟨_, rest', _, ?_, hat, .one n hT, hread'⟩
        rw [append_assoc]
    · intro i ts c j hlex h
      simp only [parsepipe] at h
      obtain ⟨c1, k, h1, h⟩ := Parse.andThen_ok h
      obtain ⟨us, rest, T, rfl, hrest, hT, hread⟩ := ihexec hlex h1
      obtain ⟨hat, hpeek⟩ := hrest.peek_iff hz bar_symbol first_bar
      split at h
      · rename_i hyes
        obtain ⟨t, ts', rfl, rfl⟩ := hpeek.mp hyes
        obtain ⟨d, k', hd, h⟩ := Parse.andThen_ok h
        cases h
        obtain ⟨vs, rest', U, rfl, hrest', hU, hreadU⟩ := ihpipe (hat.next hz).2.1 hd
        refine ⟨_, rest', _, ?_, hrest', .pipe hT hU, .pipe hread hreadU⟩
        simp only [append_assoc, cons_append]
      · cases h
        exact ⟨us, rest, T, rfl, hat, .one hT, hread⟩
    · intro i ts c j hlex h
      simp only [parseblock] at h
      obtain ⟨hat, hpeek⟩ := hlex.peek_iff hz lparen_symbol first_lparen
      split at h
      · cases h
      rename_i hyes
      obtain ⟨t, ts', rfl, rfl⟩ := hpeek.mp (Bool.eq_true_of_not_eq_false hyes)
      obtain ⟨c1, k, h1, h⟩ := Parse.andThen_ok h
      obtain ⟨us, rest, T, rfl, hrest, hT, hread⟩ := ihline (hat.next hz).2.1 h1
      obtain ⟨hat', hpeek'⟩ := hrest.peek_iff hz rparen_symbol first_rparen
      split at h
      · cases h
      rename_i hyes'
      obtain ⟨t, ts', rfl, rfl⟩ := hpeek'.mp (Bool.eq_true_of_not_eq_false hyes')
      obtain ⟨vs, rest', R, rfl, hrest', hR, hread'⟩ :=
        parseredirs_sound hz (hat'.next hz).2.1 hread h
      refine ⟨_, rest', _, ?_, hrest', .block hT hR, hread'⟩
      simp only [append_assoc, cons_append]
    · intro i ts c j hlex h
      simp only [parseexec] at h
      obtain ⟨hat, hpeek⟩ := hlex.peek_iff hz lparen_symbol first_lparen
      split at h
      · exact ihblock hat h
      obtain ⟨c1, k, h1, h⟩ := Parse.andThen_ok h
      obtain ⟨us, rest, R, rfl, hrest, hus, hread⟩ :=
        parseredirs_sound hz hat (T := .exec []) (.exec .nil) h1
      obtain ⟨us', rest', ws, R', rfl, hrest', hus', hcount, hread'⟩ :=
        parseargs_sound hz hrest hread (Nat.zero_le _) h
      refine ⟨us ++ us', rest', _, ?_, hrest', .exec (Args.redirs hus hus') hcount, hread'⟩
      rw [append_assoc]

/-! ## The parser ends -/

theorem Parse.andThen_ne (hr : r ≠ .unfinished)
    (hf : ∀ a k, r = .ok a k → f a k ≠ .unfinished) : r.andThen f ≠ .unfinished := by
  cases r with
  | ok a k => exact hf a k rfl
  | panic e => exact nofun
  | unfinished => exact absurd rfl hr

section

variable (hz : (0 : UInt8) ∉ s)
include hz

theorem parseback_ends (hlex : LexAt s i ts)
    (hfuel : ts.length < fuel) : parseback s fuel c i ≠ .unfinished := by
  induction fuel generalizing c i ts with
  | zero => exact absurd hfuel (Nat.not_lt_zero _)
  | succ fuel ih =>
    obtain ⟨hat, hpeek⟩ := hlex.peek_iff hz amp_symbol first_amp
    simp only [parseback]
    split
    · rename_i hyes
      obtain ⟨t, ts', rfl, rfl⟩ := hpeek.mp hyes
      exact ih (hat.next hz).2.1 (Nat.lt_of_succ_lt_succ hfuel)
    · exact nofun

theorem parseredirs_ends (hlex : LexAt s i ts)
    (hfuel : ts.length < fuel) : parseredirs s fuel c i ≠ .unfinished := by
  induction fuel generalizing c i ts with
  | zero => exact absurd hfuel (Nat.not_lt_zero _)
  | succ fuel ih =>
    obtain ⟨hat, hpeek⟩ := hlex.peek_iff hz redir_symbol first_redir
    simp only [parseredirs]
    split
    · rename_i hyes
      obtain ⟨t, ts', rfl, _⟩ := hpeek.mp hyes
      split
      · exact nofun
      rename_i hword
      obtain ⟨w, ts'', rfl, hat', _⟩ := (hat.next hz).2.1.word hz hword
      refine ih hat' ?_
      simp only [length_cons] at hfuel
      omega
    · exact nofun

theorem parseredirs_length (hlex : LexAt s i ts)
    (h : parseredirs s fuel c i = .ok c' j) : ∃ rest, LexAt s j rest ∧ rest.length ≤ ts.length := by
  induction fuel generalizing c i ts with
  | zero => cases h
  | succ fuel ih =>
    obtain ⟨hat, hpeek⟩ := hlex.peek_iff hz redir_symbol first_redir
    simp only [parseredirs] at h
    split at h
    · rename_i hyes
      obtain ⟨t, ts', rfl, _⟩ := hpeek.mp hyes
      split at h
      · cases h
      rename_i hword
      obtain ⟨w, ts'', rfl, hat', _⟩ := (hat.next hz).2.1.word hz hword
      obtain ⟨rest, hrest, hle⟩ := ih hat' h
      refine ⟨rest, hrest, ?_⟩
      simp only [length_cons]
      omega
    · cases h
      exact ⟨ts, hat, le_rfl⟩

theorem parseargs_ends {argc : Nat} (hlex : LexAt s i ts)
    (hfuel : ts.length < fuel) : parseargs s fuel c argc i ≠ .unfinished := by
  induction fuel generalizing c i ts argc with
  | zero => exact absurd hfuel (Nat.not_lt_zero _)
  | succ fuel ih =>
    obtain ⟨hat, _⟩ := hlex.peek_iff hz stop_symbol first_stop
    simp only [parseargs]
    split
    · exact nofun
    split
    · exact nofun
    split
    · exact nofun
    rename_i hword
    split
    · exact nofun
    obtain ⟨w, ts', rfl, hat', _⟩ := hat.word hz hword
    rw [length_cons] at hfuel
    refine Parse.andThen_ne (parseredirs_ends hz hat' (by omega)) fun d k hd => ?_
    obtain ⟨rest, hrest, hle⟩ := parseredirs_length hz hat' hd
    exact ih hrest (by omega)

theorem parse_ends (fuel : Nat) :
    (∀ {i ts}, LexAt s i ts → 4 * ts.length + 4 ≤ fuel → parseline s fuel i ≠ .unfinished) ∧
    (∀ {i ts}, LexAt s i ts → 4 * ts.length + 3 ≤ fuel → parsepipe s fuel i ≠ .unfinished) ∧
    (∀ {i ts}, LexAt s i ts → 4 * ts.length + 1 ≤ fuel → parseblock s fuel i ≠ .unfinished) ∧
    ∀ {i ts}, LexAt s i ts → 4 * ts.length + 2 ≤ fuel → parseexec s fuel i ≠ .unfinished := by
  induction fuel with
  | zero =>
    refine ⟨?_, ?_, ?_, ?_⟩ <;> (intro i ts _ hfuel; omega)
  | succ fuel ih =>
    obtain ⟨ihline, ihpipe, ihblock, ihexec⟩ := ih
    obtain ⟨sline, spipe, _, sexec⟩ := parse_sound hz fuel
    refine ⟨?_, ?_, ?_, ?_⟩
    · intro i ts hlex hfuel
      simp only [parseline]
      refine Parse.andThen_ne (ihpipe hlex (by omega)) fun c1 k h1 => ?_
      obtain ⟨us, rest, T, rfl, hrest, _, hread⟩ := spipe hlex h1
      rw [length_append] at hfuel
      refine Parse.andThen_ne (parseback_ends hz hrest (by omega)) fun c2 k' h2 => ?_
      obtain ⟨n, rest', rfl, hrest', _⟩ := parseback_sound hz hrest hread h2
      obtain ⟨hat, hpeek⟩ := hrest'.peek_iff hz semi_symbol first_semi
      split
      · rename_i hyes
        obtain ⟨t, ts', rfl, rfl⟩ := hpeek.mp hyes
        rw [length_append, length_cons] at hfuel
        exact Parse.andThen_ne (ihline (hat.next hz).2.1 (by omega)) fun _ _ _ => by simp
      · simp
    · intro i ts hlex hfuel
      simp only [parsepipe]
      refine Parse.andThen_ne (ihexec hlex (by omega)) fun c1 k h1 => ?_
      obtain ⟨us, rest, T, rfl, hrest, _⟩ := sexec hlex h1
      obtain ⟨hat, hpeek⟩ := hrest.peek_iff hz bar_symbol first_bar
      split
      · rename_i hyes
        obtain ⟨t, ts', rfl, rfl⟩ := hpeek.mp hyes
        rw [length_append, length_cons] at hfuel
        exact Parse.andThen_ne (ihpipe (hat.next hz).2.1 (by omega)) fun _ _ _ => by simp
      · simp
    · intro i ts hlex hfuel
      simp only [parseblock]
      obtain ⟨hat, hpeek⟩ := hlex.peek_iff hz lparen_symbol first_lparen
      split
      · simp
      rename_i hyes
      obtain ⟨t, ts', rfl, rfl⟩ := hpeek.mp (Bool.eq_true_of_not_eq_false hyes)
      rw [length_cons] at hfuel
      refine Parse.andThen_ne (ihline (hat.next hz).2.1 (by omega)) fun c1 k h1 => ?_
      obtain ⟨us, rest, T, rfl, hrest, _⟩ := sline (hat.next hz).2.1 h1
      obtain ⟨hat', hpeek'⟩ := hrest.peek_iff hz rparen_symbol first_rparen
      split
      · simp
      rename_i hyes'
      obtain ⟨t, ts', rfl, rfl⟩ := hpeek'.mp (Bool.eq_true_of_not_eq_false hyes')
      rw [length_append, length_cons] at hfuel
      exact parseredirs_ends hz (hat'.next hz).2.1 (by omega)
    · intro i ts hlex hfuel
      simp only [parseexec]
      obtain ⟨hat, hpeek⟩ := hlex.peek_iff hz lparen_symbol first_lparen
      split
      · exact ihblock hat (by omega)
      refine Parse.andThen_ne (parseredirs_ends hz hat (by omega)) fun c1 k h1 => ?_
      obtain ⟨rest, hrest, hle⟩ := parseredirs_length hz hat h1
      exact parseargs_ends hz hrest (by omega)

end

/-! ## What is derived is returned -/

def Follows (P : Tok → Prop) (ts : List Tok) : Prop := ∀ t rest, ts = t :: rest → P t

def afterLine (t : Tok) : Prop := t = .rparen
def afterPipe (t : Tok) : Prop := t = .amp ∨ t = .semi ∨ t = .rparen
def afterSimple (t : Tok) : Prop := t = .bar ∨ t = .amp ∨ t = .semi ∨ t = .rparen

theorem follows_nil (P : Tok → Prop) : Follows P [] := nofun

theorem follows_cons (ht : P t) (ts : List Tok) : Follows P (t :: ts) := by
  intro t' rest h
  cases h
  exact ht

theorem Follows.imp (h : Follows P ts) (hPQ : ∀ t, P t → Q t) : Follows Q ts :=
  fun t rest hts => hPQ t (h t rest hts)

theorem peek_no {b : Bool} (hpeek : b = true ↔ ∃ t ts', ts = t :: ts' ∧ Q t)
    (h : Follows P ts) (hPQ : ∀ t, P t → ¬ Q t) : ¬ b = true := by
  intro hb
  obtain ⟨t, ts', hts, hQ⟩ := hpeek.mp hb
  exact hPQ t (h t ts' hts) hQ

/-- The run `r` stops before the tokens `rest`, with a command that reads as `T`. -/
def Yields (s : List UInt8) (r : Parse (Cmd Span)) (rest : List Tok) (T : Cmd Word) : Prop :=
  ∃ c j, r = .ok c j ∧ LexAt s j rest ∧ Reads s c T

theorem Yields.andThen {r : Parse (Cmd Span)} {f : Cmd Span → Nat → Parse (Cmd Span)}
    {U : Cmd Word} (hne : r.andThen f ≠ .unfinished) (hr : r ≠ .unfinished → Yields s r rest T)
    (hf : ∀ c j, LexAt s j rest → Reads s c T → f c j ≠ .unfinished → Yields s (f c j) ts U) :
    Yields s (r.andThen f) ts U := by
  obtain ⟨c, j, rfl, hat, hread⟩ := hr (by rintro rfl; exact hne rfl)
  exact hf c j hat hread hne

theorem parseback_complete (hz : (0 : UInt8) ∉ s) {n : Nat}
    (hlex : LexAt s i (List.replicate n .amp ++ rest)) (hc : Reads s c T)
    (hrest : Follows (· ≠ .amp) rest) (hne : parseback s fuel c i ≠ .unfinished) :
    Yields s (parseback s fuel c i) rest (backs n T) := by
  induction fuel generalizing c T i n with
  | zero => exact absurd rfl hne
  | succ fuel ih =>
    obtain ⟨hat, hpeek⟩ := hlex.peek_iff hz amp_symbol first_amp
    simp only [parseback] at hne ⊢
    cases n with
    | zero =>
      rw [if_neg (peek_no hpeek hrest fun t ht => ht)]
      exact ⟨c, _, rfl, hat, hc⟩
    | succ n =>
      rw [if_pos (hpeek.mpr ⟨.amp, _, rfl, rfl⟩)] at hne ⊢
      have hread := ih (hat.next hz).2.1 (.back hc) hne
      rwa [backs_back] at hread

theorem parseredirs_complete (hz : (0 : UInt8) ∉ s)
    (hus : Redirs us R) (hlex : LexAt s i (us ++ rest)) (hc : Reads s c T)
    (hrest : Follows (fun t => ¬ (t = .lt ∨ t = .gt ∨ t = .append)) rest)
    (hne : parseredirs s fuel c i ≠ .unfinished) :
    Yields s (parseredirs s fuel c i) rest (wrap T R) := by
  induction fuel generalizing c T i us R with
  | zero => exact absurd rfl hne
  | succ fuel ih =>
    obtain ⟨hat, hpeek⟩ := hlex.peek_iff hz redir_symbol first_redir
    simp only [parseredirs] at hne ⊢
    cases hus with
    | nil =>
      rw [if_neg (peek_no hpeek hrest fun t ht => ht)]
      exact ⟨c, _, rfl, hat, hc⟩
    | @cons _ vs r R hr hvs =>
      obtain ⟨t, w, ht, rfl, _⟩ := hr.shape
      obtain ⟨hret, hat', _⟩ := hat.next hz
      obtain ⟨hret', hat'', hspan⟩ := hat'.next hz
      rw [if_pos (hpeek.mpr ⟨t, _, rfl, ht⟩), hret', hret, if_neg (fun hword => hword rfl)]
        at hne ⊢
      have hread := hr.reads hc (hspan w rfl)
      exact ih (T := .redir T r.file r.mode r.fd) (R := R) hvs hat'' hread hne

theorem Args.split (h : Args us ws R) :
    ∃ us1 us2 R₁ R₂, us = us1 ++ us2 ∧ R = R₁ ++ R₂ ∧ Redirs us1 R₁ ∧ Args us2 ws R₂ ∧
      Follows (fun t => ∃ w, t = .word w) us2 := by
  induction h with
  | nil => exact ⟨[], [], [], [], rfl, rfl, .nil, .nil, follows_nil _⟩
  | @word ts w ws R h _ =>
    exact ⟨[], _, [], _, rfl, rfl, .nil, .word h, follows_cons ⟨w, rfl⟩ ts⟩
  | @redir us ts r ws R hr h ih =>
    obtain ⟨us1, us2, R₁, R₂, rfl, rfl, hR, hargs, hfirst⟩ := ih
    obtain ⟨t, w, _, rfl, hr'⟩ := hr.shape
    exact ⟨_, us2, _, R₂, rfl, rfl, .cons (hr' us1) hR, hargs, hfirst⟩

theorem follows_append (hus : Follows P us) (hrest : Follows P rest) : Follows P (us ++ rest) := by
  cases us with
  | nil => exact hrest
  | cons t us => exact follows_cons (hus t us rfl) _

theorem not_redir_of_afterSimple (h : afterSimple t) : ¬ (t = .lt ∨ t = .gt ∨ t = .append) := by
  rcases h with rfl | rfl | rfl | rfl <;> simp

theorem Follows.no_redir (hus : Follows (fun t => ∃ w, t = .word w) us)
    (hrest : Follows afterSimple rest) :
    Follows (fun t => ¬ (t = .lt ∨ t = .gt ∨ t = .append)) (us ++ rest) :=
  follows_append (hus.imp (by rintro t ⟨w, rfl⟩; simp))
    (hrest.imp fun t => not_redir_of_afterSimple)

theorem parseargs_complete (hz : (0 : UInt8) ∉ s) (hus : Args us ws' R')
    (hfirst : Follows (fun t => ∃ w, t = .word w) us) (hlex : LexAt s i (us ++ rest))
    (hc : Reads s c (wrap (.exec ws) R)) (hlen : (ws ++ ws').length ≤ MAXARGS - 1)
    (hrest : Follows afterSimple rest) (hne : parseargs s fuel c ws.length i ≠ .unfinished) :
    Yields s (parseargs s fuel c ws.length i) rest (wrap (.exec (ws ++ ws')) (R ++ R')) := by
  induction fuel generalizing c ws R i us ws' R' with
  | zero => exact absurd rfl hne
  | succ fuel ih =>
    obtain ⟨hat, hpeek⟩ := hlex.peek_iff hz stop_symbol first_stop
    simp only [parseargs] at hne ⊢
    cases us with
    | nil =>
      obtain ⟨rfl, rfl⟩ : ws' = [] ∧ R' = [] := by
        generalize hm : ([] : List Tok) = m at hus
        cases hus with
        | nil => exact ⟨rfl, rfl⟩
        | word => cases hm
        | redir hr => cases hr <;> cases hm
      rw [append_nil, append_nil]
      cases rest with
      | nil =>
        obtain ⟨hret, hat'⟩ := hat.last hz
        rw [if_neg (peek_no hpeek (follows_nil fun _ => False) fun _ h _ => h), if_pos hret]
        exact ⟨c, _, rfl, hat', hc⟩
      | cons t rest =>
        rw [if_pos (hpeek.mpr ⟨t, rest, rfl, by
          rcases hrest t rest rfl with rfl | rfl | rfl | rfl <;> simp⟩)]
        exact ⟨c, _, rfl, hat, hc⟩
    | cons t us =>
      obtain ⟨w, rfl⟩ := hfirst t us rfl
      obtain ⟨ws'', rfl, hargs⟩ : ∃ ws'', ws' = w :: ws'' ∧ Args us ws'' R' := by
        generalize hm : Tok.word w :: us = m at hus
        cases hus with
        | nil => cases hm
        | word h =>
          cases hm
          exact ⟨_, rfl, h⟩
        | redir hr => cases hr <;> cases hm
      have hno := peek_no hpeek (follows_cons (P := fun t => ∃ w, t = .word w) ⟨w, rfl⟩ _)
        (by rintro t ⟨w, rfl⟩; simp)
      obtain ⟨hret, hat', hspan⟩ := hat.next hz
      have hcount : ¬ ws.length + 1 ≥ MAXARGS := by
        simp only [length_append, length_cons, MAXARGS] at hlen ⊢
        omega
      rw [if_neg hno, if_neg (by rw [hret]; nofun), if_neg (by rw [hret]; exact fun h => h rfl),
        if_neg hcount] at hne ⊢
      obtain ⟨us1, us2, R₁, R₂, rfl, rfl, hR, hargs2, hfirst2⟩ := hargs.split
      have hat' : LexAt s (gettoken s (peek s i (bytes "|)&;")).2).ps (us1 ++ (us2 ++ rest)) := by
        rw [← append_assoc]
        exact hat'
      refine .andThen hne (parseredirs_complete hz hR hat' (hc.addArg (hspan w rfl))
        (hfirst2.no_redir hrest)) fun c1 k hat1 hread1 hne => ?_
      rw [← wrap_append] at hread1
      have hlen' : ws.length + 1 = (ws ++ [w]).length := by
        rw [length_append, length_singleton]
      rw [hlen'] at hne ⊢
      have happ : ws ++ w :: ws'' = (ws ++ [w]) ++ ws'' := by
        rw [append_assoc]
        rfl
      rw [happ] at hlen ⊢
      rw [← append_assoc]
      exact ih hargs2 hfirst2 hat1 hread1 hlen hne

theorem Args.not_lparen
    (h : Args us ws R) (hrest : Follows afterSimple rest) : Follows (· ≠ .lparen) (us ++ rest) := by
  cases h with
  | nil => exact hrest.imp (by rintro t (rfl | rfl | rfl | rfl) <;> simp)
  | word => exact follows_cons nofun _
  | redir hr =>
    obtain ⟨t, w, ht, rfl, _⟩ := hr.shape
    refine follows_cons ?_ _
    rintro rfl
    simp at ht

theorem afterPipe_amps (n : Nat) (h : Follows afterPipe rest) :
    Follows afterPipe (List.replicate n .amp ++ rest) := by
  cases n with
  | zero => exact h
  | succ n => exact follows_cons (.inl rfl) _

/-- A derivation is found by each function, if what comes after it is no part of it. -/
structure Complete (s : List UInt8) (fuel : Nat) : Prop where
  line : ∀ {i us rest T}, Line us T → LexAt s i (us ++ rest) → Follows afterLine rest →
    parseline s fuel i ≠ .unfinished → Yields s (parseline s fuel i) rest T
  pipe : ∀ {i us rest T}, Pipeline us T → LexAt s i (us ++ rest) → Follows afterPipe rest →
    parsepipe s fuel i ≠ .unfinished → Yields s (parsepipe s fuel i) rest T
  block : ∀ {i us rs rest T R}, Line us T → Redirs rs R →
    LexAt s i (.lparen :: (us ++ .rparen :: (rs ++ rest))) → Follows afterSimple rest →
    parseblock s fuel i ≠ .unfinished → Yields s (parseblock s fuel i) rest (wrap T R)
  exec : ∀ {i us rest T}, Simple us T → LexAt s i (us ++ rest) → Follows afterSimple rest →
    parseexec s fuel i ≠ .unfinished → Yields s (parseexec s fuel i) rest T

namespace Complete

variable (hz : (0 : UInt8) ∉ s) (ih : Complete s fuel)
include hz ih

theorem line_succ (h : Line us T) (hlex : LexAt s i (us ++ rest)) (hrest : Follows afterLine rest)
    (hne : parseline s (fuel + 1) i ≠ .unfinished) :
    Yields s (parseline s (fuel + 1) i) rest T := by
  simp only [parseline] at hne ⊢
  cases h with
  | @one ts T n hT =>
    rw [append_assoc] at hlex
    have hafter := afterPipe_amps n (hrest.imp fun t ht => .inr (.inr ht))
    refine .andThen hne (ih.pipe hT hlex hafter) fun c1 k hat1 hread1 hne => ?_
    refine .andThen hne (parseback_complete hz hat1 hread1 (hrest.imp (by rintro t rfl; simp)))
      fun c2 k' hat2 hread2 _ => ?_
    obtain ⟨hat, hpeek⟩ := hat2.peek_iff hz semi_symbol first_semi
    rw [if_neg (peek_no hpeek hrest (by rintro t rfl; simp))]
    exact ⟨c2, _, rfl, hat, hread2⟩
  | @list ts vs T U n hT hU =>
    rw [append_assoc, append_assoc, cons_append] at hlex
    have hafter := afterPipe_amps n (follows_cons (.inr (.inl rfl)) (vs ++ rest))
    refine .andThen hne (ih.pipe hT hlex hafter) fun c1 k hat1 hread1 hne => ?_
    refine .andThen hne (parseback_complete hz hat1 hread1 (follows_cons (by simp) _))
      fun c2 k' hat2 hread2 hne => ?_
    obtain ⟨hat, hpeek⟩ := hat2.peek_iff hz semi_symbol first_semi
    rw [if_pos (hpeek.mpr ⟨.semi, _, rfl, rfl⟩)] at hne ⊢
    refine .andThen hne (ih.line hU (hat.next hz).2.1 hrest) fun c3 k'' hat3 hread3 _ => ?_
    exact ⟨_, k'', rfl, hat3, .list hread2 hread3⟩

theorem pipe_succ (h : Pipeline us T) (hlex : LexAt s i (us ++ rest))
    (hrest : Follows afterPipe rest) (hne : parsepipe s (fuel + 1) i ≠ .unfinished) :
    Yields s (parsepipe s (fuel + 1) i) rest T := by
  simp only [parsepipe] at hne ⊢
  cases h with
  | one hT =>
    refine .andThen hne (ih.exec hT hlex (hrest.imp fun t ht => .inr ht))
      fun c1 k hat1 hread1 _ => ?_
    obtain ⟨hat, hpeek⟩ := hat1.peek_iff hz bar_symbol first_bar
    rw [if_neg (peek_no hpeek hrest (by rintro t (rfl | rfl | rfl) <;> simp))]
    exact ⟨c1, _, rfl, hat, hread1⟩
  | @pipe ts vs T U hT hU =>
    rw [append_assoc, cons_append] at hlex
    refine .andThen hne (ih.exec hT hlex (follows_cons (.inl rfl) _))
      fun c1 k hat1 hread1 hne => ?_
    obtain ⟨hat, hpeek⟩ := hat1.peek_iff hz bar_symbol first_bar
    rw [if_pos (hpeek.mpr ⟨.bar, _, rfl, rfl⟩)] at hne ⊢
    refine .andThen hne (ih.pipe hU (hat.next hz).2.1 hrest) fun c2 k' hat2 hread2 _ => ?_
    exact ⟨_, k', rfl, hat2, .pipe hread1 hread2⟩

theorem block_succ {rs : List Tok} (hT : Line us T) (hR : Redirs rs R)
    (hlex : LexAt s i (.lparen :: (us ++ .rparen :: (rs ++ rest))))
    (hrest : Follows afterSimple rest) (hne : parseblock s (fuel + 1) i ≠ .unfinished) :
    Yields s (parseblock s (fuel + 1) i) rest (wrap T R) := by
  simp only [parseblock] at hne ⊢
  obtain ⟨hat, hpeek⟩ := hlex.peek_iff hz lparen_symbol first_lparen
  have hyes := hpeek.mpr ⟨.lparen, _, rfl, rfl⟩
  rw [if_neg (by rw [hyes]; simp)] at hne ⊢
  refine .andThen hne (ih.line hT (hat.next hz).2.1 (follows_cons (P := afterLine) rfl _))
    fun c1 k hat1 hread1 hne => ?_
  obtain ⟨hat', hpeek'⟩ := hat1.peek_iff hz rparen_symbol first_rparen
  have hyes' := hpeek'.mpr ⟨.rparen, _, rfl, rfl⟩
  rw [if_neg (by rw [hyes']; simp)] at hne ⊢
  exact parseredirs_complete hz hR (hat'.next hz).2.1 hread1
    (hrest.imp fun t => not_redir_of_afterSimple) hne

theorem exec_succ (h : Simple us T) (hlex : LexAt s i (us ++ rest))
    (hrest : Follows afterSimple rest) (hne : parseexec s (fuel + 1) i ≠ .unfinished) :
    Yields s (parseexec s (fuel + 1) i) rest T := by
  simp only [parseexec] at hne ⊢
  obtain ⟨hat, hpeek⟩ := hlex.peek_iff hz lparen_symbol first_lparen
  cases h with
  | @block ts rs T R hT hR =>
    rw [if_pos (hpeek.mpr ⟨.lparen, _, rfl, rfl⟩)] at hne ⊢
    rw [cons_append, append_assoc, cons_append] at hat
    exact ih.block hT hR hat hrest hne
  | @exec ts ws R hargs hlen =>
    rw [if_neg (peek_no hpeek (hargs.not_lparen hrest) fun t ht => ht)] at hne ⊢
    obtain ⟨us1, us2, R₁, R₂, rfl, rfl, hR, hargs2, hfirst⟩ := hargs.split
    rw [append_assoc] at hat
    refine .andThen hne (parseredirs_complete hz hR hat (T := .exec []) (.exec .nil)
      (hfirst.no_redir hrest)) fun c1 k hat1 hread1 hne => ?_
    have hread : Reads s c1 (wrap (.exec ([] : List Word)) R₁) := hread1
    exact parseargs_complete hz hargs2 hfirst hat1 hread hlen hrest hne

end Complete

theorem parse_complete (hz : (0 : UInt8) ∉ s) (fuel : Nat) : Complete s fuel := by
  induction fuel with
  | zero =>
    constructor
    · exact fun _ _ _ hne => absurd (by rw [parseline]) hne
    · exact fun _ _ _ hne => absurd (by rw [parsepipe]) hne
    · exact fun _ _ _ _ hne => absurd (by rw [parseblock]) hne
    · exact fun _ _ _ hne => absurd (by rw [parseexec]) hne
  | succ fuel ih => exact ⟨ih.line_succ hz, ih.pipe_succ hz, ih.block_succ hz, ih.exec_succ hz⟩

/-! ## The strings in memory -/

def Cmd.ends : Cmd Span → List Nat
  | .exec argv => argv.map Span.eq
  | .redir cmd file _ _ => cmd.ends ++ [file.eq]
  | .pipe left right => left.ends ++ right.ends
  | .list left right => left.ends ++ right.ends
  | .back cmd => cmd.ends

theorem nulterminate_eq (line : List UInt8) (c : Cmd Span) :
    nulterminate line c = c.ends.foldl (fun line e => line.set e 0) line := by
  induction c generalizing line with
  | exec argv => rw [nulterminate, Cmd.ends, foldl_map]
  | redir cmd file mode fd ih =>
    rw [nulterminate, Cmd.ends, foldl_append, ih]
    rfl
  | pipe left right ihl ihr => rw [nulterminate, Cmd.ends, foldl_append, ihl, ihr]
  | list left right ihl ihr => rw [nulterminate, Cmd.ends, foldl_append, ihl, ihr]
  | back cmd ih => rw [nulterminate, Cmd.ends, ih]

theorem foldl_set_getElem? (es : List Nat) (text : List UInt8) (k : Nat) :
    (es.foldl (fun line e => line.set e 0) text)[k]? =
      if k ∈ es ∧ k < text.length then some 0 else text[k]? := by
  induction es generalizing text with
  | nil => rw [if_neg (fun h => not_mem_nil h.1), foldl_nil]
  | cons e es ih =>
    rw [foldl_cons, ih, length_set, List.getElem?_set]
    by_cases hk : k ∈ es ∧ k < text.length
    · rw [if_pos hk, if_pos ⟨mem_cons_of_mem e hk.1, hk.2⟩]
    rw [if_neg hk]
    rcases eq_or_ne e k with rfl | he
    · by_cases hlt : e < text.length
      · rw [if_pos rfl, if_pos hlt, if_pos ⟨mem_cons_self, hlt⟩]
      · rw [if_pos rfl, if_neg hlt, if_neg (fun h => hlt h.2), List.getElem?_eq_none (by omega)]
    rw [if_neg he, if_neg]
    rintro ⟨hmem, hlt⟩
    rcases mem_cons.mp hmem with rfl | hmem
    · exact he rfl
    · exact hk ⟨hmem, hlt⟩

def Boundary (s : List UInt8) (e : Nat) : Prop := ∀ c, s[e]? = some c → isWordChar c = false

namespace IsWord

variable {w : Word} {c : UInt8} {k : Nat}

section

variable (h : IsWord s sp w)
include h

theorem split : s.drop sp.q = w ++ (s.drop sp.q).dropWhile isWordChar := by
  conv_lhs => rw [← takeWhile_append_dropWhile (p := isWordChar) (l := s.drop sp.q)]
  rw [h.text]

theorem getElem? (hk : k < w.length) : s[sp.q + k]? = some w[k] := by
  rw [← List.getElem?_drop, h.split, List.getElem?_append_left hk, List.getElem?_eq_getElem hk]

theorem wordChar (hc : c ∈ w) : isWordChar c = true := by
  rw [← h.text] at hc
  exact mem_takeWhile_imp hc

theorem boundary : Boundary s sp.eq := by
  intro c hc
  rw [h.stop, ← List.getElem?_drop, h.split, List.getElem?_append_right le_rfl,
    Nat.sub_self, ← List.head?_eq_getElem?] at hc
  have hnot := List.head?_dropWhile_not isWordChar (s.drop sp.q)
  rw [hc] at hnot
  exact hnot

theorem eq_le : sp.eq ≤ s.length := by
  have hlen := congrArg List.length h.split
  rw [length_drop, length_append] at hlen
  have hlt := h.lt
  rw [h.stop]
  omega

end

end IsWord

theorem takeWhile_ne_zero {l : List UInt8} (hw : ∀ k (hk : k < w.length), l[k]? = some w[k])
    (hend : l[w.length]? = some 0) (hne : ∀ c ∈ w, c ≠ 0) : l.takeWhile (· ≠ 0) = w := by
  induction w generalizing l with
  | nil =>
    cases l with
    | nil => rfl
    | cons a l =>
      cases hend
      rfl
  | cons c w ih =>
    cases l with
    | nil => cases hend
    | cons a l =>
      obtain rfl : a = c := Option.some.inj (hw 0 (Nat.zero_lt_succ _))
      rw [takeWhile_cons_of_pos (by simpa using hne a mem_cons_self)]
      rw [ih (fun k hk => hw (k + 1) (Nat.succ_lt_succ hk)) hend
        fun c hc => hne c (mem_cons_of_mem a hc)]

theorem cstring_word (hz : (0 : UInt8) ∉ s) {es : List Nat} (hes : ∀ e ∈ es, Boundary s e)
    {w : Word} (hw : IsWord s sp w) (hsp : sp.eq ∈ es) :
    cstring (es.foldl (fun line e => line.set e 0) (s ++ [0])) sp.q = w := by
  have hle := hw.eq_le
  have hstop := hw.stop
  refine takeWhile_ne_zero (fun k hk => ?_) ?_ fun c hc => ?_
  · rw [List.getElem?_drop, foldl_set_getElem?, if_neg]
    · rw [List.getElem?_append_left (by omega), hw.getElem? hk]
    rintro ⟨hmem, _⟩
    have hnot := hes _ hmem _ (hw.getElem? hk)
    rw [hw.wordChar (getElem_mem hk)] at hnot
    cases hnot
  · rw [List.getElem?_drop, ← hstop, foldl_set_getElem?, if_pos]
    refine ⟨hsp, ?_⟩
    rw [length_append, length_singleton]
    omega
  · rintro rfl
    refine hz (mem_of_mem_drop (i := sp.q) ?_)
    rw [hw.split]
    exact mem_append_left _ hc

theorem forall₂_boundary {argv : List Span} (h : List.Forall₂ (IsWord s) argv ws) :
    ∀ e ∈ argv.map Span.eq, Boundary s e := by
  induction h with
  | nil => exact fun e he => absurd he not_mem_nil
  | cons hw _ ih =>
    intro e he
    rcases mem_cons.mp he with rfl | he
    · exact hw.boundary
    · exact ih e he

theorem Reads.boundary (h : Reads s c T) : ∀ e ∈ c.ends, Boundary s e := by
  induction h with
  | exec hargv => exact forall₂_boundary hargv
  | redir _ _ _ hf ih =>
    intro e he
    rcases mem_append.mp he with he | he
    · exact ih e he
    · rw [mem_singleton.mp he]
      exact hf.boundary
  | pipe _ _ ihl ihr | list _ _ ihl ihr =>
    intro e he
    rcases mem_append.mp he with he | he
    · exact ihl e he
    · exact ihr e he
  | back _ ih => exact ih

theorem forall₂_map {argv : List Span} {f : Span → Word} (h : List.Forall₂ (IsWord s) argv ws)
    (hf : ∀ sp w, sp.eq ∈ argv.map Span.eq → IsWord s sp w → f sp = w) : argv.map f = ws := by
  induction h with
  | nil => rfl
  | cons hw _ ih =>
    rw [map_cons, hf _ _ mem_cons_self hw, ih fun sp w hsp hw => hf sp w (mem_cons_of_mem _ hsp) hw]

theorem Reads.map_eq {f : Span → Word} (h : Reads s c T)
    (hf : ∀ sp w, sp.eq ∈ c.ends → IsWord s sp w → f sp = w) : c.map f = T := by
  induction h with
  | exec hargv => rw [Cmd.map, forall₂_map hargv hf]
  | redir mode fd _ hw ih =>
    rw [Cmd.map, ih fun sp w hsp => hf sp w (mem_append_left _ hsp),
      hf _ _ (mem_append_right _ (mem_singleton.mpr rfl)) hw]
  | pipe _ _ ihl ihr =>
    rw [Cmd.map, ihl fun sp w hsp => hf sp w (mem_append_left _ hsp),
      ihr fun sp w hsp => hf sp w (mem_append_right _ hsp)]
  | list _ _ ihl ihr =>
    rw [Cmd.map, ihl fun sp w hsp => hf sp w (mem_append_left _ hsp),
      ihr fun sp w hsp => hf sp w (mem_append_right _ hsp)]
  | back _ ih => rw [Cmd.map, ih hf]

def Cmd.text (line : List UInt8) (c : Cmd Span) : Cmd Word := c.map fun sp => cstring line sp.q

theorem Reads.text (hz : (0 : UInt8) ∉ s) (h : Reads s c T) :
    c.text (nulterminate (s ++ [0]) c) = T := by
  refine h.map_eq fun sp w hsp hw => ?_
  rw [nulterminate_eq]
  exact cstring_word hz h.boundary hw hsp

theorem parsecmd_reads (hz : (0 : UInt8) ∉ s) {line : List UInt8}
    (h : parsecmd s fuel = .ok (c, line) j) :
    ∃ ts T, Lex s ts ∧ Line ts T ∧ Reads s c T ∧ line = nulterminate (s ++ [0]) c := by
  obtain ⟨ts, hts⟩ := Lex.exists_lex s
  obtain ⟨c1, k, h1, h⟩ := Parse.andThen_ok h
  obtain ⟨us, rest, T, rfl, hat, hT, hread⟩ :=
    (parse_sound hz fuel).1 (⟨Nat.zero_le _, hts⟩ : LexAt s 0 ts) h1
  simp only at h
  split at h
  · cases h
  rename_i hend
  cases h
  rw [ne_eq, not_not, hat.peek_end hz] at hend
  subst hend
  rw [append_nil] at hts
  exact ⟨us, T, hts, hT, hread, rfl⟩

/-- `parsecmd` ends on every line without a NUL byte.  It returns the command that the
grammar derives from the tokens of the line, if there is one, and panics if there is
none. -/
theorem parsecmd_iff_derives (s : List UInt8) (hz : (0 : UInt8) ∉ s) (fuel : Nat)
    (hfuel : 4 * s.length + 4 ≤ fuel) : parsecmd s fuel ≠ .unfinished ∧
      ∀ T : Cmd Word, (∃ c line j, parsecmd s fuel = .ok (c, line) j ∧ c.text line = T) ↔
        ∃ ts, Lex s ts ∧ Line ts T := by
  obtain ⟨ts, hts⟩ := Lex.exists_lex s
  have hstart : ∀ {us}, Lex s us → LexAt s 0 us := fun h => ⟨Nat.zero_le _, h⟩
  have hlen := hts.length_le
  have hends := (parse_ends hz fuel).1 (hstart hts) (by omega)
  refine ⟨?_, fun T => ⟨?_, ?_⟩⟩
  · refine Parse.andThen_ne hends fun c k _ => ?_
    simp only
    split
    · exact nofun
    · exact nofun
  · rintro ⟨c, line, j, h, rfl⟩
    obtain ⟨us, T, hus, hT, hread, rfl⟩ := parsecmd_reads hz h
    refine ⟨us, hus, ?_⟩
    rw [hread.text hz]
    exact hT
  rintro ⟨us, hus, hT⟩
  have hlex : LexAt s 0 (us ++ []) := by
    rw [append_nil]
    exact hstart hus
  obtain ⟨c, k, h1, hat, hread⟩ := (parse_complete hz fuel).line hT hlex (follows_nil _) hends
  refine ⟨c, nulterminate (s ++ [0]) c, (peek s k (bytes "")).2, ?_, hread.text hz⟩
  unfold parsecmd
  rw [h1]
  simp only [Parse.andThen]
  rw [if_neg (not_not.mpr ((hat.peek_end hz _).mpr rfl))]

/-- A line with words, redirections, a pipe and a block. -/
theorem parsecmd_iff_derives_line : ∃ ts, Lex (bytes "ls -l >f | (wc; x) &") ts ∧
      Line ts (.back (.pipe
        (.redir (.exec [bytes "ls", bytes "-l"]) (bytes "f") (O_WRONLY ||| O_CREATE ||| O_TRUNC) 1)
        (.list (.exec [bytes "wc"]) (.exec [bytes "x"])))) := by
  have hrun : parsecmd (bytes "ls -l >f | (wc; x) &") 84 =
      .ok (.back (.pipe (.redir (.exec [⟨0, 2⟩, ⟨3, 5⟩]) ⟨7, 8⟩ 0x601 1)
        (.list (.exec [⟨12, 14⟩]) (.exec [⟨16, 17⟩]))),
        [108, 115, 0, 45, 108, 0, 62, 102, 0,
         124, 32, 40, 119, 99, 0, 32, 120, 0, 32, 38, 0]) 20 := by
    decide +kernel
  refine ((parsecmd_iff_derives _ (by decide) 84 (by decide)).2 _).mp ⟨_, _, _, hrun, ?_⟩
  decide +kernel

end Xv6.User
