import Xv6.Proofs.Shell
/-!
# Words reach the command intact

What `nulterminate` writes into the line, and what the pointers of a parsed command are
to afterwards.
-/

namespace Xv6.User

open List

namespace Cmd

variable {W : Type}

/-- The argument vectors of the sub-commands. -/
def argvs : Cmd W → List (List W)
  | .exec argv => [argv]
  | .redir cmd _ _ _ => cmd.argvs
  | .pipe left right => left.argvs ++ right.argvs
  | .list left right => left.argvs ++ right.argvs
  | .back cmd => cmd.argvs

/-- The arguments and file names of the sub-commands. -/
def words : Cmd W → List W
  | .exec argv => argv
  | .redir cmd file _ _ => cmd.words ++ [file]
  | .pipe left right => left.words ++ right.words
  | .list left right => left.words ++ right.words
  | .back cmd => cmd.words

theorem ends_eq (c : Cmd Span) : c.ends = c.words.map Span.eq := by
  induction c with
  | exec argv => rfl
  | redir cmd file mode fd ih => rw [ends, words, ih, map_append, map_singleton]
  | pipe left right ihl ihr | list left right ihl ihr =>
    rw [ends, words, ihl, ihr, map_append]
  | back cmd ih => rw [ends, words, ih]

def Short (c : Cmd W) : Prop := ∀ argv ∈ c.argvs, argv.length < MAXARGS

theorem short_append {c d e : Cmd W} (h : e.argvs = c.argvs ++ d.argvs) (hc : c.Short)
    (hd : d.Short) : e.Short := by
  intro argv hargv
  rw [h] at hargv
  rcases mem_append.mp hargv with hargv | hargv
  · exact hc argv hargv
  · exact hd argv hargv

end Cmd

def argvAt (argv : List Span) (i : Nat) : Option Nat := argv[i]?.map Span.q

/-! ## The number of arguments -/

theorem argvs_wrap (T : Cmd Word) (R : List Redirection) : (wrap T R).argvs = T.argvs := by
  induction R generalizing T with
  | nil => rfl
  | cons r R ih => exact ih _

theorem argvs_backs (n : Nat) (T : Cmd Word) : (backs n T).argvs = T.argvs := by
  induction n with
  | zero => rfl
  | succ n ih => exact ih

mutual

theorem Line.short : ∀ {ts : List Tok} {T : Cmd Word}, Line ts T → T.Short
  | _, _, .one (T := T) n hp => by
      unfold Cmd.Short
      rw [argvs_backs n T]
      exact hp.short
  | _, _, .list (T := T) n hp hl => by
      refine Cmd.short_append ?_ hp.short hl.short
      rw [Cmd.argvs, argvs_backs n T]

theorem Pipeline.short : ∀ {ts : List Tok} {T : Cmd Word}, Pipeline ts T → T.Short
  | _, _, .one hs => hs.short
  | _, _, .pipe hs hp => Cmd.short_append rfl hs.short hp.short

theorem Simple.short : ∀ {ts : List Tok} {T : Cmd Word}, Simple ts T → T.Short
  | _, _, .block (T := T) (R := R) hl _ => by
      unfold Cmd.Short
      rw [argvs_wrap T R]
      exact hl.short
  | _, _, .exec _ hlen => by
      intro argv hargv
      rw [argvs_wrap] at hargv
      rw [mem_singleton.mp hargv]
      have hmax : MAXARGS = 10 := rfl
      omega

end

section

variable {s : List UInt8} {c : Cmd Span} {T : Cmd Word}

theorem Reads.short (h : Reads s c T) (hT : T.Short) : c.Short := by
  induction h with
  | exec hargv =>
    intro argv hmem
    rw [mem_singleton.mp hmem, hargv.length_eq]
    exact hT _ (mem_singleton_self _)
  | redir _ _ _ _ ih => exact ih hT
  | pipe _ _ ihl ihr | list _ _ ihl ihr =>
    refine Cmd.short_append rfl (ihl fun argv h => ?_) (ihr fun argv h => ?_)
    · exact hT argv (mem_append_left _ h)
    · exact hT argv (mem_append_right _ h)
  | back _ ih => exact ih hT

theorem Reads.isWord (h : Reads s c T) : ∀ sp ∈ c.words, ∃ w, IsWord s sp w := by
  induction h with
  | exec hargv =>
    intro sp hsp
    obtain ⟨n, hn, rfl⟩ := getElem_of_mem hsp
    have hn' := hargv.length_eq ▸ hn
    exact ⟨_, hargv.get hn hn'⟩
  | redir _ _ _ hf ih =>
    intro sp hsp
    rcases mem_append.mp hsp with hsp | hsp
    · exact ih sp hsp
    · rw [mem_singleton.mp hsp]
      exact ⟨_, hf⟩
  | pipe _ _ ihl ihr | list _ _ ihl ihr =>
    intro sp hsp
    rcases mem_append.mp hsp with hsp | hsp
    · exact ihl sp hsp
    · exact ihr sp hsp
  | back _ ih => exact ih

/-- Each word of a parsed command is delivered as the text of its token; each argument
vector ends with a null pointer; and `nulterminate` writes only where a token has ended. -/
theorem words_delivered {s buf : List UInt8} (hz : (0 : UInt8) ∉ s) {fuel j : Nat} {c : Cmd Span}
    (h : parsecmd s fuel = .ok (c, buf) j) :
    (∀ sp ∈ c.words, ∃ w, IsWord s sp w ∧ cstring buf sp.q = w) ∧
    (∀ argv ∈ c.argvs, ∃ argc, argc < MAXARGS ∧ argvAt argv argc = none ∧
      ∀ i, i < argc → argvAt argv i ≠ none) ∧
    (∀ k, buf[k]? = if k ∈ c.words.map Span.eq then some 0 else (s ++ [0])[k]?) ∧
    ∀ e ∈ c.words.map Span.eq, (e = s.length ∨ ∃ b, s[e]? = some b ∧ isWordChar b = false) ∧
      ∀ sp ∈ c.words, ¬(sp.q ≤ e ∧ e < sp.eq) := by
  obtain ⟨ts, T, _, hT, hread, rfl⟩ := parsecmd_reads hz h
  have hends := Cmd.ends_eq c
  refine ⟨?_, ?_, ?_, ?_⟩
  · intro sp hsp
    obtain ⟨w, hw⟩ := hread.isWord sp hsp
    refine ⟨w, hw, ?_⟩
    rw [nulterminate_eq]
    refine cstring_word hz hread.boundary hw ?_
    rw [hends]
    exact mem_map_of_mem hsp
  · intro argv hargv
    refine ⟨argv.length, hread.short hT.short argv hargv, ?_, fun i hi => ?_⟩
    · unfold argvAt
      rw [List.getElem?_eq_none le_rfl]
      rfl
    · unfold argvAt
      rw [List.getElem?_eq_getElem hi]
      exact Option.some_ne_none _
  · intro k
    rw [nulterminate_eq, foldl_set_getElem?, hends]
    by_cases hk : k ∈ c.words.map Span.eq
    · have hlt : k < (s ++ [0]).length := by
        obtain ⟨sp, hsp, rfl⟩ := mem_map.mp hk
        obtain ⟨w, hw⟩ := hread.isWord sp hsp
        have hle := hw.eq_le
        rw [length_append, length_singleton]
        omega
      rw [if_pos hk, if_pos ⟨hk, hlt⟩]
    · rw [if_neg hk, if_neg fun hx => hk hx.1]
  · intro e he
    have hbound := hread.boundary e (hends ▸ he)
    refine ⟨?_, ?_⟩
    · obtain ⟨sp, hsp, rfl⟩ := mem_map.mp he
      obtain ⟨w, hw⟩ := hread.isWord sp hsp
      rcases Nat.lt_or_eq_of_le hw.eq_le with hlt | heq
      · exact .inr ⟨_, List.getElem?_eq_getElem hlt, hbound _ (List.getElem?_eq_getElem hlt)⟩
      · exact .inl heq
    -- a token consists of characters that end none
    rintro sp hsp ⟨hlo, hhi⟩
    obtain ⟨w, hw⟩ := hread.isWord sp hsp
    have hstop := hw.stop
    have hlt : e - sp.q < w.length := by omega
    have hchar := hw.getElem? hlt
    rw [Nat.add_sub_cancel' hlo] at hchar
    have hnot := hbound _ hchar
    rw [hw.wordChar (getElem_mem hlt)] at hnot
    cases hnot

/-- Tokens that touch: the NUL bytes replace the symbols between them. -/
theorem words_delivered_touching : ∃ c buf j, parsecmd (bytes "(a>b|c)>d") 40 = .ok (c, buf) j ∧
      c.words = [⟨1, 2⟩, ⟨3, 4⟩, ⟨5, 6⟩, ⟨8, 9⟩] ∧
      ∀ sp ∈ c.words, ∃ w, IsWord (bytes "(a>b|c)>d") sp w ∧ cstring buf sp.q = w := by
  have hrun : parsecmd (bytes "(a>b|c)>d") 40 =
      .ok (.redir (.pipe (.redir (.exec [⟨1, 2⟩]) ⟨3, 4⟩ 0x601 1) (.exec [⟨5, 6⟩])) ⟨8, 9⟩ 0x601 1,
        [40, 97, 0, 98, 0, 99, 0, 62, 100, 0]) 9 := by
    decide +kernel
  exact ⟨_, _, _, hrun, rfl, (words_delivered (by decide) hrun).1⟩

end

end Xv6.User
