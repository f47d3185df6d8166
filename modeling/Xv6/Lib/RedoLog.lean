import Mathlib.Logic.Relation
import Mathlib.Data.List.Basic
import Mathlib.Tactic.Basic
/-!
# Crash safety of a physical redo log

A disk maps addresses to blocks.  The log occupies `size` consecutive blocks
from `start` on: a header that names home addresses and, behind it, one copy
per name.  Writes reach the disk one at a time and in order, so a crash leaves
the disk with some initial segment of a list of writes applied.

Two descriptions of a disk carry the whole argument.  `Clean` says that the
header names nothing and the home blocks are `base`.  `Committed` says that the
header names the transaction and the copies are in place; about the named home
blocks it says nothing, which is why replaying them any number of times, even
in part, keeps it.
-/

namespace Xv6.Lib.RedoLog

open Function List

variable {V : Type}

def applyWrites (ws : List (Nat × V)) (d : Nat → V) : Nat → V :=
  ws.foldl (fun d w => update d w.1 w.2) d

@[simp] theorem applyWrites_nil (d : Nat → V) : applyWrites [] d = d := rfl

@[simp] theorem applyWrites_cons (w : Nat × V) (ws : List (Nat × V)) (d : Nat → V) :
    applyWrites (w :: ws) d = applyWrites ws (update d w.1 w.2) := rfl

theorem applyWrites_append (ws vs : List (Nat × V)) (d : Nat → V) :
    applyWrites (ws ++ vs) d = applyWrites vs (applyWrites ws d) := by
  unfold applyWrites
  exact foldl_append

/-- A block that no write names keeps its contents. -/
theorem applyWrites_of_not_mem {ws : List (Nat × V)} {d : Nat → V} {b : Nat}
    (h : ∀ w ∈ ws, w.1 ≠ b) : applyWrites ws d b = d b := by
  induction ws generalizing d with
  | nil => rfl
  | cons w ws ih =>
    rw [applyWrites_cons, ih (fun v hv => h v (mem_cons_of_mem _ hv))]
    exact update_of_ne (h w mem_cons_self).symm _ _

/-- When all writes to `b` carry the same contents, one of them is enough. -/
theorem applyWrites_of_mem {ws : List (Nat × V)} {d : Nat → V} {b : Nat} {x : V}
    (hmem : ∃ w ∈ ws, w.1 = b) (hval : ∀ w ∈ ws, w.1 = b → w.2 = x) : applyWrites ws d b = x := by
  induction ws generalizing d with
  | nil => simp at hmem
  | cons w ws ih =>
    rw [applyWrites_cons]
    by_cases hlater : ∃ v ∈ ws, v.1 = b
    · exact ih hlater (fun v hv => hval v (mem_cons_of_mem _ hv))
    have hrest : ∀ v ∈ ws, v.1 ≠ b := fun v hv he => hlater ⟨v, hv, he⟩
    have hw : w.1 = b := by
      obtain ⟨v, hv, he⟩ := hmem
      rcases mem_cons.mp hv with rfl | hv
      · exact he
      · exact absurd he (hrest v hv)
    rw [applyWrites_of_not_mem hrest, ← hw, update_self]
    exact hval w mem_cons_self hw

/-- Where a log lies and how its header block is read. -/
structure Format (V : Type) where
  start : Nat
  size : Nat
  decode : V → List Nat

namespace Format

def inLog (F : Format V) (b : Nat) : Prop := F.start ≤ b ∧ b < F.start + F.size

/-- Addresses a transaction may name: few enough, and outside the log. -/
structure Fits (F : Format V) (names : List Nat) : Prop where
  room : names.length + 1 ≤ F.size
  outside : ∀ b ∈ names, ¬F.inLog b

/-- The header names nothing and the blocks outside the log are `base`. -/
structure Clean (F : Format V) (base d : Nat → V) : Prop where
  head : F.decode (d F.start) = []
  home : ∀ b, ¬F.inLog b → d b = base b

/-- The header names `names`, their copies `c` are in the log, and every other
block outside the log is `base`. -/
structure Committed (F : Format V) (names : List Nat) (c base d : Nat → V) : Prop where
  head : F.decode (d F.start) = names
  copy : ∀ k (h : k < names.length), d (F.start + 1 + k) = c (names.get ⟨k, h⟩)
  home : ∀ b, ¬F.inLog b → b ∉ names → d b = base b

def installed (names : List Nat) (c base : Nat → V) : Nat → V :=
  fun b => if b ∈ names then c b else base b

/-- The transaction is on its way or done: nothing can undo it any more. -/
def Durable (F : Format V) (names : List Nat) (c base d : Nat → V) : Prop :=
  F.Committed names c base d ∨ F.Clean (installed names c base) d

variable {F : Format V} {names : List Nat} {c base d : Nat → V} {ws : List (Nat × V)} {x : V}

/-- Writes that stay behind the header and inside the log leave a clean disk
clean. -/
theorem Clean.applyWrites (h : F.Clean base d)
    (hws : ∀ w ∈ ws, F.start < w.1 ∧ w.1 < F.start + F.size) : F.Clean base (applyWrites ws d) where
  head := by
    rw [applyWrites_of_not_mem (fun w hw => by have := hws w hw; omega)]
    exact h.head
  home := by
    intro b hb
    rw [applyWrites_of_not_mem]
    · exact h.home b hb
    intro w hw he
    have := hws w hw
    exact hb ⟨by omega, by omega⟩

/-- A header that names nothing, written over a clean disk. -/
theorem Clean.writeHead (h : F.Clean base d) (hsize : 0 < F.size)
    (hx : F.decode x = []) : F.Clean base (update d F.start x) where
  head := by rwa [update_self]
  home := by
    intro b hb
    rw [update_of_ne]
    · exact h.home b hb
    · rintro rfl
      exact hb ⟨by omega, by omega⟩

/-- Writing the header over a clean disk whose copies are in place commits. -/
theorem Clean.commit (h : F.Clean base d) (hfits : F.Fits names) (hx : F.decode x = names)
    (hcopy : ∀ k (hk : k < names.length), d (F.start + 1 + k) = c (names.get ⟨k, hk⟩)) :
    F.Committed names c base (update d F.start x) where
  head := by rwa [update_self]
  copy := by
    intro k hk
    rw [update_of_ne (by omega)]
    exact hcopy k hk
  home := by
    intro b hb _
    rw [update_of_ne]
    · exact h.home b hb
    rintro rfl
    have := hfits.room
    exact hb ⟨by omega, by omega⟩

/-- Writes to named home blocks, whatever they carry, keep a transaction
committed. -/
theorem Committed.applyWrites (h : F.Committed names c base d) (hfits : F.Fits names)
   (hws : ∀ w ∈ ws, w.1 ∈ names) : F.Committed names c base (applyWrites ws d) where
  head := by
    rw [applyWrites_of_not_mem]
    · exact h.head
    intro w hw he
    have hroom := hfits.room
    exact hfits.outside w.1 (hws w hw) ⟨by omega, by omega⟩
  copy := by
    intro k hk
    rw [applyWrites_of_not_mem]
    · exact h.copy k hk
    intro w hw he
    have hroom := hfits.room
    exact hfits.outside w.1 (hws w hw) ⟨by omega, by omega⟩
  home := by
    intro b hb hn
    rw [applyWrites_of_not_mem]
    · exact h.home b hb hn
    · rintro w hw rfl
      exact hn (hws w hw)

/-- Once every named block holds its copy, clearing the header completes the
transaction. -/
theorem Committed.writeHead (h : F.Committed names c base d) (hfits : F.Fits names)
    (hdone : ∀ b ∈ names, d b = c b) (hx : F.decode x = []) :
    F.Clean (installed names c base) (update d F.start x) where
  head := by rwa [update_self]
  home := by
    intro b hb
    have hroom := hfits.room
    rw [update_of_ne (by rintro rfl; exact hb ⟨by omega, by omega⟩)]
    unfold installed
    split_ifs with hn
    · exact hdone b hn
    · exact h.home b hb hn

/-- The writes that copy each named block from the log to its home. -/
def replay (F : Format V) (d : Nat → V) : List (Nat × V) :=
  (List.range (F.decode (d F.start)).length).map fun k =>
    ((F.decode (d F.start)).getD k 0, d (F.start + 1 + k))

/-- The writes of one complete recovery of `d`. -/
def IsRecovery (F : Format V) (d : Nat → V) (ws : List (Nat × V)) : Prop :=
  ∃ x, F.decode x = [] ∧ ws = F.replay d ++ [(F.start, x)]

theorem Committed.replay_eq (h : F.Committed names c base d) :
    F.replay d = names.map fun b => (b, c b) := by
  unfold replay
  rw [h.head]
  apply ext_getElem
  · simp
  intro k hk hk'
  have hlt : k < names.length := by simpa using hk
  simp [h.copy k hlt, hlt]

/-- Recovery of a clean disk, complete or cut short, leaves it clean. -/
theorem Clean.recover (h : F.Clean base d) (hsize : 0 < F.size)
    (hws : F.IsRecovery d ws) (k : Nat) : F.Clean base (RedoLog.applyWrites (ws.take k) d) := by
  obtain ⟨x, hx, rfl⟩ := hws
  have hreplay : F.replay d = [] := by simp [replay, h.head]
  rw [hreplay, nil_append]
  cases k with
  | zero => exact h
  | succ k =>
    rw [take_succ_cons, take_nil, applyWrites_cons, applyWrites_nil]
    exact h.writeHead hsize hx

/-- A complete recovery of a committed disk installs the transaction. -/
theorem Committed.recover (h : F.Committed names c base d) (hfits : F.Fits names)
   (hws : F.IsRecovery d ws) : F.Clean (installed names c base) (RedoLog.applyWrites ws d) := by
  obtain ⟨x, hx, rfl⟩ := hws
  rw [applyWrites_append, h.replay_eq]
  refine (h.applyWrites hfits ?_).writeHead hfits ?_ hx
  · intro w hw
    obtain ⟨b, hb, rfl⟩ := mem_map.mp hw
    exact hb
  intro b hb
  apply applyWrites_of_mem
  · exact ⟨(b, c b), mem_map_of_mem hb, rfl⟩
  intro w hw he
  obtain ⟨a, _, rfl⟩ := mem_map.mp hw
  exact congrArg c he

/-- Recovery of a committed disk cut short after `k` writes. -/
theorem Committed.recover_take (h : F.Committed names c base d) (hfits : F.Fits names)
   (hws : F.IsRecovery d ws) (k : Nat) :
    F.Durable names c base (RedoLog.applyWrites (ws.take k) d) := by
  by_cases hk : ws.length ≤ k
  · rw [take_of_length_le hk]
    exact .inr (h.recover hfits hws)
  left
  obtain ⟨x, hx, rfl⟩ := hws
  have hlen : k ≤ (F.replay d).length := by
    simp only [length_append, length_singleton] at hk
    omega
  rw [take_append_of_le_length hlen]
  apply h.applyWrites hfits
  intro w hw
  have hmem := mem_of_mem_take hw
  rw [h.replay_eq] at hmem
  obtain ⟨b, hb, rfl⟩ := mem_map.mp hmem
  exact hb

section

variable (h : F.Durable names c base d)
include h

theorem Durable.head : F.decode (d F.start) = [] ∨ F.decode (d F.start) = names := by
  rcases h with h | h
  · exact .inr h.head
  · exact .inl h.head

theorem Durable.recover_take (hfits : F.Fits names)
   (hws : F.IsRecovery d ws) (k : Nat) :
    F.Durable names c base (RedoLog.applyWrites (ws.take k) d) := by
  rcases h with h | h
  · exact h.recover_take hfits hws k
  · exact .inr (h.recover (by have := hfits.room; omega) hws k)

theorem Durable.recover (hfits : F.Fits names)
   (hws : F.IsRecovery d ws) : F.Clean (installed names c base) (RedoLog.applyWrites ws d) := by
  rcases h with h | h
  · exact h.recover hfits hws
  · have hclean := h.recover (by have := hfits.room; omega) hws ws.length
    rwa [take_length] at hclean

end

/-- The copies of a transaction, as writes into the log. -/
def copies (F : Format V) (names : List Nat) (c : Nat → V) : List (Nat × V) :=
  (List.range names.length).map fun k => (F.start + 1 + k, c (names.getD k 0))

/-- The writes of a commit: copies, header, home blocks, cleared header. -/
def IsCommit (F : Format V) (names : List Nat) (c : Nat → V) (ws : List (Nat × V)) : Prop :=
  ∃ x y, F.decode x = names ∧ F.decode y = [] ∧
    ws = F.copies names c ++ (F.start, x) :: (names.map fun b => (b, c b)) ++ [(F.start, y)]

@[simp] theorem length_copies : (F.copies names c).length = names.length := by
  simp [copies]

theorem mem_copies {w : Nat × V} (hfits : F.Fits names) (hw : w ∈ F.copies names c) :
    F.start < w.1 ∧ w.1 < F.start + F.size := by
  simp only [copies, mem_map, mem_range] at hw
  obtain ⟨k, hk, rfl⟩ := hw
  have hroom := hfits.room
  simp only
  omega

theorem applyWrites_copies {k : Nat} (hk : k < names.length) :
    RedoLog.applyWrites (F.copies names c) d (F.start + 1 + k) = c (names.get ⟨k, hk⟩) := by
  apply applyWrites_of_mem
  · refine ⟨(F.start + 1 + k, c (names.getD k 0)), ?_, rfl⟩
    exact mem_map_of_mem (mem_range.mpr hk)
  intro w hw he
  simp only [copies, mem_map, mem_range] at hw
  obtain ⟨j, _, rfl⟩ := hw
  have hj : j = k := by simp only at he; omega
  subst hj
  simp [hk]

/-- Cut after `k` writes, a commit has changed nothing that matters unless the
header was among them, and then it is durable. -/
theorem Clean.commit_take (h : F.Clean base d) (hfits : F.Fits names)
   (hws : F.IsCommit names c ws) (k : Nat) :
    (k ≤ names.length → F.Clean base (RedoLog.applyWrites (ws.take k) d)) ∧
    (names.length < k → F.Durable names c base (RedoLog.applyWrites (ws.take k) d)) := by
  obtain ⟨x, y, hx, hy, rfl⟩ := hws
  have hcopies : F.Clean base (RedoLog.applyWrites (F.copies names c) d) :=
    h.applyWrites fun w hw => mem_copies hfits hw
  constructor
  · intro hk
    rw [append_assoc, take_append_of_le_length (by simpa using hk)]
    exact h.applyWrites fun w hw => mem_copies hfits (mem_of_mem_take hw)
  intro hk
  obtain ⟨j, rfl⟩ : ∃ j, k = names.length + (j + 1) := ⟨k - names.length - 1, by omega⟩
  have hcommit : F.Committed names c base
      (update (RedoLog.applyWrites (F.copies names c) d) F.start x) :=
    hcopies.commit hfits hx fun k hk => applyWrites_copies hk
  have htake : (F.copies names c ++ (F.start, x) :: (names.map fun b => (b, c b)) ++
      [(F.start, y)]).take (names.length + (j + 1)) =
      F.copies names c ++ (F.start, x) ::
        ((names.map fun b => (b, c b)) ++ [(F.start, y)]).take j := by
    rw [append_assoc, take_append, length_copies, Nat.add_sub_cancel_left,
      take_of_length_le (by simp), cons_append, take_succ_cons]
  rw [htake, applyWrites_append, applyWrites_cons]
  -- behind the header a commit writes what a recovery would
  have hrec : F.IsRecovery (update (RedoLog.applyWrites (F.copies names c) d)
      F.start x) ((names.map fun b => (b, c b)) ++ [(F.start, y)]) :=
    ⟨y, hy, by rw [hcommit.replay_eq]⟩
  exact hcommit.recover_take hfits hrec j

end Format

end Xv6.Lib.RedoLog
