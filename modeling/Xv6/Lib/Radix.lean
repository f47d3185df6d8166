import Mathlib.Algebra.BigOperators.Group.Finset.Basic
import Mathlib.Algebra.Order.BigOperators.Group.Finset
import Mathlib.Algebra.Order.Group.Multiset
/-!
# Radix trees in paged memory

Memory is a function from pages and indices to words.  A table is a page of
`fan` words; a table above the lowest level holds pointers to tables of the
level below, a table of level 0 holds the values.  A tree of level `n` maps
keys below `fan ^ (n + 1)` to values; digit `i` of a key is the index used at
level `i`.

The tables of a tree are collected in a multiset, so that a tree without
sharing is one whose multiset has no duplicates.
-/

namespace Xv6.Lib

open Multiset

/-- How words are read: as a pointer to a table, and as a value. -/
structure Radix (W ν : Type) where
  fan : Nat
  child : W → Option Nat
  leaf : W → Option ν
  pos : 0 < fan

namespace Radix

variable {W ν : Type} (S : Radix W ν) (m : Nat → Nat → W)

/-- The index of key `k` at level `n`. -/
def digit (n k : Nat) : Nat := k / S.fan ^ n % S.fan

/-- The page and index of the word for key `k`, in the tree of level `n` at page
`p`. -/
def slot : Nat → Nat → Nat → Option (Nat × Nat)
  | 0, p, k => some (p, S.digit 0 k)
  | n + 1, p, k => match S.child (m p (S.digit (n + 1) k)) with
    | some q => slot n q k
    | none => none

def lookup (n p k : Nat) : Option ν :=
  (S.slot m n p k).bind fun e => S.leaf (m e.1 e.2)

/-- The pages of the tables of the tree. -/
def tables : Nat → Nat → Multiset Nat
  | 0, p => {p}
  | n + 1, p => p ::ₘ ∑ i ∈ Finset.range S.fan, (S.child (m p i)).elim 0 (tables n)

/-- Every pointer in the tree passes the test `g`. -/
def Inner (g : W → Prop) : Nat → Nat → Prop
  | 0, _ => True
  | n + 1, p => ∀ i, i < S.fan → ∀ q, S.child (m p i) = some q → g (m p i) ∧ Inner g n q

def Empty : Nat → Nat → Prop
  | 0, p => ∀ i, i < S.fan → S.leaf (m p i) = none
  | n + 1, p => ∀ i, i < S.fan → ∀ q, S.child (m p i) = some q → Empty n q

variable {S} {m} {m' : Nat → Nat → W} {g : W → Prop} {n p q a i k k' : Nat} {e : Nat × Nat}
  {N : Multiset Nat}

theorem digit_lt (n k : Nat) : S.digit n k < S.fan := Nat.mod_lt _ S.pos

/-- Keys with the same digits are the same. -/
theorem eq_of_digits (h : ∀ j, j ≤ n → S.digit j k = S.digit j k') (hk : k < S.fan ^ (n + 1))
    (hk' : k' < S.fan ^ (n + 1)) : k = k' := by
  have hmod : ∀ j, j ≤ n + 1 → k % S.fan ^ j = k' % S.fan ^ j := by
    intro j
    induction j with
    | zero =>
      intro _
      rw [Nat.pow_zero, Nat.mod_one, Nat.mod_one]
    | succ j ih =>
      intro hj
      have hd : k / S.fan ^ j % S.fan = k' / S.fan ^ j % S.fan := h j (by omega)
      rw [Nat.mod_pow_succ, Nat.mod_pow_succ, ih (by omega), hd]
  have hlast := hmod (n + 1) le_rfl
  rwa [Nat.mod_eq_of_lt hk, Nat.mod_eq_of_lt hk'] at hlast

/-! ## Going down one level -/

theorem slot_succ (hc : S.child (m p (S.digit (n + 1) k)) = some q) :
    S.slot m (n + 1) p k = S.slot m n q k := by
  rw [slot, hc]

theorem slot_succ_none (hc : S.child (m p (S.digit (n + 1) k)) = none) :
    S.slot m (n + 1) p k = none := by
  rw [slot, hc]

theorem lookup_succ (hc : S.child (m p (S.digit (n + 1) k)) = some q) :
    S.lookup m (n + 1) p k = S.lookup m n q k := by
  unfold lookup
  rw [slot_succ hc]

theorem lookup_succ_none (hc : S.child (m p (S.digit (n + 1) k)) = none) :
    S.lookup m (n + 1) p k = none := by
  unfold lookup
  rw [slot_succ_none hc]
  rfl

theorem mem_tables_self (n p : Nat) : p ∈ S.tables m n p := by
  cases n with
  | zero => exact mem_singleton_self p
  | succ n => exact mem_cons_self p _

/-- The tables of a tree, with those below entry `i` set apart. -/
theorem tables_succ (hi : i < S.fan) : S.tables m (n + 1) p =
    p ::ₘ ((S.child (m p i)).elim 0 (S.tables m n) +
      ∑ j ∈ (Finset.range S.fan).erase i, (S.child (m p j)).elim 0 (S.tables m n)) := by
  rw [tables, Finset.add_sum_erase _ (fun j => (S.child (m p j)).elim 0 (S.tables m n))
    (Finset.mem_range.mpr hi)]

theorem tables_child_le (hi : i < S.fan) (hc : S.child (m p i) = some q) :
    S.tables m n q ≤ S.tables m (n + 1) p := by
  rw [tables_succ hi, hc]
  exact (Multiset.le_add_right _ _).trans (le_cons_self _ _)

section

variable (h : (S.tables m (n + 1) p).Nodup)
include h

theorem nodup_child (hi : i < S.fan) (hc : S.child (m p i) = some q) : (S.tables m n q).Nodup :=
  nodup_of_le (tables_child_le hi hc) h

theorem not_mem_child (hi : i < S.fan) (hc : S.child (m p i) = some q) : p ∉ S.tables m n q := by
  rw [tables, nodup_cons] at h
  intro hp
  refine h.1 (mem_sum.mpr ⟨i, Finset.mem_range.mpr hi, ?_⟩)
  rw [hc]
  exact hp

theorem disjoint_child {j r : Nat} (hi : i < S.fan)
    (hj : j < S.fan) (hij : j ≠ i) (hc : S.child (m p i) = some q)
    (hr : S.child (m p j) = some r) (ha : a ∈ S.tables m n r) : a ∉ S.tables m n q := by
  rw [tables_succ hi, nodup_cons, nodup_add, hc] at h
  intro haq
  refine disjoint_left.mp h.2.2.2 haq (mem_sum.mpr ⟨j, ?_, ?_⟩)
  · exact Finset.mem_erase.mpr ⟨hij, Finset.mem_range.mpr hj⟩
  · rw [hr]
    exact ha

end

/-! ## Memory outside a tree -/

theorem tables_congr (h : ∀ a ∈ S.tables m n p, m' a = m a) : S.tables m' n p = S.tables m n p := by
  induction n generalizing p with
  | zero => rfl
  | succ n ih =>
    rw [tables, tables, h p (mem_tables_self _ p)]
    refine congrArg _ (Finset.sum_congr rfl ?_)
    intro i hi
    cases hc : S.child (m p i) with
    | none => rfl
    | some q =>
      refine ih fun a ha => h a ?_
      exact mem_of_le (tables_child_le (Finset.mem_range.mp hi) hc) ha

theorem slot_congr (h : ∀ a ∈ S.tables m n p, m' a = m a) (k : Nat) :
    S.slot m' n p k = S.slot m n p k := by
  induction n generalizing p with
  | zero => rfl
  | succ n ih =>
    rw [slot, slot, h p (mem_tables_self _ p)]
    cases hc : S.child (m p (S.digit (n + 1) k)) with
    | none => rfl
    | some q =>
      refine ih fun a ha => h a ?_
      exact mem_of_le (tables_child_le (digit_lt _ _) hc) ha

theorem slot_mem (h : S.slot m n p k = some e) : e.1 ∈ S.tables m n p ∧ e.2 = S.digit 0 k := by
  induction n generalizing p with
  | zero =>
    cases h
    exact ⟨mem_tables_self 0 p, rfl⟩
  | succ n ih =>
    cases hc : S.child (m p (S.digit (n + 1) k)) with
    | none =>
      rw [slot_succ_none hc] at h
      cases h
    | some q =>
      rw [slot_succ hc] at h
      exact ⟨mem_of_le (tables_child_le (digit_lt _ _) hc) (ih h).1, (ih h).2⟩

section

variable (h : ∀ a ∈ S.tables m n p, m' a = m a)
include h

theorem lookup_congr (k : Nat) : S.lookup m' n p k = S.lookup m n p k := by
  unfold lookup
  rw [slot_congr h]
  cases hs : S.slot m n p k with
  | none => rfl
  | some e => rw [Option.bind_some, Option.bind_some, h e.1 (slot_mem hs).1]

theorem inner_congr (hin : S.Inner m g n p) : S.Inner m' g n p := by
  induction n generalizing p with
  | zero => trivial
  | succ n ih =>
    intro i hi q hc
    rw [h p (mem_tables_self _ p)] at hc ⊢
    refine ⟨(hin i hi q hc).1, ih (fun a ha => h a ?_) (hin i hi q hc).2⟩
    exact mem_of_le (tables_child_le hi hc) ha

theorem empty_congr (he : S.Empty m n p) : S.Empty m' n p := by
  induction n generalizing p with
  | zero =>
    intro i hi
    rw [h p (mem_tables_self _ p)]
    exact he i hi
  | succ n ih =>
    intro i hi q hc
    rw [h p (mem_tables_self _ p)] at hc
    refine ih (fun a ha => h a ?_) (he i hi q hc)
    exact mem_of_le (tables_child_le hi hc) ha

end

/-- The value of a key depends on its digits. -/
theorem lookup_digits (h : ∀ j, j ≤ n → S.digit j k = S.digit j k') :
    S.lookup m n p k = S.lookup m n p k' := by
  induction n generalizing p with
  | zero =>
    unfold lookup slot
    rw [h 0 (Nat.le_refl 0)]
  | succ n ih =>
    cases hc : S.child (m p (S.digit (n + 1) k)) with
    | none =>
      rw [lookup_succ_none hc]
      rw [h (n + 1) le_rfl] at hc
      rw [lookup_succ_none hc]
    | some q =>
      rw [lookup_succ hc]
      rw [h (n + 1) le_rfl] at hc
      rw [lookup_succ hc]
      exact ih fun j hj => h j (Nat.le_succ_of_le hj)

/-- A tree that maps no key is empty. -/
theorem empty_of_lookup (h : ∀ k, k < S.fan ^ (n + 1) → S.lookup m n p k = none) :
    S.Empty m n p := by
  induction n generalizing p with
  | zero =>
    intro i hi
    have hd : S.digit 0 i = i := by
      unfold digit
      rw [Nat.pow_zero, Nat.div_one, Nat.mod_eq_of_lt hi]
    have hl := h i (by rwa [Nat.zero_add, Nat.pow_one])
    unfold lookup slot at hl
    rw [hd] at hl
    exact hl
  | succ n ih =>
    intro i hi q hc
    apply ih
    intro k hk
    have hpos : 0 < S.fan ^ (n + 1) := Nat.pow_pos S.pos
    -- the key with digit `i` in front
    have hfront : S.digit (n + 1) (k + S.fan ^ (n + 1) * i) = i := by
      unfold digit
      rw [Nat.add_mul_div_left _ _ hpos, Nat.div_eq_of_lt hk, Nat.zero_add, Nat.mod_eq_of_lt hi]
    have hlow : ∀ j, j ≤ n → S.digit j (k + S.fan ^ (n + 1) * i) = S.digit j k := by
      intro j hj
      have hsplit : S.fan ^ (n + 1) * i = S.fan ^ j * (S.fan * (S.fan ^ (n - j) * i)) := by
        rw [← Nat.mul_assoc S.fan, ← Nat.pow_succ', ← Nat.mul_assoc, ← Nat.pow_add]
        congr 2
        omega
      unfold digit
      rw [hsplit, Nat.add_mul_div_left _ _ (Nat.pow_pos S.pos), Nat.add_mul_mod_self_left]
    have hlt : k + S.fan ^ (n + 1) * i < S.fan ^ (n + 1 + 1) := by
      calc k + S.fan ^ (n + 1) * i < S.fan ^ (n + 1) + S.fan ^ (n + 1) * i := by omega
        _ = S.fan ^ (n + 1) * (i + 1) := by rw [Nat.mul_add, Nat.mul_one, Nat.add_comm]
        _ ≤ S.fan ^ (n + 1) * S.fan := Nat.mul_le_mul_left _ hi
    have hl := h _ hlt
    rw [lookup_succ (q := q) (by rw [hfront]; exact hc)] at hl
    rw [← lookup_digits hlow]
    exact hl

/-! ## A change below one entry

The tree below entry `i` of `p` changes and takes over the pages `N`; the rest
of the tree stays as it is. -/

section Below

variable (hnd : (S.tables m (n + 1) p).Nodup) (hi : i < S.fan) (hc : S.child (m p i) = some q)
  (hout : ∀ a, a ∉ S.tables m n q → a ∉ N → m' a = m a)
  (hN : ∀ a ∈ N, a ∉ S.tables m (n + 1) p)

include hnd hi hc hout hN

theorem below_root : m' p = m p :=
  hout p (not_mem_child hnd hi hc) fun hp => hN p hp (mem_tables_self _ p)

theorem below_other {j r : Nat} (hj : j < S.fan) (hij : j ≠ i) (hr : S.child (m p j) = some r)
    (ha : a ∈ S.tables m n r) : m' a = m a :=
  hout a (disjoint_child hnd hi hj hij hc hr ha) fun haN =>
    hN a haN (mem_of_le (tables_child_le hj hr) ha)

theorem tables_below (htab : S.tables m' n q = N + S.tables m n q) :
    S.tables m' (n + 1) p = N + S.tables m (n + 1) p := by
  have hrest : ∑ j ∈ (Finset.range S.fan).erase i, (S.child (m' p j)).elim 0 (S.tables m' n) =
      ∑ j ∈ (Finset.range S.fan).erase i, (S.child (m p j)).elim 0 (S.tables m n) := by
    refine Finset.sum_congr rfl ?_
    intro j hj
    obtain ⟨hij, hj⟩ := Finset.mem_erase.mp hj
    rw [below_root hnd hi hc hout hN]
    cases hr : S.child (m p j) with
    | none => rfl
    | some r =>
      refine tables_congr fun a ha => ?_
      exact below_other hnd hi hc hout hN (Finset.mem_range.mp hj) hij hr ha
  rw [tables_succ hi, tables_succ hi, hrest, below_root hnd hi hc hout hN, hc, Option.elim_some,
    Option.elim_some, htab, add_cons, Multiset.add_assoc]

theorem slot_below_same (hk : S.digit (n + 1) k = i) : S.slot m' (n + 1) p k = S.slot m' n q k := by
  apply slot_succ
  rw [below_root hnd hi hc hout hN, hk]
  exact hc

theorem slot_below_other (hk : S.digit (n + 1) k ≠ i) :
    S.slot m' (n + 1) p k = S.slot m (n + 1) p k := by
  rw [slot, slot, below_root hnd hi hc hout hN]
  cases hr : S.child (m p (S.digit (n + 1) k)) with
  | none => rfl
  | some r => exact slot_congr (fun a => below_other hnd hi hc hout hN (digit_lt _ _) hk hr) k

theorem lookup_below_same (hk : S.digit (n + 1) k = i) :
    S.lookup m' (n + 1) p k = S.lookup m' n q k := by
  unfold lookup
  rw [slot_below_same hnd hi hc hout hN hk]

theorem lookup_below_other (hk : S.digit (n + 1) k ≠ i) :
    S.lookup m' (n + 1) p k = S.lookup m (n + 1) p k := by
  cases hr : S.child (m p (S.digit (n + 1) k)) with
  | none =>
    rw [lookup_succ_none hr]
    apply lookup_succ_none
    rw [below_root hnd hi hc hout hN]
    exact hr
  | some r =>
    rw [lookup_succ hr, lookup_succ (q := r) (by rw [below_root hnd hi hc hout hN]; exact hr)]
    exact lookup_congr (fun a => below_other hnd hi hc hout hN (digit_lt _ _) hk hr) k

theorem inner_below (hin : S.Inner m g (n + 1) p) (hq : S.Inner m' g n q) :
    S.Inner m' g (n + 1) p := by
  intro j hj r hr
  rw [below_root hnd hi hc hout hN] at hr ⊢
  refine ⟨(hin j hj r hr).1, ?_⟩
  rcases eq_or_ne j i with rfl | hij
  · rw [hc] at hr
    cases hr
    exact hq
  · exact inner_congr (fun a => below_other hnd hi hc hout hN hj hij hr) (hin j hj r hr).2

end Below

/-! ## Attaching an empty table -/

section Attach

variable (hi : i < S.fan) (hq : q ∉ S.tables m (n + 1) p) (hnone : S.child (m p i) = none)
  (hsome : S.child (m' p i) = some q) (hnochild : ∀ j, S.child (m' q j) = none)
  (hout : ∀ a, a ≠ p → a ≠ q → m' a = m a) (hpage : ∀ j, j ≠ i → m' p j = m p j)

section

variable (h : ∀ j, S.child (m q j) = none)
include h

theorem tables_blank : S.tables m n q = {q} := by
  cases n with
  | zero => rfl
  | succ n =>
    rw [tables, Finset.sum_eq_zero, cons_zero]
    intro j _
    rw [h j]
    rfl

theorem lookup_blank (hl : ∀ j, S.leaf (m q j) = none) (k : Nat) : S.lookup m n q k = none := by
  cases n with
  | zero => exact hl _
  | succ n => exact lookup_succ_none (h _)

theorem inner_blank : S.Inner m g n q := by
  cases n with
  | zero => trivial
  | succ n =>
    intro j _ r hr
    rw [h j] at hr
    cases hr

end

include hq hout

section

variable (hnd : (S.tables m (n + 1) p).Nodup)
include hnd

theorem attach_other {j r : Nat} (hj : j < S.fan)
    (hr : S.child (m p j) = some r) (ha : a ∈ S.tables m n r) : m' a = m a := by
  apply hout
  · rintro rfl
    exact not_mem_child hnd hj hr ha
  · rintro rfl
    exact hq (mem_of_le (tables_child_le hj hr) ha)

include hnone hsome hnochild hpage

theorem lookup_attach (hl : ∀ j, S.leaf (m' q j) = none)
    (k : Nat) : S.lookup m' (n + 1) p k = S.lookup m (n + 1) p k := by
  by_cases hk : S.digit (n + 1) k = i
  · subst hk
    rw [lookup_succ hsome, lookup_succ_none hnone]
    exact lookup_blank hnochild hl k
  cases hr : S.child (m p (S.digit (n + 1) k)) with
  | none =>
    rw [lookup_succ_none hr]
    apply lookup_succ_none
    rw [hpage _ hk]
    exact hr
  | some r =>
    rw [lookup_succ hr, lookup_succ (q := r) (by rw [hpage _ hk]; exact hr)]
    refine lookup_congr (fun a ha => ?_) k
    exact attach_other hq hout hnd (digit_lt _ _) hr ha

include hi

theorem tables_attach :
    S.tables m' (n + 1) p = q ::ₘ S.tables m (n + 1) p := by
  have hrest : ∑ j ∈ (Finset.range S.fan).erase i, (S.child (m' p j)).elim 0 (S.tables m' n) =
      ∑ j ∈ (Finset.range S.fan).erase i, (S.child (m p j)).elim 0 (S.tables m n) := by
    refine Finset.sum_congr rfl ?_
    intro j hj
    obtain ⟨hij, hj⟩ := Finset.mem_erase.mp hj
    rw [hpage j hij]
    cases hr : S.child (m p j) with
    | none => rfl
    | some r =>
      refine tables_congr fun a ha => ?_
      exact attach_other hq hout hnd (Finset.mem_range.mp hj) hr ha
  rw [tables_succ hi, tables_succ hi, hrest, hsome, hnone, Option.elim_some, Option.elim_none,
    tables_blank hnochild, Multiset.zero_add, singleton_add, cons_swap]

omit hi in
theorem inner_attach (hin : S.Inner m g (n + 1) p)
    (hok : g (m' p i)) : S.Inner m' g (n + 1) p := by
  intro j hj r hr
  rcases eq_or_ne j i with rfl | hij
  · rw [hsome] at hr
    cases hr
    exact ⟨hok, inner_blank hnochild⟩
  · rw [hpage j hij] at hr ⊢
    refine ⟨(hin j hj r hr).1, inner_congr (fun a ha => ?_) (hin j hj r hr).2⟩
    exact attach_other hq hout hnd hj hr ha

end

end Attach

/-! ## Writing a value -/

/-- Only keys with the same digits share a slot. -/
theorem slot_inj (hnd : (S.tables m n p).Nodup) (h : S.slot m n p k = some e)
    (h' : S.slot m n p k' = some e) : ∀ j, j ≤ n → S.digit j k = S.digit j k' := by
  induction n generalizing p with
  | zero =>
    intro j hj
    rw [Nat.le_zero.mp hj, ← (slot_mem h).2, ← (slot_mem h').2]
  | succ n ih =>
    cases hc : S.child (m p (S.digit (n + 1) k)) with
    | none =>
      rw [slot_succ_none hc] at h
      cases h
    | some q =>
      cases hc' : S.child (m p (S.digit (n + 1) k')) with
      | none =>
        rw [slot_succ_none hc'] at h'
        cases h'
      | some q' =>
        rw [slot_succ hc] at h
        rw [slot_succ hc'] at h'
        have hd : S.digit (n + 1) k = S.digit (n + 1) k' := by
          by_contra hne
          exact disjoint_child hnd (digit_lt _ _) (digit_lt _ _) hne hc' hc (slot_mem h).1
            (slot_mem h').1
        intro j hj
        rcases Nat.lt_or_eq_of_le hj with hlt | rfl
        · rw [hd, hc'] at hc
          cases hc
          exact ih (nodup_child hnd (digit_lt _ _) hc') h h' j (Nat.le_of_lt_succ hlt)
        · exact hd

section Write

variable (hnd : (S.tables m n p).Nodup) (hs : S.slot m n p k = some e)
  (hout : ∀ a, a ≠ e.1 → m' a = m a) (hpage : ∀ j, j ≠ e.2 → m' e.1 j = m e.1 j)

include hnd hs hout

/-- A write to the slot of a key changes no pointer. -/
theorem write_tree : S.tables m' n p = S.tables m n p ∧
    (∀ k', S.slot m' n p k' = S.slot m n p k') ∧ (S.Inner m g n p → S.Inner m' g n p) := by
  induction n generalizing p with
  | zero => exact ⟨rfl, fun _ => rfl, fun _ => trivial⟩
  | succ n ih =>
    cases hc : S.child (m p (S.digit (n + 1) k)) with
    | none =>
      rw [slot_succ_none hc] at hs
      cases hs
    | some q =>
      rw [slot_succ hc] at hs
      have hi := S.digit_lt (n + 1) k
      obtain ⟨htab, hslot, hin⟩ := ih (nodup_child hnd hi hc) hs
      have hout' : ∀ a, a ∉ S.tables m n q → a ∉ (0 : Multiset Nat) → m' a = m a := by
        intro a ha _
        apply hout
        rintro rfl
        exact ha (slot_mem hs).1
      have hN : ∀ a ∈ (0 : Multiset Nat), a ∉ S.tables m (n + 1) p :=
        fun a ha => absurd ha (notMem_zero a)
      refine ⟨?_, ?_, ?_⟩
      · rw [tables_below hnd hi hc hout' hN (by rw [htab, Multiset.zero_add]), Multiset.zero_add]
      · intro k'
        by_cases hk : S.digit (n + 1) k' = S.digit (n + 1) k
        · rw [slot_below_same hnd hi hc hout' hN hk, hslot k', slot_succ (by rw [hk]; exact hc)]
        · exact slot_below_other hnd hi hc hout' hN hk
      · intro hinner
        exact inner_below hnd hi hc hout' hN hinner (hin (hinner _ hi q hc).2)

include hpage

theorem lookup_write (hk : k < S.fan ^ (n + 1)) {k' : Nat} (hk' : k' < S.fan ^ (n + 1)) :
    S.lookup m' n p k' = if k' = k then S.leaf (m' e.1 e.2) else S.lookup m n p k' := by
  unfold lookup
  rw [(write_tree (g := fun _ => True) hnd hs hout).2.1 k']
  split
  · rename_i heq
    rw [heq, hs]
    rfl
  rename_i hne
  cases hs' : S.slot m n p k' with
  | none => rfl
  | some e' =>
    rw [Option.bind_some, Option.bind_some]
    by_cases hpg : e'.1 = e.1
    · have hidx : e'.2 ≠ e.2 := by
        intro hidx
        have he : e' = e := Prod.ext hpg hidx
        rw [he] at hs'
        exact hne (eq_of_digits (slot_inj hnd hs' hs) hk' hk)
      rw [hpg, hpage _ hidx]
    · rw [hout _ hpg]

end Write

end Radix

end Xv6.Lib
