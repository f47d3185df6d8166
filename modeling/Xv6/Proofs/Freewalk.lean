import Xv6.Proofs.Mapping
/-!
# Freeing a page table

`freewalk` on a page table that maps nothing gives all its tables back.
-/

namespace Xv6.Kernel

open Xv6.Lib Multiset

namespace Vm

variable {Q : Unit → Phys → Prop}

def kids (s : Phys) (n p j : Nat) : Multiset Nat :=
  (sv39.child (s.word p j)).elim 0 (sv39.tables s.word n)

variable {E : VmPanic → Prop} {L : Link} {s t : Phys} {l : List Nat} {n p i q : Nat}

theorem tables_eq (s : Phys) (n p : Nat) :
    sv39.tables s.word (n + 1) p = p ::ₘ ∑ j ∈ Finset.range sv39.fan, kids s n p j := by
  rw [Radix.tables]
  rfl

theorem kids_some (hc : sv39.child (s.word p i) = some q) :
    kids s n p i = sv39.tables s.word n q := by
  unfold kids
  rw [hc]
  rfl

theorem kids_none (hc : sv39.child (s.word p i) = none) : kids s n p i = 0 := by
  unfold kids
  rw [hc]
  rfl

theorem sum_kids_le (hi : i ≤ sv39.fan) :
    ∑ j ∈ Finset.range i, kids s n p j ≤ ∑ j ∈ Finset.range sv39.fan, kids s n p j := by
  refine Finset.sum_le_sum_of_subset_of_nonneg ?_ fun _ _ _ => Multiset.zero_le _
  exact Finset.range_subset_range.mpr hi

structure Freeing (L : Link) (s t : Phys) (n p : Nat) (l : List Nat) (i : Nat) : Prop where
  free : ∃ l' : List Nat, FreeList L t l' ∧
    (l' : Multiset Nat) = ∑ j ∈ Finset.range i, kids s n p j + l
  out : ∀ a, a ≠ p → a ∉ ∑ j ∈ Finset.range i, kids s n p j → t.page a = s.page a
  left : ∀ j, i ≤ j → t.word p j = s.word p j

namespace Freeing

variable (h : Freeing L s t n p l i) (hnd : (sv39.tables s.word (n + 1) p + l).Nodup)
  (hi : i < sv39.fan) {l' : Multiset Nat} {u : Phys} {l2 : List Nat}

include h hnd hi

theorem same (hc : sv39.child (s.word p i) = some q) :
    ∀ a ∈ sv39.tables s.word n q, t.page a = s.page a := by
  have hnd' := (nodup_add.mp hnd).1
  have hsum : (∑ j ∈ Finset.range (i + 1), kids s n p j).Nodup := by
    rw [tables_eq, nodup_cons] at hnd'
    exact nodup_of_le (sum_kids_le hi) hnd'.2
  rw [Finset.sum_range_succ, kids_some hc] at hsum
  intro a ha
  apply h.out
  · rintro rfl
    exact Radix.not_mem_child hnd' hi hc ha
  · exact fun hmem => disjoint_left.mp (nodup_add.mp hsum).2.2 hmem ha

omit hnd hi in
theorem skip (hc : sv39.child (s.word p i) = none) : Freeing L s t n p l (i + 1) := by
  have hsum : ∑ j ∈ Finset.range (i + 1), kids s n p j = ∑ j ∈ Finset.range i, kids s n p j := by
    rw [Finset.sum_range_succ, kids_none hc, Multiset.add_zero]
  refine ⟨?_, ?_, fun j hj => h.left j (by omega)⟩
  · rw [hsum]
    exact h.free
  · rw [hsum]
    exact h.out

theorem next (hc : sv39.child (s.word p i) = some q)
    (hl' : (l' : Multiset Nat) = ∑ j ∈ Finset.range i, kids s n p j + l)
    (hfl2 : FreeList L u l2) (hl2 : (l2 : Multiset Nat) = sv39.tables s.word n q + l')
    (hout : ∀ a, a ∉ sv39.tables s.word n q → u.page a = t.page a) :
    Freeing L s (u.setWord p i 0) n p l (i + 1) := by
  have hnd' := (nodup_add.mp hnd).1
  have hsum : ∑ j ∈ Finset.range (i + 1), kids s n p j =
      ∑ j ∈ Finset.range i, kids s n p j + sv39.tables s.word n q := by
    rw [Finset.sum_range_succ, kids_some hc]
  have hpq := Radix.not_mem_child hnd' hi hc
  have hl : (l2 : Multiset Nat) = ∑ j ∈ Finset.range (i + 1), kids s n p j + l := by
    rw [hl2, hl', hsum, ← Multiset.add_assoc, Multiset.add_comm (sv39.tables s.word n q)]
  -- the table being freed is not on the list yet
  have hp : p ∉ (l2 : Multiset Nat) := by
    rw [tables_eq, cons_add, nodup_cons] at hnd
    rw [hl]
    exact fun hmem => hnd.1 (mem_of_le (Multiset.add_le_add_right (sum_kids_le hi)) hmem)
  refine ⟨⟨l2, hfl2.congr rfl ?_, hl⟩, ?_, ?_⟩
  · intro a ha
    apply Phys.setWord_page_ne
    rintro rfl
    exact hp ha
  · intro a hap ha
    rw [hsum, mem_add, not_or] at ha
    rw [Phys.setWord_page_ne hap, hout a ha.2, h.out a hap ha.1]
  · intro j hj
    rw [Phys.word_setWord_ne (by omega), Phys.word_congr (hout p hpq), h.left j (by omega)]

end Freeing

theorem freewalk_wp (hfl : FreeList L s l) (hnd : (sv39.tables s.word n p + l).Nodup)
    (hram : ∀ a ∈ sv39.tables s.word n p, L.isPage a) (hin : sv39.Inner s.word isPointer n p)
    (he : sv39.Empty s.word n p) (hQ : ∀ t (l' : List Nat), FreeList L t l' →
      (l' : Multiset Nat) = sv39.tables s.word n p + l →
      (∀ a, a ∉ sv39.tables s.word n p → t.page a = s.page a) → Q () t) :
    Wp E (freewalk L (n + 1) p) Q s := by
  induction n generalizing s p l Q with
  | zero =>
    have hp : L.isPage p := hram p (Radix.mem_tables_self 0 p)
    rw [freewalk]
    refine Wp.bind ((Wp.forRange (I := fun _ t => t = s) rfl ?_).post ?_)
    · rintro i _ _ hi rfl
      have hleaf := he i (by rw [sv39_fan]; omega)
      unfold freeEntry
      rw [Wp.bind_iff, getPte_wp]
      refine Wp.ite_iff.mpr ⟨fun hv => ?_, fun _ => Wp.ite_iff.mpr ⟨fun hv => ?_, fun _ => rfl⟩⟩
      · rw [sv39_leaf_some hv.1] at hleaf
        cases hleaf
      · rw [sv39_leaf_some hv] at hleaf
        cases hleaf
    · rintro _ _ rfl
      refine kfree_wp hp (hQ _ (p :: l) (hfl.freed hp ?_) rfl ?_)
      · rw [Radix.tables, singleton_add, nodup_cons] at hnd
        exact hnd.1
      · intro a ha
        exact Phys.freed_page_ne fun hap => ha (mem_singleton.mpr hap)
  | succ n ih =>
    have hp : L.isPage p := hram p (Radix.mem_tables_self _ p)
    have hnd' := (nodup_add.mp hnd).1
    rw [freewalk]
    refine Wp.bind ((Wp.forRange (I := fun i t => Freeing L s t n p l i) ?_ ?_).post ?_)
    · exact ⟨⟨l, hfl, (Multiset.zero_add _).symm⟩, fun _ _ _ => rfl, fun _ _ => rfl⟩
    · intro i t _ hi hf
      rw [Nat.zero_add] at hi
      rw [← sv39_fan] at hi
      unfold freeEntry
      rw [Wp.bind_iff, getPte_wp, hf.left i (Nat.le_refl i)]
      refine Wp.ite_iff.mpr ⟨fun hv => ?_, fun hv => Wp.ite_iff.mpr ⟨fun hv' => ?_, fun hv' => ?_⟩⟩
      · have hc := sv39_child_some hv.1
        have hword : ∀ a ∈ sv39.tables s.word n (PTE2PA (s.word p i)), t.word a = s.word a :=
          fun a ha => Phys.word_congr (hf.same hnd hi hc a ha)
        have htab := Radix.tables_congr hword
        obtain ⟨l', hfl', hl'⟩ := hf.free
        rw [Wp.bind_iff]
        refine ih hfl' ?_ ?_ (Radix.inner_congr hword (hin i hi _ hc).2)
          (Radix.empty_congr hword (he i hi _ hc)) ?_
        · have hle : sv39.tables s.word n (PTE2PA (s.word p i)) +
              (∑ j ∈ Finset.range i, kids s n p j + l) ≤ sv39.tables s.word (n + 1) p + l := by
            rw [← Multiset.add_assoc, ← kids_some hc, Multiset.add_comm (kids s n p i),
              ← Finset.sum_range_succ, tables_eq]
            exact Multiset.add_le_add_right ((sum_kids_le hi).trans (le_cons_self _ _))
          rw [htab, hl']
          exact nodup_of_le hle hnd
        · rw [htab]
          intro a ha
          exact hram a (mem_of_le (Radix.tables_child_le hi hc) ha)
        · intro u l2 hfl2 hl2 hout
          rw [htab] at hl2 hout
          exact hf.next hnd hi hc hl' hfl2 hl2 hout
      · have hc := sv39_child_some hv'
        exact absurd ⟨hv', (hin i hi _ hc).1⟩ hv
      · exact hf.skip (sv39_child_none (not_not.mp hv'))
    · intro _ t hf
      rw [Nat.zero_add, ← sv39_fan] at hf
      obtain ⟨l', hfl', hl'⟩ := hf.free
      have htab := tables_eq s n p
      rw [htab, cons_add, nodup_cons] at hnd
      refine kfree_wp hp (hQ _ (p :: l') (hfl'.freed hp ?_) ?_ ?_)
      · intro hmem
        refine hnd.1 ?_
        rw [← hl']
        exact hmem
      · rw [← cons_coe, hl', htab, cons_add]
      · intro a ha
        rw [htab, mem_cons, not_or] at ha
        rw [Phys.freed_page_ne ha.1, hf.out a ha.1 ha.2]

end Vm

end Xv6.Kernel
