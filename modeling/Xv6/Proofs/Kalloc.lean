import Xv6.Kernel.Kalloc
import Xv6.Lib.Chain
import Xv6.Lib.Runs
import Mathlib.Data.Multiset.AddSub
/-!
# The page allocator

The free list as a list of pages, and what `kalloc` and `kfree` do to it.
-/

namespace Xv6.Kernel

open Xv6.Lib

variable {s : Phys} {pa : Nat} {L : Link} {l : List Nat}

theorem PGSIZE_eq : PGSIZE = 4096 := rfl

theorem MAXVA_eq : MAXVA = 274877906944 := rfl

theorem PHYSTOP_eq : PHYSTOP = 2281701376 := rfl

/-- The pages `kinit` frees. -/
def Link.isPage (L : Link) (pa : Nat) : Prop :=
  pa % PGSIZE = 0 ∧ L.endAddr ≤ pa ∧ pa < PHYSTOP

theorem Link.isPage.lt (h : L.isPage pa) : pa < 2 ^ 64 := by
  have hlt := h.2.2
  rw [PHYSTOP_eq] at hlt
  omega

theorem Link.isPage.ne_zero (h : L.isPage pa) : pa ≠ 0 := by
  have hbase := L.base
  have htext := L.text
  have hge := h.2.1
  unfold KERNBASE at hbase
  omega

namespace Phys

variable {a i j : Nat} {b : Bytes PGSIZE} {w : UInt64}

@[simp] theorem setPage_self (b : Bytes PGSIZE) : (s.setPage pa b).page pa = b :=
  Function.update_self ..

theorem setPage_ne (h : a ≠ pa) : (s.setPage pa b).page a = s.page a :=
  Function.update_of_ne h ..

@[simp] theorem setPage_freelist (b : Bytes PGSIZE) : (s.setPage pa b).freelist = s.freelist := rfl

theorem setWord_page_ne (h : a ≠ pa) : (s.setWord pa i w).page a = s.page a :=
  setPage_ne h

theorem word_setWord (w : UInt64) (hi : i < 512) : (s.setWord pa i w).word pa i = w := by
  unfold word setWord
  rw [setPage_self, Bytes.u64_setU64]
  rw [PGSIZE_eq]
  omega

theorem word_setWord_ne (h : j ≠ i) : (s.setWord pa i w).word pa j = s.word pa j := by
  unfold word setWord
  rw [setPage_self, Bytes.u64_setU64_ne]
  omega

theorem word_congr {t : Phys} (h : t.page a = s.page a) : t.word a = s.word a := by
  unfold word
  rw [h]

def freed (s : Phys) (pa : Nat) : Phys :=
  { (s.setPage pa (Bytes.const 1)).setWord pa 0 (UInt64.ofNat s.freelist) with freelist := pa }

theorem freed_page_ne (h : a ≠ pa) : (s.freed pa).page a = s.page a := by
  have hword : (s.freed pa).page a = (s.setPage pa (Bytes.const 1)).page a := setWord_page_ne h
  rw [hword, setPage_ne h]

theorem next_freed : (s.freed pa).next pa = s.freelist % 2 ^ 64 := by
  have h : ((s.freed pa).page pa).u64 0 = UInt64.ofNat s.freelist :=
    word_setWord (s := s.setPage pa (Bytes.const 1)) _ (by decide)
  unfold next
  rw [h, UInt64.toNat_ofNat']

end Phys

structure FreeList (L : Link) (s : Phys) (l : List Nat) : Prop where
  chain : Chain s.next s.freelist l
  nodup : l.Nodup
  ram : ∀ pa ∈ l, L.isPage pa

namespace FreeList

variable {t : Phys} {l' : List Nat}

section

variable (h : FreeList L s l)
include h

theorem congr (hhead : t.freelist = s.freelist)
    (hpage : ∀ a ∈ l, t.page a = s.page a) : FreeList L t l where
  chain := by
    rw [hhead]
    refine h.chain.congr fun a ha => ?_
    unfold Phys.next
    rw [hpage a ha]
  nodup := h.nodup
  ram := h.ram

theorem unique (h' : FreeList L s l') : l = l' := h.chain.unique h'.chain

theorem head_lt : s.freelist < 2 ^ 64 := by
  cases l with
  | nil =>
    have hz : s.freelist = 0 := h.chain
    omega
  | cons a l =>
    rw [h.chain.1]
    exact (h.ram a List.mem_cons_self).lt

theorem freed (hpa : L.isPage pa) (hnew : pa ∉ l) : FreeList L (s.freed pa) (pa :: l) where
  chain := by
    change Chain _ pa (pa :: l)
    refine h.chain.push hpa.ne_zero ?_ ?_
    · intro b hb
      unfold Phys.next
      rw [Phys.freed_page_ne]
      rintro rfl
      exact hnew hb
    · rw [Phys.next_freed, Nat.mod_eq_of_lt h.head_lt]
  nodup := List.nodup_cons.mpr ⟨hnew, h.nodup⟩
  ram := by
    intro a ha
    rcases List.mem_cons.mp ha with rfl | ha
    · exact hpa
    · exact h.ram a ha

end

theorem taken (h : FreeList L s (pa :: l)) (b : Bytes PGSIZE) (deny : List Bool) :
    FreeList L ({ s with deny := deny, freelist := s.next s.freelist }.setPage pa b) l where
  chain := by
    obtain ⟨hhead, _, htail⟩ := h.chain
    have hnext : s.next s.freelist = s.next pa := by rw [hhead]
    rw [Phys.setPage_freelist]
    change Chain _ (s.next s.freelist) l
    rw [hnext]
    refine htail.congr fun a ha => ?_
    unfold Phys.next
    rw [Phys.setPage_ne]
    rintro rfl
    exact (List.nodup_cons.mp h.nodup).1 ha
  nodup := (List.nodup_cons.mp h.nodup).2
  ram := fun a ha => h.ram a (List.mem_cons_of_mem pa ha)

end FreeList

section Spec

variable {E : VmPanic → Prop} {Q : Unit → Phys → Prop}

theorem kfree_wp (hpa : L.isPage pa) (hQ : Q () (s.freed pa)) : Wp E (kfree L pa) Q s := by
  have hok : ¬(pa % PGSIZE ≠ 0 ∨ pa < L.endAddr ∨ PHYSTOP ≤ pa) := by
    have h1 := hpa.1
    have h2 := hpa.2.1
    have h3 := hpa.2.2
    omega
  unfold kfree
  rw [if_neg hok]
  exact hQ

theorem kfree_wp_any (hE : ¬L.isPage pa → E .kfree)
    (hQ : L.isPage pa → Q () (s.freed pa)) : Wp E (kfree L pa) Q s := by
  by_cases hpa : L.isPage pa
  · exact kfree_wp hpa (hQ hpa)
  have hbad : pa % PGSIZE ≠ 0 ∨ pa < L.endAddr ∨ PHYSTOP ≤ pa := by
    unfold Link.isPage at hpa
    omega
  unfold kfree
  rw [if_pos hbad]
  exact hE hpa

theorem kalloc_wp {Q : Nat → Phys → Prop} (h : FreeList L s l)
    (hnone : ∀ t, t.page = s.page → FreeList L t l → Q 0 t)
    (hsome : ∀ pa l' t, l = pa :: l' → L.isPage pa → FreeList L t l' →
      (∀ a, a ≠ pa → t.page a = s.page a) → Q pa t) : Wp E kalloc Q s := by
  unfold kalloc
  rw [Wp.bind_iff, Wp.get_iff, Wp.bind_iff, Wp.modify_iff]
  refine Wp.ite_iff.mpr ⟨fun _ => ?_, fun hok => ?_⟩
  · exact hnone _ rfl (h.congr rfl fun _ _ => rfl)
  cases l with
  | nil => exact absurd (.inl h.chain) hok
  | cons pa l =>
    have hhead : s.freelist = pa := h.chain.1
    rw [Wp.bind_iff, Wp.modify_iff, Wp.bind_iff]
    unfold memset
    rw [Wp.modify_iff, Wp.pure_iff, hhead]
    refine hsome pa l _ rfl (h.ram pa List.mem_cons_self) ?_ ?_
    · have ht := h.taken (Bytes.const 5) s.deny.tail
      rw [hhead] at ht
      exact ht
    · intro a ha
      exact Phys.setPage_ne ha

theorem kfree_eq (hpa : L.isPage pa) : kfree L pa s = .ok ((), s.freed pa) := by
  obtain ⟨_, _, hrun, rfl⟩ :=
    (kfree_wp (E := fun _ => False) (Q := fun _ t => t = s.freed pa) hpa rfl).returns
  exact hrun

theorem FreeList.eq_nil (h : FreeList L s l) (hz : s.freelist = 0) : l = [] := by
  cases l with
  | nil => rfl
  | cons pa l => exact absurd (h.chain.1.symm.trans hz) (h.ram pa List.mem_cons_self).ne_zero

theorem kinit_wp (L : Link) (hz : s.freelist = 0) : Wp (fun _ => False) (kinit L)
    (fun _ t => ∃ l, FreeList L t l ∧ ∀ pa, pa ∈ l ↔ L.isPage pa) s := by
  have hbase : PGROUNDUP L.endAddr = (L.endAddr + 4095) / 4096 * 4096 := by
    have hram := L.ram
    have hlt : L.endAddr + 4095 < 2 ^ 64 := by
      rw [PHYSTOP_eq] at hram
      omega
    unfold PGROUNDUP PGROUNDDOWN add64
    rw [PGSIZE_eq, Nat.mod_eq_of_lt hlt]
  unfold kinit
  refine Wp.post (Wp.forRange (I := fun i t => FreeList L t
    (((List.range i).map (PGROUNDUP L.endAddr + · * PGSIZE)).reverse))
    ⟨hz, List.nodup_nil, by simp⟩ ?_) ?_
  rotate_left
  · intro _ t ht
    refine ⟨_, ht, fun pa => ?_⟩
    simp only [List.mem_reverse, List.mem_map, List.mem_range, Link.isPage, hbase, PHYSTOP_eq,
      PGSIZE_eq]
    constructor
    · rintro ⟨i, hi, rfl⟩
      omega
    · rintro ⟨hal, hend, htop⟩
      exact ⟨(pa - (L.endAddr + 4095) / 4096 * 4096) / 4096, by omega, by omega⟩
  intro i t _ hi ht
  have hpage : L.isPage (PGROUNDUP L.endAddr + i * PGSIZE) := by
    unfold Link.isPage
    rw [hbase, PHYSTOP_eq, PGSIZE_eq] at *
    omega
  refine kfree_wp hpage ?_
  rw [List.range_succ, List.map_append, List.reverse_append]
  refine ht.freed hpage fun hmem => ?_
  obtain ⟨j, hj, heq⟩ := List.mem_map.mp (List.mem_reverse.mp hmem)
  have hlt := List.mem_range.mp hj
  rw [PGSIZE_eq] at heq
  omega

end Spec

/-! ## From `kinit` on -/

inductive AllocCall where
  | kalloc
  | kfree (pa : Nat)

/-- A call, with the pages that callers of `kalloc` have; they free no others. -/
def allocStep (L : Link) (x : Phys × List Nat) : AllocCall → Option (Phys × List Nat)
  | .kalloc => (kalloc x.1).toOption.map fun r => (r.2, if r.1 = 0 then x.2 else r.1 :: x.2)
  | .kfree pa =>
    if pa ∈ x.2 then (kfree L pa x.1).toOption.map fun r => (r.2, x.2.erase pa) else none

/-- Each page is free or with one caller. -/
structure Allotted (L : Link) (x : Phys × List Nat) (l : List Nat) : Prop where
  free : FreeList L x.1 l
  nodup : (x.2 ++ l).Nodup
  pages : ∀ pa, pa ∈ x.2 ++ l ↔ L.isPage pa

namespace Allotted

variable {x y : Phys × List Nat}

theorem kalloc (h : Allotted L x l) : ∃ pa t l', Kernel.kalloc x.1 = .ok (pa, t) ∧
    (pa = 0 ∧ l' = l ∧ (x.1.deny.headD false = false → l = []) ∨ pa ≠ 0 ∧ l = pa :: l') ∧
    FreeList L t l' := by
  have hrun : ∃ pa t, Kernel.kalloc x.1 = .ok (pa, t) ∧ (pa = 0 → x.1.deny.headD false = false →
      x.1.freelist = 0) := by
    unfold Kernel.kalloc
    simp only [bind, Prog.andThen, Prog.get, Prog.modify]
    split
    · rename_i hz
      refine ⟨0, _, rfl, fun _ hd => hz.resolve_right (by rw [hd]; decide)⟩
    · rename_i hz
      exact ⟨_, _, rfl, fun h0 _ => h0⟩
  obtain ⟨pa, t, hrun, hwhy⟩ := hrun
  have hw : Wp (fun _ => True) Kernel.kalloc (fun r u => r = 0 ∧ FreeList L u l ∨
      ∃ l', r ≠ 0 ∧ l = r :: l' ∧ FreeList L u l') x.1 :=
    kalloc_wp h.free (fun t _ ht => .inl ⟨rfl, ht⟩)
      fun pa l' t hl hpa ht _ => .inr ⟨l', hpa.ne_zero, hl, ht⟩
  rcases hw.of_ok hrun with ⟨rfl, ht⟩ | ⟨l', hne, rfl, ht⟩
  · refine ⟨0, t, l, hrun, .inl ⟨rfl, rfl, fun hd => ?_⟩, ht⟩
    exact h.free.eq_nil (hwhy rfl hd)
  · exact ⟨pa, t, l', hrun, .inr ⟨hne, rfl⟩, ht⟩

theorem step {a : AllocCall} (h : Allotted L x l) (hstep : allocStep L x a = some y) :
    ∃ l', Allotted L y l' := by
  cases a with
  | kalloc =>
    obtain ⟨pa, t, l', hrun, hpa, hfl⟩ := h.kalloc
    simp only [allocStep, hrun] at hstep
    rcases hpa with ⟨rfl, rfl, _⟩ | ⟨hne, rfl⟩
    · cases hstep
      exact ⟨l', hfl, h.nodup, h.pages⟩
    · cases hstep
      dsimp only
      rw [if_neg hne]
      have hperm : (pa :: x.2 ++ l').Perm (x.2 ++ pa :: l') := List.perm_middle.symm
      exact ⟨l', hfl, hperm.nodup_iff.mpr h.nodup, fun a => hperm.mem_iff.trans (h.pages a)⟩
  | kfree pa =>
    obtain ⟨hpa, hstep⟩ := Option.ite_none_right_eq_some.mp hstep
    have hpage := (h.pages pa).mp (List.mem_append_left l hpa)
    rw [kfree_eq hpage] at hstep
    cases hstep
    have hperm : (x.2.erase pa ++ pa :: l).Perm (x.2 ++ l) :=
      List.perm_middle.trans ((List.perm_cons_erase hpa).symm.append_right l)
    have hnew : pa ∉ l := fun hl => (List.nodup_append.mp h.nodup).2.2 pa hpa pa hl rfl
    exact ⟨pa :: l, h.free.freed hpage hnew, hperm.nodup_iff.mpr h.nodup,
      fun a => hperm.mem_iff.trans (h.pages a)⟩

end Allotted

/-- `kinit` makes a free list of all pages, from any contents of memory.  After any calls of
`kalloc` and `kfree` each page is free or with one caller, `kalloc` fails only if no page is
free or it is made to fail, and callers can free what they have. -/
theorem kinit_kalloc_kfree (L : Link) (page : Nat → Bytes PGSIZE) (deny : List Bool) :
    ∃ t, kinit L ⟨page, 0, deny⟩ = .ok ((), t) ∧
      ∀ x, Reaches (allocStep L) (fun _ _ => True) (t, []) x → ∃ l, Allotted L x l ∧
        (∃ pa u, kalloc x.1 = .ok (pa, u) ∧
          (pa = 0 ∧ (x.1.deny.headD false = false → l = []) ∨ pa ∈ l)) ∧
        ∀ pa ∈ x.2, ∃ u, kfree L pa x.1 = .ok ((), u) := by
  obtain ⟨_, t, hrun, l, hfl, hl⟩ := (kinit_wp L (s := ⟨page, 0, deny⟩) rfl).returns
  refine ⟨t, hrun, fun x hx => ?_⟩
  obtain ⟨l', h⟩ : ∃ l', Allotted L x l' :=
    hx.invariant (I := fun y => ∃ l', Allotted L y l') ⟨l, hfl, hfl.nodup, hl⟩
      fun _ _ _ ⟨_, hu⟩ _ hstep => hu.step hstep
  refine ⟨l', h, ?_, fun pa hpa => ?_⟩
  · obtain ⟨pa, u, _, hk, hpa, _⟩ := h.kalloc
    refine ⟨pa, u, hk, hpa.imp (fun hz => ⟨hz.1, hz.2.2⟩) ?_⟩
    rintro ⟨_, rfl⟩
    exact List.mem_cons_self
  · have hpage := (h.pages pa).mp (List.mem_append_left l' hpa)
    exact ⟨_, kfree_eq hpage⟩

end Xv6.Kernel
