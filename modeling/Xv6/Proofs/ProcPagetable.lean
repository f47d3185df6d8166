import Xv6.Kernel.Exec
import Xv6.Proofs.Uvm
/-!
# The page table of a process

`proc_pagetable` and `proc_freepagetable`: the trampoline and the trapframe are
mapped above user memory and belong to nobody in the account.
-/

namespace Xv6.Kernel

open Xv6.Lib Function

def procTop (L : Link) (tf : Nat) : Vmap :=
  update
    (update (fun _ => none) (TRAMPOLINE / PGSIZE) (some (L.trampoline, PTE_R ||| PTE_X ||| PTE_V)))
    (TRAPFRAME / PGSIZE) (some (tf, PTE_R ||| PTE_W ||| PTE_V))

theorem procTop_low (L : Link) (tf : Nat) : Low (procTop L tf) := by
  intro k hk
  have htramp : TRAPFRAME / PGSIZE < TRAMPOLINE / PGSIZE := by decide
  unfold procTop
  rw [update_of_ne (by omega), update_of_ne (by omega)]

theorem TRAMPOLINE_eq : TRAMPOLINE = TRAMPOLINE / PGSIZE * PGSIZE := by decide

theorem TRAPFRAME_eq : TRAPFRAME = TRAPFRAME / PGSIZE * PGSIZE := by decide

namespace Vm

variable {E : VmPanic → Prop} {L : Link} {top : Vmap} {R : Multiset Nat} {s : Phys}
  {pt n k sz tf : Nat} {T : Multiset Nat} {m : Vmap} {l : List Nat} {Q : Unit → Phys → Prop}
  {e : Option (Nat × UInt64)}

theorem pages_update (hk : n ≤ k) : Vmap.pages (update m k e) 0 n = m.pages 0 n :=
  Vmap.pages_congr fun i hi => update_of_ne (by omega) ..

section

variable (h : Account L top R s pt T m n l) {pa : Nat} {f : UInt64}
include h

theorem Account_nodup_table : (T + l).Nodup :=
  Multiset.nodup_of_le (Multiset.add_le_add_right (Multiset.le_add_right _ _)) h.nodup_all

theorem mapTop_wp {perm : UInt64} (hn : n ≤ k)
    (hk : k < MAXVA / PGSIZE) (hnone : top k = none) (hperm : perm.toNat < 1024)
    (hpa : PGROUNDDOWN (pa % 2 ^ 64) = pa) {Q : Bool → Phys → Prop}
    (hfail : ∀ t T' l', Account L top R t pt T' m n l' → Within R s t → Q false t)
    (hok : ∀ t T' l', Account L (update top k (some (pa, perm ||| PTE_V))) R t pt T'
        (update m k (some (pa, perm ||| PTE_V))) n l' → Within R s t → Q true t) :
    Wp E (mappages pt (k * PGSIZE) PGSIZE pa perm) Q s := by
  have hwithin : ∀ t : Phys, (∀ a, a ∉ T → a ∉ l → t.page a = s.page a) → Within R s t := by
    intro t hout a ha
    exact hout a (fun hT => ha ((h.mem_iff a).mpr (.inl hT)))
      fun hl => ha ((h.mem_iff a).mpr (.inr (.inr hl)))
  have hram : ∀ (N : Multiset Nat) (l' : List Nat), (l : Multiset Nat) = N + l' →
      ∀ a ∈ N + T, L.isPage a := by
    intro N l' hl a ha
    rcases Multiset.mem_add.mp ha with hN | hT
    · have hin : a ∈ (l : Multiset Nat) := by
        rw [hl, Multiset.mem_add]
        exact .inl hN
      exact h.free.ram a hin
    · exact h.space.ram a hT
  refine mapOne_wp h.space.table h.free (Account_nodup_table h) hk ?_ hperm ?_ ?_
  · rw [h.space.rest k hn (vpn_lt hk), hnone]
  · intro t N l' hfl hl ht hout
    refine hfail t (N + T) l' ⟨⟨ht, hram N l' hl, h.space.user, h.space.rest⟩, hfl, ?_, h.nodup⟩
      (hwithin t hout)
    rw [← h.total, hl]
    ac_rfl
  intro t N l' hfl hl ht hout
  rw [hpa] at ht
  refine hok t (N + T) l' ⟨⟨ht, hram N l' hl, ?_, ?_⟩, hfl, ?_, h.nodup⟩ (hwithin t hout)
  · intro i hi
    rw [update_of_ne (by omega)]
    exact h.space.user i hi
  · intro i hi hi'
    by_cases hik : i = k
    · rw [hik, update_self, update_self]
    · rw [update_of_ne hik, update_of_ne hik]
      exact h.space.rest i hi hi'
  · rw [pages_update hn, ← h.total, hl]
    ac_rfl

theorem unmapTop_wp (hn : n ≤ k)
    (hk : k < MAXVA / PGSIZE) (hsome : top k = some (pa, f)) (hf : f ≠ PTE_V)
    (hQ : ∀ t l', Account L (update top k none) R t pt T (update m k none) n l' →
      Within R s t → Q () t) : Wp E (uvmunmap L pt (k * PGSIZE) 1 false) Q s := by
  have hm : m k = some (pa, f) := by rw [h.space.rest k hn (vpn_lt hk), hsome]
  have hvpn : k * PGSIZE / PGSIZE = k := Nat.mul_div_cancel k (by decide)
  have hnd := Account_nodup_table h
  refine uvmunmap_wp h.space.table (Multiset.nodup_add.mp hnd).1 (by rw [Nat.mul_mod_left]) ?_
    (fun hfree => absurd hfree (by decide)) ?_ ?_
  · rw [MAXVA_eq, PGSIZE_eq] at *
    omega
  · intro i hi hbad
    refine absurd ?_ hbad
    rw [hvpn, Nat.lt_one_iff.mp hi, Nat.add_zero]
    exact ⟨pa, f, hm, hf, fun hfree => absurd hfree (by decide)⟩
  rw [hvpn]
  intro t hu
  have herase : m.erase k 1 = update m k none := by
    rw [← Vmap.erase_succ, Vmap.erase_zero, Nat.add_zero]
  have ht := hu.table
  rw [herase] at ht
  obtain ⟨l', hfl, hl⟩ := hu.free l h.free hnd fun hfree => absurd hfree (by decide)
  rw [if_neg (by decide), Multiset.zero_add] at hl
  -- the free list is a list of the same pages
  refine hQ t l' ⟨⟨ht, h.space.ram, ?_, ?_⟩, hfl, ?_, h.nodup⟩ ?_
  · intro i hi
    rw [update_of_ne (by omega)]
    exact h.space.user i hi
  · intro i hi hi'
    by_cases hik : i = k
    · rw [hik, update_self, update_self]
    · rw [update_of_ne hik, update_of_ne hik]
      exact h.space.rest i hi hi'
  · rw [pages_update hn, hl, h.total]
  · intro a ha
    exact hu.out a (fun hT => ha ((h.mem_iff a).mpr (.inl hT))) fun hfree =>
      absurd hfree (by decide)

end

theorem uvmfree_wp (h : Account L top R s pt T m (npages sz) l)
    (hnone : ∀ k, top k = none) (hsz : sz + PGSIZE ≤ 2 ^ 64)
    (hQ : ∀ t (l' : List Nat), FreeList L t l' → (l' : Multiset Nat) = R → Within R s t → Q () t) :
    Wp E (uvmfree L pt sz) Q s := by
  have hlow : Low top := fun k _ => hnone k
  -- without user pages only the tables are left
  have hwalk : ∀ t m' l', Account L top R t pt T m' 0 l' → Within R s t →
      Wp E (freewalk L 3 pt) Q t := by
    intro t m' l' ht hw
    have htab := ht.space.table.tables
    have htotal : T + l' = R := by
      have htot := ht.total
      rwa [Vmap.pages_zero, Multiset.add_zero] at htot
    have hempty : sv39.Empty t.word 2 pt := by
      apply Radix.empty_of_lookup
      intro k hk
      rw [sv39_fan] at hk
      rw [ht.space.table.lookup k hk, ht.space.rest k (Nat.zero_le k) hk, hnone]
    refine freewalk_wp ht.free ?_ ?_ ht.space.table.inner hempty ?_
    · rw [htab]
      exact Account_nodup_table ht
    · rw [htab]
      exact ht.space.ram
    rw [htab]
    intro u l'' hfl hl hout
    refine hQ u l'' hfl (hl.trans htotal) (hw.trans fun a ha => hout a fun hT => ha ?_)
    rw [← htotal]
    exact Multiset.mem_add.mpr (.inl hT)
  unfold uvmfree
  refine Wp.ite_iff.mpr ⟨fun _ => ?_, fun hz => ?_⟩
  · have hcount : PGROUNDUP sz / PGSIZE = npages sz - 0 := by
      rw [PGROUNDUP_eq hsz, Nat.mul_div_cancel _ (by decide), Nat.sub_zero]
    have hbase : (0 : Nat) = 0 * PGSIZE := (Nat.zero_mul _).symm
    rw [hcount, Wp.bind_iff, hbase]
    refine shrink_wp h hlow (Nat.zero_le _) fun t l' ht _ hw => ?_
    exact hwalk t _ l' ht hw
  · have hsz0 : npages sz = 0 := by
      unfold npages
      rw [Nat.eq_zero_of_not_pos hz]
      rfl
    rw [hsz0] at h
    exact hwalk s m l h (Within.refl R s)

theorem procFreepagetable_wp
    (h : Account L (procTop L tf) R s pt T m (npages sz) l) (hsz : sz + PGSIZE ≤ 2 ^ 64)
    (hQ : ∀ t (l' : List Nat), FreeList L t l' → (l' : Multiset Nat) = R → Within R s t → Q () t) :
    Wp E (procFreepagetable L pt sz) Q s := by
  have hn := h.bound
  have htf : TRAPFRAME / PGSIZE = 67108862 := by decide
  have htr : TRAMPOLINE / PGSIZE = 67108863 := by decide
  have hmax : MAXVA / PGSIZE = 67108864 := by decide
  unfold procFreepagetable
  have htramp : procTop L tf (TRAMPOLINE / PGSIZE) =
      some (L.trampoline, PTE_R ||| PTE_X ||| PTE_V) := by
    unfold procTop
    rw [update_of_ne (by omega), update_self]
  have hframe : update (procTop L tf) (TRAMPOLINE / PGSIZE) none (TRAPFRAME / PGSIZE) =
      some (tf, PTE_R ||| PTE_W ||| PTE_V) := by
    rw [update_of_ne (by omega)]
    exact update_self ..
  rw [Wp.bind_iff, TRAMPOLINE_eq]
  refine unmapTop_wp h (by omega) (by omega) htramp (by decide) ?_
  intro t l' ht hw
  rw [Wp.bind_iff, TRAPFRAME_eq]
  refine unmapTop_wp ht (by omega) (by omega) hframe (by decide) ?_
  intro u l'' hu hw'
  refine uvmfree_wp hu ?_ hsz fun v l3 hfl hl hw'' => hQ v l3 hfl hl ((hw.trans hw').trans hw'')
  intro k
  by_cases hk : k = TRAPFRAME / PGSIZE
  · rw [hk, update_self]
  rw [update_of_ne hk]
  by_cases hk' : k = TRAMPOLINE / PGSIZE
  · rw [hk', update_self]
  · unfold procTop
    rw [update_of_ne hk', update_of_ne hk, update_of_ne hk']

theorem uvmcreate_wp (hfl : FreeList L s l) {Q : Nat → Phys → Prop}
    (hfail : ∀ t, t.page = s.page → FreeList L t l → Q 0 t)
    (hok : ∀ pt t T l', pt ≠ 0 → Account L (fun _ => none) l t pt T (fun _ => none) 0 l' →
      Within l s t → Q pt t) : Wp E uvmcreate Q s := by
  unfold uvmcreate
  refine Wp.bind (kalloc_wp hfl ?_ ?_)
  · intro t ht hfl'
    rw [if_pos rfl, Wp.pure_iff]
    exact hfail t ht hfl'
  intro pa l' t hl hpa hfl' hout
  rw [if_neg hpa.ne_zero, Wp.bind_iff, memset_wp, Wp.pure_iff]
  have hnd := hfl.nodup
  rw [hl, List.nodup_cons] at hnd
  have hword : ∀ j, (t.setPage pa (Bytes.const 0)).word pa j = 0 := by
    intro j
    unfold Phys.word
    rw [Phys.setPage_self]
    exact Bytes.u64_zero (8 * j)
  have hchild : ∀ j, sv39.child ((t.setPage pa (Bytes.const 0)).word pa j) = none := by
    intro j
    rw [hword]
    exact sv39_child_none rfl
  have hleaf : ∀ j, sv39.leaf ((t.setPage pa (Bytes.const 0)).word pa j) = none := by
    intro j
    rw [hword]
    exact sv39_leaf_none rfl
  refine hok pa _ {pa} l' hpa.ne_zero ⟨⟨⟨?_, ?_, ?_⟩, ?_, ?_, fun _ _ _ => rfl⟩, ?_, ?_, ?_⟩ ?_
  · exact Radix.tables_blank hchild
  · exact fun k _ => Radix.lookup_blank hchild hleaf k
  · exact Radix.inner_blank hchild
  · intro a ha
    rw [Multiset.mem_singleton.mp ha]
    exact hpa
  · intro k hk
    exact absurd hk (Nat.not_lt_zero k)
  · refine hfl'.congr rfl fun a ha => Phys.setPage_ne ?_
    rintro rfl
    exact hnd.1 ha
  · rw [hl, Vmap.pages_zero, Multiset.add_zero, Multiset.singleton_add]
    rfl
  · exact hfl.nodup
  intro a ha
  have hne : a ≠ pa := by
    rintro rfl
    refine ha ?_
    rw [hl]
    exact List.mem_cons_self
  rw [Phys.setPage_ne hne, hout a hne]

theorem procPagetable_wp (hfl : FreeList L s l)
    (htf : PGROUNDDOWN (tf % 2 ^ 64) = tf) {Q : Nat → Phys → Prop}
    (hfail : ∀ t (l' : List Nat), FreeList L t l' → (l' : Multiset Nat) = l → Within l s t → Q 0 t)
    (hok : ∀ pt t T m l', pt ≠ 0 → Account L (procTop L tf) l t pt T m 0 l' → Within l s t →
      Q pt t) : Wp E (procPagetable L tf) Q s := by
  have htfk : TRAPFRAME / PGSIZE = 67108862 := by decide
  have htrk : TRAMPOLINE / PGSIZE = 67108863 := by decide
  have hmax : MAXVA / PGSIZE = 67108864 := by decide
  have htramp : PGROUNDDOWN (L.trampoline % 2 ^ 64) = L.trampoline := by
    have hal := L.aligned
    have htext := L.text
    have hram := L.ram
    rw [PHYSTOP_eq] at hram
    unfold PGROUNDDOWN
    rw [PGSIZE_eq] at *
    omega
  have hzero : npages 0 = 0 := by decide
  unfold procPagetable
  refine Wp.bind (uvmcreate_wp hfl ?_ ?_)
  · intro t ht hfl'
    rw [if_pos rfl, Wp.pure_iff]
    exact hfail t l hfl' rfl fun a _ => congrFun ht a
  intro pt t T l' hpt ht hw
  rw [if_neg hpt, Wp.bind_iff, TRAMPOLINE_eq]
  refine mapTop_wp ht (Nat.zero_le _) (by omega) rfl (by decide) htramp ?_ ?_
  · intro u T' l'' hu hw'
    rw [if_pos rfl, Wp.bind_iff]
    rw [← hzero] at hu
    refine uvmfree_wp hu (fun _ => rfl) (by decide) fun v l3 hfl3 hl3 hw'' => ?_
    rw [Wp.pure_iff]
    exact hfail v l3 hfl3 hl3 ((hw.trans hw').trans hw'')
  intro u T' l'' hu hw'
  rw [if_neg (by decide), Wp.bind_iff, TRAPFRAME_eq]
  refine mapTop_wp hu (Nat.zero_le _) (by omega) ?_ (by decide) htf ?_ ?_
  · rw [update_of_ne (by omega)]
  · intro v T'' l3 hv hw''
    rw [if_pos rfl]
    refine Wp.bind (unmapTop_wp hv (Nat.zero_le _) (by omega) (update_self ..) (by decide) ?_)
    intro x l4 hx hw3
    rw [Wp.bind_iff]
    rw [← hzero] at hx
    refine uvmfree_wp hx ?_ (by decide) fun y l5 hfl5 hl5 hw4 => ?_
    · intro k
      rw [update_idem]
      by_cases hk : k = TRAMPOLINE / PGSIZE
      · rw [hk, update_self]
      · rw [update_of_ne hk]
    · rw [Wp.pure_iff]
      exact hfail y l5 hfl5 hl5 ((((hw.trans hw').trans hw'').trans hw3).trans hw4)
  · intro v T'' l3 hv hw''
    rw [if_neg (by decide), Wp.pure_iff]
    exact hok pt v T'' _ l3 hpt hv ((hw.trans hw').trans hw'')

end Vm

end Xv6.Kernel
