import Xv6.Proofs.Sbrk
/-!
# The memory of a child

`uvmcopy` gives the new page table a copy of each page of the old one, or takes
back all that it gave.
-/

namespace Xv6.Kernel

open Xv6.Lib

namespace Vm

variable {L : Link} {top top₀ : Vmap} {R : Multiset Nat} {s t : Phys} {old new n k : Nat}
  {T T' T₀ : Multiset Nat} {m m' m₀ : Vmap} {l l' : List Nat}

/-- The pages below `n` of the new table are copies of those of the old one, in pages of
their own; above them the new table is what it was. -/
structure Duplicate (s t : Phys) (old new n : Nat) : Prop where
  copied : ∀ k, k < n → Copied s t (vmap s old) (vmap t new) k
  rest : ∀ k, n ≤ k → k < MAXVA / PGSIZE → vmap t new k = vmap s new k
  distinct : ∀ k k' pa f f', k < n → k' < n → vmap t new k = some (pa, f) →
    vmap t new k' = some (pa, f') → k = k'
  apart : ∀ k k' pa pa' f f', k < n → k' < n → vmap t new k = some (pa, f) →
    vmap s old k' = some (pa', f') → pa ≠ pa'
  tables : ∀ k pa f, k < n → vmap t new k = some (pa, f) → pa ∉ sv39.tables s.word 2 old

/-- The new table maps what it did, and what was free is free or one of its tables. -/
structure Withdrawn (L : Link) (s t : Phys) (new : Nat) : Prop where
  mapping : ∀ k, k < MAXVA / PGSIZE → vmap t new k = vmap s new k
  free : ∀ l, FreeList L s l → ∃ l', FreeList L t l' ∧
    ∀ a ∈ l, a ∈ l' ∨ a ∈ sv39.tables t.word 2 new

/-- The page table at `old`, all that it maps below `n` and the contents of those pages are
unchanged. -/
structure Intact (s t : Phys) (old n : Nat) : Prop where
  tables : ∀ a ∈ sv39.tables s.word 2 old, t.page a = s.page a
  mapping : ∀ k, k < MAXVA / PGSIZE → vmap t old k = vmap s old k
  pages : ∀ k pa f, k < n → k < MAXVA / PGSIZE → vmap s old k = some (pa, f) →
    t.page pa = s.page pa

theorem Account.rest_eq (h : Account L top R s new T m 0 l) (ht : Account L top R t new T' m' n l')
    (hge : n ≤ k) (hk : k < MAXVA / PGSIZE) : vmap t new k = vmap s new k := by
  have hk3 := vpn_lt hk
  calc vmap t new k = m' k := ht.space.table.lookup k hk3
    _ = top k := ht.space.rest k hge hk3
    _ = m k := (h.space.rest k (Nat.zero_le k) hk3).symm
    _ = vmap s new k := (h.space.table.lookup k hk3).symm

section

variable (h₀ : Space L top₀ s old T₀ m₀ n) (hdis : ∀ a ∈ T₀ + m₀.pages 0 n, a ∉ R)
include h₀ hdis

theorem Intact.of_within (hw : Within R s t) : Intact s t old n where
  tables := by
    intro a ha
    rw [h₀.table.tables] at ha
    exact hw a (hdis a (Multiset.mem_add.mpr (.inl ha)))
  mapping := by
    intro k hk
    have ht0 := h₀.table.congr fun a ha => hw a (hdis a (Multiset.mem_add.mpr (.inl ha)))
    exact (ht0.lookup k (vpn_lt hk)).trans (h₀.table.lookup k (vpn_lt hk)).symm
  pages := by
    intro k pa f hk hmax hm
    have hm0 : m₀ k = some (pa, f) := (h₀.table.lookup k (vpn_lt hmax)).symm.trans hm
    refine hw pa (hdis pa (Multiset.mem_add.mpr (.inr ?_)))
    exact Vmap.mem_pages.mpr ⟨k, f, hk, by rwa [Nat.zero_add]⟩

theorem Duplicate.of_account (h : Account L top R s new T m 0 l)
    (ht : Account L top R t new T' m' n l') (hc : ∀ k, k < n → Copied s t m₀ m' k) :
    Duplicate s t old new n := by
  have hbound := ht.bound
  have hold : ∀ k, k < n → vmap s old k = m₀ k := fun k hk => h₀.table.lookup k (by omega)
  have hnew : ∀ k, k < n → vmap t new k = m' k := fun k hk => ht.space.table.lookup k (by omega)
  -- a page of the new table belongs to its account
  have hin : ∀ k pa f, k < n → vmap t new k = some (pa, f) → pa ∈ R := by
    intro k pa f hk hm
    rw [hnew k hk] at hm
    refine (ht.mem_iff pa).mpr (.inr (.inl ?_))
    exact Vmap.mem_pages.mpr ⟨k, f, hk, by rwa [Nat.zero_add]⟩
  refine ⟨?_, fun k => Account.rest_eq h ht, ?_, ?_, ?_⟩
  · intro k hk
    obtain ⟨pa, pa', f, hm0, hm', hp⟩ := hc k hk
    exact ⟨pa, pa', f, (hold k hk).trans hm0, (hnew k hk).trans hm', hp⟩
  · intro k k' pa f f' hk hk' hm hm'
    rw [hnew k hk] at hm
    rw [hnew k' hk'] at hm'
    exact ht.pages_inj hk hk' hm hm'
  · rintro k k' pa _ f f' hk hk' hm hm' rfl
    rw [hold k' hk'] at hm'
    refine hdis pa (Multiset.mem_add.mpr (.inr ?_)) (hin k pa f hk hm)
    exact Vmap.mem_pages.mpr ⟨k', f', hk', by rwa [Nat.zero_add]⟩
  · intro k pa f hk hm hT
    rw [h₀.table.tables] at hT
    exact hdis pa (Multiset.mem_add.mpr (.inl hT)) (hin k pa f hk hm)

end

/-- `uvmcopy` to a page table without user pages copies all of the old one's memory or leaves
nothing behind, wherever an allocation fails, and does not touch the old one. -/
theorem uvmcopy_all_or_nothing {sz : Nat} (h₀ : Space L top₀ s old T₀ m₀ (npages sz))
    (h : Account L top R s new T m 0 l) (hlow : Low top)
    (hdis : ∀ a ∈ T₀ + m₀.pages 0 (npages sz), a ∉ R) :
    ∃ ok t, uvmcopy L old new sz s = .ok (ok, t) ∧
      (ok = true → Duplicate s t old new (npages sz)) ∧ (ok = false → Withdrawn L s t new) ∧
      Intact s t old (npages sz) := by
  have hwp : Wp (fun _ => False) (uvmcopy L old new sz)
      (fun ok t => (ok = true → Duplicate s t old new (npages sz)) ∧
        (ok = false → Withdrawn L s t new) ∧ Intact s t old (npages sz)) s := by
    refine uvmcopy_wp h₀ h hlow hdis ?_ ?_
    · intro t T' m' l' ht hc hw
      refine ⟨fun _ => Duplicate.of_account h₀ hdis h ht hc, fun heq => ?_,
        Intact.of_within h₀ hdis hw⟩
      cases heq
    intro t T' m' l' ht hw
    refine ⟨fun heq => ?_, fun _ => ⟨fun k => Account.rest_eq h ht (Nat.zero_le k), ?_⟩,
      Intact.of_within h₀ hdis hw⟩
    · cases heq
    intro l₀ hl0
    obtain rfl := hl0.unique h.free
    refine ⟨l', ht.free, ?_⟩
    rw [ht.space.table.tables]
    exact h.free_or_table ht rfl
  exact hwp.returns

end Vm

namespace Kern

/-- `init` grows to two pages; then a page table for a child, whose trapframe is at `KERNBASE`,
gets copies of both. -/
theorem uvmcopy_all_init : ∃ k u new s t, started 24 = some k ∧
    Vm.uvmalloc Vm.lastPages (k.proc initproc).pagetable PGSIZE (2 * PGSIZE) k.phys =
      .ok (2 * PGSIZE, u) ∧
    Vm.procPagetable Vm.lastPages KERNBASE u = .ok (new, s) ∧
    Vm.uvmcopy Vm.lastPages (k.proc initproc).pagetable new (2 * PGSIZE) s = .ok (true, t) ∧
    Vm.Duplicate s t (k.proc initproc).pagetable new 2 := by
  obtain ⟨k, T, m, l, R, hk, _, hacc, _⟩ := started_account
  have hgrow : Wp (fun _ => False)
      (Vm.uvmalloc Vm.lastPages (k.proc initproc).pagetable PGSIZE (2 * PGSIZE))
      (fun r u => r ≠ 0 → r = 2 * PGSIZE ∧ ∃ T m l, Account Vm.lastPages
        (procTop Vm.lastPages (k.proc initproc).trapframe) R u (k.proc initproc).pagetable T m
        (npages (2 * PGSIZE)) l) k.phys := by
    refine Vm.uvmalloc_wp hacc (procTop_low _ _) (by decide) (fun h => absurd h (by decide)) ?_ ?_
    · intro u T' m' l' _ hu _ _ _ _
      exact ⟨rfl, T', m', l', hu⟩
    · intro u T' m' l' _ _ _ _ hne
      exact absurd rfl hne
  obtain ⟨r, u, hrun, hgrown⟩ := hgrow.returns
  have heval : (started 24).map (fun k => (Vm.uvmalloc Vm.lastPages (k.proc initproc).pagetable
      PGSIZE (2 * PGSIZE) k.phys).toOption.map fun r => (decide (r.1 ≠ 0),
        (Vm.procPagetable Vm.lastPages KERNBASE r.2).toOption.map fun r => (decide (r.1 ≠ 0),
          (Vm.uvmcopy Vm.lastPages (k.proc initproc).pagetable r.1 (2 * PGSIZE)
            r.2).toOption.map Prod.fst))) = some (some (true, some (true, some true))) := by
    decide +kernel
  rw [hk, Option.map_some, hrun] at heval
  obtain ⟨hr, heval⟩ := Prod.mk.inj (Option.some.inj (Option.some.inj heval))
  obtain ⟨rfl, T₀, m₀, l₀, hold⟩ := hgrown (of_decide_eq_true hr)
  have hwp : Wp (fun _ => False) (Vm.procPagetable Vm.lastPages KERNBASE)
      (fun new t => new ≠ 0 → ∃ T m l', Account Vm.lastPages (procTop Vm.lastPages KERNBASE) l₀ t
        new T m 0 l' ∧ Within l₀ u t) u := by
    refine Vm.procPagetable_wp hold.free (by decide) ?_ ?_
    · intro t l' _ _ _ hne
      exact absurd rfl hne
    · intro new t T m l' _ ht hw _
      exact ⟨T, m, l', ht, hw⟩
  obtain ⟨new, s, hrun', hpost⟩ := hwp.returns
  simp only [hrun'] at heval
  obtain ⟨hnew, hok⟩ := Prod.mk.inj (Option.some.inj heval)
  obtain ⟨T', m', l', ht, hw⟩ := hpost (of_decide_eq_true hnew)
  have hfree : ∀ a ∈ T₀ + m₀.pages 0 (npages (2 * PGSIZE)), a ∉ (l₀ : Multiset Nat) := by
    intro a ha hl
    obtain ⟨hT, hp⟩ := hold.free_not_own a hl
    rcases Multiset.mem_add.mp ha with h | h
    · exact hT h
    · exact hp h
  have hspace := hold.space.congr fun a ha => hw a (hfree a (Multiset.mem_add.mpr (.inl ha)))
  obtain ⟨ok, t, hcopy, hdup, _⟩ :=
    Vm.uvmcopy_all_or_nothing hspace ht (procTop_low _ _) hfree
  simp only [hcopy] at hok
  obtain rfl : ok = true := Option.some.inj hok
  exact ⟨k, u, new, s, t, hk, hrun, hrun', hcopy, hdup rfl⟩

end Kern

end Xv6.Kernel
