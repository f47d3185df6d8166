import Xv6.Proofs.PageOwners
/-!
# Moving the break of a process

`growproc` adds a signed number to a copy of the size that has 32 bits.  A process
is never that large, but the sum can be negative.
-/

namespace Xv6.Kernel

open Xv6.Lib

namespace Vm

variable {L : Link} {top : Vmap} {R : Multiset Nat} {s t : Phys} {pt sz n sz' : Nat}
  {T T' : Multiset Nat} {m m' : Vmap} {l l' : List Nat} {d : Int}

/-- The break moved by `n`, or nothing changed.  The tables made on the way may stay. -/
structure BreakMoved (L : Link) (s t : Phys) (pt sz : Nat) (n : Int) (r : Option Nat) : Prop where
  size : ∀ sz', r = some sz' → (sz' : Int) = sz + n
  fresh : ∀ sz', r = some sz' → Zeroed t (vmap t pt) (npages sz) (npages sz')
  kept : ∀ sz', r = some sz' → Keeps s t (vmap s pt) (vmap t pt) (npages (min sz sz'))
  mapping : r = none → ∀ k, k < MAXVA / PGSIZE → vmap t pt k = vmap s pt k
  memory : r = none → ∀ k pa f, k < npages sz → vmap s pt k = some (pa, f) → t.page pa = s.page pa
  free : r = none → ∀ l, FreeList L s l → ∃ l', FreeList L t l' ∧
    ∀ a ∈ l, a ∈ l' ∨ a ∈ sv39.tables t.word 2 pt

theorem keeps_vmap (ht : Table s pt T m) (ht' : Table t pt T' m') (hn : n ≤ 32768)
    (hk : Keeps s t m m' n) : Keeps s t (vmap s pt) (vmap t pt) n := by
  intro k pa f hkn hm
  have hlt : k < 512 ^ 3 := by omega
  have hms : vmap s pt k = m k := ht.lookup k hlt
  have hmt : vmap t pt k = m' k := ht'.lookup k hlt
  rw [hms] at hm
  rw [hmt]
  exact hk k pa f hkn hm

theorem BreakMoved.grown (h : Account L top R s pt T m (npages sz) l)
    (ht : Account L top R t pt T' m' (npages sz') l') (hsz : (sz' : Int) = sz + d)
    (hk : Keeps s t m m' (npages (min sz sz'))) (hz : Zeroed t m' (npages sz) (npages sz')) :
    BreakMoved L s t pt sz d (some sz') where
  size := by
    intro _ heq
    cases heq
    exact hsz
  fresh := by
    intro _ heq
    cases heq
    intro k hk1 hk2
    have hbound := ht.bound
    have hmap : vmap t pt k = m' k := ht.space.table.lookup k (by omega)
    rw [hmap]
    exact hz k hk1 hk2
  kept := by
    intro _ heq
    cases heq
    have hbound := h.bound
    have hle : npages (min sz sz') ≤ npages sz :=
      Nat.div_le_div_right (Nat.add_le_add_right (Nat.min_le_left sz sz') _)
    exact keeps_vmap h.space.table ht.space.table (hle.trans hbound) hk
  mapping := fun heq => by cases heq
  memory := fun heq => by cases heq
  free := fun heq => by cases heq

/-- The user pages are the same, so the tables and the free list share the same pages. -/
theorem BreakMoved.failed (h : Account L top R s pt T m (npages sz) l)
    (ht : Account L top R t pt T' m' (npages sz) l') (hk : Keeps s t m m' (npages sz)) :
    BreakMoved L s t pt sz d none where
  size := fun _ heq => by cases heq
  fresh := fun _ heq => by cases heq
  kept := fun _ heq => by cases heq
  mapping := by
    intro _ k hlt
    have hk3 := vpn_lt hlt
    have hms : vmap s pt k = m k := h.space.table.lookup k hk3
    have hmt : vmap t pt k = m' k := ht.space.table.lookup k hk3
    rw [hms, hmt]
    by_cases huser : k < npages sz
    · obtain ⟨pa, f, hm, _⟩ := h.space.user k huser
      rw [hm]
      exact (hk k pa f huser hm).1
    · rw [h.space.rest k (Nat.not_lt.mp huser) hk3, ht.space.rest k (Nat.not_lt.mp huser) hk3]
  memory := fun _ k pa f hkn hm =>
    (keeps_vmap h.space.table ht.space.table h.bound hk k pa f hkn hm).2
  free := by
    intro _ l₀ hl0
    obtain rfl := hl0.unique h.free
    refine ⟨l', ht.free, ?_⟩
    rw [ht.space.table.tables]
    refine h.free_or_table ht (Vmap.pages_congr fun i hi => ?_)
    obtain ⟨pa, f, hm, _⟩ := h.space.user i hi
    rw [Nat.zero_add, hm]
    exact (hk i pa f hi hm).1

/-- `growproc(n)` moves the break by exactly `n` or changes nothing, unless the new size would
be negative. -/
theorem growproc_exact_iff (d : Int32) (h : Account L top R s pt T m (npages sz) l)
    (hlow : Low top) : ∃ r t, growproc L pt sz d s = .ok (r, t) ∧
      (BreakMoved L s t pt sz d.toInt r ↔ 0 ≤ sz + d.toInt) := by
  have hwp : Wp (fun _ => False) (growproc L pt sz d)
      (fun r t => BreakMoved L s t pt sz d.toInt r ↔ 0 ≤ sz + d.toInt) s := by
    refine growproc_wp h hlow ?_ ?_
    · intro sz' t T' m' l' ht _ hsize hk hz
      by_cases hneg : 0 ≤ sz + d.toInt
      · rw [if_pos hneg] at hsize
        exact iff_of_true (BreakMoved.grown h ht hsize hk hz) hneg
      rw [if_neg hneg] at hsize
      refine iff_of_false (fun hmoved => ?_) hneg
      have heq := hmoved.size sz' rfl
      omega
    · intro t T' m' l' hpos ht _ hk
      exact iff_of_true (BreakMoved.failed h ht hk) (by omega)
  exact hwp.returns

end Vm

namespace Kern

theorem started_account : ∃ k T m l R, started 24 = some k ∧ (k.proc initproc).sz = PGSIZE ∧
    Account Vm.lastPages (procTop Vm.lastPages (k.proc initproc).trapframe) R k.phys
      (k.proc initproc).pagetable T m (npages PGSIZE) l ∧
    Vm.lastPages.isPage (k.proc initproc).trapframe ∧ (k.proc initproc).trapframe ∉ R := by
  have hrun : (started 24).map (fun k => ((k.proc initproc).state, (k.proc initproc).sz,
      (Vm.vmap k.phys (k.proc initproc).pagetable 0).isSome)) = some (.runnable, PGSIZE, true) := by
    decide +kernel
  obtain ⟨k, hk, hsome⟩ := Option.map_eq_some_iff.mp hrun
  obtain ⟨hstate, hrest⟩ := Prod.mk.inj hsome
  obtain ⟨hsz, hm⟩ := Prod.mk.inj hrest
  obtain ⟨g, P, l, hinv⟩ := (started_spec hk hm).inv
  have hlive := hinv.mem_of_runnable hstate
  obtain ⟨hacc, hout⟩ := hinv.mem.account hlive
  have hframe := (hinv.mem.held initproc hlive).frame
  have hag := hinv.share initproc (by rw [hstate]; decide)
  rw [← hag.trapframe] at hframe hout
  rw [← hag.sz, ← hag.pagetable, ← hag.trapframe, hsz] at hacc
  exact ⟨k, _, _, l, _, hk, hsz, hacc, hframe, hout⟩

/-- `sbrk(-PGSIZE)` by `init` leaves it with no memory. -/
theorem growproc_exact_init : ∃ k t, started 24 = some k ∧
    Vm.growproc Vm.lastPages (k.proc initproc).pagetable PGSIZE (-4096) k.phys = .ok (some 0, t) ∧
    Vm.BreakMoved Vm.lastPages k.phys t (k.proc initproc).pagetable PGSIZE (-4096) (some 0) := by
  obtain ⟨k, T, m, l, R, hk, hsz, hacc, _⟩ := started_account
  obtain ⟨r, t, hrun, hiff⟩ := Vm.growproc_exact_iff (-4096) hacc (procTop_low _ _)
  have hmoved := hiff.mpr (by decide)
  have hr : (started 24).map (fun k => (Vm.growproc Vm.lastPages (k.proc initproc).pagetable PGSIZE
      (-4096) k.phys).toOption.map Prod.fst) = some (some (some 0)) := by
    decide +kernel
  rw [hk, Option.map_some, hrun] at hr
  cases hr
  exact ⟨k, t, hk, hrun, hmoved⟩

/-- `sbrk(-2 * PGSIZE)` succeeds and changes nothing. -/
theorem growproc_ignores : ∃ k t, started 24 = some k ∧
    Vm.growproc Vm.lastPages (k.proc initproc).pagetable PGSIZE (-8192) k.phys =
      .ok (some PGSIZE, t) ∧
    ¬Vm.BreakMoved Vm.lastPages k.phys t (k.proc initproc).pagetable PGSIZE (-8192)
      (some PGSIZE) := by
  have hr : (started 24).map (fun k => (Vm.growproc Vm.lastPages (k.proc initproc).pagetable PGSIZE
      (-8192) k.phys).toOption.map Prod.fst) = some (some (some PGSIZE)) := by
    decide +kernel
  obtain ⟨k, hk, hsome⟩ := Option.map_eq_some_iff.mp hr
  obtain ⟨r, t, hrun, rfl⟩ := Prog.exists_ok hsome
  exact ⟨k, t, hk, hrun, fun hmoved => absurd (hmoved.size PGSIZE rfl) (by decide)⟩

end Kern

end Xv6.Kernel
