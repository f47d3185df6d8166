import Xv6.Proofs.PageOwners
/-!
# `exec` succeeds or leaves no trace

Whatever the file holds, wherever memory runs out, `exec` neither panics nor
changes anything when it fails: all it wrote to were pages of the free list, and
they are all back there.
-/

namespace Xv6.Kernel

open Xv6.Lib

namespace Kern

variable {L : Link} {k k₀ k₁ : Kern} {l₀ l : List Nat} {p : ProcId} {R : Multiset Nat}
  {g : ProcId → Share} {P : Finset Nat} {s : Phys}

/-- The memory of process `p` is the same in `s` as in the kernel `k`. -/
structure SameProcess (k : Kern) (p : ProcId) (s : Phys) : Prop where
  mappings : ∀ v, v < 512 ^ 3 → Vm.vmap s (k.proc p).pagetable v = k.pageMap p v
  memory : ∀ v pa f, v < npages (k.proc p).sz → k.pageMap p v = some (pa, f) →
    s.page pa = k.phys.page pa
  trapframe : s.page (k.proc p).trapframe = k.phys.page (k.proc p).trapframe

theorem Inv.sameProcess (h : Inv L R k g P l) (hp : (k.proc p).state = .runnable)
    (hw : Within l k.phys s) : SameProcess k p s := by
  have hlive := h.mem_of_runnable hp
  have hagree := h.share p (mem_live.mp hlive)
  have hheld := h.mem.held p hlive
  have hkeep : ∀ a ∈ (g p).pages, s.page a = k.phys.page a := by
    intro a ha
    exact hw a (h.mem.share_not_free hlive ha)
  have hlookup : ∀ v, v < 512 ^ 3 → k.pageMap p v = (g p).map v := by
    intro v hv
    unfold pageMap Vm.vmap
    rw [hagree.pagetable]
    exact hheld.space.table.lookup v hv
  refine ⟨?_, ?_, ?_⟩
  · intro v hv
    rw [hlookup v hv, hagree.pagetable]
    exact (hheld.congr hkeep).space.table.lookup v hv
  · intro v pa f hv hm
    rw [hagree.sz] at hv
    have hv' : v < 512 ^ 3 := by
      have hsz := Vm.size_le (h.mem.account hlive).1
      unfold npages at hv
      rw [PGSIZE_eq] at hv
      omega
    rw [hlookup v hv'] at hm
    refine hkeep pa (Multiset.mem_cons_of_mem (Multiset.mem_add.mpr (.inr ?_)))
    exact Vmap.mem_pages.mpr ⟨v, f, hv, by rwa [Nat.zero_add]⟩
  · rw [hagree.trapframe]
    exact hkeep _ (Multiset.mem_cons_self _ _)

/-- In every reachable state, whatever the file, the arguments and the calls of
`kalloc` that fail: `exec` returns, and if it returns `-1` then the process is
as before, with its mappings, memory and trapframe, no page but free ones was
written to, and the free list holds the same pages as before. -/
theorem exec_all_or_nothing (hstart : Started L k₀ l₀ k₁)
    (hrun : Reaches (step L) (fun _ _ => True) k₁ k) (hp : (k.proc p).state = .runnable)
    (deny : List Bool) (name path : List UInt8) (file : Option Exe) (argv : List Nat) :
    ∃ r x t, Vm.execProc L (k.proc p).trapframe ⟨(k.proc p).pagetable, (k.proc p).sz, name⟩ path
        file argv { k.phys with deny := deny } = .ok ((r, x), t) ∧
      (r = -1 → x = ⟨(k.proc p).pagetable, (k.proc p).sz, name⟩ ∧ SameProcess k p t ∧
        ∃ l l', FreeList L k.phys l ∧ FreeList L t l' ∧ l'.Perm l ∧
          ∀ a, a ∉ l → t.page a = k.phys.page a) := by
  obtain ⟨g, P, l, hinv⟩ := reaches_inv hstart.inv hrun
  have hlive := hinv.mem_of_runnable hp
  have hagree := hinv.share p (mem_live.mp hlive)
  have hfl : FreeList L { k.phys with deny := deny } l :=
    ⟨hinv.mem.free.chain, hinv.mem.free.nodup, hinv.mem.free.ram⟩
  have hmem := hinv.mem.same (t := { k.phys with deny := deny }) rfl hfl
  obtain ⟨hacc, hout⟩ := hmem.account hlive
  have hframe := (hmem.held p hlive).frame
  have hwp : Wp (fun _ => False) (Vm.execProc L (k.proc p).trapframe
      ⟨(k.proc p).pagetable, (k.proc p).sz, name⟩ path file argv)
      (fun r t => r.1 = -1 → r.2 = ⟨(k.proc p).pagetable, (k.proc p).sz, name⟩ ∧
        ∃ l', FreeList L t l' ∧ l'.Perm l ∧ Within l k.phys t) { k.phys with deny := deny } := by
    rw [hagree.trapframe, hagree.pagetable, hagree.sz]
    unfold Vm.execProc
    refine Wp.bind (Vm.exec_back_wp hacc hframe hout ?_ ?_)
    · intro image t T' m' l' _ _ _ hneg
      exact absurd hneg (by simp only; omega)
    · intro t l' hfl' hl hw _
      exact ⟨rfl, l', hfl', Multiset.coe_eq_coe.mp hl, hw⟩
  obtain ⟨⟨r, x⟩, t, hok, hpost⟩ := hwp.returns
  refine ⟨r, x, t, hok, fun hr => ?_⟩
  obtain ⟨hx, l', hfl', hperm, hw⟩ := hpost hr
  exact ⟨hx, hinv.sameProcess hp hw, l, l', hinv.mem.free, hfl', hperm, hw⟩

/-- `init` tries to run a program and the third page is not to be had: the two tables built
so far are given back. -/
theorem exec_all_or_nothing_init : ∃ k t l l', started 24 = some k ∧
    Vm.execProc Vm.lastPages (k.proc initproc).trapframe
      ⟨(k.proc initproc).pagetable, (k.proc initproc).sz, []⟩ [47] (some headerOnly) []
      { k.phys with deny := [false, false, true] } =
        .ok ((-1, ⟨(k.proc initproc).pagetable, (k.proc initproc).sz, []⟩), t) ∧
      FreeList Vm.lastPages k.phys l ∧ FreeList Vm.lastPages t l' ∧ l'.Perm l := by
  have hres : (started 24).map (fun k => ((k.proc initproc).state,
      (Vm.vmap k.phys (k.proc initproc).pagetable 0).isSome,
      (match Vm.execProc Vm.lastPages (k.proc initproc).trapframe
          ⟨(k.proc initproc).pagetable, (k.proc initproc).sz, []⟩ [47] (some headerOnly) []
          { k.phys with deny := [false, false, true] } with
        | .ok (r, _) => r.1
        | .error _ => 0))) = some (.runnable, true, -1) := by
    decide +kernel
  obtain ⟨k, hk, hres⟩ := Option.map_eq_some_iff.mp hres
  simp only [Prod.mk.injEq] at hres
  obtain ⟨hstate, hm, hr⟩ := hres
  obtain ⟨r, x, t, hok, hpost⟩ := exec_all_or_nothing (started_spec hk hm) .refl hstate
    [false, false, true] [] [47] (some headerOnly) []
  rw [hok] at hr
  obtain ⟨rfl, _, l, l', hfl, hfl', hperm, _⟩ := hpost hr
  have hneg : r = -1 := hr
  subst hneg
  exact ⟨k, t, l, l', hk, hok, hfl, hfl', hperm⟩

end Kern

end Xv6.Kernel
