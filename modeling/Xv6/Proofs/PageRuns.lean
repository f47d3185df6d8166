import Xv6.Proofs.Fork
/-!
# Runs of system calls and physical memory

From the first process on, every reachable state keeps the invariant, and no
system call stops the kernel but the exit of `init`.
-/

namespace Xv6.Kernel

open Xv6.Lib Function

variable {L : Link} {R : Multiset Nat} {l : List Nat}

namespace Vm

variable {E : VmPanic → Prop} {top : Vmap} {s : Phys} {pt sz : Nat} {T : Multiset Nat} {m : Vmap}
  {Q : Unit → Phys → Prop} {src : Nat → UInt8}

/-- `uvminit`: unless the page could not be mapped, which goes unnoticed, the
address space has one page. -/
theorem uvminit_wp (h : Account L top R s pt T m 0 l)
    (hlow : Low top) (hsz : sz < PGSIZE) (hE : E .kerneltrap)
    (hok : ∀ t T' m' l', Account L top R t pt T' m' 1 l' → Within R s t → Q () t)
    (hlost : ∀ t T' m', Table t pt T' m' → m' 0 = none → (∀ a ∈ T', a ∈ R) → Q () t) :
    Wp E (uvminit pt src sz) Q s := by
  have hnone : m 0 = none := by
    rw [h.space.rest 0 (Nat.le_refl 0) (by decide)]
    exact hlow 0 (by decide)
  unfold uvminit
  rw [if_neg (Nat.not_le.mpr hsz)]
  refine Wp.bind (kalloc_account h ?_ ?_)
  · intro t _ _
    rw [if_pos rfl]
    exact hE
  intro pa R₀ l' t hR hpa _ ht hout
  obtain ⟨hnew, hu, _, hwithin⟩ := filled h hR ht hout (Bytes.const 0)
  have hR0 : R₀ ≤ R := by
    rw [hR]
    exact Multiset.le_cons_self R₀ pa
  have hbase : (0 : Nat) = 0 * PGSIZE := (Nat.zero_mul _).symm
  rw [if_neg hpa.ne_zero, Wp.bind_iff, memset_wp, Wp.bind_iff, hbase]
  refine mapUser_wp hu hlow hpa hnew (by decide) (by unfold isLeaf; decide) ?_ ?_
  · intro v T' l'' hv _ _
    unfold fill
    rw [Wp.modify_iff]
    have hpaT : pa ∉ T' := fun hmem => hnew ((hv.mem_iff pa).mpr (.inl hmem))
    refine hlost _ T' m (hv.space.table.congr fun a ha => Phys.setPage_ne ?_) hnone ?_
    · rintro rfl
      exact hpaT ha
    intro a ha
    rw [hR]
    exact Multiset.mem_cons_of_mem ((hv.mem_iff a).mpr (.inl ha))
  · intro v T' l'' hv _ hw
    rw [← hR] at hv
    refine fill_account hv Nat.one_pos (update_self ..) fun x _ hx hwx => ?_
    exact hok x T' _ l'' hx ((hwithin.trans (hw.mono hR0)).trans hwx)

end Vm

namespace Kern

variable {k k₀ k₁ k' : Kern} {g : ProcId → Share} {P : Finset Nat} {l₀ : List Nat} {p : ProcId}
  {a : Action} {x : Share} {y : Pcb}

/-! ## The first process -/

/-- The state `kinit` and `procinit` leave, with the free pages `l`. -/
structure Booted (L : Link) (k : Kern) (l : List Nat) : Prop where
  free : FreeList L k.phys l
  proc : ∀ p, k.proc p = Pcb.free
  file : ∀ f, k.ftable f = ⟨.none, 0⟩

/-- `userinit` has run, and its call of `mappages`, whose result it does not look
at, did not fail. -/
structure Started (L : Link) (k₀ : Kern) (l₀ : List Nat) (k₁ : Kern) : Prop where
  boot : Booted L k₀ l₀
  run : userinit L k₀ = .ok ((), k₁)
  mapped : Vm.vmap k₁.phys (k₁.proc initproc).pagetable 0 ≠ none

theorem unusedProc_first (h : ∀ p, k.proc p = Pcb.free) : k.unusedProc = some initproc := by
  have hlist : List.finRange NPROC = initproc :: (List.finRange 63).map Fin.succ :=
    List.finRange_succ
  unfold unusedProc
  rw [hlist, List.find?_cons_of_pos]
  rw [h initproc]
  rfl

theorem inv_first (h : Booted L k₀ l₀)
    (hmem : Memory L R k'.phys (insert initproc ∅ : Finset ProcId) (fun _ => x) ∅ l)
    (hproc : k'.proc = update k₀.proc initproc y) (hft : k'.ftable = k₀.ftable)
    (hstate : y.state = .runnable) (hparent : y.parent = none) (hofile : ∀ fd, y.ofile fd = none)
    (hag : Agrees y x) : Inv L R k' (fun _ => x) ∅ l := by
  have hself : k'.proc initproc = y := by
    rw [hproc, update_self]
  have hne : ∀ q, q ≠ initproc → k'.proc q = Pcb.free := by
    intro q hq
    rw [hproc, update_of_ne hq]
    exact h.proc q
  have hrow : ∀ q fd, (k'.proc q).ofile fd = none := by
    intro q fd
    by_cases hq : q = initproc
    · rw [hq, hself]
      exact hofile fd
    · rw [hne q hq]
      rfl
  have hslots : ∀ f, slots k'.ofile f = 0 := by
    intro f
    by_contra hpos
    obtain ⟨q, fd, hq⟩ := slots_pos.mp (Nat.pos_of_ne_zero hpos)
    have hq' : (k'.proc q).ofile fd = some f := hq
    rw [hrow] at hq'
    cases hq'
  have hparents : ∀ q, (k'.proc q).parent = none := by
    intro q
    by_cases hq : q = initproc
    · rw [hq, hself]
      exact hparent
    · rw [hne q hq]
      rfl
  refine ⟨?_, ⟨?_, ?_, ?_, ?_, ?_⟩, ?_, ?_, ?_, ?_, ?_⟩
  · have hlive : k'.live = insert initproc ∅ := by
      ext q
      rw [mem_live, Finset.mem_insert]
      by_cases hq : q = initproc
      · rw [hq, hself, hstate]
        simp
      · rw [hne q hq]
        simp [hq, Pcb.free]
    rw [hlive]
    exact hmem
  · intro f
    rw [hft, h.file, hslots]
    rfl
  · intro f
    rw [hft, h.file, hslots]
    simp
  · intro f f' pi w hf
    rw [hft, h.file] at hf
    cases hf
  · intro pi
    constructor
    · intro hpi
      exact absurd hpi (Finset.notMem_empty pi)
    rintro ⟨f, w, hf⟩
    rw [hft, h.file] at hf
    cases hf
  · intro pi hpi
    exact absurd hpi (Finset.notMem_empty pi)
  · intro q hq
    by_cases hq' : q = initproc
    · rw [hq', hself]
      exact hag
    · rw [hne q hq'] at hq
      exact absurd rfl hq
  · intro q hq
    by_cases hq' : q = initproc
    · rw [hq', hself, hstate] at hq
      cases hq
    · exact hne q hq'
  · exact fun q _ => hrow q
  · intro q r hr
    rw [hparents] at hr
    cases hr
  · rw [hself, hstate]

theorem userinit_wp (h : Booted L k₀ l₀) :
    Wp (fun _ => True) (userinit L) (fun _ k' =>
      Vm.vmap k'.phys (k'.proc initproc).pagetable 0 ≠ none → ∃ g P l, Inv L l₀ k' g P l) k₀ := by
  have hnd : (l₀ : Multiset Nat).Nodup := h.free.nodup
  have hmem : Memory L l₀ k₀.phys (∅ : Finset ProcId)
      (fun _ => ⟨0, 0, 0, 0, fun _ => none⟩) ∅ l₀ := by
    refine ⟨fun p hp => absurd hp (Finset.notMem_empty p), h.free,
      fun a ha => absurd ha (Finset.notMem_empty a), ?_, hnd⟩
    rw [Finset.sum_empty, Finset.empty_val, Multiset.zero_add, Multiset.zero_add]
  unfold userinit
  refine Wp.bind (allocproc_wp hmem (fun p _ => ⟨Finset.notMem_empty p, h.proc p⟩) ?_ ?_)
  · intro s l' _
    trivial
  intro p x s l' hfind hsz hs
  rw [unusedProc_first h.proc] at hfind
  cases hfind
  have hgp : update (fun _ => (⟨0, 0, 0, 0, fun _ => none⟩ : Share)) initproc x initproc = x :=
    update_self ..
  have hin : initproc ∈ insert initproc (∅ : Finset ProcId) := Finset.mem_insert_self _ _
  obtain ⟨hacc, hout⟩ := hs.account hin
  have hroot := (hs.held initproc hin).root
  rw [hgp] at hacc hout hroot
  have hzero : npages x.sz = 0 := by
    rw [hsz]
    decide
  rw [hzero] at hacc
  have hself : (k₀.allocated initproc x s).proc initproc =
      { k₀.proc initproc with trapframe := x.trapframe, pagetable := x.pagetable } :=
    setProc_self k₀ initproc _
  simp only
  refine Wp.bind (getProc_wp ?_)
  rw [hself, Wp.bind_iff]
  -- what is left after `uvminit`
  have hframe : ∀ (t : Phys) a, a ≠ x.trapframe →
      ((t.setWord x.trapframe 3 0).setWord x.trapframe 6 (UInt64.ofNat PGSIZE)).page a = t.page a :=
    fun t a ha => (Phys.setWord_page_ne ha).trans (Phys.setWord_page_ne ha)
  have hfin : ∀ t : Phys,
      (Vm.vmap ((t.setWord x.trapframe 3 0).setWord x.trapframe 6 (UInt64.ofNat PGSIZE))
        x.pagetable 0 ≠ none → ∃ T' m' l2, Account L (procTop L x.trapframe)
          (Memory.part (update (fun _ => ⟨0, 0, 0, 0, fun _ => none⟩) initproc x) l' initproc)
          t x.pagetable T' m' 1 l2 ∧ Within (Memory.part (update
            (fun _ => ⟨0, 0, 0, 0, fun _ => none⟩) initproc x) l' initproc) s t) →
      Wp (fun _ => True) (do
        vm (Vm.setPte (x.trapframe, 3) 0)
        vm (Vm.setPte (x.trapframe, 6) (UInt64.ofNat PGSIZE))
        modifyProc initproc fun x => { x with sz := PGSIZE, state := .runnable })
        (fun _ k' => Vm.vmap k'.phys (k'.proc initproc).pagetable 0 ≠ none →
          ∃ g P l, Inv L l₀ k' g P l) { k₀.allocated initproc x s with phys := t } := by
    intro t ht
    refine Wp.bind (vm_wp ?_)
    rw [Vm.setPte_wp]
    refine Wp.bind (vm_wp ?_)
    rw [Vm.setPte_wp]
    refine modifyProc_wp ?_
    rw [setProc_self, hself]
    intro hmapped
    obtain ⟨T', m', l2, hacc', hw⟩ := ht hmapped
    have hone : npages PGSIZE = 1 := by decide
    rw [← hone] at hacc'
    have hupd := hs.update (x := ⟨x.trapframe, x.pagetable, PGSIZE, T', m'⟩) hin hroot
      (by rw [hgp]) (by rw [hgp]; exact hacc')
      (by rw [hgp]; exact hw.mono (Multiset.le_cons_self _ _))
    rw [update_idem] at hupd
    have hwritten := hupd.frame_write (t := (t.setWord x.trapframe 3 0).setWord x.trapframe 6
      (UInt64.ofNat PGSIZE)) hin rfl (by rw [update_self]; exact hframe t)
    have hconst := hwritten.shares_congr (f := fun _ => ⟨x.trapframe, x.pagetable, PGSIZE, T', m'⟩)
      fun q hq => by
        rw [Finset.mem_singleton.mp hq, update_self]
    refine ⟨_, ∅, l2, inv_first (y := { k₀.proc initproc with
      trapframe := x.trapframe, pagetable := x.pagetable, sz := PGSIZE, state := .runnable })
      h hconst ?_ rfl rfl ?_ ?_ ⟨rfl, rfl, rfl⟩⟩
    · unfold allocated setProc
      simp only [update_idem]
    · rw [h.proc]
      rfl
    · rw [h.proc]
      exact fun _ => rfl
  refine vm_wp (Vm.uvminit_wp hacc (procTop_low L _) (by decide) trivial ?_ ?_)
  · intro t T' m' l2 ht hw
    exact hfin t fun _ => ⟨T', m', l2, ht, hw⟩
  intro t T' m' ht hnone hT
  refine hfin t fun hmapped => absurd ?_ hmapped
  have htab := ht.congr fun a ha => hframe t a (by rintro rfl; exact hout (hT _ ha))
  exact (htab.lookup 0 (by decide)).trans hnone

theorem Started.inv (h : Started L k₀ l₀ k₁) : ∃ g P l, Inv L l₀ k₁ g P l :=
  (userinit_wp h.boot).of_ok h.run h.mapped

/-! ## A call -/

/-- The processes a call is about. -/
def touched (k : Kern) (a : Action) (k' : Kern) (q : ProcId) : Prop :=
  match a.call with
  | .fork => q ∈ born k k'
  | .wait _ => k.zombieChild a.p = some q
  | _ => q = a.p

section

variable (h : Inv L R k g P l) {e : VmPanic}
include h

theorem Inv.withDeny (deny : List Bool) :
    Inv L R (k.withDeny deny) g P l :=
  h.phys (h.mem.same rfl (h.mem.free.congr rfl fun _ _ => rfl))

theorem syscall_wp (hp : (k.proc a.p).state = .runnable) :
    Wp (fun e => e = .initExiting ∧ a.p = initproc) (syscall L a.p a.call)
      (fun _ k' => Post L R k g a.p (touched k a k') k') k := by
  unfold syscall touched
  cases a.call with
  | fork => exact Wp.bind_iff.mpr (fork_wp h hp)
  | exec path uargv => exact Wp.bind_iff.mpr (exec_wp h hp)
  | sbrk n => exact Wp.bind_iff.mpr (sbrk_wp h hp)
  | pipe fdarray => exact Wp.bind_iff.mpr (sysPipe_wp h hp)
  | close fd => exact Wp.bind_iff.mpr (sysClose_wp h hp)
  | exit status => exact exit_wp h hp
  | wait addr => exact Wp.bind_iff.mpr ((wait_wp h hp).post fun _ _ hpost => hpost.1)

theorem step_post (hstep : step L k a = some k') :
    Post L R k g a.p (touched k a k') k' := by
  unfold step at hstep
  obtain ⟨hp, hstep⟩ := Option.ite_none_right_eq_some.mp hstep
  have hwp := syscall_wp (a := a) (h.withDeny a.deny) hp
  cases hrun : syscall L a.p a.call (k.withDeny a.deny) with
  | error e =>
    rw [hrun] at hstep
    cases hstep
  | ok r =>
    rw [hrun] at hstep
    cases hstep
    obtain ⟨g', P', l', hinv, heff⟩ := hwp.of_ok hrun
    exact ⟨g', P', l', hinv, heff.state, heff.ofile, heff.share, heff.parent, heff.kind⟩

theorem syscall_error (hp : (k.proc a.p).state = .runnable)
    (hrun : syscall L a.p a.call (k.withDeny a.deny) = .error e) :
    e = .initExiting ∧ a.p = initproc :=
  (syscall_wp (h.withDeny a.deny) hp).of_error hrun

end

theorem reaches_inv (h : ∃ g P l, Inv L R k₁ g P l)
    (hreach : Reaches (step L) (fun _ _ => True) k₁ k) : ∃ g P l, Inv L R k g P l := by
  refine Reaches.invariant (I := fun k => ∃ g P l, Inv L R k g P l) hreach h ?_
  rintro u v a ⟨g, P, l, hinv⟩ _ hstep
  obtain ⟨g', P', l', hinv', _⟩ := step_post hinv hstep
  exact ⟨g', P', l', hinv'⟩

end Kern

end Xv6.Kernel
