import Xv6.Proofs.Processes
/-!
# System calls and the pages of processes

What every system call keeps: each page has one owner, each open file is
counted, and the parent of a process is running.
-/

namespace Xv6.Kernel

open Xv6.Lib Function

namespace Kern

variable {Q : Bool → Kern → Prop} {addr fdarray : Nat} {v : UInt32} {fd0 fd1 : Fin NOFILE}
  {rf wf : Fin NFILE} {c : Fin NFILE → Nat}

def live (k : Kern) : Finset ProcId := Finset.univ.filter fun p => (k.proc p).state ≠ .unused

def ofile (k : Kern) : ProcId → Fin NOFILE → Option (Fin NFILE) := fun p => (k.proc p).ofile

theorem mem_live {k : Kern} {p : ProcId} : p ∈ k.live ↔ (k.proc p).state ≠ .unused := by
  unfold live
  rw [Finset.mem_filter]
  exact ⟨fun h => h.2, fun h => ⟨Finset.mem_univ p, h⟩⟩

structure Inv (L : Link) (R : Multiset Nat) (k : Kern) (g : ProcId → Share) (P : Finset Nat)
    (l : List Nat) : Prop where
  mem : Memory L R k.phys k.live g P l
  files : PipeFiles k.ftable k.pipe (slots k.ofile) P
  share : ∀ p, (k.proc p).state ≠ .unused → Agrees (k.proc p) (g p)
  blank : ∀ p, (k.proc p).state = .unused → k.proc p = Pcb.free
  closed : ∀ p, (k.proc p).state ≠ .runnable → ∀ fd, (k.proc p).ofile fd = none
  parent : ∀ p q, (k.proc p).parent = some q → (k.proc q).state = .runnable
  init : (k.proc initproc).state = .runnable

/-- What a call of `p` may do to processes: those not in `X` keep their state,
their files and their pages, a process gets a new parent only when it is created
or when its parent exits, and files that stay open stay what they are. -/
structure Effect (k k' : Kern) (g g' : ProcId → Share) (p : ProcId) (X : ProcId → Prop) : Prop where
  state : ∀ q, ¬X q → (k'.proc q).state = (k.proc q).state
  ofile : ∀ q, ¬X q → (k'.proc q).ofile = (k.proc q).ofile
  share : ∀ q, ¬X q → g' q = g q
  parent : ∀ q r, (k'.proc q).parent = some r →
    (k.proc q).parent = some r ∨ r = initproc ∨ (X q ∧ r = p)
  kind : ∀ f, 0 < slots k.ofile f → 0 < slots k'.ofile f → (k'.ftable f).kind = (k.ftable f).kind

variable {E : VmPanic → Prop} {L : Link} {R : Multiset Nat} {k k' : Kern} {g g' : ProcId → Share}
  {P P' : Finset Nat} {l l' : List Nat} {p : ProcId} {s : Phys} {x : Share} {X : ProcId → Prop}
  {S : Finset ProcId}

def Post (L : Link) (R : Multiset Nat) (k : Kern) (g : ProcId → Share) (p : ProcId)
    (X : ProcId → Prop) (k' : Kern) : Prop :=
  ∃ g' P' l', Inv L R k' g' P' l' ∧ Effect k k' g g' p X

theorem Effect.refl (k : Kern) (g : ProcId → Share) (p : ProcId) (X : ProcId → Prop) :
    Effect k k g g p X where
  state := fun _ _ => rfl
  ofile := fun _ _ => rfl
  share := fun _ _ => rfl
  parent := fun _ _ h => .inl h
  kind := fun _ _ _ => rfl

theorem Inv.mem_of_runnable (_ : Inv L R k g P l) (hp : (k.proc p).state = .runnable) :
    p ∈ k.live := by
  rw [mem_live, hp]
  decide

section

variable (h : Inv L R k g P l)
include h

theorem Inv.phys (hmem : Memory L R s k.live g P l') :
    Inv L R { k with phys := s } g P l' :=
  ⟨hmem, h.files, h.share, h.blank, h.closed, h.parent, h.init⟩

theorem Inv.post_phys (hmem : Memory L R s k.live g P l') :
    Post L R k g p X { k with phys := s } :=
  ⟨g, P, l', h.phys hmem, fun _ _ => rfl, fun _ _ => rfl, fun _ _ => rfl, fun _ _ hq => .inl hq,
    fun _ _ _ => rfl⟩

theorem Inv.remap (hp : (k.proc p).state = .runnable)
    (hmem : Memory L R s k.live (update g p x) P l') (htf : x.trapframe = (g p).trapframe) :
    Post L R k g p (fun q => q = p)
      { k.setProc p { k.proc p with pagetable := x.pagetable, sz := x.sz } with phys := s } := by
  have hagree := h.share p (mem_live.mp (h.mem_of_runnable hp))
  generalize hy : { k.proc p with pagetable := x.pagetable, sz := x.sz } = y
  have hproc : ∀ q, (k.setProc p y).proc q = if q = p then y else k.proc q := by
    intro q
    split
    · rename_i hqp
      rw [hqp, setProc_self]
    · rename_i hqp
      exact setProc_ne k y hqp
  have hfields : ∀ q, ((k.setProc p y).proc q).state = (k.proc q).state ∧
      ((k.setProc p y).proc q).ofile = (k.proc q).ofile ∧
      ((k.setProc p y).proc q).parent = (k.proc q).parent := by
    intro q
    rw [hproc]
    split
    · rename_i hqp
      rw [hqp, ← hy]
      exact ⟨rfl, rfl, rfl⟩
    · exact ⟨rfl, rfl, rfl⟩
  have hlive : live { k.setProc p y with phys := s } = k.live := by
    ext q
    rw [mem_live, mem_live, (hfields q).1]
  have hofile : ofile { k.setProc p y with phys := s } = k.ofile :=
    funext fun q => (hfields q).2.1
  refine ⟨update g p x, P, l', ⟨?_, ?_, ?_, ?_, ?_, ?_, ?_⟩, ?_, ?_, ?_, ?_, ?_⟩
  · rw [hlive]
    exact hmem
  · rw [hofile]
    exact h.files
  · intro q hq
    rw [(hfields q).1] at hq
    rw [hproc]
    split
    · rename_i hqp
      rw [hqp, update_self, ← hy]
      exact ⟨hagree.trapframe.trans htf.symm, rfl, rfl⟩
    · rename_i hqp
      rw [update_of_ne hqp]
      exact h.share q hq
  · intro q hq
    rw [(hfields q).1] at hq
    have hqp : q ≠ p := by
      rintro rfl
      rw [hp] at hq
      cases hq
    rw [hproc, if_neg hqp]
    exact h.blank q hq
  · intro q hq
    rw [(hfields q).1] at hq
    rw [(hfields q).2.1]
    exact h.closed q hq
  · intro q r hr
    rw [(hfields q).2.2] at hr
    rw [(hfields r).1]
    exact h.parent q r hr
  · rw [(hfields initproc).1]
    exact h.init
  · exact fun q _ => (hfields q).1
  · exact fun q _ => (hfields q).2.1
  · exact fun q hq => update_of_ne hq ..
  · intro q r hr
    rw [(hfields q).2.2] at hr
    exact .inl hr
  · exact fun _ _ _ => rfl

/-! ## Memory -/

theorem sbrk_wp {d : Int32} (hp : (k.proc p).state = .runnable) :
    Wp E (sbrk L p d) (fun _ k' => Post L R k g p (fun q => q = p) k') k := by
  have hlive := h.mem_of_runnable hp
  have hagree := h.share p (mem_live.mp hlive)
  obtain ⟨hacc, _⟩ := h.mem.account hlive
  have hroot := (h.mem.held p hlive).root
  have hle := Multiset.le_cons_self (Memory.part g l p) (g p).trapframe
  unfold sbrk
  refine Wp.bind (getProc_wp ?_)
  rw [hagree.pagetable, hagree.sz]
  refine Wp.bind (vm_wp (Vm.growproc_wp hacc (procTop_low L _) ?_ ?_))
  · intro sz' t T' m' l' ht hw _ _ _
    refine Wp.bind (modifyProc_wp ?_)
    rw [Wp.pure_iff]
    have hmem := h.mem.update (x := ⟨(g p).trapframe, (g p).pagetable, sz', T', m'⟩) hlive hroot rfl
      ht (hw.mono hle)
    have hpost := h.remap hp hmem rfl
    rw [← hagree.pagetable] at hpost
    exact hpost
  · intro t T' m' l' _ ht hw _
    rw [Wp.pure_iff]
    have hmem := h.mem.update (x := ⟨(g p).trapframe, (g p).pagetable, (g p).sz, T', m'⟩) hlive
      hroot rfl ht (hw.mono hle)
    have hpost := h.remap hp hmem rfl
    simp only at hpost
    rw [← hagree.pagetable, ← hagree.sz] at hpost
    unfold setProc at hpost
    simp only [update_eq_self] at hpost
    exact hpost

theorem exec_wp {path : Option (Option Exe)} {uargv : Nat} (hp : (k.proc p).state = .runnable) :
    Wp E (exec L p path uargv) (fun _ k' => Post L R k g p (fun q => q = p) k') k := by
  have hlive := h.mem_of_runnable hp
  have hagree := h.share p (mem_live.mp hlive)
  obtain ⟨hacc, hout⟩ := h.mem.account hlive
  have hheld := h.mem.held p hlive
  have hle := Multiset.le_cons_self (Memory.part g l p) (g p).trapframe
  unfold exec
  refine Wp.bind (getProc_wp ?_)
  rw [hagree.trapframe, hagree.pagetable, hagree.sz]
  refine Wp.bind (vm_wp (Vm.sysExec_wp hacc hheld.frame hout ?_ ?_))
  · intro image t T' m' l' hpt ht hw
    refine Wp.bind (modifyProc_wp ?_)
    rw [Wp.pure_iff]
    have hmem := h.mem.update (x := ⟨(g p).trapframe, image.pagetable, image.sz, T', m'⟩) hlive hpt
      rfl ht hw
    exact h.remap hp hmem rfl
  · intro t l' ht hw
    rw [Wp.pure_iff]
    exact h.post_phys (h.mem.writes hlive ht (hw.mono hle))

end

theorem copyoutInt_wp (h : Memory L R k.phys S g P l) (hp : p ∈ S) (hag : Agrees (k.proc p) (g p))
    (hQ : ∀ r s, Memory L R s S g P l → Q r { k with phys := s }) :
    Wp E (copyoutInt p addr v) Q k := by
  obtain ⟨hacc, _⟩ := h.account hp
  have hle := Multiset.le_cons_self (Memory.part g l p) (g p).trapframe
  unfold copyoutInt
  refine Wp.bind (getProc_wp ?_)
  rw [hag.pagetable]
  refine vm_wp (Vm.copyout_account hacc (procTop_shut L _) fun r t ht hw => ?_)
  exact hQ r t (h.writes hp ht (hw.mono hle))

/-! ## Pipes -/

variable {f : Fin NFILE} {fd : Fin NOFILE}

theorem ofile_setFd (k : Kern) (p : ProcId) (fd : Fin NOFILE) (v : Option (Fin NFILE)) :
    (k.setFd p fd v).ofile = setSlot k.ofile p fd v := by
  funext q
  unfold ofile setFd setSlot
  by_cases hqp : q = p
  · rw [hqp, setProc_self, update_self]
  · rw [setProc_ne k _ hqp, update_of_ne hqp]

theorem Inv.refile {o : Fin NOFILE → Option (Fin NFILE)} (h : Inv L R k g P l)
    (hp : (k.proc p).state = .runnable)
    (hproc : k'.proc = update k.proc p { k.proc p with ofile := o })
    (hmem : Memory L R k'.phys k.live g P' l')
    (hfiles : PipeFiles k'.ftable k'.pipe (slots k'.ofile) P')
    (hkind : ∀ f, 0 < slots k.ofile f → 0 < slots k'.ofile f →
      (k'.ftable f).kind = (k.ftable f).kind) : Post L R k g p (fun q => q = p) k' := by
  have hne : ∀ q, q ≠ p → k'.proc q = k.proc q := by
    intro q hqp
    rw [hproc, update_of_ne hqp]
  have hself : k'.proc p = { k.proc p with ofile := o } := by
    rw [hproc, update_self]
  have hfields : ∀ q, (k'.proc q).state = (k.proc q).state ∧
      (k'.proc q).parent = (k.proc q).parent := by
    intro q
    by_cases hqp : q = p
    · rw [hqp, hself]
      exact ⟨rfl, rfl⟩
    · rw [hne q hqp]
      exact ⟨rfl, rfl⟩
  have hlive : k'.live = k.live := by
    ext q
    rw [mem_live, mem_live, (hfields q).1]
  refine ⟨g, P', l', ⟨?_, hfiles, ?_, ?_, ?_, ?_, ?_⟩, ?_, ?_, fun _ _ => rfl, ?_, hkind⟩
  · rw [hlive]
    exact hmem
  · intro q hq
    rw [(hfields q).1] at hq
    have hag := h.share q hq
    rcases eq_or_ne q p with rfl | hqp
    · rw [hself]
      exact ⟨hag.trapframe, hag.pagetable, hag.sz⟩
    · rw [hne q hqp]
      exact hag
  · intro q hq
    rw [(hfields q).1] at hq
    have hqp : q ≠ p := by
      rintro rfl
      rw [hp] at hq
      cases hq
    rw [hne q hqp]
    exact h.blank q hq
  · intro q hq
    rw [(hfields q).1] at hq
    have hqp : q ≠ p := by
      rintro rfl
      exact hq hp
    rw [hne q hqp]
    exact h.closed q hq
  · intro q r hr
    rw [(hfields q).2] at hr
    rw [(hfields r).1]
    exact h.parent q r hr
  · rw [(hfields initproc).1]
    exact h.init
  · exact fun q _ => (hfields q).1
  · intro q hqp
    rw [hne q hqp]
  · intro q r hr
    rw [(hfields q).2] at hr
    exact .inl hr

theorem setFd_proc (k : Kern) (p : ProcId) (fd : Fin NOFILE) (v : Option (Fin NFILE)) :
    (k.setFd p fd v).proc =
      update k.proc p { k.proc p with ofile := update (k.proc p).ofile fd v } :=
  rfl

theorem slots_cleared (h : (k.proc p).ofile fd = some f) :
    update (slots k.ofile) f (slots k.ofile f - 1) = slots (setSlot k.ofile p fd none) := by
  have hclear := slots_clear (σ := k.ofile) (i := p) (j := fd) h
  funext f'
  rcases eq_or_ne f' f with rfl | hf
  · rw [update_self, hclear f', if_pos rfl, Nat.add_sub_cancel]
  · rw [update_of_ne hf, hclear f', if_neg hf, Nat.add_zero]

theorem slot_pos (h : (k.proc p).ofile fd = some f) : 0 < slots k.ofile f :=
  slots_pos.mpr ⟨p, fd, h⟩

theorem sysClose_wp (h : Inv L R k g P l) (hp : (k.proc p).state = .runnable) :
    Wp E (sysClose L p fd) (fun _ k' => Post L R k g p (fun q => q = p) k') k := by
  unfold sysClose
  refine Wp.bind (getProc_wp ?_)
  cases hfd : (k.proc p).ofile fd with
  | none => exact ⟨g, P, l, h, Effect.refl k g p _⟩
  | some f =>
    rw [Wp.bind_iff, Wp.modify_iff, Wp.bind_iff]
    have hfiles : PipeFiles (k.setFd p fd none).ftable (k.setFd p fd none).pipe (slots k.ofile) P :=
      h.files
    refine fileclose_wp (k := k.setFd p fd none) h.mem hfiles (slot_pos hfd) ?_
    intro k' P' l' hproc hmem hf hkind
    rw [slots_cleared hfd] at hf hkind
    have hofile : k'.ofile = setSlot k.ofile p fd none := by
      rw [← ofile_setFd]
      unfold ofile
      rw [hproc]
    rw [Wp.pure_iff]
    refine h.refile hp (hproc.trans (setFd_proc k p fd none)) hmem ?_ ?_
    · rw [hofile]
      exact hf
    intro f' _ hpos
    rw [hofile] at hpos
    exact hkind f' hpos

theorem fdalloc_wp {Q : Option (Fin NOFILE) → Kern → Prop} (hnone : Q none k)
    (hsome : ∀ fd, (k.proc p).ofile fd = none → Q (some fd) (k.setFd p fd (some f))) :
    Wp E (fdalloc p f) Q k := by
  unfold fdalloc
  refine Wp.bind (getProc_wp ?_)
  cases hfind : (List.finRange NOFILE).find? fun fd => (k.proc p).ofile fd = none with
  | none => exact hnone
  | some fd =>
    have hfree := List.find?_some hfind
    exact hsome fd (of_decide_eq_true hfree)

theorem slots_piped (h₀ : (k.proc p).ofile fd0 = none)
    (h1 : update (k.proc p).ofile fd0 (some rf) fd1 = none) (hne : wf ≠ rf)
    (hrf : slots k.ofile rf = 0) (hwf : slots k.ofile wf = 0) :
    slots (update k.ofile p (update (update (k.proc p).ofile fd0 (some rf))
      fd1 (some wf))) = update (update (slots k.ofile) rf 1) wf 1 := by
  have hrow : setSlot k.ofile p fd0 (some rf) p = update (k.proc p).ofile fd0 (some rf) :=
    update_self ..
  have hset : setSlot (setSlot k.ofile p fd0 (some rf)) p fd1 (some wf) =
      update k.ofile p (update (update (k.proc p).ofile fd0 (some rf)) fd1 (some wf)) := by
    have hout : setSlot (setSlot k.ofile p fd0 (some rf)) p fd1 (some wf) =
        update (setSlot k.ofile p fd0 (some rf)) p
          (update (setSlot k.ofile p fd0 (some rf) p) fd1 (some wf)) := rfl
    rw [hout, hrow]
    exact update_idem ..
  have h1' : setSlot k.ofile p fd0 (some rf) p fd1 = none := by rw [hrow, h1]
  rw [← hset]
  funext f
  rw [slots_fill h1', slots_fill (σ := k.ofile) h₀]
  by_cases hf : f = wf
  · rw [hf, if_neg hne, if_pos rfl, hwf, update_self]
  rw [if_neg hf, update_of_ne hf]
  by_cases hf' : f = rf
  · rw [hf', if_pos rfl, hrf, update_self]
  · rw [if_neg hf', update_of_ne hf', Nat.add_zero]

theorem closePipe_wp {Q : Unit → Kern → Prop} (h : Memory L R k.phys S g P l)
    (hf : PipeFiles k.ftable k.pipe (update (update c rf 1) wf 1) P)
    (hne : wf ≠ rf) (hrf : c rf = 0) (hwf : c wf = 0)
    (hQ : ∀ k' P' l', k'.proc = k.proc → Memory L R k'.phys S g P' l' →
      PipeFiles k'.ftable k'.pipe c P' → SameKinds k.ftable k'.ftable c → Q () k') :
    Wp E (closeAll L [rf, wf]) Q k := by
  have hrf' : update (update c rf 1) wf 1 rf = 1 := by
    rw [update_of_ne (Ne.symm hne), update_self]
  have hback : update (update (update (update c rf 1) wf 1) rf 0)
      wf 0 = c := by
    rw [overwrite c 1 1 0 0 hne]
    funext f
    by_cases hfw : f = wf
    · rw [hfw, update_self, hwf]
    rw [update_of_ne hfw]
    by_cases hfr : f = rf
    · rw [hfr, update_self, hrf]
    · rw [update_of_ne hfr]
  unfold closeAll
  refine Wp.bind (fileclose_wp h hf (by rw [hrf']; exact Nat.one_pos) ?_)
  rw [hrf']
  intro k₁ P₁ l1 hproc1 hmem1 hf1 hk1
  have hwf' : update (update (update c rf 1) wf 1) rf (1 - 1) wf = 1 := by
    rw [update_of_ne hne, update_self]
  unfold closeAll
  refine Wp.bind (fileclose_wp hmem1 hf1 (by rw [hwf']; exact Nat.one_pos) ?_)
  rw [hwf', Nat.sub_self, hback]
  intro k₂ P₂ l2 hproc2 hmem2 hf2 hk2
  refine hQ k₂ P₂ l2 (hproc2.trans hproc1) hmem2 hf2 ?_
  intro f hpos
  have hfw : f ≠ wf := by
    rintro rfl
    omega
  have hfr : f ≠ rf := by
    rintro rfl
    omega
  rw [hk2 f hpos, hk1 f]
  rw [update_of_ne hfr, update_of_ne hfw, update_of_ne hfr]
  exact hpos

theorem copyoutFds_wp (h : Memory L R k.phys S g P l) (hp : p ∈ S) (hag : Agrees (k.proc p) (g p))
    (hQ : ∀ r s, Memory L R s S g P l → Q r { k with phys := s }) :
    Wp E (copyoutFds p fdarray fd0 fd1) Q k := by
  unfold copyoutFds
  refine Wp.bind (copyoutInt_wp h hp hag fun r s hs => ?_)
  refine Wp.ite_iff.mpr ⟨fun _ => ?_, fun _ => hQ false s hs⟩
  exact copyoutInt_wp (k := { k with phys := s }) hs hp hag hQ

/-- The kernel after `pipealloc`, with descriptors `o` for process `p`. -/
def pipedFds (k : Kern) (rf wf : Fin NFILE) (pi : Nat) (s : Phys) (p : ProcId)
    (o : Fin NOFILE → Option (Fin NFILE)) : Kern :=
  { k.piped rf wf pi with
    phys := s
    proc := update k.proc p { k.proc p with ofile := o } }

section PipedFds

variable (k) (rf wf : Fin NFILE) (pi : Nat) (s : Phys) (p) (o : Fin NOFILE → Option (Fin NFILE))

theorem pipedFds_self : k.pipedFds rf wf pi s p (k.proc p).ofile =
    { k.piped rf wf pi with phys := s } := by
  unfold pipedFds
  rw [update_eq_self]
  rfl

theorem pipedFds_setFd (fd : Fin NOFILE) (v : Option (Fin NFILE)) :
    (k.pipedFds rf wf pi s p o).setFd p fd v =
      k.pipedFds rf wf pi s p (update o fd v) := by
  unfold pipedFds setFd setProc
  simp only [update_self, update_idem]

theorem pipedFds_proc :
    (k.pipedFds rf wf pi s p o).proc = update k.proc p { k.proc p with ofile := o } := rfl

theorem pipedFds_ofile : (k.pipedFds rf wf pi s p o).ofile = update k.ofile p o := by
  funext q
  unfold ofile
  rw [pipedFds_proc]
  by_cases hqp : q = p
  · rw [hqp, update_self, update_self]
  · rw [update_of_ne hqp, update_of_ne hqp]

theorem pipedFds_fd : ((k.pipedFds rf wf pi s p o).proc p).ofile = o := by
  rw [pipedFds_proc, update_self]

end PipedFds

theorem sysPipe_wp (h : Inv L R k g P l) (hp : (k.proc p).state = .runnable) :
    Wp E (sysPipe L p fdarray) (fun _ k' => Post L R k g p (fun q => q = p) k') k := by
  have hlive := h.mem_of_runnable hp
  have hagree := h.share p (mem_live.mp hlive)
  unfold sysPipe
  refine Wp.bind (pipealloc_wp h.mem h.files (fun s hs => h.post_phys hs) ?_)
  intro rf wf pi s l' hne hrf hwf hpi hmem
  have hfiles := h.files.piped hrf hwf hne hpi
  -- a file that was open before is not one of the two
  have hother : ∀ f, 0 < slots k.ofile f →
      ((k.piped rf wf pi).ftable f).kind = (k.ftable f).kind := by
    intro f hpos
    have hfw : f ≠ wf := by
      rintro rfl
      omega
    have hfr : f ≠ rf := by
      rintro rfl
      omega
    unfold piped
    simp only
    rw [update_of_ne hfw, update_of_ne hfr]
  -- giving up, once the descriptors are as before
  have hundo : ∀ t, Memory L R t k.live g (insert pi P) l' →
      Wp E (closeAll L [rf, wf]) (fun _ k' => Post L R k g p (fun q => q = p) k')
        (k.pipedFds rf wf pi t p (k.proc p).ofile) := by
    intro t ht
    rw [pipedFds_self]
    refine closePipe_wp (k := { k.piped rf wf pi with phys := t }) ht hfiles hne hrf hwf ?_
    intro k₂ P₂ l2 hproc hmem2 hf2 hk2
    have hofile : k₂.ofile = k.ofile := by
      unfold ofile
      rw [hproc]
      rfl
    refine h.refile (o := (k.proc p).ofile) hp ?_ hmem2 ?_ ?_
    · rw [hproc]
      exact (update_eq_self ..).symm
    · rw [hofile]
      exact hf2
    intro f hpos _
    rw [hk2 f hpos]
    exact hother f hpos
  rw [← pipedFds_self]
  refine Wp.bind (fdalloc_wp ?_ fun fd0 h₀ => ?_)
  · unfold pipeUndo
    rw [Wp.bind_iff, Wp.bind_iff, Wp.modify_iff, List.foldl_nil]
    exact hundo s hmem
  rw [pipedFds_fd] at h₀
  have hclear0 : update (k.proc p).ofile fd0 none = (k.proc p).ofile := by
    rw [← h₀, update_eq_self]
  rw [pipedFds_setFd]
  simp only
  refine Wp.bind (fdalloc_wp ?_ fun fd1 h1 => ?_)
  · unfold pipeUndo
    rw [Wp.bind_iff, Wp.bind_iff, Wp.modify_iff, List.foldl_cons, List.foldl_nil, pipedFds_setFd,
      update_idem, hclear0]
    exact hundo s hmem
  rw [pipedFds_fd] at h1
  have hfd : fd1 ≠ fd0 := by
    rintro rfl
    rw [update_self] at h1
    cases h1
  have hclear1 : update (k.proc p).ofile fd1 none = (k.proc p).ofile := by
    rw [update_of_ne hfd] at h1
    rw [← h1, update_eq_self]
  have hag : ∀ o, Agrees ((k.pipedFds rf wf pi s p o).proc p) (g p) := by
    intro o
    rw [pipedFds_proc, update_self]
    exact ⟨hagree.trapframe, hagree.pagetable, hagree.sz⟩
  rw [pipedFds_setFd]
  refine Wp.bind (copyoutFds_wp hmem hlive (hag _) fun r t ht => ?_)
  refine Wp.ite_iff.mpr ⟨fun _ => ?_, fun _ => ?_⟩
  · rw [Wp.pure_iff]
    change Post L R k g p (fun q => q = p) (k.pipedFds rf wf pi t p _)
    refine h.refile hp rfl ht ?_ fun f hpos _ => hother f hpos
    rw [pipedFds_ofile, slots_piped h₀ h1 hne hrf hwf]
    exact hfiles
  unfold pipeUndo
  have hback : ∀ o, { k.pipedFds rf wf pi s p o with phys := t } = k.pipedFds rf wf pi t p o :=
    fun _ => rfl
  rw [Wp.bind_iff, Wp.bind_iff, Wp.modify_iff, List.foldl_cons, List.foldl_cons, List.foldl_nil,
    hback, pipedFds_setFd, pipedFds_setFd, overwrite _ _ _ _ _ hfd, hclear0, hclear1]
  exact hundo t ht

end Kern

end Xv6.Kernel
