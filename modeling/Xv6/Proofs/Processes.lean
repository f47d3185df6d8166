import Xv6.Proofs.PipeFiles
/-!
# Creating and freeing processes

`allocproc` builds the share of a process from the free list, and `freeproc`
gives it back.
-/

namespace Xv6.Kernel

open Xv6.Lib Function Multiset

structure Agrees (x : Pcb) (y : Share) : Prop where
  trapframe : x.trapframe = y.trapframe
  pagetable : x.pagetable = y.pagetable
  sz : x.sz = y.sz

def Pcb.freed (x : Pcb) : Pcb :=
  { x with trapframe := 0, pagetable := 0, sz := 0, parent := none, xstate := 0, state := .unused }

namespace Kern

variable {E : VmPanic → Prop} {L : Link} {R : Multiset Nat} {k : Kern} {S : Finset ProcId}
  {g : ProcId → Share} {P : Finset Nat} {l : List Nat} {p q : ProcId} {Q : Unit → Kern → Prop}
  {f : Pcb → Pcb}

theorem getProc_wp {Q : Pcb → Kern → Prop} (hQ : Q (k.proc p) k) : Wp E (getProc p) Q k := hQ

theorem modifyProc_wp (hQ : Q () (k.setProc p (f (k.proc p)))) : Wp E (modifyProc p f) Q k := hQ

theorem setProc_self (k : Kern) (p : ProcId) (x : Pcb) : (k.setProc p x).proc p = x :=
  update_self ..

theorem setProc_ne (k : Kern) (x : Pcb) (h : q ≠ p) : (k.setProc p x).proc q = k.proc q :=
  update_of_ne h ..

theorem freeproc_wp (h : Memory L R k.phys S g P l) (hp : p ∈ S) (hag : Agrees (k.proc p) (g p))
    (hQ : ∀ s l', Memory L R s (S.erase p) g P l' →
      Q () { k.setProc p (k.proc p).freed with phys := s }) : Wp E (freeproc L p) Q k := by
  obtain ⟨hacc, hout⟩ := h.account hp
  have hheld := h.held p hp
  have hacc' := hacc.freed hheld.frame hout
  have hsz := Vm.size_le hacc
  have hpages : (g p).trapframe ::ₘ Memory.part g l p = (g p).pages + l := by
    unfold Memory.part Share.pages
    rw [cons_add]
  unfold freeproc kfreeNonzero freePagetableNonzero
  refine Wp.bind (getProc_wp ?_)
  rw [hag.trapframe, hag.pagetable, hag.sz, if_neg hheld.frame.ne_zero]
  refine Wp.bind (vm_wp (kfree_wp hheld.frame ?_))
  refine Wp.bind (modifyProc_wp ?_)
  rw [if_neg hheld.root]
  refine Wp.bind (vm_wp (Vm.procFreepagetable_wp hacc' (by rw [PGSIZE_eq]; omega) ?_))
  intro s l' hfl hl hw
  refine modifyProc_wp ?_
  have hmem : Memory L R s (S.erase p) g P l' := by
    refine h.remove hp hfl (by rw [hl, hpages]) ?_
    intro a ha
    rw [hw a (by rw [hpages]; exact ha)]
    refine Phys.freed_page_ne ?_
    rintro rfl
    exact ha (mem_add.mpr (.inl (mem_cons_self _ _)))
  have hall := hQ s l' hmem
  unfold setProc at hall ⊢
  simp only [update_self, update_idem]
  exact hall

theorem unusedProc_spec (h : k.unusedProc = some p) : (k.proc p).state = .unused := by
  have hfind := List.find?_some h
  exact of_decide_eq_true hfind

def allocated (k : Kern) (p : ProcId) (x : Share) (s : Phys) : Kern :=
  { k.setProc p { k.proc p with
      trapframe := x.trapframe, pagetable := x.pagetable } with phys := s }

theorem allocproc_wp {Q : Option ProcId → Kern → Prop} (h : Memory L R k.phys S g P l)
    (hfree : ∀ p, (k.proc p).state = .unused → p ∉ S ∧ k.proc p = Pcb.free)
    (hfail : ∀ s l', Memory L R s S g P l' → Q none { k with phys := s })
    (hok : ∀ p x s l', k.unusedProc = some p → x.sz = 0 →
      Memory L R s (insert p S) (update g p x) P l' → Q (some p) (k.allocated p x s)) :
    Wp E (allocproc L) Q k := by
  unfold allocproc
  rw [Wp.bind_iff, Wp.get_iff]
  cases hfind : k.unusedProc with
  | none => exact hfail k.phys l h
  | some p =>
    have hstate := unusedProc_spec hfind
    obtain ⟨hpS, hblank⟩ := hfree p hstate
    simp only
    refine Wp.bind (vm_wp (kalloc_wp h.free ?_ ?_))
    · intro s hpage hfl
      refine Wp.bind (modifyProc_wp ?_)
      rw [if_pos rfl, Wp.pure_iff]
      have hsame : { k with phys := s }.setProc p { k.proc p with trapframe := 0 } =
          { k with phys := s } := by
        have hx : { k.proc p with trapframe := 0 } = k.proc p := by
          rw [hblank]
          rfl
        unfold setProc
        simp only [hx, update_eq_self]
      rw [hsame]
      exact hfail s l (h.same hpage hfl)
    intro tf l' s hl htf hfl hout
    have hnd := h.free.nodup
    rw [hl] at h hnd
    refine Wp.bind (modifyProc_wp ?_)
    rw [if_neg htf.ne_zero, Wp.bind_iff]
    have hle : (l' : Multiset Nat) ≤ (tf :: l' : List Nat) := le_cons_self _ tf
    have hws : Within (tf :: l' : List Nat) k.phys s := by
      intro a ha
      apply hout
      rintro rfl
      exact ha List.mem_cons_self
    refine vm_wp (Vm.procPagetable_wp hfl (Vm.page_addr htf) ?_ ?_)
    · intro t l'' hfl' hl' hw
      refine Wp.bind (modifyProc_wp ?_)
      have hnew : tf ∉ l'' := by
        intro hmem
        have hmem' : tf ∈ (l'' : Multiset Nat) := hmem
        rw [hl'] at hmem'
        exact (List.nodup_cons.mp hnd).1 hmem'
      have hmem : Memory L R (t.freed tf) S g P (tf :: l'') := by
        refine h.relist (hfl'.freed htf hnew) ?_ ?_
        · rw [← cons_coe, ← cons_coe, hl']
        intro a ha
        have hne : a ≠ tf := by
          rintro rfl
          exact ha List.mem_cons_self
        rw [Phys.freed_page_ne hne, (hws.trans (hw.mono hle)) a ha]
      have hall := hfail (t.freed tf) _ hmem
      rw [if_pos rfl, Wp.bind_iff]
      unfold freeproc kfreeNonzero freePagetableNonzero
      refine Wp.bind (getProc_wp ?_)
      simp only [setProc_self, htf.ne_zero, ↓reduceIte]
      refine Wp.bind (vm_wp (kfree_wp htf ?_))
      refine Wp.bind (modifyProc_wp ?_)
      rw [Wp.bind_iff, Wp.pure_iff]
      refine modifyProc_wp ?_
      rw [Wp.pure_iff]
      have hx : (k.proc p).freed = k.proc p := by
        rw [hblank]
        rfl
      have hback : update k.proc p (k.proc p).freed = k.proc := by
        rw [hx, update_eq_self]
      rw [← hback] at hall
      unfold setProc
      simp only [update_self, update_idem]
      exact hall
    · intro pt t T m l'' hpt hacc hw
      refine Wp.bind (modifyProc_wp ?_)
      rw [if_neg hpt, Wp.pure_iff]
      have hzero : npages 0 = 0 := by decide
      have hacc' : Account L (procTop L tf) l' t pt T m (npages 0) l'' := by
        rw [hzero]
        exact hacc
      have hmem : Memory L R t (insert p S) (update g p ⟨tf, pt, 0, T, m⟩) P l'' := by
        refine h.add hpS ⟨htf, hpt, hacc'.space⟩ hacc.free ?_ (hws.trans (hw.mono hle))
        unfold Share.pages Share.user
        rw [cons_add, hacc'.total, cons_coe]
      have hall := hok p ⟨tf, pt, 0, T, m⟩ t l'' hfind rfl hmem
      unfold allocated setProc at hall
      unfold setProc
      simp only [update_self, update_idem]
      exact hall

end Kern

end Xv6.Kernel
