import Xv6.Machine.Pages
import Xv6.Proofs.Syscalls
/-!
# Fork, exit and wait

The calls that create processes and give them up keep what holds between system
calls.
-/

namespace Xv6.Kernel

open Xv6.Lib Function List

namespace Kern

variable {E : VmPanic → Prop} {L : Link} {R : Multiset Nat} {k k' : Kern} {g : ProcId → Share}
  {P : Finset Nat} {l l' : List Nat} {p np q : ProcId} {S : Finset ProcId}
  {fds : List (Fin NOFILE)} {fd : Fin NOFILE} {f : Fin NFILE}
  {o o' : Fin NOFILE → Option (Fin NFILE)} {Q : Unit → Kern → Prop} {status : UInt32} {s : Phys}
  {X : ProcId → Prop} {addr src : Nat} {y : Pcb} {x : Share}

def setFds (k : Kern) (p : ProcId) (o : Fin NOFILE → Option (Fin NFILE)) : Kern :=
  k.setProc p { k.proc p with ofile := o }

theorem setFds_self (k : Kern) (p : ProcId) : (k.setFds p (k.proc p).ofile).proc = k.proc :=
  update_eq_self ..

theorem setFds_setFd (k : Kern) (p : ProcId) (fd : Fin NOFILE) (v : Option (Fin NFILE)) :
    ((k.setFd p fd v).setFds p o).proc = (k.setFds p o).proc := by
  unfold setFds setFd setProc
  simp only [update_self, update_idem]

theorem setFd_row (k : Kern) (p : ProcId) (fd : Fin NOFILE) (v : Option (Fin NFILE)) :
    ((k.setFd p fd v).proc p).ofile = update (k.proc p).ofile fd v := by
  rw [setFd_proc, update_self]

theorem ofile_setFds (h : k'.proc = (k.setFds p o).proc) : k'.ofile = update k.ofile p o := by
  funext q
  unfold ofile
  rw [h]
  unfold setFds
  by_cases hqp : q = p
  · rw [hqp, setProc_self, update_self]
  · rw [setProc_ne k _ hqp, update_of_ne hqp]

/-! ## Descriptors -/

theorem dupFds_wp (hf : PipeFiles k.ftable k.pipe (slots k.ofile) P) (hnd : fds.Nodup)
    (hempty : ∀ fd ∈ fds, (k.proc np).ofile fd = none)
    (hQ : ∀ k' o, k'.phys = k.phys → k'.proc = (k.setFds np o).proc → k'.pipe = k.pipe →
      PipeFiles k'.ftable k'.pipe (slots k'.ofile) P →
      (∀ f, (k'.ftable f).kind = (k.ftable f).kind) → Q () k') : Wp E (dupFds p np fds) Q k := by
  induction fds generalizing k with
  | nil => exact hQ k _ rfl (setFds_self k np).symm rfl hf fun _ => rfl
  | cons fd rest ih =>
    rw [nodup_cons] at hnd
    unfold dupFds
    refine Wp.bind (getProc_wp ?_)
    cases hfd : (k.proc p).ofile fd with
    | none => exact ih hf hnd.2 (fun fd' h' => hempty fd' (mem_cons_of_mem fd h')) hQ
    | some f =>
      refine Wp.bind (filedup_wp hf (slot_pos hfd) fun hf1 => ?_)
      rw [Wp.bind_iff, Wp.modify_iff]
      have hnone := hempty fd mem_cons_self
      generalize hk1 : k.setFile f ⟨(k.ftable f).kind, (slots k.ofile f + 1 : Nat)⟩ = k₁ at hf1
      have hproc1 : k₁.proc = k.proc := by
        rw [← hk1]
        rfl
      have hofile1 : k₁.ofile = k.ofile := by
        unfold ofile
        rw [hproc1]
      have hslots : update (slots k.ofile) f (slots k.ofile f + 1) =
          slots (k₁.setFd np fd (some f)).ofile := by
        rw [ofile_setFd, hofile1]
        funext f'
        rw [slots_fill (σ := k.ofile) hnone]
        by_cases hff : f' = f
        · rw [hff, update_self, if_pos rfl]
        · rw [update_of_ne hff, if_neg hff, Nat.add_zero]
      rw [hslots] at hf1
      have hpipe1 : k₁.pipe = k.pipe := by
        rw [← hk1]
        rfl
      rw [← hpipe1] at hf1
      refine ih (k := k₁.setFd np fd (some f)) hf1 hnd.2 ?_ ?_
      · intro fd' h'
        have hne : fd' ≠ fd := by
          rintro rfl
          exact hnd.1 h'
        rw [setFd_row, update_of_ne hne, hproc1]
        exact hempty fd' (mem_cons_of_mem fd h')
      intro k' o hphys hproc hpipe hfiles hkind
      refine hQ k' o ?_ ?_ (hpipe.trans hpipe1) hfiles ?_
      · rw [hphys, ← hk1]
        rfl
      · rw [hproc, setFds_setFd]
        unfold setFds setProc
        rw [hproc1]
      intro f'
      have hkind1 : (k₁.ftable f').kind = (k.ftable f').kind := by
        rw [← hk1]
        by_cases hff : f' = f
        · rw [hff, setFile_self]
        · rw [setFile_ne _ hff]
      exact (hkind f').trans hkind1

theorem closeFds_wp (h : Memory L R k.phys S g P l)
    (hf : PipeFiles k.ftable k.pipe (slots k.ofile) P)
    (hQ : ∀ k' o P' l', k'.proc = (k.setFds p o).proc →
      (∀ fd f, o fd = some f → fd ∉ fds ∧ (k.proc p).ofile fd = some f) →
      Memory L R k'.phys S g P' l' → PipeFiles k'.ftable k'.pipe (slots k'.ofile) P' →
      SameKinds k.ftable k'.ftable (slots k'.ofile) → Q () k') : Wp E (closeFds L p fds) Q k := by
  induction fds generalizing k P l with
  | nil =>
    refine hQ k _ P l (setFds_self k p).symm ?_ h hf fun _ _ => rfl
    exact fun fd f hfd => ⟨not_mem_nil, hfd⟩
  | cons fd rest ih =>
    unfold closeFds
    refine Wp.bind (getProc_wp ?_)
    cases hfd : (k.proc p).ofile fd with
    | none =>
      refine ih h hf fun k' o P' l' hproc ho hmem hfiles hkind => ?_
      refine hQ k' o P' l' hproc ?_ hmem hfiles hkind
      intro fd' f' ho'
      obtain ⟨hrest, hold⟩ := ho fd' f' ho'
      refine ⟨?_, hold⟩
      rw [mem_cons, not_or]
      refine ⟨?_, hrest⟩
      rintro rfl
      rw [hfd] at hold
      cases hold
    | some f =>
      refine Wp.bind (fileclose_wp h hf (slot_pos hfd) ?_)
      intro k₁ P₁ l1 hproc1 hmem1 hf1 hkind1
      rw [Wp.bind_iff, Wp.modify_iff]
      have hofile1 : k₁.ofile = k.ofile := by
        unfold ofile
        rw [hproc1]
      have hslots : update (slots k.ofile) f (slots k.ofile f - 1) =
          slots (k₁.setFd p fd none).ofile := by
        rw [slots_cleared hfd, ofile_setFd, hofile1]
      rw [hslots] at hf1 hkind1
      refine ih (k := k₁.setFd p fd none) hmem1 hf1 ?_
      intro k' o P' l' hproc ho hmem hfiles hkind
      rw [setFds_setFd] at hproc
      rw [setFd_row, hproc1] at ho
      have hold : ∀ fd' f', o fd' = some f' →
          fd' ∉ fd :: rest ∧ (k.proc p).ofile fd' = some f' := by
        intro fd' f' ho'
        obtain ⟨hrest, hrow⟩ := ho fd' f' ho'
        have hne : fd' ≠ fd := by
          rintro rfl
          rw [update_self] at hrow
          cases hrow
        rw [update_of_ne hne] at hrow
        exact ⟨fun hmem' => (mem_cons.mp hmem').elim hne hrest, hrow⟩
      have hproc' : k'.proc = (k.setFds p o).proc := by
        rw [hproc]
        unfold setFds setProc
        rw [hproc1]
      refine hQ k' o P' l' hproc' hold hmem hfiles ?_
      -- a file that is still open was open all the time
      intro f' hpos
      refine (hkind f' hpos).trans (hkind1 f' ?_)
      obtain ⟨i, j, hij⟩ := slots_pos.mp hpos
      refine slots_pos.mpr ⟨i, j, ?_⟩
      rw [ofile_setFds hproc'] at hij
      rw [ofile_setFd, hofile1]
      by_cases hip : i = p
      · rw [hip, update_self] at hij
        obtain ⟨hnot, hrow⟩ := hold j f' hij
        rw [hip, setSlot_ne]
        · exact hrow
        · rintro ⟨_, rfl⟩
          exact hnot mem_cons_self
      · rw [update_of_ne hip] at hij
        rw [setSlot_ne]
        · exact hij
        · rintro ⟨hbad, _⟩
          exact hip hbad

/-! ## Exit -/

theorem exited_proc (h : k'.proc = (k.setFds p o).proc) (q : ProcId) :
    (((k'.reparent p).setProc p { (k'.reparent p).proc p with
      xstate := status, state := .zombie }).proc
      q) = { k.proc q with
        parent := if (k.proc q).parent = some p then some initproc else (k.proc q).parent
        ofile := if q = p then o else (k.proc q).ofile
        xstate := if q = p then status else (k.proc q).xstate
        state := if q = p then .zombie else (k.proc q).state } := by
  have hrep : ∀ q, (k'.reparent p).proc q = { k'.proc q with
      parent := if (k'.proc q).parent = some p then some initproc else (k'.proc q).parent } := by
    intro q
    unfold reparent
    simp only
    split
    · rfl
    · rfl
  rcases eq_or_ne q p with rfl | hqp
  · rw [setProc_self, hrep, h]
    unfold setFds
    rw [setProc_self]
    simp only [↓reduceIte]
  · rw [setProc_ne _ _ hqp, hrep, h]
    unfold setFds
    rw [setProc_ne _ _ hqp]
    simp only [hqp, ↓reduceIte]

theorem exit_wp (h : Inv L R k g P l) (hp : (k.proc p).state = .runnable) :
    Wp (fun e => e = .initExiting ∧ p = initproc) (exit L p status)
      (fun _ k' => Post L R k g p (fun q => q = p) k') k := by
  refine Wp.ite_iff.mpr ⟨fun hinit => ⟨rfl, hinit⟩, fun hinit => ?_⟩
  refine Wp.bind (closeFds_wp h.mem h.files ?_)
  intro k₁ o P' l' hproc ho hmem hfiles hkind
  have hnone : ∀ fd, o fd = none := by
    intro fd
    cases hfd : o fd with
    | none => rfl
    | some f => exact absurd (mem_finRange fd) (ho fd f hfd).1
  rw [Wp.bind_iff, Wp.modify_iff]
  refine modifyProc_wp ?_
  generalize hk2 : (k₁.reparent p).setProc p { (k₁.reparent p).proc p with
    xstate := status, state := .zombie } = k₂
  have hfields : ∀ q, k₂.proc q = { k.proc q with
      parent := if (k.proc q).parent = some p then some initproc else (k.proc q).parent
      ofile := if q = p then o else (k.proc q).ofile
      xstate := if q = p then status else (k.proc q).xstate
      state := if q = p then .zombie else (k.proc q).state } := by
    intro q
    rw [← hk2]
    exact exited_proc hproc q
  have hstate : ∀ q, q ≠ p → (k₂.proc q).state = (k.proc q).state := by
    intro q hqp
    rw [hfields]
    exact if_neg hqp
  have hlive : k₂.live = k.live := by
    ext q
    rw [mem_live, mem_live]
    by_cases hqp : q = p
    · rw [hqp, hfields, hp]
      simp
    · rw [hstate q hqp]
  have hofile : k₂.ofile = k₁.ofile := by
    rw [ofile_setFds hproc]
    funext q
    unfold ofile
    rw [hfields]
    by_cases hqp : q = p
    · rw [hqp, update_self]
      simp only [↓reduceIte]
    · rw [update_of_ne hqp]
      simp only [hqp, ↓reduceIte]
  have hrest : k₂.phys = k₁.phys ∧ k₂.ftable = k₁.ftable ∧ k₂.pipe = k₁.pipe := by
    rw [← hk2]
    exact ⟨rfl, rfl, rfl⟩
  have hparent : ∀ q r, (k₂.proc q).parent = some r →
      r = initproc ∨ ((k.proc q).parent = some r ∧ r ≠ p) := by
    intro q r hr
    rw [hfields] at hr
    simp only at hr
    split at hr
    · exact .inl (Option.some.inj hr).symm
    rename_i hne
    refine .inr ⟨hr, ?_⟩
    rintro rfl
    exact hne hr
  refine ⟨g, P', l', ⟨?_, ?_, ?_, ?_, ?_, ?_, ?_⟩, hstate, ?_, fun _ _ => rfl, ?_, ?_⟩
  · rw [hlive, hrest.1]
    exact hmem
  · rw [hofile, hrest.2.1, hrest.2.2]
    exact hfiles
  · intro q hq
    have hlq : q ∈ k₂.live := mem_live.mpr hq
    rw [hlive, mem_live] at hlq
    have hag := h.share q hlq
    rw [hfields]
    exact ⟨hag.trapframe, hag.pagetable, hag.sz⟩
  · intro q hq
    have hqp : q ≠ p := by
      rintro rfl
      rw [hfields] at hq
      simp only [↓reduceIte] at hq
      cases hq
    rw [hstate q hqp] at hq
    have hblank := h.blank q hq
    rw [hfields, hblank]
    simp only [hqp, ↓reduceIte]
    rfl
  · intro q hq fd
    by_cases hqp : q = p
    · rw [hqp, hfields]
      simp only [↓reduceIte]
      exact hnone fd
    rw [hstate q hqp] at hq
    rw [hfields]
    simp only [hqp, ↓reduceIte]
    exact h.closed q hq fd
  · intro q r hr
    rcases hparent q r hr with rfl | ⟨hold, hrp⟩
    · rw [hstate initproc (Ne.symm hinit)]
      exact h.init
    · rw [hstate r hrp]
      exact h.parent q r hold
  · rw [hstate initproc (Ne.symm hinit)]
    exact h.init
  · intro q hqp
    rw [hfields]
    exact if_neg hqp
  · intro q r hr
    rcases hparent q r hr with rfl | ⟨hold, _⟩
    · exact .inr (.inl rfl)
    · exact .inl hold
  · intro f _ hpos
    rw [hofile] at hpos
    rw [hrest.2.1]
    exact hkind f hpos

/-! ## Wait -/

theorem zombieChild_spec (h : k.zombieChild p = some np) :
    (k.proc np).parent = some p ∧ (k.proc np).state = .zombie := by
  have hfind := List.find?_some h
  exact of_decide_eq_true hfind

theorem Inv.reap (h : Inv L R k g P l)
    (hz : (k.proc np).state = .zombie) (hmem : Memory L R s (k.live.erase np) g P l') (hX : X np) :
    Post L R k g p X { k.setProc np (k.proc np).freed with phys := s } := by
  have hblank : (k.proc np).freed = Pcb.free := by
    have hclosed := h.closed np (by rw [hz]; decide)
    unfold Pcb.freed Pcb.free
    rw [funext hclosed]
  rw [hblank]
  have hne : ∀ q, q ≠ np → (k.setProc np Pcb.free).proc q = k.proc q :=
    fun q hq => setProc_ne k _ hq
  have hself : (k.setProc np Pcb.free).proc np = Pcb.free := setProc_self k np _
  have hother : ∀ q, ¬X q → q ≠ np := by
    rintro q hq rfl
    exact hq hX
  have hlive : live { k.setProc np Pcb.free with phys := s } = k.live.erase np := by
    ext q
    rw [mem_live, Finset.mem_erase, mem_live]
    by_cases hq : q = np
    · rw [hq, hself]
      simp [Pcb.free]
    · rw [hne q hq]
      simp [hq]
  have hofile : ofile { k.setProc np Pcb.free with phys := s } = k.ofile := by
    funext q
    by_cases hq : q = np
    · have hclosed := h.closed np (by rw [hz]; decide)
      unfold ofile
      rw [hq, hself, funext hclosed]
      rfl
    · unfold ofile
      rw [hne q hq]
  refine ⟨g, P, l', ⟨?_, ?_, ?_, ?_, ?_, ?_, ?_⟩, ?_, ?_, fun _ _ => rfl, ?_, fun _ _ _ => rfl⟩
  · rw [hlive]
    exact hmem
  · rw [hofile]
    exact h.files
  · intro q hq
    have hq' : q ≠ np := by
      rintro rfl
      rw [hself] at hq
      exact hq rfl
    rw [hne q hq'] at hq ⊢
    exact h.share q hq
  · intro q hq
    by_cases hq' : q = np
    · rw [hq', hself]
    · rw [hne q hq'] at hq ⊢
      exact h.blank q hq
  · intro q hq fd
    by_cases hq' : q = np
    · rw [hq', hself]
      rfl
    · rw [hne q hq'] at hq ⊢
      exact h.closed q hq fd
  · intro q r hr
    have hq' : q ≠ np := by
      rintro rfl
      rw [hself] at hr
      cases hr
    rw [hne q hq'] at hr
    have hrun := h.parent q r hr
    have hr' : r ≠ np := by
      rintro rfl
      rw [hz] at hrun
      cases hrun
    rw [hne r hr']
    exact hrun
  · have hinit : initproc ≠ np := by
      rintro rfl
      rw [h.init] at hz
      cases hz
    rw [hne initproc hinit]
    exact h.init
  · exact fun q hq => congrArg Pcb.state (hne q (hother q hq))
  · exact fun q hq => congrArg Pcb.ofile (hne q (hother q hq))
  · intro q r hr
    by_cases hq' : q = np
    · rw [hq', hself] at hr
      cases hr
    · rw [hne q hq'] at hr
      exact .inl hr

theorem wait_wp (h : Inv L R k g P l) (hp : (k.proc p).state = .runnable) :
    Wp E (wait L p addr) (fun _ k' => Post L R k g p (fun q => k.zombieChild p = some q) k' ∧
      (addr = 0 → ∀ q, k.zombieChild p = some q → (k'.proc q).state = .unused)) k := by
  unfold wait
  rw [Wp.bind_iff, Wp.get_iff]
  cases hfind : k.zombieChild p with
  | none =>
    refine ⟨⟨g, P, l, h, Effect.refl k g p _⟩, fun _ q hq => ?_⟩
    cases hq
  | some np =>
    obtain ⟨_, hz⟩ := zombieChild_spec hfind
    have hlive := h.mem_of_runnable hp
    have hagree := h.share p (mem_live.mp hlive)
    have hnp : (k.proc np).state ≠ .unused := by
      rw [hz]
      decide
    -- freeing the child, in a state that differs in memory only
    have hreap : ∀ s l', Memory L R s k.live g P l' →
        Wp E (do freeproc L np; pure (some np))
          (fun _ k' => Post L R k g p (fun q => some np = some q) k' ∧
            (addr = 0 → ∀ q, some np = some q → (k'.proc q).state = .unused))
          { k with phys := s } := by
      intro s l' hs
      rw [Wp.bind_iff]
      refine freeproc_wp (k := { k with phys := s }) hs (mem_live.mpr hnp) (h.share np hnp) ?_
      intro t l'' ht
      refine ⟨h.reap hz ht rfl, fun _ q hq => ?_⟩
      cases hq
      exact congrArg Pcb.state (setProc_self k np _)
    refine Wp.ite_iff.mpr ⟨fun _ => hreap k.phys l h.mem, fun haddr => ?_⟩
    refine Wp.bind (copyoutInt_wp h.mem hlive hagree fun r s hs => ?_)
    refine Wp.ite_iff.mpr ⟨fun _ => hreap s l hs, fun _ => ?_⟩
    exact ⟨h.post_phys hs, fun hz => absurd hz haddr⟩

/-! ## Fork -/

theorem Inv.forked (h : Inv L R k g P l)
    (hp : (k.proc p).state = .runnable) (hnp : (k.proc np).state = .unused)
    (hproc : k'.proc = update k.proc np y) (hstate : y.state = .runnable)
    (hparent : y.parent = some p) (hag : Agrees y x)
    (hmem : Memory L R k'.phys (insert np k.live) (update g np x) P l')
    (hfiles : PipeFiles k'.ftable k'.pipe (slots k'.ofile) P)
    (hkind : ∀ f, (k'.ftable f).kind = (k.ftable f).kind) :
    Post L R k g p (fun q => q ∈ born k k') k' := by
  have hself : k'.proc np = y := by
    rw [hproc, update_self]
  have hne : ∀ q, q ≠ np → k'.proc q = k.proc q := by
    intro q hq
    rw [hproc, update_of_ne hq]
  -- a process that runs is not the new one
  have hold : ∀ q, (k.proc q).state = .runnable → q ≠ np := by
    rintro q hq rfl
    rw [hnp] at hq
    cases hq
  have hborn : np ∈ born k k' := by
    refine Finset.mem_filter.mpr ⟨Finset.mem_univ np, hnp, ?_⟩
    rw [hself, hstate]
    decide
  have hother : ∀ q, ¬q ∈ born k k' → q ≠ np := by
    rintro q hq rfl
    exact hq hborn
  have hlive : k'.live = insert np k.live := by
    ext q
    rw [mem_live, Finset.mem_insert, mem_live]
    by_cases hq : q = np
    · rw [hq, hself, hstate]
      simp
    · rw [hne q hq]
      simp [hq]
  refine ⟨update g np x, P, l', ⟨?_, hfiles, ?_, ?_, ?_, ?_, ?_⟩, ?_, ?_, ?_, ?_,
    fun f _ _ => hkind f⟩
  · rw [hlive]
    exact hmem
  · intro q hq
    by_cases hq' : q = np
    · rw [hq', hself, update_self]
      exact hag
    rw [hne q hq'] at hq ⊢
    rw [update_of_ne hq']
    exact h.share q hq
  · intro q hq
    have hq' : q ≠ np := by
      rintro rfl
      rw [hself, hstate] at hq
      cases hq
    rw [hne q hq'] at hq ⊢
    exact h.blank q hq
  · intro q hq
    have hq' : q ≠ np := by
      rintro rfl
      rw [hself] at hq
      exact hq hstate
    rw [hne q hq'] at hq ⊢
    exact h.closed q hq
  · intro q r hr
    by_cases hq' : q = np
    · rw [hq', hself, hparent] at hr
      cases hr
      rw [hne p (hold p hp)]
      exact hp
    · rw [hne q hq'] at hr
      have hrun := h.parent q r hr
      rw [hne r (hold r hrun)]
      exact hrun
  · rw [hne initproc (hold initproc h.init)]
    exact h.init
  · exact fun q hq => congrArg Pcb.state (hne q (hother q hq))
  · exact fun q hq => congrArg Pcb.ofile (hne q (hother q hq))
  · exact fun q hq => update_of_ne (hother q hq) ..
  · intro q r hr
    by_cases hq' : q = np
    · rw [hq', hself, hparent] at hr
      cases hr
      rw [hq']
      exact .inr (.inr ⟨hborn, rfl⟩)
    · rw [hne q hq'] at hr
      exact .inl hr

theorem copyTrapframe_wp {Q : Unit → Phys → Prop} (h : Memory L R s S g P l) (hp : np ∈ S)
    (hQ : ∀ t, Memory L R t S g P l → Q () t) : Wp E (copyTrapframe src (g np).trapframe) Q s := by
  unfold copyTrapframe
  rw [Wp.bind_iff, Wp.modify_iff, Vm.setPte_wp]
  refine hQ _ (h.frame_write hp rfl fun a ha => ?_)
  exact (Phys.setWord_page_ne ha).trans (Phys.setPage_ne ha)

/-- The child gets copies of the parent's pages, or none at all. -/
theorem uvmcopy_child_wp {a b : Share} {Q : Bool → Phys → Prop} (h : Memory L R s S g P l)
    (hp : p ∈ S) (hnp : np ∈ S) (hne : p ≠ np) (ha : g p = a) (hb : g np = b) (hsz : b.sz = 0)
    (hQ : ∀ ok t T' m' l', Memory L R t S (update g np
      ⟨b.trapframe, b.pagetable, if ok = true then a.sz else 0, T', m'⟩) P l' → Q ok t) :
    Wp E (Vm.uvmcopy L a.pagetable b.pagetable a.sz) Q s := by
  subst ha hb
  obtain ⟨hacc, _⟩ := h.account hnp
  have hzero : npages 0 = 0 := by decide
  rw [hsz, hzero] at hacc
  have hroot := (h.held np hnp).root
  have hle := Multiset.le_cons_self (Memory.part g l np) (g np).trapframe
  have hdis : ∀ a ∈ (g p).tables + (g p).user, a ∉ Memory.part g l np := by
    intro a ha hpart
    have hap : a ∈ (g p).pages := Multiset.mem_cons_of_mem ha
    rcases Multiset.mem_add.mp hpart with hown | hfree
    · exact hne (h.share_unique hp hnp hap (Multiset.mem_cons_of_mem hown))
    · exact h.share_not_free hp hap hfree
  refine Vm.uvmcopy_wp (h.held p hp).space hacc (procTop_low L _) hdis ?_ ?_
  · intro t T' m' l' ht _ hw
    exact hQ true t T' m' l' (h.update hnp hroot rfl ht (hw.mono hle))
  · intro t T' m' l' ht hw
    refine hQ false t T' m' l' (h.update hnp hroot rfl ?_ (hw.mono hle))
    change Account _ _ _ _ _ _ _ (npages 0) _
    rwa [hzero]

theorem ofile_setProc (hy : y.ofile = (k.proc np).ofile) : (k.setProc np y).ofile = k.ofile := by
  funext q
  unfold ofile
  by_cases hq : q = np
  · rw [hq, setProc_self, hy]
  · rw [setProc_ne k y hq]

section

variable {t : Phys} (h : Inv L R k g P l) (hnp : (k.proc np).state = .unused)
  (hmem : Memory L R t (insert np k.live) (update g np x) P l')
include h hnp hmem

/-- The rest of `fork` when the memory was copied. -/
theorem fork_child_wp (hp : (k.proc p).state = .runnable) (hsz : x.sz = (g p).sz) :
    Wp E (do
        modifyProc np fun y => { y with sz := (g p).sz, parent := some p }
        vm (copyTrapframe src x.trapframe)
        dupFds p np (List.finRange NOFILE)
        modifyProc np fun y => { y with state := .runnable }
        pure (some np))
      (fun _ k' => Post L R k g p (fun q => q ∈ born k k') k') (k.allocated np x t) := by
  refine Wp.bind (modifyProc_wp ?_)
  rw [Wp.bind_iff]
  -- the child's entry from here on
  generalize hy : ({ k.proc np with
    trapframe := x.trapframe, pagetable := x.pagetable, sz := (g p).sz,
    parent := some p } : Pcb) = y
  have hk1 : (k.allocated np x t).setProc np
      { (k.allocated np x t).proc np with sz := (g p).sz, parent := some p } =
      { k.setProc np y with phys := t } := by
    rw [← hy]
    unfold allocated setProc
    simp only [update_self, update_idem]
  have htf : x.trapframe = (update g np x np).trapframe := by rw [update_self]
  rw [hk1, htf]
  refine vm_wp (copyTrapframe_wp hmem (Finset.mem_insert_self np k.live) fun u hu => ?_)
  have hyrow : y.ofile = (k.proc np).ofile := by
    rw [← hy]
  have hofile : ofile { k.setProc np y with phys := u } = k.ofile := ofile_setProc hyrow
  rw [Wp.bind_iff]
  refine dupFds_wp (k := { k.setProc np y with phys := u }) (P := P) ?_ (nodup_finRange _) ?_ ?_
  · rw [hofile]
    exact h.files
  · intro fd _
    rw [setProc_self, hyrow, h.blank np hnp]
    rfl
  intro k₂ o hphys hproc hpipe hfiles hkind
  refine Wp.bind (modifyProc_wp ?_)
  have hproc' : (k₂.setProc np { k₂.proc np with state := .runnable }).proc =
      update k.proc np { y with ofile := o, state := .runnable } := by
    unfold setProc
    rw [hproc]
    unfold setFds setProc
    simp only [update_self, update_idem]
  have hu' : Memory L R k₂.phys (insert np k.live) (update g np x) P l' := by
    rw [hphys]
    exact hu
  rw [Wp.pure_iff]
  refine h.forked hp hnp hproc' rfl (by rw [← hy]) ?_ hu' ?_ hkind
  · rw [← hy]
    exact ⟨rfl, rfl, hsz.symm⟩
  · rw [ofile_setProc (y := { k₂.proc np with state := .runnable }) rfl]
    exact hfiles

/-- The rest of `fork` when it was not: `freeproc` leaves the state as it was before
`allocproc`. -/
theorem fork_fail_wp (hsz : x.sz = 0) :
    Wp E (do
        freeproc L np
        pure (none : Option ProcId))
      (fun _ k' => Post L R k g p (fun q => q ∈ born k k') k') (k.allocated np x t) := by
  have hnew : np ∉ k.live := fun hin => mem_live.mp hin hnp
  have hblank := h.blank np hnp
  have hself : (k.allocated np x t).proc np =
      { k.proc np with trapframe := x.trapframe, pagetable := x.pagetable } := setProc_self k np _
  rw [Wp.bind_iff]
  refine freeproc_wp (k := k.allocated np x t) hmem (Finset.mem_insert_self np k.live) ?_ ?_
  · rw [hself, update_self, hblank]
    exact ⟨rfl, rfl, hsz.symm⟩
  intro u l3 hu
  rw [Finset.erase_insert hnew] at hu
  have hfreed : ((k.allocated np x t).proc np).freed = k.proc np := by
    rw [hself, hblank]
    rfl
  have hback : ({ (k.allocated np x t).setProc np ((k.allocated np x t).proc np).freed with
      phys := u } : Kern) = { k with phys := u } := by
    rw [hfreed]
    unfold allocated setProc
    simp only [update_idem, update_eq_self]
  rw [Wp.pure_iff, hback]
  refine h.post_phys (hu.shares_congr fun q hq => ?_)
  rw [update_of_ne]
  rintro rfl
  exact hnew hq

end

theorem fork_wp (h : Inv L R k g P l) (hp : (k.proc p).state = .runnable) :
    Wp E (fork L p) (fun _ k' => Post L R k g p (fun q => q ∈ born k k') k') k := by
  have hlive := h.mem_of_runnable hp
  have hagree := h.share p (mem_live.mp hlive)
  unfold fork
  refine Wp.bind (allocproc_wp h.mem ?_ ?_ ?_)
  · intro q hq
    exact ⟨fun hmem => mem_live.mp hmem hq, h.blank q hq⟩
  · intro s l' hs
    exact h.post_phys hs
  intro np x s l' hfind hsz hmem
  have hnp := unusedProc_spec hfind
  have hne : p ≠ np := by
    rintro rfl
    rw [hp] at hnp
    cases hnp
  have hpp : (k.allocated np x s).proc p = k.proc p := setProc_ne k _ hne
  have hpnp : (k.allocated np x s).proc np =
      { k.proc np with trapframe := x.trapframe, pagetable := x.pagetable } := setProc_self k np _
  refine Wp.bind (getProc_wp ?_)
  refine Wp.bind (getProc_wp ?_)
  rw [hpp, hpnp, hagree.pagetable, hagree.sz]
  refine Wp.bind (vm_wp (uvmcopy_child_wp hmem (Finset.mem_insert_of_mem hlive)
    (Finset.mem_insert_self np k.live) hne (update_of_ne hne ..) (update_self ..) hsz ?_))
  intro ok t T' m' l'' hmem'
  rw [update_idem] at hmem'
  cases ok with
  | true =>
    rw [if_pos rfl] at hmem' ⊢
    exact fork_child_wp (x := ⟨_, _, _, T', m'⟩) h hnp hmem' hp rfl
  | false =>
    rw [if_neg Bool.false_ne_true] at hmem' ⊢
    exact fork_fail_wp (x := ⟨_, _, _, T', m'⟩) h hnp hmem' rfl

end Kern

end Xv6.Kernel
