import Xv6.Proofs.PageRuns
/-!
# Address spaces and the owners of pages

What every reachable state says about the page tables of processes and about
each page of physical memory.
-/

namespace Xv6.Kernel

open Xv6.Lib Function Multiset

namespace Kern

variable {L : Link} {R : Multiset Nat} {k k₀ k₁ k' : Kern} {g g' : ProcId → Share}
  {P P' : Finset Nat} {l l' l₀ : List Nat} {p np : ProcId} {a : Action}
  {x y : Kern × Finset ProcId} {S : Finset ProcId} {s : Phys} {q : ProcId} {α : Type*}
  {as before after : List Kern.Action} {r : α} {v tf uargv pa fuel : Nat} {e : Nat × UInt64}
  {path : Option (Option Exe)} {ok : Kern × Finset ProcId → Kern.Action → Bool}
  {C : Kern × Finset ProcId → Kern.Action → Prop}

/-! ## A kernel that has just booted -/

def lastRange : Nat → List Nat
  | 0 => []
  | n + 1 => lastRange n ++ [PHYSTOP - (n + 1) * PGSIZE]

def freerange (s : Phys) : List Nat → Phys
  | [] => s
  | pa :: rest => (freerange s rest).freed pa

theorem freerange_freeList (h : FreeList L s []) (hnd : l.Nodup)
    (hpage : ∀ pa ∈ l, L.isPage pa) : FreeList L (freerange s l) l := by
  induction l with
  | nil => exact h
  | cons pa rest ih =>
    obtain ⟨hnew, hnd⟩ := List.nodup_cons.mp hnd
    have hrest := ih hnd fun b hb => hpage b (List.mem_cons_of_mem pa hb)
    exact hrest.freed (hpage pa List.mem_cons_self) hnew

def booted (n : Nat) : Kern where
  phys := freerange ⟨fun _ => Bytes.zero, 0, []⟩ (lastRange n)
  proc := fun _ => Pcb.free
  ftable := fun _ => ⟨.none, 0⟩
  pipe := fun _ => ⟨false, false⟩

def started (n : Nat) : Option Kern :=
  match userinit Vm.lastPages (booted n) with
  | .ok (_, k) => some k
  | .error _ => none

theorem started_spec (hk : started 24 = some k)
    (hm : (Vm.vmap k.phys (k.proc initproc).pagetable 0).isSome) :
    Started Vm.lastPages (booted 24) (lastRange 24) k := by
  have hempty : FreeList Vm.lastPages ⟨fun _ => Bytes.zero, 0, []⟩ [] :=
    ⟨rfl, List.nodup_nil, fun _ h => absurd h List.not_mem_nil⟩
  have hpage : ∀ pa ∈ lastRange 24, Vm.lastPages.isPage pa := by
    unfold Link.isPage
    decide +kernel
  refine ⟨⟨freerange_freeList hempty (by decide +kernel) hpage, fun _ => rfl, fun _ => rfl⟩, ?_,
    Option.isSome_iff_ne_none.mp hm⟩
  unfold started at hk
  split at hk
  · rename_i k' hrun
    cases hk
    exact hrun
  · cases hk

/-- What a kernel with 24 pages shows after `init` has started and the calls `as` were made. -/
def startedRun (as : List Action) (f : Kern → α) : Option (Bool × α) :=
  (started 24).bind fun k₁ => (Lib.exec (step Vm.lastPages) (fun _ _ => true) k₁ as).map fun k =>
    ((Vm.vmap k₁.phys (k₁.proc initproc).pagetable 0).isSome, f k)

theorem startedRun_spec {f : Kern → α} (h : startedRun as f = some (true, r)) :
    ∃ k₁ k, Started Vm.lastPages (booted 24) (lastRange 24) k₁ ∧
      Reaches (step Vm.lastPages) (fun _ _ => True) k₁ k ∧ f k = r := by
  obtain ⟨k₁, hk, h⟩ := Option.bind_eq_some_iff.mp h
  obtain ⟨k, hrun, h⟩ := Option.map_eq_some_iff.mp h
  obtain ⟨hm, hf⟩ := Prod.mk.inj h
  exact ⟨k₁, k, started_spec hk hm, .exec .refl (fun _ _ _ _ => trivial) hrun, hf⟩

theorem one_lt_NPROC : 1 < NPROC := by decide

def second : ProcId := ⟨1, one_lt_NPROC⟩

instance : NeZero NOFILE := ⟨by decide⟩

instance : NeZero NFILE := ⟨by decide⟩

def headerOnly : Exe where
  read := fun off n =>
    if off = 0 ∧ n = 64 then [0x7F, 0x45, 0x4C, 0x46] ++ List.replicate 60 0 else []
  short := by
    intro off n
    split
    · rename_i h
      rw [h.2]
      decide
    · exact Nat.zero_le n

/-! ## The shape of an address space -/

def pageMap (k : Kern) (p : ProcId) : Vmap := Vm.vmap k.phys (k.proc p).pagetable

/-- The address space of `p`: the pages of its memory, its trapframe and the
trampoline, and nothing else. -/
structure Shape (L : Link) (k : Kern) (p : ProcId) : Prop where
  leaf : ∀ v pa f, v < 512 ^ 3 → k.pageMap p v = some (pa, f) → isLeaf f
  mapped : ∀ v, v < 512 ^ 3 → (k.pageMap p v ≠ none ↔
    v < npages (k.proc p).sz ∨ v = TRAPFRAME / PGSIZE ∨ v = TRAMPOLINE / PGSIZE)
  frame : ∃ f, k.pageMap p (TRAPFRAME / PGSIZE) = some ((k.proc p).trapframe, f) ∧
    f &&& PTE_U = 0
  tramp : ∃ f, k.pageMap p (TRAMPOLINE / PGSIZE) = some (L.trampoline, f) ∧ f &&& PTE_U = 0

theorem Inv.pageMap_eq (h : Inv L R k g P l) (hp : (k.proc p).state ≠ .unused)
    (hv : v < 512 ^ 3) : k.pageMap p v = (g p).map v := by
  have htab := (h.mem.held p (mem_live.mpr hp)).space.table
  unfold pageMap
  rw [(h.share p hp).pagetable]
  exact htab.lookup v hv

theorem procTop_cases (h : procTop L tf v = some e) :
    (v = TRAPFRAME / PGSIZE ∧ e = (tf, PTE_R ||| PTE_W ||| PTE_V)) ∨
      (v = TRAMPOLINE / PGSIZE ∧ e = (L.trampoline, PTE_R ||| PTE_X ||| PTE_V)) := by
  unfold procTop at h
  by_cases hf : v = TRAPFRAME / PGSIZE
  · rw [hf, update_self] at h
    exact .inl ⟨hf, (Option.some.inj h).symm⟩
  rw [update_of_ne hf] at h
  by_cases ht : v = TRAMPOLINE / PGSIZE
  · rw [ht, update_self] at h
    exact .inr ⟨ht, (Option.some.inj h).symm⟩
  · rw [update_of_ne ht] at h
    cases h

theorem procTop_frame (L : Link) (tf : Nat) :
    procTop L tf (TRAPFRAME / PGSIZE) = some (tf, PTE_R ||| PTE_W ||| PTE_V) :=
  update_self ..

theorem procTop_tramp (L : Link) (tf : Nat) :
    procTop L tf (TRAMPOLINE / PGSIZE) = some (L.trampoline, PTE_R ||| PTE_X ||| PTE_V) := by
  unfold procTop
  rw [update_of_ne (by decide), update_self]

theorem Inv.shape (h : Inv L R k g P l) (hp : (k.proc p).state ≠ .unused) : Shape L k p := by
  have hlive := mem_live.mpr hp
  have hspace := (h.mem.held p hlive).space
  have hbound := (h.mem.account hlive).1.bound
  have hag := h.share p hp
  have htf : TRAPFRAME / PGSIZE = 67108862 := by decide
  have htr : TRAMPOLINE / PGSIZE = 67108863 := by decide
  -- above user memory the table agrees with `procTop`
  have hrest : ∀ v, npages (k.proc p).sz ≤ v → v < 512 ^ 3 →
      k.pageMap p v = procTop L (k.proc p).trapframe v := by
    intro v hge hv
    rw [h.pageMap_eq hp hv, hag.trapframe]
    rw [hag.sz] at hge
    exact hspace.rest v hge hv
  rw [← hag.sz] at hbound
  refine ⟨?_, ?_, ?_, ?_⟩
  · intro v pa f hv hm
    by_cases huser : v < npages (k.proc p).sz
    · rw [hag.sz] at huser
      obtain ⟨pa', f', hm', hleaf, _⟩ := hspace.user v huser
      rw [h.pageMap_eq hp hv, hm'] at hm
      cases hm
      exact hleaf
    rw [hrest v (Nat.not_lt.mp huser) hv] at hm
    rcases procTop_cases hm with ⟨_, he⟩ | ⟨_, he⟩
    · cases he
      unfold isLeaf
      decide
    · cases he
      unfold isLeaf
      decide
  · intro v hv
    by_cases huser : v < npages (k.proc p).sz
    · refine ⟨fun _ => .inl huser, fun _ => ?_⟩
      rw [hag.sz] at huser
      obtain ⟨pa', f', hm', _⟩ := hspace.user v huser
      rw [h.pageMap_eq hp hv, hm']
      exact Option.some_ne_none _
    rw [hrest v (Nat.not_lt.mp huser) hv]
    constructor
    · intro hne
      obtain ⟨e, he⟩ := Option.ne_none_iff_exists'.mp hne
      rcases procTop_cases he with ⟨hvf, _⟩ | ⟨hvt, _⟩
      · exact .inr (.inl hvf)
      · exact .inr (.inr hvt)
    rintro (hlt | rfl | rfl)
    · exact absurd hlt huser
    · rw [procTop_frame]
      exact Option.some_ne_none _
    · rw [procTop_tramp]
      exact Option.some_ne_none _
  · refine ⟨PTE_R ||| PTE_W ||| PTE_V, ?_, by decide⟩
    rw [hrest _ (by omega) (by omega), procTop_frame]
  · refine ⟨PTE_R ||| PTE_X ||| PTE_V, ?_, by decide⟩
    rw [hrest _ (by omega) (by omega), procTop_tramp]

/-- In every reachable state each process has its memory, its trapframe and the
trampoline mapped and nothing else, and no call stops the kernel but the exit of
`init`. -/
theorem address_space_shape (hstart : Started L k₀ l₀ k₁)
    (hreach : Reaches (step L) (fun _ _ => True) k₁ k) :
    (∀ p, (k.proc p).state ≠ .unused → Shape L k p) ∧
      ∀ (a : Action) e, (k.proc a.p).state = .runnable →
        syscall L a.p a.call (k.withDeny a.deny) = .error e → e = .initExiting ∧
          a.p = initproc := by
  obtain ⟨g, P, l, h⟩ := reaches_inv hstart.inv hreach
  exact ⟨fun p hp => h.shape hp, fun a e hp hrun => syscall_error h hp hrun⟩

theorem exec_state (q : ProcId) : Wp (fun _ => True) (syscall L p (.exec path uargv))
    (fun _ k' => (k'.proc q).state = (k.proc q).state) k := by
  refine Wp.bind_iff.mpr (Wp.bind_iff.mpr (getProc_wp (Wp.bind_iff.mpr (vm_wp ?_))))
  refine Wp.of_forall fun image t => ?_
  cases image with
  | none => rfl
  | some image =>
    refine Wp.bind_iff.mpr (modifyProc_wp ?_)
    by_cases hq : q = p
    · simp only [Wp.pure_iff, setProc, hq, update_self]
    · simp only [Wp.pure_iff, setProc, update_of_ne hq]

/-- The child of `init` grows and runs a program. -/
theorem address_space_shape_exec : ∃ k₁ k k', Started Vm.lastPages (booted 24) (lastRange 24) k₁ ∧
    Reaches (step Vm.lastPages) (fun _ _ => True) k₁ k ∧ (k.proc second).sz = PGSIZE + 5000 ∧
    step Vm.lastPages k ⟨second, .exec (some (some headerOnly)) PGSIZE, []⟩ = some k' ∧
    Shape Vm.lastPages k' second ∧ Shape Vm.lastPages k' initproc := by
  have hrun : startedRun [⟨initproc, .fork, []⟩, ⟨second, .sbrk 5000, []⟩]
      (fun k => ((k.proc initproc).state, (k.proc second).state, (k.proc second).sz)) =
      some (true, .runnable, .runnable, PGSIZE + 5000) := by
    decide +kernel
  obtain ⟨k₁, k, hstart, hreach, hk⟩ := startedRun_spec hrun
  simp only [Prod.mk.injEq] at hk
  obtain ⟨hinit, hsecond, hsz⟩ := hk
  have hnext := (address_space_shape hstart hreach).2
    ⟨second, .exec (some (some headerOnly)) PGSIZE, []⟩
  cases hcall : syscall Vm.lastPages second (.exec (some (some headerOnly)) PGSIZE)
      (k.withDeny []) with
  | error e => exact absurd (hnext e hsecond hcall).2 (by decide)
  | ok x =>
    have hstep : step Vm.lastPages k ⟨second, .exec (some (some headerOnly)) PGSIZE, []⟩ =
        some x.2 := by
      simp only [step, if_pos hsecond, hcall]
    have hkept := fun q => (exec_state q).of_ok hcall
    have hshape := (address_space_shape hstart (.step _ hreach trivial hstep)).1
    refine ⟨k₁, k, _, hstart, hreach, hsz, hstep, hshape _ ?_, hshape _ ?_⟩
    · rw [hkept, withDeny, hsecond]
      decide
    · rw [hkept, withDeny, hinit]
      decide

/-! ## References to files -/

/-- In every reachable state a file counts the descriptors that refer to it and is open while
there are any.  No two files are the same end of a pipe; an end of an open pipe is open while a
file is that end.  A process that has exited has no descriptors. -/
theorem file_references (hstart : Started L k₀ l₀ k₁)
    (hreach : Reaches (step L) (fun _ _ => True) k₁ k) :
    (∀ f, (k.ftable f).ref = slots k.ofile f ∧
      ((k.ftable f).kind = .none ↔ ∀ p fd, (k.proc p).ofile fd ≠ some f)) ∧
    (∀ f f' pi w, (k.ftable f).kind = .pipe pi w → (k.ftable f').kind = .pipe pi w → f = f') ∧
    (∀ f pi w w', (k.ftable f).kind = .pipe pi w' →
      ((k.pipe pi).isOpen w = true ↔ ∃ f', (k.ftable f').kind = .pipe pi w)) ∧
    ∀ p, (k.proc p).state ≠ .runnable → ∀ fd, (k.proc p).ofile fd = none := by
  obtain ⟨g, P, l, h⟩ := reaches_inv hstart.inv hreach
  refine ⟨fun f => ⟨h.files.count f, ?_⟩, h.files.unique, fun f pi w w' hf => ?_, h.closed⟩
  · rw [h.files.kind f, ← Nat.le_zero, ← Nat.not_lt, slots_pos]
    push Not
    rfl
  · exact h.files.ends pi ((h.files.opened pi).mpr ⟨f, w', hf⟩) w

/-- `init` opens a pipe, forks and closes its write end. -/
theorem file_references_pipe : ∃ k₁ k r w pi, Started Vm.lastPages (booted 24) (lastRange 24) k₁ ∧
    Reaches (step Vm.lastPages) (fun _ _ => True) k₁ k ∧
    (k.ftable r).kind = .pipe pi false ∧ slots k.ofile r = 2 ∧
    (k.ftable w).kind = .pipe pi true ∧ slots k.ofile w = 1 := by
  have hrun : startedRun [⟨initproc, .pipe 0, []⟩, ⟨initproc, .fork, []⟩, ⟨initproc, .close 1, []⟩]
      (fun k => ((k.ftable 0).kind, (k.ftable 0).ref, (k.ftable 1).kind, (k.ftable 1).ref)) =
      some (true, .pipe 2281668608 false, 2, .pipe 2281668608 true, 1) := by
    decide +kernel
  obtain ⟨k₁, k, hstart, hreach, hk⟩ := startedRun_spec hrun
  simp only [Prod.mk.injEq] at hk
  obtain ⟨hr, hrefr, hw, hrefw⟩ := hk
  have hcount := fun f => ((file_references hstart hreach).1 f).1
  rw [hcount] at hrefr hrefw
  exact ⟨k₁, k, 0, 1, _, hstart, hreach, hr, by exact_mod_cast hrefr, hw, by exact_mod_cast hrefw⟩

/-! ## Owners -/

inductive Owner where
  | free
  | trapframe (p : ProcId)
  | table (p : ProcId)
  | leaf (p : ProcId) (v : Nat)
  | pipe
  | kernel
  deriving DecidableEq

/-- Who owns page `a`, when `l₀` were the free pages after booting. -/
def Owns (L : Link) (l₀ : List Nat) (k : Kern) : Owner → Nat → Prop
  | .free, a => ∃ l, FreeList L k.phys l ∧ a ∈ l
  | .trapframe p, a => (k.proc p).state ≠ .unused ∧ (k.proc p).trapframe = a
  | .table p, a => (k.proc p).state ≠ .unused ∧
      a ∈ sv39.tables k.phys.word 2 (k.proc p).pagetable
  | .leaf p v, a => (k.proc p).state ≠ .unused ∧ v < npages (k.proc p).sz ∧
      ∃ f, k.pageMap p v = some (a, f)
  | .pipe, a => ∃ f w, (k.ftable f).kind = .pipe a w
  | .kernel, a => a ∉ l₀

def Located (l₀ : List Nat) (S : Finset ProcId) (g : ProcId → Share) (P : Finset Nat)
    (l : List Nat) : Owner → Nat → Prop
  | .free, a => a ∈ l
  | .trapframe p, a => p ∈ S ∧ a = (g p).trapframe
  | .table p, a => p ∈ S ∧ a ∈ (g p).tables
  | .leaf p v, a => p ∈ S ∧ v < npages (g p).sz ∧ ∃ f, (g p).map v = some (a, f)
  | .pipe, a => a ∈ P
  | .kernel, a => a ∉ l₀

theorem Inv.owns_iff (h : Inv L R k g P l) (o : Owner) (a : Nat) :
    Owns L l₀ k o a ↔ Located l₀ k.live g P l o a := by
  cases o with
  | free =>
    constructor
    · rintro ⟨l', hfl, ha⟩
      rw [hfl.unique h.mem.free] at ha
      exact ha
    · exact fun ha => ⟨l, h.mem.free, ha⟩
  | trapframe p =>
    simp only [Owns, Located, mem_live]
    refine and_congr_right fun hp => ?_
    rw [(h.share p hp).trapframe]
    exact eq_comm
  | table p =>
    simp only [Owns, Located, mem_live]
    refine and_congr_right fun hp => ?_
    rw [(h.share p hp).pagetable, (h.mem.held p (mem_live.mpr hp)).space.table.tables]
  | leaf p v =>
    simp only [Owns, Located, mem_live]
    refine and_congr_right fun hp => ?_
    have hbound := (h.mem.account (mem_live.mpr hp)).1.bound
    rw [(h.share p hp).sz]
    refine and_congr_right fun hv => ?_
    rw [h.pageMap_eq hp (by omega)]
  | pipe => exact (h.files.opened a).symm
  | kernel => exact Iff.rfl

theorem mem_pages_of_located {o : Owner} {a : Nat} (h : Located l₀ S g P l o a) : match o with
    | .trapframe p => p ∈ S ∧ a ∈ (g p).pages
    | .table p => p ∈ S ∧ a ∈ (g p).pages
    | .leaf p _ => p ∈ S ∧ a ∈ (g p).pages
    | _ => True := by
  cases o with
  | free => trivial
  | trapframe p =>
    obtain ⟨hp, rfl⟩ := h
    exact ⟨hp, mem_cons_self _ _⟩
  | table p => exact ⟨h.1, mem_cons_of_mem (mem_add.mpr (.inl h.2))⟩
  | leaf p v =>
    obtain ⟨hp, hv, f, hm⟩ := h
    refine ⟨hp, mem_cons_of_mem (mem_add.mpr (.inr ?_))⟩
    exact Vmap.mem_pages.mpr ⟨v, f, hv, by rwa [Nat.zero_add]⟩
  | pipe => trivial
  | kernel => trivial

theorem located_unique_proc {o o' : Owner} {a : Nat} (h : Memory L R s S g P l) (hq : q ∈ S)
    (ho : o = .trapframe q ∨ o = .table q ∨ ∃ v, o = .leaf q v)
    (ho' : o' = .trapframe q ∨ o' = .table q ∨ ∃ v, o' = .leaf q v)
    (hl : Located l₀ S g P l o a) (hl' : Located l₀ S g P l o' a) : o = o' := by
  have hnd : (g q).pages.Nodup := share_nodup (f := fun q => (g q).pages) h.nodup_shares hq
  obtain ⟨hframe, hrest⟩ := nodup_cons.mp hnd
  obtain ⟨_, hnduser, hdis⟩ := nodup_add.mp hrest
  have huser : ∀ v, Located l₀ S g P l (.leaf q v) a → a ∈ (g q).user := by
    rintro v ⟨_, hv, f, hm⟩
    exact Vmap.mem_pages.mpr ⟨v, f, hv, by rwa [Nat.zero_add]⟩
  have hnotframe : ∀ b, b ∈ (g q).tables + (g q).user → b ≠ (g q).trapframe := by
    rintro b hb rfl
    exact hframe hb
  rcases ho with rfl | rfl | ⟨v, rfl⟩ <;> rcases ho' with rfl | rfl | ⟨v', rfl⟩
  · rfl
  · exact absurd hl.2 (hnotframe a (mem_add.mpr (.inl hl'.2)))
  · exact absurd hl.2 (hnotframe a (mem_add.mpr (.inr (huser v' hl'))))
  · exact absurd hl'.2 (hnotframe a (mem_add.mpr (.inl hl.2)))
  · rfl
  · exact absurd (huser v' hl') (disjoint_left.mp hdis hl.2)
  · exact absurd hl'.2 (hnotframe a (mem_add.mpr (.inr (huser v hl))))
  · exact absurd (huser v hl) (disjoint_left.mp hdis hl'.2)
  obtain ⟨_, hv, f, hm⟩ := hl
  obtain ⟨_, hv', f', hm'⟩ := hl'
  have heq : v = v' := by
    refine holder_unique (S := Finset.range (npages (g q).sz))
      (f := fun i => ((g q).map (0 + i)).elim 0 fun e => {e.1}) (a := a) hnduser
      (Finset.mem_range.mpr hv) (Finset.mem_range.mpr hv') ?_ ?_
    · rw [Nat.zero_add, hm]
      exact mem_singleton_self a
    · rw [Nat.zero_add, hm']
      exact mem_singleton_self a
  rw [heq]

theorem located_unique (h : Memory L l₀ s S g P l) (a : Nat) : ∃! o, Located l₀ S g P l o a := by
  have hmem : ∀ b, b ∈ l₀ ↔ (∃ p ∈ S, b ∈ (g p).pages) ∨ b ∈ P ∨ b ∈ l := by
    intro b
    have htot : b ∈ (l₀ : Multiset Nat) ↔
        b ∈ ∑ p ∈ S, (g p).pages + P.val + (l : Multiset Nat) := by
      rw [h.total]
    have hcoe : b ∈ (l₀ : Multiset Nat) ↔ b ∈ l₀ := Iff.rfl
    rw [← hcoe, htot, mem_add, mem_add, mem_sum, or_assoc]
    exact Iff.rfl
  by_cases ha : a ∈ l₀
  · rcases (hmem a).mp ha with ⟨p, hp, hap⟩ | hP | hl
    · -- in the share of `p`
      have hone : ∃ o, Located l₀ S g P l o a ∧
          (o = .trapframe p ∨ o = .table p ∨ ∃ v, o = .leaf p v) := by
        rcases mem_cons.mp hap with rfl | hrest
        · exact ⟨.trapframe p, ⟨hp, rfl⟩, .inl rfl⟩
        rcases mem_add.mp hrest with hT | hu
        · exact ⟨.table p, ⟨hp, hT⟩, .inr (.inl rfl)⟩
        obtain ⟨v, f, hv, hm⟩ := Vmap.mem_pages.mp hu
        rw [Nat.zero_add] at hm
        exact ⟨.leaf p v, ⟨hp, hv, f, hm⟩, .inr (.inr ⟨v, rfl⟩)⟩
      obtain ⟨o, ho, hshape⟩ := hone
      refine ⟨o, ho, fun o' ho' => ?_⟩
      have hplace := mem_pages_of_located ho'
      have hsame : ∀ q, q ∈ S ∧ a ∈ (g q).pages → q = p :=
        fun q hq => h.share_unique hq.1 hp hq.2 hap
      refine located_unique_proc h hp ?_ hshape ho' ho
      cases o' with
      | free => exact absurd ho' (h.share_not_free hp hap)
      | trapframe q => exact .inl (by rw [hsame q hplace])
      | table q => exact .inr (.inl (by rw [hsame q hplace]))
      | leaf q v => exact .inr (.inr ⟨v, by rw [hsame q hplace]⟩)
      | pipe => exact absurd ho' (h.share_not_pipe hp hap)
      | kernel => exact absurd ha ho'
    · refine ⟨.pipe, hP, fun o' ho' => ?_⟩
      have hplace := mem_pages_of_located ho'
      cases o' with
      | free => exact absurd ho' (h.pipe_not_free hP)
      | trapframe q => exact absurd hP (h.share_not_pipe hplace.1 hplace.2)
      | table q => exact absurd hP (h.share_not_pipe hplace.1 hplace.2)
      | leaf q v => exact absurd hP (h.share_not_pipe hplace.1 hplace.2)
      | pipe => rfl
      | kernel => exact absurd ha ho'
    · refine ⟨.free, hl, fun o' ho' => ?_⟩
      have hplace := mem_pages_of_located ho'
      cases o' with
      | free => rfl
      | trapframe q => exact absurd hl (h.share_not_free hplace.1 hplace.2)
      | table q => exact absurd hl (h.share_not_free hplace.1 hplace.2)
      | leaf q v => exact absurd hl (h.share_not_free hplace.1 hplace.2)
      | pipe => exact absurd hl (h.pipe_not_free ho')
      | kernel => exact absurd ha ho'
  · refine ⟨.kernel, ha, fun o' ho' => ?_⟩
    have hplace := mem_pages_of_located ho'
    cases o' with
    | free => exact absurd ((hmem a).mpr (.inr (.inr ho'))) ha
    | trapframe q => exact absurd ((hmem a).mpr (.inl ⟨q, hplace⟩)) ha
    | table q => exact absurd ((hmem a).mpr (.inl ⟨q, hplace⟩)) ha
    | leaf q v => exact absurd ((hmem a).mpr (.inl ⟨q, hplace⟩)) ha
    | pipe => exact absurd ((hmem a).mpr (.inr (.inl ho'))) ha
    | kernel => rfl

/-! ## Counting free pages -/

theorem countFree_eq (h : Chain s.next pa l) (hlen : l.length ≤ fuel) :
    countFree s fuel pa = l.length := by
  induction l generalizing pa fuel with
  | nil =>
    have hz : pa = 0 := h
    cases fuel with
    | zero => rfl
    | succ fuel =>
      unfold countFree
      rw [if_pos hz]
      rfl
  | cons b l ih =>
    obtain ⟨hhead, hne, htail⟩ := h
    cases fuel with
    | zero => exact absurd hlen (Nat.not_succ_le_zero _)
    | succ fuel =>
      unfold countFree
      rw [hhead, if_neg hne, ih htail (Nat.le_of_succ_le_succ hlen), List.length_cons]

theorem freePages_eq (h : FreeList L k.phys l) : k.freePages = l.length := by
  have hcard := card_le (P := (l : Multiset Nat)) h.nodup h.ram
  rw [coe_card] at hcard
  refine countFree_eq h.chain (hcard.trans ?_)
  decide

theorem Inv.count (h : Inv L R k g P l) :
    ∑ p ∈ k.live, (g p).pages.card + P.card + k.freePages = R.card := by
  rw [freePages_eq h.mem.free, ← h.mem.total, card_add, card_add, coe_card, card_sum]
  rfl

theorem Inv.same_pipes (h : Inv L R k g P l) (h' : Inv L R k' g' P' l')
    (hofile : k'.ofile = k.ofile)
    (hkind : ∀ f, 0 < slots k.ofile f → (k'.ftable f).kind = (k.ftable f).kind) : P' = P := by
  have hsame : ∀ f, (k'.ftable f).kind = (k.ftable f).kind := by
    intro f
    by_cases hpos : 0 < slots k.ofile f
    · exact hkind f hpos
    · have hz := Nat.eq_zero_of_not_pos hpos
      rw [(h.files.kind f).mpr hz, (h'.files.kind f).mpr (by rw [hofile]; exact hz)]
  ext pi
  rw [h.files.opened, h'.files.opened]
  simp only [hsame]

/-- What a family leaves alone: `k` is the state before it, `x` a state with the
family as it is there. -/
structure Apart (L : Link) (R : Multiset Nat) (k : Kern) (g : ProcId → Share)
    (x : Kern × Finset ProcId) : Prop where
  inv : ∃ g' P' l', Inv L R x.1 g' P' l' ∧ ∀ q, q ∉ x.2 → g' q = g q
  state : ∀ q, q ∉ x.2 → (x.1.proc q).state = (k.proc q).state
  ofile : ∀ q, q ∉ x.2 → (x.1.proc q).ofile = (k.proc q).ofile
  kind : ∀ q fd f, q ∉ x.2 → (k.proc q).ofile fd = some f →
    (x.1.ftable f).kind = (k.ftable f).kind
  parent : ∀ q r, (x.1.proc q).parent = some r → r ∈ x.2 → q ∈ x.2
  init : initproc ∉ x.2
  fresh : ∀ q, q ∈ x.2 → (k.proc q).state = .unused

theorem mem_born : q ∈ born k k' ↔ (k.proc q).state = .unused ∧ (k'.proc q).state ≠ .unused := by
  unfold born
  rw [Finset.mem_filter]
  exact ⟨fun h => h.2, fun h => ⟨Finset.mem_univ q, h⟩⟩

theorem not_born (h : (k.proc q).state = .runnable) : q ∉ born k k' := by
  intro hborn
  have hun := (mem_born.mp hborn).1
  rw [h] at hun
  cases hun

theorem Apart.start (h : Inv L R k g P l) (hcall : a.call = .fork) (hstep : step L k a = some k') :
    Apart L R k g (k', born k k') := by
  obtain ⟨g', P', l', hinv, heff⟩ := step_post h hstep
  have htouched : ∀ q, touched k a k' q ↔ q ∈ born k k' := by
    intro q
    unfold touched
    rw [hcall]
  refine ⟨⟨g', P', l', hinv, fun q hq => heff.share q (by rwa [htouched])⟩,
    fun q hq => heff.state q (by rwa [htouched]), fun q hq => heff.ofile q (by rwa [htouched]), ?_,
    ?_, not_born h.init, fun q hq => (mem_born.mp hq).1⟩
  · intro q fd f hq hfd
    have hfd' : (k'.proc q).ofile fd = some f := by
      rw [heff.ofile q (by rwa [htouched])]
      exact hfd
    exact heff.kind f (slot_pos hfd) (slot_pos hfd')
  · intro q r hr hborn
    rcases heff.parent q r hr with hold | rfl | ⟨htq, rfl⟩
    · exact absurd hborn (not_born (h.parent q r hold))
    · exact absurd hborn (not_born h.init)
    · exact (htouched q).mp htq

theorem Apart.step (h : Apart L R k g x) (hC : Family x a)
    (hstep : familyStep L x a = some y) : Apart L R k g y := by
  obtain ⟨v, hv, rfl⟩ := Option.map_eq_some_iff.mp hstep
  obtain ⟨u, F⟩ := x
  obtain ⟨⟨g1, P₁, l1, hinv, hshare⟩, hstate, hofile, hkind, hparent, hinit, hfresh⟩ := h
  obtain ⟨g2, P₂, l2, hinv', heff⟩ := step_post hinv hv
  generalize hF' : (if a.p ∈ F then F ∪ born u v else F) = F'
  have hsub : ∀ q, q ∈ F → q ∈ F' := by
    intro q hq
    rw [← hF']
    split
    · exact Finset.mem_union_left _ hq
    · exact hq
  have hback : ∀ q, q ∈ F' → q ∈ F ∨ (a.p ∈ F ∧ q ∈ born u v) := by
    intro q hq
    rw [← hF'] at hq
    split at hq
    · rename_i hin
      exact (Finset.mem_union.mp hq).imp_right fun hb => ⟨hin, hb⟩
    · exact .inl hq
  -- a call of the family, or a `wait` for it, is about the family
  have htouched : ∀ q, touched u a v q → q ∈ F' := by
    intro q hq
    unfold touched at hq
    rcases hC with hin | ⟨addr, hcall, hreap⟩
    · have hchild : u.zombieChild a.p = some q → q ∈ F' := fun hz =>
        hsub q (hparent q a.p (zombieChild_spec hz).1 hin)
      rw [← hF', if_pos hin]
      cases hcall : a.call <;> rw [hcall] at hq
      case fork => exact Finset.mem_union_right _ hq
      case wait addr =>
        have hmem := hchild hq
        rwa [← hF', if_pos hin] at hmem
      all_goals
        have heq : q = a.p := hq
        rw [heq]
        exact Finset.mem_union_left _ hin
    · rw [hcall] at hq
      exact hsub q (hreap q hq)
  have hout : ∀ q, q ∉ F' → ¬touched u a v q := fun q hq hin => hq (htouched q hin)
  refine ⟨⟨g2, P₂, l2, hinv', ?_⟩, ?_, ?_, ?_, ?_, ?_, ?_⟩
  · intro q hq
    exact (heff.share q (hout q hq)).trans (hshare q fun hin => hq (hsub q hin))
  · intro q hq
    exact (heff.state q (hout q hq)).trans (hstate q fun hin => hq (hsub q hin))
  · intro q hq
    exact (heff.ofile q (hout q hq)).trans (hofile q fun hin => hq (hsub q hin))
  · intro q fd f hq hfd
    have hqF : q ∉ F := fun hin => hq (hsub q hin)
    have hfd1 : (u.proc q).ofile fd = some f := by
      rw [hofile q hqF]
      exact hfd
    have hfd2 : (v.proc q).ofile fd = some f := by
      rw [heff.ofile q (hout q hq)]
      exact hfd1
    exact (heff.kind f (slot_pos hfd1) (slot_pos hfd2)).trans (hkind q fd f hqF hfd)
  · intro q r hr hrF
    rcases heff.parent q r hr with hold | rfl | ⟨htq, rfl⟩
    · rcases hback r hrF with hin | ⟨_, hborn⟩
      · exact hsub q (hparent q r hold hin)
      · exact absurd hborn (not_born (hinv.parent q r hold))
    · rcases hback initproc hrF with hin | ⟨_, hborn⟩
      · exact absurd hin hinit
      · exact absurd hborn (not_born hinv.init)
    · exact htouched q htq
  · intro hin
    rcases hback initproc hin with hin | ⟨_, hborn⟩
    · exact hinit hin
    · exact not_born hinv.init hborn
  · intro q hq
    rcases hback q hq with hin | ⟨_, hborn⟩
    · exact hfresh q hin
    by_cases hqF : q ∈ F
    · exact hfresh q hqF
    · rw [← hstate q hqF]
      exact (mem_born.mp hborn).1

theorem Apart.freePages (h : Inv L R k g P l) (hx : Apart L R k g x)
    (hgone : ∀ q ∈ x.2, (x.1.proc q).state = .unused) : x.1.freePages = k.freePages := by
  obtain ⟨g', P', l', hinv, hshare⟩ := hx.inv
  have hproc : ∀ q ∈ x.2, x.1.proc q = k.proc q := by
    intro q hq
    rw [hinv.blank q (hgone q hq), h.blank q (hx.fresh q hq)]
  have hofile : x.1.ofile = k.ofile := by
    funext q
    by_cases hq : q ∈ x.2
    · exact congrArg Pcb.ofile (hproc q hq)
    · exact hx.ofile q hq
  have hlive : x.1.live = k.live := by
    ext q
    rw [mem_live, mem_live]
    by_cases hq : q ∈ x.2
    · rw [hproc q hq]
    · rw [hx.state q hq]
  have hP : P' = P := by
    refine h.same_pipes hinv hofile fun f hpos => ?_
    obtain ⟨q, fd, hfd⟩ := slots_pos.mp hpos
    refine hx.kind q fd f (fun hq => ?_) hfd
    have hfree : (k.proc q).ofile fd = none := by
      rw [h.blank q (hx.fresh q hq)]
      rfl
    have hsome : (k.proc q).ofile fd = some f := hfd
    rw [hfree] at hsome
    cases hsome
  have hsum : ∑ q ∈ x.1.live, (g' q).pages.card = ∑ q ∈ k.live, (g q).pages.card := by
    rw [hlive]
    refine Finset.sum_congr rfl fun q hq => ?_
    rw [hshare q]
    intro hin
    exact mem_live.mp hq (hx.fresh q hin)
  have hcount := h.count
  have hcount' := hinv.count
  rw [hsum, hP] at hcount'
  omega

theorem wait_frees (h : Inv L R k g P l) (hp : (k.proc p).state = .runnable)
    (hz : k.zombieChild p = some np) :
    ∃ k', step L k ⟨p, .wait 0, []⟩ = some k' ∧ (k'.proc np).state = .unused ∧
      k.freePages < k'.freePages := by
  have hwp : Wp (fun _ => False) (syscall L p (.wait 0)) (fun _ k' =>
      Post L R (k.withDeny []) g p (fun q => k.zombieChild p = some q) k' ∧
        (k'.proc np).state = .unused) (k.withDeny []) := by
    refine Wp.bind_iff.mpr ((wait_wp (h.withDeny []) hp).post fun _ k' hpost => ?_)
    exact ⟨hpost.1, hpost.2 rfl np hz⟩
  obtain ⟨r, k', hrun, ⟨g', P', l', hinv, heff⟩, hun⟩ := hwp.returns
  have hstep : step L k ⟨p, .wait 0, []⟩ = some k' := by
    unfold step
    simp only [hp, hrun, if_true]
  have hzombie := (zombieChild_spec hz).2
  have hothers : ∀ q, q ≠ np → ¬k.zombieChild p = some q := by
    intro q hne hq
    rw [hz] at hq
    exact hne (Option.some.inj hq).symm
  have hofile : k'.ofile = k.ofile := by
    funext q fd
    by_cases hq : q = np
    · rw [hq]
      have hnew := hinv.closed np (by rw [hun]; decide) fd
      exact hnew.trans (h.closed np (by rw [hzombie]; decide) fd).symm
    · exact congrFun (heff.ofile q (hothers q hq)) fd
  have hP : P' = P := by
    refine h.same_pipes hinv hofile fun f hpos => heff.kind f hpos ?_
    rw [hofile]
    exact hpos
  have hlive : k'.live = k.live.erase np := by
    ext q
    rw [Finset.mem_erase, mem_live, mem_live]
    by_cases hq : q = np
    · rw [hq, hun]
      exact ⟨fun hne => absurd rfl hne, fun hne => absurd rfl hne.1⟩
    · rw [heff.state q (hothers q hq)]
      exact ⟨fun hne => ⟨hq, hne⟩, fun hne => hne.2⟩
  have hmem : np ∈ k.live := mem_live.mpr (by rw [hzombie]; decide)
  have hsum : ∑ q ∈ k'.live, (g' q).pages.card = ∑ q ∈ k.live.erase np, (g q).pages.card := by
    rw [hlive]
    refine Finset.sum_congr rfl fun q hq => ?_
    rw [heff.share q (hothers q (Finset.ne_of_mem_erase hq))]
  have hsplit := Finset.add_sum_erase k.live (fun q => (g q).pages.card) hmem
  have hpos : 0 < (g np).pages.card := by
    unfold Share.pages
    rw [card_cons]
    exact Nat.succ_pos _
  have hcount := h.count
  have hcount' := hinv.count
  rw [hsum, hP] at hcount'
  refine ⟨k', hstep, hun, ?_⟩
  omega

/-- Every page has exactly one owner in every reachable state, and when a process
that was forked and its descendants are gone, and the others have made no call in
between but to wait for them, there are as many free pages as before the fork. -/
theorem page_ownership (hstart : Started L k₀ l₀ k₁)
    (hreach : Reaches (step L) (fun _ _ => True) k₁ k) : (∃ l, FreeList L k.phys l) ∧
      (∀ p, (k.proc p).state ≠ .unused →
        (sv39.tables k.phys.word 2 (k.proc p).pagetable).Nodup) ∧
      (∀ pa, L.isPage pa → ∃! o, Owns L l₀ k o pa) ∧
      ∀ (a : Action) k' x, a.call = .fork → step L k a = some k' →
        Reaches (familyStep L) Family (k', born k k') x →
        (∀ q ∈ x.2, (x.1.proc q).state = .unused) → x.1.freePages = k.freePages := by
  obtain ⟨g, P, l, h⟩ := reaches_inv hstart.inv hreach
  refine ⟨⟨l, h.mem.free⟩, ?_, ?_, ?_⟩
  · intro p hp
    have hlive := mem_live.mpr hp
    rw [(h.share p hp).pagetable, (h.mem.held p hlive).space.table.tables]
    have hnd := (h.mem.account hlive).1.nodup_all
    exact (nodup_add.mp (nodup_add.mp hnd).1).1
  · intro pa _
    have huniq := located_unique h.mem pa
    simp only [h.owns_iff]
    exact huniq
  intro a k' x hcall hstep hfam hgone
  have hapart : Apart L l₀ k g x := by
    refine Reaches.invariant (I := Apart L l₀ k g) hfam (Apart.start h hcall hstep) ?_
    intro u v b hu hC hst
    exact hu.step hC hst
  exact hapart.freePages h hgone

/-! A fork after which the survivors close pipes: more pages are free than before. -/

/-- Calls between a fork and the last `wait` that are neither `sbrk`, `exec` nor
`pipe`, unless the family makes them. -/
def quiet (x : Kern × Finset ProcId) (a : Action) : Bool :=
  decide (a.p ∈ x.2) ||
    match a.call with
    | .sbrk _ => false
    | .exec _ _ => false
    | .pipe _ => false
    | _ => true

def forkRun (ok : Kern × Finset ProcId → Action → Bool) (before after : List Action) :
    Option (Kern × Kern × Kern × (Kern × Finset ProcId)) :=
  (started 24).bind fun k₁ =>
    (Lib.exec (step Vm.lastPages) (fun _ _ => true) k₁ before).bind fun k =>
      (step Vm.lastPages k ⟨initproc, .fork, []⟩).bind fun k' =>
        (Lib.exec (familyStep Vm.lastPages) ok (k', born k k') after).map fun x => (k₁, k, k', x)

theorem forkRun_spec
   (h : forkRun ok before after = some (k₁, k, k', x)) :
    started 24 = some k₁ ∧ Reaches (step Vm.lastPages) (fun _ _ => True) k₁ k ∧
      step Vm.lastPages k ⟨initproc, .fork, []⟩ = some k' ∧
      Reaches (familyStep Vm.lastPages) (fun x a => ok x a = true) (k', born k k') x := by
  obtain ⟨u1, h1, h⟩ := Option.bind_eq_some_iff.mp h
  obtain ⟨u, hbefore, h⟩ := Option.bind_eq_some_iff.mp h
  obtain ⟨u', hfork, h⟩ := Option.bind_eq_some_iff.mp h
  obtain ⟨y, hafter, h⟩ := Option.map_eq_some_iff.mp h
  obtain ⟨rfl, rfl, rfl, rfl⟩ : u1 = k₁ ∧ u = k ∧ u' = k' ∧ y = x := by simpa using h
  exact ⟨h1, .exec .refl (fun _ _ _ _ => trivial) hbefore, hfork,
    .exec .refl (fun _ _ _ hok => hok) hafter⟩

theorem family_inv (h : ∃ g P l, Inv L R x.1 g P l) (hreach : Reaches (familyStep L) C x y) :
    ∃ g P l, Inv L R y.1 g P l := by
  refine Reaches.invariant (I := fun y => ∃ g P l, Inv L R y.1 g P l) hreach h ?_
  rintro u v a ⟨g, P, l, hinv⟩ _ hstep
  obtain ⟨k', hk', rfl⟩ := Option.map_eq_some_iff.mp hstep
  obtain ⟨g', P', l', hinv', _⟩ := step_post hinv hk'
  exact ⟨g', P', l', hinv'⟩

theorem reap_last (h : Inv L R x.1 g P l)
    (hz : x.1.zombieChild initproc = some np) (hF : x.2 = {np}) (hne : np ≠ initproc) :
    ∃ y, familyStep L x ⟨initproc, .wait 0, []⟩ = some y ∧
      (∀ q ∈ y.2, (y.1.proc q).state = .unused) ∧ x.1.freePages < y.1.freePages := by
  obtain ⟨k', hstep, hun, hlt⟩ := wait_frees h h.init hz
  refine ⟨(k', {np}), ?_, ?_, hlt⟩
  · unfold familyStep
    rw [hstep, hF]
    have hnot : ¬initproc ∈ ({np} : Finset ProcId) := by
      rw [Finset.mem_singleton]
      exact fun heq => hne heq.symm
    simp only [Option.map_some, if_neg hnot]
  · intro q hq
    rw [Finset.mem_singleton.mp hq]
    exact hun

theorem page_ownership_fork : ∃ k₁ k k' x y, started 24 = some k₁ ∧
    Reaches (step Vm.lastPages) (fun _ _ => True) k₁ k ∧
    step Vm.lastPages k ⟨initproc, .fork, []⟩ = some k' ∧
    Reaches (familyStep Vm.lastPages) Family (k', born k k') x ∧
    familyStep Vm.lastPages x ⟨initproc, .wait 0, []⟩ = some y ∧
    x.1.freePages < y.1.freePages ∧ y.1.freePages = k.freePages := by
  have hrun : (forkRun (fun x a => decide (a.p ∈ x.2)) [] [⟨second, .exit 0, []⟩]).map (fun r =>
      ((Vm.vmap r.1.phys (r.1.proc initproc).pagetable 0).isSome,
        r.2.2.2.1.zombieChild initproc, r.2.2.2.2)) = some (true, some second, {second}) := by
    decide +kernel
  obtain ⟨⟨k₁, k, k', x⟩, hfork, hres⟩ := Option.map_eq_some_iff.mp hrun
  simp only [Prod.mk.injEq] at hres
  obtain ⟨hm, hz, hF⟩ := hres
  obtain ⟨hk1, hbefore, hstep, hfam⟩ := forkRun_spec hfork
  have hstart := started_spec hk1 hm
  obtain ⟨g, P, l, hinv⟩ := reaches_inv hstart.inv (hbefore.step _ trivial hstep)
  obtain ⟨g, P, l, hinv⟩ := family_inv ⟨g, P, l, hinv⟩ hfam
  obtain ⟨y, hlast, hgone, hlt⟩ := reap_last hinv hz hF (by decide)
  have hfam' : Reaches (familyStep Vm.lastPages) Family (k', born k k') x :=
    hfam.mono fun _ _ hok => .inl (of_decide_eq_true hok)
  have hfamily : Family x ⟨initproc, .wait 0, []⟩ := by
    refine .inr ⟨0, rfl, fun q hq => ?_⟩
    rw [hz] at hq
    rw [hF, Finset.mem_singleton]
    exact (Option.some.inj hq).symm
  exact ⟨k₁, k, k', x, y, hk1, hbefore, hstep, hfam', hlast, hlt,
    (page_ownership hstart hbefore).2.2.2 _ k' y rfl hstep (hfam'.step _ hfamily hlast) hgone⟩

/-- Seven pipes are open when `init` forks, and it closes them while the child runs. -/
theorem pages_not_restored : ∃ k₀ l₀ k₁ k k' x, Started Vm.lastPages k₀ l₀ k₁ ∧
    Reaches (step Vm.lastPages) (fun _ _ => True) k₁ k ∧
    step Vm.lastPages k ⟨initproc, .fork, []⟩ = some k' ∧
    Reaches (familyStep Vm.lastPages) (fun x a => quiet x a = true) (k', born k k') x ∧
    (∀ q ∈ x.2, (x.1.proc q).state = .unused) ∧ k.freePages < x.1.freePages := by
  have hrun : (forkRun quiet (List.replicate 7 ⟨initproc, .pipe 0, []⟩)
      (⟨second, .exit 0, []⟩ :: (List.finRange NOFILE).map fun fd => ⟨initproc, .close fd, []⟩)).map
      (fun r => ((Vm.vmap r.1.phys (r.1.proc initproc).pagetable 0).isSome,
        r.2.1.freePages, r.2.2.2.1.freePages, r.2.2.2.1.zombieChild initproc, r.2.2.2.2)) =
      some (true, 10, 10, some second, {second}) := by
    decide +kernel
  obtain ⟨⟨k₁, k, k', x⟩, hfork, hres⟩ := Option.map_eq_some_iff.mp hrun
  simp only [Prod.mk.injEq] at hres
  obtain ⟨hm, hk, hx, hz, hF⟩ := hres
  obtain ⟨hk1, hbefore, hstep, hfam⟩ := forkRun_spec hfork
  have hstart := started_spec hk1 hm
  obtain ⟨g, P, l, hinv⟩ := reaches_inv hstart.inv (hbefore.step _ trivial hstep)
  obtain ⟨g, P, l, hinv⟩ := family_inv ⟨g, P, l, hinv⟩ hfam
  obtain ⟨y, hlast, hgone, hlt⟩ := reap_last hinv hz hF (by decide)
  have hquiet : quiet x ⟨initproc, .wait 0, []⟩ = true := Bool.or_true _
  refine ⟨_, _, k₁, k, k', y, hstart, hbefore, hstep, hfam.step _ hquiet hlast, hgone, ?_⟩
  omega

end Kern

end Xv6.Kernel
