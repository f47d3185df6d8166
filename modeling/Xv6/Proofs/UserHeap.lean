import Xv6.Proofs.Umalloc
/-!
# Programs that use the allocator

What holds after any number of calls of `malloc` and `free`, whatever the program
writes to the blocks it has.
-/

namespace Xv6.User

open Xv6.Lib Function List

variable {A : Arena} {h : Heap}

namespace Heap

theorem ready_shape (hfreep : h.freep = 0) (hgot : h.got = []) (htop : A.brk ≤ h.top) :
    Shape A (h.ready A) [A.base] [] := by
  have heq : h.ready A = { (h.setPtr A.base A.base).setSize A.base 0 with freep := A.base } := by
    unfold ready
    rw [if_pos hfreep]
  have hsize : (h.ready A).size A.base = 0 := by
    rw [heq]
    exact (setSize_size ..).trans (if_pos rfl)
  have hptr : (h.ready A).ptr A.base = A.base := by
    rw [heq]
    refine (setSize_ptr ..).trans ?_
    rw [setPtr_ptr, if_pos rfl]
  have hgot' : (h.ready A).got = [] := by
    rw [heq]
    exact hgot
  have hunits : (h.ready A).units = 0 := by
    unfold units
    rw [hgot']
    rfl
  have hobt : (h.ready A).obtained = [] := by
    unfold obtained
    rw [hgot']
    rfl
  refine ⟨mem_singleton.mpr rfl, ⟨rfl, hptr⟩, pairwise_singleton _ _, ?_, not_mem_nil, ?_⟩
  · rw [heq]
    exact mem_singleton.mpr rfl
  refine { apart := fun x => ?_, brk := ?_, above := fun g hg => ?_, bound := ?_,
           pos := fun a ha hne => ?_, zero := hsize, tiles := fun x => ?_, sum := ?_ }
  · rw [hobt]
    exact Nat.zero_le 1
  · rw [heq]
    exact htop
  · rw [hgot'] at hg
    cases hg
  · rw [hunits]
    exact Nat.two_pow_pos 32
  · exact absurd (mem_singleton.mp ha) hne
  · rw [hobt, append_nil, map_singleton, cover_cons, if_neg]
    · rfl
    unfold block Extent.Mem
    rw [hsize]
    simp
  · rw [hunits, append_nil, map_singleton, hsize]
    rfl

end Heap

namespace Program

variable {E : Sbrk} {s t : Program} {L others : List Nat} {ap a : Nat} {mem : Nat → Header}

def headers (s : Program) : List Nat := s.live.map fun e => e.1 - HDR

def Sized (h : Heap) (live : List (Nat × UInt32)) : Prop :=
  ∀ e ∈ live, HDR ≤ e.1 ∧ h.size (e.1 - HDR) = nunits e.2

/-- Before the first call, or with a free list. -/
def Inv (A : Arena) (s : Program) : Prop :=
  (s.heap.freep = 0 ∧ s.live = [] ∧ s.heap.got = [] ∧ A.brk ≤ s.heap.top) ∨
    (∃ L, Heap.Shape A s.heap L s.headers) ∧ Sized s.heap s.live

theorem freep_ne_zero (hs : Heap.Shape A h L others) : h.freep ≠ 0 := by
  have hle := hs.base_le (mem_append_left _ hs.freep)
  have hbase := A.base_pos
  omega

theorem Inv.malloc (hs : Inv A s) (hE : E.limit < 2 ^ 32) (nbytes : UInt32) :
    ∃ N r, (∀ fuel, N ≤ fuel → s.heap.malloc A (Heap.sbrk E) fuel nbytes = some r) ∧
      Inv A ⟨r.1, if r.2 = 0 then s.live else (r.2, nbytes) :: s.live⟩ := by
  have hready : (∃ L, Heap.Shape A (s.heap.ready A) L s.headers) ∧
      Sized (s.heap.ready A) s.live := by
    rcases hs with ⟨hfreep, hlive, hgot, htop⟩ | ⟨⟨L, hs⟩, hsized⟩
    · unfold headers Sized
      rw [hlive]
      exact ⟨⟨_, Heap.ready_shape hfreep hgot htop⟩, fun e he => absurd he not_mem_nil⟩
    have heq : s.heap.ready A = s.heap := by
      unfold Heap.ready
      rw [if_neg (freep_ne_zero hs)]
    rw [heq]
    exact ⟨⟨L, hs⟩, hsized⟩
  obtain ⟨⟨L, hshape⟩, hsized⟩ := hready
  obtain ⟨N, r, hrun, hsizes, hr⟩ :=
    Heap.mallocLoop_served hshape hE (nunits_pos nbytes)
  have hkept : Sized r.1 s.live := by
    intro e he
    refine ⟨(hsized e he).1, ?_⟩
    rw [hsizes _ (mem_map_of_mem he)]
    exact (hsized e he).2
  refine ⟨N, r, hrun, .inr ?_⟩
  rcases hr with ⟨hzero, L', hs'⟩ | ⟨a, L', hptr, hsize, hs'⟩
  · rw [if_pos hzero]
    exact ⟨⟨L', hs'⟩, hkept⟩
  have hne : r.2 ≠ 0 := by
    rw [hptr]
    simp [HDR]
  have hback : r.2 - HDR = a := by
    rw [hptr]
    exact Nat.add_sub_cancel ..
  rw [if_neg hne]
  refine ⟨⟨L', ?_⟩, fun e he => ?_⟩
  · change Heap.Shape A r.1 L' ((r.2 - HDR) :: s.headers)
    rw [hback]
    exact hs'
  rcases mem_cons.mp he with rfl | he
  · refine ⟨?_, ?_⟩
    · change HDR ≤ r.2
      rw [hptr]
      exact Nat.le_add_left ..
    · change r.1.size (r.2 - HDR) = _
      rw [hback, hsize]
  · exact hkept e he

theorem Inv.free (hs : Inv A s) (hap : ap ∈ s.live.map Prod.fst) :
    ∃ N h, (∀ fuel, N ≤ fuel → s.heap.free fuel ap = some h) ∧
      Inv A ⟨h, s.live.eraseP fun e => e.1 = ap⟩ := by
  obtain ⟨e, he, rfl⟩ := mem_map.mp hap
  rcases hs with ⟨_, hlive, _⟩ | ⟨⟨L, hs⟩, hsized⟩
  · rw [hlive] at he
    cases he
  obtain ⟨f, l1, l2, hl1, hf, hsplit, herase⟩ :=
    exists_of_eraseP (p := fun g => decide (g.1 = e.1)) he (decide_eq_true rfl)
  rw [herase]
  have hperm : s.headers.Perm ((e.1 - HDR) :: (l1 ++ l2).map fun e => e.1 - HDR) := by
    unfold headers
    rw [hsplit, ← of_decide_eq_true hf]
    exact (perm_middle).map _
  have hshape : Heap.Shape A s.heap L ((e.1 - HDR) :: (l1 ++ l2).map fun e => e.1 - HDR) :=
    { hs with
      outside := fun hin => hs.outside (hperm.mem_iff.mpr hin)
      blocks := hs.blocks.perm (hperm.append_left L) }
  obtain ⟨h', L', hrun, hs', hsizes, _⟩ := Heap.freeBlock_shape hshape
  refine ⟨L.length + 1, h', hrun, .inr ⟨⟨L', hs'⟩, fun g hg => ?_⟩⟩
  have hg' : g ∈ s.live := by
    rw [hsplit]
    rcases mem_append.mp hg with hg | hg
    · exact mem_append_left _ hg
    · exact mem_append_right _ (mem_cons_of_mem _ hg)
  refine ⟨(hsized g hg').1, ?_⟩
  rw [hsizes _ (mem_map_of_mem hg)]
  exact (hsized g hg').2

theorem Inv.write (hs : Inv A s) (x : Header) (hap : ap ∈ s.live.map Prod.fst)
    (hlt : ap - HDR < a) (hstop : a < s.heap.stop (ap - HDR)) :
    Inv A { s with heap := { s.heap with mem := update s.heap.mem a x } } := by
  obtain ⟨e, he, rfl⟩ := mem_map.mp hap
  rcases hs with ⟨_, hlive, _⟩ | ⟨⟨L, hs⟩, hsized⟩
  · rw [hlive] at he
    cases he
  have hmem : e.1 - HDR ∈ L ++ s.headers := mem_append_right _ (mem_map_of_mem he)
  have hne : e.1 - HDR ≠ A.base := fun heq => hs.outside (heq ▸ mem_map_of_mem he)
  -- no header is inside another block
  have hout : ∀ b ∈ L ++ s.headers, b ≠ a := by
    rintro b hb rfl
    obtain ⟨l1, l2, hsplit⟩ := append_of_mem hmem
    have hperm : (L ++ s.headers).Perm ((e.1 - HDR) :: (l1 ++ l2)) := by
      rw [hsplit]
      exact perm_middle
    have hblocks := hs.blocks.perm hperm
    rcases mem_cons.mp (hperm.mem_iff.mp hb) with heq | hin
    · omega
    have hb0 : b ≠ A.base := by
      have hlt := hs.blocks.base_lt hmem hne
      omega
    have hle := hblocks.stop_le hin hb0 (Nat.le_of_lt hlt)
    omega
  have hsame : ∀ b ∈ L ++ s.headers,
      ({ s.heap with mem := update s.heap.mem a x } : Heap).mem b = s.heap.mem b :=
    fun b hb => update_of_ne (hout b hb) ..
  have hsize : ∀ b ∈ L ++ s.headers,
      ({ s.heap with mem := update s.heap.mem a x } : Heap).size b = s.heap.size b :=
    fun b hb => congrArg Header.size (hsame b hb)
  refine .inr ⟨⟨L, hs.base, ?_, ?_, hs.freep, hs.outside, ?_⟩, fun g hg => ?_⟩
  · exact hs.path.congr fun b hb => congrArg Header.ptr (hsame b (mem_append_left _ hb))
  · exact Heap.ordered_congr hs.ordered fun b hb => hsize b (mem_append_left _ hb)
  · exact hs.blocks.congr hsize (hsize _ (mem_append_left _ hs.base)) ⟨rfl, rfl⟩
  refine ⟨(hsized g hg).1, ?_⟩
  rw [hsize _ (mem_append_right _ (mem_map_of_mem hg))]
  exact (hsized g hg).2

theorem malloc_mono {S : Heap → UInt32 → Option (Option Nat × Heap)}
    {fuel fuel' : Nat} {nbytes : UInt32} {r : Heap × Nat}
    (hm : h.malloc A S fuel nbytes = some r) (hle : fuel ≤ fuel') :
    h.malloc A S fuel' nbytes = some r :=
  Heap.mallocLoop_mono hm hle

theorem step_inv (hE : E.limit < 2 ^ 32) {a : MemAct} (hs : Inv A s)
    (hstep : step A E s a = some t) : Inv A t := by
  cases a with
  | malloc fuel nbytes =>
    obtain ⟨_, hstep⟩ := Option.ite_none_right_eq_some.mp hstep
    obtain ⟨r, hr, rfl⟩ := Option.map_eq_some_iff.mp hstep
    obtain ⟨N, r', hrun, hinv⟩ := hs.malloc hE nbytes
    have hr' := hrun (max N fuel) (Nat.le_max_left ..)
    rw [malloc_mono hr (Nat.le_max_right ..)] at hr'
    cases hr'
    exact hinv
  | free fuel ap =>
    obtain ⟨hap, hstep⟩ := Option.ite_none_right_eq_some.mp hstep
    obtain ⟨h, hh, rfl⟩ := Option.map_eq_some_iff.mp hstep
    obtain ⟨N, h', hrun, hinv⟩ := hs.free hap
    have hh' := hrun (max N fuel) (Nat.le_max_left ..)
    have hmono : s.heap.free (max N fuel) ap = some h :=
      Heap.freeBlock_mono hh (Nat.le_max_right ..)
    rw [hmono] at hh'
    cases hh'
    exact hinv
  | write ap a x =>
    obtain ⟨⟨hap, hlt, hstop⟩, hstep⟩ := Option.ite_none_right_eq_some.mp hstep
    cases hstep
    exact hs.write x hap hlt hstop

theorem reaches_inv (hE : E.limit < 2 ^ 32)
    (h : Reaches (step A E) (fun _ _ => True) (init A mem) s) : Inv A s := by
  refine h.invariant (I := Inv A) (.inl ⟨rfl, rfl, rfl, le_rfl⟩) ?_
  intro u v a hu _ hstep
  exact step_inv hE hu hstep

/-- The heap is in order: `fl` are the free blocks. -/
structure WellFormed (A : Arena) (s : Program) (fl : List Nat) : Prop where
  /-- A circular list in address order, unless `malloc` has not been called. -/
  cycle : (s.heap.freep = 0 ∧ fl = [] ∧ s.live = []) ∨
    s.heap.freep ∈ A.base :: fl ∧ Path s.heap.ptr A.base (A.base :: fl) A.base
  ordered : (A.base :: fl).Pairwise (· < ·)
  coalesced : fl.Pairwise fun a b => s.heap.stop a < b
  apart : Apart ((fl ++ s.headers).map s.heap.block)
  tiles : ∀ x, (∃ e ∈ (fl ++ s.headers).map s.heap.block, e.Mem x) ↔ ∃ e ∈ s.heap.obtained, e.Mem x
  usable : ∀ e ∈ s.live, HDR ≤ e.1 ∧ e.1 + e.2.toNat ≤ s.heap.stop (e.1 - HDR)

theorem Inv.wellFormed (hs : Inv A s) : ∃ fl, WellFormed A s fl := by
  rcases hs with ⟨hfreep, hlive, hgot, _⟩ | ⟨⟨L, hs⟩, hsized⟩
  · have hheaders : s.headers = [] := by
      unfold headers
      rw [hlive]
      rfl
    have hobt : s.heap.obtained = [] := by
      unfold Heap.obtained
      rw [hgot]
      rfl
    refine ⟨[], .inl ⟨hfreep, rfl, hlive⟩, pairwise_singleton _ _, List.Pairwise.nil, ?_,
      fun x => ?_, fun e he => ?_⟩
    · rw [hheaders]
      exact List.Pairwise.nil
    · rw [hheaders, hobt]
      exact Iff.rfl
    · rw [hlive] at he
      cases he
  · obtain ⟨fl, rfl⟩ : ∃ fl, L = A.base :: fl := by
      have hpath := hs.path
      cases L with
      | nil => exact absurd hs.base not_mem_nil
      | cons a fl => exact ⟨fl, by rw [hpath.1]⟩
    -- `base` covers nothing
    have hcover : ∀ x, cover ((fl ++ s.headers).map s.heap.block) x = cover s.heap.obtained x := by
      intro x
      rw [← hs.blocks.tiles x, cons_append, map_cons, cover_cons, if_neg, Nat.zero_add]
      unfold Heap.block Extent.Mem
      rw [hs.blocks.zero]
      simp
    refine ⟨fl, .inr ⟨hs.freep, hs.path⟩, Heap.increasing hs.ordered,
      (pairwise_cons.mp hs.ordered).2, apart_of_cover fun x => ?_, fun x => ?_,
      fun e he => ⟨(hsized e he).1, ?_⟩⟩
    · rw [hcover]
      exact hs.blocks.apart x
    · rw [← cover_pos_iff, ← cover_pos_iff, hcover]
    have hle := le_nunits e.2
    have hhdr := (hsized e he).1
    unfold Heap.stop
    rw [(hsized e he).2]
    omega

/-- The heap after any run of a program, when `sbrk` returns less than `2 ^ 32` headers
altogether: it is well formed, and further calls of `malloc` and `free` end. -/
theorem heap_well_formed (A : Arena) (E : Sbrk) (hE : E.limit < 2 ^ 32) (mem : Nat → Header)
    (s : Program) (h : Reaches (step A E) (fun _ _ => True) (init A mem) s) :
    (∃ fl, WellFormed A s fl) ∧
      (∀ nbytes, fits nbytes = true → ∃ N, ∀ fuel, N ≤ fuel →
        (s.heap.malloc A (Heap.sbrk E) fuel nbytes).isSome = true) ∧
      ∀ ap ∈ s.live.map Prod.fst, ∃ N, ∀ fuel, N ≤ fuel → (s.heap.free fuel ap).isSome = true := by
  have hinv := reaches_inv hE h
  refine ⟨hinv.wellFormed, fun nbytes _ => ?_, fun ap hap => ?_⟩
  · obtain ⟨N, r, hrun, _⟩ := hinv.malloc hE nbytes
    refine ⟨N, fun fuel hfuel => ?_⟩
    rw [hrun fuel hfuel]
    rfl
  · obtain ⟨N, h', hrun, _⟩ := hinv.free hap
    refine ⟨N, fun fuel hfuel => ?_⟩
    rw [hrun fuel hfuel]
    rfl

def lowArena : Arena := ⟨16, 32, Nat.succ_pos 15, Nat.le_refl 32⟩

/-- Three blocks are allocated, the first is freed and part of it allocated again. -/
theorem heap_well_formed_three : ∃ s : Program,
    s.live = [(65536, 20), (65424, 20), (65472, 20)] ∧ ∃ fl, WellFormed lowArena s fl := by
  have hrun : (exec (step lowArena ⟨fun _ => some 0, 8192⟩) (fun _ _ => true)
      (init lowArena fun _ => ⟨0, 0⟩)
      [.malloc 9 40, .malloc 9 20, .malloc 9 20, .write 65472 65473 ⟨3, 5⟩, .free 9 65520,
        .malloc 9 20]).map Program.live =
      some [(65536, 20), (65424, 20), (65472, 20)] := by decide +kernel
  obtain ⟨s, hs, hlive⟩ := Option.map_eq_some_iff.mp hrun
  exact ⟨s, hlive, (heap_well_formed lowArena ⟨fun _ => some 0, 8192⟩ (by decide) _ s
    (.exec .refl (fun _ _ _ _ => trivial) hs)).1⟩

/-- With more than that the size of a block can wrap around: 33 blocks of almost 2 GiB
each are allocated and freed again, and make up one block of less than `2 ^ 27`
headers. -/
theorem heap_size_wraps : ∃ (A : Arena) (E : Sbrk) (mem : Nat → Header) (s : Program),
    Reaches (step A E) (fun _ _ => True) (init A mem) s ∧ ¬ ∃ fl, WellFormed A s fl := by
  have hrun : (exec (step lowArena ⟨fun _ => some 0, 2 ^ 33⟩) (fun _ _ => true)
      (init lowArena fun _ => ⟨0, 0⟩) (List.replicate 33 (.malloc 5 2147483568) ++
        (List.range 33).map fun i => .free 5 (48 + i * 2147483584))).map
      (fun s => ((s.live, s.heap.freep, s.heap.ptr 16),
        s.heap.ptr 32, s.heap.size 32, s.heap.got.head?)) =
      some (([], 32, 32), 16, 134217596, some (68719474720, 134217724)) := by decide +kernel
  obtain ⟨s, hs, hres⟩ := Option.map_eq_some_iff.mp hrun
  simp only [Prod.mk.injEq] at hres
  obtain ⟨⟨hlive, hfreep, hbase⟩, hnext, hsize, hgot⟩ := hres
  refine ⟨lowArena, _, _, s, .exec .refl (fun _ _ _ _ => trivial) hs, ?_⟩
  rintro ⟨fl, hwf⟩
  -- the free list has one block, the one at 32
  obtain rfl : fl = [32] := by
    rcases hwf.cycle with ⟨hzero, _⟩ | ⟨_, _, hpath⟩
    · rw [hfreep] at hzero
      cases hzero
    have hnd := hwf.ordered
    rw [show s.heap.ptr lowArena.base = 32 from hbase] at hpath
    cases fl with
    | nil => exact absurd (show (32 : Nat) = 16 from hpath) (by decide)
    | cons a fl =>
      obtain ⟨rfl, hpath⟩ := hpath
      rw [hnext] at hpath
      cases fl with
      | nil => rfl
      | cons b fl =>
        obtain ⟨rfl, _⟩ := hpath
        exact absurd (rel_of_pairwise_cons hnd (by simp)) (Nat.lt_irrefl 16)
  -- the last byte of what `sbrk` returned is not in it
  have hheaders : s.headers = [] := by
    unfold headers
    rw [hlive]
    rfl
  have hmem : (68719474720, HDR * 134217724) ∈ s.heap.obtained := by
    unfold Heap.obtained
    exact mem_map.mpr ⟨(68719474720, 134217724), mem_of_mem_head? hgot, rfl⟩
  obtain ⟨e, he, hin⟩ := (hwf.tiles 68719474720).mpr ⟨_, hmem, le_rfl, by decide⟩
  rw [hheaders, append_nil, map_singleton, mem_singleton] at he
  subst he
  have hlt : 68719474720 < 32 + HDR * (s.heap.size 32).toNat := hin.2
  rw [hsize] at hlt
  exact absurd hlt (by decide)

end Program

end Xv6.User
