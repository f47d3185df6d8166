import Xv6.Proofs.Exec
/-!
# Who owns physical memory

Every page that the kernel hands out is in the share of one process, is the
page of one pipe, or is on the free list.
-/

namespace Xv6.Kernel

open Xv6.Lib Function Multiset

/-- What a process owns: its trapframe, its page table with the tables below
it, and the pages of its memory. -/
structure Share where
  trapframe : Nat
  pagetable : Nat
  sz : Nat
  tables : Multiset Nat
  map : Vmap

namespace Share

def user (x : Share) : Multiset Nat := x.map.pages 0 (npages x.sz)

def pages (x : Share) : Multiset Nat := x.trapframe ::ₘ (x.tables + x.user)

/-- The share is what memory says it is. -/
structure Holds (L : Link) (s : Phys) (x : Share) : Prop where
  frame : L.isPage x.trapframe
  root : x.pagetable ≠ 0
  space : Space L (procTop L x.trapframe) s x.pagetable x.tables x.map (npages x.sz)

theorem Holds.congr {L : Link} {s t : Phys} {x : Share} (h : x.Holds L s)
    (hpage : ∀ a ∈ x.pages, t.page a = s.page a) : x.Holds L t where
  frame := h.frame
  root := h.root
  space := h.space.congr fun a ha =>
    hpage a (mem_cons_of_mem (mem_add.mpr (.inl ha)))

end Share

/-- The pages `R` are the shares of the processes `S`, the pipes `P` and the
free list `l`. -/
structure Memory {ι : Type} (L : Link) (R : Multiset Nat) (s : Phys) (S : Finset ι)
    (g : ι → Share) (P : Finset Nat) (l : List Nat) : Prop where
  held : ∀ p ∈ S, (g p).Holds L s
  free : FreeList L s l
  pipes : ∀ a ∈ P, L.isPage a
  total : ∑ p ∈ S, (g p).pages + P.val + l = R
  nodup : R.Nodup

namespace Memory

variable {ι : Type} {L : Link} {R : Multiset Nat} {s t : Phys} {S : Finset ι}
  {g : ι → Share} {P : Finset Nat} {l l' : List Nat} {p q : ι} {a : Nat} {x : Share}

/-- What process `p` and the free list hold, without the trapframe. -/
def part (g : ι → Share) (l : List Nat) (p : ι) : Multiset Nat :=
  (g p).tables + (g p).user + l

theorem nodup_all (h : Memory L R s S g P l) :
    (∑ p ∈ S, (g p).pages + P.val + (l : Multiset Nat)).Nodup := by
  rw [h.total]
  exact h.nodup

theorem nodup_shares (h : Memory L R s S g P l) : (∑ p ∈ S, (g p).pages).Nodup :=
  (nodup_add.mp (nodup_add.mp h.nodup_all).1).1

theorem mem_share (hp : p ∈ S) (ha : a ∈ (g p).pages) : a ∈ ∑ q ∈ S, (g q).pages :=
  mem_of_le (share_le_sum (f := fun q => (g q).pages) hp) ha

section

variable (h : Memory L R s S g P l)
include h

theorem share_not_free (hp : p ∈ S) (ha : a ∈ (g p).pages) : a ∉ l := by
  intro hl
  refine disjoint_left.mp (nodup_add.mp h.nodup_all).2.2 ?_ hl
  exact mem_add.mpr (.inl (mem_share hp ha))

theorem share_not_pipe (hp : p ∈ S) (ha : a ∈ (g p).pages) : a ∉ P := by
  intro hP
  have hnd := (nodup_add.mp h.nodup_all).1
  exact disjoint_left.mp (nodup_add.mp hnd).2.2 (mem_share hp ha) hP

theorem pipe_not_free (ha : a ∈ P) : a ∉ l := by
  intro hl
  refine disjoint_left.mp (nodup_add.mp h.nodup_all).2.2 ?_ hl
  exact mem_add.mpr (.inr ha)

theorem share_unique (hp : p ∈ S) (hq : q ∈ S)
    (hap : a ∈ (g p).pages) (haq : a ∈ (g q).pages) : p = q :=
  holder_unique (f := fun q => (g q).pages) h.nodup_shares hp hq hap haq

theorem account (hp : p ∈ S) :
    Account L (procTop L (g p).trapframe) (part g l p) s (g p).pagetable (g p).tables (g p).map
      (npages (g p).sz) l ∧ (g p).trapframe ∉ part g l p := by
  have hle : (g p).pages + l ≤ R := by
    rw [← h.total, Multiset.add_assoc, Multiset.add_comm P.val, ← Multiset.add_assoc]
    refine (Multiset.add_le_add_right ?_).trans (Multiset.le_add_right _ _)
    exact share_le_sum (f := fun q => (g q).pages) hp
  have hnd := nodup_of_le hle h.nodup
  unfold Share.pages at hnd
  rw [cons_add, nodup_cons] at hnd
  exact ⟨⟨(h.held p hp).space, h.free, rfl, hnd.2⟩, hnd.1⟩

end

theorem take (h : Memory L R s S g P (a :: l)) (ha : L.isPage a) (hfl : FreeList L t l)
    (hout : ∀ b, b ≠ a → t.page b = s.page b) : Memory L R t S g (insert a P) l := by
  have hnew : a ∉ P := fun hP => h.pipe_not_free hP List.mem_cons_self
  refine ⟨?_, hfl, ?_, ?_, h.nodup⟩
  · intro q hq
    refine (h.held q hq).congr fun b hb => hout b ?_
    rintro rfl
    exact h.share_not_free hq hb List.mem_cons_self
  · intro b hb
    rcases Finset.mem_insert.mp hb with rfl | hb
    · exact ha
    · exact h.pipes b hb
  · rw [← h.total, Finset.insert_val_of_notMem hnew, ← cons_coe, add_cons, add_cons, cons_add]

section

variable (h : Memory L R s S g P l)
include h

theorem give (ha : a ∈ P) : Memory L R (s.freed a) S g (P.erase a) (a :: l) := by
  refine ⟨?_, ?_, ?_, ?_, h.nodup⟩
  · intro q hq
    refine (h.held q hq).congr fun b hb => Phys.freed_page_ne ?_
    rintro rfl
    exact h.share_not_pipe hq hb ha
  · exact h.free.freed (h.pipes a ha) (h.pipe_not_free ha)
  · intro b hb
    exact h.pipes b (Finset.mem_of_mem_erase hb)
  have hP : a ::ₘ (P.erase a).val = P.val := by
    rw [Finset.erase_val]
    exact cons_erase ha
  rw [← h.total, ← hP, ← cons_coe, add_cons, add_cons, cons_add]

theorem same (hpage : t.page = s.page) (hfl : FreeList L t l) : Memory L R t S g P l where
  held := fun p hp => (h.held p hp).congr fun a _ => congrFun hpage a
  free := hfl
  pipes := h.pipes
  total := h.total
  nodup := h.nodup

theorem relist (hfl : FreeList L t l') (hl : (l' : Multiset Nat) = l)
    (hw : Within l s t) : Memory L R t S g P l' where
  held := fun p hp => (h.held p hp).congr fun a ha => hw a (h.share_not_free hp ha)
  free := hfl
  pipes := h.pipes
  total := by
    rw [hl]
    exact h.total
  nodup := h.nodup

theorem shares_congr {f : ι → Share} (hg : ∀ p ∈ S, f p = g p) : Memory L R s S f P l := by
  refine ⟨?_, h.free, h.pipes, ?_, h.nodup⟩
  · intro p hp
    rw [hg p hp]
    exact h.held p hp
  have hsum : ∑ p ∈ S, (f p).pages = ∑ p ∈ S, (g p).pages :=
    Finset.sum_congr rfl fun p hp => by rw [hg p hp]
  rw [hsum]
  exact h.total

end

variable [DecidableEq ι]

section

variable (h : Memory L R s S g P l)
include h

theorem update (hp : p ∈ S) (hroot : x.pagetable ≠ 0) (hframe : x.trapframe = (g p).trapframe)
    (hacc : Account L (procTop L (g p).trapframe) (part g l p) t x.pagetable x.tables x.map
      (npages x.sz) l') (hw : Within ((g p).trapframe ::ₘ part g l p) s t) :
    Memory L R t S (Function.update g p x) P l' := by
  have hpart : ∀ a, a ∈ (g p).trapframe ::ₘ part g l p → a ∈ (g p).pages ∨ a ∈ l := by
    intro a ha
    unfold part at ha
    rcases mem_cons.mp ha with rfl | ha
    · exact .inl (mem_cons_self _ _)
    rcases mem_add.mp ha with ha | ha
    · exact .inl (mem_cons_of_mem ha)
    · exact .inr ha
  have hshare : x.pages + (l' : Multiset Nat) = (g p).pages + l := by
    have htot := hacc.total
    unfold part at htot
    unfold Share.pages
    rw [hframe, cons_add, cons_add, ← htot]
    rfl
  refine ⟨?_, hacc.free, h.pipes, ?_, h.nodup⟩
  · intro q hq
    by_cases hqp : q = p
    · rw [hqp, update_self]
      refine ⟨?_, hroot, ?_⟩
      · rw [hframe]
        exact (h.held p hp).frame
      · rw [hframe]
        exact hacc.space
    · rw [update_of_ne hqp]
      refine (h.held q hq).congr fun a ha => hw a fun hmem => ?_
      rcases hpart a hmem with hap | hal
      · exact hqp (h.share_unique hq hp ha hap)
      · exact h.share_not_free hq ha hal
  · have hfun : ∀ q, (Function.update g p x q).pages =
        Function.update (fun q => (g q).pages) p x.pages q :=
      fun q => Function.apply_update (fun _ y => Share.pages y) g p x q
    have hsum := sum_update_share (f := fun q => (g q).pages) hp x.pages
    simp only [hfun]
    have hboth : ∑ q ∈ S, Function.update (fun q => (g q).pages) p x.pages q + P.val + l' +
        (g p).pages = R + (g p).pages := by
      calc ∑ q ∈ S, Function.update (fun q => (g q).pages) p x.pages q + P.val + l' + (g p).pages
          = ∑ q ∈ S, Function.update (fun q => (g q).pages) p x.pages q + (g p).pages +
              P.val + l' := by ac_rfl
        _ = ∑ q ∈ S, (g q).pages + x.pages + P.val + l' := by rw [hsum]
        _ = ∑ q ∈ S, (g q).pages + P.val + (x.pages + l') := by ac_rfl
        _ = ∑ q ∈ S, (g q).pages + P.val + l + (g p).pages := by
            rw [hshare]
            ac_rfl
        _ = R + (g p).pages := by rw [h.total]
    exact add_right_cancel hboth

/-- Process `p` keeps its share; only its memory, its trapframe and free pages
may have changed. -/
theorem writes (hp : p ∈ S)
    (hacc : Account L (procTop L (g p).trapframe) (part g l p) t (g p).pagetable (g p).tables
      (g p).map (npages (g p).sz) l')
    (hw : Within ((g p).trapframe ::ₘ part g l p) s t) : Memory L R t S g P l' := by
  have hupd := h.update hp (h.held p hp).root rfl hacc hw
  rwa [update_eq_self] at hupd

theorem frame_write (hp : p ∈ S) (hhead : t.freelist = s.freelist)
    (hpage : ∀ a, a ≠ (g p).trapframe → t.page a = s.page a) : Memory L R t S g P l := by
  obtain ⟨hacc, hout⟩ := h.account hp
  refine h.writes hp (hacc.congr hhead fun a ha => hpage a ?_) fun a ha => hpage a ?_
  · rintro rfl
    exact hout ((hacc.mem_iff _).mpr (ha.imp_right .inr))
  · rintro rfl
    exact ha (mem_cons_self _ _)

theorem add (hp : p ∉ S) (hx : x.Holds L t) (hfl : FreeList L t l')
    (hl : x.pages + (l' : Multiset Nat) = l) (hw : Within l s t) :
    Memory L R t (insert p S) (Function.update g p x) P l' := by
  refine ⟨?_, hfl, h.pipes, ?_, h.nodup⟩
  · intro q hq
    by_cases hqp : q = p
    · rw [hqp, update_self]
      exact hx
    rw [update_of_ne hqp]
    have hqS := Finset.mem_of_mem_insert_of_ne hq hqp
    exact (h.held q hqS).congr fun a ha => hw a (h.share_not_free hqS ha)
  · have hrest : ∑ q ∈ S, (Function.update g p x q).pages = ∑ q ∈ S, (g q).pages := by
      refine Finset.sum_congr rfl fun q hq => ?_
      rw [update_of_ne]
      rintro rfl
      exact hp hq
    rw [Finset.sum_insert hp, update_self, hrest, ← h.total, ← hl]
    ac_rfl

theorem remove (hp : p ∈ S) (hfl : FreeList L t l')
    (hl : (l' : Multiset Nat) = (g p).pages + l) (hw : Within ((g p).pages + l) s t) :
    Memory L R t (S.erase p) g P l' := by
  refine ⟨?_, hfl, h.pipes, ?_, h.nodup⟩
  · intro q hq
    have hqS := Finset.mem_of_mem_erase hq
    refine (h.held q hqS).congr fun a ha => hw a fun hmem => ?_
    rcases mem_add.mp hmem with hap | hal
    · exact Finset.ne_of_mem_erase hq (h.share_unique hqS hp ha hap)
    · exact h.share_not_free hqS ha hal
  · rw [hl, ← h.total, ← Finset.add_sum_erase S (fun q => (g q).pages) hp]
    ac_rfl

end

end Memory

end Xv6.Kernel
