import Xv6.User.Umalloc
import Xv6.Lib.Cycle
import Xv6.Lib.Tiling
import Mathlib.Data.List.Pairwise
/-!
# The blocks of the user-level allocator

The free list is circular and in address order, with `base` as its first node and no
two blocks next to each other.  The blocks of the list and the other blocks tile what
`sbrk` returned.
-/

namespace Xv6.User

open Xv6.Lib Function List

namespace Heap

variable {h h' : Heap} {a b p bp q fuel fuel' : Nat} {x : Nat} {L bs others : List Nat}
  {A : Arena} {n : UInt32}

@[simp] theorem setPtr_ptr (h : Heap) (a p b : Nat) :
    (h.setPtr a p).ptr b = if b = a then p else h.ptr b := by
  unfold setPtr ptr
  by_cases hb : b = a
  · rw [hb, if_pos rfl]
    simp only [update_self]
  · rw [if_neg hb]
    simp only [update_of_ne hb]

@[simp] theorem setPtr_size (h : Heap) (a p b : Nat) : (h.setPtr a p).size b = h.size b := by
  unfold setPtr size
  by_cases hb : b = a
  · rw [hb]
    simp only [update_self]
  · simp only [update_of_ne hb]

@[simp] theorem setSize_size (h : Heap) (a : Nat) (n : UInt32) (b : Nat) :
    (h.setSize a n).size b = if b = a then n else h.size b := by
  unfold setSize size
  by_cases hb : b = a
  · rw [hb, if_pos rfl]
    simp only [update_self]
  · rw [if_neg hb]
    simp only [update_of_ne hb]

@[simp] theorem setSize_ptr (h : Heap) (a : Nat) (n : UInt32) (b : Nat) :
    (h.setSize a n).ptr b = h.ptr b := by
  unfold setSize ptr
  by_cases hb : b = a
  · rw [hb]
    simp only [update_self]
  · simp only [update_of_ne hb]

def block (h : Heap) (a : Nat) : Extent := (a, HDR * (h.size a).toNat)

def obtained (h : Heap) : List Extent := h.got.map fun g => (g.1, HDR * g.2)

theorem block_mem_self (ha : 0 < (h.size a).toNat) : (h.block a).Mem a := by
  refine ⟨Nat.le_refl a, ?_⟩
  simp only [block, HDR]
  omega

/-- `sbrk` returned disjoint pieces between `brk` and `top`, and not too many. -/
structure Source (A : Arena) (h : Heap) : Prop where
  apart : ∀ x, cover h.obtained x ≤ 1
  brk : A.brk ≤ h.top
  above : ∀ g ∈ h.got, A.brk ≤ g.1 ∧ g.1 + HDR * g.2 ≤ h.top
  bound : h.units < 2 ^ 32

structure SameSource (h h' : Heap) : Prop where
  got : h'.got = h.got
  top : h'.top = h.top

theorem SameSource.obtained (hs : SameSource h h') : h'.obtained = h.obtained := by
  unfold Heap.obtained
  rw [hs.got]

theorem SameSource.units (hs : SameSource h h') : h'.units = h.units := by
  unfold Heap.units
  rw [hs.got]

theorem Source.congr (hsrc : Source A h) (hs : SameSource h h') : Source A h' where
  apart := by
    rw [hs.obtained]
    exact hsrc.apart
  brk := by
    rw [hs.top]
    exact hsrc.brk
  above := by
    rw [hs.top, hs.got]
    exact hsrc.above
  bound := by
    rw [hs.units]
    exact hsrc.bound

/-- Both halves of `free` tie a block to the one after it in the list, and merge the two if
they touch. -/
def join (h : Heap) (a b : Nat) : Heap :=
  if h.stop a = b then (h.setSize a (h.size a + h.size b)).setPtr a (h.ptr b) else h.setPtr a b

theorem joinNext_eq (h : Heap) (bp p : Nat) : h.joinNext bp p = h.join bp (h.ptr p) := rfl

theorem joinPrev_eq (h : Heap) (bp p : Nat) : h.joinPrev bp p = h.join p bp := rfl

theorem sameSource_join (h : Heap) (a b : Nat) : SameSource h (h.join a b) := by
  unfold join
  split
  · exact ⟨rfl, rfl⟩
  · exact ⟨rfl, rfl⟩

theorem join_size_ne (hne : x ≠ a) : (h.join a b).size x = h.size x := by
  unfold join
  split
  · rw [setPtr_size, setSize_size, if_neg hne]
  · rw [setPtr_size]

theorem join_ptr_ne (hne : x ≠ a) : (h.join a b).ptr x = h.ptr x := by
  unfold join
  split
  · rw [setPtr_ptr, if_neg hne, setSize_ptr]
  · rw [setPtr_ptr, if_neg hne]

theorem join_ptr (hstop : h.stop a = b) : (h.join a b).ptr a = h.ptr b := by
  rw [join, if_pos hstop, setPtr_ptr, if_pos rfl]

structure Blocks (A : Arena) (h : Heap) (bs : List Nat) : Prop extends Source A h where
  pos : ∀ a ∈ bs, a ≠ A.base → 0 < (h.size a).toNat
  zero : h.size A.base = 0
  tiles : ∀ x, cover (bs.map h.block) x = cover h.obtained x
  sum : (bs.map fun a => (h.size a).toNat).sum = h.units

namespace Blocks

variable {bs' rest : List Nat}

theorem map_block (hsize : ∀ a ∈ bs, h'.size a = h.size a) : bs.map h'.block = bs.map h.block := by
  refine map_congr_left fun a ha => ?_
  unfold block
  rw [hsize a ha]

theorem map_size (hsize : ∀ a ∈ bs, h'.size a = h.size a) :
    (bs.map fun a => (h'.size a).toNat) = bs.map fun a => (h.size a).toNat :=
  map_congr_left fun a ha => by rw [hsize a ha]

section

variable (hb : Blocks A h bs)
include hb

theorem perm (hp : bs.Perm bs') : Blocks A h bs' :=
  { hb with
    pos := fun a ha => hb.pos a (hp.mem_iff.mpr ha)
    tiles := fun x => (cover_perm (hp.map _) x).symm.trans (hb.tiles x)
    sum := (hp.map _).sum_nat.symm.trans hb.sum }

theorem congr (hsize : ∀ a ∈ bs, h'.size a = h.size a)
    (hbase : h'.size A.base = h.size A.base) (hs : SameSource h h') : Blocks A h' bs := by
  refine { hb.toSource.congr hs with
    pos := fun a ha hne => ?_, zero := hbase.trans hb.zero, tiles := fun x => ?_, sum := ?_ }
  · rw [hsize a ha]
    exact hb.pos a ha hne
  · rw [map_block hsize, hs.obtained]
    exact hb.tiles x
  · rw [map_size hsize, hs.units]
    exact hb.sum

theorem once (x : Nat) : cover (bs.map h.block) x ≤ 1 := by
  rw [hb.tiles]
  exact hb.apart x

theorem brk_le (ha : a ∈ bs) (hne : a ≠ A.base) : A.brk ≤ a := by
  have hpos : 0 < cover (bs.map h.block) a :=
    cover_pos_iff.mpr ⟨_, mem_map_of_mem ha, block_mem_self (hb.pos a ha hne)⟩
  rw [hb.tiles] at hpos
  obtain ⟨e, he, hmem⟩ := cover_pos_iff.mp hpos
  obtain ⟨g, hg, rfl⟩ := mem_map.mp he
  have hbrk := (hb.above g hg).1
  have hle : g.1 ≤ a := hmem.1
  omega

theorem base_lt (ha : a ∈ bs) (hne : a ≠ A.base) : A.base + HDR ≤ a :=
  Nat.le_trans A.base_lt (hb.brk_le ha hne)

theorem stop_base : h.stop A.base = A.base := by
  unfold stop
  rw [hb.zero]
  rfl

end

theorem stop_le (hb : Blocks A h (a :: bs)) (hmem : b ∈ bs) (hne : b ≠ A.base) (hle : a ≤ b) :
    h.stop a ≤ b := by
  refine end_le_of_cover (e := h.block a) (f := h.block b) (fun x => ?_)
    (mem_map_of_mem hmem) ?_ hle
  · exact hb.once x
  have hpos := hb.pos b (mem_cons_of_mem a hmem) hne
  simp only [block, HDR]
  omega

theorem ne_of_mem (hb : Blocks A h (a :: bs)) (hmem : b ∈ bs) (hne : a ≠ A.base) : b ≠ a := by
  rintro rfl
  have hle := hb.stop_le hmem hne (Nat.le_refl b)
  have hpos := hb.pos b mem_cons_self hne
  simp only [stop, HDR] at hle
  omega

section

variable (hb : Blocks A h (a :: b :: rest)) (hstop : h.stop a = b)
include hb hstop

theorem size_join : ((h.join a b).size a).toNat = (h.size a).toNat + (h.size b).toNat := by
  have hsum := hb.sum
  have hbound := hb.bound
  simp only [map_cons, sum_cons] at hsum
  rw [join, if_pos hstop, setPtr_size, setSize_size, if_pos rfl, UInt32.toNat_add]
  exact Nat.mod_eq_of_lt (by omega)

theorem stop_join : (h.join a b).stop a = h.stop b := by
  have hadd := hb.size_join hstop
  unfold stop at hstop ⊢
  rw [hadd, Nat.mul_add]
  omega

theorem join (ha : a ≠ A.base) : Blocks A (h.join a b) (a :: rest) := by
  have hout : ∀ c ∈ rest, (h.join a b).size c = h.size c :=
    fun c hc => join_size_ne (hb.ne_of_mem (mem_cons_of_mem b hc) ha)
  have hsum := hb.sum
  simp only [map_cons, sum_cons] at hsum
  have hadd := hb.size_join hstop
  have hs := sameSource_join h a b
  refine { hb.toSource.congr hs with
    pos := fun c hc hne => ?_, zero := ?_, tiles := fun x => ?_, sum := ?_ }
  · rcases mem_cons.mp hc with rfl | hc
    · have hpos := hb.pos c mem_cons_self hne
      omega
    · rw [hout c hc]
      exact hb.pos c (mem_cons_of_mem _ (mem_cons_of_mem _ hc)) hne
  · rw [join_size_ne (Ne.symm ha)]
    exact hb.zero
  · have htiles := hb.tiles x
    have hstop' : h.block b = (a + HDR * (h.size a).toNat, HDR * (h.size b).toNat) := by
      rw [← hstop]
      rfl
    have hjoined : (h.join a b).block a = (a, HDR * (h.size a).toNat + HDR * (h.size b).toNat) := by
      simp only [block]
      rw [hadd, Nat.mul_add]
    simp only [map_cons] at htiles ⊢
    rw [hstop'] at htiles
    rw [hjoined, map_block hout, hs.obtained, ← htiles]
    exact (cover_merge ..).symm
  · simp only [map_cons, sum_cons]
    rw [map_size hout, hs.units, hadd]
    omega

end

theorem split (hb : Blocks A h (a :: rest)) (ha : a ≠ A.base) (hn : 0 < n.toNat)
    (hlt : n.toNat < (h.size a).toNat) (hq : q = a + HDR * ((h.size a).toNat - n.toNat))
    (hsize : h'.size a = h.size a - n) (hnew : h'.size q = n)
    (hother : ∀ c, c ≠ a → c ≠ q → h'.size c = h.size c) (hs : SameSource h h') :
    Blocks A h' (a :: q :: rest) := by
  have hsub : (h'.size a).toNat = (h.size a).toNat - n.toNat := by
    rw [hsize, UInt32.toNat_sub_of_le]
    exact UInt32.le_iff_toNat_le.mpr (Nat.le_of_lt hlt)
  have hin : (h.block a).Mem q := by
    simp only [block, Extent.Mem, HDR] at hq ⊢
    omega
  have hbase := hb.base_lt mem_cons_self ha
  have hqbase : q ≠ A.base := by
    omega
  have hfresh : ∀ c ∈ rest, c ≠ q := by
    rintro c hc rfl
    have hapart := rel_of_pairwise_cons (apart_of_cover hb.once) (mem_map_of_mem hc)
    exact hapart c ⟨hin, block_mem_self (hb.pos c (mem_cons_of_mem a hc) hqbase)⟩
  have hout : ∀ c ∈ rest, h'.size c = h.size c :=
    fun c hc => hother c (hb.ne_of_mem hc ha) (hfresh c hc)
  have hsum := hb.sum
  simp only [map_cons, sum_cons] at hsum
  refine { hb.toSource.congr hs with
    pos := fun c hc hne => ?_, zero := ?_, tiles := fun x => ?_, sum := ?_ }
  · rcases mem_cons.mp hc with rfl | hc
    · omega
    rcases mem_cons.mp hc with rfl | hc
    · rw [hnew]
      exact hn
    · rw [hout c hc]
      exact hb.pos c (mem_cons_of_mem _ hc) hne
  · rw [hother _ (Ne.symm ha) (Ne.symm hqbase)]
    exact hb.zero
  · have htiles := hb.tiles x
    have hleft : h'.block a = (a, HDR * ((h.size a).toNat - n.toNat)) := by
      simp only [block]
      rw [hsub]
    have hright : h'.block q = (a + HDR * ((h.size a).toNat - n.toNat), HDR * n.toNat) := by
      simp only [block]
      rw [hnew, hq]
    have hwhole : h.block a =
        (a, HDR * ((h.size a).toNat - n.toNat) + HDR * n.toNat) := by
      simp only [block]
      rw [← Nat.mul_add, Nat.sub_add_cancel (Nat.le_of_lt hlt)]
    simp only [map_cons] at htiles ⊢
    rw [hwhole] at htiles
    rw [hleft, hright, map_block hout, hs.obtained, ← htiles]
    exact cover_merge ..
  · simp only [map_cons, sum_cons]
    rw [map_size hout, hs.units, hsub, hnew]
    omega

end Blocks

/-! ## The free list -/

/-- The free list is `L`, and there are other blocks at `others`. -/
structure Shape (A : Arena) (h : Heap) (L others : List Nat) : Prop where
  base : A.base ∈ L
  path : Path h.ptr A.base L A.base
  ordered : L.Pairwise fun a b => h.stop a < b
  freep : h.freep ∈ L
  outside : A.base ∉ others
  blocks : Blocks A h (L ++ others)

theorem le_stop (h : Heap) (a : Nat) : a ≤ h.stop a := Nat.le_add_right ..

theorem increasing (hord : L.Pairwise fun a b => h.stop a < b) : L.Pairwise (· < ·) :=
  hord.imp fun hlt => Nat.lt_of_le_of_lt (h.le_stop _) hlt

theorem exists_place (hL : L.Pairwise (· < ·)) (hb : b ∈ L) (hlt : b < x)
    (hx : x ∉ L) : ∃ l1 p l2, L = l1 ++ p :: l2 ∧ p < x ∧ ∀ a ∈ l2, x < a := by
  induction L generalizing b with
  | nil => cases hb
  | cons c L ih =>
    obtain ⟨hc, hL⟩ := pairwise_cons.mp hL
    by_cases hin : ∃ a ∈ L, a < x
    · obtain ⟨a, ha, hax⟩ := hin
      obtain ⟨l1, p, l2, rfl, hp, hl2⟩ := ih hL ha hax fun hin => hx (mem_cons_of_mem c hin)
      exact ⟨c :: l1, p, l2, rfl, hp, hl2⟩
    refine ⟨[], c, L, rfl, ?_, fun a ha => ?_⟩
    · rcases mem_cons.mp hb with rfl | hb
      · exact hlt
      · exact absurd ⟨b, hb, hlt⟩ hin
    · have hle : x ≤ a := Nat.le_of_not_lt fun hlt => hin ⟨a, ha, hlt⟩
      have hne : x ≠ a := fun heq => hx (heq ▸ mem_cons_of_mem c ha)
      omega

theorem search_eq_walk (h : Heap) (bp fuel q : Nat) :
    h.search bp fuel q = walk h.ptr (fun q => decide (bp > q ∧ bp < h.ptr q ∨
      q ≥ h.ptr q ∧ (bp > q ∨ bp < h.ptr q))) fuel q := by
  induction fuel generalizing q with
  | zero => rfl
  | succ fuel ih =>
    unfold search walk
    rw [ih (h.ptr q)]
    by_cases h1 : bp > q ∧ bp < h.ptr q
    · rw [if_pos h1, if_pos (decide_eq_true (.inl h1))]
    rw [if_neg h1]
    by_cases h2 : q ≥ h.ptr q ∧ (bp > q ∨ bp < h.ptr q)
    · rw [if_pos h2, if_pos (decide_eq_true (.inr h2))]
    · rw [if_neg h2, if_neg (by simp only [decide_eq_true_eq]; exact not_or.mpr ⟨h1, h2⟩)]

namespace Shape

theorem nodup (hs : Shape A h L others) : L.Nodup :=
  (increasing hs.ordered).imp fun hlt => Nat.ne_of_lt hlt

theorem base_le (hs : Shape A h L others) (ha : a ∈ L ++ others) : A.base ≤ a := by
  by_cases hne : a = A.base
  · exact Nat.le_of_eq hne.symm
  · have hlt := hs.blocks.base_lt ha hne
    omega

theorem ne_base (hs : Shape A h L (bp :: others)) : bp ≠ A.base :=
  fun heq => hs.outside (heq ▸ mem_cons_self)

theorem not_mem (hs : Shape A h L others) (ha : a ∈ others) : a ∉ L := by
  intro hin
  obtain ⟨l1, l2, rfl⟩ := append_of_mem ha
  have hne : a ≠ A.base := fun heq => hs.outside (heq ▸ ha)
  have hperm : (L ++ (l1 ++ a :: l2)).Perm (a :: (L ++ (l1 ++ l2))) := by
    have hmid := @perm_middle _ a (L ++ l1) l2
    simpa using hmid
  exact (hs.blocks.perm hperm).ne_of_mem (mem_append_left _ hin) hne rfl

theorem search (hs : Shape A h L (bp :: others)) :
    ∃ l1 p l2, L = l1 ++ p :: l2 ∧ p < bp ∧ (∀ a ∈ l2, bp < a) ∧
      ∀ fuel, L.length < fuel → h.search bp fuel h.freep = some p := by
  have hbp := hs.ne_base
  have hmem : bp ∈ L ++ bp :: others := mem_append_right _ mem_cons_self
  have hlt := hs.blocks.base_lt hmem hbp
  have hfront : Blocks A h (bp :: (L ++ others)) := hs.blocks.perm perm_middle
  have hnot : bp ∉ L := fun hin => hfront.ne_of_mem (mem_append_left _ hin) hbp rfl
  have hinc := increasing hs.ordered
  obtain ⟨l1, p, l2, rfl, hp, hl2⟩ :=
    exists_place hinc hs.base (by simp only [HDR] at hlt; omega) hnot
  refine ⟨l1, p, l2, rfl, hp, hl2, fun fuel hfuel => ?_⟩
  rw [search_eq_walk]
  refine walk_cycle hs.path hs.nodup hs.freep (mem_append_right _ mem_cons_self)
    (fun q hq => ?_) hfuel
  rw [decide_eq_true_iff]
  have hbase := hs.base_le (mem_append_left _ hq)
  have hlast : ∀ a ∈ l1 ++ p :: l2, a < bp → a ≤ p := by
    intro a ha hab
    rcases mem_append.mp ha with ha | ha
    · exact Nat.le_of_lt ((pairwise_append.mp hinc).2.2 a ha p mem_cons_self)
    rcases mem_cons.mp ha with rfl | ha
    · exact Nat.le_refl a
    · exact absurd hab (Nat.not_lt_of_lt (hl2 a ha))
  have hpmem : p ∈ l1 ++ p :: l2 := mem_append_right _ mem_cons_self
  generalize l1 ++ p :: l2 = L at hs hq hnot hinc hlast hpmem
  obtain ⟨m1, m2, rfl⟩ := append_of_mem hq
  have hnext : h.ptr q = m2.headD A.base := hs.path.next_eq
  obtain ⟨_, hafter, hbefore⟩ := pairwise_append.mp hinc
  obtain ⟨hafter, hinc2⟩ := pairwise_cons.mp hafter
  -- `p` is reached from a smaller node, never from a larger one
  have hp2 : q < p → p ∈ m2 := by
    intro hqp
    rcases mem_append.mp hpmem with hin | hin
    · exact absurd (hbefore p hin q mem_cons_self) (Nat.not_lt_of_lt hqp)
    rcases mem_cons.mp hin with rfl | hin
    · exact absurd hqp (Nat.lt_irrefl _)
    · exact hin
  cases m2 with
  | nil =>
    rw [hnext]
    change _ ∨ q ≥ A.base ∧ (bp > q ∨ bp < A.base) ↔ q = p
    constructor
    · intro hstop
      have hqp := hlast q hq (by omega)
      by_contra hne
      exact absurd (hp2 (by omega)) not_mem_nil
    · omega
  | cons c m3 =>
    rw [hnext]
    have hqc : q < c := hafter c mem_cons_self
    change bp > q ∧ bp < c ∨ q ≥ c ∧ _ ↔ q = p
    constructor
    · intro hstop
      have hqp := hlast q hq (by omega)
      by_contra hne
      have hcp : c ≤ p := by
        rcases mem_cons.mp (hp2 (by omega)) with rfl | hin
        · exact Nat.le_refl p
        · exact Nat.le_of_lt ((pairwise_cons.mp hinc2).1 p hin)
      omega
    · rintro rfl
      have hcmem : c ∈ m1 ++ q :: c :: m3 :=
        mem_append_right _ (mem_cons_of_mem q mem_cons_self)
      have hne : c ≠ bp := fun heq => hnot (heq ▸ hcmem)
      have hnlt : ¬ c < bp := fun hcb => absurd (hlast c hcmem hcb) (Nat.not_le_of_lt hqc)
      exact .inl ⟨hp, by omega⟩

end Shape

theorem stop_congr (hsize : h'.size a = h.size a) : h'.stop a = h.stop a := by
  unfold stop
  rw [hsize]

theorem ordered_congr (hord : L.Pairwise fun a b => h.stop a < b)
    (hsize : ∀ a ∈ L, h'.size a = h.size a) : L.Pairwise fun a b => h'.stop a < b := by
  refine hord.imp_of_mem fun {a b} ha _ hlt => ?_
  rw [stop_congr (hsize a ha)]
  exact hlt

structure Placed (A : Arena) (h : Heap) (l1 : List Nat) (p bp : Nat) (l2 others : List Nat) :
    Prop where
  base : A.base ∈ l1 ++ [p]
  before : Path h.ptr A.base l1 p
  after : Path h.ptr (h.ptr bp) l2 A.base
  ordered : (l1 ++ p :: l2).Pairwise fun a b => h.stop a < b
  lt : p < bp
  stop_lt : ∀ a ∈ l2, h.stop bp < a
  ne_base : bp ≠ A.base
  outside : A.base ∉ others
  blocks : Blocks A h (bp :: (l1 ++ p :: l2) ++ others)

section Free

variable {l1 l2 : List Nat}

theorem joinNext_placed (hs : Shape A h (l1 ++ p :: l2) (bp :: others)) (hp : p < bp)
    (hl2 : ∀ a ∈ l2, bp < a) : ∃ l2', Placed A (h.joinNext bp p) l1 p bp l2' others ∧
      (h.size bp).toNat ≤ ((h.joinNext bp p).size bp).toNat := by
  rw [joinNext_eq]
  have hne := hs.ne_base
  have hout : A.base ∉ others := fun hin => hs.outside (mem_cons_of_mem bp hin)
  have hfront : Blocks A h (bp :: (l1 ++ p :: l2 ++ others)) := hs.blocks.perm perm_middle
  have hnot : ∀ a ∈ l1 ++ p :: l2, a ≠ bp :=
    fun a ha => hfront.ne_of_mem (mem_append_left _ ha) hne
  have hpath := hs.path.split
  have hbp := hs.base_le (mem_append_right _ (mem_cons_self : bp ∈ bp :: others))
  have hbase : A.base ∈ l1 ++ [p] := by
    rcases mem_append.mp hs.base with hin | hin
    · exact mem_append_left _ hin
    rcases mem_cons.mp hin with heq | hin
    · exact mem_append_right _ (mem_singleton.mpr heq)
    have hlt := hl2 _ hin
    omega
  have hbefore : Path (h.join bp (h.ptr p)).ptr A.base l1 p :=
    hpath.1.congr fun a ha => join_ptr_ne (hnot a (mem_append_left _ ha))
  have hord : ∀ L : List Nat, L.Sublist (l1 ++ p :: l2) →
      L.Pairwise fun a b => (h.join bp (h.ptr p)).stop a < b :=
    fun L hL => ordered_congr (hs.ordered.sublist hL) fun a ha =>
      join_size_ne (hnot a (hL.subset ha))
  by_cases hadj : h.stop bp = h.ptr p
  · cases l2 with
    | nil =>
      have hptr : h.ptr p = A.base := hpath.2
      have hle := h.le_stop bp
      omega
    | cons c l3 =>
      obtain ⟨hc, htail⟩ := hpath.2
      rw [hc] at hadj htail hbefore hord ⊢
      have hsub : (l1 ++ p :: l3).Sublist (l1 ++ p :: c :: l3) :=
        ((sublist_cons_self c l3).cons_cons p).append_left l1
      have hperm : (bp :: (l1 ++ p :: c :: l3 ++ others)).Perm
          (bp :: c :: (l1 ++ p :: l3 ++ others)) := by
        refine List.Perm.cons bp ?_
        have hmid := @perm_middle _ c (l1 ++ [p]) (l3 ++ others)
        simpa using hmid
      have hboth := hfront.perm hperm
      have hsize := hboth.size_join hadj
      refine ⟨l3, ⟨hbase, hbefore, ?_, hord _ hsub, hp, fun a ha => ?_, hne, hout,
        hboth.join hadj hne⟩, by omega⟩
      · rw [join_ptr hadj]
        refine htail.congr fun a ha => join_ptr_ne (hnot a ?_)
        exact hsub.subset (mem_append_right _ (mem_cons_of_mem p ha))
      · rw [hboth.stop_join hadj]
        have hord' := (pairwise_append.mp hs.ordered).2.1
        exact (pairwise_cons.mp (pairwise_cons.mp hord').2).1 a ha
  · have heq : h.join bp (h.ptr p) = h.setPtr bp (h.ptr p) := if_neg hadj
    have hsize : ∀ a, (h.join bp (h.ptr p)).size a = h.size a := by
      intro a
      rw [heq, setPtr_size]
    refine ⟨l2, ⟨hbase, hbefore, ?_, hord _ (List.Sublist.refl _), hp, fun a ha => ?_, hne, hout,
      hfront.congr (fun a _ => hsize a) (hsize _) (sameSource_join ..)⟩, ?_⟩
    · have hptr : (h.join bp (h.ptr p)).ptr bp = h.ptr p := by
        rw [heq, setPtr_ptr, if_pos rfl]
      rw [hptr]
      refine hpath.2.congr fun a ha => join_ptr_ne (hnot a ?_)
      exact mem_append_right _ (mem_cons_of_mem p ha)
    · rw [stop_congr (hsize bp)]
      cases l2 with
      | nil => cases ha
      | cons c l3 =>
        have hc : h.ptr p = c := hpath.2.1
        have hcmem : c ∈ l1 ++ p :: c :: l3 :=
          mem_append_right _ (mem_cons_of_mem p mem_cons_self)
        have hlt := hl2 c mem_cons_self
        have hle := hfront.stop_le (mem_append_left _ hcmem) (by omega) (Nat.le_of_lt hlt)
        rcases mem_cons.mp ha with rfl | ha
        · omega
        have hinc := (pairwise_append.mp (increasing hs.ordered)).2.1
        have hca := (pairwise_cons.mp (pairwise_cons.mp hinc).2).1 a ha
        omega
    · exact Nat.le_of_eq (congrArg UInt32.toNat (hsize bp)).symm

theorem joinPrev_shape (hp : Placed A h l1 p bp l2 others) :
    ∃ L, Shape A { h.joinPrev bp p with freep := p } L others ∧
      ∃ a ∈ L, (h.size bp).toNat ≤ ((h.joinPrev bp p).size a).toNat := by
  rw [joinPrev_eq]
  have hnd : (l1 ++ p :: l2).Nodup := (increasing hp.ordered).imp fun hlt => Nat.ne_of_lt hlt
  have hp1 : ∀ a ∈ l1, a ≠ p :=
    fun a ha => (nodup_append.mp hnd).2.2 a ha p mem_cons_self
  have hp2 : ∀ a ∈ l2, a ≠ p := by
    rintro a ha rfl
    exact (nodup_cons.mp (nodup_append.mp hnd).2.1).1 ha
  have hbp : bp ≠ p := Nat.ne_of_gt hp.lt
  have hbase : ∀ l, A.base ∈ l1 ++ p :: l := by
    intro l
    rcases mem_append.mp hp.base with hin | hin
    · exact mem_append_left _ hin
    · exact mem_append_right _ (mem_cons.mpr (.inl (mem_singleton.mp hin)))
  have hpmem : ∀ l, p ∈ l1 ++ p :: l := fun l => mem_append_right _ mem_cons_self
  have hbefore : Path (h.join p bp).ptr A.base l1 p :=
    hp.before.congr fun a ha => join_ptr_ne (hp1 a ha)
  have hafter : Path (h.join p bp).ptr (h.ptr bp) l2 A.base :=
    hp.after.congr fun a ha => join_ptr_ne (hp2 a ha)
  obtain ⟨hord1, hord2, hcross⟩ := pairwise_append.mp hp.ordered
  obtain ⟨hordp, hord2⟩ := pairwise_cons.mp hord2
  have hord1' : l1.Pairwise fun a b => (h.join p bp).stop a < b :=
    ordered_congr hord1 fun a ha => join_size_ne (hp1 a ha)
  have hord2' : l2.Pairwise fun a b => (h.join p bp).stop a < b :=
    ordered_congr hord2 fun a ha => join_size_ne (hp2 a ha)
  have hstop1 : ∀ a ∈ l1, (h.join p bp).stop a = h.stop a :=
    fun a ha => stop_congr (join_size_ne (hp1 a ha))
  have hstopbp : (h.join p bp).stop bp = h.stop bp := stop_congr (join_size_ne hbp)
  by_cases hadj : h.stop p = bp
  · have hpbase : p ≠ A.base := by
      rintro rfl
      exact hbp (hadj.symm.trans hp.blocks.stop_base)
    have hperm : (bp :: (l1 ++ p :: l2) ++ others).Perm (p :: bp :: (l1 ++ l2 ++ others)) := by
      have hmid := @perm_middle _ p (bp :: l1) (l2 ++ others)
      simpa using hmid
    have hboth := hp.blocks.perm hperm
    have hsize := hboth.size_join hadj
    refine ⟨l1 ++ p :: l2, ⟨hbase _, ?_, ?_, hpmem _, hp.outside, ?_⟩, p, hpmem _, by omega⟩
    · refine hbefore.join ?_
      rw [join_ptr hadj]
      exact hafter
    · refine pairwise_append.mpr ⟨hord1', pairwise_cons.mpr ⟨fun a ha => ?_, hord2'⟩, ?_⟩
      · change (h.join p bp).stop p < a
        rw [hboth.stop_join hadj]
        exact hp.stop_lt a ha
      intro a ha b hb
      change (h.join p bp).stop a < b
      rw [hstop1 a ha]
      exact hcross a ha b hb
    · have hperm' : (p :: (l1 ++ l2 ++ others)).Perm (l1 ++ p :: l2 ++ others) := by
        have hmid := (@perm_middle _ p l1 (l2 ++ others)).symm
        simpa using hmid
      exact ((hboth.join hadj hpbase).perm hperm').congr (fun _ _ => rfl) rfl ⟨rfl, rfl⟩
  · have heq : h.join p bp = h.setPtr p bp := if_neg hadj
    have hsize : ∀ a, (h.join p bp).size a = h.size a := by
      intro a
      rw [heq, setPtr_size]
    have hlt : h.stop p < bp := by
      have hperm : (bp :: (l1 ++ p :: l2) ++ others).Perm (p :: (bp :: l1 ++ l2 ++ others)) := by
        have hmid := @perm_middle _ p (bp :: l1) (l2 ++ others)
        simpa using hmid
      have hle := (hp.blocks.perm hperm).stop_le (b := bp) (by simp) hp.ne_base
        (Nat.le_of_lt hp.lt)
      omega
    refine ⟨l1 ++ p :: bp :: l2, ⟨hbase _, ?_, ?_, hpmem _, hp.outside, ?_⟩, bp, ?_, ?_⟩
    · refine hbefore.join ⟨?_, ?_⟩
      · rw [heq, setPtr_ptr, if_pos rfl]
      have hptr : (h.join p bp).ptr p = bp := by
        rw [heq, setPtr_ptr, if_pos rfl]
      rw [hptr, join_ptr_ne hbp]
      exact hafter
    · refine pairwise_append.mpr ⟨hord1', pairwise_cons.mpr ⟨fun a ha => ?_,
        pairwise_cons.mpr ⟨fun a ha => ?_, hord2'⟩⟩, fun a ha b hb => ?_⟩
      · change (h.join p bp).stop p < a
        rw [stop_congr (hsize p)]
        rcases mem_cons.mp ha with rfl | ha
        · exact hlt
        · exact hordp a ha
      · change (h.join p bp).stop bp < a
        rw [hstopbp]
        exact hp.stop_lt a ha
      change (h.join p bp).stop a < b
      rw [hstop1 a ha]
      have hap := hcross a ha p mem_cons_self
      rcases mem_cons.mp hb with rfl | hb
      · exact hap
      rcases mem_cons.mp hb with rfl | hb
      · exact Nat.lt_trans hap hp.lt
      · exact hcross a ha b (mem_cons_of_mem p hb)
    · have hperm : (bp :: (l1 ++ p :: l2) ++ others).Perm (l1 ++ p :: bp :: l2 ++ others) := by
        have hmid := (@perm_middle _ bp (l1 ++ [p]) (l2 ++ others)).symm
        simpa using hmid
      exact (hp.blocks.perm hperm).congr (fun a _ => hsize a) (hsize _) 
        ⟨(sameSource_join h p bp).got, (sameSource_join h p bp).top⟩
    · exact mem_append_right _ (mem_cons_of_mem p mem_cons_self)
    · exact Nat.le_of_eq (congrArg UInt32.toNat (hsize bp)).symm

theorem freeBlock_shape (hs : Shape A h L (bp :: others)) :
    ∃ h' L', (∀ fuel, L.length < fuel → h.freeBlock fuel bp = some h') ∧ Shape A h' L' others ∧
      (∀ a ∈ others, h'.size a = h.size a) ∧ SameSource h h' ∧
      ∃ a ∈ L', (h.size bp).toNat ≤ (h'.size a).toNat := by
  obtain ⟨l1, p, l2, rfl, hp, hl2, hsearch⟩ := hs.search
  obtain ⟨l2', hplaced, hsize⟩ := joinNext_placed hs hp hl2
  obtain ⟨L', hshape, a, ha, hle⟩ := joinPrev_shape hplaced
  have hfront : Blocks A h (bp :: (l1 ++ p :: l2 ++ others)) := hs.blocks.perm perm_middle
  refine ⟨_, L', fun fuel hfuel => ?_, hshape, fun b hb => ?_, ?_, a, ha, Nat.le_trans hsize hle⟩
  · unfold freeBlock
    rw [hsearch fuel hfuel]
    rfl
  · have hbbp : b ≠ bp := hfront.ne_of_mem (mem_append_right _ hb) hs.ne_base
    have hbp : b ≠ p := by
      rintro rfl
      exact hs.not_mem (mem_cons_of_mem bp hb) (mem_append_right _ mem_cons_self)
    change ((h.joinNext bp p).joinPrev bp p).size b = h.size b
    rw [joinPrev_eq, join_size_ne hbp, joinNext_eq, join_size_ne hbbp]
  · have h1 := sameSource_join h bp (h.ptr p)
    have h2 := sameSource_join (h.joinNext bp p) p bp
    exact ⟨h2.got.trans h1.got, h2.top.trans h1.top⟩

theorem freeBlock_mono (hf : h.freeBlock fuel bp = some h') (hle : fuel ≤ fuel') :
    h.freeBlock fuel' bp = some h' := by
  unfold freeBlock at hf ⊢
  obtain ⟨p, hp, heq⟩ := Option.map_eq_some_iff.mp hf
  rw [search_eq_walk] at hp ⊢
  rw [walk_mono hp hle, Option.map_some, heq]

end Free

/-! ## The search of `malloc` -/

section Malloc

variable {E : Sbrk} {S : Heap → UInt32 → Option (Option Nat × Heap)} {prevp t : Nat}
  {r : Heap × Nat} {w : List Nat}

theorem morecore_mono (hm : h.morecore S fuel n = some r) (hle : fuel ≤ fuel') :
    h.morecore S fuel' n = some r := by
  unfold morecore at hm ⊢
  split
  · rename_i heq
    rw [heq] at hm
    cases hm
  · rename_i heq
    rw [heq] at hm
    exact hm
  rename_i heq
  rw [heq] at hm
  obtain ⟨h1, hf, hr⟩ := Option.map_eq_some_iff.mp hm
  rw [freeBlock_mono hf hle, Option.map_some, hr]

theorem mallocLoop_mono (hm : h.mallocLoop S n fuel prevp p = some r)
    (hle : fuel ≤ fuel') : h.mallocLoop S n fuel' prevp p = some r := by
  induction fuel generalizing h prevp p fuel' with
  | zero => cases hm
  | succ fuel ih =>
    obtain ⟨k, rfl⟩ : ∃ k, fuel' = k + 1 := ⟨fuel' - 1, by omega⟩
    have hk : fuel ≤ k := Nat.le_of_succ_le_succ hle
    rw [mallocLoop] at hm ⊢
    split at hm
    · rename_i hsize
      rw [if_pos hsize]
      exact hm
    rename_i hsize
    rw [if_neg hsize]
    split at hm
    · rename_i hfreep
      rw [if_pos hfreep]
      rcases hmore : h.morecore S fuel n with _ | ⟨h', p'⟩
      · rw [hmore] at hm
        cases hm
      rw [hmore] at hm
      rw [morecore_mono hmore hk]
      cases p' with
      | zero => exact hm
      | succ p' => exact ih hm hk
    · rename_i hfreep
      rw [if_neg hfreep]
      exact ih hm hk

theorem mallocLoop_skip (hw : Path h.ptr p w t)
    (hsmall : ∀ a ∈ w, ¬ h.size a ≥ n ∧ a ≠ h.freep) (hprev : h.ptr prevp = p) :
    ∃ q, q ∈ prevp :: w ∧ h.ptr q = t ∧
      ∀ fuel, h.mallocLoop S n (fuel + w.length) prevp p = h.mallocLoop S n fuel q t := by
  induction w generalizing p prevp with
  | nil =>
    obtain rfl : p = t := hw
    exact ⟨prevp, mem_cons_self, hprev, fun fuel => rfl⟩
  | cons a w ih =>
    obtain ⟨rfl, htail⟩ := hw
    obtain ⟨hsize, hne⟩ := hsmall p mem_cons_self
    obtain ⟨q, hq, ht, hrun⟩ := ih htail (fun b hb => hsmall b (mem_cons_of_mem p hb)) rfl
    refine ⟨q, mem_cons_of_mem prevp hq, ht, fun fuel => ?_⟩
    rw [← hrun fuel, length_cons, ← Nat.add_assoc, mallocLoop, if_neg hsize, if_neg hne]

/-- A round of the loop ends at a block that is large enough, or at `freep` when there
is none. -/
theorem mallocLoop_round (hs : Shape A h L others) :
    (∃ q ∈ L, h.size (h.ptr q) ≥ n ∧ ∀ fuel, L.length < fuel →
      h.mallocLoop S n fuel h.freep (h.ptr h.freep) = some (h.carve n q (h.ptr q))) ∨
    (∀ a ∈ L, ¬ h.size a ≥ n) ∧ ∃ q, ∀ fuel,
      h.mallocLoop S n (fuel + L.length) h.freep (h.ptr h.freep) =
        h.mallocLoop S n (fuel + 1) q h.freep := by
  obtain ⟨u, v, hL⟩ := append_of_mem hs.freep
  have hpath : Path h.ptr A.base (u ++ h.freep :: v) A.base := hL ▸ hs.path
  have hnd : (u ++ h.freep :: v).Nodup := hL ▸ hs.nodup
  have hround : Path h.ptr (h.ptr h.freep) (v ++ u) h.freep :=
    Path.append_iff.mpr ⟨A.base, hpath.split.2, hpath.split.1⟩
  have hother : ∀ a ∈ v ++ u, a ≠ h.freep := by
    rintro a ha rfl
    have hperm : (u ++ h.freep :: v).Perm (h.freep :: (v ++ u)) :=
      perm_middle.trans (List.Perm.cons _ perm_append_comm)
    exact (nodup_cons.mp (hperm.nodup_iff.mp hnd)).1 ha
  have hsub : ∀ a ∈ h.freep :: (v ++ u), a ∈ L := by
    intro a ha
    rw [hL]
    exact (perm_middle.trans (List.Perm.cons _ perm_append_comm)).mem_iff.mpr ha
  have hlen : L.length = (v ++ u).length + 1 := by
    rw [hL]
    simp only [length_append, length_cons]
    omega
  rcases hfind : (v ++ u).find? (fun a => decide (h.size a ≥ n)) with _ | t
  · have hnone : ∀ a ∈ v ++ u, ¬ h.size a ≥ n := by
      intro a ha
      have hfail := List.find?_eq_none.mp hfind a ha
      rwa [decide_eq_true_iff] at hfail
    obtain ⟨q, hq, hnext, hrun⟩ := mallocLoop_skip (S := S) (n := n) hround
      (fun a ha => ⟨hnone a ha, hother a ha⟩) rfl
    by_cases hsize : h.size h.freep ≥ n
    · refine .inl ⟨q, hsub q hq, hnext ▸ hsize, fun fuel hfuel => ?_⟩
      obtain ⟨k, rfl⟩ : ∃ k, fuel = (k + 1) + (v ++ u).length :=
        ⟨fuel - (v ++ u).length - 1, by omega⟩
      rw [hrun, mallocLoop, if_pos hsize, hnext]
    refine .inr ⟨fun a ha => ?_, q, fun fuel => ?_⟩
    · have hcase : a ∈ h.freep :: (v ++ u) := by
        rw [hL] at ha
        exact (perm_middle.trans (List.Perm.cons _ perm_append_comm)).mem_iff.mp ha
      rcases mem_cons.mp hcase with rfl | hin
      · exact hsize
      · exact hnone a hin
    · rw [hlen, ← hrun (fuel + 1)]
      congr 1
      omega
  · obtain ⟨ht, w, z, hsplit, hw⟩ := List.find?_eq_some_iff_append.mp hfind
    rw [decide_eq_true_iff] at ht
    rw [hsplit] at hround hother hsub hlen
    have hsmall : ∀ a ∈ w, ¬ h.size a ≥ n ∧ a ≠ h.freep := by
      intro a ha
      refine ⟨?_, hother a (mem_append_left _ ha)⟩
      simpa using hw a ha
    obtain ⟨q, hq, hnext, hrun⟩ := mallocLoop_skip (S := S) hround.split.1 hsmall rfl
    refine .inl ⟨q, ?_, hnext ▸ ht, fun fuel hfuel => ?_⟩
    · refine hsub q ?_
      rcases mem_cons.mp hq with rfl | hq
      · exact mem_cons_self
      · exact mem_cons_of_mem _ (mem_append_left _ hq)
    · rw [length_append, length_cons] at hlen
      obtain ⟨k, rfl⟩ : ∃ k, fuel = (k + 1) + w.length := ⟨fuel - w.length - 1, by omega⟩
      rw [hrun, mallocLoop, if_pos ht, hnext]

theorem carve_shape (hs : Shape A h L others) (hq : q ∈ L) (hn : 0 < n.toNat)
    (hsize : h.size (h.ptr q) ≥ n) :
    ∃ h' a L', h.carve n q (h.ptr q) = (h', a + HDR) ∧ Shape A h' L' (a :: others) ∧
      h'.size a = n ∧ (∀ b ∈ others, h'.size b = h.size b) ∧ SameSource h h' := by
  have hle : n.toNat ≤ (h.size (h.ptr q)).toNat := UInt32.le_iff_toNat_le.mp hsize
  -- the block is not `base`, so it comes after its predecessor in the list
  have htb : h.ptr q ≠ A.base := by
    intro heq
    rw [heq, hs.blocks.zero] at hle
    exact absurd hn (Nat.not_lt.mpr hle)
  obtain ⟨l1, m, rfl⟩ := append_of_mem hq
  have hpath := hs.path.split
  obtain ⟨t, l2, rfl⟩ : ∃ t l2, m = t :: l2 := by
    cases m with
    | nil => exact absurd hpath.2 htb
    | cons t l2 => exact ⟨t, l2, rfl⟩
  obtain ⟨ht, htail⟩ := hpath.2
  rw [ht] at htb hle hsize htail ⊢
  have htmem : t ∈ l1 ++ q :: t :: l2 :=
    mem_append_right _ (mem_cons_of_mem q mem_cons_self)
  have hperm : (l1 ++ q :: t :: l2 ++ others).Perm (t :: (l1 ++ q :: l2 ++ others)) := by
    have hmid := @perm_middle _ t (l1 ++ [q]) (l2 ++ others)
    simpa using hmid
  have hnd := hs.nodup
  have hqnd : ∀ a, a ∈ l1 ∨ a ∈ t :: l2 → a ≠ q := by
    rintro a (ha | ha) rfl
    · exact (nodup_append.mp hnd).2.2 a ha a mem_cons_self rfl
    · exact (nodup_cons.mp (nodup_append.mp hnd).2.1).1 ha
  unfold carve
  by_cases hexact : h.size t = n
  · rw [if_pos hexact]
    have hsub : (l1 ++ q :: l2).Sublist (l1 ++ q :: t :: l2) :=
      ((sublist_cons_self t l2).cons_cons q).append_left l1
    have hbase : A.base ∈ l1 ++ q :: l2 := by
      have hin := (@perm_middle _ t (l1 ++ [q]) l2).mem_iff.mp
        (by simpa using hs.base : A.base ∈ l1 ++ [q] ++ t :: l2)
      rcases mem_cons.mp hin with heq | hin
      · exact absurd heq.symm htb
      · simpa using hin
    refine ⟨_, t, l1 ++ q :: l2, rfl, ⟨hbase, ?_, ?_, ?_, ?_, ?_⟩, ?_, fun b _ => ?_, rfl, rfl⟩
    · refine Path.join (hpath.1.congr fun a ha => ?_) ?_
      · exact (setPtr_ptr ..).trans (if_neg (hqnd a (.inl ha)))
      have hptr : ∀ b, ({ h.setPtr q (h.ptr t) with freep := q } : Heap).ptr b =
          if b = q then h.ptr t else h.ptr b := fun b => setPtr_ptr ..
      rw [hptr, if_pos rfl]
      exact htail.congr fun a ha => by
        rw [hptr, if_neg (hqnd a (.inr (mem_cons_of_mem t ha)))]
    · exact ordered_congr (hs.ordered.sublist hsub) fun a _ => setPtr_size ..
    · exact mem_append_right _ mem_cons_self
    · exact not_mem_cons_of_ne_of_not_mem (Ne.symm htb) hs.outside
    · exact ((hs.blocks.perm hperm).perm perm_middle.symm).congr
        (fun a _ => setPtr_size ..) (setPtr_size ..) ⟨rfl, rfl⟩
    · exact (setPtr_size ..).trans hexact
    · exact setPtr_size ..
  · rw [if_neg hexact]
    have hlt : n.toNat < (h.size t).toNat := by
      have hne : n.toNat ≠ (h.size t).toNat := fun heq => hexact (UInt32.toNat_inj.mp heq.symm)
      omega
    have hsub : (h.size t - n).toNat = (h.size t).toNat - n.toNat :=
      UInt32.toNat_sub_of_le _ _ hsize
    have hstop : (h.setSize t (h.size t - n)).stop t = t + HDR * ((h.size t).toNat - n.toNat) := by
      unfold stop
      rw [setSize_size, if_pos rfl, hsub]
    simp only
    rw [hstop]
    generalize hnew : t + HDR * ((h.size t).toNat - n.toNat) = c
    have hct : c ≠ t := by
      simp only [HDR] at hnew
      omega
    have hsz : ∀ b, ({ (h.setSize t (h.size t - n)).setSize c n with freep := q } : Heap).size b =
        if b = c then n else if b = t then h.size t - n else h.size b := by
      intro b
      refine (setSize_size ..).trans ?_
      rw [setSize_size]
    have hblocks : Blocks A { (h.setSize t (h.size t - n)).setSize c n with freep := q }
        (t :: c :: (l1 ++ q :: l2 ++ others)) := by
      refine (hs.blocks.perm hperm).split htb hn hlt hnew.symm ?_ ?_ ?_ ⟨rfl, rfl⟩
      · rw [hsz, if_neg (Ne.symm hct), if_pos rfl]
      · rw [hsz, if_pos rfl]
      · intro b hbt hbc
        rw [hsz, if_neg hbc, if_neg hbt]
    have hcb : c ≠ A.base := by
      have hlt := hs.blocks.base_lt (mem_append_left _ htmem) htb
      omega
    have hfresh : ∀ b ∈ l1 ++ q :: t :: l2 ++ others, b ≠ c := by
      intro b hb
      have hin := hperm.mem_iff.mp hb
      have hperm' := @perm_middle _ c [t] (l1 ++ q :: l2 ++ others)
      refine (hblocks.perm hperm').ne_of_mem ?_ hcb
      exact hin
    refine ⟨_, c, l1 ++ q :: t :: l2, rfl, ⟨hs.base, ?_, ?_, hq, ?_, ?_⟩, ?_, fun b hb => ?_,
      rfl, rfl⟩
    · exact hs.path.congr fun a _ => (setSize_ptr ..).trans (setSize_ptr ..)
    · refine hs.ordered.imp_of_mem fun {a b} ha _ hab => ?_
      refine Nat.lt_of_le_of_lt (Nat.add_le_add_left (Nat.mul_le_mul_left HDR ?_) a) hab
      rw [hsz, if_neg (hfresh a (mem_append_left _ ha))]
      split
      · rename_i hat
        rw [hat, hsub]
        exact Nat.sub_le ..
      · exact le_rfl
    · exact not_mem_cons_of_ne_of_not_mem (Ne.symm hcb) hs.outside
    · have hperm' : (t :: c :: (l1 ++ q :: l2 ++ others)).Perm
          (l1 ++ q :: t :: l2 ++ c :: others) := by
        refine (List.Perm.swap c t _).trans ?_
        exact (List.Perm.cons c hperm.symm).trans perm_middle.symm
      exact hblocks.perm hperm'
    · rw [hsz, if_pos rfl]
    · have hbt : b ≠ t := by
        rintro rfl
        exact hs.not_mem hb htmem
      rw [hsz, if_neg (hfresh b (mem_append_right _ hb)), if_neg hbt]

theorem Blocks.stop_le_top (hb : Blocks A h bs) (ha : a ∈ bs) (hne : a ≠ A.base) :
    h.stop a ≤ h.top := by
  have hpos := hb.pos a ha hne
  have hin : (h.block a).Mem (h.stop a - 1) := by
    simp only [block, Extent.Mem, stop, HDR]
    omega
  have hcov : 0 < cover (bs.map h.block) (h.stop a - 1) :=
    cover_pos_iff.mpr ⟨_, mem_map_of_mem ha, hin⟩
  rw [hb.tiles] at hcov
  obtain ⟨e, he, hmem⟩ := cover_pos_iff.mp hcov
  obtain ⟨g, hg, rfl⟩ := mem_map.mp he
  have habove := (hb.above g hg).2
  have hlt : h.stop a - 1 < g.1 + HDR * g.2 := hmem.2
  omega

theorem sbrk_shape (hs : Shape A h L others) {nu : UInt32} (gap : Nat) (hnu : 0 < nu.toNat)
    (hlimit : h.units + nu.toNat < 2 ^ 32) : Shape A
      ({ h with
        calls := h.calls + 1
        top := h.top + gap + HDR * nu.toNat
        got := (h.top + gap, nu.toNat) :: h.got }.setSize (h.top + gap) nu) L
      ((h.top + gap) :: others) := by
  generalize hh2 : ({ h with
        calls := h.calls + 1
        top := h.top + gap + HDR * nu.toNat
        got := (h.top + gap, nu.toNat) :: h.got } : Heap).setSize (h.top + gap) nu = h2
  generalize hhp : h.top + gap = hp at hh2 ⊢
  have hgot : h2.got = (hp, nu.toNat) :: h.got := by
    rw [← hh2]
    rfl
  have htop : h2.top = hp + HDR * nu.toNat := by
    rw [← hh2]
    rfl
  have hptr : ∀ a, h2.ptr a = h.ptr a := by
    intro a
    rw [← hh2, setSize_ptr]
    rfl
  have hsize : ∀ a, h2.size a = if a = hp then nu else h.size a := by
    intro a
    rw [← hh2, setSize_size]
    rfl
  have hfreep : h2.freep = h.freep := by
    rw [← hh2]
    rfl
  have hbrk := hs.blocks.brk
  have hbase := A.base_lt
  have hbasehp : A.base < hp := by
    simp only [HDR] at hbase
    omega
  -- the old blocks are below the new one
  have hne : ∀ a ∈ L ++ others, a ≠ hp := by
    rintro a ha rfl
    by_cases hab : a = A.base
    · omega
    have hle := hs.blocks.stop_le_top ha hab
    have hpos := hs.blocks.pos a ha hab
    simp only [stop, HDR] at hle
    omega
  have hold : ∀ a ∈ L ++ others, h2.size a = h.size a := by
    intro a ha
    rw [hsize, if_neg (hne a ha)]
  have hobt : h2.obtained = (hp, HDR * nu.toNat) :: h.obtained := by
    unfold obtained
    rw [hgot]
    rfl
  have hunits : h2.units = nu.toNat + h.units := by
    unfold units
    rw [hgot]
    rfl
  refine ⟨hs.base, hs.path.congr fun a _ => hptr a,
    ordered_congr hs.ordered fun a ha => hold a (mem_append_left _ ha),
    by rw [hfreep]; exact hs.freep, ?_, ?_⟩
  · exact not_mem_cons_of_ne_of_not_mem (Nat.ne_of_lt hbasehp) hs.outside
  have hnew : Blocks A h2 (hp :: (L ++ others)) := by
    refine { apart := fun x => ?_, brk := ?_, above := fun g hg => ?_, bound := ?_,
             pos := fun a ha hab => ?_, zero := ?_, tiles := fun x => ?_, sum := ?_ }
    · rw [hobt, cover_cons]
      split
      · rename_i hmem
        have hx : h.top ≤ x := by
          have hle : hp ≤ x := hmem.1
          omega
        have hzero : ¬ 0 < cover h.obtained x := by
          intro hpos
          obtain ⟨e, he, hin⟩ := cover_pos_iff.mp hpos
          obtain ⟨g, hg, rfl⟩ := mem_map.mp he
          have habove := (hs.blocks.above g hg).2
          have hlt : x < g.1 + HDR * g.2 := hin.2
          omega
        omega
      · have hone := hs.blocks.apart x
        omega
    · omega
    · rw [hgot] at hg
      rcases mem_cons.mp hg with rfl | hg
      · exact ⟨by simp only; omega, Nat.le_of_eq htop.symm⟩
      · have habove := hs.blocks.above g hg
        exact ⟨habove.1, by omega⟩
    · omega
    · rcases mem_cons.mp ha with rfl | ha
      · rw [hsize, if_pos rfl]
        exact hnu
      · rw [hold a ha]
        exact hs.blocks.pos a ha hab
    · rw [hsize, if_neg (by omega)]
      exact hs.blocks.zero
    · rw [hobt, map_cons, cover_cons, cover_cons, Blocks.map_block hold, hs.blocks.tiles]
      have hblock : h2.block hp = (hp, HDR * nu.toNat) := by
        unfold block
        rw [hsize, if_pos rfl]
      rw [hblock]
    · rw [map_cons, sum_cons, Blocks.map_size hold, hs.blocks.sum, hunits, hsize, if_pos rfl]
  exact hnew.perm perm_middle.symm

theorem calls_shape (hs : Shape A h L others) (k : Nat) : Shape A { h with calls := k } L others :=
  ⟨hs.base, hs.path.congr fun _ _ => rfl, ordered_congr hs.ordered fun _ _ => rfl, hs.freep,
    hs.outside, hs.blocks.congr (fun _ _ => rfl) rfl ⟨rfl, rfl⟩⟩

/-- `morecore` ends; it fails, or there is a block that is large enough. -/
def Grown (A : Arena) (E : Sbrk) (h : Heap) (n : UInt32) (L others : List Nat) : Prop :=
  ∃ h' L', Shape A h' L' others ∧ (∀ a ∈ others, h'.size a = h.size a) ∧
    ((∀ fuel, h.morecore (sbrk E) fuel n = some (h', 0)) ∨
      (∀ fuel, L.length < fuel → h.morecore (sbrk E) fuel n = some (h', h'.freep)) ∧
        ∃ a ∈ L', h'.size a ≥ n)

theorem le_installed (n : UInt32) : n.toNat ≤ (installed n).toNat := by
  unfold installed
  split
  · rename_i hlt
    exact Nat.le_of_lt (UInt32.lt_iff_toNat_lt.mp hlt)
  · rfl

theorem morecore_refused (hs : Shape A h L others)
    (hsb : h.sbrk E (installed n) = some (none, { h with calls := h.calls + 1 })) :
    Grown A E h n L others := by
  refine ⟨_, L, calls_shape hs (h.calls + 1), fun _ _ => rfl, .inl fun fuel => ?_⟩
  unfold morecore
  rw [hsb]

theorem morecore_grown (hs : Shape A h L others) (hE : E.limit < 2 ^ 32) (hn : 0 < n.toNat) :
    Grown A E h n L others := by
  have hle := le_installed n
  cases hans : E.answer h.calls with
  | none =>
    refine morecore_refused hs ?_
    unfold sbrk
    rw [hans]
  | some gap =>
    by_cases hlimit : h.units + (installed n).toNat ≤ E.limit
    · have hshape := sbrk_shape hs gap (Nat.lt_of_lt_of_le hn hle)
        (Nat.lt_of_le_of_lt hlimit hE)
      have hsb : h.sbrk E (installed n) = some (some (h.top + gap), { h with
            calls := h.calls + 1
            top := h.top + gap + HDR * (installed n).toNat
            got := (h.top + gap, (installed n).toNat) :: h.got }) := by
        unfold sbrk
        rw [hans]
        exact if_pos hlimit
      obtain ⟨h', L', hrun, hs', hsizes, _, a, ha, hbig⟩ := freeBlock_shape hshape
      refine ⟨h', L', hs', fun b hb => ?_, .inr ⟨fun fuel hfuel => ?_, a, ha, ?_⟩⟩
      · rw [hsizes b hb, setSize_size, if_neg]
        · rfl
        rintro rfl
        have hperm : (L ++ (h.top + gap) :: others).Perm ((h.top + gap) :: (L ++ others)) :=
          perm_middle
        exact (hshape.blocks.perm hperm).ne_of_mem (mem_append_right _ hb)
          hshape.ne_base rfl
      · unfold morecore
        rw [hsb]
        simp only [hrun fuel hfuel, Option.map_some]
      · rw [setSize_size, if_pos rfl] at hbig
        exact UInt32.le_iff_toNat_le.mpr (Nat.le_trans hle hbig)
    · refine morecore_refused hs ?_
      unfold sbrk
      rw [hans]
      exact if_neg hlimit

def Served (A : Arena) (h : Heap) (n : UInt32) (others : List Nat) (r : Heap × Nat) : Prop :=
  (∀ a ∈ others, r.1.size a = h.size a) ∧
    ((r.2 = 0 ∧ ∃ L, Shape A r.1 L others) ∨
      ∃ a L, r.2 = a + HDR ∧ r.1.size a = n ∧ Shape A r.1 L (a :: others))

theorem mallocLoop_served (hs : Shape A h L others) (hE : E.limit < 2 ^ 32) (hn : 0 < n.toNat) :
    ∃ N r, (∀ fuel, N ≤ fuel → h.mallocLoop (sbrk E) n fuel h.freep (h.ptr h.freep) = some r) ∧
      Served A h n others r := by
  rcases mallocLoop_round (S := sbrk E) (n := n) hs with ⟨q, hq, hsize, hrun⟩ | ⟨hnone, q, hrun⟩
  · obtain ⟨h', a, L', hcarve, hs', ha, hsizes, _⟩ := carve_shape hs hq hn hsize
    refine ⟨L.length + 1, (h', a + HDR), fun fuel hfuel => ?_, hsizes, .inr ⟨a, L', rfl, ha, hs'⟩⟩
    rw [hrun fuel hfuel, hcarve]
  obtain ⟨h', L', hs', hsizes, hmore⟩ := morecore_grown hs hE hn
  -- there is no block that is large enough: the loop comes to `freep` and asks for more
  have hask : ∀ {k h1 p}, h.morecore (sbrk E) k n = some (h1, p) →
      h.mallocLoop (sbrk E) n (k + L.length) h.freep (h.ptr h.freep) =
        if p = 0 then some (h1, 0) else h1.mallocLoop (sbrk E) n k p (h1.ptr p) := by
    intro k h1 p hmore
    rw [hrun, mallocLoop, if_neg (hnone _ hs.freep), if_pos rfl, hmore]
    cases p with
    | zero => rfl
    | succ p => rfl
  rcases hmore with hfail | ⟨hok, a, ha, hbig⟩
  · refine ⟨L.length, (h', 0), fun fuel hfuel => ?_, hsizes, .inl ⟨rfl, L', hs'⟩⟩
    obtain ⟨k, rfl⟩ : ∃ k, fuel = k + L.length := ⟨fuel - L.length, by omega⟩
    rw [hask (hfail k), if_pos rfl]
  rcases mallocLoop_round (S := sbrk E) (n := n) hs' with ⟨q, hq, hsize, hrun'⟩ | ⟨hnone', _⟩
  · obtain ⟨h'', b, L'', hcarve, hs'', hb, hsizes', _⟩ := carve_shape hs' hq hn hsize
    refine ⟨L.length + L.length + L'.length + 1, (h'', b + HDR), fun fuel hfuel => ?_,
      fun c hc => (hsizes' c hc).trans (hsizes c hc), .inr ⟨b, L'', rfl, hb, hs''⟩⟩
    obtain ⟨k, rfl⟩ : ∃ k, fuel = k + L.length := ⟨fuel - L.length, by omega⟩
    have hpos : h'.freep ≠ 0 := by
      have hle := hs'.base_le (mem_append_left _ hs'.freep)
      have hbase := A.base_pos
      omega
    rw [hask (hok k (by omega)), if_neg hpos, hrun' k (by omega), hcarve]
  · exact absurd hbig (hnone' a ha)

end Malloc

end Heap

theorem nunits_pos (nbytes : UInt32) : 0 < (nunits nbytes).toNat := by
  have hlt := nbytes.toNat_lt
  unfold nunits HDR
  rw [UInt32.toNat_ofNat']
  omega

theorem le_nunits (nbytes : UInt32) : nbytes.toNat + HDR ≤ HDR * (nunits nbytes).toNat := by
  have hlt := nbytes.toNat_lt
  unfold nunits HDR
  rw [UInt32.toNat_ofNat']
  omega

end Xv6.User
