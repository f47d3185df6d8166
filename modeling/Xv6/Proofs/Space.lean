import Xv6.Lib.Slots
import Xv6.Proofs.Freewalk
import Mathlib.Order.Interval.Finset.Nat
/-!
# Address spaces

A page table with the user pages `0` to `n - 1` mapped, and above them the
entries of a fixed map `top`.  Together with the free list it accounts for a
multiset of pages; the functions that build, copy and free user memory move
pages between the two and keep the account.
-/

namespace Xv6.Kernel

open Xv6.Lib Multiset

variable {R T : Multiset Nat} {s t : Phys} {L : Link} {top m : Vmap} {pt n sz : Nat}
  {l : List Nat} {f : UInt64}

def isLeaf (f : UInt64) : Prop :=
  f &&& PTE_V ≠ 0 ∧ f &&& (PTE_R ||| PTE_W ||| PTE_X) ≠ 0 ∧ f.toNat < 1024

theorem isLeaf.ne (h : isLeaf f) : f ≠ PTE_V := by
  rintro rfl
  exact h.2.1 (by decide)

/-- The pages a size of `sz` bytes needs. -/
def npages (sz : Nat) : Nat := (sz + (PGSIZE - 1)) / PGSIZE

theorem PGROUNDUP_eq (h : sz + PGSIZE ≤ 2 ^ 64) : PGROUNDUP sz = npages sz * PGSIZE := by
  unfold PGROUNDUP add64 PGROUNDDOWN npages
  rw [PGSIZE_eq] at *
  rw [Nat.mod_eq_of_lt (by omega)]

theorem npages_mul (n : Nat) : npages (n * PGSIZE) = n := by
  unfold npages
  rw [PGSIZE_eq]
  omega

structure Space (L : Link) (top : Vmap) (s : Phys) (pt : Nat) (T : Multiset Nat) (m : Vmap)
    (n : Nat) : Prop where
  table : Table s pt T m
  ram : ∀ a ∈ T, L.isPage a
  user : ∀ k, k < n → ∃ pa f, m k = some (pa, f) ∧ isLeaf f ∧ L.isPage pa
  rest : ∀ k, n ≤ k → k < 512 ^ 3 → m k = top k

structure Account (L : Link) (top : Vmap) (R : Multiset Nat) (s : Phys) (pt : Nat)
    (T : Multiset Nat) (m : Vmap) (n : Nat) (l : List Nat) : Prop where
  space : Space L top s pt T m n
  free : FreeList L s l
  total : T + m.pages 0 n + l = R
  nodup : R.Nodup

/-- The user pages below `n` and their contents stay as they are. -/
def Keeps (s t : Phys) (m m' : Vmap) (n : Nat) : Prop :=
  ∀ k pa f, k < n → m k = some (pa, f) → m' k = some (pa, f) ∧ t.page pa = s.page pa

def Within (R : Multiset Nat) (s t : Phys) : Prop := ∀ a, a ∉ R → t.page a = s.page a

namespace Within

variable {R' : Multiset Nat} {u : Phys}

theorem refl (R : Multiset Nat) (s : Phys) : Within R s s := fun _ _ => rfl

theorem trans (h : Within R s t) (h' : Within R t u) : Within R s u :=
  fun a ha => (h' a ha).trans (h a ha)

theorem mono (h : Within R s t) (hle : R ≤ R') : Within R' s t :=
  fun a ha => h a fun hmem => ha (mem_of_le hle hmem)

end Within

theorem card_le {P : Multiset Nat} (hnd : P.Nodup) (hP : ∀ a ∈ P, L.isPage a) :
    P.card ≤ 32768 := by
  have hsub : P.toFinset.image (· / PGSIZE) ⊆
      Finset.Ico (KERNBASE / PGSIZE) (PHYSTOP / PGSIZE) := by
    intro b hb
    obtain ⟨a, ha, rfl⟩ := Finset.mem_image.mp hb
    have hpage := hP a (mem_toFinset.mp ha)
    have hbase := L.base
    have htext := L.text
    have hge := hpage.2.1
    have hlt := hpage.2.2
    unfold KERNBASE at hbase
    rw [Finset.mem_Ico]
    unfold PHYSTOP KERNBASE at *
    rw [PGSIZE_eq] at *
    omega
  have hcard := Finset.card_le_card hsub
  have himg : (P.toFinset.image (· / PGSIZE)).card = P.toFinset.card := by
    apply Finset.card_image_of_injOn
    intro a ha b hb hab
    have hal := (hP a (mem_toFinset.mp ha)).1
    have hbl := (hP b (mem_toFinset.mp hb)).1
    simp only at hab
    rw [PGSIZE_eq] at *
    omega
  rw [himg, toFinset_card_of_nodup hnd, Nat.card_Ico] at hcard
  exact hcard

namespace Space

theorem congr (h : Space L top s pt T m n) (hpage : ∀ a ∈ T, t.page a = s.page a) :
    Space L top t pt T m n where
  table := h.table.congr hpage
  ram := h.ram
  user := h.user
  rest := h.rest

theorem pages_ram (h : Space L top s pt T m n) : ∀ a ∈ m.pages 0 n, L.isPage a := by
  intro a ha
  obtain ⟨i, f, hi, hm⟩ := Vmap.mem_pages.mp ha
  obtain ⟨pa, f', hm', _, hpa⟩ := h.user i hi
  rw [Nat.zero_add, hm'] at hm
  cases hm
  exact hpa

theorem card_pages (h : Space L top s pt T m n) : (m.pages 0 n).card = n := by
  have hall : ∀ c, c ≤ n → (m.pages 0 c).card = c := by
    intro c
    induction c with
    | zero => intro _; rfl
    | succ c ih =>
      intro hc
      obtain ⟨pa, f, hm, _⟩ := h.user c (by omega)
      have hlast : m (0 + c) = some (pa, f) := by
        rw [Nat.zero_add]
        exact hm
      rw [Vmap.pages_succ hlast, card_cons, ih (by omega)]
  exact hall n (Nat.le_refl n)

end Space

namespace Account

variable {pa : Nat}

section

variable (h : Account L top R s pt T m n l) {k k' pt' : Nat} {f' : UInt64} {T' : Multiset Nat}
  {m' : Vmap} {l' : List Nat}
include h

theorem nodup_all : (T + m.pages 0 n + l).Nodup := by
  rw [h.total]
  exact h.nodup

theorem mem_iff (a : Nat) : a ∈ R ↔ a ∈ T ∨ a ∈ m.pages 0 n ∨ a ∈ l := by
  rw [← h.total, mem_add, mem_add, or_assoc]
  rfl

theorem ram : ∀ a ∈ R, L.isPage a := by
  intro a ha
  rcases (h.mem_iff a).mp ha with ha | ha | ha
  · exact h.space.ram a ha
  · exact h.space.pages_ram a ha
  · exact h.free.ram a ha

theorem bound : n ≤ 32768 := by
  have hle : m.pages 0 n ≤ R := by
    rw [← h.total, Multiset.add_comm T]
    exact (Multiset.le_add_right _ _).trans (Multiset.le_add_right _ _)
  have hcard := card_le (nodup_of_le hle h.nodup) h.space.pages_ram
  rwa [h.space.card_pages] at hcard

theorem pages_not_table : ∀ a ∈ m.pages 0 n, a ∉ T := by
  intro a ha haT
  have hnd := (nodup_add.mp h.nodup_all).1
  exact disjoint_left.mp (nodup_add.mp hnd).2.2 haT ha

theorem free_not_own : ∀ a ∈ l, a ∉ T ∧ a ∉ m.pages 0 n := by
  intro a ha
  have hdis := (nodup_add.mp h.nodup_all).2.2
  constructor
  · intro haT
    exact disjoint_left.mp hdis (mem_add.mpr (.inl haT)) ha
  · intro hap
    exact disjoint_left.mp hdis (mem_add.mpr (.inr hap)) ha

theorem pages_inj (hk : k < n)
    (hk' : k' < n) (hm : m k = some (pa, f)) (hm' : m k' = some (pa, f')) : k = k' := by
  have hnd : (m.pages 0 n).Nodup := (nodup_add.mp (nodup_add.mp h.nodup_all).1).2.1
  unfold Vmap.pages at hnd
  have hmem : ∀ i g, m i = some (pa, g) →
      pa ∈ (m (0 + i)).elim (0 : Multiset Nat) fun e => {e.1} := by
    intro i g hi
    rw [Nat.zero_add, hi]
    exact mem_singleton_self pa
  exact holder_unique hnd (Finset.mem_range.mpr hk) (Finset.mem_range.mpr hk') (hmem k f hm)
    (hmem k' f' hm')

theorem free_or_table (h' : Account L top R t pt' T' m' n l')
    (hpages : m'.pages 0 n = m.pages 0 n) : ∀ a ∈ l, a ∈ l' ∨ a ∈ T' := by
  intro a ha
  have hR : a ∈ R := (h.mem_iff a).mpr (.inr (.inr ha))
  rcases (h'.mem_iff a).mp hR with hT | hp | hl
  · exact .inr hT
  · rw [hpages] at hp
    exact absurd hp (h.free_not_own a ha).2
  · exact .inl hl

theorem congr (hhead : t.freelist = s.freelist)
    (hpage : ∀ a, a ∈ T ∨ a ∈ l → t.page a = s.page a) : Account L top R t pt T m n l where
  space := h.space.congr fun a ha => hpage a (.inl ha)
  free := h.free.congr hhead fun a ha => hpage a (.inr ha)
  total := h.total
  nodup := h.nodup

theorem freed (hpa : L.isPage pa) (hnew : pa ∉ R) :
    Account L top (pa ::ₘ R) (s.freed pa) pt T m n (pa :: l) where
  space := by
    refine h.space.congr fun a ha => Phys.freed_page_ne ?_
    rintro rfl
    exact hnew ((h.mem_iff a).mpr (.inl ha))
  free := h.free.freed hpa fun hmem => hnew ((h.mem_iff pa).mpr (.inr (.inr hmem)))
  total := by rw [← cons_coe, add_cons, h.total]
  nodup := nodup_cons.mpr ⟨hnew, h.nodup⟩

end

end Account

namespace Vm

variable {E : VmPanic → Prop} {Q : Nat → Phys → Prop}

theorem kalloc_account (h : Account L top R s pt T m n l)
    (hnone : ∀ t, t.page = s.page → Account L top R t pt T m n l → Q 0 t)
    (hsome : ∀ pa R₀ l' t, R = pa ::ₘ R₀ → L.isPage pa → l = pa :: l' →
      Account L top R₀ t pt T m n l' → (∀ a, a ≠ pa → t.page a = s.page a) → Q pa t) :
    Wp E kalloc Q s := by
  refine kalloc_wp h.free ?_ ?_
  · intro t ht hfl
    refine hnone t ht ⟨h.space.congr fun a _ => congrFun ht a, hfl, h.total, h.nodup⟩
  intro pa l' t hl hpa hfl hout
  have htotal : R = pa ::ₘ (T + m.pages 0 n + l') := by
    rw [← h.total, hl, ← cons_coe, add_cons]
  have hnd := h.nodup
  rw [htotal, nodup_cons] at hnd
  refine hsome pa _ l' t htotal hpa hl ⟨h.space.congr fun a ha => hout a ?_, hfl, rfl, hnd.2⟩ hout
  rintro rfl
  exact hnd.1 (mem_add.mpr (.inl (mem_add.mpr (.inl ha))))

end Vm

end Xv6.Kernel
