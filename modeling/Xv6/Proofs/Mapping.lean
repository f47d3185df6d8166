import Xv6.Proofs.Paging
/-!
# Mapping and unmapping pages

A page table read as a map from virtual page numbers to physical pages with
flags, and what `mappages` and `uvmunmap` do to that map.
-/

namespace Xv6.Kernel

open Xv6.Lib Function Multiset

variable {v n pa pt k : Nat} {f : UInt64} {s t : Phys} {T : Multiset Nat} {e : Nat × Nat}

/-- What a page table says: for a virtual page number the address of a page and
its flags. -/
abbrev Vmap : Type := Nat → Option (Nat × UInt64)

namespace Vmap

variable {n' : Nat}

def extend (m : Vmap) (v n pa : Nat) (flags : UInt64) : Vmap := fun k =>
  if v ≤ k ∧ k < v + n then some (PGROUNDDOWN ((pa + (k - v) * PGSIZE) % 2 ^ 64), flags) else m k

def erase (m : Vmap) (v n : Nat) : Vmap := fun k => if v ≤ k ∧ k < v + n then none else m k

def pages (m : Vmap) (v n : Nat) : Multiset Nat :=
  ∑ i ∈ Finset.range n, (m (v + i)).elim 0 fun e => {e.1}

variable {m : Vmap}

theorem extend_zero (m : Vmap) (v pa : Nat) (f : UInt64) : m.extend v 0 pa f = m := by
  funext k
  exact if_neg (by omega)

theorem extend_one (m : Vmap) (v pa : Nat) (f : UInt64) :
    m.extend v 1 pa f = update m v (some (PGROUNDDOWN (pa % 2 ^ 64), f)) := by
  funext k
  unfold extend
  rcases eq_or_ne k v with rfl | hk
  · rw [if_pos (by omega), update_self, Nat.sub_self, Nat.zero_mul, Nat.add_zero]
  · rw [if_neg (by omega), update_of_ne hk]

theorem extend_succ (m : Vmap) (v n pa : Nat) (f : UInt64) :
    (m.extend v 1 pa f).extend (v + 1) n (add64 pa PGSIZE) f = m.extend v (n + 1) pa f := by
  funext k
  unfold extend
  by_cases h : v + 1 ≤ k ∧ k < v + 1 + n
  · have hpa : (add64 pa PGSIZE + (k - (v + 1)) * PGSIZE) % 2 ^ 64 =
        (pa + (k - v) * PGSIZE) % 2 ^ 64 := by
      unfold add64
      rw [PGSIZE_eq, Nat.mod_add_mod]
      congr 1
      omega
    rw [if_pos h, if_pos (by omega), hpa]
  · rw [if_neg h]
    by_cases hk : k = v
    · rw [if_pos (by omega), if_pos (by omega)]
    · rw [if_neg (by omega), if_neg (by omega)]

theorem erase_zero (m : Vmap) (v : Nat) : m.erase v 0 = m := by
  funext k
  exact if_neg (by omega)

theorem erase_succ (m : Vmap) (v n : Nat) :
    update (m.erase v n) (v + n) none = m.erase v (n + 1) := by
  funext k
  unfold erase
  by_cases hk : k = v + n
  · rw [hk, update_self, if_pos (by omega)]
  rw [update_of_ne hk]
  by_cases h : v ≤ k ∧ k < v + n
  · rw [if_pos h, if_pos (by omega)]
  · rw [if_neg h, if_neg (by omega)]

theorem pages_zero (m : Vmap) (v : Nat) : m.pages v 0 = 0 := rfl

theorem pages_succ (h : m (v + n) = some (pa, f)) : m.pages v (n + 1) = pa ::ₘ m.pages v n := by
  unfold pages
  rw [Finset.sum_range_succ, h, Option.elim_some, Multiset.add_comm, singleton_add]

theorem mem_pages : pa ∈ m.pages v n ↔ ∃ i f, i < n ∧ m (v + i) = some (pa, f) := by
  unfold pages
  rw [mem_sum]
  constructor
  · rintro ⟨i, hi, h⟩
    cases hm : m (v + i) with
    | none =>
      rw [hm] at h
      exact absurd h (notMem_zero pa)
    | some e =>
      rw [hm] at h
      refine ⟨i, e.2, Finset.mem_range.mp hi, ?_⟩
      rw [hm, mem_singleton.mp h]
  · rintro ⟨i, f, hi, hm⟩
    refine ⟨i, Finset.mem_range.mpr hi, ?_⟩
    rw [hm]
    exact mem_singleton_self pa

theorem pages_congr {m' : Vmap} {v' : Nat} (h : ∀ i, i < n → m' (v' + i) = m (v + i)) :
    m'.pages v' n = m.pages v n := by
  refine Finset.sum_congr rfl fun i hi => ?_
  rw [h i (Finset.mem_range.mp hi)]

theorem pages_add (m : Vmap) (v a b : Nat) :
    m.pages v (a + b) = m.pages v a + m.pages (v + a) b := by
  unfold pages
  rw [Finset.sum_range_add]
  simp only [Nat.add_assoc]

theorem pages_le (m : Vmap) (v : Nat) (h : n ≤ n') : m.pages v n ≤ m.pages v n' := by
  obtain ⟨c, rfl⟩ := Nat.exists_eq_add_of_le h
  rw [pages_add]
  exact Multiset.le_add_right _ _

end Vmap

/-- The page table at `pt` has the tables `T` and stands for the map `m`. -/
structure Table (s : Phys) (pt : Nat) (T : Multiset Nat) (m : Vmap) : Prop where
  tables : sv39.tables s.word 2 pt = T
  lookup : ∀ k, k < 512 ^ 3 → sv39.lookup s.word 2 pt k = m k
  inner : sv39.Inner s.word isPointer 2 pt

namespace Table

variable {N : Multiset Nat} {m : Vmap}

section

variable (h : Table s pt T m)
include h

theorem congr (hpage : ∀ a ∈ T, t.page a = s.page a) : Table t pt T m := by
  have hword : ∀ a ∈ sv39.tables s.word 2 pt, t.word a = s.word a := by
    intro a ha
    rw [h.tables] at ha
    exact Phys.word_congr (hpage a ha)
  exact ⟨(Radix.tables_congr hword).trans h.tables,
    fun k hk => (Radix.lookup_congr hword k).trans (h.lookup k hk), Radix.inner_congr hword h.inner⟩

theorem slot_congr (hpage : ∀ a ∈ T, t.page a = s.page a) (k : Nat) :
    sv39.slot t.word 2 pt k = sv39.slot s.word 2 pt k := by
  refine Radix.slot_congr (fun a ha => ?_) k
  rw [h.tables] at ha
  exact Phys.word_congr (hpage a ha)

theorem grows (hg : s.Grows t 2 pt N) : Table t pt (N + T) m where
  tables := by rw [hg.tables, h.tables]
  lookup := fun k hk => (hg.lookup k).trans (h.lookup k hk)
  inner := hg.inner h.inner

theorem slot_mem (hs : sv39.slot s.word 2 pt k = some e) : e.1 ∈ T ∧ e.2 < 512 := by
  obtain ⟨hmem, hidx⟩ := Radix.slot_mem hs
  refine ⟨by rwa [h.tables] at hmem, ?_⟩
  have hlt : sv39.digit 0 k < sv39.fan := Radix.digit_lt 0 k
  rw [sv39_fan] at hlt
  rwa [hidx]

theorem leaf_slot (hk : k < 512 ^ 3)
    (hs : sv39.slot s.word 2 pt k = some e) : sv39.leaf (s.word e.1 e.2) = m k := by
  rw [← h.lookup k hk]
  unfold Radix.lookup
  rw [hs]
  rfl

theorem slot_none (hk : k < 512 ^ 3) (hs : sv39.slot s.word 2 pt k = none) : m k = none := by
  rw [← h.lookup k hk]
  unfold Radix.lookup
  rw [hs]
  rfl

theorem write (hnd : T.Nodup) (hk : k < 512 ^ 3)
    (hs : sv39.slot s.word 2 pt k = some e) (w : UInt64) :
    Table (s.setWord e.1 e.2 w) pt T (update m k (sv39.leaf w)) := by
  have hnd' : (sv39.tables s.word 2 pt).Nodup := by
    rw [h.tables]
    exact hnd
  have hout : ∀ a, a ≠ e.1 → (s.setWord e.1 e.2 w).word a = s.word a :=
    fun a ha => Phys.word_congr (Phys.setWord_page_ne ha)
  have hpage : ∀ j, j ≠ e.2 → (s.setWord e.1 e.2 w).word e.1 j = s.word e.1 j :=
    fun j hj => Phys.word_setWord_ne hj
  obtain ⟨htab, _, hin⟩ := Radix.write_tree (g := isPointer) hnd' hs hout
  refine ⟨htab.trans h.tables, ?_, hin h.inner⟩
  intro k' hk'
  have hpow : sv39.fan ^ (2 + 1) = 512 ^ 3 := by rw [sv39_fan]
  rw [Radix.lookup_write hnd' hs hout hpage (by rw [hpow]; exact hk) (by rw [hpow]; exact hk'),
    Phys.word_setWord _ (h.slot_mem hs).2]
  by_cases hkk : k' = k
  · rw [if_pos hkk, hkk, update_self]
  · rw [if_neg hkk, update_of_ne hkk, h.lookup k' hk']

end

end Table

namespace Vm

variable {E : VmPanic → Prop} {L : Link} {l : List Nat} {va a i : Nat} {m : Vmap} {doFree : Bool}
  {Q : Unit → Phys → Prop} {perm : UInt64}

theorem vpn_lt (h : k < MAXVA / PGSIZE) : k < 512 ^ 3 := by
  rw [MAXVA_eq, PGSIZE_eq] at h
  omega

theorem div_lt_MAXVA (hva : va < MAXVA) : va / PGSIZE < MAXVA / PGSIZE := by
  rw [MAXVA_eq] at hva ⊢
  rw [PGSIZE_eq]
  omega

section

variable (ht : Table s pt T m) {Q : Bool → Phys → Prop}
include ht

section

variable (hfl : FreeList L s l) (hnd : (T + l).Nodup)
include hfl hnd

theorem walk_alloc (hva : va < MAXVA) {Q : Option (Nat × Nat) → Phys → Prop}
    (hQ : ∀ r t N l', FreeList L t l' → (l : Multiset Nat) = N + l' → Table t pt (N + T) m →
      (∀ a, a ∉ T → a ∉ l → t.page a = s.page a) →
      (∀ e, r = some e → sv39.slot t.word 2 pt (va / PGSIZE) = some e) → Q r t) :
    Wp E (walk pt va true) Q s := by
  unfold walk
  rw [if_neg (Nat.not_le.mpr hva)]
  refine walkLevel_alloc hfl (by rw [ht.tables]; exact hnd) ?_
  intro r t N l' hfl' hl hg hr
  refine hQ r t N l' hfl' hl (ht.grows hg) ?_ hr
  intro a ha hal
  refine hg.out a (by rw [ht.tables]; exact ha) fun hN => hal ?_
  have hmem : a ∈ (l : Multiset Nat) := by
    rw [hl, mem_add]
    exact .inl hN
  exact hmem

theorem mapPage_wp (hv : v < MAXVA / PGSIZE) (hun : m v = none)
    (hperm : perm.toNat < 1024) {rest : VmM Bool}
    (hfail : ∀ t N l', FreeList L t l' → (l : Multiset Nat) = N + l' → Table t pt (N + T) m →
      (∀ a, a ∉ T → a ∉ l → t.page a = s.page a) → Q false t)
    (hok : ∀ t N l', FreeList L t l' → (l : Multiset Nat) = N + l' →
      Table t pt (N + T) (m.extend v 1 pa (perm ||| PTE_V)) →
      (∀ a, a ∉ T → a ∉ l → t.page a = s.page a) → Wp E rest Q t) : Wp E (do
      let r ← walk pt (v * PGSIZE) true
      match r with
      | none => pure false
      | some e =>
        let pte ← getPte e
        if pte &&& PTE_V ≠ 0 then Prog.stop .remap
        else do
          setPte e (PA2PTE pa ||| perm ||| PTE_V)
          rest) Q s := by
  have hva : v * PGSIZE < MAXVA := by
    rw [MAXVA_eq, PGSIZE_eq] at hv ⊢
    omega
  have hvpn : v * PGSIZE / PGSIZE = v := Nat.mul_div_cancel v (by decide)
  refine Wp.bind (walk_alloc ht hfl hnd hva ?_)
  intro r t N l' hfl' hl ht' hout hr
  rw [hvpn] at hr
  cases r with
  | none =>
    rw [Wp.pure_iff]
    exact hfail t N l' hfl' hl ht' hout
  | some e =>
    have hs := hr e rfl
    have hmem := ht'.slot_mem hs
    have hnd' : (N + T + l').Nodup := by
      rw [hl, ← Multiset.add_assoc, Multiset.add_comm T N] at hnd
      exact hnd
    obtain ⟨hndT, _, hdis⟩ := nodup_add.mp hnd'
    rw [Wp.bind_iff, getPte_wp]
    refine Wp.ite_iff.mpr ⟨fun hset => ?_, fun _ => ?_⟩
    · -- the slot holds the map's entry, which is none
      have hleaf := ht'.leaf_slot (vpn_lt hv) hs
      rw [sv39_leaf_some hset, hun] at hleaf
      cases hleaf
    rw [Wp.bind_iff, setPte_wp]
    have hw : sv39.leaf (PA2PTE pa ||| perm ||| PTE_V) =
        some (PGROUNDDOWN (pa % 2 ^ 64), perm ||| PTE_V) := by
      have hlt := or_PTE_V_lt hperm
      rw [sv39_leaf_some (or_PTE_V_ne_zero _), UInt64.or_assoc, PTE2PA_PA2PTE_or pa hlt,
        PTE_FLAGS_PA2PTE_or pa hlt]
    have hnew := ht'.write hndT (vpn_lt hv) hs (PA2PTE pa ||| perm ||| PTE_V)
    rw [hw, ← Vmap.extend_one] at hnew
    refine hok _ N l' ?_ hl hnew ?_
    · refine hfl'.congr rfl fun a ha => Phys.setWord_page_ne ?_
      rintro rfl
      exact disjoint_left.mp hdis hmem.1 ha
    intro a ha hal
    rw [Phys.setWord_page_ne, hout a ha hal]
    rintro rfl
    rcases mem_add.mp hmem.1 with hN | hT
    · refine hal ?_
      have hin : e.1 ∈ (l : Multiset Nat) := by
        rw [hl, mem_add]
        exact .inl hN
      exact hin
    · exact ha hT

theorem mappagesLoop_wp {fuel : Nat} (hv : v + n < MAXVA / PGSIZE)
    (hun : ∀ i, i ≤ n → m (v + i) = none) (hperm : perm.toNat < 1024) (hfuel : n < fuel)
    (hQ : ∀ r t N l' j, FreeList L t l' → (l : Multiset Nat) = N + l' →
      Table t pt (N + T) (m.extend v j pa (perm ||| PTE_V)) →
      (∀ a, a ∉ T → a ∉ l → t.page a = s.page a) →
      (r = true ∧ j = n + 1 ∨ r = false ∧ j ≤ n) → Q r t) :
    Wp E (mappagesLoop pt ((v + n) * PGSIZE) perm fuel (v * PGSIZE) pa) Q s := by
  induction n generalizing s l T m v pa fuel Q with
  | zero =>
    obtain ⟨fuel, rfl⟩ := Nat.exists_eq_add_of_lt hfuel
    rw [Nat.zero_add, mappagesLoop]
    refine mapPage_wp ht hfl hnd hv (hun 0 (Nat.le_refl 0)) hperm ?_ ?_
    · intro t N l' hfl' hl ht' hout
      refine hQ false t N l' 0 hfl' hl ?_ hout (.inr ⟨rfl, Nat.le_refl 0⟩)
      rw [Vmap.extend_zero]
      exact ht'
    · intro t N l' hfl' hl ht' hout
      rw [if_pos (by rw [Nat.add_zero]), Wp.pure_iff]
      exact hQ true t N l' 1 hfl' hl ht' hout (.inl ⟨rfl, rfl⟩)
  | succ n ih =>
    obtain ⟨fuel, rfl⟩ : ∃ f, fuel = f + 1 := ⟨fuel - 1, by omega⟩
    rw [mappagesLoop]
    refine mapPage_wp ht hfl hnd (by omega) (hun 0 (Nat.zero_le _)) hperm ?_ ?_
    · intro t N l' hfl' hl ht' hout
      refine hQ false t N l' 0 hfl' hl ?_ hout (.inr ⟨rfl, Nat.zero_le _⟩)
      rw [Vmap.extend_zero]
      exact ht'
    intro t N l' hfl' hl ht' hout
    have hne : v * PGSIZE ≠ (v + (n + 1)) * PGSIZE := by
      rw [PGSIZE_eq]
      omega
    have hnext : add64 (v * PGSIZE) PGSIZE = (v + 1) * PGSIZE := by
      rw [MAXVA_eq, PGSIZE_eq] at hv
      unfold add64
      rw [PGSIZE_eq]
      omega
    have hlast : (v + (n + 1)) * PGSIZE = (v + 1 + n) * PGSIZE := by
      rw [Nat.add_right_comm, Nat.add_assoc]
    rw [if_neg hne, hnext, hlast]
    have hnd' : (N + T + l').Nodup := by
      rw [hl, ← Multiset.add_assoc, Multiset.add_comm T N] at hnd
      exact hnd
    refine ih ht' hfl' hnd' (by omega) ?_ (by omega) ?_
    · intro i hi
      rw [Vmap.extend_one, update_of_ne (by omega), Nat.add_assoc, Nat.add_comm 1 i]
      exact hun (i + 1) (by omega)
    intro r u M l2 j hfl2 hl2 hu hout' hr
    rw [Vmap.extend_succ, ← Multiset.add_assoc] at hu
    refine hQ r u (M + N) l2 (j + 1) hfl2 ?_ hu ?_ ?_
    · rw [hl, hl2, Multiset.add_comm M N, Multiset.add_assoc]
    · intro a ha hal
      have hmem : ∀ b, b ∈ N ∨ b ∈ l' → b ∈ l := by
        intro b hb
        have hin : b ∈ (l : Multiset Nat) := by
          rw [hl, mem_add]
          exact hb
        exact hin
      rw [hout' a ?_ fun hal' => hal (hmem a (.inr hal')), hout a ha hal]
      rw [mem_add]
      exact fun hor => hor.elim (fun hN => hal (hmem a (.inl hN))) ha
    · exact hr.imp (fun h => ⟨h.1, congrArg (· + 1) h.2⟩)
        fun h => ⟨h.1, Nat.succ_le_succ h.2⟩

theorem mappages_wp {size : Nat} (hsize : 0 < size) (hva : va + size ≤ MAXVA)
    (hun : ∀ k, va / PGSIZE ≤ k → k * PGSIZE < va + size → m k = none)
    (hperm : perm.toNat < 1024)
    (hQ : ∀ r t N l' j, FreeList L t l' → (l : Multiset Nat) = N + l' →
      Table t pt (N + T) (m.extend (va / PGSIZE) j pa (perm ||| PTE_V)) →
      (∀ a, a ∉ T → a ∉ l → t.page a = s.page a) →
      (r = true ∧ j = (va + size - 1) / PGSIZE - va / PGSIZE + 1 ∨
        r = false ∧ j ≤ (va + size - 1) / PGSIZE - va / PGSIZE) → Q r t) :
    Wp E (mappages pt va size pa perm) Q s := by
  have hlast : PGROUNDDOWN (add64 va (size + (2 ^ 64 - 1))) =
      (va / PGSIZE + ((va + size - 1) / PGSIZE - va / PGSIZE)) * PGSIZE := by
    unfold PGROUNDDOWN add64
    rw [MAXVA_eq] at hva
    rw [PGSIZE_eq]
    omega
  unfold mappages
  rw [hlast]
  refine mappagesLoop_wp ht hfl hnd ?_ ?_ hperm ?_ hQ
  · rw [MAXVA_eq] at hva ⊢
    rw [PGSIZE_eq]
    omega
  · intro i hi
    refine hun _ (Nat.le_add_right _ _) ?_
    rw [PGSIZE_eq] at hi ⊢
    omega
  · rw [MAXVA_eq] at hva ⊢
    rw [PGSIZE_eq]
    omega

end

end

/-! ## Unmapping -/

def freedIf (s : Phys) (doFree : Bool) (pa : Nat) : Phys := if doFree = true then s.freed pa else s

theorem freedIf_page_ne (h : doFree = true → a ≠ pa) : (freedIf s doFree pa).page a = s.page a := by
  unfold freedIf
  split
  · exact Phys.freed_page_ne (h ‹_›)
  · rfl

def Unmappable (L : Link) (m : Vmap) (doFree : Bool) (k : Nat) : Prop :=
  ∃ pa f, m k = some (pa, f) ∧ f ≠ PTE_V ∧ (doFree = true → L.isPage pa)

theorem kfreeIf_wp (hE : ¬(doFree = true → L.isPage pa) → E .kfree)
    (hQ : (doFree = true → L.isPage pa) → Q () (freedIf s doFree pa)) :
    Wp E (kfreeIf L doFree pa) Q s := by
  cases doFree with
  | true =>
    refine kfree_wp_any (fun hbad => hE fun h => hbad (h rfl)) fun hpa => ?_
    exact hQ fun _ => hpa
  | false => exact hQ fun h => absurd h (by decide)

theorem unmapPage_wp (ht : Table s pt T m) (hk : k < MAXVA / PGSIZE)
    (hE : ¬Unmappable L m doFree k → ∀ e, E e)
    (hQ : ∀ pa f e, m k = some (pa, f) → (doFree = true → L.isPage pa) →
      sv39.slot s.word 2 pt k = some e → Q () ((freedIf s doFree pa).setWord e.1 e.2 0)) :
    Wp E (unmapPage L pt doFree (k * PGSIZE)) Q s := by
  have hva : k * PGSIZE < MAXVA := by
    rw [MAXVA_eq, PGSIZE_eq] at hk ⊢
    omega
  have hvpn : k * PGSIZE / PGSIZE = k := Nat.mul_div_cancel k (by decide)
  unfold unmapPage
  rw [Wp.bind_iff]
  apply walk_read hva
  rw [hvpn]
  cases hs : sv39.slot s.word 2 pt k with
  | none =>
    rw [Wp.stop_iff]
    refine hE ?_ _
    rintro ⟨pa, f, hm, _⟩
    rw [ht.slot_none (vpn_lt hk) hs] at hm
    cases hm
  | some e =>
    have hleaf := ht.leaf_slot (vpn_lt hk) hs
    simp only
    rw [Wp.bind_iff, getPte_wp]
    refine Wp.ite_iff.mpr ⟨fun hv => ?_, fun hv => ?_⟩
    · rw [Wp.stop_iff]
      refine hE ?_ _
      rintro ⟨pa, f, hm, _⟩
      rw [sv39_leaf_none hv, hm] at hleaf
      cases hleaf
    rw [sv39_leaf_some hv] at hleaf
    refine Wp.ite_iff.mpr ⟨fun hflags => ?_, fun hflags => ?_⟩
    · rw [Wp.stop_iff]
      refine hE ?_ _
      rintro ⟨pa, f, hm, hf, _⟩
      rw [hm] at hleaf
      cases hleaf
      exact hf hflags
    refine Wp.bind (kfreeIf_wp (fun hbad => hE ?_ _) fun hpa => ?_)
    · rintro ⟨pa, f, hm, _, hpage⟩
      rw [hm] at hleaf
      cases hleaf
      exact hbad hpage
    · rw [setPte_wp]
      exact hQ _ _ e hleaf.symm hpa hs

structure Unmapped (L : Link) (s t : Phys) (pt : Nat) (T : Multiset Nat) (m : Vmap) (v n : Nat)
    (doFree : Bool) (i : Nat) : Prop where
  table : Table t pt T (m.erase v i)
  out : ∀ a, a ∉ T → (doFree = true → a ∉ m.pages v i) → t.page a = s.page a
  free : ∀ l, FreeList L s l → (T + l).Nodup →
    (doFree = true → (m.pages v n + (T + l)).Nodup) → ∃ l' : List Nat, FreeList L t l' ∧
      (l' : Multiset Nat) = (if doFree = true then m.pages v i else 0) + l

theorem Unmapped.step (h : Unmapped L s t pt T m v n doFree i) (hnd : T.Nodup) (hi : i < n)
    (hv : v + i < MAXVA / PGSIZE) (hT : doFree = true → ∀ a ∈ m.pages v n, a ∉ T)
    (hm : m (v + i) = some (pa, f)) (hpa : doFree = true → L.isPage pa)
    (hs : sv39.slot t.word 2 pt (v + i) = some e) :
    Unmapped L s ((freedIf t doFree pa).setWord e.1 e.2 0) pt T m v n doFree (i + 1) := by
  have hsucc := Vmap.pages_succ hm
  have hpages : pa ∈ m.pages v n := Vmap.mem_pages.mpr ⟨i, f, hi, hm⟩
  have heT := (h.table.slot_mem hs).1
  have hsame : ∀ a ∈ T, (freedIf t doFree pa).page a = t.page a := by
    intro a ha
    refine freedIf_page_ne fun hd => ?_
    rintro rfl
    exact hT hd a hpages ha
  refine ⟨?_, ?_, ?_⟩
  · have ht := h.table.congr hsame
    have hs' := (h.table.slot_congr hsame (v + i)).trans hs
    have hw := ht.write hnd (vpn_lt hv) hs' 0
    rwa [sv39_leaf_none rfl, Vmap.erase_succ] at hw
  · intro a ha hai
    simp only [hsucc, mem_cons, not_or] at hai
    have hne : a ≠ e.1 := by
      rintro rfl
      exact ha heT
    rw [Phys.setWord_page_ne hne, freedIf_page_ne fun hd => (hai hd).1,
      h.out a ha fun hd => (hai hd).2]
  intro l hfl hTl hall
  obtain ⟨l', hfl', hl'⟩ := h.free l hfl hTl hall
  have hdis := (nodup_add.mp hTl).2.2
  cases doFree with
  | true =>
    rw [if_pos rfl] at hl'
    have hle : m.pages v (i + 1) + (T + l) ≤ m.pages v n + (T + l) :=
      Multiset.add_le_add_right (Vmap.pages_le m v hi)
    have hcons := nodup_of_le hle (hall rfl)
    rw [hsucc, cons_add, nodup_cons, mem_add, mem_add]
      at hcons
    -- neither the freed page nor the slot's table is on the free list
    have hnl : pa ∉ (l' : Multiset Nat) := by
      rw [hl', mem_add]
      exact fun hin => hcons.1 (hin.imp_right .inr)
    have hel : e.1 ∉ (l' : Multiset Nat) := by
      rw [hl', mem_add]
      rintro (hin | hin)
      · exact hT rfl _ (mem_of_le (Vmap.pages_le m v (Nat.le_of_lt hi)) hin) heT
      · exact disjoint_left.mp hdis heT hin
    refine ⟨pa :: l', (hfl'.freed (hpa rfl) hnl).congr rfl ?_, ?_⟩
    · intro a ha
      apply Phys.setWord_page_ne
      rintro rfl
      rcases List.mem_cons.mp ha with hep | hin
      · exact hT rfl pa hpages (hep ▸ heT)
      · exact hel hin
    · rw [← cons_coe, hl', if_pos rfl, hsucc, cons_add]
  | false =>
    rw [if_neg (by simp), Multiset.zero_add] at hl'
    refine ⟨l', hfl'.congr rfl ?_, by rw [hl', if_neg (by simp), Multiset.zero_add]⟩
    intro a ha
    apply Phys.setWord_page_ne
    rintro rfl
    have hin : e.1 ∈ (l' : Multiset Nat) := ha
    rw [hl'] at hin
    exact disjoint_left.mp hdis heT hin

theorem uvmunmap_wp (ht : Table s pt T m) (hnd : T.Nodup)
    (hva : va % PGSIZE = 0) (hend : va + n * PGSIZE ≤ MAXVA)
    (hT : doFree = true → ∀ a ∈ m.pages (va / PGSIZE) n, a ∉ T)
    (hE : ∀ i, i < n → ¬Unmappable L m doFree (va / PGSIZE + i) → ∀ e, E e)
    (hQ : ∀ t, Unmapped L s t pt T m (va / PGSIZE) n doFree n → Q () t) :
    Wp E (uvmunmap L pt va n doFree) Q s := by
  obtain ⟨v, rfl⟩ : ∃ v, va = v * PGSIZE := ⟨va / PGSIZE, (Nat.div_mul_cancel
    (Nat.dvd_of_mod_eq_zero hva)).symm⟩
  have hvpn : v * PGSIZE / PGSIZE = v := Nat.mul_div_cancel v (by decide)
  rw [hvpn] at hT hE hQ
  have hrounds : rounds (v * PGSIZE) (add64 (v * PGSIZE) (n * PGSIZE)) = n := by
    unfold rounds add64
    rw [MAXVA_eq] at hend
    rw [PGSIZE_eq] at hend ⊢
    omega
  have hlt : ∀ i, i < n → v + i < MAXVA / PGSIZE := by
    intro i hi
    rw [MAXVA_eq] at hend ⊢
    rw [PGSIZE_eq] at hend ⊢
    omega
  unfold uvmunmap
  rw [if_neg (not_not.mpr hva), hrounds]
  refine (Wp.forRange (I := fun i t => Unmapped L s t pt T m v n doFree i) ?_ ?_).post ?_
  · refine ⟨?_, fun a _ _ => rfl, fun l hfl _ _ => ⟨l, hfl, ?_⟩⟩
    · rw [Vmap.erase_zero]
      exact ht
    · rw [Vmap.pages_zero, ite_self, Multiset.zero_add]
  · intro i t _ hi hu
    rw [Nat.zero_add] at hi
    have hkeep : m.erase v i (v + i) = m (v + i) := if_neg (by omega)
    rw [← Nat.add_mul]
    refine unmapPage_wp hu.table (hlt i hi) ?_ ?_
    · intro hbad
      refine hE i hi fun hgood => hbad ?_
      unfold Unmappable
      rw [hkeep]
      exact hgood
    · intro pa f e hm hpa hs
      rw [hkeep] at hm
      exact hu.step hnd hi (hlt i hi) hT hm hpa hs
  · intro _ t hu
    rw [Nat.zero_add] at hu
    exact hQ t hu

/-! ## Page tables refine maps -/

def vmap (s : Phys) (pt : Nat) : Vmap := fun k => sv39.lookup s.word 2 pt k

/-- No table is shared, neither with another table nor with a mapped page, and
pointers to tables are neither readable, writable nor executable. -/
structure WellFormed (s : Phys) (pt : Nat) : Prop where
  nodup : (sv39.tables s.word 2 pt).Nodup
  inner : sv39.Inner s.word isPointer 2 pt
  leaf : ∀ k pa f, k < MAXVA / PGSIZE → vmap s pt k = some (pa, f) → pa ∉ sv39.tables s.word 2 pt

theorem WellFormed.table (h : WellFormed s pt) :
    Table s pt (sv39.tables s.word 2 pt) (vmap s pt) where
  tables := rfl
  lookup := fun _ _ => rfl
  inner := h.inner

theorem walk_refines (h : WellFormed s pt) (hva : va < MAXVA) :
    ∃ r, walk pt va false s = .ok (r, s) ∧ (r = none → vmap s pt (va / PGSIZE) = none) ∧
      ∀ e, r = some e → sv39.leaf (s.word e.1 e.2) = vmap s pt (va / PGSIZE) := by
  have hk := vpn_lt (div_lt_MAXVA hva)
  have hw : Wp (fun _ => False) (walk pt va false)
      (fun r t => t = s ∧ r = sv39.slot s.word 2 pt (va / PGSIZE)) s := walk_read hva ⟨rfl, rfl⟩
  obtain ⟨r, t, hrun, rfl, rfl⟩ := hw.returns
  exact ⟨_, hrun, h.table.slot_none hk, fun e => h.table.leaf_slot hk⟩

theorem mappages_refines (va size pa : Nat) (perm : UInt64) (h : WellFormed s pt)
    (hfl : FreeList L s l) (hfree : ∀ a ∈ l, a ∉ sv39.tables s.word 2 pt) (hsize : 0 < size)
    (hva : va + size ≤ MAXVA)
    (hun : ∀ k, va / PGSIZE ≤ k → k * PGSIZE < va + size → vmap s pt k = none)
    (hperm : perm.toNat < 1024) : ∃ r t j, mappages pt va size pa perm s = .ok (r, t) ∧
      (r = true ∧ j = (va + size - 1) / PGSIZE - va / PGSIZE + 1 ∨
        r = false ∧ j ≤ (va + size - 1) / PGSIZE - va / PGSIZE) ∧
      (∀ k, k < MAXVA / PGSIZE →
        vmap t pt k = (vmap s pt).extend (va / PGSIZE) j pa (perm ||| PTE_V) k) ∧
      ((∀ k a f, k < MAXVA / PGSIZE → vmap s pt k = some (a, f) → a ∉ l) →
        (∀ i, i < j → PGROUNDDOWN ((pa + i * PGSIZE) % 2 ^ 64) ∉ sv39.tables s.word 2 pt ∧
          PGROUNDDOWN ((pa + i * PGSIZE) % 2 ^ 64) ∉ l) → WellFormed t pt) := by
  have hnd : (sv39.tables s.word 2 pt + l).Nodup := by
    refine nodup_add.mpr ⟨h.nodup, hfl.nodup, ?_⟩
    exact disjoint_left.mpr fun ha hal => hfree _ hal ha
  have hw : Wp (fun _ => False) (mappages pt va size pa perm) (fun r t => ∃ N l' j,
      FreeList L t l' ∧ (l : Multiset Nat) = N + l' ∧
      Table t pt (N + sv39.tables s.word 2 pt)
        ((vmap s pt).extend (va / PGSIZE) j pa (perm ||| PTE_V)) ∧
      (r = true ∧ j = (va + size - 1) / PGSIZE - va / PGSIZE + 1 ∨
        r = false ∧ j ≤ (va + size - 1) / PGSIZE - va / PGSIZE)) s := by
    refine mappages_wp h.table hfl hnd hsize hva hun hperm ?_
    intro r t N l' j hfl' hl ht _ hr
    exact ⟨N, l', j, hfl', hl, ht, hr⟩
  obtain ⟨r, t, hrun, N, l', j, _, hl, ht, hr⟩ := hw.returns
  refine ⟨r, t, j, hrun, hr, fun k hk => ht.lookup k (vpn_lt hk), ?_⟩
  intro hmapped hnew
  have hN : ∀ a ∈ N, a ∈ l := by
    intro a ha
    have hin : a ∈ (l : Multiset Nat) := by
      rw [hl, mem_add]
      exact .inl ha
    exact hin
  refine ⟨?_, ht.inner, ?_⟩
  · rw [hl, ← Multiset.add_assoc, Multiset.add_comm _ N] at hnd
    rw [ht.tables]
    exact (nodup_add.mp hnd).1
  intro k a f hk hm
  rw [ht.tables, mem_add, not_or]
  have hext := (ht.lookup k (vpn_lt hk)).symm.trans hm
  unfold Vmap.extend at hext
  split at hext
  · rename_i hin
    cases hext
    have hfresh := hnew (k - va / PGSIZE) (by omega)
    exact ⟨fun ha => hfresh.2 (hN _ ha), hfresh.1⟩
  · exact ⟨fun ha => hmapped k a f hk hext (hN a ha), h.leaf k a f hk hext⟩

theorem uvmunmap_refines (h : WellFormed s pt) (hva : va % PGSIZE = 0)
    (hend : va + n * PGSIZE ≤ MAXVA) :
    ((∀ i, i < n → Unmappable L (vmap s pt) doFree (va / PGSIZE + i)) →
      ∃ t, uvmunmap L pt va n doFree s = .ok ((), t)) ∧
    ∀ t, uvmunmap L pt va n doFree s = .ok ((), t) → WellFormed t pt ∧
      ∀ k, k < MAXVA / PGSIZE → vmap t pt k = (vmap s pt).erase (va / PGSIZE) n k := by
  have hlt : ∀ i, i < n → va / PGSIZE + i < MAXVA / PGSIZE := by
    intro i hi
    rw [MAXVA_eq] at hend ⊢
    rw [PGSIZE_eq] at hend ⊢
    omega
  have hT : ∀ a ∈ (vmap s pt).pages (va / PGSIZE) n, a ∉ sv39.tables s.word 2 pt := by
    intro a ha
    obtain ⟨i, f, hi, hm⟩ := Vmap.mem_pages.mp ha
    exact h.leaf _ a f (hlt i hi) hm
  constructor
  · intro hgood
    have hw : Wp (fun _ => False) (uvmunmap L pt va n doFree) (fun _ _ => True) s :=
      uvmunmap_wp h.table h.nodup hva hend (fun _ => hT) (fun i hi hbad => absurd (hgood i hi) hbad)
        fun _ _ => trivial
    obtain ⟨_, t, hrun, _⟩ := hw.returns
    exact ⟨t, hrun⟩
  intro t hrun
  have hw : Wp (fun _ => True) (uvmunmap L pt va n doFree)
      (fun _ t => Unmapped L s t pt (sv39.tables s.word 2 pt) (vmap s pt) (va / PGSIZE) n
        doFree n) s :=
    uvmunmap_wp h.table h.nodup hva hend (fun _ => hT) (fun _ _ _ _ => trivial) fun _ hu => hu
  have ht := (hw.of_ok hrun).table
  refine ⟨⟨?_, ht.inner, ?_⟩, fun k hk => ht.lookup k (vpn_lt hk)⟩
  · rw [ht.tables]
    exact h.nodup
  intro k a f hk hm
  have her := (ht.lookup k (vpn_lt hk)).symm.trans hm
  rw [ht.tables]
  unfold Vmap.erase at her
  split at her
  · cases her
  · exact h.leaf k a f hk her

/-- A page table refines a map from page numbers to pages: `walk` finds the
slot of each entry, `mappages` adds the pages of a range in order until it is
done or out of memory, and `uvmunmap` removes pages. -/
theorem page_table_refines_map (h : WellFormed s pt) :
    (∀ va, va < MAXVA → ∃ r, walk pt va false s = .ok (r, s) ∧
      (r = none → vmap s pt (va / PGSIZE) = none) ∧
      ∀ e, r = some e → sv39.leaf (s.word e.1 e.2) = vmap s pt (va / PGSIZE)) ∧
    (∀ l va size pa perm, FreeList L s l → (∀ a ∈ l, a ∉ sv39.tables s.word 2 pt) → 0 < size →
      va + size ≤ MAXVA →
      (∀ k, va / PGSIZE ≤ k → k * PGSIZE < va + size → vmap s pt k = none) → perm.toNat < 1024 →
      ∃ r t j, mappages pt va size pa perm s = .ok (r, t) ∧
        (r = true ∧ j = (va + size - 1) / PGSIZE - va / PGSIZE + 1 ∨
          r = false ∧ j ≤ (va + size - 1) / PGSIZE - va / PGSIZE) ∧
        (∀ k, k < MAXVA / PGSIZE →
          vmap t pt k = (vmap s pt).extend (va / PGSIZE) j pa (perm ||| PTE_V) k) ∧
        ((∀ k a f, k < MAXVA / PGSIZE → vmap s pt k = some (a, f) → a ∉ l) →
          (∀ i, i < j → PGROUNDDOWN ((pa + i * PGSIZE) % 2 ^ 64) ∉ sv39.tables s.word 2 pt ∧
            PGROUNDDOWN ((pa + i * PGSIZE) % 2 ^ 64) ∉ l) → WellFormed t pt)) ∧
    ∀ va n doFree, va % PGSIZE = 0 → va + n * PGSIZE ≤ MAXVA →
      ((∀ i, i < n → Unmappable L (vmap s pt) doFree (va / PGSIZE + i)) →
        ∃ t, uvmunmap L pt va n doFree s = .ok ((), t)) ∧
      ∀ t, uvmunmap L pt va n doFree s = .ok ((), t) → WellFormed t pt ∧
        ∀ k, k < MAXVA / PGSIZE → vmap t pt k = (vmap s pt).erase (va / PGSIZE) n k := by
  refine ⟨fun va => walk_refines h, ?_, fun va n doFree => uvmunmap_refines h⟩
  intro l va size pa perm hfl hfree hsize hva hun hperm
  exact mappages_refines va size pa perm h hfl hfree hsize hva hun hperm

def lastPages : Link where
  trampoline := KERNBASE
  endAddr := PHYSTOP - 64 * PGSIZE
  aligned := by decide
  base := by decide
  text := by decide
  ram := by decide

/-- Memory that is blank but for one page. -/
def onePage : Phys :=
  Phys.mk (fun a => if a = PHYSTOP - 5 * PGSIZE then Bytes.zero.splice 0 PGSIZE UInt8.ofNat
    else Bytes.zero) 0 []

def twoFree : Phys := (onePage.freed (PHYSTOP - 2 * PGSIZE)).freed (PHYSTOP - PGSIZE)

theorem twoFree_word (j : Nat) : twoFree.word (PHYSTOP - 3 * PGSIZE) j = 0 := by
  have hpage : twoFree.page (PHYSTOP - 3 * PGSIZE) = Bytes.zero := by
    unfold twoFree
    rw [Phys.freed_page_ne (by decide), Phys.freed_page_ne (by decide)]
    simp only [onePage]
    rw [if_neg (by decide)]
  unfold Phys.word
  rw [hpage, Bytes.u64_zero]

theorem twoFree_child (j : Nat) : sv39.child (twoFree.word (PHYSTOP - 3 * PGSIZE) j) = none := by
  rw [twoFree_word]
  exact sv39_child_none rfl

theorem twoFree_tables :
    sv39.tables twoFree.word 2 (PHYSTOP - 3 * PGSIZE) = {PHYSTOP - 3 * PGSIZE} :=
  Radix.tables_blank twoFree_child

theorem twoFree_vmap (k : Nat) : vmap twoFree (PHYSTOP - 3 * PGSIZE) k = none := by
  have hleaf : ∀ j, sv39.leaf (twoFree.word (PHYSTOP - 3 * PGSIZE) j) = none := by
    intro j
    rw [twoFree_word]
    exact sv39_leaf_none rfl
  exact Radix.lookup_blank twoFree_child hleaf k

theorem twoFree_wellFormed : WellFormed twoFree (PHYSTOP - 3 * PGSIZE) := by
  refine ⟨?_, Radix.inner_blank twoFree_child, ?_⟩
  · rw [twoFree_tables]
    exact nodup_singleton _
  intro k pa f _ hm
  rw [twoFree_vmap] at hm
  cases hm

theorem twoFree_freeList : FreeList lastPages twoFree [PHYSTOP - PGSIZE, PHYSTOP - 2 * PGSIZE] := by
  have hempty : FreeList lastPages onePage [] :=
    ⟨rfl, List.nodup_nil, fun _ h => absurd h List.not_mem_nil⟩
  have hpage : lastPages.isPage (PHYSTOP - 2 * PGSIZE) := by
    unfold Link.isPage
    decide
  have hone := hempty.freed hpage List.not_mem_nil
  exact hone.freed (by unfold Link.isPage; decide) (by decide)

theorem page_table_refines_map_twoFree :
    ∃ t, mappages (PHYSTOP - 3 * PGSIZE) 0 PGSIZE KERNBASE PTE_R twoFree = .ok (true, t) ∧
      vmap t (PHYSTOP - 3 * PGSIZE) 0 = some (KERNBASE, PTE_R ||| PTE_V) ∧
      vmap t (PHYSTOP - 3 * PGSIZE) 1 = none := by
  have hres : (match mappages (PHYSTOP - 3 * PGSIZE) 0 PGSIZE KERNBASE PTE_R twoFree with
      | .ok (r, _) => r
      | .error _ => false) = true := by decide +kernel
  obtain ⟨r, t, j, hrun, hr, hmap, _⟩ :=
    (page_table_refines_map (L := lastPages) twoFree_wellFormed).2.1
    [PHYSTOP - PGSIZE, PHYSTOP - 2 * PGSIZE] 0 PGSIZE KERNBASE PTE_R twoFree_freeList
    (by rw [twoFree_tables]; decide) (by decide) (by decide) (fun k _ _ => twoFree_vmap k)
    (by decide)
  rw [hrun] at hres
  subst hres
  have hj : j = 1 := by
    rcases hr with ⟨_, hj⟩ | ⟨hr, _⟩
    · exact hj
    · cases hr
  refine ⟨t, hrun, ?_, ?_⟩
  · rw [hmap 0 (by decide), hj]
    rfl
  · rw [hmap 1 (by decide), hj]
    exact twoFree_vmap 1

end Vm

end Xv6.Kernel
