import Xv6.Kernel.Paging
import Xv6.Lib.Radix
import Xv6.Proofs.Kalloc
/-!
# Walking a page table

A page table is a radix tree of three levels over virtual page numbers.  `walk`
finds the slot of a page number in it; when it creates tables, the tree grows
and the map it stands for stays the same.
-/

namespace Xv6.Kernel

open Xv6.Lib Multiset

variable {s : Phys} {n p pa : Nat} {L : Link} {perm : UInt64}

/-! ## Entries as numbers -/

theorem toNat_PTE_FLAGS (w : UInt64) : (PTE_FLAGS w).toNat = w.toNat % 1024 := by
  unfold PTE_FLAGS
  rw [UInt64.toNat_and]
  exact Nat.and_two_pow_sub_one_eq_mod w.toNat 10

theorem and_PTE_V_eq_zero (w : UInt64) : w &&& PTE_V = 0 ↔ w.toNat % 2 = 0 := by
  have h : w.toNat &&& 1 = w.toNat % 2 := Nat.and_two_pow_sub_one_eq_mod w.toNat 1
  rw [← UInt64.toNat_inj, UInt64.toNat_and, ← h]
  rfl

theorem PTE2PA_eq (w : UInt64) : PTE2PA w = w.toNat / 1024 * 4096 % 2 ^ 64 := by
  unfold PTE2PA
  rw [UInt64.toNat_shiftLeft, UInt64.toNat_shiftRight, Nat.shiftLeft_eq, Nat.shiftRight_eq_div_pow]
  rfl

theorem toNat_PA2PTE (pa : Nat) : (PA2PTE pa).toNat = pa % 2 ^ 64 / 4096 * 1024 := by
  unfold PA2PTE
  rw [UInt64.toNat_shiftLeft, UInt64.toNat_shiftRight, Nat.shiftLeft_eq,
    Nat.shiftRight_eq_div_pow, UInt64.toNat_ofNat']
  change pa % 2 ^ 64 / 4096 * 1024 % 2 ^ 64 = _
  apply Nat.mod_eq_of_lt
  omega

variable {f : UInt64}

theorem toNat_PA2PTE_or (pa : Nat) (hf : f.toNat < 1024) :
    (PA2PTE pa ||| f).toNat = pa % 2 ^ 64 / 4096 * 1024 + f.toNat := by
  rw [UInt64.toNat_or, toNat_PA2PTE]
  have h := Nat.shiftLeft_add_eq_or_of_lt (b := f.toNat) (i := 10) hf (pa % 2 ^ 64 / 4096)
  rw [Nat.shiftLeft_eq] at h
  exact h.symm

theorem PTE2PA_PA2PTE_or (pa : Nat) (hf : f.toNat < 1024) :
    PTE2PA (PA2PTE pa ||| f) = PGROUNDDOWN (pa % 2 ^ 64) := by
  rw [PTE2PA_eq, toNat_PA2PTE_or pa hf]
  unfold PGROUNDDOWN
  rw [PGSIZE_eq]
  omega

theorem PTE_FLAGS_PA2PTE_or (pa : Nat) (hf : f.toNat < 1024) : PTE_FLAGS (PA2PTE pa ||| f) = f := by
  rw [← UInt64.toNat_inj, toNat_PTE_FLAGS, toNat_PA2PTE_or pa hf]
  omega

theorem or_PTE_V_lt (h : perm.toNat < 1024) : (perm ||| PTE_V).toNat < 1024 := by
  rw [UInt64.toNat_or]
  exact Nat.or_lt_two_pow (n := 10) h (by decide)

theorem or_PTE_V_ne_zero (w : UInt64) : (w ||| PTE_V) &&& PTE_V ≠ 0 := by
  intro h
  have hbit : ((w ||| PTE_V) &&& PTE_V).toNat.testBit 0 = true := by
    rw [UInt64.toNat_and, UInt64.toNat_or, Nat.testBit_and, Nat.testBit_or]
    simp [PTE_V]
  rw [h] at hbit
  exact absurd hbit (by decide)

theorem PX_eq (level va : Nat) : PX level va = va / PGSIZE / 512 ^ level % 512 := by
  have h : va >>> (12 + 9 * level) &&& 511 = va >>> (12 + 9 * level) % 512 :=
    Nat.and_two_pow_sub_one_eq_mod (va >>> (12 + 9 * level)) 9
  unfold PX
  rw [h, Nat.shiftRight_eq_div_pow, Nat.pow_add, ← Nat.div_div_eq_div_mul, Nat.pow_mul]
  rfl

/-! ## Page tables as trees -/

/-- Entries read as pointers to tables, and as a physical page with flags.
Irreducible, so that no proof counts through the 512 entries of a table. -/
@[irreducible] def sv39 : Radix UInt64 (Nat × UInt64) where
  fan := 512
  child := fun w => if w &&& PTE_V = 0 then none else some (PTE2PA w)
  leaf := fun w => if w &&& PTE_V = 0 then none else some (PTE2PA w, PTE_FLAGS w)
  pos := by decide

def isPointer (w : UInt64) : Prop := w &&& (PTE_R ||| PTE_W ||| PTE_X) = 0

theorem sv39_fan : sv39.fan = 512 := by
  unfold sv39
  rfl

variable {w : UInt64}

theorem sv39_child_none (h : w &&& PTE_V = 0) : sv39.child w = none := by
  unfold sv39
  exact if_pos h

theorem sv39_child_some (h : w &&& PTE_V ≠ 0) : sv39.child w = some (PTE2PA w) := by
  unfold sv39
  exact if_neg h

theorem sv39_leaf_none (h : w &&& PTE_V = 0) : sv39.leaf w = none := by
  unfold sv39
  exact if_pos h

theorem sv39_leaf_some (h : w &&& PTE_V ≠ 0) : sv39.leaf w = some (PTE2PA w, PTE_FLAGS w) := by
  unfold sv39
  exact if_neg h

theorem PX_digit (level va : Nat) : PX level va = sv39.digit level (va / PGSIZE) := by
  rw [PX_eq, Radix.digit, sv39_fan]

theorem pointer_pa (h : L.isPage pa) : PTE2PA (PA2PTE pa ||| PTE_V) = pa := by
  rw [PTE2PA_PA2PTE_or pa (by decide), Nat.mod_eq_of_lt h.lt]
  have hal := h.1
  unfold PGROUNDDOWN
  rw [PGSIZE_eq] at hal ⊢
  omega

theorem pointer_isPointer (pa : Nat) : isPointer (PA2PTE pa ||| PTE_V) := by
  have hflags : PTE_FLAGS (PA2PTE pa ||| PTE_V) = PTE_V := PTE_FLAGS_PA2PTE_or pa (by decide)
  have hmask : (0x3FF : UInt64) &&& (PTE_R ||| PTE_W ||| PTE_X) = PTE_R ||| PTE_W ||| PTE_X := by
    decide
  unfold isPointer
  rw [← hmask, ← UInt64.and_assoc]
  change PTE_FLAGS (PA2PTE pa ||| PTE_V) &&& _ = 0
  rw [hflags]
  decide

namespace Phys

variable {i a : Nat}

structure Grows (s t : Phys) (n p : Nat) (N : Multiset Nat) : Prop where
  tables : sv39.tables t.word n p = N + sv39.tables s.word n p
  lookup : ∀ k, sv39.lookup t.word n p k = sv39.lookup s.word n p k
  inner : sv39.Inner s.word isPointer n p → sv39.Inner t.word isPointer n p
  out : ∀ a, a ∉ sv39.tables s.word n p → a ∉ N → t.page a = s.page a

namespace Grows

variable {t u : Phys} {q : Nat} {N M : Multiset Nat}

theorem of_page (h : t.page = s.page) (n p : Nat) : Grows s t n p 0 := by
  have hword : t.word = s.word := funext fun a => word_congr (congrFun h a)
  refine ⟨?_, ?_, ?_, fun a _ _ => congrFun h a⟩
  · rw [hword, Multiset.zero_add]
  · intro k
    rw [hword]
  · intro hin
    rwa [hword]

theorem trans (h : Grows s t n p N) (h' : Grows t u n p M) : Grows s u n p (M + N) where
  tables := by rw [h'.tables, h.tables, Multiset.add_assoc]
  lookup := fun k => (h'.lookup k).trans (h.lookup k)
  inner := fun hin => h'.inner (h.inner hin)
  out := by
    intro a ha hMN
    rw [mem_add] at hMN
    rw [h'.out a ?_ fun hM => hMN (.inl hM), h.out a ha fun hN => hMN (.inr hN)]
    rw [h.tables, mem_add]
    exact fun hor => hor.elim (fun hN => hMN (.inr hN)) ha

theorem word (h : Grows s t n p N) (ha : a ∉ sv39.tables s.word n p) (hN : a ∉ N) :
    t.word a = s.word a :=
  word_congr (h.out a ha hN)

theorem below (h : Grows s t n q N) (hnd : (sv39.tables s.word (n + 1) p).Nodup) (hi : i < sv39.fan)
    (hc : sv39.child (s.word p i) = some q) (hN : ∀ a ∈ N, a ∉ sv39.tables s.word (n + 1) p) :
    Grows s t (n + 1) p N := by
  have hout : ∀ a, a ∉ sv39.tables s.word n q → a ∉ N → t.word a = s.word a := fun _ => h.word
  refine ⟨Radix.tables_below hnd hi hc hout hN h.tables, ?_, ?_, ?_⟩
  · intro k
    by_cases hk : sv39.digit (n + 1) k = i
    · have hck : sv39.child (s.word p (sv39.digit (n + 1) k)) = some q := by
        rw [hk]
        exact hc
      rw [Radix.lookup_below_same hnd hi hc hout hN hk, h.lookup, Radix.lookup_succ hck]
    · exact Radix.lookup_below_other hnd hi hc hout hN hk
  · intro hin
    exact Radix.inner_below hnd hi hc hout hN hin (h.inner (hin i hi q hc).2)
  · intro a ha hNa
    refine h.out a (fun haq => ha ?_) hNa
    exact mem_of_le (Radix.tables_child_le hi hc) haq

end Grows

def attached (s : Phys) (p i pa : Nat) : Phys :=
  (s.setPage pa (Bytes.const 0)).setWord p i (PA2PTE pa ||| PTE_V)

theorem attached_page (hp : a ≠ p) (hpa : a ≠ pa) : (s.attached p i pa).page a = s.page a := by
  unfold attached
  rw [setWord_page_ne hp, setPage_ne hpa]

theorem attached_word_new (h : pa ≠ p) (j : Nat) : (s.attached p i pa).word pa j = 0 := by
  have hpage : (s.attached p i pa).page pa = Bytes.zero := by
    unfold attached
    rw [setWord_page_ne h, setPage_self]
    rfl
  unfold word
  rw [hpage, Bytes.u64_zero]

theorem attached_child (hi : i < sv39.fan)
    (hpa : L.isPage pa) : sv39.child ((s.attached p i pa).word p i) = some pa := by
  have hi' : i < 512 := by rwa [sv39_fan] at hi
  have hentry : (s.attached p i pa).word p i = PA2PTE pa ||| PTE_V := word_setWord _ hi'
  rw [hentry, sv39_child_some (or_PTE_V_ne_zero _), pointer_pa hpa]

theorem attached_nochild (h : pa ≠ p) (j : Nat) :
    sv39.child ((s.attached p i pa).word pa j) = none := by
  rw [attached_word_new h]
  exact sv39_child_none rfl

theorem attached_congr {t : Phys} (hne : pa ≠ p)
    (h : ∀ a, a ≠ pa → t.page a = s.page a) :
    (t.attached p i pa).page = (s.attached p i pa).page := by
  funext a
  rcases eq_or_ne a p with rfl | hp
  · unfold attached setWord
    rw [setPage_self, setPage_self, setPage_ne hne.symm, setPage_ne hne.symm, h a hne.symm]
  rcases eq_or_ne a pa with rfl | hpa
  · unfold attached
    rw [setWord_page_ne hp, setWord_page_ne hp, setPage_self, setPage_self]
  · rw [attached_page hp hpa, attached_page hp hpa, h a hpa]

theorem Grows.attached (hnd : (sv39.tables s.word (n + 1) p).Nodup) (hi : i < sv39.fan)
    (hnone : sv39.child (s.word p i) = none) (hpa : L.isPage pa)
    (hnew : pa ∉ sv39.tables s.word (n + 1) p) : Grows s (s.attached p i pa) (n + 1) p {pa} := by
  have hne : pa ≠ p := by
    rintro rfl
    exact hnew (Radix.mem_tables_self _ _)
  have hsome := attached_child (s := s) (p := p) hi hpa
  have hnochild := attached_nochild (s := s) (i := i) hne
  have hnoleaf : ∀ j, sv39.leaf ((s.attached p i pa).word pa j) = none := by
    intro j
    rw [attached_word_new hne]
    exact sv39_leaf_none rfl
  have hout : ∀ a, a ≠ p → a ≠ pa → (s.attached p i pa).word a = s.word a :=
    fun a hp hpa => word_congr (attached_page hp hpa)
  have hpage : ∀ j, j ≠ i → (s.attached p i pa).word p j = s.word p j := by
    intro j hj
    unfold Phys.attached
    rw [word_setWord_ne hj, word_congr (setPage_ne hne.symm)]
  refine ⟨?_, ?_, ?_, ?_⟩
  · rw [Radix.tables_attach hi hnew hnone hsome hnochild hout hpage hnd, singleton_add]
  · exact Radix.lookup_attach hnew hnone hsome hnochild hout hpage hnd hnoleaf
  · intro hin
    refine Radix.inner_attach hnew hnone hsome hnochild hout hpage hnd hin ?_
    have hi' : i < 512 := by rwa [sv39_fan] at hi
    have hentry : (s.attached p i pa).word p i = PA2PTE pa ||| PTE_V := word_setWord _ hi'
    rw [hentry]
    exact pointer_isPointer pa
  · intro a ha hpa'
    refine attached_page ?_ fun h => hpa' (mem_singleton.mpr h)
    rintro rfl
    exact ha (Radix.mem_tables_self _ _)

end Phys

namespace Vm

variable {E : VmPanic → Prop} {l : List Nat} {va pt : Nat} {Q : Option (Nat × Nat) → Phys → Prop}

theorem getPte_wp {e : Nat × Nat} {Q : UInt64 → Phys → Prop} :
    Wp E (getPte e) Q s ↔ Q (s.word e.1 e.2) s := Iff.rfl

theorem setPte_wp {e : Nat × Nat} {w : UInt64} {Q : Unit → Phys → Prop} :
    Wp E (setPte e w) Q s ↔ Q () (s.setWord e.1 e.2 w) := Iff.rfl

theorem memset_wp {c : UInt8} {Q : Unit → Phys → Prop} :
    Wp E (memset pa c) Q s ↔ Q () (s.setPage pa (Bytes.const c)) := Iff.rfl

theorem walkLevel_read
    (h : Q (sv39.slot s.word n p (va / PGSIZE)) s) : Wp E (walkLevel va false n p) Q s := by
  induction n generalizing p with
  | zero =>
    rw [walkLevel, Wp.pure_iff, PX_digit]
    exact h
  | succ n ih =>
    rw [walkLevel, Wp.bind_iff, getPte_wp, PX_digit]
    refine Wp.ite_iff.mpr ⟨fun hv => ?_, fun hv => ?_⟩
    · apply ih
      rwa [Radix.slot_succ (sv39_child_some hv)] at h
    · rw [if_pos rfl, Wp.pure_iff]
      rwa [Radix.slot_succ_none (sv39_child_none (not_not.mp hv))] at h

theorem walk_read (hva : va < MAXVA)
    (h : Q (sv39.slot s.word 2 pt (va / PGSIZE)) s) : Wp E (walk pt va false) Q s := by
  unfold walk
  rw [if_neg (Nat.not_le.mpr hva)]
  exact walkLevel_read h

theorem attach_table {i : Nat} {t : Phys} (hfl : FreeList L s (pa :: l))
    (hnd : (sv39.tables s.word (n + 1) p + (pa :: l : List Nat)).Nodup) (hi : i < sv39.fan)
    (hnone : sv39.child (s.word p i) = none) (hfl' : FreeList L t l)
    (ht : ∀ a, a ≠ pa → t.page a = s.page a) :
    FreeList L (t.attached p i pa) l ∧ s.Grows (t.attached p i pa) (n + 1) p {pa} ∧
      (sv39.tables (t.attached p i pa).word (n + 1) p + l).Nodup := by
  obtain ⟨hnd', _, hdis⟩ := nodup_add.mp hnd
  have hpa := hfl.ram pa List.mem_cons_self
  have hnew : pa ∉ sv39.tables s.word (n + 1) p := fun hmem =>
    disjoint_left.mp hdis hmem List.mem_cons_self
  have hne : pa ≠ p := by
    rintro rfl
    exact hnew (Radix.mem_tables_self _ _)
  have hu : s.Grows (t.attached p i pa) (n + 1) p {pa} := by
    have hg := Phys.Grows.attached hnd' hi hnone hpa hnew
    have ht' := hg.trans (.of_page (Phys.attached_congr hne ht) (n + 1) p)
    rwa [Multiset.zero_add] at ht'
  refine ⟨?_, hu, ?_⟩
  · refine hfl'.congr rfl fun a ha => Phys.attached_page ?_ ?_
    · rintro rfl
      exact disjoint_left.mp hdis (Radix.mem_tables_self _ _) (List.mem_cons_of_mem pa ha)
    · rintro rfl
      exact (List.nodup_cons.mp hfl.nodup).1 ha
  · rw [← cons_coe, add_cons] at hnd
    rwa [hu.tables, singleton_add, cons_add]

/-- With `alloc`, the tables that are missing on the way are taken from the free
list; the walk ends early when there is none left. -/
theorem walkLevel_alloc (hfl : FreeList L s l) (hnd : (sv39.tables s.word n p + l).Nodup)
    (hQ : ∀ r t N l', FreeList L t l' → (l : Multiset Nat) = N + l' → s.Grows t n p N →
      (∀ e, r = some e → sv39.slot t.word n p (va / PGSIZE) = some e) → Q r t) :
    Wp E (walkLevel va true n p) Q s := by
  induction n generalizing s p l Q with
  | zero =>
    rw [walkLevel, Wp.pure_iff, PX_digit]
    refine hQ _ s 0 l hfl (Multiset.zero_add _).symm (.of_page rfl 0 p) ?_
    intro e he
    exact he
  | succ n ih =>
    have hi : sv39.digit (n + 1) (va / PGSIZE) < sv39.fan := Radix.digit_lt _ _
    -- the rest of the walk, once the next table is there
    have hdown : ∀ u l1 q M, FreeList L u l1 → (sv39.tables u.word (n + 1) p + l1).Nodup →
        sv39.child (u.word p (sv39.digit (n + 1) (va / PGSIZE))) = some q →
        s.Grows u (n + 1) p M → (l : Multiset Nat) = M + l1 →
        Wp E (walkLevel va true n q) Q u := by
      intro u l1 q M hfl1 hnd1 hc hu hl1
      obtain ⟨hndu, _, hdis⟩ := nodup_add.mp hnd1
      refine ih hfl1 (nodup_of_le (Multiset.add_le_add_right (Radix.tables_child_le hi hc)) hnd1) ?_
      intro r t N l' hfl' hl' hg hr
      have hN : ∀ a ∈ N, a ∉ sv39.tables u.word (n + 1) p := by
        intro a ha hmem
        refine disjoint_left.mp hdis hmem ?_
        rw [hl', mem_add]
        exact .inl ha
      refine hQ r t (N + M) l' hfl' ?_ (hu.trans (hg.below hndu hi hc hN)) ?_
      · rw [hl1, hl', Multiset.add_comm N M, Multiset.add_assoc]
      intro e he
      rw [Radix.slot_below_same hndu hi hc (fun _ => hg.word) hN rfl]
      exact hr e he
    rw [walkLevel, Wp.bind_iff, getPte_wp, PX_digit]
    refine Wp.ite_iff.mpr ⟨fun hv => ?_, fun hv => ?_⟩
    · exact hdown s l _ 0 hfl hnd (sv39_child_some hv) (.of_page rfl _ p)
        (Multiset.zero_add _).symm
    rw [if_neg (by simp)]
    refine Wp.bind (kalloc_wp hfl ?_ ?_)
    · intro t ht hfl'
      rw [if_pos rfl, Wp.pure_iff]
      refine hQ none t 0 l hfl' (Multiset.zero_add _).symm (.of_page ht _ p) ?_
      intro e he
      cases he
    intro pa l' t hl hpa hfl' ht
    subst hl
    have hnone := sv39_child_none (not_not.mp hv)
    obtain ⟨hflu, hu, hndu⟩ := attach_table hfl hnd hi hnone hfl' ht
    rw [if_neg hpa.ne_zero, Wp.bind_iff, memset_wp, Wp.bind_iff, setPte_wp]
    exact hdown _ l' pa {pa} hflu hndu (Phys.attached_child hi hpa) hu
      (singleton_add pa l').symm

end Vm

end Xv6.Kernel
