import Xv6.Proofs.Space
/-!
# Growing, shrinking and copying user memory

The functions of `vm.c` on an address space whose pages are accounted for.
-/

namespace Xv6.Kernel

open Xv6.Lib Function Multiset

variable {s t : Phys} {m : Vmap} {n : Nat}

def Low (top : Vmap) : Prop := ∀ k, k < TRAPFRAME / PGSIZE → top k = none

namespace Keeps

variable {u : Phys} {m' m'' : Vmap} {n' : Nat}

theorem refl (s : Phys) (m : Vmap) (n : Nat) : Keeps s s m m n := fun _ _ _ _ hm => ⟨hm, rfl⟩

theorem trans (h : Keeps s t m m' n) (h' : Keeps t u m' m'' n) : Keeps s u m m'' n := by
  intro k pa f hk hm
  obtain ⟨hm', hp⟩ := h k pa f hk hm
  obtain ⟨hm'', hp'⟩ := h' k pa f hk hm'
  exact ⟨hm'', hp'.trans hp⟩

theorem mono (h : Keeps s t m m' n) (hn : n' ≤ n) : Keeps s t m m' n' :=
  fun k pa f hk => h k pa f (by omega)

end Keeps

namespace Vm

variable {E : VmPanic → Prop} {L : Link} {top : Vmap} {R R₀ : Multiset Nat} {pt v c n0 : Nat}
  {T : Multiset Nat} {l l' : List Nat} {oldsz newsz : Nat} {pa : Nat} {perm : UInt64}
  {Q : Bool → Phys → Prop}

theorem page_addr (h : L.isPage pa) : PGROUNDDOWN (pa % 2 ^ 64) = pa := by
  have hal := h.1
  rw [Nat.mod_eq_of_lt h.lt]
  unfold PGROUNDDOWN
  rw [PGSIZE_eq] at *
  omega

theorem mapOne_wp (ht : Table s pt T m) (hfl : FreeList L s l)
    (hnd : (T + l).Nodup) (hv : v < MAXVA / PGSIZE) (hun : m v = none) (hperm : perm.toNat < 1024)
    (hfail : ∀ t N l', FreeList L t l' → (l : Multiset Nat) = N + l' → Table t pt (N + T) m →
      (∀ a, a ∉ T → a ∉ l → t.page a = s.page a) → Q false t)
    (hok : ∀ t N l', FreeList L t l' → (l : Multiset Nat) = N + l' →
      Table t pt (N + T)
        (update m v (some (PGROUNDDOWN (pa % 2 ^ 64), perm ||| PTE_V))) →
      (∀ a, a ∉ T → a ∉ l → t.page a = s.page a) → Q true t) :
    Wp E (mappages pt (v * PGSIZE) PGSIZE pa perm) Q s := by
  have hvpn : v * PGSIZE / PGSIZE = v := Nat.mul_div_cancel v (by decide)
  have hone : (v * PGSIZE + PGSIZE - 1) / PGSIZE - v = 0 := by
    rw [PGSIZE_eq]
    omega
  refine mappages_wp ht hfl hnd (by decide) ?_ ?_ hperm ?_
  · rw [MAXVA_eq, PGSIZE_eq] at *
    omega
  · intro k hk hlt
    rw [hvpn] at hk
    have hkv : k = v := by
      rw [PGSIZE_eq] at hlt
      omega
    rw [hkv]
    exact hun
  intro r t N l' j hfl' hl ht' hout hr
  rw [hvpn] at ht'
  rw [hvpn, hone] at hr
  rcases hr with ⟨rfl, rfl⟩ | ⟨rfl, hj⟩
  · rw [Nat.zero_add, Vmap.extend_one] at ht'
    exact hok t N l' hfl' hl ht' hout
  · rw [Nat.le_zero.mp hj, Vmap.extend_zero] at ht'
    exact hfail t N l' hfl' hl ht' hout

theorem mapUser_wp (h : Account L top R s pt T m n l) (hlow : Low top)
    (hpa : L.isPage pa) (hnew : pa ∉ R) (hperm : perm.toNat < 1024)
    (hleaf : isLeaf (perm ||| PTE_V))
    (hfail : ∀ t T' l', Account L top R t pt T' m n l' → Keeps s t m m n → Within R s t → Q false t)
    (hok : ∀ t T' l', Account L top (pa ::ₘ R) t pt T'
        (update m n (some (pa, perm ||| PTE_V))) (n + 1) l' →
      Keeps s t m (update m n (some (pa, perm ||| PTE_V))) n → Within R s t → Q true t) :
    Wp E (mappages pt (n * PGSIZE) PGSIZE pa perm) Q s := by
  have hn := h.bound
  have hnone : m n = none := by
    rw [h.space.rest n (Nat.le_refl n) (by omega)]
    refine hlow n ?_
    have htf : TRAPFRAME / PGSIZE = 67108862 := by decide
    omega
  have hnd : (T + l).Nodup := by
    refine nodup_of_le ?_ h.nodup_all
    exact Multiset.add_le_add_right (Multiset.le_add_right _ _)
  -- what `mappages` touches is in the account
  have hwithin : ∀ t : Phys, (∀ a, a ∉ T → a ∉ l → t.page a = s.page a) →
      Within R s t ∧ Keeps s t m m n := by
    intro t hout
    constructor
    · intro a ha
      exact hout a (fun hT => ha ((h.mem_iff a).mpr (.inl hT)))
        fun hl => ha ((h.mem_iff a).mpr (.inr (.inr hl)))
    · intro k pa f hk hm
      have hmem : pa ∈ m.pages 0 n := Vmap.mem_pages.mpr ⟨k, f, hk, by rwa [Nat.zero_add]⟩
      exact ⟨hm, hout pa (h.pages_not_table pa hmem) fun hl => (h.free_not_own pa hl).2 hmem⟩
  have hram : ∀ (N : Multiset Nat) (l' : List Nat), (l : Multiset Nat) = N + l' →
      ∀ a ∈ N + T, L.isPage a := by
    intro N l' hl a ha
    rcases mem_add.mp ha with hN | hT
    · refine h.free.ram a ?_
      have hin : a ∈ (l : Multiset Nat) := by
        rw [hl, mem_add]
        exact .inl hN
      exact hin
    · exact h.space.ram a hT
  refine mapOne_wp h.space.table h.free hnd ?_ hnone hperm ?_ ?_
  · have hmax : MAXVA / PGSIZE = 67108864 := by decide
    omega
  · intro t N l' hfl hl ht hout
    obtain ⟨hw, hk⟩ := hwithin t hout
    refine hfail t (N + T) l' ⟨⟨ht, hram N l' hl, h.space.user, h.space.rest⟩, hfl, ?_, h.nodup⟩
      hk hw
    rw [← h.total, hl]
    ac_rfl
  intro t N l' hfl hl ht hout
  rw [page_addr hpa] at ht
  obtain ⟨hw, hk⟩ := hwithin t hout
  refine hok t (N + T) l' ⟨⟨ht, hram N l' hl, ?_, ?_⟩, hfl, ?_, ?_⟩ ?_ hw
  · intro k hkn
    by_cases hke : k = n
    · rw [hke, update_self]
      exact ⟨pa, _, rfl, hleaf, hpa⟩
    · rw [update_of_ne hke]
      exact h.space.user k (by omega)
  · intro k hkn hk'
    rw [update_of_ne (by omega)]
    exact h.space.rest k (by omega) hk'
  · have hpages : Vmap.pages (update m n (some (pa, perm ||| PTE_V))) 0 n =
        m.pages 0 n := by
      refine Vmap.pages_congr fun i hi => ?_
      exact update_of_ne (by omega) ..
    have hlast : update m n (some (pa, perm ||| PTE_V)) (0 + n) =
        some (pa, perm ||| PTE_V) := by
      rw [Nat.zero_add, update_self]
    rw [Vmap.pages_succ hlast, hpages, ← h.total, hl, add_cons, cons_add]
    congr 1
    ac_rfl
  · exact nodup_cons.mpr ⟨hnew, h.nodup⟩
  · intro k pa' f hkn hm
    rw [update_of_ne (by omega)]
    exact hk k pa' f hkn hm

theorem shrink_wp {Q : Unit → Phys → Prop} (h : Account L top R s pt T m n l) (hlow : Low top)
    (hc : c ≤ n)
    (hQ : ∀ t l', Account L top R t pt T (m.erase c (n - c)) c l' →
      Keeps s t m (m.erase c (n - c)) c → Within R s t → Q () t) :
    Wp E (uvmunmap L pt (c * PGSIZE) (n - c) true) Q s := by
  have hn := h.bound
  have hvpn : c * PGSIZE / PGSIZE = c := Nat.mul_div_cancel c (by decide)
  have hsplit : m.pages 0 n = m.pages 0 c + m.pages c (n - c) := by
    have hadd := Vmap.pages_add m 0 c (n - c)
    rwa [Nat.add_sub_cancel' hc, Nat.zero_add] at hadd
  have hsub : ∀ a ∈ m.pages c (n - c), a ∈ m.pages 0 n := by
    intro a ha
    rw [hsplit]
    exact mem_add.mpr (.inr ha)
  have hall := h.nodup_all
  refine uvmunmap_wp h.space.table ?_ (by rw [Nat.mul_mod_left]) ?_ ?_ ?_ ?_
  · exact nodup_of_le ((Multiset.le_add_right _ _).trans (Multiset.le_add_right _ _)) hall
  · rw [← Nat.add_mul, Nat.add_sub_cancel' hc, MAXVA_eq, PGSIZE_eq]
    omega
  · rw [hvpn]
    intro _ a ha
    exact h.pages_not_table a (hsub a ha)
  · intro i hi hbad
    refine absurd ?_ hbad
    obtain ⟨pa, f, hm, hleaf, hpa⟩ := h.space.user (c + i) (by omega)
    rw [hvpn]
    exact ⟨pa, f, hm, hleaf.ne, fun _ => hpa⟩
  rw [hvpn]
  intro t hu
  have hall' : (m.pages c (n - c) + (T + l)).Nodup := by
    refine nodup_of_le ?_ hall
    have heq : T + m.pages 0 n + l = m.pages 0 c + (m.pages c (n - c) + (T + l)) := by
      rw [hsplit]
      ac_rfl
    rw [heq]
    exact Multiset.le_add_left _ _
  obtain ⟨l', hfl', hl'⟩ := hu.free l h.free (nodup_add.mp hall').2.1 fun _ => hall'
  have hpages : (m.erase c (n - c)).pages 0 c = m.pages 0 c :=
    Vmap.pages_congr fun i hi => if_neg (by omega)
  refine hQ t l' ⟨⟨hu.table, h.space.ram, ?_, ?_⟩, hfl', ?_, h.nodup⟩ ?_ ?_
  · intro k hk
    unfold Vmap.erase
    rw [if_neg (by omega)]
    exact h.space.user k (by omega)
  · intro k hk hk'
    unfold Vmap.erase
    split
    · refine (hlow k ?_).symm
      have htf : TRAPFRAME / PGSIZE = 67108862 := by decide
      omega
    · exact h.space.rest k (by omega) hk'
  · rw [hpages, hl', if_pos rfl, ← h.total, hsplit]
    ac_rfl
  · intro k pa f hk hm
    have hmem : pa ∈ m.pages 0 c := Vmap.mem_pages.mpr ⟨k, f, hk, by rwa [Nat.zero_add]⟩
    refine ⟨?_, hu.out pa ?_ fun _ => ?_⟩
    · unfold Vmap.erase
      rw [if_neg (by omega)]
      exact hm
    · refine h.pages_not_table pa ?_
      rw [hsplit]
      exact mem_add.mpr (.inl hmem)
    intro hmem'
    have hnd := (nodup_add.mp (nodup_add.mp hall).1).2.1
    rw [hsplit] at hnd
    exact disjoint_left.mp (nodup_add.mp hnd).2.2 hmem hmem'
  · intro a ha
    refine hu.out a (fun hT => ha ((h.mem_iff a).mpr (.inl hT))) fun _ hp => ha ?_
    exact (h.mem_iff a).mpr (.inr (.inl (hsub a hp)))

theorem uvmdealloc_wp {Q : Nat → Phys → Prop} (h : Account L top R s pt T m (npages oldsz) l)
    (hlow : Low top) (hold : oldsz + PGSIZE ≤ 2 ^ 64)
    (hQ : ∀ t m' l', Account L top R t pt T m' (npages (min oldsz newsz)) l' →
      Keeps s t m m' (npages (min oldsz newsz)) → Within R s t → Q (min oldsz newsz) t) :
    Wp E (uvmdealloc L pt oldsz newsz) Q s := by
  have hn := h.bound
  refine Wp.ite_iff.mpr ⟨fun hle => ?_, fun hlt => ?_⟩
  · rw [Wp.pure_iff]
    rw [Nat.min_eq_left hle] at hQ
    exact hQ s m l h (Keeps.refl s m _) (Within.refl R s)
  rw [Nat.not_le] at hlt
  rw [Nat.min_eq_right (Nat.le_of_lt hlt)] at hQ
  have hnew : newsz + PGSIZE ≤ 2 ^ 64 := by omega
  rw [PGROUNDUP_eq hold, PGROUNDUP_eq hnew]
  have hle : npages newsz ≤ npages oldsz := Nat.div_le_div_right (by omega)
  refine Wp.ite_iff.mpr ⟨fun _ => ?_, fun hge => ?_⟩
  · have hcount : int64 ((npages oldsz * PGSIZE - npages newsz * PGSIZE) / PGSIZE) =
        npages oldsz - npages newsz := by
      rw [← Nat.sub_mul, Nat.mul_div_cancel _ (by decide)]
      unfold int64
      rw [if_pos (by omega), Nat.mod_eq_of_lt (by omega)]
    rw [hcount]
    refine Wp.bind (shrink_wp h hlow hle fun t l' ht hk hw => ?_)
    rw [Wp.pure_iff]
    exact hQ t _ l' ht hk hw
  · have heq : npages newsz = npages oldsz := by
      rw [PGSIZE_eq] at hge
      omega
    rw [Wp.pure_iff]
    refine hQ s m l ?_ (Keeps.refl s m _) (Within.refl R s)
    rw [heq]
    exact h

theorem filled (h : Account L top R s pt T m n l) (hR : R = pa ::ₘ R₀)
    (ht : Account L top R₀ t pt T m n l') (hout : ∀ a, a ≠ pa → t.page a = s.page a)
    (b : Bytes PGSIZE) :
    pa ∉ R₀ ∧ Account L top R₀ (t.setPage pa b) pt T m n l' ∧ Keeps s (t.setPage pa b) m m n ∧
      Within R s (t.setPage pa b) := by
  have hnew : pa ∉ R₀ := by
    have hnd := h.nodup
    rw [hR, nodup_cons] at hnd
    exact hnd.1
  have hout' : ∀ a, a ≠ pa → (t.setPage pa b).page a = s.page a :=
    fun a ha => (Phys.setPage_ne ha).trans (hout a ha)
  refine ⟨hnew, ht.congr rfl fun a ha => Phys.setPage_ne ?_, ?_, ?_⟩
  · rintro rfl
    exact hnew ((ht.mem_iff a).mpr (ha.imp_right .inr))
  · intro k pa' f hk hm
    refine ⟨hm, hout' pa' ?_⟩
    rintro rfl
    refine hnew ((ht.mem_iff pa').mpr (.inr (.inl ?_)))
    exact Vmap.mem_pages.mpr ⟨k, f, hk, by rwa [Nat.zero_add]⟩
  intro a ha
  apply hout'
  rintro rfl
  refine ha ?_
  rw [hR]
  exact mem_cons_self a R₀

theorem unfilled (hR : R = pa ::ₘ R₀)
    (hpa : L.isPage pa) (hnew : pa ∉ R₀) (ht : Account L top R₀ t pt T m n l)
    (hk : Keeps s t m m n) (hw : Within R s t) :
    Account L top R (t.freed pa) pt T m n (pa :: l) ∧ Keeps s (t.freed pa) m m n ∧
      Within R s (t.freed pa) := by
  refine ⟨?_, ?_, ?_⟩
  · rw [hR]
    exact ht.freed hpa hnew
  · intro k pa' f hkn hm
    obtain ⟨hm', hp⟩ := hk k pa' f hkn hm
    refine ⟨hm', (Phys.freed_page_ne ?_).trans hp⟩
    rintro rfl
    refine hnew ((ht.mem_iff pa').mpr (.inr (.inl ?_)))
    exact Vmap.mem_pages.mpr ⟨k, f, hkn, by rwa [Nat.zero_add]⟩
  intro a ha
  have hne : a ≠ pa := by
    rintro rfl
    refine ha ?_
    rw [hR]
    exact mem_cons_self a R₀
  rw [Phys.freed_page_ne hne, hw a ha]

/-- The flags `uvmalloc` gives a page. -/
def userFlags : UInt64 := PTE_W ||| PTE_X ||| PTE_R ||| PTE_U ||| PTE_V

def Zeroed (t : Phys) (m : Vmap) (n n' : Nat) : Prop :=
  ∀ k, n ≤ k → k < n' → ∃ pa, m k = some (pa, userFlags) ∧ t.page pa = Bytes.const 0

theorem allocPage_wp {Q : Option Unit → Phys → Prop} (h : Account L top R s pt T m n l)
    (hlow : Low top) (hn0 : n0 ≤ n)
    (hok : ∀ t T' m' l', Account L top R t pt T' m' (n + 1) l' → Keeps s t m m' n →
      Zeroed t m' n (n + 1) → Within R s t → Q none t)
    (hfail : ∀ t T' m' l', Account L top R t pt T' m' n0 l' → Keeps s t m m' n0 →
      Within R s t → Q (some ()) t) : Wp E (allocPage L pt (n0 * PGSIZE) (n * PGSIZE)) Q s := by
  have hn := h.bound
  have hmin : min (n * PGSIZE) (n0 * PGSIZE) = n0 * PGSIZE :=
    Nat.min_eq_right (Nat.mul_le_mul_right _ hn0)
  -- giving up returns to the old size
  have hundo : ∀ t T' l', Account L top R t pt T' m n l' → Keeps s t m m n → Within R s t →
      Wp E (do let _ ← uvmdealloc L pt (n * PGSIZE) (n0 * PGSIZE); pure (some ())) Q t := by
    intro t T' l' ht hk hw
    rw [Wp.bind_iff]
    have ht' : Account L top R t pt T' m (npages (n * PGSIZE)) l' := by
      rw [npages_mul]
      exact ht
    refine uvmdealloc_wp ht' hlow (by rw [PGSIZE_eq]; omega) ?_
    rw [hmin, npages_mul]
    intro u m' l'' hu hk' hw'
    rw [Wp.pure_iff]
    exact hfail u T' m' l'' hu ((hk.mono hn0).trans hk') (hw.trans hw')
  unfold allocPage
  refine Wp.bind (kalloc_account h ?_ ?_)
  · intro t hpage ht
    rw [if_pos rfl]
    refine hundo t T l ht ?_ ?_
    · intro k pa f _ hm
      exact ⟨hm, congrFun hpage pa⟩
    · exact fun a _ => congrFun hpage a
  intro pa R₀ l' t hR hpa hl ht hout
  obtain ⟨hnew, hu, hkeep, hwithin⟩ := filled h hR ht hout (Bytes.const 0)
  have hR0 : R₀ ≤ R := by
    rw [hR]
    exact le_cons_self R₀ pa
  rw [if_neg hpa.ne_zero, Wp.bind_iff, memset_wp]
  refine Wp.bind (mapUser_wp hu hlow hpa hnew (by decide) (by unfold isLeaf; decide) ?_ ?_)
  · intro v T' l'' hv hk hw
    rw [if_neg (by simp)]
    refine Wp.bind (kfree_wp hpa ?_)
    obtain ⟨hv', hk', hw'⟩ :=
      unfilled hR hpa hnew hv (hkeep.trans hk) (hwithin.trans (hw.mono hR0))
    exact hundo _ T' (pa :: l'') hv' hk' hw'
  intro v T' l'' hv hk hw
  rw [← hR] at hv
  rw [if_pos rfl, Wp.pure_iff]
  refine hok v T' _ l'' hv (hkeep.trans hk) ?_ (hwithin.trans (hw.mono hR0))
  intro k hk1 hk2
  have hkn : k = n := by omega
  rw [hkn, update_self]
  refine ⟨pa, rfl, ?_⟩
  rw [hw pa hnew, Phys.setPage_self]

theorem rounds_eq (hle : oldsz ≤ newsz) :
    rounds (npages oldsz * PGSIZE) newsz = npages newsz - npages oldsz := by
  unfold rounds npages
  rw [PGSIZE_eq]
  omega

theorem uvmalloc_wp {Q : Nat → Phys → Prop} (h : Account L top R s pt T m (npages oldsz) l)
    (hlow : Low top) (hold : oldsz + PGSIZE ≤ 2 ^ 64) (hsame : newsz < oldsz → Q oldsz s)
    (hok : ∀ t T' m' l', oldsz ≤ newsz → Account L top R t pt T' m' (npages newsz) l' →
      Keeps s t m m' (npages oldsz) → Zeroed t m' (npages oldsz) (npages newsz) →
      Within R s t → Q newsz t)
    (hfail : ∀ t T' m' l', oldsz ≤ newsz → Account L top R t pt T' m' (npages oldsz) l' →
      Keeps s t m m' (npages oldsz) → Within R s t → Q 0 t) :
    Wp E (uvmalloc L pt oldsz newsz) Q s := by
  refine Wp.ite_iff.mpr ⟨hsame, fun hge => ?_⟩
  have hle : oldsz ≤ newsz := Nat.not_lt.mp hge
  have hnle : npages oldsz ≤ npages newsz := Nat.div_le_div_right (by omega)
  rw [PGROUNDUP_eq hold, rounds_eq hle, Wp.bind_iff]
  refine (Wp.findRange
    (I := fun i t => ∃ T' m' l', Account L top R t pt T' m' (npages oldsz + i) l' ∧
      Keeps s t m m' (npages oldsz) ∧ Zeroed t m' (npages oldsz) (npages oldsz + i) ∧
      Within R s t) (R := fun _ t => ∃ T' m' l', Account L top R t pt T' m' (npages oldsz) l' ∧
      Keeps s t m m' (npages oldsz) ∧ Within R s t) ?_ ?_).post ?_
  · refine ⟨T, m, l, h, Keeps.refl s m _, ?_, Within.refl R s⟩
    intro k hk1 hk2
    omega
  · rintro i t _ _ ⟨T', m', l', ht, hk, hz, hw⟩
    rw [← Nat.add_mul]
    refine allocPage_wp ht hlow (Nat.le_add_right _ _) ?_ ?_
    · intro u T'' m'' l'' hu hk' hz' hw'
      refine ⟨T'', m'', l'', hu, hk.trans (hk'.mono (Nat.le_add_right _ _)), ?_, hw.trans hw'⟩
      intro k hk1 hk2
      by_cases hlast : k = npages oldsz + i
      · exact hz' k (by omega) (by omega)
      obtain ⟨pa, hm, hp⟩ := hz k hk1 (by omega)
      obtain ⟨hm', hp'⟩ := hk' k pa _ (by omega) hm
      exact ⟨pa, hm', hp'.trans hp⟩
    · intro u T'' m'' l'' hu hk' hw'
      exact ⟨T'', m'', l'', hu, hk.trans hk', hw.trans hw'⟩
  · intro r t hr
    cases r with
    | none =>
      obtain ⟨T', m', l', ht, hk, hz, hw⟩ := hr
      rw [Nat.zero_add, Nat.add_sub_cancel' hnle] at ht hz
      exact hok t T' m' l' hle ht hk hz hw
    | some r =>
      obtain ⟨T', m', l', ht, hk, hw⟩ := hr
      exact hfail t T' m' l' hle ht hk hw

end Vm

end Xv6.Kernel
