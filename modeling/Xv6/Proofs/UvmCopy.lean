import Xv6.Proofs.Uvm
/-!
# Copying to and from user memory

`walkaddr` and the functions built on it, `uvmclear`, and `uvmcopy`.
-/

namespace Xv6.Kernel

open Xv6.Lib Function

variable {f : UInt64}

/-- What `walkaddr` answers. -/
def Vmap.addr (m : Vmap) (va : Nat) : Nat :=
  if MAXVA ≤ va then 0
  else
    match m (va / PGSIZE) with
    | some (pa, f) => if f &&& PTE_U = 0 then 0 else pa
    | none => 0

def Shut (top : Vmap) : Prop := ∀ k pa f, top k = some (pa, f) → f &&& PTE_U = 0

theorem PTE_FLAGS_and_U (w : UInt64) : PTE_FLAGS w &&& PTE_U = w &&& PTE_U := by
  unfold PTE_FLAGS
  rw [UInt64.and_assoc]
  rfl

theorem clear_div (w : UInt64) : (w &&& ~~~PTE_U).toNat / 1024 = w.toNat / 1024 := by
  have hnot : (~~~PTE_U).toNat = 2 ^ 64 - (16 + 1) := by decide
  apply Nat.eq_of_testBit_eq
  intro j
  have hbit : ∀ x : Nat, (x / 1024).testBit j = x.testBit (j + 10) :=
    fun x => Nat.testBit_div_two_pow (n := 10) x j
  rw [hbit, hbit, UInt64.toNat_and, Nat.testBit_and, hnot, Nat.testBit_two_pow_sub_succ (by decide)]
  have h16 : (16 : Nat).testBit (j + 10) = false :=
    Nat.testBit_lt_two_pow (Nat.lt_of_lt_of_le (by decide : 16 < 2 ^ 10)
      (Nat.pow_le_pow_right (by decide) (Nat.le_add_left 10 j)))
  by_cases hj : j + 10 < 64
  · simp [h16, hj]
  have hw : w.toNat.testBit (j + 10) = false :=
    Nat.testBit_lt_two_pow (Nat.lt_of_lt_of_le w.toNat_lt
      (Nat.pow_le_pow_right (by decide) (Nat.not_lt.mp hj)))
  simp [hw]

theorem PTE2PA_clear (w : UInt64) : PTE2PA (w &&& ~~~PTE_U) = PTE2PA w := by
  rw [PTE2PA_eq, PTE2PA_eq, clear_div]

theorem PTE_FLAGS_clear (w : UInt64) : PTE_FLAGS (w &&& ~~~PTE_U) = PTE_FLAGS w &&& ~~~PTE_U := by
  unfold PTE_FLAGS
  rw [UInt64.and_assoc, UInt64.and_comm (~~~PTE_U), ← UInt64.and_assoc]

theorem isLeaf.clear (h : isLeaf f) : isLeaf (f &&& ~~~PTE_U) := by
  have hmask : ∀ x, ~~~PTE_U &&& x = x → (f &&& ~~~PTE_U) &&& x = f &&& x := by
    intro x hx
    rw [UInt64.and_assoc, hx]
  refine ⟨?_, ?_, ?_⟩
  · rw [hmask _ (by decide)]
    exact h.1
  · rw [hmask _ (by decide)]
    exact h.2.1
  · rw [UInt64.toNat_and]
    exact Nat.lt_of_le_of_lt Nat.and_le_left h.2.2

theorem or_PTE_V_self (h : f &&& PTE_V ≠ 0) : f ||| PTE_V = f := by
  have hodd : f.toNat % 2 = 1 := by
    rw [Ne, and_PTE_V_eq_zero] at h
    omega
  rw [← UInt64.toNat_inj, UInt64.toNat_or]
  have hor : f.toNat ||| 1 = f.toNat := by
    apply Nat.eq_of_testBit_eq
    intro j
    rw [Nat.testBit_or]
    cases j with
    | zero => simp [Nat.testBit_zero, hodd]
    | succ j => simp [Nat.testBit_one_eq_true_iff_self_eq_zero]
  exact hor

namespace Vm

variable {E : VmPanic → Prop} {L : Link} {top : Vmap} {R : Multiset Nat} {s : Phys}
  {pt n va dstva len fuel : Nat} {T : Multiset Nat} {m : Vmap} {l : List Nat}
  {Q : Bool → Phys → Prop} {src : Nat → UInt8}

theorem walkaddr_wp (ht : Table s pt T m) {Q : Nat → Phys → Prop} (hQ : Q (m.addr va) s) :
    Wp E (walkaddr pt va) Q s := by
  unfold Vmap.addr at hQ
  refine Wp.ite_iff.mpr ⟨fun hge => ?_, fun hlt => ?_⟩
  · rw [if_pos hge] at hQ
    exact hQ
  rw [if_neg hlt] at hQ
  rw [Nat.not_le] at hlt
  have hk := vpn_lt (div_lt_MAXVA hlt)
  rw [Wp.bind_iff]
  apply walk_read hlt
  cases hs : sv39.slot s.word 2 pt (va / PGSIZE) with
  | none =>
    rw [ht.slot_none hk hs] at hQ
    exact hQ
  | some e =>
    have hleaf := ht.leaf_slot hk hs
    rw [Wp.bind_iff, getPte_wp]
    refine Wp.ite_iff.mpr ⟨fun hv => ?_, fun hv => Wp.ite_iff.mpr ⟨fun hu => ?_, fun hu => ?_⟩⟩
    · rw [sv39_leaf_none hv] at hleaf
      rw [← hleaf] at hQ
      exact hQ
    · rw [sv39_leaf_some hv] at hleaf
      rw [← hleaf] at hQ
      simp only at hQ
      rw [PTE_FLAGS_and_U, if_pos hu] at hQ
      exact hQ
    · rw [sv39_leaf_some hv] at hleaf
      rw [← hleaf] at hQ
      simp only at hQ
      rw [PTE_FLAGS_and_U, if_neg hu] at hQ
      exact hQ

theorem walk_mapped {pa : Nat} (ht : Table s pt T m) (hva : va < MAXVA)
    (hm : m (va / PGSIZE) = some (pa, f)) {Q : Option (Nat × Nat) → Phys → Prop}
    (hQ : ∀ e, sv39.slot s.word 2 pt (va / PGSIZE) = some e → s.word e.1 e.2 &&& PTE_V ≠ 0 →
      PTE2PA (s.word e.1 e.2) = pa → PTE_FLAGS (s.word e.1 e.2) = f → Q (some e) s) :
    Wp E (walk pt va false) Q s := by
  have hk := vpn_lt (div_lt_MAXVA hva)
  apply walk_read hva
  cases hs : sv39.slot s.word 2 pt (va / PGSIZE) with
  | none =>
    rw [ht.slot_none hk hs] at hm
    cases hm
  | some e =>
    have hleaf := ht.leaf_slot hk hs
    rw [hm] at hleaf
    have hv : s.word e.1 e.2 &&& PTE_V ≠ 0 := by
      intro hv
      rw [sv39_leaf_none hv] at hleaf
      cases hleaf
    rw [sv39_leaf_some hv] at hleaf
    cases hleaf
    exact hQ e hs hv rfl rfl

section

variable (hs : Space L top s pt T m n)
include hs

theorem addr_mem (hshut : Shut top) (hne : m.addr va ≠ 0) : m.addr va ∈ m.pages 0 n := by
  unfold Vmap.addr at hne ⊢
  split at hne
  · exact absurd rfl hne
  rename_i hlt
  rw [if_neg hlt]
  cases hm : m (va / PGSIZE) with
  | none =>
    rw [hm] at hne
    exact absurd rfl hne
  | some e =>
    obtain ⟨pa, f⟩ := e
    rw [hm] at hne
    simp only at hne ⊢
    split at hne
    · exact absurd rfl hne
    rename_i hu
    rw [if_neg hu]
    refine Vmap.mem_pages.mpr ⟨va / PGSIZE, f, ?_, by rwa [Nat.zero_add]⟩
    by_contra hge
    refine hu (hshut (va / PGSIZE) pa f ?_)
    rw [← hs.rest _ (Nat.not_lt.mp hge) (vpn_lt (div_lt_MAXVA (Nat.not_le.mp hlt))), hm]

theorem copyoutLoop_wp {done : Nat} (hshut : Shut top) (hT : ∀ a ∈ m.pages 0 n, a ∉ T)
    (hQ : ∀ r t, t.freelist = s.freelist → Within (m.pages 0 n) s t → Q r t) :
    Wp E (copyoutLoop pt src fuel dstva done len) Q s := by
  induction fuel generalizing s dstva done len Q with
  | zero => exact hQ _ s rfl (Within.refl _ s)
  | succ fuel ih =>
    rw [copyoutLoop]
    refine Wp.ite_iff.mpr ⟨fun _ => hQ _ s rfl (Within.refl _ s), fun _ => ?_⟩
    rw [Wp.bind_iff]
    refine walkaddr_wp hs.table
      (Wp.ite_iff.mpr ⟨fun _ => hQ _ s rfl (Within.refl _ s), fun hne => ?_⟩)
    have hmem := addr_mem hs hshut hne
    rw [Wp.bind_iff]
    have hw : ∀ b, Within (m.pages 0 n) s (s.setPage (m.addr (PGROUNDDOWN dstva)) b) := by
      intro b a ha
      apply Phys.setPage_ne
      rintro rfl
      exact ha hmem
    refine ih (hs.congr fun a ha => hw _ a fun hp => hT a hp ha) ?_
    intro r t hfl ht
    exact hQ r t hfl ((hw _).trans ht)

theorem copyout_wp (hshut : Shut top) (hT : ∀ a ∈ m.pages 0 n, a ∉ T)
    (hQ : ∀ r t, t.freelist = s.freelist → Within (m.pages 0 n) s t → Q r t) :
    Wp E (copyout pt dstva src len) Q s :=
  copyoutLoop_wp hs hshut hT hQ

end

theorem copyout_account (h : Account L top R s pt T m n l) (hshut : Shut top)
    (hQ : ∀ r t, Account L top R t pt T m n l → Within R s t → Q r t) :
    Wp E (copyout pt dstva src len) Q s := by
  refine copyout_wp h.space hshut h.pages_not_table fun r t hfl hw => ?_
  refine hQ r t (h.congr hfl fun a ha => hw a fun hp => ?_) (hw.mono ?_)
  · rcases ha with ha | ha
    · exact h.pages_not_table a hp ha
    · exact (h.free_not_own a ha).2 hp
  · rw [← h.total, Multiset.add_comm T]
    exact (Multiset.le_add_right _ _).trans (Multiset.le_add_right _ _)

theorem copyinLoop_wp {srcva : Nat} (ht : Table s pt T m)
    {Q : List UInt8 × Bool → Phys → Prop} (hQ : ∀ r, Q r s) :
    Wp E (copyinLoop pt fuel srcva len) Q s := by
  induction fuel generalizing srcva len Q with
  | zero => exact hQ _
  | succ fuel ih =>
    rw [copyinLoop]
    refine Wp.ite_iff.mpr ⟨fun _ => hQ _, fun _ => ?_⟩
    refine Wp.bind (walkaddr_wp ht (Wp.ite_iff.mpr ⟨fun _ => hQ _, fun _ => ?_⟩))
    rw [Wp.bind_iff, Wp.gets_iff, Wp.bind_iff]
    exact ih fun r => hQ _

theorem copyinstrLoop_wp {srcva max : Nat} (ht : Table s pt T m)
    {Q : List UInt8 × Bool → Phys → Prop} (hQ : ∀ r, Q r s) :
    Wp E (copyinstrLoop pt fuel srcva max) Q s := by
  induction fuel generalizing srcva max Q with
  | zero => exact hQ _
  | succ fuel ih =>
    rw [copyinstrLoop]
    refine Wp.ite_iff.mpr ⟨fun _ => hQ _, fun _ => ?_⟩
    refine Wp.bind (walkaddr_wp ht (Wp.ite_iff.mpr ⟨fun _ => hQ _, fun _ => ?_⟩))
    rw [Wp.bind_iff, Wp.gets_iff]
    refine Wp.ite_iff.mpr ⟨fun _ => hQ _, fun _ => ?_⟩
    rw [Wp.bind_iff]
    exact ih fun r => hQ _

theorem uvmclear_wp (h : Account L top R s pt T m n l) (hva : va / PGSIZE < n)
    {Q : Unit → Phys → Prop} (hQ : ∀ t m', Account L top R t pt T m' n l → Within T s t →
      (∀ k, k ≠ va / PGSIZE → m' k = m k) →
      (∃ pa f, m' (va / PGSIZE) = some (pa, f &&& ~~~PTE_U)) → Q () t) :
    Wp E (uvmclear pt va) Q s := by
  have hn := h.bound
  obtain ⟨pa, f, hm, hleaf, hpa⟩ := h.space.user _ hva
  have hmax : va < MAXVA := by
    rw [MAXVA_eq]
    rw [PGSIZE_eq] at hva
    omega
  unfold uvmclear
  refine Wp.bind (walk_mapped h.space.table hmax hm ?_)
  intro e hs hv hpte hflags
  have hT := (h.space.table.slot_mem hs).1
  have hnd := (Multiset.nodup_add.mp (Multiset.nodup_add.mp h.nodup_all).1).1
  have hout : Within T s (s.setWord e.1 e.2 (s.word e.1 e.2 &&& ~~~PTE_U)) := by
    intro a ha
    apply Phys.setWord_page_ne
    rintro rfl
    exact ha hT
  have hnew : sv39.leaf (s.word e.1 e.2 &&& ~~~PTE_U) = some (pa, f &&& ~~~PTE_U) := by
    have hv' : s.word e.1 e.2 &&& ~~~PTE_U &&& PTE_V ≠ 0 := by
      rw [UInt64.and_assoc]
      exact hv
    rw [sv39_leaf_some hv', PTE2PA_clear, PTE_FLAGS_clear, hpte, hflags]
  have ht := h.space.table.write hnd (vpn_lt (div_lt_MAXVA hmax)) hs
    (s.word e.1 e.2 &&& ~~~PTE_U)
  rw [hnew] at ht
  rw [Wp.bind_iff, getPte_wp, setPte_wp]
  refine hQ _ _ ⟨⟨ht, h.space.ram, ?_, ?_⟩, ?_, ?_, h.nodup⟩ hout
    (fun k hk => update_of_ne hk ..) ⟨pa, f, update_self ..⟩
  · intro k hk
    by_cases hkv : k = va / PGSIZE
    · rw [hkv, update_self]
      exact ⟨pa, _, rfl, hleaf.clear, hpa⟩
    · rw [update_of_ne hkv]
      exact h.space.user k hk
  · intro k hk hk'
    rw [update_of_ne (by omega)]
    exact h.space.rest k hk hk'
  · refine h.free.congr rfl fun a ha => hout a ?_
    exact (h.free_not_own a ha).1
  have hpages : Vmap.pages (update m (va / PGSIZE) (some (pa, f &&& ~~~PTE_U))) 0 n =
      m.pages 0 n := by
    refine Finset.sum_congr rfl fun i _ => ?_
    by_cases hi : 0 + i = va / PGSIZE
    · rw [hi, update_self, hm]
      rfl
    · rw [update_of_ne hi]
  rw [hpages, h.total]

/-! ## `uvmcopy` -/

section Copy

variable {old n0 : Nat} {top₀ : Vmap} {T₀ : Multiset Nat} {m₀ : Vmap}

/-- Page `k` has been copied from the old map `m₀` to the new map `m`. -/
def Copied (s t : Phys) (m₀ m : Vmap) (k : Nat) : Prop :=
  ∃ pa pa' f, m₀ k = some (pa, f) ∧ m k = some (pa', f) ∧ t.page pa' = s.page pa

theorem copyPage_wp (h₀ : Space L top₀ s old T₀ m₀ n0) (hn0 : n < n0)
    (h : Account L top R s pt T m n l) (hlow : Low top)
    (hdis : ∀ a ∈ m₀.pages 0 n0, a ∉ R) {Q : Option Nat → Phys → Prop}
    (hok : ∀ t T' m' l', Account L top R t pt T' m' (n + 1) l' → Keeps s t m m' n →
      Copied s t m₀ m' n → Within R s t → Q none t)
    (hfail : ∀ t T' l', Account L top R t pt T' m n l' → Within R s t →
      Q (some (n * PGSIZE)) t) : Wp E (copyPage L old pt (n * PGSIZE)) Q s := by
  have hn := h.bound
  obtain ⟨pa0, f, hm0, hleaf, _⟩ := h₀.user n hn0
  have hvpn : n * PGSIZE / PGSIZE = n := Nat.mul_div_cancel n (by decide)
  have hmem0 : pa0 ∈ m₀.pages 0 n0 := Vmap.mem_pages.mpr ⟨n, f, hn0, by rwa [Nat.zero_add]⟩
  have hor : f ||| PTE_V = f := or_PTE_V_self hleaf.1
  have hmax : n * PGSIZE < MAXVA := by
    rw [MAXVA_eq, PGSIZE_eq]
    omega
  unfold copyPage
  refine Wp.bind (walk_mapped h₀.table hmax (by rw [hvpn]; exact hm0) ?_)
  intro e _ hv hpte hflags
  rw [Wp.bind_iff, getPte_wp, if_neg hv]
  refine Wp.bind (kalloc_account h ?_ ?_)
  · intro t hpage ht
    rw [if_pos rfl, Wp.pure_iff]
    exact hfail t T l ht fun a _ => congrFun hpage a
  intro pa R₀ l' t hR hpa _ ht hout
  obtain ⟨hnew, hu, hkeep, hwithin⟩ := filled h hR ht hout (t.page pa0)
  have hR0 : R₀ ≤ R := by
    rw [hR]
    exact Multiset.le_cons_self R₀ pa
  rw [if_neg hpa.ne_zero, hpte, hflags, Wp.bind_iff, Wp.modify_iff]
  refine Wp.bind (mapUser_wp hu hlow hpa hnew hleaf.2.2 (by rw [hor]; exact hleaf) ?_ ?_)
  · intro v T' l'' hv hk hw
    rw [if_neg (by simp)]
    refine Wp.bind (kfree_wp hpa ?_)
    obtain ⟨hv', _, hw'⟩ :=
      unfilled hR hpa hnew hv (hkeep.trans hk) (hwithin.trans (hw.mono hR0))
    exact hfail _ T' (pa :: l'') hv' hw'
  intro v T' l'' hv hk hw
  rw [← hR] at hv
  rw [if_pos rfl, Wp.pure_iff]
  refine hok v T' _ l'' hv (hkeep.trans hk) ?_ (hwithin.trans (hw.mono hR0))
  refine ⟨pa0, pa, f, hm0, by rw [update_self, hor], ?_⟩
  rw [hw pa hnew, Phys.setPage_self, hout pa0]
  rintro rfl
  refine hdis pa0 hmem0 ?_
  rw [hR]
  exact Multiset.mem_cons_self pa0 R₀

theorem uvmcopy_wp {sz : Nat} (h₀ : Space L top₀ s old T₀ m₀ (npages sz))
    (h : Account L top R s pt T m 0 l) (hlow : Low top)
    (hdis : ∀ a ∈ T₀ + m₀.pages 0 (npages sz), a ∉ R) {Q : Bool → Phys → Prop}
    (hok : ∀ t T' m' l', Account L top R t pt T' m' (npages sz) l' →
      (∀ k, k < npages sz → Copied s t m₀ m' k) → Within R s t → Q true t)
    (hfail : ∀ t T' m' l', Account L top R t pt T' m' 0 l' → Within R s t → Q false t) :
    Wp E (uvmcopy L old pt sz) Q s := by
  have hrounds : rounds 0 sz = npages sz := by
    have hr := rounds_eq (Nat.zero_le sz)
    have hz : npages 0 = 0 := by decide
    rwa [hz, Nat.zero_mul, Nat.sub_zero] at hr
  have hold : ∀ a ∈ T₀, a ∉ R := fun a ha => hdis a (Multiset.mem_add.mpr (.inl ha))
  have hpages : ∀ a ∈ m₀.pages 0 (npages sz), a ∉ R :=
    fun a ha => hdis a (Multiset.mem_add.mpr (.inr ha))
  unfold uvmcopy
  rw [hrounds, Wp.bind_iff]
  refine (Wp.findRange (I := fun i t => ∃ T' m' l', Account L top R t pt T' m' i l' ∧
      (∀ k, k < i → Copied s t m₀ m' k) ∧ Within R s t)
    (R := fun j t => ∃ i T' m' l', j = i * PGSIZE ∧ Account L top R t pt T' m' i l' ∧
      Within R s t) ?_ ?_).post ?_
  · refine ⟨T, m, l, h, ?_, Within.refl R s⟩
    intro k hk
    exact absurd hk (Nat.not_lt_zero k)
  · rintro i t _ hi ⟨T', m', l', ht, hc, hw⟩
    rw [Nat.zero_add] at hi
    have ht0 : Space L top₀ t old T₀ m₀ (npages sz) := h₀.congr fun a ha => hw a (hold a ha)
    refine copyPage_wp ht0 hi ht hlow hpages ?_ ?_
    · intro u T'' m'' l'' hu hk hcopied hw'
      refine ⟨T'', m'', l'', hu, ?_, hw.trans hw'⟩
      intro k hki
      by_cases hlast : k = i
      · obtain ⟨pa, pa', f, hm, hm', hp⟩ := hcopied
        rw [hlast]
        refine ⟨pa, pa', f, hm, hm', hp.trans (hw pa (hpages pa ?_))⟩
        exact Vmap.mem_pages.mpr ⟨i, f, hi, by rwa [Nat.zero_add]⟩
      · obtain ⟨pa, pa', f, hm, hm', hp⟩ := hc k (by omega)
        obtain ⟨hm'', hp'⟩ := hk k pa' f (by omega) hm'
        exact ⟨pa, pa', f, hm, hm'', hp'.trans hp⟩
    · intro u T'' l'' hu hw'
      exact ⟨i, T'', m', l'', rfl, hu, hw.trans hw'⟩
  · intro r t hr
    cases r with
    | none =>
      obtain ⟨T', m', l', ht, hc, hw⟩ := hr
      rw [Nat.zero_add] at ht hc
      exact hok t T' m' l' ht hc hw
    | some j =>
      obtain ⟨i, T', m', l', rfl, ht, hw⟩ := hr
      have hcount : i * PGSIZE / PGSIZE = i - 0 := by
        rw [Nat.mul_div_cancel _ (by decide), Nat.sub_zero]
      have hbase : (0 : Nat) = 0 * PGSIZE := (Nat.zero_mul _).symm
      simp only
      rw [hcount, hbase]
      refine Wp.bind (shrink_wp ht hlow (Nat.zero_le i) fun u l'' hu _ hw' => ?_)
      rw [Wp.pure_iff]
      exact hfail u T' _ l'' hu (hw.trans hw')

end Copy

end Vm

end Xv6.Kernel
