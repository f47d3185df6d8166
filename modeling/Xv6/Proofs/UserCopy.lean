import Xv6.Proofs.Copy
import Xv6.Proofs.UvmCopy
/-!
# What `copyout` and `copyin` transfer

Both work page by page and stop at the first page that is not mapped for the
user.  Their effect is that of transferring byte by byte up to that page.
-/

namespace Xv6.Kernel

open Xv6.Lib List

variable {m top : Vmap} {a va n c pt pa : Nat} {s t : Phys} {src : Nat → UInt8} {L : Link}
  {R T : Multiset Nat} {l : List Nat} {f : UInt64}

namespace Vmap

def Accessible (m : Vmap) (a : Nat) : Prop :=
  a < MAXVA ∧ ∃ pa f, m (a / PGSIZE) = some (pa, f) ∧ f &&& PTE_U ≠ 0

/-- The user pages are distinct physical pages, and none is at address zero. -/
structure UserPages (m : Vmap) : Prop where
  ne_zero : ∀ k pa f, k < MAXVA / PGSIZE → m k = some (pa, f) → f &&& PTE_U ≠ 0 → pa ≠ 0
  distinct : ∀ k k' pa f f', k < MAXVA / PGSIZE → k' < MAXVA / PGSIZE → m k = some (pa, f) →
    f &&& PTE_U ≠ 0 → m k' = some (pa, f') → f' &&& PTE_U ≠ 0 → k = k'

variable {b : Nat}

theorem addr_eq (ha : a < MAXVA) (hm : m (a / PGSIZE) = some (pa, f))
    (hu : f &&& PTE_U ≠ 0) : m.addr a = pa := by
  unfold addr
  rw [if_neg (Nat.not_le.mpr ha), hm]
  exact if_neg hu

theorem accessible_of_addr (h : m.addr a ≠ 0) : m.Accessible a := by
  unfold addr at h
  by_cases hge : MAXVA ≤ a
  · rw [if_pos hge] at h
    exact absurd rfl h
  rw [if_neg hge] at h
  cases hm : m (a / PGSIZE) with
  | none =>
    rw [hm] at h
    exact absurd rfl h
  | some e =>
    obtain ⟨pa, f⟩ := e
    rw [hm] at h
    have hu : f &&& PTE_U ≠ 0 := by
      intro hu
      exact h (if_pos hu)
    exact ⟨Nat.not_le.mp hge, pa, f, hm, hu⟩

/-- `walkaddr` succeeds exactly on the accessible addresses, if no user page is at
address zero. -/
theorem addr_ne_zero_iff
    (h : ∀ k pa f, k < MAXVA / PGSIZE → m k = some (pa, f) → f &&& PTE_U ≠ 0 → pa ≠ 0) :
    m.addr a ≠ 0 ↔ m.Accessible a := by
  refine ⟨accessible_of_addr, ?_⟩
  intro ⟨ha, pa, f, hm, hu⟩
  rw [addr_eq ha hm hu]
  exact h _ pa f (Vm.div_lt_MAXVA ha) hm hu

theorem UserPages.addr_ne_zero (h : UserPages m) : m.addr a ≠ 0 ↔ m.Accessible a :=
  addr_ne_zero_iff h.ne_zero

theorem UserPages.addr_inj (h : UserPages m) (ha : m.Accessible a) (hb : m.Accessible b)
    (hpage : m.addr a = m.addr b) (hoff : a % PGSIZE = b % PGSIZE) : a = b := by
  obtain ⟨hlt, pa, f, hm, hu⟩ := ha
  obtain ⟨hlt', pa', f', hm', hu'⟩ := hb
  rw [addr_eq hlt hm hu, addr_eq hlt' hm' hu'] at hpage
  subst hpage
  have hdiv := h.distinct _ _ pa f f' (Vm.div_lt_MAXVA hlt) (Vm.div_lt_MAXVA hlt') hm hu hm' hu'
  calc a = PGSIZE * (a / PGSIZE) + a % PGSIZE := (Nat.div_add_mod a PGSIZE).symm
    _ = PGSIZE * (b / PGSIZE) + b % PGSIZE := by rw [hdiv, hoff]
    _ = b := Nat.div_add_mod b PGSIZE

theorem addr_congr (h : a / PGSIZE = b / PGSIZE) : m.addr a = m.addr b := by
  have hiff : MAXVA ≤ a ↔ MAXVA ≤ b := by
    rw [MAXVA_eq]
    rw [PGSIZE_eq] at h
    omega
  unfold addr
  rw [h]
  by_cases hb : MAXVA ≤ b
  · rw [if_pos hb, if_pos (hiff.mpr hb)]
  · rw [if_neg hb, if_neg (fun ha => hb (hiff.mp ha))]

theorem Accessible.congr (h : m.Accessible b) (hdiv : a / PGSIZE = b / PGSIZE) :
    m.Accessible a := by
  obtain ⟨hlt, pa, f, hm, hu⟩ := h
  refine ⟨?_, pa, f, by rw [hdiv]; exact hm, hu⟩
  rw [MAXVA_eq] at hlt ⊢
  rw [PGSIZE_eq] at hdiv
  omega

end Vmap

/-- The byte at an offset of the physical page at `pa`. -/
def Phys.byte (s : Phys) (pa o : Nat) : UInt8 := (s.page pa).get o

def Phys.userByte (s : Phys) (m : Vmap) (a : Nat) : UInt8 := s.byte (m.addr a) (a % PGSIZE)

/-- `t` is `s` with the bytes `src 0, .., src (n - 1)` stored from virtual address
`va` on, and nothing else changed. -/
structure CopiedOut (s t : Phys) (m : Vmap) (va n : Nat) (src : Nat → UInt8) : Prop where
  inside : ∀ i, i < n → t.userByte m (va + i) = src i
  outside : ∀ pa o, o < PGSIZE → (∀ i, i < n → ¬(m.addr (va + i) = pa ∧ (va + i) % PGSIZE = o)) →
    t.byte pa o = s.byte pa o
  freelist : t.freelist = s.freelist
  deny : t.deny = s.deny

namespace CopiedOut

variable {u : Phys}

theorem zero (s : Phys) (m : Vmap) (va : Nat) (src : Nat → UInt8) : CopiedOut s s m va 0 src where
  inside := fun _ hi => absurd hi (Nat.not_lt_zero _)
  outside := fun _ _ _ _ => rfl
  freelist := rfl
  deny := rfl

theorem src_congr {f : Nat → UInt8} (h : CopiedOut s t m va n src) (hf : ∀ i, i < n → f i = src i)
    :
    CopiedOut s t m va n f where
  inside := fun i hi => by rw [h.inside i hi, hf i hi]
  outside := h.outside
  freelist := h.freelist
  deny := h.deny

theorem page (s : Phys) (m : Vmap) (va : Nat) (src : Nat → UInt8) (hc : c ≤ PGSIZE - va % PGSIZE) :
    CopiedOut s (s.setPage (m.addr va) ((s.page (m.addr va)).splice (va % PGSIZE) c src))
      m va c src := by
  have hmod : va % PGSIZE < PGSIZE := Nat.mod_lt _ (by decide)
  have hin : ∀ i, i < c → (va + i) / PGSIZE = va / PGSIZE ∧
      (va + i) % PGSIZE = va % PGSIZE + i := by
    intro i hi
    rw [PGSIZE_eq] at hc hmod ⊢
    omega
  refine ⟨?_, ?_, rfl, rfl⟩
  · intro i hi
    obtain ⟨hdiv, hoff⟩ := hin i hi
    unfold Phys.userByte Phys.byte
    rw [Vmap.addr_congr hdiv, hoff, Phys.setPage_self, Bytes.get_splice (by omega),
      if_pos (by omega)]
    congr 1
    omega
  intro pa o ho hout
  unfold Phys.byte
  by_cases hpa : pa = m.addr va
  · subst hpa
    rw [Phys.setPage_self, Bytes.get_splice ho, if_neg]
    rintro ⟨hlo, hhi⟩
    obtain ⟨hdiv, hoff⟩ := hin (o - va % PGSIZE) (by omega)
    exact hout (o - va % PGSIZE) (by omega) ⟨Vmap.addr_congr hdiv, by omega⟩
  · rw [Phys.setPage_ne hpa]

theorem frame (hu : m.UserPages) (h : CopiedOut s t m va n src)
    (hacc : ∀ i, i < n → m.Accessible (va + i)) (ha : m.Accessible a)
    (hout : a < va ∨ va + n ≤ a) : t.userByte m a = s.userByte m a := by
  refine h.outside _ _ (Nat.mod_lt _ (by decide)) ?_
  rintro i hi ⟨hpage, hoff⟩
  have heq := hu.addr_inj (hacc i hi) ha hpage hoff
  omega

theorem append (hu : m.UserPages) (h : CopiedOut s t m va c src)
    (h' : CopiedOut t u m (va + c) n fun j => src (c + j))
    (hacc : ∀ i, i < c + n → m.Accessible (va + i)) : CopiedOut s u m va (c + n) src where
  inside := by
    intro i hi
    by_cases hlt : i < c
    · have hacc' : ∀ j, j < n → m.Accessible (va + c + j) := by
        intro j hj
        rw [Nat.add_assoc]
        exact hacc (c + j) (by omega)
      rw [h'.frame hu hacc' (hacc i hi) (.inl (by omega)), h.inside i hlt]
    · have hinside := h'.inside (i - c) (by omega)
      rw [Nat.add_assoc, Nat.add_sub_cancel' (Nat.not_lt.mp hlt)] at hinside
      exact hinside
  outside := by
    intro pa o ho hout
    rw [h'.outside pa o ho, h.outside pa o ho fun i hi => hout i (by omega)]
    intro j hj
    rw [Nat.add_assoc]
    exact hout (c + j) (by omega)
  freelist := h'.freelist.trans h.freelist
  deny := h'.deny.trans h.deny

end CopiedOut

namespace Account

variable {k : Nat}

section

variable (h : Account L top R s pt T m n l)
include h

theorem user_lt (hshut : Shut top) (hk : k < MAXVA / PGSIZE)
    (hm : m k = some (pa, f)) (hf : f &&& PTE_U ≠ 0) : k < n := by
  by_contra hge
  rw [h.space.rest k (Nat.not_lt.mp hge) (Vm.vpn_lt hk)] at hm
  exact hf (hshut k pa f hm)

theorem userPages (hshut : Shut top) : m.UserPages where
  ne_zero := by
    intro k pa f hk hm hf
    obtain ⟨pa', f', hm', _, hpage⟩ := h.space.user k (h.user_lt hshut hk hm hf)
    rw [hm'] at hm
    cases hm
    exact hpage.ne_zero
  distinct := by
    intro k k' pa f f' hk hk' hm hf hm' hf'
    exact h.pages_inj (h.user_lt hshut hk hm hf) (h.user_lt hshut hk' hm' hf') hm hm'

theorem user_not_table (hshut : Shut top)
    (hk : k < MAXVA / PGSIZE) (hm : m k = some (pa, f)) (hf : f &&& PTE_U ≠ 0) : pa ∉ T := by
  refine h.pages_not_table pa (Vmap.mem_pages.mpr ⟨k, f, h.user_lt hshut hk hm hf, ?_⟩)
  rwa [Nat.zero_add]

end

end Account

namespace Vm

variable {E : VmPanic → Prop} {len : Nat} {done : Bool}

/-- How far a copy of `len` bytes at `va` gets: `n` bytes, all of them or those
before a page that is not accessible. -/
structure Reaches (m : Vmap) (va len n : Nat) (done : Bool) : Prop where
  accessible : ∀ i, i < n → m.Accessible (va + i)
  all : done = true → n = len
  part : done = false → n < len ∧ ¬m.Accessible (va + n) ∧ (n = 0 ∨ (va + n) % PGSIZE = 0)

namespace Reaches

variable {n' : Nat} {done' : Bool}

theorem done_iff (h : Reaches m va len n done) :
    done = true ↔ ∀ a, va ≤ a → a < va + len → m.Accessible a := by
  constructor
  · intro hd a hlo hhi
    have hacc := h.accessible (a - va) (by rw [h.all hd]; omega)
    rwa [Nat.add_sub_cancel' hlo] at hacc
  intro hall
  cases done with
  | true => rfl
  | false =>
    obtain ⟨hlt, hno, _⟩ := h.part rfl
    exact absurd (hall (va + n) (by omega) (by omega)) hno

theorem unique (h : Reaches m va len n done)
    (h' : Reaches m va len n' done') : n = n' ∧ done = done' := by
  have hdone : done = done' := Bool.eq_iff_iff.mpr (h.done_iff.trans h'.done_iff.symm)
  subst hdone
  refine ⟨?_, rfl⟩
  cases done with
  | true => rw [h.all rfl, h'.all rfl]
  | false =>
    obtain ⟨_, hno, _⟩ := h.part rfl
    obtain ⟨_, hno', _⟩ := h'.part rfl
    by_contra hne
    rcases Nat.lt_or_gt_of_ne hne with hlt | hlt
    · exact hno (h'.accessible n hlt)
    · exact hno' (h.accessible n' hlt)

theorem next (hacc : m.Accessible va) (hc : c = PGSIZE - va % PGSIZE) (hlen : c ≤ len)
    (h : Reaches m (va + c) (len - c) n done) : Reaches m va len (c + n) done := by
  have hmod : va % PGSIZE < PGSIZE := Nat.mod_lt _ (by decide)
  refine ⟨?_, ?_, ?_⟩
  · intro i hi
    by_cases hlt : i < c
    · refine hacc.congr ?_
      rw [PGSIZE_eq] at hc hmod ⊢
      omega
    · have hi' := h.accessible (i - c) (by omega)
      rwa [Nat.add_assoc, Nat.add_sub_cancel' (Nat.not_lt.mp hlt)] at hi'
  · intro hd
    have hn := h.all hd
    omega
  intro hd
  obtain ⟨hlt, hno, hend⟩ := h.part hd
  rw [← Nat.add_assoc]
  refine ⟨by omega, hno, .inr ?_⟩
  rcases hend with rfl | hend
  · rw [PGSIZE_eq] at hc hmod ⊢
    omega
  · exact hend

theorem last (hacc : m.Accessible va) (hlen : len ≤ PGSIZE - va % PGSIZE) :
    Reaches m va len len true := by
  refine ⟨fun i hi => hacc.congr ?_, fun _ => rfl, nofun⟩
  rw [PGSIZE_eq] at hlen ⊢
  omega

theorem stop (hno : ¬m.Accessible va) (hlen : len ≠ 0) : Reaches m va len 0 false :=
  ⟨fun _ hi => absurd hi (Nat.not_lt_zero _), nofun,
    fun _ => ⟨Nat.pos_of_ne_zero hlen, hno, .inl rfl⟩⟩

theorem none (m : Vmap) (va : Nat) : Reaches m va 0 0 true :=
  ⟨fun _ hi => absurd hi (Nat.not_lt_zero _), fun _ => rfl, nofun⟩

end Reaches

theorem PGROUNDDOWN_div (a : Nat) : PGROUNDDOWN a / PGSIZE = a / PGSIZE :=
  Nat.mul_div_cancel _ (by decide)

theorem add64_page (ha : a < MAXVA) : add64 (PGROUNDDOWN a) PGSIZE = a + (PGSIZE - a % PGSIZE) := by
  unfold add64 PGROUNDDOWN
  rw [MAXVA_eq] at ha
  rw [PGSIZE_eq]
  omega

theorem copyoutLoop_exact (src : Nat → UInt8) (hu : m.UserPages)
    (hleaf : ∀ k pa f, k < MAXVA / PGSIZE → m k = some (pa, f) → f &&& PTE_U ≠ 0 → pa ∉ T)
    (fuel : Nat) : ∀ {s : Phys} (dstva done len : Nat), Table s pt T m → len ≤ fuel →
    Wp E (copyoutLoop pt src fuel dstva done len)
      (fun r t => ∃ n, Reaches m dstva len n r ∧
        CopiedOut s t m dstva n fun j => src (done + j)) s := by
  induction fuel with
  | zero =>
    intro s dstva done len _ hfuel
    have hlen : len = 0 := by omega
    subst hlen
    exact ⟨0, Reaches.none m dstva, CopiedOut.zero s m dstva _⟩
  | succ fuel ih =>
    intro s dstva done len ht hfuel
    rw [copyoutLoop]
    refine Wp.ite_iff.mpr ⟨?_, ?_⟩
    · rintro rfl
      exact ⟨0, Reaches.none m dstva, CopiedOut.zero s m dstva _⟩
    intro hlen
    refine Wp.bind (walkaddr_wp ht ?_)
    rw [Vmap.addr_congr (PGROUNDDOWN_div dstva)]
    refine Wp.ite_iff.mpr ⟨?_, ?_⟩
    · intro hzero
      have hno : ¬m.Accessible dstva := fun hacc => hu.addr_ne_zero.mpr hacc hzero
      exact ⟨0, Reaches.stop hno hlen, CopiedOut.zero s m dstva _⟩
    intro hne
    have hacc := hu.addr_ne_zero.mp hne
    have hpage : ∀ b, Table (s.setPage (m.addr dstva) b) pt T m := by
      intro b
      refine ht.congr fun a ha => Phys.setPage_ne ?_
      rintro rfl
      obtain ⟨hlt, pa, f, hm, hf⟩ := hacc
      rw [Vmap.addr_eq hlt hm hf] at ha
      exact hleaf _ pa f (div_lt_MAXVA hlt) hm hf ha
    rw [Wp.bind_iff]
    have hcopy := CopiedOut.page s m dstva (fun j => src (done + j))
      (Nat.min_le_left (PGSIZE - dstva % PGSIZE) len)
    rw [add64_page hacc.1]
    by_cases hfit : len ≤ PGSIZE - dstva % PGSIZE
    · -- the copy ends here, and the address for the next round is not used
      rw [Nat.min_eq_right hfit, Nat.sub_self] at *
      refine (ih _ _ 0 (hpage _) (Nat.zero_le _)).post ?_
      rintro r t ⟨n, hr, hc⟩
      have hn : n = 0 := by
        cases r with
        | true => exact hr.all rfl
        | false => exact absurd (hr.part rfl).1 (Nat.not_lt_zero n)
      subst hn
      have hrt : r = true := by
        cases r with
        | true => rfl
        | false => exact absurd (hr.part rfl).1 (Nat.lt_irrefl 0)
      subst hrt
      refine ⟨len, Reaches.last hacc hfit, ?_⟩
      have hboth := CopiedOut.append hu hcopy (n := 0) (u := t) ?_ ?_
      · exact hboth
      · exact ⟨fun _ hi => absurd hi (Nat.not_lt_zero _),
          fun pa o ho _ => hc.outside pa o ho fun _ hi => absurd hi (Nat.not_lt_zero _),
          hc.freelist, hc.deny⟩
      · exact (Reaches.last hacc hfit).accessible
    · have hfull : PGSIZE - dstva % PGSIZE ≤ len := by omega
      rw [Nat.min_eq_left hfull] at *
      refine (ih _ _ _ (hpage _)
        (by have := Nat.mod_lt dstva (show 0 < PGSIZE by decide); omega)).post ?_
      rintro r t ⟨n, hr, hc⟩
      have hreach := Reaches.next hacc rfl hfull hr
      refine ⟨_, hreach, CopiedOut.append hu hcopy (hc.src_congr ?_) hreach.accessible⟩
      intro j _
      rw [Nat.add_assoc]

section Account

variable {Q : Bool → Phys → Prop}

section

variable (h : Account L top R s pt T m n l)
include h

theorem copyout_reaches (hshut : Shut top)
    (hQ : ∀ r t c, Account L top R t pt T m n l → Within R s t → Reaches m va len c r →
      CopiedOut s t m va c src → Q r t) : Wp E (copyout pt va src len) Q s := by
  have hweak : Wp E (copyout pt va src len)
      (fun _ t => Account L top R t pt T m n l ∧ Within R s t) s :=
    copyout_account h hshut fun _ t ht hw => ⟨ht, hw⟩
  have hexact := copyoutLoop_exact (E := E) src (h.userPages hshut)
    (fun k pa f => h.user_not_table hshut) len va 0 len h.space.table (Nat.le_refl len)
  refine (hweak.and hexact).post ?_
  rintro r t ⟨⟨ht, hw⟩, c, hr, hc⟩
  exact hQ r t c ht hw hr (hc.src_congr fun j _ => by rw [Nat.zero_add])

theorem copyout_inside (hshut : Shut top) (hacc : ∀ i, i < len → m.Accessible (va + i))
    (hQ : ∀ t, Account L top R t pt T m n l → Within R s t → CopiedOut s t m va len src →
      Q true t) : Wp E (copyout pt va src len) Q s := by
  refine copyout_reaches h hshut fun r t c ht hw hr hc => ?_
  have hdone : r = true := by
    refine hr.done_iff.mpr fun a hlo hhi => ?_
    have ha := hacc (a - va) (by omega)
    rwa [Nat.add_sub_cancel' hlo] at ha
  subst hdone
  obtain rfl := hr.all rfl
  exact hQ t ht hw hc

theorem copyout_above (hshut : Shut top) (hQ : ∀ r t, Account L top R t pt T m n l → Within R s t →
      (∀ a, m.Accessible a → a < va → t.userByte m a = s.userByte m a) → Q r t) :
    Wp E (copyout pt va src len) Q s := by
  refine copyout_reaches h hshut fun r t c ht hw hr hc => hQ r t ht hw fun a ha hlt => ?_
  exact hc.frame (h.userPages hshut) hr.accessible ha (.inl hlt)

end

end Account

theorem bytesAt_user (s : Phys) (m : Vmap) (hc : c ≤ PGSIZE - va % PGSIZE) :
    bytesAt (s.page (m.addr va)) (va % PGSIZE) c =
      (List.range c).map fun i => s.userByte m (va + i) := by
  have hmod : va % PGSIZE < PGSIZE := Nat.mod_lt _ (by decide)
  refine map_congr_left fun i hi => ?_
  have hi' := mem_range.mp hi
  have hdiv : (va + i) / PGSIZE = va / PGSIZE := by
    rw [PGSIZE_eq] at hc hmod ⊢
    omega
  have hoff : (va + i) % PGSIZE = va % PGSIZE + i := by
    rw [PGSIZE_eq] at hc hmod ⊢
    omega
  unfold Phys.userByte Phys.byte
  rw [Vmap.addr_congr hdiv, hoff]

theorem copyinLoop_exact (hu : m.UserPages) (ht : Table s pt T m) (fuel : Nat) :
    ∀ srcva len : Nat, len ≤ fuel → Wp E (copyinLoop pt fuel srcva len)
      (fun r t => t = s ∧ ∃ n, Reaches m srcva len n r.2 ∧
        r.1 = (List.range n).map fun i => s.userByte m (srcva + i)) s := by
  induction fuel with
  | zero =>
    intro srcva len hfuel
    have hlen : len = 0 := by omega
    subst hlen
    exact ⟨rfl, 0, Reaches.none m srcva, rfl⟩
  | succ fuel ih =>
    intro srcva len hfuel
    rw [copyinLoop]
    refine Wp.ite_iff.mpr ⟨?_, ?_⟩
    · rintro rfl
      exact ⟨rfl, 0, Reaches.none m srcva, rfl⟩
    intro hlen
    refine Wp.bind (walkaddr_wp ht ?_)
    rw [Vmap.addr_congr (PGROUNDDOWN_div srcva)]
    refine Wp.ite_iff.mpr ⟨?_, ?_⟩
    · intro hzero
      have hno : ¬m.Accessible srcva := fun hacc => hu.addr_ne_zero.mpr hacc hzero
      exact ⟨rfl, 0, Reaches.stop hno hlen, rfl⟩
    intro hne
    have hacc := hu.addr_ne_zero.mp hne
    have hmod : srcva % PGSIZE < PGSIZE := Nat.mod_lt _ (by decide)
    rw [Wp.bind_iff, Wp.gets_iff, Wp.bind_iff, add64_page hacc.1]
    by_cases hfit : len ≤ PGSIZE - srcva % PGSIZE
    · rw [Nat.min_eq_right hfit, Nat.sub_self]
      refine (ih _ 0 (Nat.zero_le _)).post ?_
      rintro r t ⟨rfl, n, hr, hb⟩
      have hn : r.2 = true ∧ n = 0 := by
        cases hd : r.2 with
        | true => exact ⟨rfl, hr.all hd⟩
        | false => exact absurd (hr.part hd).1 (Nat.not_lt_zero n)
      obtain ⟨hd, rfl⟩ := hn
      refine ⟨rfl, len, by rw [hd]; exact Reaches.last hacc hfit, ?_⟩
      rw [hb, bytesAt_user t m hfit, range_zero, map_nil, append_nil]
    · have hfull : PGSIZE - srcva % PGSIZE ≤ len := by omega
      rw [Nat.min_eq_left hfull]
      refine (ih _ (len - (PGSIZE - srcva % PGSIZE)) (by omega)).post ?_
      rintro r t ⟨rfl, n, hr, hb⟩
      refine ⟨rfl, _, Reaches.next hacc rfl hfull hr, ?_⟩
      change _ ++ r.1 = _
      rw [hb, bytesAt_user t m le_rfl, range_add, map_append, map_map]
      congr 1
      refine map_congr_left fun i _ => ?_
      rw [Function.comp_apply, Nat.add_assoc]

/-- What a copy of `len` bytes at `va` reports: `n` bytes were transferred, all
of them when the whole range is accessible, and otherwise those before some page
boundary. -/
structure Reports (m : Vmap) (va len n : Nat) (done : Bool) : Prop where
  iff : done = true ↔ ∀ a, va ≤ a → a < va + len → m.Accessible a
  accessible : ∀ i, i < n → m.Accessible (va + i)
  all : done = true → n = len
  part : done = false → n < len ∧ (n = 0 ∨ (va + n) % PGSIZE = 0)

theorem Reaches.reports (h : Reaches m va len n done) : Reports m va len n done :=
  ⟨h.done_iff, h.accessible, h.all, fun hd => ⟨(h.part hd).1, (h.part hd).2.2⟩⟩

/-- Both memories have the same page table at `pt`, and the same contents in the
pages it maps for the user. -/
structure SameUser (s s' : Phys) (pt : Nat) : Prop where
  table : ∀ a ∈ sv39.tables s.word 2 pt, s'.page a = s.page a
  user : ∀ k pa f, k < MAXVA / PGSIZE → vmap s pt k = some (pa, f) → f &&& PTE_U ≠ 0 →
    s'.page pa = s.page pa

theorem WellFormed.copyout_exact (h : WellFormed s pt) (hu : (vmap s pt).UserPages)
    (va len : Nat) (src : Nat → UInt8) :
    ∃ r t n, copyout pt va src len s = .ok (r, t) ∧ Reaches (vmap s pt) va len n r ∧
      CopiedOut s t (vmap s pt) va n src := by
  have hwp := copyoutLoop_exact (E := fun _ => False) src hu
    (fun k pa f hk hm _ => h.leaf k pa f hk hm) len va 0 len h.table (Nat.le_refl len)
  obtain ⟨r, t, hrun, n, hr, hc⟩ := hwp.returns
  exact ⟨r, t, n, hrun, hr, hc.src_congr fun j _ => by rw [Nat.zero_add]⟩

theorem WellFormed.copyin_exact (h : WellFormed s pt) (hu : (vmap s pt).UserPages) (va len : Nat) :
    ∃ bytes r n, copyin pt va len s = .ok ((bytes, r), s) ∧ Reaches (vmap s pt) va len n r ∧
      bytes = (List.range n).map fun i => s.userByte (vmap s pt) (va + i) := by
  have hwp := copyinLoop_exact (E := fun _ => False) hu h.table len va len (Nat.le_refl len)
  obtain ⟨⟨bytes, r⟩, t, hrun, rfl, n, hr, hb⟩ := hwp.returns
  exact ⟨bytes, r, n, hrun, hr, hb⟩

namespace SameUser

variable {s' : Phys}

section

variable (h : SameUser s s' pt) {r : List UInt8 × Bool}
include h

theorem wellFormed (hw : WellFormed s pt) : Table s' pt (sv39.tables s.word 2 pt) (vmap s pt) :=
  hw.table.congr h.table

theorem userByte (ha : (vmap s pt).Accessible a) :
    s'.userByte (vmap s pt) a = s.userByte (vmap s pt) a := by
  obtain ⟨hlt, pa, f, hm, hf⟩ := ha
  unfold Phys.userByte Phys.byte
  rw [Vmap.addr_eq hlt hm hf, h.user _ pa f (div_lt_MAXVA hlt) hm hf]

theorem copyin_eq (hw : WellFormed s pt) (hu : (vmap s pt).UserPages)
    (hrun : copyin pt va len s = .ok (r, s)) : copyin pt va len s' = .ok (r, s') := by
  obtain ⟨bytes, done, n, hrun', hr, hb⟩ := hw.copyin_exact hu va len
  rw [hrun] at hrun'
  cases hrun'
  have hwp := copyinLoop_exact (E := fun _ => False) hu (h.wellFormed hw) len va len
    (Nat.le_refl len)
  obtain ⟨⟨bytes', done'⟩, t, hrun'', rfl, n', hr', hb'⟩ := hwp.returns
  obtain ⟨rfl, rfl⟩ := hr.unique hr'
  have hbytes : bytes' = bytes := by
    rw [hb]
    refine Eq.trans hb' (map_congr_left fun i hi => ?_)
    exact h.userByte (hr.accessible i (mem_range.mp hi))
  rw [← hbytes]
  exact hrun''

theorem copyout_eq {r : Bool} (hw : WellFormed s pt) (hu : (vmap s pt).UserPages)
    (hrun : copyout pt va src len s = .ok (r, t)) : ∃ t', copyout pt va src len s' = .ok (r, t') ∧
      ∀ a, (vmap s pt).Accessible a →
        t'.userByte (vmap s pt) a = t.userByte (vmap s pt) a := by
  obtain ⟨r1, t1, n, hrun', hr, hc⟩ := hw.copyout_exact hu va len src
  rw [hrun] at hrun'
  cases hrun'
  have hwp := copyoutLoop_exact (E := fun _ => False) src hu
    (fun k pa f hk hm _ => hw.leaf k pa f hk hm) len va 0 len (h.wellFormed hw) (Nat.le_refl len)
  obtain ⟨r', t', hrun'', n', hr', hc'⟩ := hwp.returns
  obtain ⟨rfl, rfl⟩ := hr.unique hr'
  refine ⟨t', hrun'', fun a ha => ?_⟩
  by_cases hin : va ≤ a ∧ a < va + n
  · have hnew := hc.inside (a - va) (by omega)
    have hnew' := hc'.inside (a - va) (by omega)
    rw [Nat.add_sub_cancel' hin.1] at hnew hnew'
    rw [hnew, hnew', Nat.zero_add]
  have hout : a < va ∨ va + n ≤ a := by omega
  have hold := hc.frame hu hr.accessible ha hout
  have hold' := hc'.frame hu hr.accessible ha hout
  exact hold'.trans ((h.userByte ha).trans hold.symm)

end

end SameUser

/-- `copyout` and `copyin` succeed exactly on ranges that are accessible to the
user in full.  What they transfer is all of the range, or a part up to a page
boundary; `copyout` changes no other byte of memory and `copyin` none at all; and
neither depends on any page but the tables and the pages open to the user. -/
theorem user_copy_exact (h : WellFormed s pt) (hu : (vmap s pt).UserPages) (va len : Nat) :
    (∀ src, ∃ r t n, copyout pt va src len s = .ok (r, t) ∧ Reports (vmap s pt) va len n r ∧
      CopiedOut s t (vmap s pt) va n src) ∧
    (∃ bytes r n, copyin pt va len s = .ok ((bytes, r), s) ∧ Reports (vmap s pt) va len n r ∧
      bytes = (List.range n).map fun i => s.userByte (vmap s pt) (va + i)) ∧
    (∀ s' r, SameUser s s' pt → copyin pt va len s = .ok (r, s) →
      copyin pt va len s' = .ok (r, s')) ∧
    ∀ s' src r t, SameUser s s' pt → copyout pt va src len s = .ok (r, t) →
      ∃ t', copyout pt va src len s' = .ok (r, t') ∧ ∀ a, (vmap s pt).Accessible a →
        t'.userByte (vmap s pt) a = t.userByte (vmap s pt) a := by
  refine ⟨?_, ?_, ?_, ?_⟩
  · intro src
    obtain ⟨r, t, n, hrun, hr, hc⟩ := h.copyout_exact hu va len src
    exact ⟨r, t, n, hrun, hr.reports, hc⟩
  · obtain ⟨bytes, r, n, hrun, hr, hb⟩ := h.copyin_exact hu va len
    exact ⟨bytes, r, n, hrun, hr.reports, hb⟩
  · intro s' r hs hrun
    exact hs.copyin_eq h hu hrun
  · intro s' src r t hs hrun
    exact hs.copyout_eq h hu hrun

/-! ## The user's pages without the page table

`either_copyin` and `either_copyout` of the file system and the pipes run on a
`UserMem`.  The one that a page table stands for holds the pages that `walkaddr`
finds, and there they do what `copyin` and `copyout` do through the table. -/

def userMem (s : Phys) (m : Vmap) : UserMem := fun k =>
  (m k).bind fun e => if e.2 &&& PTE_U = 0 then none else some (s.page e.1)

section

variable {done : Bool} {len : Nat}

theorem load_userMem (s : Phys) (ha : m.Accessible a) :
    (Mem.user (userMem s m)).load a = some (s.userByte m a) := by
  obtain ⟨hlt, pa, f, hm, hf⟩ := ha
  have hpage : userMem s m (a / PGSIZE) = some (s.page pa) := by
    rw [userMem, hm]
    exact if_neg hf
  rw [Mem.load_user, Kernel.walkaddr, if_neg (Nat.not_le.mpr hlt), hpage, Phys.userByte,
    Vmap.addr_eq hlt hm hf]
  rfl

theorem load_userMem_none (s : Phys) (ha : ¬m.Accessible a) :
    (Mem.user (userMem s m)).load a = none := by
  rw [Mem.load_user, Option.map_eq_none_iff, Kernel.walkaddr]
  split
  · rfl
  rename_i hge
  rw [userMem, Option.bind_eq_none_iff]
  rintro ⟨pa, f⟩ hm
  refine if_pos (by_contra fun hf => ?_)
  exact ha ⟨Nat.not_le.mp hge, pa, f, hm, hf⟩

theorem Reaches.readable (s : Phys) (h : Reaches m va len n done) :
    (Mem.user (userMem s m)).readable va len = n ∧ decide (n = len) = done := by
  have hsome : ∀ j, j < n → ((Mem.user (userMem s m)).load (va + j)).isSome := by
    intro j hj
    rw [load_userMem s (h.accessible j hj)]
    rfl
  cases done with
  | true =>
    obtain rfl := h.all rfl
    exact ⟨Mem.readable_eq_iff.mpr hsome, decide_eq_true rfl⟩
  | false =>
    obtain ⟨hlt, hno, -⟩ := h.part rfl
    refine ⟨?_, decide_eq_false hlt.ne⟩
    rw [← Nat.add_sub_cancel' hlt.le, Mem.readable_add hsome,
      Mem.readable_none (load_userMem_none s hno), Nat.add_zero]

end

theorem eitherCopyin_userMem {N : Nat} (h : WellFormed s pt) (hu : (vmap s pt).UserPages)
    (b : Bytes N) (dst va len : Nat) : ∃ bytes r, copyin pt va len s = .ok ((bytes, r), s) ∧
      eitherCopyin (.user (userMem s (vmap s pt))) b dst va len =
        (b.splice dst bytes.length fun j => bytes.getD j 0, r) := by
  obtain ⟨bytes, r, n, hrun, hr, rfl⟩ := h.copyin_exact hu va len
  obtain ⟨hn, hflag⟩ := hr.readable s
  refine ⟨_, r, hrun, ?_⟩
  rw [eitherCopyin_eq, hn, hflag, length_map, length_range]
  refine congrArg (·, r) (splice_congr fun j hj => ?_)
  rw [Mem.byte, load_userMem s (hr.accessible j hj)]
  simp [hj]

theorem eitherCopyout_userMem (h : WellFormed s pt) (hu : (vmap s pt).UserPages) (va len : Nat)
    (src : Nat → UInt8) : ∃ r t, copyout pt va src len s = .ok (r, t) ∧
      (eitherCopyout (.user (userMem s (vmap s pt))) va src len).2 = r ∧
      ∀ a, (eitherCopyout (.user (userMem s (vmap s pt))) va src len).1.load a =
        (Mem.user (userMem t (vmap s pt))).load a := by
  obtain ⟨r, t, n, hrun, hr, hc⟩ := h.copyout_exact hu va len src
  obtain ⟨hn, hflag⟩ := hr.readable s
  obtain ⟨hres, hpatch⟩ := eitherCopyout_spec (.user (userMem s (vmap s pt))) va src len
  rw [hn] at hres hpatch
  refine ⟨r, t, hrun, hres.trans hflag, fun a => ?_⟩
  rw [hpatch a]
  by_cases hin : va ≤ a ∧ a < va + n
  · obtain ⟨i, rfl⟩ := Nat.exists_eq_add_of_le hin.1
    have hi : i < n := by omega
    rw [if_pos hin, load_userMem t (hr.accessible i hi), hc.inside i hi, Nat.add_sub_cancel_left]
  rw [if_neg hin]
  by_cases ha : (vmap s pt).Accessible a
  · rw [load_userMem t ha, load_userMem s ha, hc.frame hu hr.accessible ha (by omega)]
  · rw [load_userMem_none t ha, load_userMem_none s ha]

/-- Two pages are mapped at address zero. -/
theorem twoFree_mapped :
    ∃ t, mappages (PHYSTOP - 3 * PGSIZE) 0 (2 * PGSIZE) (PHYSTOP - 5 * PGSIZE)
        (PTE_R ||| PTE_W ||| PTE_U) twoFree = .ok (true, t) ∧
      WellFormed t (PHYSTOP - 3 * PGSIZE) ∧ ∀ k, k < MAXVA / PGSIZE →
        vmap t (PHYSTOP - 3 * PGSIZE) k =
          if k < 2 then some (PHYSTOP - (5 - k) * PGSIZE, PTE_R ||| PTE_W ||| PTE_U ||| PTE_V)
          else none := by
  have hres : (match mappages (PHYSTOP - 3 * PGSIZE) 0 (2 * PGSIZE) (PHYSTOP - 5 * PGSIZE)
        (PTE_R ||| PTE_W ||| PTE_U) twoFree with
      | .ok (r, _) => r
      | .error _ => false) = true := by decide +kernel
  obtain ⟨r, t, j, hrun, hr, hmap, hwf⟩ := mappages_refines 0 (2 * PGSIZE) (PHYSTOP - 5 * PGSIZE)
    (PTE_R ||| PTE_W ||| PTE_U) twoFree_wellFormed twoFree_freeList
    (by rw [twoFree_tables]; decide) (by decide) (by decide) (fun k _ _ => twoFree_vmap k)
    (by decide)
  rw [hrun] at hres
  subst hres
  have hj : j = 2 := by
    rcases hr with ⟨_, hj⟩ | ⟨hr, _⟩
    · exact hj
    · cases hr
  subst hj
  refine ⟨t, hrun, hwf (fun k a f _ hm => ?_) (fun i hi => ?_), fun k hk => ?_⟩
  · rw [twoFree_vmap] at hm
    cases hm
  · rw [twoFree_tables]
    obtain rfl | rfl : i = 0 ∨ i = 1 := by omega
    · decide
    · decide
  rw [hmap k hk]
  match k with
  | 0 => rfl
  | 1 => rfl
  | k + 2 =>
    unfold Vmap.extend
    rw [Nat.zero_div, if_neg (by omega), if_neg (by omega), twoFree_vmap]

section

variable {t : Phys} {pt : Nat} (h : ∀ k, k < MAXVA / PGSIZE → vmap t pt k =
  if k < 2 then some (PHYSTOP - (5 - k) * PGSIZE, PTE_R ||| PTE_W ||| PTE_U ||| PTE_V) else none)
include h

theorem twoPages_eq {k pa : Nat} {f : UInt64} (hk : k < MAXVA / PGSIZE)
    (hm : vmap t pt k = some (pa, f)) : k < 2 ∧ pa = PHYSTOP - (5 - k) * PGSIZE := by
  rw [h k hk] at hm
  split at hm
  · rename_i hlt
    cases hm
    exact ⟨hlt, rfl⟩
  · cases hm

theorem twoPages_userPages : (vmap t pt).UserPages := by
  have htop : PHYSTOP = 557056 * PGSIZE := rfl
  refine ⟨fun k pa f hk hm _ => ?_, fun k k' pa f f' hk hk' hm _ hm' _ => ?_⟩
  · obtain ⟨_, rfl⟩ := twoPages_eq h hk hm
    rw [htop, ← Nat.sub_mul, PGSIZE_eq]
    omega
  · obtain ⟨hlt, rfl⟩ := twoPages_eq h hk hm
    obtain ⟨hlt', heq⟩ := twoPages_eq h hk' hm'
    rw [htop, PGSIZE_eq] at heq
    omega

theorem twoPages_accessible (a : Nat) : (vmap t pt).Accessible a ↔ a < 2 * PGSIZE := by
  constructor
  · rintro ⟨hlt, pa, f, hm, _⟩
    have hdiv := (twoPages_eq h (div_lt_MAXVA hlt) hm).1
    rw [PGSIZE_eq] at hdiv ⊢
    omega
  · intro ha
    have hdiv : a / PGSIZE < 2 := Nat.div_lt_of_lt_mul (by rwa [Nat.mul_comm])
    have hlt : a < MAXVA := Nat.lt_trans ha (by decide)
    exact ⟨hlt, _, _, (h _ (div_lt_MAXVA hlt)).trans (if_pos hdiv), by decide⟩

end

/-- With two user pages at address zero, a copy of six bytes across them succeeds, and a copy
of seven to six bytes before their end stops there. -/
theorem user_copy_exact_twoFree :
    ∃ t, mappages (PHYSTOP - 3 * PGSIZE) 0 (2 * PGSIZE) (PHYSTOP - 5 * PGSIZE)
        (PTE_R ||| PTE_W ||| PTE_U) twoFree = .ok (true, t) ∧
      (∃ u, copyout (PHYSTOP - 3 * PGSIZE) 4093 (fun j => UInt8.ofNat j) 6 t = .ok (true, u) ∧
        u.byte (PHYSTOP - 4 * PGSIZE) 2 = 5) ∧
      ∃ u, copyout (PHYSTOP - 3 * PGSIZE) 8186 (fun j => UInt8.ofNat j) 7 t = .ok (false, u) := by
  obtain ⟨t, hrun, hwf, hmap⟩ := twoFree_mapped
  have hu := twoPages_userPages hmap
  have hacc := twoPages_accessible hmap
  refine ⟨t, hrun, ?_, ?_⟩
  · obtain ⟨r, u, n, hcopy, hrep, hout⟩ := (user_copy_exact hwf hu 4093 6).1 fun j => UInt8.ofNat j
    have hr : r = true := by
      refine hrep.iff.mpr fun a _ ha => (hacc a).mpr ?_
      rw [PGSIZE_eq]
      omega
    subst hr
    refine ⟨u, hcopy, ?_⟩
    have hin := hout.inside 5 (by rw [hrep.all rfl]; decide)
    unfold Phys.userByte at hin
    rw [Vmap.addr_eq (by decide) (hmap 1 (by decide)) (by decide)] at hin
    exact hin
  · obtain ⟨r, u, n, hcopy, hrep, _⟩ := (user_copy_exact hwf hu 8186 7).1 fun j => UInt8.ofNat j
    have hr : r = false := by
      refine Bool.eq_false_iff.mpr fun hr => ?_
      have hlast := (hacc 8192).mp (hrep.iff.mp hr 8192 (by decide) (by decide))
      exact absurd hlast (by decide)
    subst hr
    exact ⟨u, hcopy⟩

end Vm

end Xv6.Kernel
