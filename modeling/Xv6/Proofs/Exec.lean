import Xv6.Proofs.ProcPagetable
import Xv6.Proofs.UserCopy
/-!
# Changing the memory of a process

`growproc` and `exec` keep the account of a process's pages, whatever the
program file and the arguments are and wherever they fail.
-/

namespace Xv6.Kernel

open Xv6.Lib Function List Multiset

variable {ip : Exe} {off k n n' a : Nat} {s t : Phys} {m m' : Vmap}

def AllUser (m : Vmap) (n : Nat) : Prop := ∀ k, k < n → ∃ pa, m k = some (pa, Vm.userFlags)

theorem AllUser.grow (h : AllUser m n)
    (hk : Keeps s t m m' n) (hz : Vm.Zeroed t m' n n') : AllUser m' n' := by
  intro k hkn
  by_cases hlt : k < n
  · obtain ⟨pa, hm⟩ := h k hlt
    exact ⟨pa, (hk k pa _ hlt hm).1⟩
  · obtain ⟨pa, hm, _⟩ := hz k (Nat.not_lt.mp hlt) hkn
    exact ⟨pa, hm⟩

theorem AllUser.accessible (h : AllUser m n) (hn : n ≤ 32768)
    (ha : a < n * PGSIZE) : m.Accessible a := by
  have hk : a / PGSIZE < n := Nat.div_lt_of_lt_mul (by rwa [Nat.mul_comm])
  obtain ⟨pa, hm⟩ := h _ hk
  refine ⟨?_, pa, Vm.userFlags, hm, by decide⟩
  rw [MAXVA_eq]
  rw [PGSIZE_eq] at ha
  omega

theorem le_npages (sz : Nat) : sz ≤ npages sz * PGSIZE := by
  unfold npages
  rw [PGSIZE_eq]
  omega

theorem procTop_shut (L : Link) (tf : Nat) : Shut (procTop L tf) := by
  intro k pa f hk
  unfold procTop at hk
  by_cases htf : k = TRAPFRAME / PGSIZE
  · rw [htf, update_self] at hk
    cases hk
    decide
  rw [update_of_ne htf] at hk
  by_cases htr : k = TRAMPOLINE / PGSIZE
  · rw [htr, update_self] at hk
    cases hk
    decide
  · rw [update_of_ne htr] at hk
    cases hk

def Proghdr.InFile (ph : Proghdr) (a : Nat) : Prop := ph.vaddr ≤ a ∧ a < ph.vaddr + ph.filesz

namespace Exe

def header (ip : Exe) (off : Nat) : Proghdr := Proghdr.decode (structOf 56 (ip.read off 56))

def loads (ip : Exe) (off k : Nat) : List Proghdr :=
  ((List.range k).map fun i => ip.header ((off + 56 * i) % 2 ^ 32)).filter
    (·.type = ELF_PROG_LOAD)

theorem headers_succ (ip : Exe) (off k : Nat) :
    (List.range (k + 1)).map (fun i => ip.header ((off + 56 * i) % 2 ^ 32)) =
      ip.header (off % 2 ^ 32) ::
        (List.range k).map fun i => ip.header ((off + 56 + 56 * i) % 2 ^ 32) := by
  rw [List.range_succ_eq_map, List.map_cons, List.map_map]
  congr 1
  refine List.map_congr_left fun i _ => ?_
  rw [Function.comp_apply, show off + 56 + 56 * i = off + 56 * (i + 1) by omega]

theorem loads_skip (h : (ip.header (off % 2 ^ 32)).type ≠ ELF_PROG_LOAD) :
    ip.loads off (k + 1) = ip.loads (off + 56) k := by
  unfold loads
  rw [headers_succ, List.filter_cons_of_neg (by simpa using h)]

theorem loads_cons (h : (ip.header (off % 2 ^ 32)).type = ELF_PROG_LOAD) :
    ip.loads off (k + 1) = ip.header (off % 2 ^ 32) :: ip.loads (off + 56) k := by
  unfold loads
  rw [headers_succ, List.filter_cons_of_pos (by simpa using h)]

end Exe

namespace Vm

variable {E : VmPanic → Prop} {L : Link} {top : Vmap} {R T' : Multiset Nat}
  {pt sz oldpt oldsz newpt newsz sp argc : Nat} {T : Multiset Nat} {l l' : List Nat}
  {Q : Option Image → Phys → Prop} {argv : List Nat} {entry : UInt64} {tf : Nat} {s0 : Phys}

theorem size_le (h : Account L top R s pt T m (npages sz) l) : sz ≤ 2 ^ 27 := by
  have hn := h.bound
  have hle := le_npages sz
  rw [PGSIZE_eq] at hle
  omega

/-! ## `growproc` -/

/-- The size moves by `d`, but stays where it is if that would make it negative: the
difference wraps and the new size is then taken for the larger one. -/
theorem growproc_wp {d : Int32} (h : Account L top R s pt T m (npages sz) l) (hlow : Low top)
    {Q : Option Nat → Phys → Prop}
    (hok : ∀ sz' t T' m' l', Account L top R t pt T' m' (npages sz') l' → Within R s t →
      ((sz' : Int) = if 0 ≤ sz + d.toInt then sz + d.toInt else sz) →
      Keeps s t m m' (npages (min sz sz')) → Zeroed t m' (npages sz) (npages sz') →
      Q (some sz') t)
    (hfail : ∀ t T' m' l', 0 < d.toInt → Account L top R t pt T' m' (npages sz) l' →
      Within R s t → Keeps s t m m' (npages sz) → Q none t) : Wp E (growproc L pt sz d) Q s := by
  have hsz := size_le h
  have hd := d.toInt_lt
  have hd' := d.le_toInt
  have hmod : sz % 2 ^ 32 = sz := Nat.mod_eq_of_lt (by omega)
  have hold : sz + PGSIZE ≤ 2 ^ 64 := by
    rw [PGSIZE_eq]
    omega
  have hnone : ∀ (t : Phys) (m' : Vmap) (x : Nat), x ≤ sz →
      Zeroed t m' (npages sz) (npages x) := by
    intro t m' x hx k hk1 hk2
    have hle : npages x ≤ npages sz := Nat.div_le_div_right (by omega)
    omega
  unfold growproc
  rw [hmod]
  refine Wp.ite_iff.mpr
    ⟨fun hpos => ?_, fun hpos => Wp.ite_iff.mpr ⟨fun hneg => ?_, fun hneg => ?_⟩⟩
  · -- the sum fits, so that only 0 stands for failure
    obtain ⟨c, hc⟩ : ∃ c : Nat, d.toInt = c := ⟨d.toInt.toNat, by omega⟩
    have hnew : ((sz + d.toInt) % 2 ^ 32).toNat = sz + c := by omega
    rw [hnew]
    refine Wp.bind (uvmalloc_wp h hlow hold ?_ ?_ ?_)
    · intro hlt
      omega
    · intro t T' m' l' _ ht hk hz hw
      have hfit : (sz + c) % 2 ^ 32 = sz + c := Nat.mod_eq_of_lt (by omega)
      rw [hfit, if_neg (by omega), Wp.pure_iff]
      refine hok (sz + c) t T' m' l' ht hw ?_ ?_ hz
      · rw [if_pos (by omega)]
        omega
      · rw [Nat.min_eq_left (Nat.le_add_right sz c)]
        exact hk
    · intro t T' m' l' _ ht hk hw
      rw [if_pos (Nat.zero_mod _), Wp.pure_iff]
      exact hfail t T' m' l' hpos ht hw hk
  · obtain ⟨x, hx⟩ : ∃ x, x = ((sz + d.toInt) % 2 ^ 32).toNat := ⟨_, rfl⟩
    rw [← hx]
    refine Wp.bind (uvmdealloc_wp h hlow hold ?_)
    intro t m' l' ht hk hw
    have hle := Nat.min_le_left sz x
    rw [Nat.mod_eq_of_lt (show min sz x < 2 ^ 32 by omega), Wp.pure_iff]
    refine hok _ t T m' l' ht hw ?_ ?_ (hnone t m' _ hle)
    · split <;> omega
    · rw [Nat.min_eq_right hle]
      exact hk
  · rw [Wp.pure_iff]
    refine hok sz s T m l h (Within.refl R s) ?_ ?_ (hnone s m sz (Nat.le_refl sz))
    · split <;> omega
    · exact Keeps.refl s m _

/-! ## Loading -/

theorem fill_account {pa len : Nat} {f : UInt64} {src : Nat → UInt8}
    (h : Account L top R s pt T m n l) (hk : k < n) (hm : m k = some (pa, f))
    {Q : Unit → Phys → Prop} (hQ : ∀ t, t = s.setPage pa ((s.page pa).splice off len src) →
      Account L top R t pt T m n l → Within R s t → Q () t) : Wp E (fill pa off len src) Q s := by
  have hmem : pa ∈ m.pages 0 n := Vmap.mem_pages.mpr ⟨k, f, hk, by rwa [Nat.zero_add]⟩
  unfold fill
  rw [Wp.modify_iff]
  refine hQ _ rfl (h.congr rfl fun a ha => Phys.setPage_ne ?_) fun a ha => Phys.setPage_ne ?_
  · rintro rfl
    rcases ha with hT | hl
    · exact h.pages_not_table a hmem hT
    · exact (h.free_not_own a hl).2 hmem
  · rintro rfl
    exact ha ((h.mem_iff a).mpr (.inr (.inl hmem)))

theorem loadPage_wp {va c : Nat} (h : Account L top R s pt T m n l)
    (hall : AllUser m n) (hal : va % PGSIZE = 0) (hva : va < n * PGSIZE) (hc : c ≤ PGSIZE)
    {Q : Option Unit → Phys → Prop} (hQ : ∀ r t, Account L top R t pt T m n l → Within R s t →
      CopiedOut s t m va (ip.read off c).length (fun j => (ip.read off c).getD j 0) →
      (r = none → (ip.read off c).length = c) → Q r t) : Wp E (loadPage pt va ip off c) Q s := by
  have hk : va / PGSIZE < n := Nat.div_lt_of_lt_mul (by rwa [Nat.mul_comm])
  obtain ⟨hlt, pa, f, hm, hf⟩ := hall.accessible h.bound hva
  have hpa : L.isPage pa := by
    refine h.space.pages_ram pa (Vmap.mem_pages.mpr ⟨va / PGSIZE, f, hk, ?_⟩)
    rw [Nat.zero_add]
    exact hm
  have haddr : m.addr va = pa := Vmap.addr_eq hlt hm hf
  unfold loadPage
  refine Wp.bind (walkaddr_wp h.space.table ?_)
  rw [haddr, if_neg hpa.ne_zero]
  refine Wp.bind (fill_account h hk hm fun t heq ht hw => ?_)
  have hcopy : CopiedOut s t m va (ip.read off c).length fun j => (ip.read off c).getD j 0 := by
    have hpage := CopiedOut.page s m va (fun j => (ip.read off c).getD j 0)
      (c := (ip.read off c).length) (by rw [hal]; exact (ip.short off c).trans hc)
    rwa [haddr, hal, ← heq] at hpage
  refine Wp.ite_iff.mpr ⟨fun hlen => hQ none t ht hw hcopy fun _ => hlen, fun _ => ?_⟩
  exact hQ (some ()) t ht hw hcopy fun hr => by cases hr

/-- Byte `j` of a segment of `c` bytes at `off`, in the pieces of a page in which
`loadseg` reads it. -/
def segRead (ip : Exe) (off c j : Nat) : Option UInt8 :=
  (ip.read ((off + j / PGSIZE * PGSIZE) % 2 ^ 32)
    (min (c - j / PGSIZE * PGSIZE) PGSIZE))[j % PGSIZE]?

theorem loadseg_wp {va c : Nat} (h : Account L top R s pt T m n l)
    (hshut : Shut top) (hall : AllUser m n) (hal : va % PGSIZE = 0) (hc : va + c ≤ n * PGSIZE)
    {Q : Bool → Phys → Prop} (hQ : ∀ r t, Account L top R t pt T m n l → Within R s t →
      (∀ a, m.Accessible a → a < va ∨ va + c ≤ a → t.userByte m a = s.userByte m a) →
      (r = true → ∀ j, j < c → segRead ip off c j = some (t.userByte m (va + j))) → Q r t) :
    Wp E (loadseg pt va ip off c) Q s := by
  have hn := h.bound
  have hu := h.userPages hshut
  have hrounds : rounds 0 c = npages c := rfl
  unfold loadseg
  rw [if_neg (not_not.mpr hal), Wp.bind_iff]
  -- the bytes of the first `i` pages are there, and nothing outside the segment changed
  refine (Wp.findRange (I := fun i t => (Account L top R t pt T m n l ∧ Within R s t ∧
      ∀ a, m.Accessible a → a < va ∨ va + c ≤ a → t.userByte m a = s.userByte m a) ∧
      ∀ j, j < c → j < i * PGSIZE → segRead ip off c j = some (t.userByte m (va + j)))
    (R := fun _ t => Account L top R t pt T m n l ∧ Within R s t ∧
      ∀ a, m.Accessible a → a < va ∨ va + c ≤ a → t.userByte m a = s.userByte m a)
    ⟨⟨h, Within.refl R s, fun _ _ _ => rfl⟩, fun j _ hj => by omega⟩ ?_).post ?_
  · rintro i t _ hi ⟨⟨ht, hw, hout⟩, hdone⟩
    have hlast : i * PGSIZE < c := by
      rw [hrounds] at hi
      unfold npages at hi
      rw [PGSIZE_eq] at hi ⊢
      omega
    have hadd : add64 va (i * PGSIZE) = va + i * PGSIZE := by
      refine Nat.mod_eq_of_lt ?_
      rw [PGSIZE_eq] at hc hlast ⊢
      omega
    rw [hadd]
    refine loadPage_wp ht hall ?_ (by omega) (Nat.min_le_right _ _) ?_
    · rw [Nat.add_mul_mod_self_right, hal]
    intro r u hu' hw' hcopy hfull
    have hshort := ip.short ((off + i * PGSIZE) % 2 ^ 32) (min (c - i * PGSIZE) PGSIZE)
    have hacc : ∀ x, x < (ip.read ((off + i * PGSIZE) % 2 ^ 32)
        (min (c - i * PGSIZE) PGSIZE)).length → m.Accessible (va + i * PGSIZE + x) :=
      fun x hx => hall.accessible hn (by omega)
    have hkeep : Account L top R u pt T m n l ∧ Within R s u ∧
        ∀ a, m.Accessible a → a < va ∨ va + c ≤ a → u.userByte m a = s.userByte m a := by
      refine ⟨hu', hw.trans hw', fun a ha hlt => ?_⟩
      rw [hcopy.frame hu hacc ha (by omega), hout a ha hlt]
    cases r with
    | some _ => exact hkeep
    | none =>
      refine ⟨hkeep, fun j hjc hj => ?_⟩
      have hlen := hfull rfl
      by_cases hold : j < i * PGSIZE
      · have hja : m.Accessible (va + j) := hall.accessible hn (by omega)
        rw [hdone j hjc hold, hcopy.frame hu hacc hja (.inl (by omega))]
      have hdiv : j / PGSIZE = i ∧ j % PGSIZE = j - i * PGSIZE := by
        rw [PGSIZE_eq] at *
        omega
      have hlt : j - i * PGSIZE < (ip.read ((off + i * PGSIZE) % 2 ^ 32)
          (min (c - i * PGSIZE) PGSIZE)).length := by
        rw [hlen]
        rw [PGSIZE_eq] at *
        omega
      have hbyte := hcopy.inside (j - i * PGSIZE) hlt
      have hsum : va + i * PGSIZE + (j - i * PGSIZE) = va + j := by omega
      unfold segRead
      rw [hdiv.1, hdiv.2, ← hsum, hbyte, List.getElem?_eq_getElem hlt, getD_eq_getElem _ _ hlt]
  · intro r t hr
    rw [Wp.pure_iff]
    cases r with
    | some _ =>
      obtain ⟨ht, hw, hout⟩ := hr
      exact hQ _ t ht hw hout fun heq => by cases heq
    | none =>
      obtain ⟨⟨ht, hw, hout⟩, hdone⟩ := hr
      refine hQ _ t ht hw hout fun _ j hj => hdone j hj ?_
      have hle := le_npages c
      rw [Nat.zero_add, hrounds]
      omega

/-- What loading the segments `phs` does to the memory below `sz'`. -/
structure SegmentsLoaded (ip : Exe) (phs : List Proghdr) (s t : Phys) (m m' : Vmap)
    (sz sz' : Nat) : Prop where
  grows : npages sz ≤ npages sz'
  fits : ∀ ph ∈ phs, ph.filesz ≤ ph.memsz ∧ ph.vaddr + ph.memsz ≤ npages sz' * PGSIZE
  frame : ∀ a, a < npages sz' * PGSIZE → (∀ ph ∈ phs, ¬ph.InFile a) →
    t.userByte m' a = if a < npages sz * PGSIZE then s.userByte m a else 0
  bytes : phs.Pairwise (fun p q => ∀ a, ¬(p.InFile a ∧ q.InFile a)) → ∀ ph ∈ phs, ∀ j,
    j < ph.filesz → segRead ip (ph.off % 2 ^ 32) ph.filesz j = some (t.userByte m' (ph.vaddr + j))

namespace SegmentsLoaded

variable {ph : Proghdr} {phs : List Proghdr} {u : Phys} {sz₁ sz' : Nat} {m₀ : Vmap}

theorem nil (s : Phys) (m : Vmap) (sz : Nat) : SegmentsLoaded ip [] s s m m sz sz where
  grows := le_rfl
  fits := fun _ hph => absurd hph not_mem_nil
  frame := fun _ ha _ => (if_pos ha).symm
  bytes := fun _ _ hph => absurd hph not_mem_nil

theorem cons (hgrow : npages sz ≤ npages sz₁) (hfile : ph.filesz ≤ ph.memsz)
    (hmem : ph.vaddr + ph.memsz ≤ npages sz₁ * PGSIZE)
    (hout : ∀ a, a < npages sz₁ * PGSIZE → ¬ph.InFile a →
      t.userByte m a = if a < npages sz * PGSIZE then s.userByte m₀ a else 0)
    (hin : ∀ j, j < ph.filesz →
      segRead ip (ph.off % 2 ^ 32) ph.filesz j = some (t.userByte m (ph.vaddr + j)))
    (h : SegmentsLoaded ip phs t u m m' sz₁ sz') :
    SegmentsLoaded ip (ph :: phs) s u m₀ m' sz sz' where
  grows := hgrow.trans h.grows
  fits := by
    intro q hq
    rcases mem_cons.mp hq with rfl | hq
    · exact ⟨hfile, hmem.trans (Nat.mul_le_mul_right _ h.grows)⟩
    · exact h.fits q hq
  frame := by
    intro a ha hno
    rw [h.frame a ha fun q hq => hno q (mem_cons_of_mem ph hq)]
    by_cases hlt : a < npages sz₁ * PGSIZE
    · rw [if_pos hlt, hout a hlt (hno ph mem_cons_self)]
    · have hle := Nat.mul_le_mul_right PGSIZE hgrow
      rw [if_neg hlt, if_neg (by omega)]
  bytes := by
    intro hpair q hq j hj
    obtain ⟨hfirst, hrest⟩ := pairwise_cons.mp hpair
    rcases mem_cons.mp hq with rfl | hq
    · -- the later segments do not touch the bytes of this one
      have hlt : q.vaddr + j < npages sz₁ * PGSIZE := by omega
      have hself : q.InFile (q.vaddr + j) := ⟨Nat.le_add_right _ _, by omega⟩
      rw [hin j hj, h.frame _ (hlt.trans_le (Nat.mul_le_mul_right _ h.grows))
        fun r hr hmem => hfirst r hr _ ⟨hself, hmem⟩, if_pos hlt]
    · exact h.bytes hrest q hq j hj

end SegmentsLoaded

theorem userByte_grow (hall : AllUser m n)
    (hn' : n' ≤ 32768) (hk : Keeps s t m m' n) (hz : Zeroed t m' n n')
    (ha : a < n' * PGSIZE) : t.userByte m' a = if a < n * PGSIZE then s.userByte m a else 0 := by
  have hdiv : a / PGSIZE < n' := Nat.div_lt_of_lt_mul (by rwa [Nat.mul_comm])
  have hmax : a < MAXVA := by
    rw [MAXVA_eq]
    rw [PGSIZE_eq] at ha
    omega
  unfold Phys.userByte Phys.byte
  split
  · rename_i hlt
    have hold : a / PGSIZE < n := Nat.div_lt_of_lt_mul (by rwa [Nat.mul_comm])
    obtain ⟨pa, hm⟩ := hall _ hold
    obtain ⟨hm', hp⟩ := hk _ pa _ hold hm
    rw [Vmap.addr_eq hmax hm' (by decide), Vmap.addr_eq hmax hm (by decide), hp]
  rename_i hge
  have hnew : n ≤ a / PGSIZE := by
    rw [PGSIZE_eq] at *
    omega
  obtain ⟨pa, hm', hp⟩ := hz _ hnew hdiv
  rw [Vmap.addr_eq hmax hm' (by decide), hp]
  exact Bytes.get_zero _

theorem loadSegments_wp
    (h : Account L top R s pt T m (npages sz) l) (hlow : Low top) (hshut : Shut top)
    (hall : AllUser m (npages sz)) {Q : Nat × Bool → Phys → Prop}
    (hQ : ∀ sz' b t T' m' l', Account L top R t pt T' m' (npages sz') l' →
      AllUser m' (npages sz') → Within R s t →
      (b = true → SegmentsLoaded ip (ip.loads off k) s t m m' sz sz' ∧
        ∀ i, i < k → (ip.read ((off + 56 * i) % 2 ^ 32) 56).length = 56) → Q (sz', b) t) :
    Wp E (loadSegments L pt ip k off sz) Q s := by
  induction k generalizing s off sz T m l with
  | zero =>
    refine hQ sz true s T m l h hall (Within.refl R s) fun _ => ⟨?_, fun i hi => by omega⟩
    exact SegmentsLoaded.nil s m sz
  | succ k ih =>
    have hstop : Q (sz, false) s :=
      hQ sz false s T m l h hall (Within.refl R s) fun heq => by cases heq
    have hold : sz + PGSIZE ≤ 2 ^ 64 := by
      have hsz := size_le h
      rw [PGSIZE_eq]
      omega
    rw [loadSegments]
    have hph : Proghdr.decode (structOf 56 (ip.read (off % 2 ^ 32) 56)) =
      ip.header (off % 2 ^ 32) := rfl
    rw [hph]
    have hmemsz : (ip.header (off % 2 ^ 32)).memsz < 2 ^ 64 := UInt64.toNat_lt _
    refine Wp.ite_iff.mpr ⟨fun _ => hstop, fun hlen => ?_⟩
    -- the headers after this one
    have hread : (∀ i, i < k → (ip.read ((off + 56 + 56 * i) % 2 ^ 32) 56).length = 56) →
        ∀ i, i < k + 1 → (ip.read ((off + 56 * i) % 2 ^ 32) 56).length = 56 := by
      intro hrest i hi
      cases i with
      | zero => exact not_not.mp hlen
      | succ i =>
        have hi' := hrest i (by omega)
        rwa [show off + 56 + 56 * i = off + 56 * (i + 1) by omega] at hi'
    refine Wp.ite_iff.mpr ⟨fun hskip => ?_, fun hload => ?_⟩
    · refine ih h hall fun sz' b t T' m' l' ht hall' hw hb => ?_
      refine hQ sz' b t T' m' l' ht hall' hw fun heq => ?_
      obtain ⟨hsegs, hrest⟩ := hb heq
      rw [Exe.loads_skip hskip]
      exact ⟨hsegs, hread hrest⟩
    refine Wp.ite_iff.mpr ⟨fun _ => hstop, fun hfile => ?_⟩
    refine Wp.ite_iff.mpr ⟨fun _ => hstop, fun hover => ?_⟩
    rw [Exe.loads_cons (not_not.mp hload)] at hQ
    generalize ip.header (off % 2 ^ 32) = ph at *
    have hadd : add64 ph.vaddr ph.memsz = ph.vaddr + ph.memsz := by
      unfold add64 at hover ⊢
      omega
    rw [hadd, Wp.bind_iff]
    -- what follows when the size is `sz1`, which covers the segment
    have hrest : ∀ sz1 t T' m' l', ph.vaddr + ph.memsz ≤ sz1 → npages sz ≤ npages sz1 →
        Account L top R t pt T' m' (npages sz1) l' → AllUser m' (npages sz1) → Within R s t →
        (∀ a, a < npages sz1 * PGSIZE →
          t.userByte m' a = if a < npages sz * PGSIZE then s.userByte m a else 0) →
        Wp E (if ph.vaddr % PGSIZE ≠ 0 then pure (sz1, false)
          else do
            let ok ← loadseg pt ph.vaddr ip (ph.off % 2 ^ 32) (ph.filesz % 2 ^ 32)
            if ok = true then loadSegments L pt ip k (off + 56) sz1
            else pure (sz1, false)) Q t := by
      intro sz1 t T' m' l' hle hgrow ht hall' hw hbytes
      refine Wp.ite_iff.mpr ⟨fun _ => ?_, fun hal => ?_⟩
      · exact hQ sz1 false t T' m' l' ht hall' hw fun heq => by cases heq
      have hsz1 := size_le ht
      have hpages := le_npages sz1
      have hmod : ph.filesz % 2 ^ 32 = ph.filesz := Nat.mod_eq_of_lt (by omega)
      rw [Wp.bind_iff, hmod]
      refine loadseg_wp ht hshut hall' (not_not.mp hal) (by omega) ?_
      intro r u hu hw' hout hin
      refine Wp.ite_iff.mpr ⟨fun hr => ?_, fun _ => ?_⟩
      · refine ih hu hall' ?_
        intro sz' b v T'' m'' l'' hv hall'' hw'' hb
        refine hQ sz' b v T'' m'' l'' hv hall'' ((hw.trans hw').trans hw'') fun heq => ?_
        obtain ⟨hsegs, hrest⟩ := hb heq
        refine ⟨SegmentsLoaded.cons hgrow (by omega) (by omega) ?_ (hin hr) hsegs, hread hrest⟩
        intro a ha hno
        unfold Proghdr.InFile at hno
        rw [hout a (hall'.accessible ht.bound ha) (by omega), hbytes a ha]
      · exact hQ sz1 false u T' m' l' hu hall' (hw.trans hw') fun heq => by cases heq
    refine uvmalloc_wp h hlow hold ?_ ?_ ?_
    · intro hlt
      rw [if_neg (by omega)]
      exact hrest sz s T m l (by omega) le_rfl h hall (Within.refl R s)
        fun a ha => (if_pos ha).symm
    · intro t T' m' l' hle ht hk hz hw
      have hall' := hall.grow hk hz
      refine Wp.ite_iff.mpr ⟨fun hzero => ?_, fun _ => ?_⟩
      · have hsz0 : sz = ph.vaddr + ph.memsz := by omega
        rw [← hsz0] at ht hall'
        exact hQ sz false t T' m' l' ht hall' hw fun heq => by cases heq
      · exact hrest _ t T' m' l' le_rfl (Nat.div_le_div_right (by omega)) ht hall' hw
          fun a => userByte_grow hall ht.bound hk hz
    · intro t T' m' l' _ ht hk hw
      rw [if_pos rfl]
      refine hQ sz false t T' m' l' ht ?_ hw fun heq => by cases heq
      intro i hi
      obtain ⟨pa, hm⟩ := hall i hi
      exact ⟨pa, (hk i pa _ hi hm).1⟩

/-! ## The stack -/

theorem pushArgs_wp {stackbase : Nat} {argv ustack : List Nat}
    (h : Account L top R s pt T m n l) (hshut : Shut top)
    {Q : Option (Nat × List Nat) → Phys → Prop}
    (hQ : ∀ r t, Account L top R t pt T m n l → Within R s t →
      (∀ a, m.Accessible a → a < stackbase → t.userByte m a = s.userByte m a) → Q r t) :
    Wp E (pushArgs pt stackbase argv sp ustack) Q s := by
  have hstop : ∀ r, Q r s := fun r => hQ r s h (Within.refl R s) fun _ _ _ => rfl
  induction argv generalizing s sp ustack with
  | nil => exact hstop _
  | cons arg rest ih =>
    rw [pushArgs]
    refine Wp.ite_iff.mpr ⟨fun _ => hstop none, fun _ => ?_⟩
    rw [Wp.bind_iff, Wp.gets_iff]
    refine Wp.ite_iff.mpr ⟨fun _ => hstop none, fun hbase => ?_⟩
    refine Wp.bind (copyout_above h hshut fun r t ht hw hbelow => ?_)
    have hlow : ∀ a, m.Accessible a → a < stackbase → t.userByte m a = s.userByte m a :=
      fun a ha hlt => hbelow a ha (by omega)
    have hnext : ∀ r u, Account L top R u pt T m n l → Within R t u →
        (∀ a, m.Accessible a → a < stackbase → u.userByte m a = t.userByte m a) → Q r u :=
      fun r u hu hw' hlow' =>
        hQ r u hu (hw.trans hw') fun a ha hlt => (hlow' a ha hlt).trans (hlow a ha hlt)
    refine Wp.ite_iff.mpr ⟨fun _ => ?_, fun _ => hQ none t ht hw hlow⟩
    exact ih ht hnext fun r => hQ r t ht hw hlow

theorem execBad_wp (h : Account L (procTop L tf) R s pt T m (npages sz) l)
    (hQ : ∀ t (l' : List Nat), FreeList L t l' → (l' : Multiset Nat) = R → Within R s t →
      Q none t) : Wp E (execBad L pt sz) Q s := by
  have hsz := size_le h
  unfold execBad
  refine Wp.bind (procFreepagetable_wp h (by rw [PGSIZE_eq]; omega) fun t l' hfl hl hw => ?_)
  rw [Wp.pure_iff]
  exact hQ t l' hfl hl hw

/-- `exec` once it has a stack; `sz` is the final size. -/
def execPush (L : Link) (tf oldpt oldsz pt sz : Nat) (entry : UInt64) (argv : List Nat) :
    VmM (Option Image) := do
  let r ← pushArgs pt (sz - PGSIZE) argv sz []
  r.elim (execBad L pt sz) fun x =>
    if pushDown x.1 ((x.2.length + 1) * 8) < sz - PGSIZE then
      execBad L pt sz
    else do
      let ok ← copyout pt (pushDown x.1 ((x.2.length + 1) * 8)) (wordBytes x.2)
        ((x.2.length + 1) * 8)
      if ok = true then
        execCommit L tf oldpt oldsz pt sz (pushDown x.1 ((x.2.length + 1) * 8)) x.2.length entry
      else
        execBad L pt sz

theorem execStack_eq (L : Link) (tf oldpt oldsz pt sz : Nat) (entry : UInt64) (argv : List Nat) :
    execStack L tf oldpt oldsz pt sz entry argv = (do
      let sz1 ← uvmalloc L pt (PGROUNDUP sz) (add64 (PGROUNDUP sz) (2 * PGSIZE))
      if sz1 = 0 then
        execBad L pt (PGROUNDUP sz)
      else do
        uvmclear pt (sz1 - 2 * PGSIZE)
        execPush L tf oldpt oldsz pt sz1 entry argv) := by
  refine bind_congr fun sz1 => ite_congr rfl (fun _ => rfl) fun _ => ?_
  refine bind_congr fun _ => bind_congr fun r => ?_
  cases r with
  | none => rfl
  | some x =>
    obtain ⟨sp, ustack⟩ := x
    rw [Option.elim_some]

theorem execStack_alloc_wp (h : Account L (procTop L tf) R s pt T m (npages sz) l)
    (hbad : ∀ t (l' : List Nat), FreeList L t l' → (l' : Multiset Nat) = R → Within R s t →
      (∃ t', uvmalloc L pt (PGROUNDUP sz) (add64 (PGROUNDUP sz) (2 * PGSIZE)) s = .ok (0, t')) →
      Q none t) (hpush : ∀ t T' m' l', Account L (procTop L tf) R t pt T' m' (npages sz + 2) l' →
      Within R s t → Keeps s t m m' (npages sz) →
      (∃ pa f, m' (npages sz) = some (pa, f &&& ~~~PTE_U)) →
      (∃ pa, m' (npages sz + 1) = some (pa, userFlags)) →
      (∃ sz1 t', uvmalloc L pt (PGROUNDUP sz) (add64 (PGROUNDUP sz) (2 * PGSIZE)) s =
        .ok (sz1, t') ∧ sz1 ≠ 0) →
      Wp E (execPush L tf oldpt oldsz pt ((npages sz + 2) * PGSIZE) entry argv) Q t) :
    Wp E (execStack L tf oldpt oldsz pt sz entry argv) Q s := by
  have hn := h.bound
  have hsz := size_le h
  have hround : PGROUNDUP sz = npages sz * PGSIZE :=
    PGROUNDUP_eq (by rw [PGSIZE_eq]; omega)
  have hadd : add64 (npages sz * PGSIZE) (2 * PGSIZE) = (npages sz + 2) * PGSIZE := by
    unfold add64
    rw [PGSIZE_eq]
    omega
  have hne : (npages sz + 2) * PGSIZE ≠ 0 := by
    rw [PGSIZE_eq]
    omega
  have h' : Account L (procTop L tf) R s pt T m (npages (npages sz * PGSIZE)) l := by
    rw [npages_mul]
    exact h
  rw [hround, hadd] at hbad hpush
  rw [execStack_eq, hround, hadd, Wp.bind_iff]
  refine Wp.remember (uvmalloc_wp h' (procTop_low L tf) (by rw [PGSIZE_eq]; omega) ?_ ?_ ?_)
  · intro hlt
    rw [PGSIZE_eq] at hlt
    omega
  · intro t T' m' l' _ ht hk hz hw hrun
    rw [npages_mul] at ht hk hz
    rw [npages_mul] at hz
    have hguard : (npages sz + 2) * PGSIZE - 2 * PGSIZE = npages sz * PGSIZE := by
      rw [PGSIZE_eq]
      omega
    have hvpn : npages sz * PGSIZE / PGSIZE = npages sz := Nat.mul_div_cancel _ (by decide)
    rw [if_neg hne, hguard]
    refine Wp.bind (uvmclear_wp ht (by rw [hvpn]; omega) ?_)
    rw [hvpn]
    intro u m'' hu hw' hsame hshut
    have hT : T' ≤ R := by
      rw [← ht.total, Multiset.add_assoc]
      exact Multiset.le_add_right _ _
    refine hpush u T' m'' l' hu (hw.trans (hw'.mono hT)) ?_ hshut ?_ ⟨_, t, hrun, hne⟩
    · intro k pa f hkn hm
      obtain ⟨hm', hp⟩ := hk k pa f hkn hm
      rw [hsame k (by omega)]
      refine ⟨hm', (hw' pa ?_).trans hp⟩
      refine ht.pages_not_table pa (Vmap.mem_pages.mpr ⟨k, f, by omega, ?_⟩)
      rw [Nat.zero_add]
      exact hm'
    · obtain ⟨pa, hm', _⟩ := hz (npages sz + 1) (by omega) (by omega)
      exact ⟨pa, by rw [hsame _ (by omega)]; exact hm'⟩
  · intro t T' m' l' _ ht _ hw hrun
    rw [if_pos rfl]
    exact execBad_wp ht fun u l'' hfl hl hw' => hbad u l'' hfl hl (hw.trans hw') ⟨t, hrun⟩

/-- `exec` with a stack: it goes to `bad`, or it commits with both page tables in
place. -/
theorem execPush_wp {tf : Nat} (h : Account L (procTop L tf) R s pt T m n l)
    (hbad : ∀ t (l' : List Nat), FreeList L t l' → (l' : Multiset Nat) = R → Within R s t →
      Q none t) (hcommit : ∀ sp argc t, Account L (procTop L tf) R t pt T m n l → Within R s t →
      (∀ a, m.Accessible a → a < n * PGSIZE - PGSIZE → t.userByte m a = s.userByte m a) →
      Wp E (execCommit L tf oldpt oldsz pt (n * PGSIZE) sp argc entry) Q t) :
    Wp E (execPush L tf oldpt oldsz pt (n * PGSIZE) entry argv) Q s := by
  have hbad' : ∀ u, Account L (procTop L tf) R u pt T m n l → Within R s u →
      Wp E (execBad L pt (n * PGSIZE)) Q u := by
    intro u hu hwu
    rw [← npages_mul n] at hu
    exact execBad_wp hu fun v l'' hfl hl hw' => hbad v l'' hfl hl (hwu.trans hw')
  unfold execPush
  refine Wp.bind (pushArgs_wp h (procTop_shut L tf) fun r v hv hwv hlow => ?_)
  cases r with
  | none => exact hbad' v hv hwv
  | some x =>
    rw [Option.elim_some, Wp.ite_iff]
    refine ⟨fun _ => hbad' v hv hwv, fun hbase => ?_⟩
    refine Wp.bind (copyout_above hv (procTop_shut L tf) fun ok y hy hwy hbelow => ?_)
    refine Wp.ite_iff.mpr ⟨fun _ => hcommit _ _ y hy (hwv.trans hwy) fun a ha hlt => ?_,
      fun _ => hbad' y hy (hwv.trans hwy)⟩
    rw [hbelow a ha (by omega), hlow a ha hlt]

/-! ## `exec` -/

theorem relist (h : Account L top R s pt T m n l)
    (hfl : FreeList L t l') (hl : (l' : Multiset Nat) = l) (hw : Within l s t) :
    Account L top R t pt T m n l' ∧ Within R s t := by
  refine ⟨⟨h.space.congr fun a ha => hw a fun hmem => ?_, hfl, ?_, h.nodup⟩, hw.mono ?_⟩
  · exact (h.free_not_own a hmem).1 ha
  · rw [hl]
    exact h.total
  · rw [← h.total]
    exact Multiset.le_add_left _ _

/-- The end of `exec`: the new address space was built from the free list `l`,
and the old one goes back there. -/
theorem execCommit_wp (h : Account L (procTop L tf) R s0 pt T m (npages sz) l) (htf : tf ∉ R)
    (hnew : Account L (procTop L tf) l s newpt T' m' (npages newsz) l') (hw : Within l s0 s)
    (hQ : ∀ t l'', Account L (procTop L tf) R t newpt T' m' (npages newsz) l'' →
      Within (tf ::ₘ R) s t → Keeps s t m' m' (npages newsz) →
      t.word tf 6 = UInt64.ofNat sp → t.word tf 15 = UInt64.ofNat sp →
      Q (some ⟨newpt, newsz, argc⟩) t) :
    Wp E (execCommit L tf pt sz newpt newsz sp argc entry) Q s := by
  have hsz := size_le h
  have hR : ∀ a ∈ R, a ≠ tf := by
    rintro a ha rfl
    exact htf ha
  have hlR : ∀ a ∈ l, a ∈ R := fun a ha => (h.mem_iff a).mpr (.inr (.inr ha))
  -- the trapframe is in neither account
  have hframe : ∀ i w (t : Phys) a, a ≠ tf → (t.setWord tf i w).page a = t.page a :=
    fun i w t a ha => Phys.setWord_page_ne ha
  unfold execCommit
  rw [Wp.bind_iff, setPte_wp, Wp.bind_iff, setPte_wp, Wp.bind_iff, setPte_wp]
  generalize hu : ((s.setWord tf 15 (UInt64.ofNat sp)).setWord tf 3 entry).setWord tf 6
    (UInt64.ofNat sp) = u
  have hpage : ∀ a, a ≠ tf → u.page a = s.page a := by
    intro a ha
    rw [← hu, hframe _ _ _ a ha, hframe _ _ _ a ha, hframe _ _ _ a ha]
  have hhead : u.freelist = s.freelist := by
    rw [← hu]
    rfl
  have hle : (l' : Multiset Nat) ≤ l := by
    rw [← hnew.total]
    exact Multiset.le_add_left _ _
  have hold : Account L (procTop L tf) (T + m.pages 0 (npages sz) + l') u pt T m
      (npages sz) l' := by
    refine ⟨h.space.congr fun a ha => ?_, hnew.free.congr hhead fun a ha => hpage a ?_, rfl, ?_⟩
    · rw [hpage a (hR a ((h.mem_iff a).mpr (.inl ha)))]
      exact hw a fun hmem => (h.free_not_own a hmem).1 ha
    · exact hR a (hlR a (mem_of_le hle ha))
    refine nodup_of_le ?_ h.nodup
    rw [← h.total]
    exact Multiset.add_le_add_left hle
  have hleR : T + m.pages 0 (npages sz) + l' ≤ R := by
    rw [← h.total]
    exact Multiset.add_le_add_left hle
  refine Wp.bind (procFreepagetable_wp hold (by rw [PGSIZE_eq]; omega) fun v l'' hfl hl hwv => ?_)
  rw [Wp.pure_iff]
  -- what the new address space holds is not freed with the old one
  have hown : ∀ a, a ∈ T' ∨ a ∈ m'.pages 0 (npages newsz) → v.page a = s.page a := by
    intro a ha
    have hal : a ∈ l := (hnew.mem_iff a).mpr (ha.imp_right .inl)
    rw [hwv a, hpage a (hR a (hlR a hal))]
    intro hmem
    rcases mem_add.mp hmem with hown | hfree
    · rcases mem_add.mp hown with hT | hp
      · exact (h.free_not_own a hal).1 hT
      · exact (h.free_not_own a hal).2 hp
    · rcases ha with ha | ha
      · exact (hnew.free_not_own a hfree).1 ha
      · exact (hnew.free_not_own a hfree).2 ha
  have hregs : v.word tf = u.word tf :=
    Phys.word_congr (hwv tf fun hmem => htf (mem_of_le hleR hmem))
  refine hQ v l'' ⟨hnew.space.congr fun a ha => hown a (.inl ha), hfl, ?_, h.nodup⟩ ?_ ?_ ?_ ?_
  · rw [hl, ← h.total, ← hnew.total]
    ac_rfl
  · intro a ha
    rw [Multiset.mem_cons, not_or] at ha
    rw [hwv a, hpage a ha.1]
    exact fun hmem => ha.2 (Multiset.mem_of_le hleR hmem)
  · intro k pa f hk hm
    refine ⟨hm, hown pa (.inr (Vmap.mem_pages.mpr ⟨k, f, hk, ?_⟩))⟩
    rwa [Nat.zero_add]
  · rw [hregs, ← hu, Phys.word_setWord _ (by decide)]
  · rw [hregs, ← hu, Phys.word_setWord_ne (by decide), Phys.word_setWord_ne (by decide),
      Phys.word_setWord _ (by decide)]

def elfhdr (ip : Exe) : Elfhdr := Elfhdr.decode (structOf 64 (ip.read 0 64))

/-- The file and the memory are enough for a new image with an empty stack. -/
def Sufficient (L : Link) (tf : Nat) (ip : Exe) (s : Phys) : Prop :=
  (ip.read 0 64).length = 64 ∧ (elfhdr ip).magic = ELF_MAGIC ∧
  ∃ pt t, procPagetable L tf s = .ok (pt, t) ∧ pt ≠ 0 ∧
  ∃ sz u, loadSegments L pt ip (elfhdr ip).phnum.toNat (elfhdr ip).phoff.toNat 0 t =
    .ok ((sz, true), u) ∧
  ∃ sz1 v, uvmalloc L pt (PGROUNDUP sz) (add64 (PGROUNDUP sz) (2 * PGSIZE)) u = .ok (sz1, v) ∧
    sz1 ≠ 0

section

variable (h : Account L (procTop L tf) R s pt T m (npages sz) l) {file : Option Exe}
include h

/-- `exec` up to the stack.  `P` is what the caller knows of the loaded segments.
When `exec` fails here, only pages of the free list `l` have been written to, and
they are all back in it. -/
theorem exec_stages_wp {P : Nat × Bool → Vmap → Phys → Prop} (htf : L.isPage tf)
    (hload : ∀ newpt t T' m' l', Account L (procTop L tf) l t newpt T' m' (npages 0) l' →
      Wp E (loadSegments L newpt ip (elfhdr ip).phnum.toNat (elfhdr ip).phoff.toNat 0)
        (fun r u => ∃ T'' m'' l'', Account L (procTop L tf) l u newpt T'' m'' (npages r.1) l'' ∧
          Within l t u ∧ P r m'' u) t)
    (hpush : ∀ newpt sz' u m'' t T' m' l', newpt ≠ 0 → Sufficient L tf ip s →
      P (sz', true) m'' u → Keeps u t m'' m' (npages sz') →
      Account L (procTop L tf) l t newpt T' m' (npages sz' + 2) l' → Within l s t →
      (∃ pa f, m' (npages sz') = some (pa, f &&& ~~~PTE_U)) →
      (∃ pa, m' (npages sz' + 1) = some (pa, userFlags)) →
      Wp E (execPush L tf pt sz newpt ((npages sz' + 2) * PGSIZE) (elfhdr ip).entry argv) Q t)
    (hbad : ∀ t (l' : List Nat), FreeList L t l' → (l' : Multiset Nat) = l → Within l s t →
      ¬Sufficient L tf ip s → Q none t) : Wp E (exec L tf pt sz (some ip) argv) Q s := by
  have hstop : ¬Sufficient L tf ip s → Q none s := hbad s l h.free rfl (Within.refl _ s)
  have hzero : npages 0 = 0 := by decide
  refine Wp.ite_iff.mpr ⟨fun hlen => hstop fun hs => hlen hs.1, fun hlen => ?_⟩
  refine Wp.ite_iff.mpr ⟨fun hmagic => hstop fun hs => hmagic hs.2.1, fun hmagic => ?_⟩
  refine Wp.bind (Wp.remember (procPagetable_wp h.free (page_addr htf) ?_ ?_))
  · intro t l' hfl hl hw hrun
    rw [if_pos rfl]
    refine hbad t l' hfl hl hw ?_
    rintro ⟨_, _, pt', t', hrun', hne, _⟩
    rw [hrun] at hrun'
    cases hrun'
    exact hne rfl
  intro newpt t T' m' l' hpt ht hw hrun
  rw [if_neg hpt, Wp.bind_iff]
  rw [← hzero] at ht
  refine Wp.remember ((hload newpt t T' m' l' ht).post ?_)
  rintro ⟨sz', b⟩ u ⟨T'', m'', l'', hu, hwu, hP⟩ hrun'
  refine Wp.ite_iff.mpr ⟨?_, ?_⟩
  · rintro rfl
    refine execStack_alloc_wp hu ?_ ?_
    · rintro v l3 hfl hl hwv ⟨v', hrun''⟩
      refine hbad v l3 hfl hl ((hw.trans hwu).trans hwv) ?_
      rintro ⟨_, _, pt1, t1, h1, _, sz2, u2, h2, sz3, v3, h3, hne⟩
      rw [hrun] at h1
      cases h1
      erw [hrun'] at h2
      cases h2
      rw [hrun''] at h3
      cases h3
      exact hne rfl
    · rintro v T₃ m3 l3 hv hwv hk hguard hstack ⟨sz3, v', hrun'', hne⟩
      have hs : Sufficient L tf ip s :=
        ⟨not_not.mp hlen, not_not.mp hmagic, newpt, t, hrun, hpt, sz', u, hrun', sz3, v', hrun'',
          hne⟩
      exact hpush newpt sz' u m'' v T₃ m3 l3 hpt hs hP hk hv
        ((hw.trans hwu).trans hwv) hguard hstack
  · intro hb
    refine execBad_wp hu fun v l3 hfl hl hwv => ?_
    refine hbad v l3 hfl hl ((hw.trans hwu).trans hwv) ?_
    rintro ⟨_, _, pt1, t1, h1, _, sz2, u2, h2, _⟩
    rw [hrun] at h1
    cases h1
    erw [hrun'] at h2
    cases h2
    exact hb rfl

/-- When `exec` fails, only pages of the free list `l` have been written to, and
they are all back in it. -/
theorem exec_back_wp (htf : L.isPage tf) (hout : tf ∉ R)
    (hok : ∀ image t T' m' l', image.pagetable ≠ 0 →
      Account L (procTop L tf) R t image.pagetable T' m' (npages image.sz) l' →
      Within (tf ::ₘ R) s t → Q (some image) t)
    (hbad : ∀ t (l' : List Nat), FreeList L t l' → (l' : Multiset Nat) = l → Within l s t →
      Q none t) : Wp E (exec L tf pt sz file argv) Q s := by
  have hlR : (l : Multiset Nat) ≤ R := by
    rw [← h.total]
    exact Multiset.le_add_left _ _
  cases file with
  | none => exact hbad s l h.free rfl (Within.refl _ s)
  | some ip =>
    refine exec_stages_wp (P := fun _ _ _ => True) h htf ?_ ?_
      fun t l' hfl hl hw _ => hbad t l' hfl hl hw
    · intro newpt t T' m' l' ht
      refine loadSegments_wp ht (procTop_low L tf) (procTop_shut L tf) ?_ ?_
      · intro k hk
        exact absurd hk (Nat.not_lt_zero k)
      · intro sz' b u T'' m'' l'' hu _ hw _
        exact ⟨T'', m'', l'', hu, hw, trivial⟩
    intro newpt sz' u m'' t T' m' l' hpt _ _ _ ht hw _ _
    refine execPush_wp ht ?_ ?_
    · intro v l3 hfl hl hwv
      exact hbad v l3 hfl hl (hw.trans hwv)
    intro sp argc v hv hwv _
    rw [← npages_mul (npages sz' + 2)] at hv
    refine execCommit_wp h hout hv (hw.trans hwv) fun x l4 hx hwx _ _ _ => ?_
    refine hok ⟨newpt, _, argc⟩ x T' m' l4 hpt hx ?_
    exact ((hw.trans hwv).mono (hlR.trans (le_cons_self R tf))).trans hwx

theorem exec_wp (htf : L.isPage tf) (hout : tf ∉ R) (hok : ∀ image t T' m' l', image.pagetable ≠ 0 →
      Account L (procTop L tf) R t image.pagetable T' m' (npages image.sz) l' →
      Within (tf ::ₘ R) s t → Q (some image) t)
    (hfail : ∀ t l', Account L (procTop L tf) R t pt T m (npages sz) l' → Within R s t →
      Q none t) : Wp E (exec L tf pt sz file argv) Q s := by
  refine exec_back_wp h htf hout hok ?_
  intro t l' hfl hl hw
  obtain ⟨ht, hw'⟩ := relist h hfl hl hw
  exact hfail t l' ht hw'

end

/-! ## `sys_exec` -/

theorem fetchaddr_wp {addr : Nat} (ht : Table s pt T m) {Q : Option Nat → Phys → Prop}
    (hQ : ∀ r, Q r s) : Wp E (fetchaddr pt sz addr) Q s := by
  refine Wp.ite_iff.mpr ⟨fun _ => hQ none, fun _ => ?_⟩
  refine Wp.bind (copyinLoop_wp ht fun r => ?_)
  exact Wp.ite_iff.mpr ⟨fun _ => hQ _, fun _ => hQ none⟩

theorem fetchArgs_wp {uargv : Nat}
    (h : Account L top R s pt T m n l) {Q : List Nat × Bool → Phys → Prop}
    (hQ : ∀ (A : List Nat) b t R' l', R = A + R' → (∀ a ∈ A, L.isPage a) →
      Account L top R' t pt T m n l' → Within R s t → Q (argv ++ A, b) t) :
    Wp E (fetchArgs pt sz uargv k argv) Q s := by
  have hstop : ∀ b, Q (argv, b) s := by
    intro b
    have hnil := hQ [] b s R l (Multiset.zero_add R).symm (fun a ha => absurd ha not_mem_nil) h
      (Within.refl R s)
    rwa [append_nil] at hnil
  induction k generalizing s R l argv with
  | zero => exact hstop false
  | succ k ih =>
    rw [fetchArgs]
    refine Wp.bind (fetchaddr_wp h.space.table fun r => ?_)
    cases r with
    | none => exact hstop false
    | some uarg =>
      refine Wp.ite_iff.mpr ⟨fun _ => hstop true, fun _ => ?_⟩
      refine Wp.bind (kalloc_account h ?_ ?_)
      · intro t hpage ht
        rw [if_pos rfl, Wp.pure_iff]
        have hnil := hQ [] false t R l (Multiset.zero_add R).symm
          (fun a ha => absurd ha not_mem_nil) ht fun a _ => congrFun hpage a
        rwa [append_nil] at hnil
      intro pa R₀ l' t hR hpa _ ht hout
      rw [if_neg hpa.ne_zero, Wp.bind_iff]
      unfold fetchstr
      refine Wp.bind (copyinstrLoop_wp ht.space.table fun r => ?_)
      unfold fill
      rw [Wp.bind_iff, Wp.modify_iff, Wp.pure_iff]
      obtain ⟨_, hu, _, hw⟩ :=
        filled h hR ht hout ((t.page pa).splice 0 r.1.length fun j => r.1.getD j 0)
      have hR0 : R₀ ≤ R := by
        rw [hR]
        exact le_cons_self R₀ pa
      have hsplit : ∀ (A : List Nat) (R' : Multiset Nat), R₀ = A + R' →
          R = (pa :: A : List Nat) + R' := by
        intro A R' hA
        rw [hR, hA, ← cons_coe, cons_add]
      have hram : ∀ A : List Nat, (∀ a ∈ A, L.isPage a) → ∀ a ∈ pa :: A, L.isPage a := by
        intro A hA a ha
        rcases mem_cons.mp ha with rfl | ha
        · exact hpa
        · exact hA a ha
      have hnext : ∀ (A : List Nat) b u R' l'', R₀ = A + R' → (∀ a ∈ A, L.isPage a) →
          Account L top R' u pt T m n l'' →
          Within R₀ (t.setPage pa ((t.page pa).splice 0 r.1.length fun j => r.1.getD j 0)) u →
          Q (argv ++ [pa] ++ A, b) u := by
        intro A b u R' l'' hA hAram hu' hw'
        rw [append_assoc]
        exact hQ (pa :: A) b u R' l'' (hsplit A R' hA) (hram A hAram) hu'
          (hw.trans (hw'.mono hR0))
      have hone : ∀ b, Q (argv ++ [pa], b)
          (t.setPage pa ((t.page pa).splice 0 r.1.length fun j => r.1.getD j 0)) := by
        intro b
        have hnil := hnext [] b _ R₀ l' (Multiset.zero_add R₀).symm
          (fun a ha => absurd ha not_mem_nil) hu (Within.refl R₀ _)
        rwa [append_nil] at hnil
      exact Wp.ite_iff.mpr ⟨fun _ => ih hu hnext hone, fun _ => hone false⟩

theorem freeArgs_wp {A : List Nat} (h : Account L top R s pt T m n l)
    (hram : ∀ a ∈ A, L.isPage a) (hnd : (A + R).Nodup) {Q : Unit → Phys → Prop}
    (hQ : ∀ t l', Account L top (A + R) t pt T m n l' → Within A s t → Q () t) :
    Wp E (freeArgs L A) Q s := by
  induction A generalizing s R l with
  | nil =>
    refine hQ s l ?_ (Within.refl _ s)
    rw [coe_nil, Multiset.zero_add]
    exact h
  | cons pa A ih =>
    have hpa := hram pa mem_cons_self
    rw [← cons_coe, cons_add] at hnd
    have hnew : pa ∉ R := fun hmem =>
      (nodup_cons.mp hnd).1 (mem_add.mpr (.inr hmem))
    have hswap : (A : Multiset Nat) + (pa ::ₘ R) = (pa :: A : List Nat) + R := by
      rw [← cons_coe, add_cons, cons_add]
    rw [freeArgs]
    refine Wp.bind (kfree_wp hpa (ih (h.freed hpa hnew) ?_ ?_ ?_))
    · exact fun a ha => hram a (mem_cons_of_mem pa ha)
    · rw [add_cons]
      exact hnd
    rw [hswap]
    intro t l' ht hw
    refine hQ t l' ht fun a ha => ?_
    have hne : a ≠ pa := by
      rintro rfl
      exact ha mem_cons_self
    rw [hw a fun hmem => ha (mem_cons_of_mem pa hmem), Phys.freed_page_ne hne]

theorem sysExec_wp {tf uargv : Nat} {path : Option (Option Exe)}
    (h : Account L (procTop L tf) R s pt T m (npages sz) l) (htf : L.isPage tf) (hout : tf ∉ R)
    (hok : ∀ image t T' m' l', image.pagetable ≠ 0 →
      Account L (procTop L tf) R t image.pagetable T' m' (npages image.sz) l' →
      Within (tf ::ₘ R) s t → Q (some image) t)
    (hfail : ∀ t l', Account L (procTop L tf) R t pt T m (npages sz) l' → Within R s t →
      Q none t) : Wp E (sysExec L tf pt sz path uargv) Q s := by
  cases path with
  | none => exact hfail s l h (Within.refl R s)
  | some file =>
    unfold sysExec
    refine Wp.bind (fetchArgs_wp h fun A b t R' l' hR hram ht hw => ?_)
    rw [nil_append]
    have hnd : (A + R').Nodup := by
      rw [← hR]
      exact h.nodup
    have hAR : (A : Multiset Nat) ≤ R := by
      rw [hR]
      exact Multiset.le_add_right _ _
    have hR' : R' ≤ R := by
      rw [hR]
      exact Multiset.le_add_left _ _
    refine Wp.ite_iff.mpr ⟨fun _ => ?_, fun _ => ?_⟩
    · refine Wp.bind (exec_wp ht htf (fun hmem => hout (mem_of_le hR' hmem)) ?_ ?_)
      · intro image u T' m' l'' hpt hu hwu
        refine Wp.bind (freeArgs_wp hu hram hnd fun v l3 hv hwv => ?_)
        rw [← hR] at hv
        rw [Wp.pure_iff]
        refine hok image v T' m' l3 hpt hv ?_
        have hle := le_cons_self R tf
        have hle' : tf ::ₘ R' ≤ tf ::ₘ R := cons_le_cons tf hR'
        exact ((hw.mono hle).trans (hwu.mono hle')).trans (hwv.mono (hAR.trans hle))
      · intro u l'' hu hwu
        refine Wp.bind (freeArgs_wp hu hram hnd fun v l3 hv hwv => ?_)
        rw [← hR] at hv
        exact hfail v l3 hv ((hw.trans (hwu.mono hR')).trans (hwv.mono hAR))
    · refine Wp.bind (freeArgs_wp ht hram hnd fun v l3 hv hwv => ?_)
      rw [← hR] at hv
      exact hfail v l3 hv (hw.trans (hwv.mono hAR))

end Vm

end Xv6.Kernel
