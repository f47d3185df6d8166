import Xv6.Proofs.UserCopy
/-!
# Which strings `copyinstr` accepts

The outer loop goes page by page and the inner one byte by byte.  Together they
read up to the first zero byte, the first page that is not mapped for the user or
`max` bytes, whichever comes first.
-/

namespace Xv6.Kernel

open Xv6.Lib List

namespace Vm

variable {E : VmPanic → Prop} {s : Phys} {pt va k k' : Nat} {T : Multiset Nat} {m : Vmap}

/-- A string of `k` bytes and its terminating zero lie at `va`, accessible to the user. -/
structure StringAt (s : Phys) (m : Vmap) (va k : Nat) : Prop where
  accessible : ∀ i, i ≤ k → m.Accessible (va + i)
  nul : s.userByte m (va + k) = 0
  first : ∀ i, i < k → s.userByte m (va + i) ≠ 0

theorem StringAt.unique (h : StringAt s m va k) (h' : StringAt s m va k') : k = k' := by
  by_contra hne
  rcases Nat.lt_or_gt_of_ne hne with hlt | hlt
  · exact h'.first k hlt h.nul
  · exact h.first k' hlt h'.nul

theorem upToNul_range (f : Nat → UInt8) (c : Nat) : (∃ k, k < c ∧ f k = 0 ∧ (∀ i, i < k → f i ≠ 0) ∧
      upToNul ((List.range c).map f) = ((List.range (k + 1)).map f, true)) ∨
    ((∀ i, i < c → f i ≠ 0) ∧ upToNul ((List.range c).map f) = ((List.range c).map f, false)) := by
  induction c generalizing f with
  | zero => exact .inr ⟨fun i hi => absurd hi (Nat.not_lt_zero i), rfl⟩
  | succ c ih =>
    have hcons : ∀ n, (List.range (n + 1)).map f =
        f 0 :: (List.range n).map fun i => f (i + 1) := by
      intro n
      rw [range_succ_eq_map, map_cons, map_map]
      rfl
    by_cases h0 : f 0 = 0
    · refine .inl ⟨0, Nat.succ_pos c, h0, fun i hi => absurd hi (Nat.not_lt_zero i), ?_⟩
      rw [hcons, upToNul, if_pos h0]
      simp [h0]
    rw [hcons, upToNul, if_neg h0]
    -- below the first byte the loop is that on the rest
    have hbelow : ∀ n, (∀ i, i < n → f (i + 1) ≠ 0) → ∀ i, i < n + 1 → f i ≠ 0 := by
      intro n hn i hi
      cases i with
      | zero => exact h0
      | succ i => exact hn i (by omega)
    rcases ih fun i => f (i + 1) with ⟨k, hk, hz, hnz, heq⟩ | ⟨hnz, heq⟩
    · exact .inl ⟨k + 1, by omega, hz, hbelow k hnz, by rw [heq, hcons]⟩
    · exact .inr ⟨hbelow c hnz, by rw [heq]⟩

/-- What `copyinstr` does with at most `max` bytes at `va`: it stores `n` of them, up to the
terminating zero, or up to a page that is not accessible or to the end of the room. -/
structure Fetched (s : Phys) (m : Vmap) (va max n : Nat) (found : Bool) : Prop where
  le : n ≤ max
  yes : found = true → ∃ k, n = k + 1 ∧ StringAt s m va k
  no : found = false → (∀ i, i < n → s.userByte m (va + i) ≠ 0) ∧
    (n = max ∨ ¬m.Accessible (va + n))

namespace Fetched

variable {max n c : Nat} {found : Bool}

theorem iff (h : Fetched s m va max n found) : found = true ↔ ∃ k, k < max ∧ StringAt s m va k := by
  constructor
  · intro hf
    obtain ⟨k, rfl, hk⟩ := h.yes hf
    exact ⟨k, h.le, hk⟩
  rintro ⟨k, hlt, hk⟩
  cases found with
  | true => rfl
  | false =>
    obtain ⟨hnz, hend⟩ := h.no rfl
    have hn : n ≤ k := by
      by_contra hgt
      exact hnz k (Nat.not_le.mp hgt) hk.nul
    rcases hend with rfl | hno
    · omega
    · exact absurd (hk.accessible n hn) hno

theorem next (hacc : ∀ i, i < c → m.Accessible (va + i))
    (hnz : ∀ i, i < c → s.userByte m (va + i) ≠ 0) (hc : c ≤ max)
    (h : Fetched s m (va + c) (max - c) n found) : Fetched s m va max (c + n) found := by
  have hle := h.le
  have hsplit : ∀ i, c ≤ i → va + i = va + c + (i - c) := fun i hi => by omega
  refine ⟨by omega, ?_, ?_⟩
  · intro hf
    obtain ⟨k, rfl, hk⟩ := h.yes hf
    refine ⟨c + k, rfl, ?_, ?_, ?_⟩
    · intro i hi
      by_cases hlt : i < c
      · exact hacc i hlt
      · rw [hsplit i (by omega)]
        exact hk.accessible (i - c) (by omega)
    · rw [← Nat.add_assoc]
      exact hk.nul
    · intro i hi
      by_cases hlt : i < c
      · exact hnz i hlt
      · rw [hsplit i (by omega)]
        exact hk.first (i - c) (by omega)
  · intro hf
    obtain ⟨hrest, hend⟩ := h.no hf
    refine ⟨?_, ?_⟩
    · intro i hi
      by_cases hlt : i < c
      · exact hnz i hlt
      · rw [hsplit i (by omega)]
        exact hrest (i - c) (by omega)
    · rw [← Nat.add_assoc]
      exact hend.imp (fun hn => by omega) id

end Fetched

theorem copyinstrLoop_exact
    (hne : ∀ k pa f, k < MAXVA / PGSIZE → m k = some (pa, f) → f &&& PTE_U ≠ 0 → pa ≠ 0)
    (ht : Table s pt T m) (fuel : Nat) : ∀ srcva max : Nat, max ≤ fuel →
    Wp E (copyinstrLoop pt fuel srcva max)
      (fun r t => t = s ∧ ∃ n, Fetched s m srcva max n r.2 ∧
        r.1 = (List.range n).map fun i => s.userByte m (srcva + i)) s := by
  have hnone : ∀ srcva max, (max = 0 ∨ ¬m.Accessible srcva) → Fetched s m srcva max 0 false :=
    fun srcva max hend => ⟨Nat.zero_le _, fun h => (by cases h),
      fun _ => ⟨fun i hi => absurd hi (Nat.not_lt_zero i), hend.imp Eq.symm id⟩⟩
  induction fuel with
  | zero =>
    intro srcva max hfuel
    exact ⟨rfl, 0, hnone srcva max (.inl (by omega)), rfl⟩
  | succ fuel ih =>
    intro srcva max hfuel
    rw [copyinstrLoop]
    refine Wp.ite_iff.mpr ⟨fun hmax => ⟨rfl, 0, hnone srcva max (.inl hmax), rfl⟩, ?_⟩
    intro hmax
    refine Wp.bind (walkaddr_wp ht ?_)
    rw [Vmap.addr_congr (PGROUNDDOWN_div srcva)]
    refine Wp.ite_iff.mpr ⟨?_, ?_⟩
    · intro hzero
      have hno : ¬m.Accessible srcva := fun hacc => (Vmap.addr_ne_zero_iff hne).mpr hacc hzero
      exact ⟨rfl, 0, hnone srcva max (.inr hno), rfl⟩
    intro hpage
    have hacc := (Vmap.addr_ne_zero_iff hne).mp hpage
    have hmod : srcva % PGSIZE < PGSIZE := Nat.mod_lt _ (by decide)
    obtain ⟨c, hc⟩ : ∃ c, c = min (PGSIZE - srcva % PGSIZE) max := ⟨_, rfl⟩
    have hin : ∀ i, i < c → m.Accessible (srcva + i) := by
      intro i hi
      refine hacc.congr ?_
      rw [PGSIZE_eq] at hc hmod ⊢
      omega
    rw [Wp.bind_iff, Wp.gets_iff]
    simp only [← hc, bytesAt_user s m (show c ≤ PGSIZE - srcva % PGSIZE by omega)]
    rcases upToNul_range (fun i => s.userByte m (srcva + i)) c with
      ⟨k, hk, hz, hnz, heq⟩ | ⟨hnz, heq⟩
    · rw [heq]
      refine ⟨rfl, k + 1, ⟨by omega, fun _ => ⟨k, rfl, ?_, hz, hnz⟩, fun h => (by cases h)⟩, rfl⟩
      exact fun i hi => hin i (by omega)
    rw [heq, if_neg Bool.false_ne_true, Wp.bind_iff, add64_page hacc.1]
    by_cases hfit : max ≤ PGSIZE - srcva % PGSIZE
    · -- no room is left, and the address for the next round is not used
      refine (ih _ (max - c) (by omega)).post ?_
      rintro r t ⟨rfl, n, hr, hb⟩
      have hn := hr.le
      have hfound : r.2 = false := by
        refine Bool.eq_false_iff.mpr fun hf => ?_
        obtain ⟨k, hlt, _⟩ := hr.iff.mp hf
        omega
      have hn0 : n = 0 := by omega
      subst hn0
      refine ⟨rfl, c, ?_, ?_⟩
      · change Fetched t m srcva max c r.2
        rw [hfound]
        exact ⟨by omega, fun h => (by cases h), fun _ => ⟨hnz, .inl (by omega)⟩⟩
      · change _ ++ r.1 = _
        rw [hb, range_zero, map_nil, append_nil]
    · have hfull : PGSIZE - srcva % PGSIZE = c := by omega
      rw [hfull]
      refine (ih _ (max - c) (by omega)).post ?_
      rintro r t ⟨rfl, n, hr, hb⟩
      refine ⟨rfl, c + n, Fetched.next hin hnz (by omega) hr, ?_⟩
      change _ ++ r.1 = _
      rw [hb, range_add, map_append, map_map]
      congr 1
      refine map_congr_left fun i _ => ?_
      rw [Function.comp_apply, Nat.add_assoc]

/-- `copyinstr` accepts exactly the strings that are accessible to the user up to their
terminating zero and, with it, no longer than `max`; it stores the string and the zero, and
never more than `max` bytes. -/
theorem copyinstr_accepts_iff (h : WellFormed s pt)
    (hne : ∀ k pa f, k < MAXVA / PGSIZE → vmap s pt k = some (pa, f) → f &&& PTE_U ≠ 0 → pa ≠ 0)
    (srcva max : Nat) : ∃ bytes ok, copyinstr pt srcva max s = .ok ((bytes, ok), s) ∧
      (ok = true ↔ ∃ k, k < max ∧ StringAt s (vmap s pt) srcva k) ∧
      (∀ k, k < max → StringAt s (vmap s pt) srcva k →
        bytes = (List.range (k + 1)).map fun i => s.userByte (vmap s pt) (srcva + i)) ∧
      bytes.length ≤ max := by
  have hwp := copyinstrLoop_exact (E := fun _ => False) hne h.table max srcva max (Nat.le_refl max)
  obtain ⟨⟨bytes, ok⟩, t, hrun, rfl, n, hf, hb⟩ := hwp.returns
  refine ⟨bytes, ok, hrun, hf.iff, ?_, ?_⟩
  · intro k hlt hk
    obtain ⟨k', rfl, hk'⟩ := hf.yes (hf.iff.mpr ⟨k, hlt, hk⟩)
    rw [hk.unique hk']
    exact hb
  · rw [show bytes = _ from hb, length_map, length_range]
    exact hf.le

/-- The string at 4094 ends in the second of two pages, and there is none behind them. -/
theorem copyinstr_accepts_twoFree :
    ∃ t, mappages (PHYSTOP - 3 * PGSIZE) 0 (2 * PGSIZE) (PHYSTOP - 5 * PGSIZE)
        (PTE_R ||| PTE_W ||| PTE_U) twoFree = .ok (true, t) ∧
      copyinstr (PHYSTOP - 3 * PGSIZE) 4094 5 t = .ok (([254, 255, 0], true), t) ∧
      ∃ bytes, copyinstr (PHYSTOP - 3 * PGSIZE) (2 * PGSIZE) 5 t = .ok ((bytes, false), t) := by
  obtain ⟨t, hrun, hwf, hmap⟩ := twoFree_mapped
  have hne := (twoPages_userPages hmap).ne_zero
  have hacc := twoPages_accessible hmap
  have htext : (List.range 3).map (fun i => t.userByte (vmap t (PHYSTOP - 3 * PGSIZE)) (4094 + i)) =
      [254, 255, 0] := by
    have hget : (mappages (PHYSTOP - 3 * PGSIZE) 0 (2 * PGSIZE) (PHYSTOP - 5 * PGSIZE)
        (PTE_R ||| PTE_W ||| PTE_U) twoFree).toOption.map (fun r => (List.range 3).map fun i =>
          r.2.userByte (vmap r.2 (PHYSTOP - 3 * PGSIZE)) (4094 + i)) = some [254, 255, 0] := by
      decide +kernel
    rw [hrun] at hget
    exact Option.some.inj hget
  refine ⟨t, hrun, ?_, ?_⟩
  · obtain ⟨bytes, ok, hcopy, hok, hbytes, _⟩ := copyinstr_accepts_iff hwf hne 4094 5
    have hstring : StringAt t (vmap t (PHYSTOP - 3 * PGSIZE)) 4094 2 := by
      simp only [range_succ, range_zero, nil_append, cons_append, map_cons, map_nil,
        cons.injEq] at htext
      refine ⟨fun i hi => (hacc _).mpr ?_, htext.2.2.1, fun i hi => ?_⟩
      · rw [PGSIZE_eq]
        omega
      obtain rfl | rfl : i = 0 ∨ i = 1 := by omega
      · exact htext.1 ▸ by decide
      · exact htext.2.1 ▸ by decide
    rw [hcopy, hok.mpr ⟨2, by decide, hstring⟩, hbytes 2 (by decide) hstring, htext]
  obtain ⟨bytes, ok, hcopy, hok, _⟩ := copyinstr_accepts_iff hwf hne (2 * PGSIZE) 5
  have hno : ok = false := by
    refine Bool.eq_false_iff.mpr fun htrue => ?_
    obtain ⟨k, _, hk⟩ := hok.mp htrue
    exact Nat.lt_irrefl _ ((hacc _).mp (hk.accessible 0 (Nat.zero_le k)))
  rw [hno] at hcopy
  exact ⟨bytes, hcopy⟩

end Vm

end Xv6.Kernel
