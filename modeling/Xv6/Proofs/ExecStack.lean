import Xv6.Lib.Stacking
import Xv6.Proofs.ExecAtomic
import Xv6.Proofs.Sbrk
import Xv6.Proofs.UserString
/-!
# The arguments that `exec` passes

`exec` pushes the argument strings and then the array of pointers to them on a
stack of one page.  The stack pointer is rounded down to a multiple of 16 for
each of them, and compared with the page after each move.
-/

namespace Xv6.Kernel

open Xv6.Lib List

variable {s t : Phys} {pt va i : Nat} {T : Multiset Nat} {m : Vmap} {ws : List Nat}

/-- The `uint64` at virtual address `a`. -/
def Phys.userWord (s : Phys) (m : Vmap) (a : Nat) : UInt64 :=
  Bytes.u64 (fun j => s.userByte m (a + j.val) : Bytes 8) 0

theorem Phys.userWord_congr {m' : Vmap} {a b : Nat}
    (h : ∀ j, j < 8 → s.userByte m (a + j) = t.userByte m' (b + j)) :
    s.userWord m a = t.userWord m' b := by
  refine Bytes.u64_congr fun j hj => ?_
  unfold Bytes.get
  rw [Nat.zero_add, dif_pos hj, dif_pos hj]
  exact h j hj

def Phys.tfSp (s : Phys) (tf : Nat) : UInt64 := s.word tf 6

def Phys.tfA1 (s : Phys) (tf : Nat) : UInt64 := s.word tf 15

theorem Table.addr_vmap (h : Table t pt T m) : (Vm.vmap t pt).addr = m.addr := by
  funext a
  unfold Vmap.addr
  by_cases ha : MAXVA ≤ a
  · rw [if_pos ha, if_pos ha]
  have hm : Vm.vmap t pt (a / PGSIZE) = m (a / PGSIZE) :=
    h.lookup _ (Vm.vpn_lt (Vm.div_lt_MAXVA (Nat.not_le.mp ha)))
  rw [if_neg ha, if_neg ha, hm]

theorem CopiedOut.userWord
    (h : CopiedOut s t m va ((ws.length + 1) * 8) (Vm.wordBytes ws)) (hi : i ≤ ws.length)
    (hw : ws.getD i 0 < 2 ^ 64) : t.userWord m (va + 8 * i) = UInt64.ofNat (ws.getD i 0) := by
  have hback : ((Bytes.zero : Bytes 8).setU64 0 (UInt64.ofNat (ws.getD i 0))).u64 0 =
      UInt64.ofNat (ws.getD i 0) := Bytes.u64_setU64 (Nat.le_refl 8)
  refine Eq.trans (Bytes.u64_congr fun j hj => ?_) hback
  have hdiv : (8 * i + j) / 8 = i ∧ (8 * i + j) % 8 = j := by omega
  have hbyte := h.inside (8 * i + j) (by omega)
  unfold Vm.wordBytes at hbyte
  rw [hdiv.1, hdiv.2, ← Nat.add_assoc] at hbyte
  unfold Bytes.setU64
  rw [Nat.zero_add, Bytes.get_splice hj, if_pos ⟨Nat.zero_le j, by omega⟩, Nat.sub_zero,
    UInt64.toNat_ofNat_of_lt' hw, ← hbyte]
  unfold Bytes.get
  rw [dif_pos hj]

namespace Vm

variable {b : Bytes PGSIZE} {p c a oldpt oldsz sz : Nat} {ustack : List Nat}
  {Q : Option Vm.Image → Phys → Prop} {entry : UInt64} {T' : Multiset Nat} {file : Option Exe}
  {ip : Exe}

theorem strlen_spec (h : strlen b < PGSIZE) :
    b.get (strlen b) = 0 ∧ ∀ j, j < strlen b → b.get j ≠ 0 := by
  unfold strlen at h ⊢
  cases hf : (List.range PGSIZE).find? fun i => b.get i = 0 with
  | none =>
    rw [hf] at h
    exact absurd h (Nat.lt_irrefl _)
  | some k =>
    obtain ⟨hk, _, hfirst⟩ := List.find?_range_eq_some.mp hf
    refine ⟨of_decide_eq_true hk, fun j hj => ?_⟩
    have hne := hfirst j hj
    simpa using hne

/-- The sizes of what `exec` pushes: the strings and the array of pointers. -/
def argSizes (strs : List (Bytes PGSIZE)) : List Nat :=
  strs.map (strlen · + 1) ++ [(strs.length + 1) * 8]

/-- The arguments `strs` are on the stack page below `sz`: the pointers `ptrs` and
a null pointer at `sp`, and the strings where the pointers say. -/
structure ArgsAt (t : Phys) (m : Vmap) (sz sp : Nat) (strs : List (Bytes PGSIZE))
    (ptrs : List Nat) : Prop where
  aligned : sp % 16 = 0
  inside : sz - PGSIZE ≤ sp ∧ sp < sz
  page : ∀ a, sz - PGSIZE ≤ a → a < sz → m.Accessible a
  length : ptrs.length = strs.length
  pointers : ∀ i, i < strs.length → t.userWord m (sp + 8 * i) = UInt64.ofNat (ptrs.getD i 0)
  null : t.userWord m (sp + 8 * strs.length) = 0
  strings : List.Forall₂ (fun p b => StringAt t m p (strlen b) ∧
    ∀ j, j < strlen b → t.userByte m (p + j) = b.get j) ptrs strs
  within : ∀ area ∈ (ptrs ++ [sp]).zip (argSizes strs),
    sz - PGSIZE ≤ area.1 ∧ area.1 + area.2 ≤ sz
  disjoint : ((ptrs ++ [sp]).zip (argSizes strs)).Pairwise fun a b =>
    a.1 + a.2 ≤ b.1 ∨ b.1 + b.2 ≤ a.1

variable {E : VmPanic → Prop} {L : Link} {top : Vmap} {R : Multiset Nat} {u : Phys} {n k sp : Nat}
  {m' : Vmap} {l : List Nat} {strs : List (Bytes PGSIZE)} {ptrs argv : List Nat} {tf : Nat}

/-! ## Moving the stack pointer -/

theorem pushDown_eq (hal : p % 16 = 0) (hc : c ≤ p) (hp : p < 2 ^ 64) :
    pushDown p c = p - roundUp 16 c ∧ roundUp 16 c ≤ p := by
  have hadd : add64 p (2 ^ 64 - c) = p - c := by
    unfold add64
    omega
  unfold pushDown roundUp
  rw [hadd]
  omega

/-- As long as the blocks pushed so far fit in the page, moving the stack pointer is
a subtraction that does not wrap. -/
def NeverWraps (top : Nat) (ns : List Nat) : Prop :=
  ∀ xs c ys, ns = xs ++ c :: ys → room 16 xs ≤ PGSIZE →
    c ≤ top - room 16 xs ∧ pushDown (top - room 16 xs) c = top - room 16 (xs ++ [c])

theorem neverWraps {top : Nat} {ns : List Nat} (hal : top % 16 = 0) (hlo : 2 * PGSIZE ≤ top)
    (hhi : top < 2 ^ 64) (hns : ∀ c ∈ ns, c ≤ PGSIZE) : NeverWraps top ns := by
  rintro xs c ys rfl hfit
  have hc : c ≤ PGSIZE := hns c (mem_append_right xs mem_cons_self)
  have hdvd := Nat.mod_eq_zero_of_dvd (dvd_room 16 xs)
  obtain ⟨heq, _⟩ := pushDown_eq (p := top - room 16 xs) (c := c) (by omega) (by omega) (by omega)
  refine ⟨by omega, ?_⟩
  rw [heq, room_append, room_cons, room_nil, Nat.add_zero, Nat.sub_sub]

/-! ## Pushing the strings -/

theorem stack_accessible (hk : k < 32768) (hpage : ∃ pa, m k = some (pa, userFlags))
    (hlo : k * PGSIZE ≤ a) (hhi : a < (k + 1) * PGSIZE) : m.Accessible a := by
  obtain ⟨pa, hm⟩ := hpage
  have hdiv : a / PGSIZE = k := by
    rw [PGSIZE_eq] at *
    omega
  refine ⟨?_, pa, userFlags, by rw [hdiv]; exact hm, by decide⟩
  rw [MAXVA_eq]
  rw [PGSIZE_eq] at hhi
  omega

/-- The strings `strs` have been pushed from `sp` down. -/
structure Pushed (s t : Phys) (m : Vmap) (sp : Nat) (strs : List (Bytes PGSIZE)) : Prop where
  strings : List.Forall₂ (fun p b => ∀ j, j ≤ strlen b → t.userByte m (p + j) = b.get j)
    (starts 16 sp (strs.map (strlen · + 1))) strs
  frame : ∀ a, m.Accessible a → a < sp - room 16 (strs.map (strlen · + 1)) ∨ sp ≤ a →
    t.userByte m a = s.userByte m a

theorem Pushed.cons (hu : m.UserPages)
    (hone : CopiedOut s t m (sp - roundUp 16 (strlen b + 1)) (strlen b + 1) b.get)
    (hacc : ∀ i, i < strlen b + 1 → m.Accessible (sp - roundUp 16 (strlen b + 1) + i))
    (hfit : roundUp 16 (strlen b + 1) ≤ sp)
    (h : Pushed t u m (sp - roundUp 16 (strlen b + 1)) strs) : Pushed s u m sp (b :: strs) where
  strings := by
    refine List.Forall₂.cons (fun j hj => ?_) h.strings
    rw [h.frame _ (hacc j (by omega)) (.inr (Nat.le_add_right _ _)), hone.inside j (by omega)]
  frame := by
    intro a ha hout
    have hle : strlen b + 1 ≤ roundUp 16 (strlen b + 1) := le_roundUp (by decide)
    rw [map_cons, room_cons] at hout
    rw [h.frame a ha (by omega), hone.frame hu hacc ha (by omega)]

theorem pushArgs_exact {Q : Option (Nat × List Nat) → Phys → Prop}
    (h : Account L top R s pt T m n l) (hshut : Shut top)
    (hpage : ∃ pa, m k = some (pa, userFlags)) (hk : 1 ≤ k) (hkn : k < n) (hal : sp % 16 = 0)
    (hlo : k * PGSIZE ≤ sp) (hhi : sp ≤ (k + 1) * PGSIZE) (hargs : ∀ a ∈ argv, a ∉ R)
    (hstrs : argv.map s.page = strs) (hlen : ∀ b ∈ strs, strlen b < PGSIZE)
    (hcount : ustack.length + argv.length ≤ MAXARG)
    (hok : ∀ t, Account L top R t pt T m n l → Within R s t →
      room 16 (strs.map (strlen · + 1)) ≤ sp - k * PGSIZE → Pushed s t m sp strs →
      Q (some (sp - room 16 (strs.map (strlen · + 1)),
        ustack ++ starts 16 sp (strs.map (strlen · + 1)))) t)
    (hfail : ∀ t, Account L top R t pt T m n l → Within R s t →
      sp - k * PGSIZE < room 16 (strs.map (strlen · + 1)) → Q none t) :
    Wp E (pushArgs pt (k * PGSIZE) argv sp ustack) Q s := by
  have hn := h.bound
  induction argv generalizing s sp ustack strs with
  | nil =>
    subst hstrs
    have hend := hok s h (Within.refl R s) (Nat.zero_le _) ⟨List.Forall₂.nil, fun _ _ _ => rfl⟩
    rw [map_nil, map_nil, room_nil, Nat.sub_zero, starts, append_nil] at hend
    exact hend
  | cons arg rest ih =>
    rw [map_cons] at hstrs
    subst hstrs
    have hb := hlen (s.page arg) mem_cons_self
    rw [map_cons, room_cons, starts] at hok
    rw [map_cons, room_cons] at hfail
    rw [length_cons] at hcount
    obtain ⟨hdown, hfit⟩ := pushDown_eq (c := strlen (s.page arg) + 1) hal
      (by rw [PGSIZE_eq] at *; omega) (by rw [PGSIZE_eq] at *; omega)
    have hup : strlen (s.page arg) + 1 ≤ roundUp 16 (strlen (s.page arg) + 1) :=
      le_roundUp (by decide)
    rw [pushArgs, if_neg (by omega), Wp.bind_iff, Wp.gets_iff, hdown]
    refine Wp.ite_iff.mpr ⟨fun hlow => hfail s h (Within.refl R s) (by omega), fun hin => ?_⟩
    have hacc : ∀ i, i < strlen (s.page arg) + 1 →
        m.Accessible (sp - roundUp 16 (strlen (s.page arg) + 1) + i) :=
      fun i hi => stack_accessible (by omega) hpage (by omega) (by omega)
    refine Wp.bind (copyout_inside h hshut hacc fun t ht hw hcopy => ?_)
    rw [if_pos rfl]
    -- the pages with the other strings are not the user's
    have hsame : rest.map t.page = rest.map s.page := by
      refine map_congr_left fun a ha => hw a (hargs a (mem_cons_of_mem arg ha))
    have hdvd := Nat.mod_eq_zero_of_dvd (dvd_roundUp 16 (strlen (s.page arg) + 1))
    refine ih ht (by omega) (by omega) (by omega)
      (fun a ha => hargs a (mem_cons_of_mem arg ha)) hsame
      (fun b hb => hlen b (mem_cons_of_mem _ hb))
      (by rw [length_append, length_singleton]; omega) ?_ ?_
    · intro u hu hwu hroom hpushed
      rw [append_assoc, singleton_append, Nat.sub_sub]
      exact hok u hu (hw.trans hwu) (by omega)
        (Pushed.cons (h.userPages hshut) hcopy hacc hfit hpushed)
    · intro u hu hwu hroom
      exact hfail u hu (hw.trans hwu) (by omega)

/-! ## The whole stack -/

/-- The room that the arguments take on the stack. -/
def argRoom (strs : List (Bytes PGSIZE)) : Nat := room 16 (argSizes strs)

theorem argRoom_eq (strs : List (Bytes PGSIZE)) : argRoom strs =
    room 16 (strs.map (strlen · + 1)) + roundUp 16 ((strs.length + 1) * 8) := by
  unfold argRoom argSizes
  rw [room_append, room_cons, room_nil, Nat.add_zero]

theorem starts_argSizes (sz : Nat) (strs : List (Bytes PGSIZE)) : starts 16 sz (argSizes strs) =
      starts 16 sz (strs.map (strlen · + 1)) ++ [sz - argRoom strs] := by
  rw [argRoom_eq, argSizes, starts_append, ← Nat.sub_sub]
  rfl

theorem ArgsAt.of_pushed (hu : m.UserPages) (hk : k < 32768) (hlen : ∀ b ∈ strs, strlen b < PGSIZE)
    (hpage : ∃ pa, m k = some (pa, userFlags)) (hfit : argRoom strs ≤ PGSIZE)
    (h : Pushed s t m ((k + 1) * PGSIZE) strs)
    (hcopy : CopiedOut t u m ((k + 1) * PGSIZE - argRoom strs) ((strs.length + 1) * 8)
      (wordBytes (starts 16 ((k + 1) * PGSIZE) (strs.map (strlen · + 1))))) :
    ArgsAt u m ((k + 1) * PGSIZE) ((k + 1) * PGSIZE - argRoom strs) strs
      (starts 16 ((k + 1) * PGSIZE) (strs.map (strlen · + 1))) := by
  have hsz : (k + 1) * PGSIZE - PGSIZE = k * PGSIZE := by
    rw [Nat.add_mul, Nat.one_mul, Nat.add_sub_cancel]
  have hroom := argRoom_eq strs
  have hle : (strs.length + 1) * 8 ≤ roundUp 16 ((strs.length + 1) * 8) := le_roundUp (by decide)
  have hdvd : argRoom strs % 16 = 0 := Nat.mod_eq_zero_of_dvd (dvd_room 16 (argSizes strs))
  have hacc : ∀ a, k * PGSIZE ≤ a → a < (k + 1) * PGSIZE → m.Accessible a :=
    fun a => stack_accessible hk hpage
  generalize hptrs : starts 16 ((k + 1) * PGSIZE) (strs.map (strlen · + 1)) = ptrs at *
  have hcount : ptrs.length = strs.length := by
    rw [← hptrs, length_starts, length_map]
  have harray : ∀ i, i < (strs.length + 1) * 8 →
      m.Accessible ((k + 1) * PGSIZE - argRoom strs + i) :=
    fun i hi => hacc _ (by rw [PGSIZE_eq] at *; omega) (by rw [PGSIZE_eq] at *; omega)
  have hareas : (ptrs ++ [(k + 1) * PGSIZE - argRoom strs]).zip (argSizes strs) =
      (starts 16 ((k + 1) * PGSIZE) (argSizes strs)).zip (argSizes strs) := by
    rw [starts_argSizes, hptrs]
  have htop : argRoom strs ≤ (k + 1) * PGSIZE := by
    rw [PGSIZE_eq] at *
    omega
  have hword : ∀ i, i ≤ strs.length → u.userWord m ((k + 1) * PGSIZE - argRoom strs + 8 * i) =
      UInt64.ofNat (ptrs.getD i 0) := by
    intro i hi
    rw [← hcount] at hcopy hi
    refine hcopy.userWord hi ?_
    have hbound : ∀ p ∈ ptrs, p ≤ (k + 1) * PGSIZE := by
      rw [← hptrs]
      exact starts_le 16 _ _
    rw [getD_eq_getElem?_getD]
    cases hp : ptrs[i]? with
    | none => exact Nat.two_pow_pos 64
    | some p =>
      have hle' := hbound p (mem_of_getElem? hp)
      rw [PGSIZE_eq] at hle'
      rw [Option.getD_some]
      omega
  refine ⟨?_, ?_, ?_, hcount, fun i hi => hword i hi.le, ?_, ?_, ?_, ?_⟩
  · rw [PGSIZE_eq] at *
    omega
  · omega
  · rw [hsz]
    exact hacc
  · rw [hword strs.length le_rfl, getD_eq_default _ _ hcount.le]
    rfl
  · -- the array is below the strings
    obtain ⟨hlen', hstr⟩ := forall₂_iff_zip.mp h.strings
    rw [hptrs] at hlen' hstr
    refine forall₂_iff_zip.mpr ⟨hlen', fun {p b} hpb => ?_⟩
    have hmem : (p, strlen b + 1) ∈ ptrs.zip (strs.map (strlen · + 1)) := by
      rw [zip_map_right]
      exact mem_map.mpr ⟨(p, b), hpb, rfl⟩
    rw [← hptrs] at hmem
    obtain ⟨hlo, hhi⟩ := starts_inside (by decide) (by omega) _ hmem
    have hin : ∀ j, j ≤ strlen b → m.Accessible (p + j) := by
      intro j hj
      exact hacc (p + j) (by omega) (by omega)
    have hbyte : ∀ j, j ≤ strlen b → u.userByte m (p + j) = b.get j := by
      intro j hj
      rw [hcopy.frame hu harray (hin j hj) (.inr (by omega)), hstr hpb j hj]
    obtain ⟨hnul, hfirst⟩ := strlen_spec (hlen b (of_mem_zip hpb).2)
    refine ⟨⟨hin, ?_, fun j hj => ?_⟩, fun j hj => hbyte j hj.le⟩
    · rw [hbyte _ le_rfl, hnul]
    · rw [hbyte j hj.le]
      exact hfirst j hj
  · rw [hareas]
    intro area harea
    obtain ⟨hlo, hhi⟩ := starts_inside (by decide) htop area harea
    refine ⟨Nat.le_trans ?_ hlo, hhi⟩
    exact Nat.sub_le_sub_left hfit _
  · rw [hareas]
    exact (starts_below (by decide) htop).imp .inr

/-- `exec` with a stack in page `k`: it goes to `bad` when the arguments do not fit,
and otherwise commits to a stack that holds them. -/
theorem execPush_exact (h : Account L (procTop L tf) R s pt T m (k + 1) l)
    (hpage : ∃ pa, m k = some (pa, userFlags)) (hk : 1 ≤ k) (hargs : ∀ a ∈ argv, a ∉ R)
    (hstrs : argv.map s.page = strs) (hlen : ∀ b ∈ strs, strlen b < PGSIZE)
    (hcount : argv.length ≤ MAXARG - 1)
    (hbad : ∀ t (l' : List Nat), FreeList L t l' → (l' : Multiset Nat) = R → Within R s t →
      PGSIZE < argRoom strs → Q none t)
    (hcommit : ∀ t, Account L (procTop L tf) R t pt T m (k + 1) l → Within R s t →
      (∀ a, m.Accessible a → a < k * PGSIZE → t.userByte m a = s.userByte m a) →
      argRoom strs ≤ PGSIZE →
      ArgsAt t m ((k + 1) * PGSIZE) ((k + 1) * PGSIZE - argRoom strs) strs
        (starts 16 ((k + 1) * PGSIZE) (strs.map (strlen · + 1))) →
      Wp E (execCommit L tf oldpt oldsz pt ((k + 1) * PGSIZE)
        ((k + 1) * PGSIZE - argRoom strs) argv.length entry) Q t) :
    Wp E (execPush L tf oldpt oldsz pt ((k + 1) * PGSIZE) entry argv) Q s := by
  have hn := h.bound
  have hshut := procTop_shut L tf
  have hp := PGSIZE_eq
  have hbase : k * PGSIZE = 4096 * k := Nat.mul_comm k 4096
  have htop : (k + 1) * PGSIZE = 4096 * k + 4096 := Nat.mul_comm (k + 1) 4096
  have hsz : (k + 1) * PGSIZE - PGSIZE = k * PGSIZE := by omega
  have hroom := argRoom_eq strs
  have hdvd := Nat.mod_eq_zero_of_dvd (dvd_room 16 (strs.map (strlen · + 1)))
  have hnum : strs.length = argv.length := by
    rw [← hstrs, length_map]
  have hmax : MAXARG = 32 := rfl
  have hbad' : ∀ t, Account L (procTop L tf) R t pt T m (k + 1) l → Within R s t →
      PGSIZE < argRoom strs → Wp E (execBad L pt ((k + 1) * PGSIZE)) Q t := by
    intro t ht hw hbig
    rw [← npages_mul (k + 1)] at ht
    exact execBad_wp ht fun u l' hfl hl hw' => hbad u l' hfl hl (hw.trans hw') hbig
  unfold execPush
  rw [hsz, Wp.bind_iff]
  refine pushArgs_exact h hshut hpage hk (Nat.lt_succ_self k) (by omega)
    (by omega) le_rfl hargs hstrs hlen (by rw [length_nil]; omega) ?_ ?_
  · intro t ht hw hfit hpushed
    rw [Option.elim_some, nil_append, length_starts, length_map]
    obtain ⟨hdown, _⟩ := pushDown_eq
      (p := (k + 1) * PGSIZE - room 16 (strs.map (strlen · + 1))) (c := (strs.length + 1) * 8)
      (by omega) (by omega)
      (by omega)
    rw [hdown, Nat.sub_sub, ← hroom]
    rw [Wp.ite_iff]
    refine ⟨fun hlow => hbad' t ht hw (by omega), fun hin => ?_⟩
    have hfits : argRoom strs ≤ PGSIZE := by omega
    have hle : (strs.length + 1) * 8 ≤ roundUp 16 ((strs.length + 1) * 8) :=
      le_roundUp (by decide)
    have harray : ∀ i, i < (strs.length + 1) * 8 →
        m.Accessible ((k + 1) * PGSIZE - argRoom strs + i) :=
      fun i hi => stack_accessible (by omega) hpage (by omega) (by omega)
    refine Wp.bind (copyout_inside ht hshut harray fun u hu hwu hcopy => ?_)
    rw [if_pos rfl, hnum]
    refine hcommit u hu (hw.trans hwu) ?_ hfits
      (ArgsAt.of_pushed (h.userPages hshut) (by omega) hlen hpage hfits hpushed hcopy)
    intro a ha hlow
    rw [hcopy.frame (h.userPages hshut) harray ha (by omega), hpushed.frame a ha (by omega)]
  · intro t ht hw hbig
    exact hbad' t ht hw (by omega)

theorem ArgsAt.congr (h : ArgsAt t m sz sp strs ptrs)
    (hacc : ∀ a, m.Accessible a → m'.Accessible a)
    (hbyte : ∀ a, m.Accessible a → u.userByte m' a = t.userByte m a) :
    ArgsAt u m' sz sp strs ptrs := by
  have harea : (sp, (strs.length + 1) * 8) ∈ (ptrs ++ [sp]).zip (argSizes strs) := by
    unfold argSizes
    rw [zip_append (by rw [length_map, h.length])]
    exact mem_append_right _ mem_cons_self
  have hend := (h.within _ harea).2
  have hword : ∀ i, i ≤ strs.length → u.userWord m' (sp + 8 * i) = t.userWord m (sp + 8 * i) := by
    intro i hi
    refine Phys.userWord_congr fun j hj => hbyte _ (h.page _ ?_ (by omega))
    have hlo := h.inside.1
    omega
  refine ⟨h.aligned, h.inside, fun a hlo hhi => hacc a (h.page a hlo hhi), h.length, ?_, ?_, ?_,
    h.within, h.disjoint⟩
  · intro i hi
    rw [hword i hi.le, h.pointers i hi]
  · rw [hword _ le_rfl, h.null]
  refine h.strings.imp fun p b hb => ?_
  obtain ⟨hstr, hcopy⟩ := hb
  have hsame : ∀ j, j ≤ strlen b → u.userByte m' (p + j) = t.userByte m (p + j) :=
    fun j hj => hbyte _ (hstr.accessible j hj)
  refine ⟨⟨fun j hj => hacc _ (hstr.accessible j hj), ?_, fun j hj => ?_⟩, fun j hj => ?_⟩
  · rw [hsame _ le_rfl, hstr.nul]
  · rw [hsame j hj.le]
    exact hstr.first j hj
  · rw [hsame j hj.le, hcopy j hj]

theorem committed_user (hv : Account L top R t pt T m n l) (hshut : Shut top) (hx : Table u pt T' m)
    (hk : Keeps t u m m n) : (∀ a, m.Accessible a → (vmap u pt).Accessible a) ∧
      ∀ a, m.Accessible a → u.userByte (vmap u pt) a = t.userByte m a := by
  constructor
  · rintro a ⟨hlt, pa, f, hm, hf⟩
    exact ⟨hlt, pa, f, (hx.lookup _ (vpn_lt (div_lt_MAXVA hlt))).trans hm, hf⟩
  rintro a ⟨hlt, pa, f, hm, hf⟩
  have hka := hv.user_lt hshut (div_lt_MAXVA hlt) hm hf
  unfold Phys.userByte Phys.byte
  rw [hx.addr_vmap, Vmap.addr_eq hlt hm hf, (hk _ pa f hka hm).2]

theorem exec_args_wp
    (h : Account L (procTop L tf) R s pt T m (npages sz) l) (htf : L.isPage tf) (hout : tf ∉ R)
    (hargs : ∀ a ∈ argv, a ∉ R) (hstrs : argv.map s.page = strs)
    (hlen : ∀ b ∈ strs, strlen b < PGSIZE) (hcount : argv.length ≤ MAXARG - 1)
    (hok : ∀ newpt newsz t sp ptrs, argRoom strs ≤ PGSIZE →
      t.tfSp tf = UInt64.ofNat sp → t.tfA1 tf = UInt64.ofNat sp →
      ArgsAt t (vmap t newpt) newsz sp strs ptrs → Q (some ⟨newpt, newsz, argv.length⟩) t)
    (hbad : ∀ t, (∀ ip, file = some ip → Sufficient L tf ip s → PGSIZE < argRoom strs) →
      Q none t) : Wp E (exec L tf pt sz file argv) Q s := by
  have hlR : ∀ a ∈ l, a ∈ R := fun a ha => (h.mem_iff a).mpr (.inr (.inr ha))
  cases file with
  | none => exact hbad s fun ip hip => by cases hip
  | some ip =>
    refine exec_stages_wp (P := fun _ _ _ => True) h htf ?_ ?_ ?_
    · intro newpt t T' m' l' ht
      refine loadSegments_wp ht (procTop_low L tf) (procTop_shut L tf) ?_ ?_
      · intro k hk
        exact absurd hk (Nat.not_lt_zero k)
      · intro sz' b u T'' m'' l'' hu _ hw _
        exact ⟨T'', m'', l'', hu, hw, trivial⟩
    · intro newpt sz' _ _ t T' m' l' hpt _ _ _ ht hw _ hstack
      have hsame : argv.map t.page = strs := by
        rw [← hstrs]
        exact map_congr_left fun a ha => hw a fun hmem => hargs a ha (hlR a hmem)
      refine execPush_exact ht hstack (by omega) (fun a ha hmem => hargs a ha (hlR a hmem)) hsame
        hlen hcount ?_ ?_
      · intro v _ _ _ _ hbig
        exact hbad v fun _ _ _ => hbig
      intro v hv hwv _ hfit hat
      rw [← npages_mul (npages sz' + 1 + 1)] at hv
      refine execCommit_wp h hout hv (hw.trans hwv) fun x l4 hx _ hk hsp ha1 => ?_
      obtain ⟨hacc, hbyte⟩ := committed_user hv (procTop_shut L tf) hx.space.table hk
      exact hok newpt _ x _ _ hfit hsp ha1 (hat.congr hacc hbyte)
    · intro t l' _ _ _ hno
      exact hbad t fun ip' hip hs => by cases hip; exact absurd hs hno

theorem execProc_succeeds {p : Vm.ExecProc} (path : List UInt8)
    (h : Account L (procTop L tf) R s p.pagetable T m (npages p.sz) l) (htf : L.isPage tf)
    (hout : tf ∉ R) (hargs : ∀ a ∈ argv, a ∉ R) (hlen : ∀ b ∈ argv.map s.page, strlen b < PGSIZE)
    (hcount : argv.length ≤ MAXARG - 1) (hs : Sufficient L tf ip s)
    (hfit : argRoom (argv.map s.page) ≤ PGSIZE) :
    ∃ p' t, execProc L tf p path (some ip) argv s = .ok (((argv.length : Int), p'), t) := by
  have hwp : Wp (fun _ => False) (execProc L tf p path (some ip) argv)
      (fun r _ => r.1 = (argv.length : Int)) s := by
    unfold execProc
    rw [Wp.bind_iff]
    refine exec_args_wp h htf hout hargs rfl hlen hcount (fun _ _ _ _ _ _ _ _ _ => rfl) ?_
    intro t hbig
    have hlt := hbig ip rfl hs
    omega
  obtain ⟨⟨r, p'⟩, t, hrun, hr⟩ := hwp.returns
  obtain rfl : r = argv.length := hr
  exact ⟨p', t, hrun⟩

/-- The stages of `exec` before the stack, evaluated: whether there is a page table, whether
the segments are loaded, and whether there is memory for the stack. -/
def prepared (L : Link) (tf : Nat) (ip : Exe) (s : Phys) :
    Option (Bool × Option (Bool × Option Bool)) :=
  (procPagetable L tf s).toOption.map fun a => (decide (a.1 ≠ 0),
    (loadSegments L a.1 ip (elfhdr ip).phnum.toNat (elfhdr ip).phoff.toNat 0 a.2).toOption.map
      fun b => (b.1.2, (uvmalloc L a.1 (PGROUNDUP b.1.1) (add64 (PGROUNDUP b.1.1) (2 * PGSIZE))
        b.2).toOption.map fun c => decide (c.1 ≠ 0)))

theorem Sufficient.of_prepared (hlen : (ip.read 0 64).length = 64)
    (hmagic : (elfhdr ip).magic = ELF_MAGIC)
    (h : prepared L tf ip s = some (true, some (true, some true))) : Sufficient L tf ip s := by
  obtain ⟨pt, t, hpt, ha⟩ := Prog.exists_ok h
  obtain ⟨hne, hload⟩ := Prod.mk.inj ha
  obtain ⟨⟨sz, ok⟩, u, hx, hb⟩ := Prog.exists_ok hload
  obtain ⟨rfl, halloc⟩ := Prod.mk.inj hb
  obtain ⟨sz1, v, hv, hc⟩ := Prog.exists_ok halloc
  exact ⟨hlen, hmagic, pt, t, hpt, of_decide_eq_true hne, sz, u, hx, sz1, v, hv,
    of_decide_eq_true hc⟩

/-- `exec` passes its arguments: at most `MAXARG - 1` strings, each shorter than a
page.  If it succeeds, `sp` and `a1` point to an array of pointers to copies of the
strings, all on the stack page; and with a sufficient file and memory it fails
exactly when they do not fit there. -/
theorem exec_passes_arguments {p : ExecProc} (path : List UInt8) (file : Option Exe)
    (h : Account L (procTop L tf) R s p.pagetable T m (npages p.sz) l) (htf : L.isPage tf)
    (hout : tf ∉ R) (hargs : ∀ a ∈ argv, a ∉ R ∧ strlen (s.page a) < PGSIZE)
    (hcount : argv.length ≤ MAXARG - 1) :
    ∃ r p' t, execProc L tf p path file argv s = .ok ((r, p'), t) ∧
      (r ≠ -1 → r = argv.length ∧ ∃ sp ptrs, t.tfSp tf = UInt64.ofNat sp ∧
        t.tfA1 tf = UInt64.ofNat sp ∧
        ArgsAt t (vmap t p'.pagetable) p'.sz sp (argv.map s.page) ptrs) ∧
      (∀ ip, file = some ip → Sufficient L tf ip s →
        (r = -1 ↔ PGSIZE < argRoom (argv.map s.page))) ∧
      ∀ k, 2 ≤ k → k * PGSIZE < 2 ^ 64 →
        NeverWraps (k * PGSIZE) (argSizes (argv.map s.page)) := by
  have hlen : ∀ b ∈ argv.map s.page, strlen b < PGSIZE := by
    intro b hb
    obtain ⟨a, ha, rfl⟩ := mem_map.mp hb
    exact (hargs a ha).2
  have hwp : Wp (fun _ => False) (execProc L tf p path file argv)
      (fun r t => (r.1 ≠ -1 → r.1 = argv.length ∧ ∃ sp ptrs, t.tfSp tf = UInt64.ofNat sp ∧
        t.tfA1 tf = UInt64.ofNat sp ∧
        ArgsAt t (vmap t r.2.pagetable) r.2.sz sp (argv.map s.page) ptrs) ∧
        (∀ ip, file = some ip → Sufficient L tf ip s →
          (r.1 = -1 ↔ PGSIZE < argRoom (argv.map s.page)))) s := by
    unfold execProc
    refine Wp.bind (exec_args_wp h htf hout (fun a ha => (hargs a ha).1) rfl hlen hcount ?_ ?_)
    · intro newpt newsz t sp ptrs hfit hsp ha1 hat
      refine ⟨fun _ => ⟨rfl, sp, ptrs, hsp, ha1, hat⟩, fun ip _ _ => ?_⟩
      refine iff_of_false ?_ (Nat.not_lt.mpr hfit)
      simp only
      omega
    · intro t hbig
      exact ⟨fun hne => absurd rfl hne, fun ip hip hs => iff_of_true rfl (hbig ip hip hs)⟩
  obtain ⟨⟨r, p'⟩, t, hrun, hpass, hfails⟩ := hwp.returns
  refine ⟨r, p', t, hrun, hpass, hfails, fun k hk hlt => neverWraps ?_ ?_ hlt ?_⟩
  · rw [PGSIZE_eq]
    omega
  · exact Nat.mul_le_mul_right PGSIZE hk
  intro c hc
  rcases mem_append.mp hc with hc | hc
  · obtain ⟨b, hb, rfl⟩ := mem_map.mp hc
    exact hlen b hb
  rw [mem_singleton.mp hc, length_map]
  have hmax : MAXARG = 32 := rfl
  rw [PGSIZE_eq]
  omega

end Vm

namespace Kern

def hiPage : Bytes PGSIZE := ((Bytes.zero : Bytes PGSIZE).set 0 104).set 1 105

theorem headerOnly_sufficient {k : Kern} (hk : started 24 = some k) :
    Vm.Sufficient Vm.lastPages (k.proc initproc).trapframe headerOnly
      (k.phys.setPage KERNBASE hiPage) := by
  have hres : (started 24).map (fun k => Vm.prepared Vm.lastPages (k.proc initproc).trapframe
      headerOnly (k.phys.setPage KERNBASE hiPage)) =
        some (some (true, some (true, some true))) := by
    decide +kernel
  rw [hk, Option.map_some] at hres
  exact Vm.Sufficient.of_prepared (by decide) (by decide) (Option.some.inj hres)

/-- `init` runs a program with the argument `hi`. -/
theorem exec_passes_hi : ∃ k t p' sp ptrs, started 24 = some k ∧
    Vm.execProc Vm.lastPages (k.proc initproc).trapframe
      ⟨(k.proc initproc).pagetable, PGSIZE, []⟩ [47] (some headerOnly) [KERNBASE]
      (k.phys.setPage KERNBASE hiPage) = .ok ((1, p'), t) ∧
    t.tfSp (k.proc initproc).trapframe = UInt64.ofNat sp ∧
    Vm.ArgsAt t (Vm.vmap t p'.pagetable) p'.sz sp [hiPage] ptrs := by
  obtain ⟨k, T, m, l, R, hk, _, hacc, hframe, hout⟩ := started_account
  have hker : ¬Vm.lastPages.isPage KERNBASE := by
    unfold Link.isPage
    decide +kernel
  have hnot : ∀ a ∈ R, a ≠ KERNBASE := by
    rintro a ha rfl
    exact hker (hacc.ram _ ha)
  have hacc' : Account Vm.lastPages (procTop Vm.lastPages (k.proc initproc).trapframe) R
      (k.phys.setPage KERNBASE hiPage) (k.proc initproc).pagetable T m (npages PGSIZE) l := by
    refine hacc.congr rfl fun a ha => Phys.setPage_ne (hnot a ?_)
    exact (hacc.mem_iff a).mpr (ha.imp_right .inr)
  have hargs : ∀ a ∈ [KERNBASE], a ∉ R ∧
      Vm.strlen ((k.phys.setPage KERNBASE hiPage).page a) < PGSIZE := by
    intro a ha
    obtain rfl := mem_singleton.mp ha
    rw [Phys.setPage_self]
    exact ⟨fun hmem => hnot _ hmem rfl, by decide +kernel⟩
  obtain ⟨r, p', t, hrun, hpass, hfails, _⟩ := Vm.exec_passes_arguments
    (p := ⟨(k.proc initproc).pagetable, PGSIZE, []⟩) [47] (some headerOnly) hacc' hframe hout hargs
    (by decide)
  have hroom : ¬PGSIZE < Vm.argRoom [hiPage] := by
    decide +kernel
  have hiff := hfails headerOnly rfl (headerOnly_sufficient hk)
  rw [map_singleton, Phys.setPage_self] at hiff hpass
  obtain ⟨rfl, sp, ptrs, hsp, _, hat⟩ := hpass fun hr => hroom (hiff.mp hr)
  exact ⟨k, t, p', sp, ptrs, hk, hrun, hsp, hat⟩

end Kern

end Xv6.Kernel
