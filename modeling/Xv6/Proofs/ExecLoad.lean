import Xv6.Proofs.ExecStack
import Xv6.Proofs.FileBytes
/-!
# The image that `exec` builds

`exec` keeps the offset of the program headers in an `int`, and `loadseg` takes
the offset of a segment as a `uint`.  An image is what the file describes unless
one of these offsets does not fit.
-/

namespace Xv6.Kernel

open Xv6.Lib List

variable {content : List UInt8} {E : Stop → Prop} {ip : InodeId} {k : Sys} {fs : FS} {i : Nat}

/-! ## Reading the file -/

namespace Exe

variable {off n j : Nat} {b : UInt8}

theorem ofFile_some (h : ((ofFile content).read off n)[j]? = some b) :
    content[off + j]? = some b := by
  change (if content.length < off ∨ 2 ^ 32 ≤ off + n then [] else
    (content.drop off).take n)[j]? = some b at h
  split at h
  · cases h
  rw [List.getElem?_take] at h
  split at h
  · rwa [List.getElem?_drop] at h
  · cases h

theorem ofFile_full (h : ((ofFile content).read off n).length = n) (hn : 0 < n) :
    off + n ≤ content.length := by
  change (if content.length < off ∨ 2 ^ 32 ≤ off + n then [] else
    (content.drop off).take n).length = n at h
  split at h
  · rw [length_nil] at h
    omega
  · rw [length_take, length_drop] at h
    omega

end Exe

/-- `readi` of an inode delivers what a file with its contents does. -/
theorem Sys.HasInode.readi_ofFile
    (h : k.HasInode fs ip i) (hclean : fs.Clean i) (hE : Blk.Supply E k.blk 0)
    (f : Nat → UInt8) (dst : Nat) (off n : UInt32) :
    Wp E (readi ip (.kernel f) dst off n) (fun r _ =>
      r.2.bytes dst r.1 = (Exe.ofFile (fs.contents i)).read off.toNat n.toNat) k := by
  refine h.readi_wp hclean hE (Mem.readable_kernel _ _ _) fun t mem' _ _ _ hpatch => ?_
  rw [Sys.HasInode.bytes_of_patched hpatch]
  change _ = if (fs.contents i).length < off.toNat ∨ 2 ^ 32 ≤ off.toNat + n.toNat then []
    else ((fs.contents i).drop off.toNat).take n.toNat
  have hn := n.toNat_lt
  have hwrap : off + n < off ↔ 2 ^ 32 ≤ off.toNat + n.toNat := by
    rw [UInt32.lt_iff_toNat_lt, UInt32.toNat_add]
    omega
  have hpast : off > (fs.ino i).size ↔ (fs.contents i).length < off.toNat := by
    rw [FS.length_contents]
    exact UInt32.lt_iff_toNat_lt
  by_cases hbad : (fs.contents i).length < off.toNat ∨ 2 ^ 32 ≤ off.toNat + n.toNat
  · have hcount : readCount (fs.ino i).size off n = 0 := if_pos (hbad.imp hpast.mpr hwrap.mpr)
    rw [if_pos hbad, hcount, take_zero]
  have hcount : readCount (fs.ino i).size off n = min n.toNat
      (((fs.contents i).drop off.toNat).length) := by
    rw [length_drop, FS.length_contents]
    exact if_neg fun hx => hbad (hx.imp hpast.mp hwrap.mp)
  rw [if_neg hbad, hcount, ← take_take, take_length]

theorem readi_ofFile_small : ∃ r k',
    readi smallIp (.kernel fun _ => 0) 0 0 100 smallSys = .ok (r, k') ∧
      r.2.bytes 0 r.1 = (Exe.ofFile (smallFS.contents 2)).read 0 100 := by
  have hroom : Blk.Supply (fun _ => False) smallSys.blk 0 :=
    .inr (Sys.HasInode.small_room (by decide))
  exact (Sys.HasInode.readi_ofFile Sys.HasInode.small Sys.HasInode.small_clean hroom (fun _ => 0)
    0 0 100).returns

def Proghdr.Covers (ph : Proghdr) (k : Nat) : Prop :=
  ph.vaddr / PGSIZE ≤ k ∧ k * PGSIZE < ph.vaddr + ph.memsz

namespace Vm

variable {E : VmPanic → Prop} {L : Link} {R : Multiset Nat} {s t u t0 : Phys} {pt sz tf sz' : Nat}
  {T : Multiset Nat} {m m' m₀ : Vmap} {l argv : List Nat} {ip : Exe}
  {Q : Option Vm.Image → Phys → Prop}

/-- The pieces in which a segment is read follow each other in the file, as long as its offset
fits in 32 bits. -/
theorem segRead_ofFile (hsize : content.length < 2 ^ 32) {off c : Nat} (hoff : off < 2 ^ 32)
    {f : Nat → UInt8} (h : ∀ j, j < c → segRead (Exe.ofFile content) off c j = some (f j)) :
    ∀ j, j < c → content[off + j]? = some (f j) := by
  -- a page that was read completely ends inside the file
  have hpage : ∀ q, q * PGSIZE < c → off + q * PGSIZE < 2 ^ 32 := by
    intro q
    induction q with
    | zero =>
      intro _
      omega
    | succ q ih =>
      intro hq
      have hsucc : (q + 1) * PGSIZE = q * PGSIZE + PGSIZE := Nat.succ_mul q PGSIZE
      have hlast := h (q * PGSIZE + (PGSIZE - 1)) (by omega)
      unfold segRead at hlast
      have hdiv : (q * PGSIZE + (PGSIZE - 1)) / PGSIZE = q ∧
          (q * PGSIZE + (PGSIZE - 1)) % PGSIZE = PGSIZE - 1 := by
        rw [PGSIZE_eq]
        omega
      rw [hdiv.1, hdiv.2, Nat.mod_eq_of_lt (ih (by omega))] at hlast
      have hin := Exe.ofFile_some hlast
      obtain ⟨hlt, _⟩ := List.getElem?_eq_some_iff.mp hin
      omega
  intro j hj
  have hj' := h j hj
  unfold segRead at hj'
  have hle : j / PGSIZE * PGSIZE ≤ j := Nat.div_mul_le_self j PGSIZE
  rw [Nat.mod_eq_of_lt (hpage _ (by omega))] at hj'
  have hin := Exe.ofFile_some hj'
  have hsum := Nat.div_add_mod' j PGSIZE
  rwa [Nat.add_assoc, hsum] at hin

/-! ## The image of any file -/

def loaded (ip : Exe) : List Proghdr :=
  ip.loads (elfhdr ip).phoff.toNat (elfhdr ip).phnum.toNat

/-- The memory of a new image of size `sz`, whose last two pages are the guard page and the
stack. -/
structure ImageOf (ip : Exe) (t : Phys) (m : Vmap) (sz : Nat) : Prop where
  read : ∀ i, i < (elfhdr ip).phnum.toNat →
    (ip.read (((elfhdr ip).phoff.toNat + 56 * i) % 2 ^ 32) 56).length = 56
  mapped : ∀ a, a < sz - 2 * PGSIZE → m.Accessible a
  fits : ∀ ph ∈ loaded ip, ph.filesz ≤ ph.memsz ∧ ph.vaddr + ph.memsz ≤ sz - 2 * PGSIZE
  zero : ∀ a, a < sz - 2 * PGSIZE → (∀ ph ∈ loaded ip, ¬ph.InFile a) → t.userByte m a = 0
  bytes : (loaded ip).Pairwise (fun p q => ∀ a, ¬(p.InFile a ∧ q.InFile a)) →
    ∀ ph ∈ loaded ip, ∀ j, j < ph.filesz →
      segRead ip (ph.off % 2 ^ 32) ph.filesz j = some (t.userByte m (ph.vaddr + j))

theorem ImageOf.congr (h : ImageOf ip t m sz)
    (hacc : ∀ a, m.Accessible a → a < sz - 2 * PGSIZE → m'.Accessible a)
    (hbyte : ∀ a, m.Accessible a → a < sz - 2 * PGSIZE → u.userByte m' a = t.userByte m a) :
    ImageOf ip u m' sz where
  read := h.read
  mapped := fun a ha => hacc a (h.mapped a ha) ha
  fits := h.fits
  zero := by
    intro a ha hno
    rw [hbyte a (h.mapped a ha) ha, h.zero a ha hno]
  bytes := by
    intro hpair ph hph j hj
    obtain ⟨hfile, hmem⟩ := h.fits ph hph
    have hlt : ph.vaddr + j < sz - 2 * PGSIZE := by omega
    rw [hbyte _ (h.mapped _ hlt) hlt, h.bytes hpair ph hph j hj]

theorem ImageOf.of_loaded (hall : AllUser m (npages sz')) (hn : npages sz' ≤ 32768)
    (hread : ∀ i, i < (elfhdr ip).phnum.toNat →
      (ip.read (((elfhdr ip).phoff.toNat + 56 * i) % 2 ^ 32) 56).length = 56)
    (h : SegmentsLoaded ip (loaded ip) t0 t m₀ m 0 sz') :
    ImageOf ip t m ((npages sz' + 2) * PGSIZE) := by
  have hsz : (npages sz' + 2) * PGSIZE - 2 * PGSIZE = npages sz' * PGSIZE := by
    rw [Nat.add_mul, Nat.add_sub_cancel]
  have hzero : npages 0 = 0 := by decide
  refine ⟨hread, ?_, ?_, ?_, h.bytes⟩
  · rw [hsz]
    exact fun a => hall.accessible hn
  · rw [hsz]
    exact h.fits
  rw [hsz]
  intro a ha hno
  rw [h.frame a ha hno, hzero, Nat.zero_mul, if_neg (Nat.not_lt_zero a)]

theorem exec_image_wp (h : Account L (procTop L tf) R s pt T m (npages sz) l) (htf : L.isPage tf)
    (hout : tf ∉ R) (hok : ∀ newpt newsz argc t, ImageOf ip t (vmap t newpt) newsz →
      Q (some ⟨newpt, newsz, argc⟩) t)
    (hbad : ∀ t, Q none t) : Wp E (exec L tf pt sz (some ip) argv) Q s := by
  have hshut := procTop_shut L tf
  refine exec_stages_wp (P := fun r m' t => r.2 = true → AllUser m' (npages r.1) ∧
    npages r.1 ≤ 32768 ∧ ImageOf ip t m' ((npages r.1 + 2) * PGSIZE)) h htf ?_ ?_
    fun t _ _ _ _ _ => hbad t
  · intro newpt t T' m' l' ht
    refine loadSegments_wp ht (procTop_low L tf) hshut ?_ ?_
    · intro k hk
      exact absurd hk (Nat.not_lt_zero k)
    intro sz' b u T'' m'' l'' hu hall hw hload
    refine ⟨T'', m'', l'', hu, hw, fun hb => ⟨hall, hu.bound, ?_⟩⟩
    obtain ⟨hsegs, hread⟩ := hload hb
    exact ImageOf.of_loaded hall hu.bound hread hsegs
  intro newpt sz' u m'' t T' m' l' _ _ hP hkeep ht hw _ _
  obtain ⟨hall, hbound, himage⟩ := hP rfl
  have hsz : (npages sz' + 2) * PGSIZE - 2 * PGSIZE = npages sz' * PGSIZE := by
    rw [Nat.add_mul, Nat.add_sub_cancel]
  -- the two new pages are above the segments
  have hgrown : ImageOf ip t m' ((npages sz' + 2) * PGSIZE) := by
    have hnone : Zeroed t m' (npages sz') (npages sz') := fun k hlo hhi => by omega
    refine himage.congr (fun a _ ha => ?_) fun a _ ha => ?_
    · rw [hsz] at ha
      exact (hall.grow hkeep hnone).accessible hbound ha
    · rw [hsz] at ha
      rw [userByte_grow hall hbound hkeep hnone ha, if_pos ha]
  refine execPush_wp ht (fun v _ _ _ _ => hbad v) ?_
  intro sp argc v hv hwv hlow
  rw [← npages_mul (npages sz' + 2)] at hv
  refine execCommit_wp h hout hv (hw.trans hwv) fun x l4 hx _ hk _ _ => hok newpt _ argc x ?_
  obtain ⟨hacc, hbyte⟩ := committed_user hv hshut hx.space.table hk
  refine hgrown.congr (fun a ha _ => hacc a ha) fun a ha hlt => ?_
  rw [hbyte a ha, hlow a ha (by omega)]

/-! ## The image that a file describes -/

def hdrOff (content : List UInt8) (i : Nat) : Nat :=
  (elfhdr (Exe.ofFile content)).phoff.toNat + 56 * i

def phnum (content : List UInt8) : Nat := (elfhdr (Exe.ofFile content)).phnum.toNat

def segments (content : List UInt8) : List Proghdr :=
  ((List.range (phnum content)).map fun i => (Exe.ofFile content).header (hdrOff content i)).filter
    (·.type = ELF_PROG_LOAD)

/-- The segments are page-aligned and occupy disjoint page ranges. -/
structure PageSegments (content : List UInt8) : Prop where
  aligned : ∀ ph ∈ segments content, ph.vaddr % PGSIZE = 0
  disjoint : (segments content).Pairwise fun p q => ∀ k, ¬(p.Covers k ∧ q.Covers k)

structure Loaded (content : List UInt8) (t : Phys) (m : Vmap) (sz : Nat) : Prop where
  headers : ∀ i, i < phnum content → hdrOff content i % 2 ^ 32 = hdrOff content i ∧
    hdrOff content i + 56 ≤ content.length
  mapped : ∀ a, a < sz - 2 * PGSIZE → m.Accessible a
  bytes : ∀ ph ∈ segments content, ∀ j, j < ph.filesz → ph.vaddr + j < sz - 2 * PGSIZE ∧
    content[ph.off + j]? = some (t.userByte m (ph.vaddr + j))
  zero : ∀ a, a < sz - 2 * PGSIZE → (∀ ph ∈ segments content, ¬ph.InFile a) → t.userByte m a = 0

/-- Nothing is lost where offsets are narrowed to 32 bits. -/
def Narrow (content : List UInt8) : Prop :=
  (∀ i, i < phnum content → hdrOff content i < 2 ^ 32) ∧
    ∀ ph ∈ segments content, 0 < ph.filesz → ph.off < 2 ^ 32

theorem Loaded.narrow (hsize : content.length < 2 ^ 32) (h : Loaded content t m sz) :
    Narrow content := by
  refine ⟨fun i hi => ?_, fun ph hph hpos => ?_⟩
  · have hin := (h.headers i hi).2
    omega
  have hfirst := (h.bytes ph hph 0 hpos).2
  obtain ⟨hlt, _⟩ := List.getElem?_eq_some_iff.mp hfirst
  omega

theorem loaded_eq (h : ∀ i, i < phnum content → hdrOff content i < 2 ^ 32) :
    loaded (Exe.ofFile content) = segments content := by
  unfold loaded Exe.loads segments
  congr 1
  refine map_congr_left fun i hi => ?_
  have hlt := h i (mem_range.mp hi)
  unfold hdrOff at hlt ⊢
  rw [Nat.mod_eq_of_lt hlt]

theorem ImageOf.loaded (hsize : content.length < 2 ^ 32) (hseg : PageSegments content)
    (h : ImageOf (Exe.ofFile content) t m sz) (hn : Narrow content) : Loaded content t m sz := by
  have heq := loaded_eq hn.1
  have hfits := h.fits
  have hzero := h.zero
  have hbytes := h.bytes
  rw [heq] at hfits hzero hbytes
  -- segments in different pages have no address in common
  have hpair : (segments content).Pairwise fun p q => ∀ a, ¬(p.InFile a ∧ q.InFile a) := by
    refine hseg.disjoint.imp_of_mem ?_
    rintro p q hp hq hdis a ⟨⟨hplo, hphi⟩, hqlo, hqhi⟩
    have hpm := (hfits p hp).1
    have hqm := (hfits q hq).1
    have hle := Nat.div_mul_le_self a PGSIZE
    exact hdis (a / PGSIZE) ⟨⟨Nat.div_le_div_right hplo, by omega⟩,
      Nat.div_le_div_right hqlo, by omega⟩
  refine ⟨fun i hi => ?_, h.mapped, fun ph hph j hj => ?_, hzero⟩
  · have hlt := hn.1 i hi
    have hread := h.read i hi
    change ((Exe.ofFile content).read (hdrOff content i % 2 ^ 32) 56).length = 56 at hread
    rw [Nat.mod_eq_of_lt hlt] at hread ⊢
    exact ⟨rfl, Exe.ofFile_full hread (by decide)⟩
  · obtain ⟨hfile, hmem⟩ := hfits ph hph
    have hoff := hn.2 ph hph (by omega)
    have hseg' := hbytes hpair ph hph
    rw [Nat.mod_eq_of_lt hoff] at hseg'
    exact ⟨by omega, segRead_ofFile hsize hoff hseg' j hj⟩

/-- If `exec` succeeds, the image is what the file describes exactly when the offsets that the
code narrows to 32 bits fit. -/
theorem exec_loads_iff {p : ExecProc} (path : List UInt8) (argv : List Nat)
    (hsize : content.length < 2 ^ 32) (hseg : PageSegments content)
    (h : Account L (procTop L tf) R s p.pagetable T m (npages p.sz) l) (htf : L.isPage tf)
    (hout : tf ∉ R) :
    ∃ r p' t, execProc L tf p path (some (Exe.ofFile content)) argv s = .ok ((r, p'), t) ∧
      (r ≠ -1 → (Loaded content t (vmap t p'.pagetable) p'.sz ↔ Narrow content)) := by
  have hwp : Wp (fun _ => False) (execProc L tf p path (some (Exe.ofFile content)) argv)
      (fun r t => r.1 ≠ -1 → (Loaded content t (vmap t r.2.pagetable) r.2.sz ↔ Narrow content))
      s := by
    unfold execProc
    refine Wp.bind (exec_image_wp h htf hout ?_ ?_)
    · intro newpt newsz argc t himage _
      exact ⟨Loaded.narrow hsize, himage.loaded hsize hseg⟩
    · intro t hne
      exact absurd rfl hne
  obtain ⟨⟨r, p'⟩, t, hrun, hpost⟩ := hwp.returns
  exact ⟨r, p', t, hrun, hpost⟩

end Vm

namespace Kern

variable {hi : UInt8}

/-- A file with one segment: four bytes from offset `hi * 2 ^ 32` on, at address 0. -/
def tinyFile (hi : UInt8) : List UInt8 :=
  [0x7F, 0x45, 0x4C, 0x46] ++ List.replicate 28 0 ++ [64] ++ List.replicate 23 0 ++ [1] ++
    List.replicate 7 0 ++
  [1] ++ List.replicate 11 0 ++ [hi] ++ List.replicate 19 0 ++ [4] ++ List.replicate 7 0 ++ [4] ++
    List.replicate 15 0

theorem tinyFile_length (hi : UInt8) : (tinyFile hi).length < 2 ^ 32 := by
  have hlen : (tinyFile hi).length = 120 := rfl
  omega

theorem tinyFile_segments
    (h : (Vm.segments (tinyFile hi)).map (·.vaddr) = [0]) : Vm.PageSegments (tinyFile hi) := by
  obtain ⟨ph, hseg, hv⟩ := map_eq_singleton_iff.mp h
  refine ⟨fun q hq => ?_, ?_⟩
  · rw [hseg] at hq
    obtain rfl := mem_singleton.mp hq
    rw [hv]
    rfl
  · rw [hseg]
    exact pairwise_singleton _ _

theorem exec_tiny {k : Kern} (hk : started 24 = some k) (hhi : hi = 0 ∨ hi = 1) :
    ∃ p' t, Vm.execProc Vm.lastPages (k.proc initproc).trapframe
      ⟨(k.proc initproc).pagetable, PGSIZE, []⟩ [47] (some (Exe.ofFile (tinyFile hi))) [] k.phys =
        .ok ((0, p'), t) := by
  obtain ⟨k', T, m, l, R, hk', _, hacc, hframe, hout⟩ := started_account
  obtain rfl : k' = k := Option.some.inj (hk'.symm.trans hk)
  have hres : (started 24).map (fun k => Vm.prepared Vm.lastPages (k.proc initproc).trapframe
      (Exe.ofFile (tinyFile hi)) k.phys) = some (some (true, some (true, some true))) := by
    rcases hhi with rfl | rfl
    · decide +kernel
    · decide +kernel
  have hhead : ((Exe.ofFile (tinyFile hi)).read 0 64).length = 64 ∧
      (Vm.elfhdr (Exe.ofFile (tinyFile hi))).magic = ELF_MAGIC := by
    rcases hhi with rfl | rfl
    · decide +kernel
    · decide +kernel
  have hroom : Vm.argRoom [] ≤ PGSIZE := by decide
  rw [hk, Option.map_some] at hres
  exact Vm.execProc_succeeds [47] hacc hframe hout (fun _ ha => absurd ha not_mem_nil)
    (fun _ hb => absurd hb not_mem_nil) (Nat.zero_le _)
    (Vm.Sufficient.of_prepared hhead.1 hhead.2 (Option.some.inj hres)) hroom

/-- `init` runs a program whose offsets fit. -/
theorem exec_loads_tiny : ∃ k t p', started 24 = some k ∧
    Vm.execProc Vm.lastPages (k.proc initproc).trapframe ⟨(k.proc initproc).pagetable, PGSIZE, []⟩
      [47] (some (Exe.ofFile (tinyFile 0))) [] k.phys = .ok ((0, p'), t) ∧
    Vm.Loaded (tinyFile 0) t (Vm.vmap t p'.pagetable) p'.sz := by
  obtain ⟨k, T, m, l, R, hk, _, hacc, hframe, hout⟩ := started_account
  obtain ⟨r, p', t, hrun, hiff⟩ := Vm.exec_loads_iff
    (p := ⟨(k.proc initproc).pagetable, PGSIZE, []⟩) [47] [] (tinyFile_length 0)
    (tinyFile_segments (by decide +kernel)) hacc hframe hout
  obtain ⟨p1, t1, hok⟩ := exec_tiny hk (.inl rfl)
  rw [hrun] at hok
  cases hok
  have hnarrow : Vm.Narrow (tinyFile 0) := by
    have hoffs : (List.range (Vm.phnum (tinyFile 0))).all
        (fun i => Vm.hdrOff (tinyFile 0) i < 2 ^ 32) = true := by decide +kernel
    have hsegs : (Vm.segments (tinyFile 0)).all (fun ph => ph.off < 2 ^ 32) = true := by
      decide +kernel
    refine ⟨fun i hi => ?_, fun ph hph _ => ?_⟩
    · exact of_decide_eq_true (all_eq_true.mp hoffs i (mem_range.mpr hi))
    · exact of_decide_eq_true (all_eq_true.mp hsegs ph hph)
  exact ⟨k, t, p', hk, hrun, (hiff (by decide)).mpr hnarrow⟩

/-- With the segment at offset `2 ^ 32`, which is not in the file, `exec` succeeds. -/
theorem exec_loads_wrong : Vm.PageSegments (tinyFile 1) ∧ ∃ k t p', started 24 = some k ∧
    Vm.execProc Vm.lastPages (k.proc initproc).trapframe ⟨(k.proc initproc).pagetable, PGSIZE, []⟩
      [47] (some (Exe.ofFile (tinyFile 1))) [] k.phys = .ok ((0, p'), t) ∧
    ¬Vm.Loaded (tinyFile 1) t (Vm.vmap t p'.pagetable) p'.sz := by
  refine ⟨tinyFile_segments (by decide +kernel), ?_⟩
  obtain ⟨k, _, _, _, _, hk, _⟩ := started_account
  obtain ⟨p', t, hok⟩ := exec_tiny hk (.inr rfl)
  refine ⟨k, t, p', hk, hok, fun hloaded => ?_⟩
  have hwide : (Vm.segments (tinyFile 1)).any (fun ph => 0 < ph.filesz ∧ 2 ^ 32 ≤ ph.off) =
      true := by
    decide +kernel
  obtain ⟨ph, hph, hoff⟩ := any_eq_true.mp hwide
  obtain ⟨hpos, hlarge⟩ := of_decide_eq_true hoff
  have hsmall := (hloaded.narrow (tinyFile_length 1)).2 ph hph hpos
  omega

end Kern

end Xv6.Kernel
