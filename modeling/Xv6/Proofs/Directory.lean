import Xv6.Lib.SlotTable
import Xv6.Proofs.Op
/-!
# A directory is a table of names

The entries of a directory are the slots of a table whose keys are the first
`DIRSIZ` bytes of names.  `dirlookup` finds a key in it, `dirlink` puts one in.
-/

namespace Xv6.Kernel

open Xv6.Lib
open Blk

variable {de : Dirent} {name : Name} {fs : FS} {i n : Nat} {q : Nat → UInt8}

/-! ## Names -/

/-- The bytes of a C string that `strncmp` and `strncpy` look at: up to the first NUL,
at most `n`. -/
def cstr (p : Nat → UInt8) : Nat → List UInt8
  | 0 => []
  | n + 1 => if p 0 = 0 then [] else p 0 :: cstr (fun j => p (j + 1)) n

theorem strncmpEq_iff (p q : Nat → UInt8) (n : Nat) :
    strncmpEq p q n = true ↔ cstr p n = cstr q n := by
  induction n generalizing p q with
  | zero => exact ⟨fun _ => rfl, fun _ => rfl⟩
  | succ n ih =>
    unfold strncmpEq cstr
    by_cases hp : p 0 = 0
    · rw [if_neg (fun hx => hx.1 hp), if_pos hp, decide_eq_true_eq, hp]
      by_cases hq : q 0 = 0
      · rw [if_pos hq, hq]
        exact iff_of_true rfl rfl
      · rw [if_neg hq]
        exact iff_of_false (fun hx => hq hx.symm) (by simp)
    by_cases hpq : p 0 = q 0
    · rw [if_pos ⟨hp, hpq⟩, if_neg hp, if_neg (by rw [← hpq]; exact hp), ih, hpq]
      constructor
      · intro hx
        rw [hx]
      · intro hx
        exact (List.cons.inj hx).2
    · rw [if_neg (fun hx => hpq hx.2), if_neg hp, decide_eq_true_eq]
      refine iff_of_false hpq ?_
      split
      · simp
      · intro hx
        exact hpq (List.cons.inj hx).1

theorem cstr_congr {p : Nat → UInt8} (h : ∀ j, j < n → p j = q j) : cstr p n = cstr q n := by
  induction n generalizing p q with
  | zero => rfl
  | succ n ih =>
    unfold cstr
    rw [h 0 (Nat.succ_pos n), ih fun j hj => h (j + 1) (Nat.succ_lt_succ hj)]

/-- What two names must have in common to be the same to a directory. -/
def Name.key (name : Name) : List UInt8 := cstr name.byte DIRSIZ

namespace Dirent

variable {m m' : Nat → UInt8}

def key (de : Dirent) : List UInt8 := cstr de.byte DIRSIZ

def slot (de : Dirent) : Option (List UInt8 × Nat) :=
  if de.inum = 0 then none else some (de.key, de.inum.toNat)

theorem namecmpEq_iff : namecmpEq name.byte de.byte = true ↔ name.key = de.key :=
  strncmpEq_iff _ _ _

theorem key_entry (name : Name) (inum : Nat) : (entry name inum).key = name.key := by
  refine cstr_congr fun j hj => ?_
  unfold byte entry
  rw [dif_pos hj]
  simp only
  split
  · rfl
  rename_i hlen
  unfold Name.byte
  rw [List.getD_eq_getElem?_getD, List.getElem?_eq_none (by omega)]
  rfl

theorem slot_entry {inum : Nat} (h0 : 0 < inum) (hlt : inum < 2 ^ 16) :
    (entry name inum).slot = some (name.key, inum) := by
  have hto : (entry name inum).inum.toNat = inum := Nat.mod_eq_of_lt hlt
  unfold slot
  rw [if_neg, key_entry, hto]
  intro hz
  rw [hz] at hto
  have hzero : (0 : UInt16).toNat = 0 := rfl
  omega

theorem slot_zero : zero.slot = none := if_pos rfl

theorem decode_congr (h : ∀ j, j < DIRENT → m j = m' j) : decode m = decode m' := by
  have h16 : DIRENT = 16 := rfl
  have h14 : DIRSIZ = 14 := rfl
  unfold decode
  rw [h 0 (by omega), h 1 (by omega)]
  congr 1
  funext j
  exact h (2 + j.val) (by omega)

theorem decode_encode (de : Dirent) : decode de.encode = de := by
  obtain ⟨inum, name⟩ := de
  unfold decode
  congr 1
  · apply UInt16.toNat_inj.mp
    have hlt := inum.toNat_lt
    change ((UInt8.ofNat inum.toNat).toNat +
        256 * (UInt8.ofNat (inum.toNat / 256)).toNat) % 2 ^ 16 = _
    rw [UInt8.toNat_ofNat', UInt8.toNat_ofNat']
    omega
  · funext j
    unfold encode byte
    rw [if_neg (by omega), if_neg (by omega), show 2 + j.val - 2 = j.val by omega, dif_pos j.isLt]

end Dirent

/-! ## Entries -/

namespace FS

def dirent (fs : FS) (i n : Nat) : Dirent := Dirent.decode fun j => fs.byte i (n * DIRENT + j)

def table (fs : FS) (i : Nat) : SlotTable (List UInt8) Nat :=
  (List.range (direntRounds (fs.ino i).size)).map fun n => (fs.dirent i n).slot

/-- Inode `i` is a directory of whole entries that can be read as they were recorded. -/
structure Dir (fs : FS) (i : Nat) : Prop where
  type : (fs.ino i).type = T_DIR
  whole : (fs.ino i).size.toNat % DIRENT = 0
  clean : fs.Clean i

theorem Dir.size (h : fs.Dir i) :
    direntRounds (fs.ino i).size * DIRENT = (fs.ino i).size.toNat := by
  have hw := h.whole
  unfold direntRounds
  rw [show DIRENT = 16 from rfl] at *
  omega

@[simp] theorem length_table : List.length (fs.table i) = direntRounds (fs.ino i).size := by
  unfold table
  rw [List.length_map, List.length_range]

theorem getElem?_table : (fs.table i)[n]? =
    if n < direntRounds (fs.ino i).size then some (fs.dirent i n).slot else none := by
  unfold table
  rw [List.getElem?_map]
  split
  · rw [List.getElem?_range (by assumption)]
    rfl
  · rw [List.getElem?_eq_none (by rw [List.length_range]; omega)]
    rfl

def lookup (fs : FS) (i : Nat) (name : Name) : Option Nat := SlotTable.find (fs.table i) name.key

end FS

section

variable {k : Sys} {dp : InodeId} {E : Stop → Prop} {p : Panic} {Q : Dirent → Sys → Prop}
  {sb : Superblock} {fs' : FS} {hi inum : Nat} {torn : Nat → Prop} {s : Blk}

theorem readDirent_wp (h : k.HasInode fs dp i) (hclean : fs.Clean i) (hE : Supply E k.blk 0)
    (hn : n * DIRENT + DIRENT ≤ (fs.ino i).size.toNat)
    (hQ : ∀ t, t.Holds k.sb fs [] → Frame k.blk t → t.log = k.blk.log →
      Q (fs.dirent i n) (k.upd t dp (fs.ino i))) : Wp E (readDirent dp (n * DIRENT) p) Q k := by
  have hself : fs.setIno i (fs.ino i) = fs := FS.setIno_eq_self rfl
  have hsize := (fs.ino i).size.toNat_lt
  have hoff : (UInt32.ofNat (n * DIRENT)).toNat = n * DIRENT := by
    rw [UInt32.toNat_ofNat', Nat.mod_eq_of_lt (by omega)]
  have hlen : (UInt32.ofNat DIRENT).toNat = DIRENT := rfl
  unfold readDirent
  rw [Wp.bind_iff]
  rw [← h.upd_self]
  refine readi_kernel_wp h.holds hE h.dev (by rw [hself]; exact h.own)
    (by rw [hself]; exact h.live) (by rw [hself]; exact h.mapped)
    (by rw [hoff, hlen]; exact hn) ?_ ?_
  · intro j hj
    rw [hlen] at hj
    rw [hself, hoff]
    obtain ⟨hlt, h0⟩ := h.mapped.at_offset (o := n * DIRENT + j) (by omega)
    exact hclean _ hlt h0
  intro t m' ht hf hlog hm'
  rw [hself, hoff, hlen] at hm'
  simp only [hlen]
  rw [if_pos trivial, Wp.pure_iff]
  have hde : Dirent.decode m' = fs.dirent i n := Dirent.decode_congr hm'
  rw [hde]
  exact hQ t ht hf hlog

/-- A search through the entries of a directory from the first on.  `K` is what is
known of an entry that is passed over. -/
theorem findDirent_wp {β : Type} {body : Nat → FsM (Option β)} (h : k.HasInode fs dp i)
    {K : Nat → Prop} {Q : Option β → Sys → Prop}
    (hbody : ∀ t n, n < direntRounds (fs.ino i).size → (∀ m, m < n → K m) →
      t.Holds k.sb fs [] → Frame k.blk t → t.log = k.blk.log →
      Wp E (body n) (fun r k' => (∃ b, r = some b ∧ Q r k') ∨ r = none ∧ K n ∧
        ∃ t', k' = k.upd t' dp (fs.ino i) ∧ t'.Holds k.sb fs [] ∧ Frame k.blk t' ∧
          t'.log = k.blk.log) (k.upd t dp (fs.ino i)))
    (hnone : ∀ t, (∀ m, m < direntRounds (fs.ino i).size → K m) → t.Holds k.sb fs [] →
      Frame k.blk t → t.log = k.blk.log → Q none (k.upd t dp (fs.ino i))) :
    Wp E (Prog.findRange body 0 (direntRounds (fs.ino i).size)) Q k := by
  refine Wp.post (Wp.findRange (R := fun b k' => Q (some b) k')
    (I := fun n k' => (∀ m, m < n → K m) ∧ ∃ t, k' = k.upd t dp (fs.ino i) ∧
      t.Holds k.sb fs [] ∧ Frame k.blk t ∧ t.log = k.blk.log)
    ⟨fun m hm => absurd hm (Nat.not_lt_zero m), k.blk, h.upd_self.symm, h.holds, Frame.refl _, rfl⟩
    ?_) ?_
  · rintro n _ _ hlt ⟨hbelow, t, rfl, ht, hf, hlog⟩
    refine (hbody t n (by omega) hbelow ht hf hlog).post ?_
    rintro r k' (⟨b, rfl, hb⟩ | ⟨rfl, hn, ht'⟩)
    · exact hb
    refine ⟨fun m hm => ?_, ht'⟩
    rcases Nat.lt_succ_iff_lt_or_eq.mp hm with hm | rfl
    · exact hbelow m hm
    · exact hn
  · intro r k' hr
    cases r with
    | some b => exact hr
    | none =>
      obtain ⟨hall, t, rfl, ht, hf, hlog⟩ := hr
      rw [Nat.zero_add] at hall
      exact hnone t hall ht hf hlog

/-- `dirlookup` finds the key of the name in the table, and asks `iget` for the
inode. -/
theorem dirlookup_wp (h : k.HasInode fs dp i) (hdir : fs.Dir i) (hE : Supply E k.blk 0)
    {Q : Option (InodeId × Nat) → Sys → Prop}
    (hnone : ∀ t, fs.lookup i name = none → t.Holds k.sb fs [] → Frame k.blk t →
      t.log = k.blk.log → Q none (k.upd t dp (fs.ino i)))
    (hsome : ∀ t inum, fs.lookup i name = some inum → t.Holds k.sb fs [] → Frame k.blk t →
      t.log = k.blk.log → Wp E (iget ROOTDEV inum)
        (fun ip => Q (some (ip, SlotTable.index (fs.table i) name.key * DIRENT)))
        (k.upd t dp (fs.ino i))) : Wp E (dirlookup dp name) Q k := by
  unfold dirlookup
  rw [Wp.bind_iff, getInode_wp, ← h.copy, if_neg (fun hx => hx hdir.type)]
  have hsize := hdir.size
  refine findDirent_wp h (K := fun m => ∀ v, (fs.table i)[m]? ≠ some (some (name.key, v))) ?_ ?_
  · intro t n hn hbelow ht hf hlog
    have hk := h.upd ht h.own h.live h.mapped
    unfold dirlookupRound
    rw [Wp.bind_iff]
    have hle : n * DIRENT + DIRENT ≤ (fs.ino i).size.toNat := by
      rw [← hsize, ← Nat.succ_mul]
      exact Nat.mul_le_mul_right _ hn
    refine readDirent_wp hk hdir.clean (hE.congr hlog) hle ?_
    intro u hu hfu hlogu
    rw [Sys.upd_upd]
    have hslot : (fs.table i)[n]? = some (fs.dirent i n).slot := by
      rw [FS.getElem?_table, if_pos hn]
    refine Wp.ite_iff.mpr ⟨fun hz => ?_, fun hz => Wp.ite_iff.mpr ⟨fun hcmp => ?_, fun hcmp => ?_⟩⟩
    · refine .inr ⟨rfl, fun v hv => ?_, u, rfl, hu, hf.trans hfu, hlogu.trans hlog⟩
      rw [hslot] at hv
      unfold Dirent.slot at hv
      rw [if_pos hz] at hv
      cases hv
    · rw [Dirent.namecmpEq_iff] at hcmp
      rw [Wp.bind_iff, getInode_wp, Sys.upd_icache_self, Wp.bind_iff]
      have hat : (fs.table i)[n]? = some (some (name.key, (fs.dirent i n).inum.toNat)) := by
        rw [hslot]
        unfold Dirent.slot
        rw [if_neg hz, hcmp]
      obtain ⟨hfind, hindex⟩ := SlotTable.find_of_first hat hbelow
      have hget := hsome u _ hfind hu (hf.trans hfu) (hlogu.trans hlog)
      rw [hindex] at hget
      rw [h.dev]
      refine hget.post ?_
      intro ip k' hip
      exact .inl ⟨_, rfl, hip⟩
    · refine .inr ⟨rfl, fun v hv => ?_, u, rfl, hu, hf.trans hfu, hlogu.trans hlog⟩
      rw [hslot] at hv
      unfold Dirent.slot at hv
      rw [if_neg hz] at hv
      refine hcmp (Dirent.namecmpEq_iff.mpr ?_)
      exact (congrArg Prod.fst (Option.some.inj (Option.some.inj hv))).symm
  · intro t hall ht hf hlog
    refine hnone t (SlotTable.find_eq_none.mpr fun m v => ?_) ht hf hlog
    by_cases hm : m < direntRounds (fs.ino i).size
    · exact hall m hm v
    · rw [FS.getElem?_table, if_neg hm]
      simp

/-! ## Changing an entry -/

/-- The table of a directory after its entry `n` has been written, and what that
leaves alone. -/
structure Relinked (sb : Superblock) (fs fs' : FS) (i n : Nat) (de : Dirent) : Prop where
  dir : fs'.Dir i
  table : fs'.table i = SlotTable.put (fs.table i) n de.slot
  self : fs'.ino i = { fs.ino i with addrs := (fs'.ino i).addrs, size := (fs'.ino i).size }
  size : (fs'.ino i).size.toNat = max (fs.ino i).size.toNat (n * DIRENT + DIRENT)
  other : ∀ j, j ≠ i → fs'.ino j = fs.ino j
  same : ∀ j m, j ≠ i → fs.live sb j → m < NSLOT → fs'.slot j m = fs.slot j m
  contents : ∀ j, j ≠ i → fs.live sb j → Mapped fs j → fs'.contents j = fs.contents j
  clean : ∀ j, j ≠ i → fs.live sb j → fs.Clean j → fs'.Clean j

theorem Written.relinked (h : Written sb fs fs' i (n * DIRENT) (n * DIRENT + DIRENT) hi
      (fun o => de.encode (o - n * DIRENT)) torn)
    (htop : hi ≤ n * DIRENT + DIRENT) (htorn : ∀ b, ¬torn b) (hdir : fs.Dir i) (hmap : Mapped fs i)
    (hn : n ≤ direntRounds (fs.ino i).size) : Relinked sb fs fs' i n de := by
  have h16 : DIRENT = 16 := rfl
  have hend : hi = n * DIRENT + DIRENT := Nat.le_antisymm htop h.reach.2
  have hrounds := hdir.size
  have hsize := h.size
  have hdir' : fs'.Dir i := by
    refine ⟨?_, ?_, h.clean hdir.clean htorn⟩
    · rw [h.self]
      exact hdir.type
    rw [hsize]
    rw [h16] at *
    omega
  have hrounds' := hdir'.size
  refine ⟨hdir', ?_, h.self, hsize, h.other, h.same, fun j hj hl hm => h.contents_ne hj hl hm, ?_⟩
  · apply List.ext_getElem?
    intro m
    rw [SlotTable.getElem?_put (by rw [FS.length_table]; exact hn), FS.getElem?_table]
    rcases eq_or_ne m n with rfl | hm
    · rw [if_pos rfl, if_pos (by rw [h16] at *; omega)]
      have hde : fs'.dirent i m = de := by
        rw [← Dirent.decode_encode de]
        refine Dirent.decode_congr fun j hj => ?_
        rw [h.inside _ (Nat.le_add_right _ _) (by omega), Nat.add_sub_cancel_left]
      rw [hde]
    rw [if_neg hm, FS.getElem?_table]
    by_cases hlt : m < direntRounds (fs.ino i).size
    · rw [if_pos hlt, if_pos (by rw [h16] at *; omega)]
      have hde : fs'.dirent i m = fs.dirent i m := by
        refine Dirent.decode_congr fun j hj => ?_
        obtain ⟨hb, h0⟩ := hmap.at_offset (o := m * DIRENT + j) (by rw [h16] at *; omega)
        exact h.outside _ hb (by rw [h16] at *; omega) h0 (hdir.clean _ hb h0)
      rw [hde]
    · rw [if_neg hlt, if_neg (by rw [h16] at *; omega)]
  · intro j hj hl hclean b hb h0 hst
    rw [h.same j _ hj hl (fileSlot_lt hb)] at h0 hst
    rcases h.stale _ hst with hst | ⟨m, _, ht, _⟩
    · exact hclean b hb h0 hst
    · exact htorn m ht

/-- An entry lies in one block, so a transaction with `MAXOPBLOCKS` blocks can write it. -/
theorem WriteRoom.dirent (hE : Supply E s MAXOPBLOCKS) (hstock : Stock E sb fs 2) :
    WriteRoom E sb s fs i (n * DIRENT) DIRENT := by
  have h16 : DIRENT = 16 := rfl
  have hmax : MAXOPBLOCKS = 10 := rfl
  have htouched : blocksTouched (n * DIRENT) DIRENT ≤ 1 := by
    rw [blocksTouched, h16, BSIZE_eq]
    split <;> omega
  have hbegun : blocksBegun (n * DIRENT) DIRENT ≤ 1 := by
    rw [blocksBegun, h16, BSIZE_eq]
    omega
  have hlacks := FS.lacks_le fs i
  exact ⟨hE.mono (by omega), hstock.mono (by omega)⟩

theorem writeDirent_wp {Q : Unit → Sys → Prop} (h : k.HasInode fs dp i) (hdir : fs.Dir i)
    (hE : WriteRoom E k.sb k.blk fs i (n * DIRENT) DIRENT)
    (hn : n ≤ direntRounds (fs.ino i).size)
    (hp : MAXFILE * BSIZE < n * DIRENT + DIRENT → E (.panic p))
    (hQ : ∀ t fs', (k.upd t dp (fs'.ino i)).HasInode fs' dp i → Frame k.blk t →
      Relinked k.sb fs fs' i n de → Q () (k.upd t dp (fs'.ino i))) :
    Wp E (writeDirent dp (n * DIRENT) de p) Q k := by
  have hrounds := hdir.size
  have hlt := (fs.ino i).size.toNat_lt
  have hle : n * DIRENT ≤ (fs.ino i).size.toNat := by
    rw [← hrounds]
    exact Nat.mul_le_mul_right _ hn
  have hoff : (UInt32.ofNat (n * DIRENT)).toNat = n * DIRENT := by
    rw [UInt32.toNat_ofNat', Nat.mod_eq_of_lt (by omega)]
  have hlen : (UInt32.ofNat DIRENT).toNat = DIRENT := rfl
  unfold writeDirent
  rw [Wp.bind_iff]
  rw [← hoff, ← hlen] at hE
  refine h.writei_wp (fun _ _ => hE) ?_ ?_ ?_
  · intro hbad
    rw [hoff, hlen] at hbad
    rw [if_neg (by decide)]
    exact hp (hbad.resolve_left (by omega))
  · intro hz
    exact absurd hz (by decide)
  intro t fs' off' hi hk' hd
  rw [hoff, hlen] at hd
  have hread : (Mem.kernel de.encode).readable 0 DIRENT = DIRENT := Mem.readable_kernel _ _ _
  have hw := hd.written
  rw [hd.full hread] at hw
  rw [hlen, if_pos rfl, Wp.pure_iff]
  have hbytes : (fun o => (Mem.kernel de.encode).byte (0 + (o - n * DIRENT))) =
      fun o => de.encode (o - n * DIRENT) := by
    funext o
    rw [Nat.zero_add]
    rfl
  rw [hbytes] at hw
  exact hQ t fs' hk' hd.frame (hw.relinked hd.top (not_torn hread) hdir h.mapped hn)

theorem slot_eq_none : de.slot = none ↔ de.inum = 0 := by
  unfold Dirent.slot
  split
  · rename_i hz
    exact iff_of_true rfl hz
  · rename_i hz
    exact iff_of_false (by simp) hz

theorem findEmpty_wp (h : k.HasInode fs dp i) (hdir : fs.Dir i) (hE : Supply E k.blk 0)
    {Q : Option Nat → Sys → Prop}
    (hQ : ∀ t r, r.getD (direntRounds (fs.ino i).size) = SlotTable.free (fs.table i) →
      t.Holds k.sb fs [] → Frame k.blk t → t.log = k.blk.log → Q r (k.upd t dp (fs.ino i))) :
    Wp E (Prog.findRange (emptyRound dp) 0 (direntRounds (fs.ino i).size)) Q k := by
  have hsize := hdir.size
  refine findDirent_wp h (K := fun m => (fs.table i)[m]? ≠ some none) ?_ ?_
  · intro t n hn hbelow ht hf hlog
    have hk := h.upd ht h.own h.live h.mapped
    have hle : n * DIRENT + DIRENT ≤ (fs.ino i).size.toNat := by
      rw [← hsize, ← Nat.succ_mul]
      exact Nat.mul_le_mul_right _ hn
    have hslot : (fs.table i)[n]? = some (fs.dirent i n).slot := by
      rw [FS.getElem?_table, if_pos hn]
    unfold emptyRound
    refine Wp.bind (readDirent_wp hk hdir.clean (hE.congr hlog) hle ?_)
    intro u hu hfu hlogu
    rw [Sys.upd_upd]
    refine Wp.ite_iff.mpr ⟨fun hz => .inl ⟨n, rfl, ?_⟩, fun hz => .inr ⟨rfl, ?_, u, rfl, hu,
      hf.trans hfu, hlogu.trans hlog⟩⟩
    · refine hQ u _ ?_ hu (hf.trans hfu) (hlogu.trans hlog)
      exact (SlotTable.free_of_first (by rw [hslot, slot_eq_none.mpr hz]) hbelow).symm
    · rw [hslot]
      exact fun hx => hz (slot_eq_none.mp (Option.some.inj hx))
  · intro t hall ht hf hlog
    refine hQ t none ?_ ht hf hlog
    rw [SlotTable.free_of_full, FS.length_table]
    · rfl
    intro m
    by_cases hm : m < direntRounds (fs.ino i).size
    · exact hall m hm
    · rw [FS.getElem?_table, if_neg hm]
      simp

/-- There is no room for another entry. -/
def FS.DirFull (fs : FS) (i : Nat) : Prop :=
  MAXFILE * BSIZE < SlotTable.free (fs.table i) * DIRENT + DIRENT

/-- `dirlink` gives back the inode it finds under the name, or puts the name into the
first empty slot. -/
theorem dirlink_wp {Q : Bool → Sys → Prop} (h : k.HasInode fs dp i) (hdir : fs.Dir i)
    (hE : Supply E k.blk MAXOPBLOCKS)
    (hstock : Stock E k.sb fs 2) (hfull : fs.DirFull i → E (.panic .dirlink))
    (hfound : ∀ t v, fs.lookup i name = some v → t.Holds k.sb fs [] → Frame k.blk t →
      t.log = k.blk.log → Wp E (iget ROOTDEV v) (fun ip => Wp E (iput ip) fun _ => Q false)
        (k.upd t dp (fs.ino i)))
    (hnew : ∀ t fs', fs.lookup i name = none → (k.upd t dp (fs'.ino i)).HasInode fs' dp i →
      Frame k.blk t →
      Relinked k.sb fs fs' i (SlotTable.free (fs.table i)) (Dirent.entry name inum) →
      Q true (k.upd t dp (fs'.ino i))) : Wp E (dirlink dp name inum) Q k := by
  unfold dirlink
  rw [Wp.bind_iff]
  have hread : Supply E k.blk 0 := hE.mono (Nat.zero_le _)
  refine dirlookup_wp h hdir hread ?_ ?_
  · intro t hnone ht hf hlog
    have hk := h.upd ht h.own h.live h.mapped
    rw [Wp.bind_iff, getInode_wp, ← hk.copy]
    refine Wp.bind (findEmpty_wp hk hdir (hread.congr hlog) ?_)
    intro u r hr hu hfu hlogu
    have hk' := hk.upd hu h.own h.live h.mapped
    rw [Sys.upd_upd] at hk' ⊢
    rw [hr, Wp.bind_iff]
    refine writeDirent_wp hk' hdir (.dirent (hE.congr (hlogu.trans hlog)) hstock) ?_ hfull ?_
    · rw [← FS.length_table]
      exact SlotTable.free_le
    intro w fs' hw hfw hre
    rw [Sys.upd_upd] at hw ⊢
    rw [Wp.pure_iff]
    exact hnew w fs' hnone hw ((hf.trans hfu).trans hfw) hre
  · intro t v hv ht hf hlog
    refine (hfound t v hv ht hf hlog).post ?_
    intro ip k' hip
    simp only
    refine Wp.bind (hip.post ?_)
    intro _ k'' hq
    exact hq

end

/-! ## The root directory of the small disk -/

/-- The small system between two calls, with the root directory in entry 0 of the
inode cache. -/
def rootSys : Sys :=
  { smallSys with
    blk := smallSys.blk.withLog { smallSys.blk.log with outstanding := 0 }
    icache := Function.update smallSys.icache smallIp
      { dev := ROOTDEV, inum := 1, ref := 1, lock := none, valid := true, di := smallRoot } }

theorem smallFS_dir : smallFS.Dir 1 where
  type := congrArg Dinode.type smallFS_root
  whole := by
    rw [smallFS_root]
    rfl
  clean := fun _ _ _ hs => hs

theorem smallFS_table : smallFS.table 1 = [some (dot, 1), some (dotdot, 1), some ([102], 2)] := by
  decide +kernel

theorem smallFS_distinct : (smallFS.table 1).Distinct := by
  rw [smallFS_table]
  exact SlotTable.distinct_of_keys (by decide)

end Xv6.Kernel
