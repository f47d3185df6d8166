import Xv6.Kernel.Read
import Xv6.Proofs.FileWrite
/-!
# How far `fileread` reaches

What a read returns and which bytes of user memory it changes, for every kind of
file.
-/

namespace Xv6.Kernel

open Xv6.Lib
open Blk

variable {mem : UserMem} {n addr i : Nat} {k : Sys} {fs : FS} {off : UInt32}

def Mem.SameOutside (mem mem' : Mem) (a n : Nat) : Prop :=
  ∀ x, ¬(a ≤ x ∧ x < a + n) → mem'.load x = mem.load x

/-- A read of at most `n` bytes that returned `r` kept to its bounds. -/
structure ReadWithin (mem mem' : UserMem) (addr : Nat) (n r : Int) : Prop where
  result : r = -1 ∨ 0 ≤ r ∧ r ≤ max n 0
  outside : (Mem.user mem).SameOutside (.user mem') addr n.toNat

section

variable {mem mem' mem'' : Mem} {a b m : Nat} {f : Nat → UInt8}

theorem Mem.readable_short (h : mem.readable a n < n) (hle : n ≤ m) :
    mem.readable a m = mem.readable a n := by
  induction n generalizing a m with
  | zero => omega
  | succ n ih =>
    obtain ⟨m, rfl⟩ : ∃ m', m = m' + 1 := ⟨m - 1, by omega⟩
    rw [readable_succ] at h ⊢
    rw [readable_succ]
    split
    · rename_i hsome
      rw [if_pos hsome] at h
      rw [ih (by omega) (by omega)]
    · rfl

namespace Mem.SameOutside

theorem refl (mem : Mem) (a n : Nat) : mem.SameOutside mem a n := fun _ _ => rfl

theorem mono (h : mem.SameOutside mem' a n) (hle : ∀ x, a ≤ x ∧ x < a + n → b ≤ x ∧ x < b + m) :
    mem.SameOutside mem' b m :=
  fun x hx => h x fun hin => hx (hle x hin)

theorem trans (h : mem.SameOutside mem' a n) (h' : mem'.SameOutside mem'' a n) :
    mem.SameOutside mem'' a n :=
  fun x hx => (h' x hx).trans (h x hx)

theorem step (h : mem.SameOutside mem' a 1) (h' : mem'.SameOutside mem'' (a + 1) n) :
    mem.SameOutside mem'' a (n + 1) :=
  (h.mono fun x hx => by omega).trans (h'.mono fun x hx => by omega)

end Mem.SameOutside

theorem Mem.Patched.sameOutside (h : mem.Patched mem' a n f) (hle : n ≤ m) :
    mem.SameOutside mem' a m := by
  intro x hx
  rw [h x, if_neg (by omega)]

end

section

variable {target : Nat} {wait : Nat → Cons → Option Cons}

theorem copyoutByte_spec (mem : UserMem) (haddr : addr < 2 ^ 64) (ch : UInt8) :
    ((copyoutByte mem addr ch).2 = true → addr + 1 < 2 ^ 64) ∧
      (Mem.user mem).SameOutside (.user (copyoutByte mem addr ch).1) addr 1 := by
  have hva : MAXVA = 2 ^ 38 := rfl
  unfold copyoutByte copyout
  rw [Nat.mod_eq_of_lt haddr]
  obtain ⟨hflag, hpatch⟩ := copyoutLoop_spec (fun _ => ch) 1 mem addr 0 1 (Nat.le_refl 1)
  refine ⟨fun hok => ?_, hpatch.sameOutside (Mem.readable_le _ _)⟩
  rw [hflag, decide_eq_true_eq] at hok
  have hload := Mem.readable_eq_iff.mp hok 0 Nat.one_pos
  rw [Nat.add_zero, Mem.load_user] at hload
  unfold walkaddr at hload
  split at hload
  · cases hload
  · omega

theorem pipereadLoop_spec (mem : UserMem) (fuel : Nat) (haddr : addr + i < 2 ^ 64) (pi : Pipe) :
    i ≤ (pipereadLoop addr fuel i pi mem).1 ∧ (pipereadLoop addr fuel i pi mem).1 ≤ i + fuel ∧
      (Mem.user mem).SameOutside (.user (pipereadLoop addr fuel i pi mem).2.1) (addr + i) fuel := by
  induction fuel generalizing i pi mem with
  | zero => exact ⟨Nat.le_refl i, Nat.le_refl i, .refl _ _ _⟩
  | succ fuel ih =>
    obtain ⟨hroom, hbyte⟩ := copyoutByte_spec mem haddr pi.first
    unfold pipereadLoop
    split
    · exact ⟨Nat.le_refl i, Nat.le_add_right _ _, .refl _ _ _⟩
    simp only
    split
    · rename_i hok
      obtain ⟨hlo, hhi, hrest⟩ := ih _ (i := i + 1) (hroom hok) pi.drop
      exact ⟨by omega, by omega, hbyte.step hrest⟩
    · exact ⟨Nat.le_refl i, Nat.le_add_right _ _, hbyte.mono fun x hx => by omega⟩

theorem consolereadLoop_spec (mem : UserMem) (wait : Nat → Cons → Option Cons)
    (haddr : addr < 2 ^ 64) (hn : n ≤ target) (cons : Cons) :
    ((consolereadLoop wait target n addr cons mem).1.1 = -1 ∨
      0 ≤ (consolereadLoop wait target n addr cons mem).1.1 ∧
      (consolereadLoop wait target n addr cons mem).1.1 ≤ target) ∧
    (Mem.user mem).SameOutside (.user (consolereadLoop wait target n addr cons mem).1.2)
      addr n := by
  induction n generalizing addr cons mem with
  | zero => exact ⟨.inr ⟨Int.natCast_nonneg _, Int.le_refl _⟩, .refl _ _ _⟩
  | succ n ih =>
    have count_le : ∀ m, 0 ≤ ((target - m : Nat) : Int) ∧ ((target - m : Nat) : Int) ≤ target :=
      fun m => ⟨Int.natCast_nonneg _, Int.ofNat_le.mpr (Nat.sub_le _ _)⟩
    unfold consolereadLoop
    split
    · exact ⟨.inl rfl, .refl _ _ _⟩
    rename_i s _
    obtain ⟨hroom, hbyte⟩ := copyoutByte_spec mem haddr s.first
    have hbyte' := hbyte.mono (b := addr) (m := n + 1) fun x hx => by omega
    simp only
    split
    · exact ⟨.inr (count_le _), .refl _ _ _⟩
    split
    · exact ⟨.inr (count_le _), hbyte'⟩
    rename_i hok
    split
    · exact ⟨.inr (count_le _), hbyte'⟩
    · obtain ⟨hres, hrest⟩ := ih _ (hroom (by simpa using hok)) (by omega) s.advance
      exact ⟨hres, hbyte.step hrest⟩

theorem piperead_within (haddr : addr < 2 ^ 64) (waited : Option Pipe) (n : Int) :
    ReadWithin mem (piperead waited mem addr n).1.2 addr n (piperead waited mem addr n).1.1 := by
  cases waited with
  | none => exact ⟨.inl rfl, .refl _ _ _⟩
  | some pi =>
    obtain ⟨_, hhi, hsame⟩ := pipereadLoop_spec mem n.toNat (i := 0) haddr pi
    refine ⟨.inr ⟨Int.natCast_nonneg _, ?_⟩, hsame⟩
    change ((pipereadLoop addr n.toNat 0 pi mem).1 : Int) ≤ max n 0
    omega

theorem consoleread_within (haddr : addr < 2 ^ 64) (cons : Cons) (n : Int) :
    ReadWithin mem (consoleread wait cons mem addr n).1.2 addr n
      (consoleread wait cons mem addr n).1.1 := by
  obtain ⟨hres, hsame⟩ :=
    consolereadLoop_spec mem wait haddr (Nat.le_refl n.toNat) cons
  refine ⟨hres.imp_right fun hr => ⟨hr.1, ?_⟩, hsame⟩
  unfold consoleread
  omega

end

/-! ## Inodes -/

def firstPiece (size off n : UInt32) : Nat :=
  min (readCount size off n) (BSIZE - off.toNat % BSIZE)

/-- What a read of an inode comes to: it copies up to the first address that is not
mapped, and counts only the pieces copied in full. -/
structure ReadInode (mem mem' : Mem) (addr : Nat) (fs : FS) (i : Nat) (off n : UInt32)
    (tot : Nat) : Prop where
  patched : mem.Patched mem' addr (mem.readable addr (readCount (fs.ino i).size off n))
    fun j => fs.byte i (off.toNat + j)
  le : tot ≤ mem.readable addr (readCount (fs.ino i).size off n)
  first : tot = 0 → readCount (fs.ino i).size off n = 0 ∨
    mem.readable addr (readCount (fs.ino i).size off n) < firstPiece (fs.ino i).size off n
  more : 0 < tot → firstPiece (fs.ino i).size off n ≤ tot
  user : ∀ m, mem = .user m → ∃ m', mem' = .user m'

section

variable {ip : InodeId} {E : Stop → Prop} {n : UInt32} {dst : Nat} {Q : Nat × Mem → Sys → Prop}

theorem readi_inode_wp {mem : Mem} (h : k.HasInode fs ip i) (hclean : fs.Clean i)
    (hE : Supply E k.blk 0)
    (hQ : ∀ t tot mem', (k.upd t ip (fs.ino i)).HasInode fs ip i → Frame k.blk t →
      ReadInode mem mem' dst fs i off n tot → Q (tot, mem') (k.upd t ip (fs.ino i))) :
    Wp E (readi ip mem dst off n) Q k := by
  have hself : fs.setIno i (fs.ino i) = fs := FS.setIno_eq_self rfl
  rw [← h.upd_self]
  refine readi_inv_wp h.holds hE h.dev (by rw [hself]; exact h.own) (by rw [hself]; exact h.live)
    (by rw [hself]; exact h.mapped)
    (J := fun tot mem' => mem.readable dst tot = tot ∧
      (mem.Patched mem' dst tot fun j => fs.byte i (off.toNat + j)) ∧
      (0 < tot → firstPiece (fs.ino i).size off n ≤ tot) ∧
      ∀ m, mem = .user m → ∃ m', mem' = .user m')
    (K := fun tot mem' => ReadInode mem mem' dst fs i off n tot)
    ⟨rfl, Mem.Patched.zero _ _ _, fun h0 => absurd h0 (Nat.lt_irrefl 0), fun m hm => ⟨m, hm⟩⟩
    ?_ ?_ ?_
  · rintro tot mem' m src hm hdef ⟨hrd, hpat, hmore, huser⟩ hsrc
    have huser' : ∀ m₀, mem = .user m₀ →
        ∃ m', (eitherCopyout mem' (dst + tot) src m).1 = .user m' := by
      intro m₀ hm0
      obtain ⟨m', rfl⟩ := huser m₀ hm0
      exact ⟨_, rfl⟩
    obtain ⟨hflag, hpatch⟩ := eitherCopyout_spec mem' (dst + tot) src m
    rw [Mem.readable_congr (hpat.isSome hrd)] at hflag hpatch
    have hadd : ∀ n, mem.readable dst (tot + n) = tot + mem.readable (dst + tot) n :=
      Mem.readable_add (Mem.readable_eq_iff.mp hrd)
    have hbytes : ∀ j, j < m → src j = fs.byte i (off.toNat + (tot + j)) := by
      intro j hj
      rw [hself] at hsrc
      have hoff : off.toNat + readCount (fs.ino i).size off n ≤ (fs.ino i).size.toNat :=
        readCount_add_le (by omega)
      obtain ⟨hlt, h0⟩ := h.mapped.at_offset (o := off.toNat + tot + j) (by omega)
      rw [hsrc j hj (hclean _ hlt h0), Nat.add_assoc]
    have hle : mem.readable (dst + tot) m ≤ m := Mem.readable_le _ _
    have hall := hpat.append hpatch fun j hj => hbytes j (Nat.lt_of_lt_of_le hj hle)
    have hfirst : tot = 0 → m = firstPiece (fs.ino i).size off n := by
      rintro rfl
      rw [hdef]
      rfl
    rw [hflag]
    refine ⟨fun hok => ?_, fun hno => ?_⟩
    · have hfull : mem.readable (dst + tot) m = m := of_decide_eq_true hok
      rw [hfull] at hall
      refine ⟨by rw [hadd, hfull], hall, fun _ => ?_, huser'⟩
      rcases Nat.eq_zero_or_pos tot with h0 | hpos
      · exact Nat.le_trans (Nat.le_of_eq (hfirst h0).symm) (Nat.le_add_left _ _)
      · exact Nat.le_trans (hmore hpos) (Nat.le_add_right _ _)
    have hshort : mem.readable (dst + tot) m < m :=
      Nat.lt_of_le_of_ne hle (of_decide_eq_false hno)
    have hcount : mem.readable dst (readCount (fs.ino i).size off n) =
        tot + mem.readable (dst + tot) m := by
      rw [show readCount (fs.ino i).size off n =
        tot + (readCount (fs.ino i).size off n - tot) by omega, hadd,
        Mem.readable_short hshort (by omega)]
    refine ⟨by rw [hcount]; exact hall, by omega, fun h0 => .inr ?_, hmore, huser'⟩
    rw [hcount, ← hfirst h0]
    omega
  · intro hbad
    have hz : readCount (fs.ino i).size off n = 0 := if_pos hbad
    refine hQ k.blk 0 mem (h.upd h.holds h.own h.live h.mapped) (Frame.refl _)
      ⟨?_, ?_, ?_, ?_, fun m hm => ⟨m, hm⟩⟩
    · rw [hz]
      exact Mem.Patched.zero _ _ _
    · exact Nat.zero_le _
    · exact fun _ => .inl hz
    · exact fun h0 => absurd h0 (Nat.lt_irrefl 0)
  · intro t tot mem' ht hf _ hres
    refine hQ t tot mem' (h.upd ht h.own h.live h.mapped) hf ?_
    rcases hres with ⟨rfl, hrd, hpat, hmore, huser⟩ | ⟨_, hK⟩
    · exact ⟨by rw [hrd]; exact hpat, Nat.le_of_eq hrd.symm, fun h0 => .inl h0, hmore, huser⟩
    · exact hK

theorem fileread_inode_wp {f : FileId} {n answer : Int}
    (h : k.Unlocked fs ip i) (hclean : fs.Clean i) (hE : Tolerant E)
    (hr : (k.ftable f).readable = true) (hkind : (k.ftable f).kind = .inode ip)
    {Q : Int × UserMem → Sys → Prop}
    (hQ : ∀ k' tot mem', ReadInode (.user mem) (.user mem') addr fs i (k.ftable f).off
      (UInt32.ofInt n) tot → Q (tot, mem') k') : Wp E (fileread f mem addr n answer) Q k := by
  unfold fileread
  rw [Wp.bind_iff, getFile_wp, if_neg (by rw [hr]; simp), hkind]
  refine Wp.bind_iff.mpr (ilock_wp h.holds (.read hE) h.entry h.live ?_)
  intro t ht hf _
  have hk := h.locked (p := k.blk.pid) ht
  refine Wp.bind_iff.mpr (readi_inode_wp hk hclean (.read hE) ?_)
  intro u tot mem' hk' hfu hread
  obtain ⟨m', rfl⟩ := hread.user mem rfl
  have hentry : (((k.withBlk t).setInode ip ((k.icache ip).lockedBy k.blk.pid (fs.ino i))).upd u ip
      (fs.ino i)).icache ip = (k.icache ip).lockedBy k.blk.pid (fs.ino i) := by
    rw [Sys.upd_icache_self, setInode_self]
    rfl
  refine Wp.bind_iff.mpr (advance_wp.mpr (Wp.bind_iff.mpr (iunlock_wp ?_ ?_ ?_)))
  · have hpid : u.pid = k.blk.pid := hfu.pid.trans hf.pid
    exact (congrArg Inode.lock hentry).trans (congrArg some hpid.symm)
  · exact le_of_le_of_eq h.entry.ref (congrArg Inode.ref hentry).symm
  · exact hQ _ tot m' hread

end

/-- A read of inode `i` does not go past an empty range: it finds nothing to read,
or it faults in its first piece and stores only what was there before. -/
def NothingRead (fs : FS) (i : Nat) (mem : UserMem) (addr : Nat) (off n : UInt32) : Prop :=
  readCount (fs.ino i).size off n = 0 ∨
    (Mem.user mem).readable addr (readCount (fs.ino i).size off n) <
        firstPiece (fs.ino i).size off n ∧
      ∀ j, j < (Mem.user mem).readable addr (readCount (fs.ino i).size off n) →
        (Mem.user mem).load (addr + j) = some (fs.byte i (off.toNat + j))

section

variable {k' : Sys} {f : FileId} {mem' : UserMem} {tot : Nat} {n : Int}

theorem ReadInode.within (h : ReadInode (.user mem) (.user mem') addr fs i off (UInt32.ofInt n) tot)
    (hn : 0 ≤ n) (hlt : n < 2 ^ 31) : ReadWithin mem mem' addr n tot := by
  have hto : (UInt32.ofInt n).toNat = n.toNat := by
    unfold UInt32.ofInt
    rw [UInt32.toNat_ofNat']
    omega
  have hle := h.le
  have hc : (Mem.user mem).readable addr (readCount (fs.ino i).size off (UInt32.ofInt n)) ≤
      readCount (fs.ino i).size off (UInt32.ofInt n) := Mem.readable_le _ _
  have hcount := readCount_le (fs.ino i).size off (UInt32.ofInt n)
  rw [hto] at hcount
  exact ⟨.inr ⟨Int.natCast_nonneg _, by omega⟩, h.patched.sameOutside (by omega)⟩

theorem ReadInode.within_negative
    (h : ReadInode (.user mem) (.user mem') addr fs i off (UInt32.ofInt n) tot) (hn : n < 0) :
    ReadWithin mem mem' addr n tot ↔ NothingRead fs i mem addr off (UInt32.ofInt n) := by
  have hle := h.le
  have hc : (Mem.user mem).readable addr (readCount (fs.ino i).size off (UInt32.ofInt n)) ≤
      readCount (fs.ino i).size off (UInt32.ofInt n) := Mem.readable_le _ _
  constructor
  · intro hw
    have htot : tot = 0 := by
      have hr := hw.result
      omega
    refine (h.first htot).imp_right fun hlt => ⟨hlt, fun j hj => ?_⟩
    have hsame := hw.outside (addr + j) (by omega)
    rw [← hsame, h.patched (addr + j), if_pos (by omega), Nat.add_sub_cancel_left]
  intro hnothing
  have htot : tot = 0 := by
    rcases hnothing with h0 | ⟨hlt, _⟩
    · omega
    by_contra hne
    have hmore := h.more (by omega)
    omega
  refine ⟨.inr ⟨by omega, by omega⟩, ?_⟩
  intro x _
  rw [h.patched x]
  split
  · rename_i hx
    rcases hnothing with h0 | ⟨_, hbyte⟩
    · omega
    have hj := hbyte (x - addr) (by omega)
    rw [show addr + (x - addr) = x by omega] at hj
    exact hj.symm
  · rfl

/-- `fileread` keeps to its bounds exactly if the length is not negative, the file is
not open for reading, is not an inode, or nothing is read from the inode. -/
theorem fileread_within_iff (hlt : n < 2 ^ 31) (haddr : addr < 2 ^ 64) {src : ReadFrom}
    (h : ∀ ip, (k.ftable f).kind = .inode ip →
      k.Unlocked fs ip (k.icache ip).inum ∧ fs.Clean (k.icache ip).inum)
    {r : Int} (hrun : filereadFrom f src mem addr n k = .ok ((r, mem'), k')) :
    ReadWithin mem mem' addr n r ↔
      0 ≤ n ∨ (k.ftable f).readable = false ∨ (∃ waited, src = .pipe waited) ∨
        ∀ ip, (k.ftable f).kind = .inode ip →
          NothingRead fs (k.icache ip).inum mem addr (k.ftable f).off (UInt32.ofInt n) := by
  have hwp : Wp (fun _ => True) (filereadFrom f src mem addr n) (fun r _ =>
      ReadWithin mem r.2 addr n r.1 ↔
        0 ≤ n ∨ (k.ftable f).readable = false ∨ (∃ waited, src = .pipe waited) ∨
          ∀ ip, (k.ftable f).kind = .inode ip →
            NothingRead fs (k.icache ip).inum mem addr (k.ftable f).off (UInt32.ofInt n)) k := by
    unfold filereadFrom
    rw [Wp.bind_iff, getFile_wp]
    refine Wp.ite_iff.mpr ⟨fun hr => ?_, fun hr => ?_⟩
    · exact iff_of_true ⟨.inl rfl, .refl _ _ _⟩ (.inr (.inl hr))
    cases src with
    | pipe waited =>
      exact iff_of_true (piperead_within haddr waited n) (.inr (.inr (.inl ⟨_, rfl⟩)))
    | other wait cons =>
      cases hkind : (k.ftable f).kind with
      | none =>
        simp only
        unfold fileread
        rw [Wp.bind_iff, getFile_wp, if_neg hr, hkind]
        exact trivial
      | device ip major =>
        have hvac : ∀ jp, FileKind.device ip major = .inode jp →
            NothingRead fs (k.icache jp).inum mem addr (k.ftable f).off (UInt32.ofInt n) :=
          fun _ hjp => by cases hjp
        simp only
        refine Wp.ite_iff.mpr ⟨fun _ => ?_, fun _ => ?_⟩
        · exact iff_of_true (consoleread_within haddr cons n)
            (.inr (.inr (.inr hvac)))
        · exact iff_of_true ⟨.inl rfl, .refl _ _ _⟩ (.inr (.inr (.inr hvac)))
      | inode ip =>
        obtain ⟨hk, hclean⟩ := h ip hkind
        refine fileread_inode_wp hk hclean (fun _ _ => trivial) (by simpa using hr) hkind ?_
        intro _ tot mem' hread
        by_cases hn : 0 ≤ n
        · exact iff_of_true (hread.within hn hlt) (.inl hn)
        refine (hread.within_negative (by omega)).trans ⟨fun hno => ?_, fun hor => ?_⟩
        · refine .inr (.inr (.inr fun jp hjp => ?_))
          cases hjp
          exact hno
        rcases hor with hn' | hr' | ⟨_, hsrc⟩ | hno
        · exact absurd hn' hn
        · exact absurd hr' hr
        · cases hsrc
        · exact hno ip rfl
  exact hwp.of_ok hrun

/-- A user memory with every page mapped and filled with ones. -/
def onesMem : UserMem := fun _ => some (Bytes.zero.splice 0 PGSIZE fun _ => 1)

def noInput : ReadFrom := .other (fun _ _ => none) Cons.initial

theorem openSys_unlocked (off : UInt32) : ∀ ip, ((openSys off).ftable openFile).kind = .inode ip →
    (openSys off).Unlocked smallFS ip ((openSys off).icache ip).inum ∧
      smallFS.Clean ((openSys off).icache ip).inum := by
  intro ip hkind
  cases hkind
  exact ⟨(openSys_rests off).unlocked, Sys.HasInode.small_clean⟩

/-- Ten bytes before the end of the file, of which only five are asked for. -/
theorem fileread_within_iff_small : ∃ mem' k',
    filereadFrom openFile noInput onesMem 100 5 (openSys 30710) = .ok ((5, mem'), k') ∧
      ReadWithin onesMem mem' 100 5 5 := by
  have hrun : ((filereadFrom openFile noInput onesMem 100 5 (openSys 30710)).toOption.map
      fun x => x.1.1) = some 5 := by
    decide +kernel
  obtain ⟨⟨r, mem'⟩, k', hok, hr⟩ := Prog.exists_ok hrun
  simp only at hr
  subst hr
  exact ⟨mem', k', hok,
    (fileread_within_iff (by decide) (by decide) (openSys_unlocked 30710) hok).mpr
      (.inl (by decide))⟩

/-- `readi` takes `n = -1` for a large number and reads the whole file. -/
theorem fileread_negative : ∃ mem' k',
    filereadFrom openFile noInput onesMem 100 (-1) (openSys 0) = .ok ((30720, mem'), k') ∧
      (Mem.user mem').load 100 ≠ (Mem.user onesMem).load 100 := by
  have hrun : ((filereadFrom openFile noInput onesMem 100 (-1) (openSys 0)).toOption.map
      fun x => (x.1.1, (Mem.user x.1.2).load 100)) = some (30720, some 0) := by
    decide +kernel
  obtain ⟨⟨r, mem'⟩, k', hok, hr⟩ := Prog.exists_ok hrun
  simp only [Prod.mk.injEq] at hr
  obtain ⟨rfl, hload⟩ := hr
  refine ⟨mem', k', hok, ?_⟩
  rw [hload]
  decide +kernel

end

end Xv6.Kernel
