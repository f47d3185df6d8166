import Xv6.Lib.RedoLog
import Xv6.Proofs.View
import Mathlib.Data.List.GetD
/-!
# Committing a transaction

`write_log`, `write_head` and `install_trans` as changes to the logical
contents of the disk, with the disk writes they issue.
-/

namespace Xv6.Kernel

open Xv6.Lib Function List
open Xv6.Lib.RedoLog

variable {s : Blk} {E : Stop → Prop} {Q : Unit → Blk → Prop} {l : Log} {n : Nat}
  {names : List Nat}

/-! ## The header block -/

theorem toInt32_ofNat_toNat (h : n < 2 ^ 31) : (UInt32.ofNat n).toInt32.toInt.toNat = n := by
  have hto : (UInt32.ofNat n).toInt32.toInt = (n : Int) := by
    change (UInt32.ofNat n).toBitVec.toInt = _
    rw [BitVec.toInt_eq_toNat_of_lt]
    · simp only [UInt32.toNat_toBitVec, UInt32.toNat_ofNat']
      omega
    · simp only [UInt32.toNat_toBitVec, UInt32.toNat_ofNat']
      omega
  rw [hto]
  rfl

private theorem foldl_setU32 (f : Nat → UInt32) (b : Block) (n j : Nat)
    (hj : 4 + 4 * j + 4 ≤ BSIZE) :
    ((List.range n).foldl (fun b i => b.setU32 (4 + 4 * i) (f i)) b).u32 (4 + 4 * j) =
      if j < n then f j else b.u32 (4 + 4 * j) := by
  induction n with
  | zero => simp
  | succ n ih =>
    rw [range_succ, foldl_append, foldl_cons, foldl_nil]
    rcases eq_or_ne j n with rfl | hjn
    · rw [if_pos (by omega)]
      exact Bytes.u32_setU32 hj
    rw [Bytes.u32_setU32_ne (by omega), ih]
    by_cases hlt : j < n
    · rw [if_pos hlt, if_pos (by omega)]
    · rw [if_neg hlt, if_neg (by omega)]

private theorem foldl_setU32_head (f : Nat → UInt32) (b : Block) (n : Nat) :
    ((List.range n).foldl (fun b i => b.setU32 (4 + 4 * i) (f i)) b).u32 0 = b.u32 0 := by
  induction n with
  | zero => rfl
  | succ n ih =>
    rw [range_succ, foldl_append, foldl_cons, foldl_nil, Bytes.u32_setU32_ne (by omega), ih]

theorem headNames_headStore (b : Block) (hlen : names.length ≤ LOGSIZE)
    (hno : ∀ n ∈ names, n < 2 ^ 32) : headNames (headStore names b) = names := by
  have hlog : LOGSIZE = 30 := rfl
  have hcount : ((headStore names b).u32 0).toInt32.toInt.toNat = names.length := by
    unfold headStore
    rw [foldl_setU32_head, Bytes.u32_setU32 (by decide)]
    exact toInt32_ofNat_toNat (by omega)
  unfold headNames
  rw [hcount]
  apply ext_getElem
  · simp
  intro k hk hk'
  have hbs : BSIZE = 1024 := rfl
  have hstore : (headStore names b).u32 (4 + 4 * k) = UInt32.ofNat (names.getD k 0) := by
    unfold headStore
    rw [foldl_setU32 (fun i => UInt32.ofNat (names.getD i 0)) _ _ _ (by omega), if_pos hk']
  have hget : names.getD k 0 = names[k] := by simp [hk']
  have hsmall : names[k] < 2 ^ 32 := hno _ (getElem_mem hk')
  rw [getElem_map, getElem_range, hstore, hget, UInt32.toNat_ofNat']
  omega

theorem headNames_headStore_nil (b : Block) : headNames (headStore [] b) = [] :=
  headNames_headStore b (Nat.zero_le _) (by simp)

/-! ## Small programs -/

section

variable {i : BufId}

theorem getLog_wp {Q : Log → Blk → Prop} : Wp E getLog Q s ↔ Q s.log s := Iff.rfl

theorem putLog_wp : Wp E (putLog l) Q s ↔ Q () (s.withLog l) := Iff.rfl

theorem getBuf_wp {Q : Buf → Blk → Prop} : Wp E (getBuf i) Q s ↔ Q (s.buf i) s := Iff.rfl

theorem bdata_wp {Q : Block → Blk → Prop} : Wp E (bdata i) Q s ↔ Q (s.buf i).data s := Iff.rfl

theorem clearHead_wp : Wp E clearHead Q s ↔ Q () (s.withLog (s.log.withHead [])) := Iff.rfl

end

/-! ## The rounds of a commit -/

def Log.format (l : Log) : Format Block where
  start := l.start
  size := l.size
  decode := headNames

def noExtra : BufId → Nat := fun _ => 0

section Rounds

variable {v : Nat → Block} {T : Nat → Prop} {k : Nat} {p : List Nat} {x : BufId → Nat}

/-- The recorded blocks fit the log and the cache, and the log region has no
stale copies. -/
structure Log.Ok (l : Log) (T : Nat → Prop) : Prop where
  fits : l.format.Fits l.lh
  nodup : l.lh.Nodup
  room : l.lh.length < NBUF
  small : ∀ b ∈ l.lh, b < 2 ^ 32
  fresh : ∀ b, l.format.inLog b → ¬T b

theorem Log.getD_mem (hk : k < l.lh.length) : l.lh.getD k 0 ∈ l.lh := by
  rw [getD_eq_getElem _ _ hk]
  exact getElem_mem hk

theorem Log.Ok.copy_inLog (h : l.Ok T) (hk : k < l.lh.length) :
    l.format.inLog (l.start + k + 1) := by
  have hroom : l.lh.length + 1 ≤ l.size := h.fits.room
  constructor
  · change l.start ≤ _
    omega
  · change _ < l.start + l.size
    omega

theorem Log.Ok.start_inLog (h : l.Ok T) : l.format.inLog l.start := by
  have hroom : l.lh.length + 1 ≤ l.size := h.fits.room
  constructor
  · change l.start ≤ _
    omega
  · change _ < l.start + l.size
    omega

theorem Log.Ok.home_ne (h : l.Ok T) (hk : k < l.lh.length) : l.lh.getD k 0 ≠ l.start + k + 1 := by
  intro he
  exact h.fits.outside _ (getD_mem hk) (he ▸ h.copy_inLog hk)

theorem Log.Ok.victim (h : s.log.Ok T) (hp : p.length ≤ s.log.lh.length)
    (hat : s.At v T p noExtra []) : ∃ i, s.victim = some i := by
  apply hat.sound.exists_victim []
  · intro i _
    simp [noExtra]
  have := h.room
  simp only [length_nil]
  omega

theorem copyBlock_wp (hat : s.At v T s.log.lh noExtra []) (hok : s.log.Ok T)
    (hk : k < s.log.lh.length)
    (hQ : ∀ t, t.At (update v (s.log.start + k + 1) (v (s.log.lh.getD k 0))) T
        s.log.lh noExtra [] →
      t.log = s.log → t.pid = s.pid →
      t.writes = s.writes ++ [(s.log.start + k + 1, v (s.log.lh.getD k 0))] → Q () t) :
    Wp E (copyBlock k) Q s := by
  have hne : s.log.lh.getD k 0 ≠ s.log.start + k + 1 := hok.home_ne hk
  have hmem := Log.getD_mem hk
  unfold copyBlock
  rw [Wp.bind_iff, getLog_wp, Wp.bind_iff]
  refine hat.bread rfl (by simp) (fun _ _ => by simp [noExtra])
    (.inr (.inl (hok.victim le_rfl hat))) ?_
  intro tobuf t1 hat1 hf1 _
  -- the home block is pinned, so it is found
  have hcached : ∃ i, t1.lookup t1.log.dev (s.log.lh.getD k 0) = some i := by
    obtain ⟨i, hi, _⟩ := hat1.sound.pinned _ hmem
    exact ⟨i, hat1.sound.lookup_eq hi⟩
  rw [Wp.bind_iff]
  refine hat1.bread (by rw [hf1.log]) ?_ (fun _ _ => by simp [noExtra]) (.inl hcached) ?_
  · intro i hi
    rw [mem_singleton.mp hi, hf1.blockno]
    exact hne.symm
  intro frombuf t2 hat2 hf2 hdata2
  have hdata : (t2.buf frombuf).data = v (s.log.lh.getD k 0) := hdata2 (.inl hmem)
  have hto : tobuf ≠ frombuf := hat2.held_ne
  have hno : (t2.buf tobuf).blockno = s.log.start + k + 1 := by
    rw [hf2.other tobuf hto, hf1.blockno]
  rw [Wp.bind_iff, bdata_wp]
  rw [hdata]
  refine hat2.store_wp (by simp) ?_
  intro t4 hat4 hs4 hd4 hw4 _
  rw [hno] at hat4 hw4
  refine Wp.bind (hat4.brelse_wp (i := frombuf) (by simp) ?_ ?_)
  · intro _
    rw [hs4.other frombuf hto.symm, hf2.blockno, update_of_ne hne]
    exact hdata
  intro t5 hat5 hs5 hw5 _
  rw [erase_cons_head] at hat5
  refine hat5.brelse_wp (i := tobuf) (by simp) ?_ ?_
  · intro _
    rw [hs5.other tobuf hto, hs4.blockno, hno, update_self, hd4]
  intro t6 hat6 hs6 hw6 _
  rw [erase_cons_head] at hat6
  refine hQ t6 hat6 ?_ ?_ ?_
  · rw [hs6.log, hs5.log, hs4.log, hf2.log, hf1.log]
  · rw [hs6.pid, hs5.pid, hs4.pid, hf2.pid, hf1.pid]
  · rw [hw6, hw5, hw4, hf2.writes, hf1.writes]

theorem writeHead_wp (hat : s.At v T p x [])
    (hstart : ¬T s.log.start) (hx : ∀ i, s.Caches s.log.dev s.log.start i → x i = 0)
    (hvictim : ∃ i, s.victim = some i)
    (hQ : ∀ t, t.At (update v s.log.start (headStore s.log.lh (v s.log.start))) T p
        x [] →
      t.log = s.log → t.pid = s.pid →
      t.writes = s.writes ++ [(s.log.start, headStore s.log.lh (v s.log.start))] → Q () t) :
    Wp E writeHead Q s := by
  unfold writeHead
  rw [Wp.bind_iff, getLog_wp, Wp.bind_iff]
  refine hat.bread rfl (by simp) (fun i hi => by rw [hx i hi]; decide) (.inr (.inl hvictim)) ?_
  intro i t1 hat1 hf1 hdata1
  have hdata : (t1.buf i).data = v s.log.start := hdata1 (.inr hstart)
  rw [Wp.bind_iff, bdata_wp, hdata]
  refine hat1.store_wp (by simp) ?_
  intro t2 hat2 hs2 hd2 hw2 _
  rw [hf1.blockno] at hat2 hw2
  refine hat2.brelse_wp (i := i) (by simp) ?_ ?_
  · intro _
    rw [hs2.blockno, hf1.blockno, update_self, hd2]
  intro t3 hat3 hs3 hw3 _
  rw [erase_cons_head] at hat3
  refine hQ t3 hat3 ?_ ?_ ?_
  · rw [hs3.log, hs2.log, hf1.log]
  · rw [hs3.pid, hs2.pid, hf1.pid]
  · rw [hw3, hw2, hf1.writes]

/-- One round of `install_trans` in a commit: the copy in the log is what the
home block should hold. -/
theorem installBlock_wp (hat : s.At v T (s.log.lh.drop k) noExtra []) (hok : s.log.Ok T)
    (hk : k < s.log.lh.length) (hcopy : v (s.log.start + k + 1) = v (s.log.lh.getD k 0))
    (hQ : ∀ t, t.At v T (s.log.lh.drop (k + 1)) noExtra [] →
      t.log = s.log → t.pid = s.pid →
      t.writes = s.writes ++ [(s.log.lh.getD k 0, v (s.log.lh.getD k 0))] → Q () t) :
    Wp E (installBlock k) Q s := by
  have hne : s.log.lh.getD k 0 ≠ s.log.start + k + 1 := hok.home_ne hk
  have hdrop : s.log.lh.drop k = s.log.lh.getD k 0 :: s.log.lh.drop (k + 1) := by
    rw [drop_eq_getElem_cons hk, getD_eq_getElem _ _ hk]
  have hnew : s.log.lh.getD k 0 ∉ s.log.lh.drop (k + 1) := by
    have hnd : (s.log.lh.drop k).Nodup := hok.nodup.sublist (drop_sublist _ _)
    rw [hdrop] at hnd
    exact (nodup_cons.mp hnd).1
  have hfresh : ¬T (s.log.start + k + 1) := hok.fresh _ (hok.copy_inLog hk)
  rw [hdrop] at hat
  unfold installBlock
  rw [Wp.bind_iff, getLog_wp, Wp.bind_iff]
  refine hat.bread rfl (by simp) (fun _ _ => by simp [noExtra])
    (.inr (.inl (hok.victim (by rw [← hdrop]; simp) hat))) ?_
  intro lbuf t1 hat1 hf1 hdata1
  have hcached : ∃ i, t1.lookup t1.log.dev (s.log.lh.getD k 0) = some i := by
    obtain ⟨i, hi, _⟩ := hat1.sound.pinned _ mem_cons_self
    exact ⟨i, hat1.sound.lookup_eq hi⟩
  rw [Wp.bind_iff]
  refine hat1.bread (by rw [hf1.log]) ?_ (fun _ _ => by simp [noExtra]) (.inl hcached) ?_
  · intro i hi
    rw [mem_singleton.mp hi, hf1.blockno]
    exact hne.symm
  intro dbuf t2 hat2 hf2 _
  have hld : lbuf ≠ dbuf := hat2.held_ne
  have hdata : (t2.buf lbuf).data = v (s.log.lh.getD k 0) := by
    rw [hf2.other lbuf hld, hdata1 (.inr hfresh), hcopy]
  rw [Wp.bind_iff, bdata_wp, hdata]
  refine hat2.store_wp (by simp) ?_
  intro t4 hat4 hs4 hd4 hw4 hdisk4
  rw [hf2.blockno] at hat4 hw4 hdisk4
  rw [update_eq_self] at hat4
  refine Wp.bind (hat4.bunpin_wp (i := dbuf) (by simp) ?_ hnew ?_ ?_)
  · rw [hs4.blockno, hf2.blockno]
  · rw [hdisk4, update_self]
  intro t5 hat5 hs5 hd5 hw5
  have hlbuf : t5.buf lbuf = t2.buf lbuf := by
    rw [hs5.other lbuf hld, hs4.other lbuf hld]
  refine Wp.bind (hat5.brelse_wp (i := lbuf) (by simp) ?_ ?_)
  · intro _
    rw [hlbuf, hdata, hf2.other lbuf hld, hf1.blockno, hcopy]
  intro t6 hat6 hs6 hw6 _
  have herase : [dbuf, lbuf].erase lbuf = [dbuf] := by
    rw [erase_cons_tail (by simpa using hld.symm), erase_cons_head]
  rw [herase] at hat6
  refine hat6.brelse_wp (i := dbuf) (by simp) ?_ ?_
  · intro _
    rw [hs6.other dbuf hld.symm, hs5.blockno, hs4.blockno, hf2.blockno, hd5, hd4]
  intro t7 hat7 hs7 hw7 _
  rw [erase_cons_head] at hat7
  refine hQ t7 hat7 ?_ ?_ ?_
  · rw [hs7.log, hs6.log, hs5.log, hs4.log, hf2.log, hf1.log]
  · rw [hs7.pid, hs6.pid, hs5.pid, hs4.pid, hf2.pid, hf1.pid]
  · rw [hw7, hw6, hw5, hw4, hf2.writes, hf1.writes]

/-! ## The loops -/

/-- Rounds that write one block each and do not touch the log's record. -/
theorem rounds_wp {f : Nat → BlkM Unit} {I : Nat → Blk → Prop} (w : Nat → Nat × Block) (h0 : I 0 s)
    (hround : ∀ k t, k < n → I k t → t.log = s.log → Wp E (f k) (fun _ u => I (k + 1) u ∧
      u.log = t.log ∧ u.pid = t.pid ∧ u.writes = t.writes ++ [w k]) t)
    (hQ : ∀ t, I n t → t.log = s.log → t.pid = s.pid →
      t.writes = s.writes ++ (List.range n).map w → Q () t) : Wp E (Prog.forRange f 0 n) Q s := by
  refine Wp.post (Wp.forRange (I := fun k t => I k t ∧ t.log = s.log ∧ t.pid = s.pid ∧
    t.writes = s.writes ++ (List.range k).map w) ⟨h0, rfl, rfl, by simp⟩ ?_) ?_
  · rintro k t _ hk ⟨hI, hlog, hpid, hw⟩
    refine (hround k t (by omega) hI hlog).post ?_
    rintro _ u ⟨hI', hlog', hpid', hw'⟩
    refine ⟨hI', hlog'.trans hlog, hpid'.trans hpid, ?_⟩
    rw [hw', hw, range_succ, map_append, append_assoc]
    rfl
  · rintro _ t ⟨hI, hlog, hpid, hw⟩
    rw [Nat.zero_add] at hI hw
    exact hQ t hI hlog hpid hw

theorem writeLog_wp (hat : s.At v T s.log.lh noExtra []) (hok : s.log.Ok T)
    (hQ : ∀ t, t.At (applyWrites (s.log.format.copies s.log.lh v) v) T s.log.lh noExtra [] →
      t.log = s.log → t.pid = s.pid →
      t.writes = s.writes ++ s.log.format.copies s.log.lh v → Q () t) : Wp E writeLog Q s := by
  let w : Nat → Nat × Block := fun j => (s.log.start + 1 + j, v (s.log.lh.getD j 0))
  unfold writeLog
  rw [Wp.bind_iff, getLog_wp]
  refine rounds_wp (I := fun k t =>
    t.At (applyWrites ((List.range k).map w) v) T s.log.lh noExtra []) w hat ?_ hQ
  intro k t hk hat' hlog
  -- the copies made so far touch no home block
  have hhome : applyWrites ((List.range k).map w) v (s.log.lh.getD k 0) =
      v (s.log.lh.getD k 0) := by
    apply applyWrites_of_not_mem
    intro w' hmem he
    obtain ⟨j, hj, rfl⟩ := mem_map.mp hmem
    have hin := hok.copy_inLog (k := j) (Nat.lt_trans (mem_range.mp hj) hk)
    rw [show s.log.start + j + 1 = s.log.start + 1 + j by omega] at hin
    exact hok.fits.outside _ (Log.getD_mem hk) (he ▸ hin)
  rw [← hlog] at hat' hok hk hhome
  refine copyBlock_wp hat' hok hk ?_
  intro u hat1 hlog1 hpid1 hw1
  rw [hhome, hlog, show s.log.start + k + 1 = s.log.start + 1 + k by omega] at hat1 hw1
  refine ⟨?_, hlog1, hpid1, hw1⟩
  rw [range_succ, map_append, applyWrites_append]
  exact hat1

private theorem map_range_getD (l : List Nat) (f : Nat → Nat × Block) :
    (List.range l.length).map (fun j => f (l.getD j 0)) = l.map f := by
  apply ext_getElem
  · simp
  intro k hk hk'
  have hlt : k < l.length := by simpa using hk
  simp [hlt]

theorem installTrans_wp (hat : s.At v T s.log.lh noExtra []) (hok : s.log.Ok T)
    (hcopy : ∀ k, k < s.log.lh.length → v (s.log.start + k + 1) = v (s.log.lh.getD k 0))
    (hQ : ∀ t, t.At v T [] noExtra [] → t.log = s.log → t.pid = s.pid →
      t.writes = s.writes ++ s.log.lh.map (fun b => (b, v b)) → Q () t) :
    Wp E installTrans Q s := by
  unfold installTrans
  rw [Wp.bind_iff, getLog_wp]
  refine rounds_wp (I := fun k t => t.At v T (s.log.lh.drop k) noExtra [])
    (fun j => (s.log.lh.getD j 0, v (s.log.lh.getD j 0))) hat ?_ ?_
  · intro k t hk hat' hlog
    have hcopy' := hcopy k hk
    rw [← hlog] at hat' hok hk hcopy'
    refine installBlock_wp hat' hok hk hcopy' ?_
    intro u hat1 hlog1 hpid1 hw1
    rw [hlog] at hat1 hw1
    exact ⟨hat1, hlog1, hpid1, hw1⟩
  · intro t hat' hlog hpid hw
    rw [drop_length] at hat'
    refine hQ t hat' hlog hpid ?_
    rw [hw, ← map_range_getD s.log.lh fun b => (b, v b)]

/-- `commit` of a non-empty transaction: the writes are those of a redo-log
commit, and outside the log region the logical contents stay. -/
theorem commit_wp (hat : s.At v T s.log.lh noExtra []) (hok : s.log.Ok T) (hne : s.log.lh ≠ [])
    (hQ : ∀ t v' ws, t.At v' T [] noExtra [] →
      (∀ b, ¬s.log.format.inLog b → v' b = v b) →
      t.log = s.log.withHead [] → t.pid = s.pid →
      s.log.format.IsCommit s.log.lh v ws → t.writes = s.writes ++ ws → Q () t) :
    Wp E commit Q s := by
  have hpos : 0 < s.log.lh.length := length_pos_iff.mpr hne
  have hstart : ∀ b, ¬s.log.format.inLog b → b ≠ s.log.start := by
    rintro b hb rfl
    exact hb hok.start_inLog
  let v1 := applyWrites (s.log.format.copies s.log.lh v) v
  let x := headStore s.log.lh (v1 s.log.start)
  let v2 := update v1 s.log.start x
  have hout : ∀ b, ¬s.log.format.inLog b → v2 b = v b := by
    intro b hb
    simp only [v2]
    rw [update_of_ne (hstart b hb)]
    apply applyWrites_of_not_mem
    intro w hw he
    have hin := Format.mem_copies hok.fits hw
    exact hb (he ▸ ⟨Nat.le_of_lt hin.1, hin.2⟩)
  have hcopy : ∀ k, k < s.log.lh.length → v2 (s.log.start + k + 1) = v (s.log.lh.getD k 0) := by
    intro k hk
    simp only [v2]
    rw [update_of_ne (by omega), getD_eq_getElem _ _ hk,
      show s.log.start + k + 1 = s.log.start + 1 + k by omega]
    exact Format.applyWrites_copies (F := s.log.format) hk
  unfold commit
  rw [Wp.bind_iff, getLog_wp, if_pos hpos]
  refine Wp.bind (writeLog_wp hat hok ?_)
  intro t1 hat1 hlog1 hpid1 hw1
  rw [Wp.bind_iff]
  refine writeHead_wp hat1 (hlog1 ▸ hok.fresh _ hok.start_inLog) (fun _ _ => rfl)
    (Log.Ok.victim (hlog1 ▸ hok) (by rw [hlog1]) hat1) ?_
  intro t2 hat2 hlog2 hpid2 hw2
  rw [hlog1] at hat2 hw2
  have hlog : t2.log = s.log := hlog2.trans hlog1
  have hat2' : t2.At v2 T t2.log.lh noExtra [] := by
    rw [hlog]
    exact hat2
  refine Wp.bind (installTrans_wp hat2' (hlog ▸ hok) ?_ ?_)
  · intro k hk
    rw [hlog] at hk ⊢
    rw [hcopy k hk, hout _ (hok.fits.outside _ (Log.getD_mem hk))]
  intro t3 hat3 hlog3 hpid3 hw3
  have hlog' : t3.log = s.log := hlog3.trans hlog
  rw [hlog] at hw3
  rw [Wp.bind_iff, clearHead_wp, hlog']
  have hat4 : (t3.withLog (s.log.withHead [])).At v2 T [] noExtra [] :=
    hat3.setLog (by rw [hlog']; rfl)
  refine writeHead_wp hat4 (hok.fresh _ hok.start_inLog) (fun _ _ => rfl) ?_ ?_
  · apply hat4.sound.exists_victim []
    · intro i _
      simp [noExtra]
    · decide
  intro t4 hat5 hlog5 hpid5 hw5
  refine hQ t4 _ (s.log.format.copies s.log.lh v ++ (s.log.start, x) ::
    (s.log.lh.map fun b => (b, v b)) ++ [(s.log.start, headStore [] (v2 s.log.start))])
    hat5 ?_ hlog5 ?_ ?_ ?_
  · intro b hb
    change update v2 s.log.start (headStore [] (v2 s.log.start)) b = v b
    rw [update_of_ne (hstart b hb)]
    exact hout b hb
  · exact hpid5.trans (hpid3.trans (hpid2.trans hpid1))
  · refine ⟨x, headStore [] (v2 s.log.start), ?_, headNames_headStore_nil (v2 s.log.start), rfl⟩
    exact headNames_headStore _ (Nat.le_of_lt hok.room) hok.small
  have hmap : s.log.lh.map (fun b => (b, v2 b)) = s.log.lh.map fun b => (b, v b) := by
    apply map_congr_left
    intro b hb
    rw [hout b (hok.fits.outside b hb)]
  have hw : t3.writes = s.writes ++ s.log.format.copies s.log.lh v ++ [(s.log.start, x)] ++
      s.log.lh.map fun b => (b, v b) := by
    rw [hw3, hmap, hw2, hw1]
  rw [hw5]
  change t3.writes ++ [(s.log.start, headStore [] (v2 s.log.start))] = _
  rw [hw]
  simp only [append_assoc, cons_append, nil_append]

end Rounds

end Xv6.Kernel
