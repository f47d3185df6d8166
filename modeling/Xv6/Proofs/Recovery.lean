import Xv6.Proofs.Commit
/-!
# Recovery at boot

`recover_from_log` on a freshly started machine issues the writes of a redo-log
recovery.  Its `install_trans` drops a pin that nobody took, so each installed
block leaves a buffer behind that is never recycled; there are just enough
buffers for that.
-/

namespace Xv6.Kernel

open Xv6.Lib Function List
open Xv6.Lib.RedoLog

variable {dev start size : Nat} {names : List Nat}

def noStale : Nat → Prop := fun _ => False

/-- The machine switched on, with the log's place taken from the superblock. -/
def started (pid : Nat) (disk : Nat → Block) (dev start size : Nat) : Blk :=
  (powerOn pid disk).withLog
    { start := start, size := size, outstanding := 0, committing := false, dev := dev, lh := [] }

theorem started_at (pid : Nat) (disk : Nat → Block) (hdev : dev ≠ 0) :
    (started pid disk dev start size).At disk noStale [] noExtra [] where
  sound :=
    { lruNodup := by
        change binit.Nodup
        decide
      lruMem := by
        change ∀ i, i ∈ binit
        decide
      devNe := hdev
      key := fun _ _ h => absurd h.symm hdev
      ref := fun i => by
        rw [Blk.Sound.pin_eq_zero rfl not_mem_nil]
        rfl
      locked := fun _ h => absurd rfl h
      pinned := fun _ h => absurd h not_mem_nil }
  hsNodup := nodup_nil
  lock := fun _ => rfl
  held := fun _ h => absurd h not_mem_nil
  disk := fun _ _ => rfl
  cached := fun _ _ h => absurd h Bool.false_ne_true

theorem Log.Ok.sublist {l l' : Log} {T : Nat → Prop} (h : l.Ok T) (hstart : l'.start = l.start)
    (hsize : l'.size = l.size) (hlh : List.Sublist l'.lh l.lh) : l'.Ok T := by
  have hformat : l'.format = l.format := by
    unfold Log.format
    rw [hstart, hsize]
  have hlen := hlh.length_le
  constructor
  · rw [hformat]
    exact ⟨Nat.le_trans (Nat.add_le_add_right hlen 1) h.fits.room,
      fun b hb => h.fits.outside b (hlh.subset hb)⟩
  · exact h.nodup.sublist hlh
  · exact Nat.lt_of_le_of_lt hlen h.room
  · exact fun b hb => h.small b (hlh.subset hb)
  · rw [hformat]
    exact h.fresh

section Rounds

variable {s : Blk} {E : Stop → Prop} {v : Nat → Block} {T : Nat → Prop} {k : Nat}
  {x : BufId → Nat} {Q : Unit → Blk → Prop} {l d : BufId}

theorem readHead_wp (hat : s.At v T [] noExtra []) (hstart : ¬T s.log.start)
    (hQ : ∀ t, t.At v T [] noExtra [] → t.log = s.log.withHead (headNames (v s.log.start)) →
      t.pid = s.pid → t.writes = s.writes → Q () t) :
    Wp E readHead Q s := by
  have hvictim : ∃ i, s.victim = some i := by
    apply hat.sound.exists_victim []
    · intro i _
      simp [noExtra]
    · decide
  unfold readHead
  rw [Wp.bind_iff, getLog_wp, Wp.bind_iff]
  refine hat.bread rfl (by simp) (fun _ _ => by simp [noExtra]) (.inr (.inl hvictim)) ?_
  intro i t1 hat1 hf1 hdata1
  have hdata : (t1.buf i).data = v s.log.start := hdata1 (.inr hstart)
  rw [Wp.bind_iff, bdata_wp, Wp.bind_iff, putLog_wp, hdata]
  have hat2 : (t1.withLog (s.log.withHead (headNames (v s.log.start)))).At v T [] noExtra [i] :=
    hat1.setLog (by rw [hf1.log]; rfl)
  refine hat2.brelse_wp (i := i) (by simp) ?_ ?_
  · intro _
    rw [Blk.withLog_buf, hf1.blockno, hdata]
  intro t3 hat3 hs3 hw3 _
  rw [erase_cons_head] at hat3
  exact hQ t3 hat3 hs3.log (hs3.pid.trans hf1.pid) (hw3.trans hf1.writes)

theorem unpin_release_wp (hat : s.At v T [] x [d, l]) (hxd : x d = 0)
    (hl : ¬T (s.buf l).blockno → (s.buf l).data = v (s.buf l).blockno)
    (hd : ¬T (s.buf d).blockno → (s.buf d).data = v (s.buf d).blockno)
    (hQ : ∀ t, t.At v T [] (update x d (2 ^ 32 - 1)) [] → t.log = s.log →
      t.pid = s.pid → t.writes = s.writes → (t.buf d).blockno = (s.buf d).blockno →
      (∀ j, j ≠ d → (t.buf j).blockno = (s.buf j).blockno) → Q () t) :
    Wp E (do bunpin d; brelse l; brelse d) Q s := by
  have hld : l ≠ d := hat.held_ne
  have href : (s.buf d).refcnt = 1 := by
    rw [hat.sound.ref d, Blk.Sound.pin_eq_zero rfl not_mem_nil, hxd]
    simp
  have hat1 := hat.dropped (i := l) (by simp) fun h => hl (h.resolve_left not_mem_nil)
  have herase : [d, l].erase l = [d] := by
    rw [erase_cons_tail (by simpa using hld.symm), erase_cons_head]
  rw [herase] at hat1
  have hbuf : (s.dropped l).buf d = s.buf d := Blk.At.dropped_buf_ne hld.symm
  have hat2 := hat1.overdrop (i := d) (by simp) (by rw [hbuf]; exact hd)
  rw [erase_cons_head] at hat2
  let y : Buf := { s.buf d with refcnt := 0 }
  have hunpin : bunpin d s = .ok ((), s.setBuf d y) := by
    rw [bunpin_eq, href]
    rfl
  have hrelse1 : brelse l (s.setBuf d y) = .ok ((), (s.dropped l).setBuf d y) := by
    rw [brelse_held, Blk.At.setBuf_dropped_comm hld]
    rw [Blk.setBuf_ne hld, Blk.setBuf_pid]
    exact hat.lock_held (by simp)
  have hrelse2 : brelse d ((s.dropped l).setBuf d y) =
      .ok ((), (s.dropped l).setBuf d
        { (s.dropped l).buf d with lock := none, refcnt := 2 ^ 32 - 1 }) := by
    rw [brelse_held]
    · unfold Blk.dropped Blk.dropBuf
      rw [Blk.setBuf_self]
      have hz : decr32 y.refcnt = 2 ^ 32 - 1 := rfl
      rw [hz, if_neg (by decide), Blk.setBuf_setBuf]
      have hd' : (s.dropped l).buf d = s.buf d := hbuf
      unfold Blk.dropped Blk.dropBuf at hd'
      rw [hd']
    · rw [Blk.setBuf_self, Blk.setBuf_pid, Blk.At.dropped_pid]
      exact hat.lock_held (i := d) (by simp)
  unfold Wp
  simp only [bind, Prog.andThen, hunpin, hrelse1, hrelse2]
  refine hQ _ hat2 Blk.At.dropped_log Blk.At.dropped_pid Blk.At.dropped_writes ?_ ?_
  · rw [Blk.setBuf_self, hbuf]
  intro j hj
  rw [Blk.setBuf_ne hj]
  rcases eq_or_ne j l with rfl | hjl
  · rw [Blk.At.dropped_buf_self]
    rfl
  · rw [Blk.At.dropped_buf_ne hjl]

structure Leftover (s : Blk) (x : BufId → Nat) (k : Nat) : Prop where
  few : ∃ st : List BufId, st.length ≤ k ∧ ∀ i, i ∉ st → x i = 0
  home : ∀ i, x i ≠ 0 → ∃ j, j < k ∧ (s.buf i).blockno = s.log.lh.getD j 0

theorem recoverBlock_wp (hat : s.At v T [] x []) (hok : s.log.Ok T) (hk : k < s.log.lh.length)
    (hleft : Leftover s x k)
    (hQ : ∀ t x', t.At (update v (s.log.lh.getD k 0) (v (s.log.start + k + 1))) T []
        x' [] →
      Leftover t x' (k + 1) → t.log = s.log → t.pid = s.pid →
      t.writes = s.writes ++ [(s.log.lh.getD k 0, v (s.log.start + k + 1))] → Q () t) :
    Wp E (installBlock k) Q s := by
  obtain ⟨st, hst, hxst⟩ := hleft.few
  have hroom := hok.room
  have hne : s.log.lh.getD k 0 ≠ s.log.start + k + 1 := hok.home_ne hk
  have hfresh : ¬T (s.log.start + k + 1) := hok.fresh _ (hok.copy_inLog hk)
  -- a leftover buffer holds neither the log block nor the home block of this round
  have hcopy : ∀ i, (s.buf i).blockno = s.log.start + k + 1 → x i = 0 := by
    intro i hi
    by_contra hx
    obtain ⟨j, hj, hb⟩ := hleft.home i hx
    rw [hi] at hb
    exact hok.fits.outside _ (Log.getD_mem (by omega)) (hb ▸ hok.copy_inLog hk)
  have hhome : ∀ i, (s.buf i).blockno = s.log.lh.getD k 0 → x i = 0 := by
    intro i hi
    by_contra hx
    obtain ⟨j, hj, hb⟩ := hleft.home i hx
    rw [hi, getD_eq_getElem _ _ hk, getD_eq_getElem _ _ (by omega)] at hb
    have := (List.Nodup.getElem_inj_iff hok.nodup).mp hb
    omega
  unfold installBlock
  rw [Wp.bind_iff, getLog_wp, Wp.bind_iff]
  refine hat.bread rfl (by simp) (fun i hi => by rw [hcopy i hi.2]; decide) (.inr (.inl ?_)) ?_
  · apply hat.sound.exists_victim st
    · intro i hi
      simp [hxst i hi]
    · simp only [length_nil]
      omega
  intro lbuf t1 hat1 hf1 hdata1
  have hxl : x lbuf = 0 := by
    rcases hf1.source with hc | hz
    · exact hcopy lbuf hc.2
    · have := hat.sound.cnt_eq_zero hz
      omega
  have hhome1 : ∀ i, (t1.buf i).blockno = s.log.lh.getD k 0 → x i = 0 := by
    intro i hi
    by_cases hil : i = lbuf
    · rw [hil]
      exact hxl
    · rw [hf1.other i hil] at hi
      exact hhome i hi
  rw [Wp.bind_iff]
  refine hat1.bread (by rw [hf1.log]) ?_ (fun i hi => by rw [hhome1 i hi.2]; decide)
    (.inr (.inl ?_)) ?_
  · intro i hi
    rw [mem_singleton.mp hi, hf1.blockno]
    exact hne.symm
  · apply hat1.sound.exists_victim (lbuf :: st)
    · intro i hi
      have hil : i ≠ lbuf := fun e => hi (e ▸ mem_cons_self)
      simp [hxst i (fun hm => hi (mem_cons_of_mem _ hm)), hil]
    · simp only [length_nil, length_cons]
      omega
  intro dbuf t2 hat2 hf2 _
  have hld : lbuf ≠ dbuf := hat2.held_ne
  have hxd : x dbuf = 0 := by
    rcases hf2.source with hc | hz
    · exact hhome1 dbuf hc.2
    · have := hat1.sound.cnt_eq_zero hz
      omega
  have hdata : (t2.buf lbuf).data = v (s.log.start + k + 1) := by
    rw [hf2.other lbuf hld, hdata1 (.inr hfresh)]
  rw [Wp.bind_iff, bdata_wp, hdata]
  refine hat2.store_wp (by simp) ?_
  intro t4 hat4 hs4 hd4 hw4 _
  rw [hf2.blockno] at hat4 hw4
  have hlno : (t2.buf lbuf).blockno = s.log.start + k + 1 := by
    rw [hf2.other lbuf hld, hf1.blockno]
  refine unpin_release_wp hat4 hxd ?_ ?_ ?_
  · intro _
    rw [hs4.other lbuf hld, hdata, hlno, update_of_ne hne.symm]
  · intro _
    rw [hs4.blockno, hf2.blockno, update_self, hd4]
  intro t5 hat5 hlog5 hpid5 hw5 hno5 hother5
  have hlog : t5.log = s.log := by rw [hlog5, hs4.log, hf2.log, hf1.log]
  refine hQ t5 _ hat5 ⟨⟨dbuf :: st, ?_, ?_⟩, ?_⟩ hlog ?_ ?_
  · simp only [length_cons]
    omega
  · intro i hi
    have hid : i ≠ dbuf := fun e => hi (e ▸ mem_cons_self)
    rw [update_of_ne hid]
    exact hxst i fun hm => hi (mem_cons_of_mem _ hm)
  · intro i hi
    rw [hlog]
    rcases eq_or_ne i dbuf with rfl | hid
    · refine ⟨k, by omega, ?_⟩
      rw [hno5, hs4.blockno, hf2.blockno]
    rw [update_of_ne hid] at hi
    have hil : i ≠ lbuf := fun e => hi (e ▸ hxl)
    obtain ⟨j, hj, hb⟩ := hleft.home i hi
    refine ⟨j, by omega, ?_⟩
    rw [hother5 i hid, hs4.other i hid, hf2.other i hid, hf1.other i hil, hb]
  · rw [hpid5, hs4.pid, hf2.pid, hf1.pid]
  · rw [hw5, hw4, hf2.writes, hf1.writes]

theorem recoverTrans_wp (hat : s.At v T [] noExtra []) (hok : s.log.Ok T)
    (hQ : ∀ t x ws, ws = (List.range s.log.lh.length).map (fun j =>
        (s.log.lh.getD j 0, v (s.log.start + 1 + j))) →
      t.At (applyWrites ws v) T [] x [] → Leftover t x s.log.lh.length → t.log = s.log →
      t.pid = s.pid → t.writes = s.writes ++ ws → Q () t) :
    Wp E installTrans Q s := by
  let w : Nat → Nat × Block := fun j => (s.log.lh.getD j 0, v (s.log.start + 1 + j))
  unfold installTrans
  rw [Wp.bind_iff, getLog_wp]
  refine rounds_wp (I := fun k t => ∃ x, t.At (applyWrites ((List.range k).map w) v) T [] x [] ∧
    Leftover t x k) w ?_ ?_ ?_
  · exact ⟨noExtra, hat, ⟨[], Nat.zero_le _, fun _ _ => rfl⟩, fun _ h => absurd rfl h⟩
  · rintro k t hk ⟨x, hat', hleft⟩ hlog
    -- the rounds write home blocks only, so the copies they read are the original ones
    have hcopy : applyWrites ((List.range k).map w) v (s.log.start + k + 1) =
        v (s.log.start + 1 + k) := by
      rw [applyWrites_of_not_mem, show s.log.start + k + 1 = s.log.start + 1 + k by omega]
      intro w' hw he
      obtain ⟨j, hj, rfl⟩ := mem_map.mp hw
      have hjk := mem_range.mp hj
      exact hok.fits.outside _ (Log.getD_mem (by omega)) (he ▸ hok.copy_inLog hk)
    refine recoverBlock_wp hat' (hlog ▸ hok) (by rw [hlog]; exact hk) hleft ?_
    intro u x' hat1 hleft1 hlog1 hpid1 hw1
    rw [hlog, hcopy] at hat1 hw1
    refine ⟨⟨x', ?_, hleft1⟩, hlog1, hpid1, hw1⟩
    rw [range_succ, map_append, applyWrites_append]
    exact hat1
  · rintro t ⟨x, hat', hleft⟩ hlog hpid hw
    exact hQ t x _ rfl hat' hleft hlog hpid hw

theorem recoverFromLog_wp (hat : s.At v T [] noExtra [])
    (hnames : headNames (v s.log.start) = names) (hok : (s.log.withHead names).Ok T)
    (hQ : ∀ t x ws, t.At (applyWrites ws v) T [] x [] →
      (∃ st : List BufId, st.length ≤ names.length ∧ ∀ i, i ∉ st → x i = 0) →
      t.log = s.log.withHead [] → t.pid = s.pid → s.log.format.IsRecovery v ws →
      t.writes = s.writes ++ ws → Q () t) :
    Wp E recoverFromLog Q s := by
  have hinLog : s.log.format.inLog s.log.start := hok.start_inLog
  have hstart : ¬T s.log.start := hok.fresh _ hinLog
  unfold recoverFromLog
  refine Wp.bind (readHead_wp hat hstart ?_)
  intro t1 hat1 hlog1 hpid1 hw1
  rw [hnames] at hlog1
  refine Wp.bind (recoverTrans_wp hat1 (hlog1 ▸ hok) ?_)
  intro t2 x ws hws hat2 hleft hlog2 hpid2 hw2
  have hlog : t2.log = s.log.withHead names := hlog2.trans hlog1
  rw [hlog1] at hws hleft
  have hat3 : (t2.withLog (s.log.withHead [])).At (applyWrites ws v) T [] x [] :=
    hat2.setLog (by rw [hlog]; rfl)
  rw [Wp.bind_iff, clearHead_wp, hlog]
  refine writeHead_wp hat3 hstart ?_ ?_ ?_
  · intro i hi
    by_contra hx
    obtain ⟨j, hj, hb⟩ := hleft.home i hx
    have hi' : (t2.buf i).blockno = s.log.start := hi.2
    rw [hi', hlog] at hb
    exact hok.fits.outside _ (Log.getD_mem hj) (hb ▸ hinLog)
  · obtain ⟨st, hst, hxst⟩ := hleft.few
    apply hat3.sound.exists_victim st
    · intro i hi
      simp [hxst i hi]
    · have hlen : st.length < NBUF := Nat.lt_of_le_of_lt hst hok.room
      simpa using hlen
  intro t4 hat4 hlog4 hpid4 hw4
  let y := headStore [] (applyWrites ws v s.log.start)
  have hat5 : t4.At (applyWrites (ws ++ [(s.log.start, y)]) v) T [] x [] := by
    rw [applyWrites_append]
    exact hat4
  refine hQ t4 x (ws ++ [(s.log.start, y)]) hat5 hleft.few hlog4 ?_ ?_ ?_
  · exact hpid4.trans (hpid2.trans hpid1)
  · refine ⟨y, headNames_headStore_nil (applyWrites ws v s.log.start), ?_⟩
    change _ = (List.range (headNames (v s.log.start)).length).map (fun k =>
      ((headNames (v s.log.start)).getD k 0, v (s.log.start + 1 + k))) ++ _
    rw [hws, hnames]
    rfl
  · rw [hw4]
    change t2.writes ++ [(s.log.start, y)] = _
    rw [hw2, hw1, append_assoc]

end Rounds

/-! ## Crashes -/

/-- Switching the machine on: `binit`, then `initlog` in the first process. -/
def boot (dev start size : Nat) (disk : Nat → Block) : Except Stop (Unit × Blk) :=
  initlog dev start size (powerOn 1 disk)

/-- `d'` is what a disk `d` may look like after any number of recoveries, each
cut short after some of its writes. -/
inductive Restarts (dev start size : Nat) : (Nat → Block) → (Nat → Block) → Prop where
  | refl (d : Nat → Block) : Restarts dev start size d d
  | crash {d d' : Nat → Block} {t : Blk} (k : Nat) :
      boot dev start size d = .ok ((), t) →
      Restarts dev start size (applyWrites (t.writes.take k) d) d' →
      Restarts dev start size d d'

section Crash

variable {l : Log} {c base d d' : Nat → Block} {t : Blk}

section

variable (hdev : l.dev ≠ 0) (hok : l.Ok noStale)
  (hhead : headNames (d l.start) = [] ∨ headNames (d l.start) = l.lh)
include hdev hok hhead

theorem boot_recovers :
    ∃ t, boot l.dev l.start l.size d = .ok ((), t) ∧ l.format.IsRecovery d t.writes ∧
      t.disk = applyWrites t.writes d := by
  have hok' : ((started 1 d l.dev l.start l.size).log.withHead
      (headNames (d l.start))).Ok noStale := by
    refine Log.Ok.sublist hok ?_ ?_ ?_
    · rfl
    · rfl
    change List.Sublist (headNames (d l.start)) l.lh
    rcases hhead with h | h
    · rw [h]
      exact nil_sublist _
    · rw [h]
  have hrun := recoverFromLog_wp (E := fun _ => False) (started_at 1 d hdev)
    rfl hok' (Q := fun _ t => l.format.IsRecovery d t.writes ∧ t.disk = applyWrites t.writes d)
    (by
      intro t x ws hat _ _ _ hrec hw
      have hw' : t.writes = ws := hw
      rw [hw']
      exact ⟨hrec, funext fun b => hat.disk b not_mem_nil⟩)
  obtain ⟨_, t, hok, hpost⟩ := hrun.returns
  exact ⟨t, hok, hpost⟩

theorem boot_writes
    (hboot : boot l.dev l.start l.size d = .ok ((), t)) : l.format.IsRecovery d t.writes := by
  obtain ⟨u, hu, hrec, _⟩ := boot_recovers hdev hok hhead
  rw [hboot] at hu
  cases hu
  exact hrec

end

theorem Restarts.durable (h : Restarts l.dev l.start l.size d d') (hdev : l.dev ≠ 0)
    (hok : l.Ok noStale) (hd : l.format.Durable l.lh c base d) :
    l.format.Durable l.lh c base d' := by
  induction h with
  | refl d => exact hd
  | @crash d d' t k hboot _ ih =>
    exact ih (hd.recover_take hok.fits (boot_writes hdev hok hd.head hboot) k)

theorem Restarts.clean (h : Restarts l.dev l.start l.size d d') (hdev : l.dev ≠ 0)
    (hok : l.Ok noStale) (hd : l.format.Clean base d) : l.format.Clean base d' := by
  induction h with
  | refl d => exact hd
  | @crash d d' t k hboot _ ih =>
    have hrec := boot_writes hdev hok (.inl hd.head) hboot
    exact ih (hd.recover (Nat.lt_of_lt_of_le (Nat.succ_pos _) hok.fits.room) hrec k)

end Crash

/-- Crash atomicity of `commit`.  The log header on disk is empty and `log.lh`
names the blocks of the transaction, whose contents are in the cache.  Stop
`commit` after any `k` of its disk writes and recover, with any number of
recoveries cut short on the way: the blocks outside the log are the old ones,
or the old ones with the whole transaction installed, and the latter as soon
as the header had been written. -/
theorem commit_crash_atomic {s : Blk} {v : Nat → Block} {T : Nat → Prop}
    (hat : s.At v T s.log.lh noExtra []) (hhead : headNames (s.disk s.log.start) = [])
    (hne : s.log.lh ≠ []) (hnodup : s.log.lh.Nodup)
    (hlen : s.log.lh.length ≤ s.log.size - 1) (hsize : s.log.size ≤ LOGSIZE)
    (hhome : ∀ b ∈ s.log.lh, ¬s.log.format.inLog b ∧ b < 2 ^ 32)
    (hfresh : ∀ b, s.log.format.inLog b → ¬T b) :
    ∃ t ws, commit s = .ok ((), t) ∧ t.writes = s.writes ++ ws ∧
      ∀ k d, Restarts s.log.dev s.log.start s.log.size (applyWrites (ws.take k) s.disk) d →
        ∃ r, boot s.log.dev s.log.start s.log.size d = .ok ((), r) ∧
          headNames (r.disk s.log.start) = [] ∧
          ((∀ b, ¬s.log.format.inLog b → r.disk b = s.disk b) ∨
            ∀ b, ¬s.log.format.inLog b →
              r.disk b = if b ∈ s.log.lh then v b else s.disk b) ∧
          ((∃ x, (s.log.start, x) ∈ ws.take k) → ∀ b, ¬s.log.format.inLog b →
            r.disk b = if b ∈ s.log.lh then v b else s.disk b) := by
  have hpos : 0 < s.log.lh.length := length_pos_iff.mpr hne
  have hfits : s.log.format.Fits s.log.lh := by
    constructor
    · change _ ≤ s.log.size
      omega
    · exact fun b hb => (hhome b hb).1
  have hroom : s.log.lh.length < NBUF := by
    change _ < LOGSIZE
    omega
  have hok : s.log.Ok T := ⟨hfits, hnodup, hroom, fun b hb => (hhome b hb).2, hfresh⟩
  have hok' : s.log.Ok noStale := ⟨hfits, hnodup, hroom, hok.small, fun _ _ h => h⟩
  have hdev : s.log.dev ≠ 0 := hat.sound.devNe
  have hrun := commit_wp (E := fun _ => False) hat hok hne
    (Q := fun _ t => ∃ ws, s.log.format.IsCommit s.log.lh v ws ∧ t.writes = s.writes ++ ws)
    (fun t _ ws _ _ _ _ hcommit hw => ⟨ws, hcommit, hw⟩)
  obtain ⟨_, t, hreturn, ws, hcommit, hwrites⟩ := hrun.returns
  refine ⟨t, ws, hreturn, hwrites, ?_⟩
  intro k d hrestarts
  have hclean : s.log.format.Clean s.disk s.disk := ⟨hhead, fun _ _ => rfl⟩
  obtain ⟨hbefore, hafter⟩ := hclean.commit_take hfits hcommit k
  by_cases hk : k ≤ s.log.lh.length
  · -- the header is not among the writes that reached the disk
    have hd := hrestarts.clean hdev hok' (hbefore hk)
    obtain ⟨r, hr, hrec, hdisk⟩ := boot_recovers hdev hok' (.inl hd.head)
    have hfinal := hd.recover (Nat.lt_of_lt_of_le (Nat.succ_pos _) hfits.room) hrec
      r.writes.length
    rw [take_length, ← hdisk] at hfinal
    refine ⟨r, hr, hfinal.head, .inl hfinal.home, ?_⟩
    rintro ⟨x, hx⟩
    obtain ⟨y, z, _, _, rfl⟩ := hcommit
    rw [append_assoc, take_append_of_le_length (by simpa using hk)] at hx
    have hlt := (Format.mem_copies hfits (mem_of_mem_take hx)).1
    exact absurd hlt (Nat.lt_irrefl _)
  · have hd := hrestarts.durable hdev hok' (hafter (by omega))
    obtain ⟨r, hr, hrec, hdisk⟩ := boot_recovers hdev hok' hd.head
    have hfinal := hd.recover hfits hrec
    rw [← hdisk] at hfinal
    exact ⟨r, hr, hfinal.head, .inr hfinal.home, fun _ => hfinal.home⟩

/-- New contents of blocks 46 and 47 are recorded, over a blank disk. -/
def recordedTwo : Blk where
  disk := fun _ => Bytes.zero
  writes := []
  buf := fun i => if i.val < 2 then
      { valid := true, dev := 1, blockno := 46 + i.val, lock := none, refcnt := 1,
        data := Bytes.const (UInt8.ofNat (46 + i.val)) }
    else Buf.initial
  lru := binit
  log := { start := 2, size := LOGSIZE, outstanding := 0, committing := true, dev := 1,
           lh := [46, 47] }
  pid := 1

def twoNew (b : Nat) : Block :=
  if b ∈ [46, 47] then Bytes.const (UInt8.ofNat b) else Bytes.zero

theorem recordedTwo_at : recordedTwo.At twoNew noStale [46, 47] noExtra [] where
  sound :=
    { lruNodup := by decide
      lruMem := by decide
      devNe := by decide
      key := by decide +kernel
      ref := by decide +kernel
      locked := by decide +kernel
      pinned := by
        unfold Blk.Caches
        decide +kernel }
  hsNodup := nodup_nil
  lock := by decide +kernel
  held := fun _ h => absurd h not_mem_nil
  disk := fun b hb => (if_neg hb).symm
  cached := by
    have hmem : ∀ i, (recordedTwo.buf i).dev = 1 → (recordedTwo.buf i).blockno ∈ [46, 47] := by
      decide +kernel
    intro i _ _ hdev _
    rw [twoNew, if_pos (hmem i hdev)]
    revert hdev
    simp only [recordedTwo]
    split
    · exact fun _ => rfl
    · intro h
      cases h

/-- After a crash at any point the two blocks are both old or both new. -/
theorem commit_crash_atomic_two :
    ∃ t ws, commit recordedTwo = .ok ((), t) ∧ t.writes = ws ∧
      ∀ k d, Restarts 1 2 LOGSIZE (applyWrites (ws.take k) fun _ => Bytes.zero) d →
        ∃ r, boot 1 2 LOGSIZE d = .ok ((), r) ∧
          (r.disk 46 = Bytes.zero ∧ r.disk 47 = Bytes.zero ∨
            r.disk 46 = Bytes.const 46 ∧ r.disk 47 = Bytes.const 47) := by
  have hhome : ∀ b ∈ [46, 47], ¬recordedTwo.log.format.inLog b ∧ b < 2 ^ 32 := by
    unfold Format.inLog
    decide
  obtain ⟨t, ws, hrun, hw, h⟩ := commit_crash_atomic recordedTwo_at (by decide +kernel) (by decide)
    (by decide) (by decide) (by decide) hhome (fun _ _ h => h)
  refine ⟨t, ws, hrun, hw, fun k d hd => ?_⟩
  obtain ⟨r, hr, _, hdisk, _⟩ := h k d hd
  have h46 := (hhome 46 (by decide)).1
  have h47 := (hhome 47 (by decide)).1
  exact ⟨r, hr, hdisk.imp (fun hold => ⟨hold 46 h46, hold 47 h47⟩)
    fun hnew => ⟨hnew 46 h46, hnew 47 h47⟩⟩

end Xv6.Kernel
