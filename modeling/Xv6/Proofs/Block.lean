import Xv6.Proofs.Commit
/-!
# Reading and logging blocks inside a transaction

`On s v T hs` is the view of the block layer between two calls of the file
system code: the recorded blocks are the pinned ones, and the log has room to
commit them.  `Frame s t` says what no such call changes.
-/

namespace Xv6.Kernel

open Xv6.Lib Function List
open Xv6.Lib.RedoLog

/-- The stops for want of some resource: sleeping on a lock or on the log, and
the panics of a full cache, log, disk or inode table. -/
def Stop.scarce : Stop → Bool
  | .sleep => true
  | .panic p => p ∈ [.bgetNoBuffers, .tooBigTransaction, .ballocOutOfBlocks, .iallocNoInodes,
      .igetNoInodes]

def Tolerant (E : Stop → Prop) : Prop := ∀ e, e.scarce = true → E e

def without (T : Nat → Prop) (b : Nat) : Nat → Prop := fun c => T c ∧ c ≠ b

namespace Blk

variable {s t u : Blk} {S : List Nat} {E : Stop → Prop} {n b : Nat}

structure On (s : Blk) (v : Nat → Block) (T : Nat → Prop) (hs : List BufId) : Prop where
  view : s.At v T s.log.lh noExtra hs
  log : s.log.Ok T

structure Frame (s t : Blk) : Prop where
  disk : t.disk = s.disk
  writes : t.writes = s.writes
  pid : t.pid = s.pid
  log : t.log = s.log.withHead t.log.lh
  lh : ∀ b, b ∈ s.log.lh → b ∈ t.log.lh
  idle : s.log.outstanding < 1 → t.log.lh = s.log.lh

namespace Frame

theorem of_log (hd : t.disk = s.disk) (hw : t.writes = s.writes) (hp : t.pid = s.pid)
    (hl : t.log = s.log) : Frame s t where
  disk := hd
  writes := hw
  pid := hp
  log := by rw [hl]; rfl
  lh := by
    intro b hb
    rw [hl]
    exact hb
  idle := by
    intro _
    rw [hl]

theorem refl (s : Blk) : Frame s s := of_log rfl rfl rfl rfl

section

variable (h : Frame s t)
include h

theorem dev : t.log.dev = s.log.dev := by rw [h.log]; rfl

theorem start : t.log.start = s.log.start := by rw [h.log]; rfl

theorem outstanding : t.log.outstanding = s.log.outstanding := by
  rw [h.log]
  rfl

theorem trans (h' : Frame t u) : Frame s u where
  disk := h'.disk.trans h.disk
  writes := h'.writes.trans h.writes
  pid := h'.pid.trans h.pid
  log := by
    rw [h'.log, h.log]
    rfl
  lh := fun b hb => h'.lh b (h.lh b hb)
  idle := by
    intro hs
    rw [h'.idle (by rw [h.outstanding]; exact hs), h.idle hs]

theorem size : t.log.size = s.log.size := by rw [h.log]; rfl

theorem committing : t.log.committing = s.log.committing := by
  rw [h.log]
  rfl

theorem inLog : t.log.format.inLog b ↔ s.log.format.inLog b := by
  rw [h.log]
  rfl

end

end Frame

/-- A system call is under way, and there is room for `n` more blocks in the
log and, with two buffers to spare, in the cache. -/
structure Room (s : Blk) (n : Nat) : Prop where
  busy : 1 ≤ s.log.outstanding
  log : s.log.lh.length + n + 1 ≤ s.log.size
  cache : s.log.lh.length + n + 3 ≤ NBUF

/-- The stops for want of buffers or of log space are let through, or there is
room for `n` more blocks.  To record any, a system call has to be under way. -/
def Supply (E : Stop → Prop) (s : Blk) (n : Nat) : Prop :=
  Tolerant E ∧ (0 < n → s.log.outstanding < 1 → E (.panic .logWriteOutside)) ∨ s.Room n

def Logged (s t : Blk) (S : List Nat) : Prop := ∀ b ∈ t.log.lh, b ∈ s.log.lh ∨ b ∈ S

namespace Logged

variable {S' : List Nat}

theorem of_log (h : t.log = s.log) : Logged s t [] := by
  intro b hb
  rw [h] at hb
  exact .inl hb

theorem mono (h : Logged s t S) (hS : ∀ b ∈ S, b ∈ S') : Logged s t S' :=
  fun b hb => (h b hb).imp_right (hS b)

theorem trans (h : Logged s t S) (h' : Logged t u S') : Logged s u (S ++ S') := by
  intro b hb
  rcases h' b hb with hb | hb
  · exact (h b hb).imp_right (mem_append_left S')
  · exact .inr (mem_append_right S hb)

theorem congr_left (h : Logged s u S) (hlog : t.log = s.log) : Logged t u S := by
  intro b hb
  rw [hlog]
  exact h b hb

theorem congr_right (h : Logged s t S) (hlog : u.log = t.log) : Logged s u S := by
  intro b hb
  rw [hlog] at hb
  exact h b hb

theorem length_le (h : Logged s t S) (hnd : t.log.lh.Nodup) :
    t.log.lh.length ≤ s.log.lh.length + S.length := by
  have hsub : t.log.lh ⊆ s.log.lh ++ S := fun b hb => mem_append.mpr (h b hb)
  have hle := (hnd.subperm hsub).length_le
  rwa [length_append] at hle

end Logged

namespace Supply

variable {m : Nat}

theorem read (hE : Tolerant E) : Supply E s 0 := .inl ⟨hE, fun h => absurd h (Nat.lt_irrefl 0)⟩

theorem lax (hE : ∀ e, E e) : Supply E s n := .inl ⟨fun e _ => hE e, fun _ _ => hE _⟩

theorem mono (h : Supply E s n) (hm : m ≤ n) : Supply E s m := by
  rcases h with ⟨hE, hop⟩ | h
  · exact .inl ⟨hE, fun hpos => hop (Nat.lt_of_lt_of_le hpos hm)⟩
  have hlog := h.log
  have hcache := h.cache
  exact .inr ⟨h.busy, by omega, by omega⟩

theorem spend (h : Supply E s n) (hf : Frame s t) (hnd : t.log.lh.Nodup) (hS : Logged s t S)
    (hm : S.length + m ≤ n) : Supply E t m := by
  rcases h with ⟨hE, hop⟩ | h
  · rw [← hf.outstanding] at hop
    exact .inl ⟨hE, fun _ => hop (by omega)⟩
  have hlen := hS.length_le hnd
  have hlog := h.log
  have hcache := h.cache
  refine .inr ⟨by rw [hf.outstanding]; exact h.busy, ?_, by omega⟩
  rw [hf.size]
  omega

theorem congr (h : Supply E s n) (hlog : t.log = s.log) : Supply E t n := by
  rcases h with h | h
  · rw [← hlog] at h
    exact .inl h
  · exact .inr ⟨by rw [hlog]; exact h.busy, by rw [hlog]; exact h.log, by rw [hlog]; exact h.cache⟩

end Supply

namespace On

variable {v : Nat → Block} {T T' : Nat → Prop} {hs : List BufId} {i : BufId}
  {Q : Unit → Blk → Prop} {d : Block}

theorem mono (h : s.On v T hs) (hT : ∀ b, T b → T' b)
    (hfresh : ∀ b, s.log.format.inLog b → ¬T' b) : s.On v T' hs where
  view := h.view.weaken hT
  log := { h.log with fresh := hfresh }

theorem untaint (h : s.On v T hs) (hb : b ∈ s.log.lh) : s.On v (without T b) hs where
  view :=
    { h.view with
      cached := by
        intro j hj hv hd hbj
        apply h.view.cached j hj hv hd
        by_cases hjb : (s.buf j).blockno = b
        · rw [hjb]
          exact .inl hb
        · exact hbj.imp_right fun hn ht => hn ⟨ht, hjb⟩ }
  log := { h.log with fresh := fun c hc ht => h.log.fresh c hc ht.1 }

theorem exists_victim (h : s.On v T hs) (hroom : s.Room n) (hlen : hs.length ≤ 2) :
    ∃ i, s.victim = some i := by
  have hcache := hroom.cache
  refine h.view.sound.exists_victim hs ?_ (by omega)
  intro i hi
  simp [noExtra, hi]

theorem bread_wp (h : s.On v T hs) (hE : Supply E s n) (hlen : hs.length ≤ 2) {dev : Nat}
    (hdev : dev = s.log.dev) (hb : ∀ i ∈ hs, (s.buf i).blockno ≠ b) {Q : BufId → Blk → Prop}
    (hQ : ∀ i t, t.On v T (i :: hs) → Frame s t → (t.buf i).blockno = b →
      (∀ j ∈ hs, t.buf j = s.buf j) → t.log = s.log →
      (b ∈ s.log.lh ∨ ¬T b → (t.buf i).data = v b) → Q i t) : Wp E (bread dev b) Q s := by
  have hroom : (∃ i, s.victim = some i) ∨ E (.panic .bgetNoBuffers) := by
    rcases hE with ⟨hE, _⟩ | hroom
    · exact .inr (hE _ rfl)
    · exact .inl (h.exists_victim hroom hlen)
  refine h.view.bread hdev hb (fun _ _ => by simp [noExtra]) (.inr hroom) ?_
  intro i t hat hf hdata
  have hlog : t.log = s.log := hf.log
  refine hQ i t ⟨by rw [hlog]; exact hat, by rw [hlog]; exact h.log⟩
    (Frame.of_log hf.disk hf.writes hf.pid hlog) hf.blockno ?_ hlog hdata
  intro j hj
  apply hf.other
  rintro rfl
  have hnd := hat.hsNodup
  simp [hj] at hnd

theorem brelse_wp (h : s.On v T (i :: hs))
    (hdata : (s.buf i).blockno ∈ s.log.lh ∨ ¬T (s.buf i).blockno →
      (s.buf i).data = v (s.buf i).blockno)
    (hQ : ∀ t, t.On v T hs → Frame s t → (∀ j ∈ hs, t.buf j = s.buf j) → t.log = s.log →
      Q () t) : Wp E (brelse i) Q s := by
  have hi : i ∉ hs := (nodup_cons.mp h.view.hsNodup).1
  refine h.view.brelse_wp (i := i) mem_cons_self hdata ?_
  intro t hat ht hw hd
  rw [erase_cons_head] at hat
  refine hQ t ⟨by rw [ht.log]; exact hat, by rw [ht.log]; exact h.log⟩
    (Frame.of_log hd hw ht.pid ht.log) ?_ ht.log
  intro j hj
  exact ht.other j fun e => hi (e ▸ hj)

theorem brelse_stale_wp (h : s.On v T (i :: hs)) (hb : (s.buf i).blockno ∉ s.log.lh)
    (hout : ¬s.log.format.inLog (s.buf i).blockno)
    (hQ : ∀ t, t.On v (fun c => T c ∨ c = (s.buf i).blockno) hs → Frame s t →
      (∀ j ∈ hs, t.buf j = s.buf j) → t.log = s.log → Q () t) : Wp E (brelse i) Q s := by
  have hmono : s.On v (fun c => T c ∨ c = (s.buf i).blockno) (i :: hs) := by
    refine h.mono (fun _ => .inl) ?_
    rintro c hc (ht | rfl)
    · exact h.log.fresh c hc ht
    · exact hout hc
  refine hmono.brelse_wp ?_ hQ
  rintro (hm | hn)
  · exact absurd hm hb
  · exact absurd (.inr rfl) hn

theorem absorb (h : s.On v T (i :: hs)) (hb : (s.buf i).blockno ∈ s.log.lh) :
    s.On (update v (s.buf i).blockno (s.buf i).data) (without T (s.buf i).blockno)
      (i :: hs) :=
  On.untaint ⟨h.view.absorb mem_cons_self hb, h.log⟩ hb

private theorem record_ok {l : Log} (hok : l.Ok T) (hout : ¬l.format.inLog b) (hb : b ∉ l.lh)
    (hsmall : b < 2 ^ 32) (hcheck : l.writeCheck = none) (hnlog : l.size ≤ LOGSIZE) :
    (l.record b).Ok T := by
  have hlen : l.lh.length < LOGSIZE ∧ (l.lh.length : Int) < (l.size : Int) - 1 := by
    unfold Log.writeCheck at hcheck
    split at hcheck
    · simp at hcheck
    · rename_i hn
      omega
  have hlog : LOGSIZE = NBUF := rfl
  unfold Log.record
  rw [if_neg hb]
  refine ⟨⟨?_, ?_⟩, ?_, ?_, ?_, hok.fresh⟩
  · change (l.lh ++ [b]).length + 1 ≤ l.size
    rw [length_append, length_singleton]
    omega
  · intro c hc
    rcases mem_append.mp hc with hc | hc
    · exact hok.fits.outside c hc
    · rw [mem_singleton.mp hc]
      exact hout
  · rw [nodup_append]
    refine ⟨hok.nodup, nodup_singleton b, ?_⟩
    intro a ha c hc hac
    rw [mem_singleton.mp hc] at hac
    exact hb (hac ▸ ha)
  · rw [length_append, length_singleton]
    omega
  · intro c hc
    rcases mem_append.mp hc with hc | hc
    · exact hok.small c hc
    · rw [mem_singleton.mp hc]
      exact hsmall

section

variable (h : s.On v T (i :: hs))
include h

theorem logWrite_wp (hE : Supply E s 1)
    (hout : ¬s.log.format.inLog (s.buf i).blockno) (hsmall : (s.buf i).blockno < 2 ^ 32)
    (hnlog : s.log.size ≤ LOGSIZE) (hQ : ∀ t, t.On (update v (s.buf i).blockno (s.buf i).data)
        (without T (s.buf i).blockno) (i :: hs) →
      Frame s t → (t.buf i).blockno = (s.buf i).blockno → (t.buf i).data = (s.buf i).data →
      (∀ j ∈ hs, t.buf j = s.buf j) → (s.buf i).blockno ∈ t.log.lh →
      Logged s t [(s.buf i).blockno] → Q () t) : Wp E (logWrite i) Q s := by
  have hi : i ∉ hs := (nodup_cons.mp h.view.hsNodup).1
  have hi' : i ∈ i :: hs := mem_cons_self
  have hne : ∀ j ∈ hs, j ≠ i := fun j hj e => hi (e ▸ hj)
  unfold logWrite
  rw [Wp.bind_iff, getLog_wp]
  cases hcheck : s.log.writeCheck with
  | some p =>
    unfold Log.writeCheck at hcheck
    rcases hE with ⟨hE, hop⟩ | hroom
    · split at hcheck
      · cases hcheck
        exact hE _ rfl
      split at hcheck
      · rename_i hnone
        cases hcheck
        exact hop Nat.one_pos hnone
      · cases hcheck
    · -- there is room, so neither test fails
      have hlog := hroom.log
      have hbusy := hroom.busy
      rw [if_neg (by omega), if_neg (by omega)] at hcheck
      cases hcheck
  | none =>
    simp only
    rw [Wp.bind_iff, getBuf_wp]
    by_cases hb : (s.buf i).blockno ∈ s.log.lh
    · rw [if_pos hb, Wp.pure_iff]
      exact hQ s (h.absorb hb) (Frame.refl s) rfl rfl (fun _ _ => rfl) hb fun c hc => .inl hc
    rw [if_neg hb]
    have hrec : (s.log.record (s.buf i).blockno).lh =
        s.log.lh ++ [(s.buf i).blockno] := by
      unfold Log.record
      rw [if_neg hb]
    have hat := h.view.record hi' hb (by simp [noExtra])
    have hmem : (s.buf i).blockno ∈ (s.log.record (s.buf i).blockno).lh := by
      rw [hrec]
      simp
    rw [← hrec] at hat
    have hdev : (s.log.record (s.buf i).blockno).dev = s.log.dev := by
      unfold Log.record
      rw [if_neg hb]
    have hon : ((s.setBuf i { s.buf i with refcnt := incr32 (s.buf i).refcnt }).withLog
        (s.log.record (s.buf i).blockno)).On
        (update v (s.buf i).blockno (s.buf i).data) T (i :: hs) :=
      ⟨hat.setLog hdev, record_ok h.log hout hb hsmall hcheck hnlog⟩
    refine hQ _ (hon.untaint hmem) ⟨rfl, rfl, rfl, ?_, ?_, ?_⟩ ?_ ?_ ?_ hmem ?_
    · unfold Log.record
      rw [if_neg hb]
      rfl
    · intro c hc
      change c ∈ (s.log.record (s.buf i).blockno).lh
      rw [hrec]
      exact mem_append_left _ hc
    · intro hidle
      unfold Log.writeCheck at hcheck
      rw [if_pos hidle] at hcheck
      split at hcheck <;> simp at hcheck
    · change ((s.setBuf i _).buf i).blockno = _
      rw [setBuf_self]
    · change ((s.setBuf i _).buf i).data = _
      rw [setBuf_self]
    · intro j hj
      exact setBuf_ne (hne j hj)
    · intro c hc
      change c ∈ (s.log.record (s.buf i).blockno).lh at hc
      rw [hrec] at hc
      exact mem_append.mp hc

theorem setData_wp
    (hQ : ∀ t, t.On v T (i :: hs) → Frame s t → (t.buf i).blockno = (s.buf i).blockno →
      (t.buf i).data = d → (∀ j ∈ hs, t.buf j = s.buf j) → t.log = s.log → Q () t) :
    Wp E (setData i d) Q s := by
  have hi : i ∉ hs := (nodup_cons.mp h.view.hsNodup).1
  refine h.view.setData_wp mem_cons_self ?_
  intro t hat ht hd hw hdisk
  refine hQ t ⟨by rw [ht.log]; exact hat, by rw [ht.log]; exact h.log⟩
    (Frame.of_log hdisk hw ht.pid ht.log) ht.blockno hd ?_ ht.log
  intro j hj
  exact ht.other j fun e => hi (e ▸ hj)

section

variable (hE : Supply E s 1) (hb : (s.buf i).blockno = b) (hout : ¬s.log.format.inLog b)
  (hsmall : b < 2 ^ 32) (hnlog : s.log.size ≤ LOGSIZE)
include hE hb hout hsmall hnlog

theorem storeLog_wp {α : Type} {rest : BlkM α} {Q : α → Blk → Prop}
    (hQ : ∀ t, t.On (update v b d) (without T b) hs → Frame s t →
      (∀ j ∈ hs, t.buf j = s.buf j) → b ∈ t.log.lh → Logged s t [b] → Wp E rest Q t) :
    Wp E (do setData i d; logWrite i; brelse i; rest) Q s := by
  subst hb
  refine Wp.bind (h.setData_wp ?_)
  intro t1 hon1 hf1 hb1 hd1 ho1 hlog1
  refine Wp.bind (hon1.logWrite_wp (hE.congr hlog1) ?_ ?_ ?_ ?_)
  · rw [hb1, hlog1]
    exact hout
  · rw [hb1]
    exact hsmall
  · rw [hlog1]
    exact hnlog
  intro t2 hon2 hf2 hb2 hd2 ho2 hm2 hl2
  rw [hb1, hd1] at hon2
  rw [hb1] at hb2 hm2 hl2
  refine Wp.bind (hon2.brelse_wp ?_ ?_)
  · intro _
    rw [hb2, update_self, hd2, hd1]
  intro t3 hon3 hf3 ho3 hlog3
  refine hQ t3 hon3 ((hf1.trans hf2).trans hf3) ?_ (hf3.lh _ hm2)
    ((hl2.congr_left hlog1.symm).congr_right hlog3)
  intro j hj
  rw [ho3 j hj, ho2 j hj, ho1 j hj]

theorem storeLogEnd_wp (hQ : ∀ t, t.On (update v b d) (without T b) hs → Frame s t →
      (∀ j ∈ hs, t.buf j = s.buf j) → b ∈ t.log.lh → Logged s t [b] → Q () t) :
    Wp E (do setData i d; logWrite i; brelse i) Q s := by
  have hrest : Wp E (do setData i d; logWrite i; brelse i; pure ()) Q s :=
    h.storeLog_wp hE hb hout hsmall hnlog hQ
  simp only [Wp.bind_iff] at hrest ⊢
  exact hrest

end

end

end On

end Blk

end Xv6.Kernel
