import Xv6.Proofs.Cache
/-!
# The logical contents of the disk

`At s v T p x hs` relates the block layer to the contents `v` that its users
see.  A block of `p` is pinned and lives in the cache; every other block lives
on the disk.  The running process holds the buffers `hs`, about whose contents
nothing is said.  `T` is the set of blocks of which a stale copy may be cached:
a copy that was changed and never recorded in the log.  `x` counts references
to a buffer that no pin and no holder accounts for.
-/

namespace Xv6.Kernel

open Xv6.Lib Function List

namespace Blk

/-- See the head of this file. -/
structure At (s : Blk) (v : Nat → Block) (T : Nat → Prop) (p : List Nat) (x : BufId → Nat)
    (hs : List BufId) : Prop where
  sound : s.Sound p fun i => x i + if i ∈ hs then 1 else 0
  hsNodup : hs.Nodup
  lock : ∀ i, (s.buf i).lock = if i ∈ hs then some s.pid else none
  held : ∀ i ∈ hs, (s.buf i).dev = s.log.dev ∧ (s.buf i).valid = true
  disk : ∀ b, b ∉ p → s.disk b = v b
  cached : ∀ i, i ∉ hs → (s.buf i).valid = true → (s.buf i).dev = s.log.dev →
    ((s.buf i).blockno ∈ p ∨ ¬T (s.buf i).blockno) → (s.buf i).data = v (s.buf i).blockno

namespace At

variable {s t : Blk} {v : Nat → Block} {T : Nat → Prop} {p : List Nat} {x : BufId → Nat}
  {hs : List BufId} {b : Nat} {i : BufId} {Q : Unit → Blk → Prop} {E : Stop → Prop} {j : BufId}
  {y : Buf} {d : Block}

section

variable (h : s.At v T p x hs)
include h

theorem lock_held (hi : i ∈ hs) : (s.buf i).lock = some s.pid := by
  rw [h.lock i, if_pos hi]

theorem lock_free (hi : i ∉ hs) : (s.buf i).lock = none := by
  rw [h.lock i, if_neg hi]

theorem eq_of_blockno (hi : i ∈ hs)
    (hj : (s.buf j).dev = s.log.dev) (hb : (s.buf j).blockno = (s.buf i).blockno) : j = i :=
  h.sound.key j i hj (h.held i hi).1 hb

theorem victim_not_held (hv : s.victim = some i) : i ∉ hs := by
  intro hi
  have hz := h.sound.cnt_eq_zero (victim_refcnt hv)
  simp [hi] at hz

end

theorem held_ne (h : s.At v T p x [i, j]) : j ≠ i := by
  intro he
  have hnd := h.hsNodup
  simp [he] at hnd

structure Fetched (s t : Blk) (b : Nat) (i : BufId) : Prop where
  disk : t.disk = s.disk
  writes : t.writes = s.writes
  log : t.log = s.log
  pid : t.pid = s.pid
  blockno : (t.buf i).blockno = b
  other : ∀ j, j ≠ i → t.buf j = s.buf j
  source : s.Caches s.log.dev b i ∨ (s.buf i).refcnt = 0

private theorem cnt_push (hi : i ∉ hs) : (update (fun j => x j + if j ∈ hs then 1 else 0) i
      ((x i + if i ∈ hs then 1 else 0) + 1)) = fun j => x j + if j ∈ i :: hs then 1 else 0 := by
  funext j
  rcases eq_or_ne j i with rfl | hj
  · simp [hi]
  · simp [hj]

section

variable (h : s.At v T p x hs)
include h

private theorem push (hi : i ∉ hs)
    (hsound : (s.setBuf i y).Sound p fun j => x j + if j ∈ i :: hs then 1 else 0)
    (hlock : y.lock = some s.pid) (hdev : y.dev = s.log.dev) (hvalid : y.valid = true) :
    (s.setBuf i y).At v T p x (i :: hs) where
  sound := hsound
  hsNodup := nodup_cons.mpr ⟨hi, h.hsNodup⟩
  lock := by
    intro j
    rcases eq_or_ne j i with rfl | hj
    · rw [setBuf_self, if_pos mem_cons_self]
      exact hlock
    · rw [setBuf_ne hj, h.lock j]
      simp [hj]
  held := by
    intro j hj
    rcases eq_or_ne j i with rfl | hji
    · rw [setBuf_self]
      exact ⟨hdev, hvalid⟩
    · rw [setBuf_ne hji]
      exact h.held j ((mem_cons.mp hj).resolve_left hji)
  disk := h.disk
  cached := by
    intro j hj hv hd hb
    have hji : j ≠ i := fun e => hj (e ▸ mem_cons_self)
    rw [setBuf_ne hji] at hv hd hb ⊢
    exact h.cached j (fun hm => hj (mem_cons_of_mem _ hm)) hv hd hb

/-- `bread`: the contents handed out are those of `v` unless a stale copy may
be cached.  It fails only when every buffer is in use. -/
theorem bread {Q : BufId → Blk → Prop} {dev : Nat}
    (hdev : dev = s.log.dev) (hb : ∀ i ∈ hs, (s.buf i).blockno ≠ b)
    (hx : ∀ i, s.Caches s.log.dev b i → x i + 3 < 2 ^ 32)
    (hroom : (∃ i, s.lookup s.log.dev b = some i) ∨ (∃ i, s.victim = some i) ∨
      E (.panic .bgetNoBuffers)) (hQ : ∀ i t, t.At v T p x (i :: hs) → Fetched s t b i →
      (b ∈ p ∨ ¬T b → (t.buf i).data = v b) → Q i t) : Wp E (bread dev b) Q s := by
  subst hdev
  apply bread_wp
  · intro i hl hlk
    have hc := lookup_caches hl
    have hi : i ∉ hs := fun hm => hb i hm hc.2
    have hx' := hx i hc
    have hsound := h.sound.hit (i := i) (by simp only [hi, if_false]; omega)
    rw [cnt_push hi] at hsound
    refine hQ i _ (h.push hi hsound rfl hc.1 rfl)
      ⟨rfl, rfl, rfl, rfl, ?_, fun j hj => setBuf_ne hj, .inl hc⟩ ?_
    · rw [setBuf_self]
      exact hc.2
    intro hclean
    rw [setBuf_self]
    change (if (s.buf i).valid then (s.buf i).data else s.disk (s.buf i).blockno) = v b
    by_cases hv : (s.buf i).valid = true
    · rw [if_pos hv, ← hc.2]
      exact h.cached i hi hv hc.1 (hc.2.symm ▸ hclean)
    rw [if_neg hv, hc.2]
    apply h.disk
    intro hbp
    obtain ⟨j, hj, hvj⟩ := h.sound.pinned b hbp
    rw [h.sound.key j i hj.1 hc.1 (hj.2.trans hc.2.symm)] at hvj
    exact hv hvj
  · intro i hl hv _
    have hi := h.victim_not_held hv
    have hsound := h.sound.miss hl hv
    rw [cnt_push hi] at hsound
    refine hQ i _ (h.push hi hsound rfl rfl rfl)
      ⟨rfl, rfl, rfl, rfl, ?_, fun j hj => setBuf_ne hj, .inr (victim_refcnt hv)⟩ ?_
    · rw [setBuf_self]
      rfl
    intro _
    rw [setBuf_self]
    exact h.disk b (h.sound.not_mem_of_lookup hl)
  · intro hl hv
    rcases hroom with ⟨i, hi⟩ | ⟨i, hi⟩ | hE
    · rw [hl] at hi
      exact absurd hi (by simp)
    · rw [hv] at hi
      exact absurd hi (by simp)
    · exact hE
  · intro i hcase hlk
    have hi : i ∈ hs := by
      by_contra hi
      exact hlk (h.lock_free hi)
    rcases hcase with hl | ⟨_, hv⟩
    · exact absurd (lookup_caches hl).2 (hb i hi)
    · exact absurd hi (h.victim_not_held hv)

private theorem lock_setBuf (hl : y.lock = (s.buf i).lock)
    (j : BufId) : ((s.setBuf i y).buf j).lock = if j ∈ hs then some s.pid else none := by
  rcases eq_or_ne j i with rfl | hj
  · rw [setBuf_self, hl]
    exact h.lock j
  · rw [setBuf_ne hj]
    exact h.lock j

private theorem held_setBuf (hd : y.dev = (s.buf i).dev)
    (hv : y.valid = (s.buf i).valid) (j : BufId) (hj : j ∈ hs) :
    ((s.setBuf i y).buf j).dev = s.log.dev ∧ ((s.setBuf i y).buf j).valid = true := by
  rcases eq_or_ne j i with rfl | hji
  · rw [setBuf_self, hd, hv]
    exact h.held j hj
  · rw [setBuf_ne hji]
    exact h.held j hj

theorem setData (hi : i ∈ hs) (d : Block) :
    (s.setBuf i { s.buf i with data := d }).At v T p x hs where
  sound := by
    have hset := h.sound.setBuf (i := i) (x := { s.buf i with data := d })
      (c := x i + if i ∈ hs then 1 else 0) rfl rfl (fun hv => hv) (h.sound.ref i)
      (fun hl => h.sound.locked i hl)
    rwa [update_eq_self] at hset
  hsNodup := h.hsNodup
  lock := h.lock_setBuf rfl
  held := h.held_setBuf rfl rfl
  disk := h.disk
  cached := by
    intro j hj hv hd hb
    have hji : j ≠ i := fun e => hj (e ▸ hi)
    rw [setBuf_ne hji] at hv hd hb ⊢
    exact h.cached j hj hv hd hb

theorem flushed (hi : i ∈ hs) :
    (s.flushed i).At (update v (s.buf i).blockno (s.buf i).data) T p x hs where
  sound := h.sound.flushed i
  hsNodup := h.hsNodup
  lock := h.lock
  held := h.held
  disk := by
    intro b hb
    change update s.disk (s.buf i).blockno (s.buf i).data b = _
    by_cases hbi : b = (s.buf i).blockno
    · subst hbi
      rw [update_self, update_self]
    · rw [update_of_ne hbi, update_of_ne hbi]
      exact h.disk b hb
  cached := by
    intro j hj hv hd hb
    have hne : (s.buf j).blockno ≠ (s.buf i).blockno :=
      fun e => hj (h.eq_of_blockno hi hd e ▸ hi)
    have hsame : (s.flushed i).buf j = s.buf j := rfl
    rw [hsame] at hv hd hb ⊢
    rw [update_of_ne hne]
    exact h.cached j hj hv hd hb

end

private theorem cnt_pop (hd : hs.Nodup) (hi : i ∈ hs) :
    (update (fun j => x j + if j ∈ hs then 1 else 0) i
      ((x i + if i ∈ hs then 1 else 0) - 1)) =
      fun j => x j + if j ∈ hs.erase i then 1 else 0 := by
  funext j
  rcases eq_or_ne j i with rfl | hj
  · have hnot : j ∉ hs.erase j := hd.not_mem_erase
    simp [hi, hnot]
  · simp [hj, mem_erase_of_ne hj]

theorem dropped_buf_ne (hj : j ≠ i) : (s.dropped i).buf j = s.buf j := by
  unfold Blk.dropped
  split
  · exact setBuf_ne hj
  · exact setBuf_ne hj

theorem dropped_buf_self : (s.dropped i).buf i = s.dropBuf i := by
  unfold Blk.dropped
  split
  · exact setBuf_self ..
  · exact setBuf_self ..

@[simp] theorem dropped_disk : (s.dropped i).disk = s.disk := by
  unfold Blk.dropped
  split <;> rfl

@[simp] theorem dropped_writes : (s.dropped i).writes = s.writes := by
  unfold Blk.dropped
  split <;> rfl

@[simp] theorem dropped_log : (s.dropped i).log = s.log := by
  unfold Blk.dropped
  split <;> rfl

@[simp] theorem dropped_pid : (s.dropped i).pid = s.pid := by
  unfold Blk.dropped
  split <;> rfl

section

variable (h : s.At v T p x hs) {T' : Nat → Prop} {l : Log}
include h

/-- `brelse` of a buffer whose contents are those of `v`, or of which a stale
copy is allowed for. -/
theorem dropped (hi : i ∈ hs) (hdata : (s.buf i).blockno ∈ p ∨ ¬T (s.buf i).blockno →
      (s.buf i).data = v (s.buf i).blockno) : (s.dropped i).At v T p x (hs.erase i) where
  sound := by
    have hdrop := h.sound.dropped (i := i) (by simp [hi])
    rwa [cnt_pop h.hsNodup hi] at hdrop
  hsNodup := h.hsNodup.erase i
  lock := by
    intro j
    rcases eq_or_ne j i with rfl | hj
    · have hnot : j ∉ hs.erase j := h.hsNodup.not_mem_erase
      rw [dropped_buf_self, if_neg hnot]
      rfl
    · rw [dropped_buf_ne hj, h.lock j, dropped_pid]
      simp [mem_erase_of_ne hj]
  held := by
    intro j hj
    have hji : j ≠ i := by
      rintro rfl
      exact h.hsNodup.not_mem_erase hj
    rw [dropped_buf_ne hji, dropped_log]
    exact h.held j (mem_of_mem_erase hj)
  disk := by
    intro b hb
    rw [dropped_disk]
    exact h.disk b hb
  cached := by
    intro j hj hv hd hb
    rcases eq_or_ne j i with rfl | hji
    · rw [dropped_buf_self] at hb ⊢
      exact hdata hb
    · rw [dropped_buf_ne hji] at hv hd hb ⊢
      rw [dropped_log] at hd
      exact h.cached j (fun hm => hj ((mem_erase_of_ne hji).mpr hm)) hv hd hb

theorem weaken (hT : ∀ b, T b → T' b) : s.At v T' p x hs where
  sound := h.sound
  hsNodup := h.hsNodup
  lock := h.lock
  held := h.held
  disk := h.disk
  cached := fun i hi hv hd hb => h.cached i hi hv hd (hb.imp_right fun hn ht => hn (hT _ ht))

theorem setLog (hdev : l.dev = s.log.dev) : (s.withLog l).At v T p x hs where
  sound := h.sound.setLog hdev
  hsNodup := h.hsNodup
  lock := h.lock
  held := fun i hi => ⟨(h.held i hi).1.trans hdev.symm, (h.held i hi).2⟩
  disk := h.disk
  cached := fun i hi hv hd hb => h.cached i hi hv (hd.trans hdev) hb

theorem absorb (hi : i ∈ hs) (hb : (s.buf i).blockno ∈ p) :
    s.At (update v (s.buf i).blockno (s.buf i).data) T p x hs where
  sound := h.sound
  hsNodup := h.hsNodup
  lock := h.lock
  held := h.held
  disk := by
    intro c hc
    have hci : c ≠ (s.buf i).blockno := fun e => hc (e ▸ hb)
    rw [update_of_ne hci]
    exact h.disk c hc
  cached := by
    intro j hj hv hd hbj
    have hne : (s.buf j).blockno ≠ (s.buf i).blockno :=
      fun e => hj (h.eq_of_blockno hi hd e ▸ hi)
    rw [update_of_ne hne]
    exact h.cached j hj hv hd hbj

theorem record (hi : i ∈ hs) (hb : (s.buf i).blockno ∉ p)
    (hx : x i + 3 < 2 ^ 32) : (s.setBuf i { s.buf i with refcnt := incr32 (s.buf i).refcnt }).At
      (update v (s.buf i).blockno (s.buf i).data) T (p ++ [(s.buf i).blockno]) x hs where
  sound := h.sound.record ⟨(h.held i hi).1, rfl⟩ (h.held i hi).2 hb
    (by simp only [hi, if_true]; omega)
  hsNodup := h.hsNodup
  lock := h.lock_setBuf rfl
  held := h.held_setBuf rfl rfl
  disk := by
    intro c hc
    have hcp : c ∉ p := fun hm => hc (mem_append_left _ hm)
    have hci : c ≠ (s.buf i).blockno :=
      fun e => hc (mem_append_right _ (e ▸ mem_singleton_self _))
    rw [update_of_ne hci]
    exact h.disk c hcp
  cached := by
    intro j hj hv hd hbj
    have hji : j ≠ i := fun e => hj (e ▸ hi)
    rw [setBuf_ne hji] at hv hd hbj ⊢
    have hne : (s.buf j).blockno ≠ (s.buf i).blockno := fun e => hji (h.eq_of_blockno hi hd e)
    rw [update_of_ne hne]
    refine h.cached j hj hv hd (hbj.imp_left ?_)
    intro hm
    rcases mem_append.mp hm with hm | hm
    · exact hm
    · exact absurd (mem_singleton.mp hm) hne

end

theorem unpin (h : s.At v T (b :: p) x hs) (hi : i ∈ hs) (hbi : (s.buf i).blockno = b)
    (hb : b ∉ p) (hdisk : s.disk b = v b) :
    (s.setBuf i { s.buf i with refcnt := decr32 (s.buf i).refcnt }).At v T p x hs where
  sound := h.sound.unpin ⟨(h.held i hi).1, hbi⟩ hb
  hsNodup := h.hsNodup
  lock := h.lock_setBuf rfl
  held := h.held_setBuf rfl rfl
  disk := by
    intro c hc
    by_cases hcb : c = b
    · rw [hcb]
      exact hdisk
    · exact h.disk c (fun hm => (mem_cons.mp hm).elim hcb hc)
  cached := by
    intro j hj hv hd hbj
    have hji : j ≠ i := fun e => hj (e ▸ hi)
    rw [setBuf_ne hji] at hv hd hbj ⊢
    exact h.cached j hj hv hd (hbj.imp_left (mem_cons_of_mem _))

structure Touched (s t : Blk) (i : BufId) : Prop where
  log : t.log = s.log
  pid : t.pid = s.pid
  blockno : (t.buf i).blockno = (s.buf i).blockno
  other : ∀ j, j ≠ i → t.buf j = s.buf j

theorem setData_wp (h : s.At v T p x hs) (hi : i ∈ hs)
    (hQ : ∀ t, t.At v T p x hs → Touched s t i → (t.buf i).data = d → t.writes = s.writes →
      t.disk = s.disk → Q () t) : Wp E (Kernel.setData i d) Q s := by
  refine hQ _ (h.setData hi d) ⟨rfl, rfl, ?_, fun j hj => setBuf_ne hj⟩ ?_ rfl rfl
  · rw [setBuf_self]
  · rw [setBuf_self]

/-- A held buffer is filled and written to the disk. -/
theorem store_wp {f : BlkM Unit} (h : s.At v T p x hs) (hi : i ∈ hs)
    (hQ : ∀ t, t.At (update v (s.buf i).blockno d) T p x hs → Touched s t i → (t.buf i).data = d →
      t.writes = s.writes ++ [((s.buf i).blockno, d)] →
      t.disk = update s.disk (s.buf i).blockno d → Wp E f Q t) :
    Wp E (do Kernel.setData i d; bwrite i; f) Q s := by
  refine Wp.bind (h.setData_wp hi ?_)
  intro t hat ht hd hw hdisk
  refine Wp.bind (Kernel.bwrite_wp (hat.lock_held hi) ?_)
  have hat' := hat.flushed hi
  rw [ht.blockno, hd] at hat'
  refine hQ _ hat' ⟨ht.log, ht.pid, ht.blockno, ht.other⟩ hd ?_ ?_
  · rw [← hw, ← ht.blockno, ← hd]
    rfl
  · rw [← hdisk, ← ht.blockno, ← hd]
    rfl

theorem brelse_wp (h : s.At v T p x hs) (hi : i ∈ hs)
    (hdata : (s.buf i).blockno ∈ p ∨ ¬T (s.buf i).blockno →
      (s.buf i).data = v (s.buf i).blockno)
    (hQ : ∀ t, t.At v T p x (hs.erase i) → Touched s t i → t.writes = s.writes →
      t.disk = s.disk → Q () t) : Wp E (brelse i) Q s := by
  refine Kernel.brelse_wp (h.lock_held hi) ?_
  refine hQ _ (h.dropped hi hdata) ⟨dropped_log, dropped_pid, ?_, fun j hj => dropped_buf_ne hj⟩
    dropped_writes dropped_disk
  rw [dropped_buf_self]
  rfl

theorem bunpin_wp (h : s.At v T (b :: p) x hs) (hi : i ∈ hs) (hbi : (s.buf i).blockno = b)
    (hb : b ∉ p) (hdisk : s.disk b = v b)
    (hQ : ∀ t, t.At v T p x hs → Touched s t i → (t.buf i).data = (s.buf i).data →
      t.writes = s.writes → Q () t) : Wp E (bunpin i) Q s := by
  refine hQ _ (h.unpin hi hbi hb hdisk) ⟨rfl, rfl, ?_, fun j hj => setBuf_ne hj⟩ ?_ rfl
  · rw [setBuf_self]
  · rw [setBuf_self]

/-! ## A release that nothing pays for

`install_trans` drops a pin whether or not there is one.  At boot there is
none, so the count of the home block's buffer passes below zero. -/

theorem setBuf_dropped_comm (hij : j ≠ i) (y : Buf) :
    (s.setBuf i y).dropped j = (s.dropped j).setBuf i y := by
  have hbuf : (s.setBuf i y).buf j = s.buf j := setBuf_ne hij
  have hcomm : ∀ z, (s.setBuf i y).setBuf j z = (s.setBuf j z).setBuf i y := by
    intro z
    simp only [Blk.setBuf]
    rw [update_comm hij.symm]
  unfold Blk.dropped dropBuf
  rw [hbuf, hcomm]
  split <;> rfl

theorem overdrop (h : s.At v T [] x hs) (hi : i ∈ hs)
    (hdata : ¬T (s.buf i).blockno → (s.buf i).data = v (s.buf i).blockno) :
    (s.setBuf i { s.buf i with lock := none, refcnt := 2 ^ 32 - 1 }).At v T []
      (update x i (2 ^ 32 - 1)) (hs.erase i) where
  sound := by
    have hpin : 2 ^ 32 - 1 = 2 ^ 32 - 1 + s.pin [] i := by
      rw [Sound.pin_eq_zero rfl not_mem_nil, Nat.add_zero]
    have hset := h.sound.setBuf (i := i)
      (x := { s.buf i with lock := none, refcnt := 2 ^ 32 - 1 }) (c := 2 ^ 32 - 1)
      rfl rfl (fun hv => hv) hpin (fun hl => absurd rfl hl)
    have hcnt : update (fun j => x j + if j ∈ hs then 1 else 0) i (2 ^ 32 - 1) =
        fun j => update x i (2 ^ 32 - 1) j + if j ∈ hs.erase i then 1 else 0 := by
      funext j
      rcases eq_or_ne j i with rfl | hj
      · simp [h.hsNodup.not_mem_erase]
      · simp [hj, mem_erase_of_ne hj]
    rwa [hcnt] at hset
  hsNodup := h.hsNodup.erase i
  lock := by
    intro j
    rcases eq_or_ne j i with rfl | hj
    · have hnot : j ∉ hs.erase j := h.hsNodup.not_mem_erase
      rw [setBuf_self, if_neg hnot]
    · rw [setBuf_ne hj, h.lock j, setBuf_pid]
      simp [mem_erase_of_ne hj]
  held := by
    intro j hj
    have hji : j ≠ i := by
      rintro rfl
      exact h.hsNodup.not_mem_erase hj
    rw [setBuf_ne hji]
    exact h.held j (mem_of_mem_erase hj)
  disk := h.disk
  cached := by
    intro j hj hv hd hb
    rcases eq_or_ne j i with rfl | hji
    · rw [setBuf_self] at hb ⊢
      exact hdata (hb.resolve_left not_mem_nil)
    · rw [setBuf_ne hji] at hv hd hb ⊢
      exact h.cached j (fun hm => hj ((mem_erase_of_ne hji).mpr hm)) hv hd hb

end At

end Blk

end Xv6.Kernel
