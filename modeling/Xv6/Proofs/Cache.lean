import Xv6.Kernel.Log
import Mathlib.Data.List.Nodup
import Mathlib.Data.Finset.Card
import Mathlib.Data.Fintype.Card
/-!
# The buffer cache: what each operation does, and reference accounting

The first part states each operation of `bio.c` as one change to the block
layer.  The second part is the invariant `Sound`: buffers are found by their
block number, and a reference count is the number of callers plus one for a
block that is pinned.
-/

namespace Xv6.Kernel

open Xv6.Lib Function List

variable {s : Blk} {dev b n : Nat} {i : BufId} {x : Buf}

/-! ## Arithmetic of `uint` counters -/

theorem incr32_of_lt (h : n + 1 < 2 ^ 32) : incr32 n = n + 1 := by
  unfold incr32
  rw [if_neg (by omega)]

theorem decr32_succ (n : Nat) : decr32 (n + 1) = n := by
  unfold decr32
  rw [if_neg (by omega)]
  omega

namespace Blk

variable {j : BufId}

/-! ## Field lemmas -/

@[simp] theorem setBuf_self (s : Blk) (i : BufId) (x : Buf) : (s.setBuf i x).buf i = x :=
  update_self ..

theorem setBuf_ne (h : j ≠ i) : (s.setBuf i x).buf j = s.buf j :=
  update_of_ne h ..

@[simp] theorem setBuf_setBuf (s : Blk) (i : BufId) (x y : Buf) :
    (s.setBuf i x).setBuf i y = s.setBuf i y := by
  simp [setBuf]

/-! ## Searching the list -/

theorem lookup_caches (h : s.lookup dev b = some i) : s.Caches dev b i := by
  have hi := List.find?_some h
  simpa using hi

theorem not_caches_of_lookup (h : s.lookup dev b = none) (hmem : i ∈ s.lru) :
    ¬s.Caches dev b i := by
  have hi := List.find?_eq_none.mp h i hmem
  simpa using hi

theorem victim_refcnt (h : s.victim = some i) : (s.buf i).refcnt = 0 := by
  have hi := List.find?_some h
  simpa using hi

theorem refcnt_of_victim_none (h : s.victim = none) (hmem : i ∈ s.lru) : (s.buf i).refcnt ≠ 0 := by
  have hi := List.find?_eq_none.mp h i (mem_reverse.mpr hmem)
  simpa using hi

/-! ## The operations as state changes -/

def hitBuf (s : Blk) (i : BufId) : Buf :=
  { s.buf i with
    refcnt := incr32 (s.buf i).refcnt
    lock := some s.pid
    valid := true
    data := if (s.buf i).valid then (s.buf i).data else s.disk (s.buf i).blockno }

def missBuf (s : Blk) (dev b : Nat) : Buf where
  valid := true
  dev := dev
  blockno := b
  lock := some s.pid
  refcnt := 1
  data := s.disk b

def dropBuf (s : Blk) (i : BufId) : Buf :=
  { s.buf i with lock := none, refcnt := decr32 (s.buf i).refcnt }

def dropped (s : Blk) (i : BufId) : Blk :=
  if decr32 (s.buf i).refcnt = 0 then (s.setBuf i (s.dropBuf i)).touch i
  else s.setBuf i (s.dropBuf i)

def flushed (s : Blk) (i : BufId) : Blk :=
  { s with
    disk := update s.disk (s.buf i).blockno (s.buf i).data
    writes := s.writes ++ [((s.buf i).blockno, (s.buf i).data)] }

end Blk

section Equations

variable {E : Stop → Prop} {Q : Unit → Blk → Prop}

theorem bgetRef_hit (h : s.lookup dev b = some i) : bgetRef dev b s =
      .ok (i, s.setBuf i { s.buf i with refcnt := incr32 (s.buf i).refcnt }) := by
  simp only [bgetRef, bind, Prog.andThen, Prog.get, h]
  rfl

theorem bgetRef_miss (h : s.lookup dev b = none) (hv : s.victim = some i) : bgetRef dev b s =
      .ok (i, s.setBuf i
        { s.buf i with dev := dev, blockno := b, valid := false, refcnt := 1 }) := by
  simp only [bgetRef, bind, Prog.andThen, Prog.get, h, hv]
  rfl

theorem bgetRef_full (h : s.lookup dev b = none) (hv : s.victim = none) :
    bgetRef dev b s = .error (.panic .bgetNoBuffers) := by
  simp only [bgetRef, bind, Prog.andThen, Prog.get, h, hv]
  rfl

theorem acquiresleep_free (h : (s.buf i).lock = none) :
    acquiresleep i s = .ok ((), s.setBuf i { s.buf i with lock := some s.pid }) := by
  simp only [acquiresleep, bind, Prog.andThen, getBuf, Prog.gets, h, if_true]
  rfl

theorem acquiresleep_taken (h : (s.buf i).lock ≠ none) : acquiresleep i s = .error .sleep := by
  simp only [acquiresleep, bind, Prog.andThen, getBuf, Prog.gets, h, if_false]
  rfl

theorem bfill_eq (s : Blk) (i : BufId) : bfill i s = .ok ((), s.setBuf i
      { s.buf i with
        valid := true
        data := if (s.buf i).valid then (s.buf i).data else s.disk (s.buf i).blockno }) := by
  by_cases hv : (s.buf i).valid = false
  · simp only [bfill, bind, Prog.andThen, getBuf, Prog.gets, hv, if_true, diskRead, Prog.modify]
    simp
  have hv' : (s.buf i).valid = true := by simpa using hv
  simp only [bfill, bind, Prog.andThen, getBuf, Prog.gets, hv', if_true, Bool.true_eq_false,
    if_false]
  have hsame : s.setBuf i { s.buf i with valid := true, data := (s.buf i).data } = s := by
    have hb : ({ s.buf i with valid := true, data := (s.buf i).data } : Buf) = s.buf i := by
      rw [← hv']
    rw [hb]
    simp [Blk.setBuf]
  rw [hsame]
  rfl

theorem bread_hit (h : s.lookup dev b = some i) (hl : (s.buf i).lock = none) :
    bread dev b s = .ok (i, s.setBuf i (s.hitBuf i)) := by
  have hl' :
      ((s.setBuf i { s.buf i with refcnt := incr32 (s.buf i).refcnt }).buf i).lock = none := by
    simpa using hl
  simp only [bread, bget, bind, Prog.andThen, bgetRef_hit h, acquiresleep_free hl', pure, Prog.ret,
    bfill_eq]
  simp [Blk.hitBuf]

theorem bread_miss (h : s.lookup dev b = none) (hv : s.victim = some i)
    (hl : (s.buf i).lock = none) : bread dev b s = .ok (i, s.setBuf i (s.missBuf dev b)) := by
  have hl' : ((s.setBuf i { s.buf i with
      dev := dev, blockno := b, valid := false, refcnt := 1 }).buf i).lock = none := by
    simpa using hl
  simp only [bread, bget, bind, Prog.andThen, bgetRef_miss h hv, acquiresleep_free hl', pure,
    Prog.ret, bfill_eq]
  simp [Blk.missBuf]

theorem bread_full (h : s.lookup dev b = none) (hv : s.victim = none) :
    bread dev b s = .error (.panic .bgetNoBuffers) := by
  simp only [bread, bget, bind, Prog.andThen, bgetRef_full h hv]

theorem bread_hit_taken (h : s.lookup dev b = some i) (hl : (s.buf i).lock ≠ none) :
    bread dev b s = .error .sleep := by
  have hl' :
      ((s.setBuf i { s.buf i with refcnt := incr32 (s.buf i).refcnt }).buf i).lock ≠ none := by
    simpa using hl
  simp only [bread, bget, bind, Prog.andThen, bgetRef_hit h, acquiresleep_taken hl']

theorem bread_miss_taken (h : s.lookup dev b = none) (hv : s.victim = some i)
    (hl : (s.buf i).lock ≠ none) : bread dev b s = .error .sleep := by
  have hl' : ((s.setBuf i { s.buf i with
      dev := dev, blockno := b, valid := false, refcnt := 1 }).buf i).lock ≠ none := by
    simpa using hl
  simp only [bread, bget, bind, Prog.andThen, bgetRef_miss h hv, acquiresleep_taken hl']

theorem bwrite_held (h : (s.buf i).lock = some s.pid) : bwrite i s = .ok ((), s.flushed i) := by
  simp only [bwrite, bind, Prog.andThen, holdingsleep, Prog.gets, h, decide_true, if_true]
  rfl

theorem bdrop_eq (s : Blk) (i : BufId) : bdrop i s = .ok ((),
      if decr32 (s.buf i).refcnt = 0 then
        (s.setBuf i { s.buf i with refcnt := decr32 (s.buf i).refcnt }).touch i
      else s.setBuf i { s.buf i with refcnt := decr32 (s.buf i).refcnt }) := by
  by_cases hz : decr32 (s.buf i).refcnt = 0
  · simp only [bdrop, bind, Prog.andThen, getBuf, Prog.gets, putBuf, Prog.modify, hz, if_true]
  · simp only [bdrop, bind, Prog.andThen, getBuf, Prog.gets, putBuf, Prog.modify, hz, if_false]
    rfl

theorem brelse_held (h : (s.buf i).lock = some s.pid) : brelse i s = .ok ((), s.dropped i) := by
  simp only [brelse, bind, Prog.andThen, holdingsleep, Prog.gets, h, decide_true, if_true,
    releasesleep, getBuf, putBuf, Prog.modify, bdrop_eq]
  simp [Blk.dropped, Blk.dropBuf]

theorem bunpin_eq (s : Blk) (i : BufId) :
    bunpin i s = .ok ((), s.setBuf i { s.buf i with refcnt := decr32 (s.buf i).refcnt }) := rfl

theorem bread_wp {Q : BufId → Blk → Prop}
    (hhit : ∀ i, s.lookup dev b = some i → (s.buf i).lock = none → Q i (s.setBuf i (s.hitBuf i)))
    (hmiss : ∀ i, s.lookup dev b = none → s.victim = some i → (s.buf i).lock = none →
      Q i (s.setBuf i (s.missBuf dev b)))
    (hfull : s.lookup dev b = none → s.victim = none → E (.panic .bgetNoBuffers))
    (htaken : ∀ i, s.lookup dev b = some i ∨ (s.lookup dev b = none ∧ s.victim = some i) →
      (s.buf i).lock ≠ none → E .sleep) : Wp E (bread dev b) Q s := by
  unfold Wp
  cases h : s.lookup dev b with
  | some i =>
    by_cases hl : (s.buf i).lock = none
    · rw [bread_hit h hl]
      exact hhit i h hl
    · rw [bread_hit_taken h hl]
      exact htaken i (.inl h) hl
  | none =>
    cases hv : s.victim with
    | some i =>
      by_cases hl : (s.buf i).lock = none
      · rw [bread_miss h hv hl]
        exact hmiss i h hv hl
      · rw [bread_miss_taken h hv hl]
        exact htaken i (.inr ⟨h, hv⟩) hl
    | none =>
      rw [bread_full h hv]
      exact hfull h hv

theorem bwrite_wp (h : (s.buf i).lock = some s.pid)
    (hQ : Q () (s.flushed i)) : Wp E (bwrite i) Q s := by
  unfold Wp
  rwa [bwrite_held h]

theorem brelse_wp (h : (s.buf i).lock = some s.pid)
    (hQ : Q () (s.dropped i)) : Wp E (brelse i) Q s := by
  unfold Wp
  rwa [brelse_held h]

end Equations

/-! ## Reference accounting -/

namespace Blk

def pin (s : Blk) (p : List Nat) (i : BufId) : Nat :=
  if (s.buf i).dev = s.log.dev ∧ (s.buf i).blockno ∈ p then 1 else 0

/-- The cache is well linked, holds each block of the log's device at most
once, counts `cnt i` callers plus one pin on buffer `i`, and keeps every block
of `p` in a valid buffer. -/
structure Sound (s : Blk) (p : List Nat) (cnt : BufId → Nat) : Prop where
  lruNodup : s.lru.Nodup
  lruMem : ∀ i, i ∈ s.lru
  devNe : s.log.dev ≠ 0
  key : ∀ i j, (s.buf i).dev = s.log.dev → (s.buf j).dev = s.log.dev →
    (s.buf i).blockno = (s.buf j).blockno → i = j
  ref : ∀ i, (s.buf i).refcnt = cnt i + s.pin p i
  locked : ∀ i, (s.buf i).lock ≠ none → 0 < cnt i
  pinned : ∀ b ∈ p, ∃ i, s.Caches s.log.dev b i ∧ (s.buf i).valid = true

namespace Sound

variable {p : List Nat} {cnt : BufId → Nat}

theorem lookup_eq (h : s.Sound p cnt) (hc : s.Caches s.log.dev b i) :
    s.lookup s.log.dev b = some i := by
  cases hl : s.lookup s.log.dev b with
  | none => exact absurd hc (not_caches_of_lookup hl (h.lruMem i))
  | some j =>
    have hj := lookup_caches hl
    rw [h.key j i hj.1 hc.1 (hj.2.trans hc.2.symm)]

theorem not_mem_of_lookup (h : s.Sound p cnt) (hl : s.lookup s.log.dev b = none) : b ∉ p := by
  intro hb
  obtain ⟨i, hc, _⟩ := h.pinned b hb
  exact not_caches_of_lookup hl (h.lruMem i) hc

theorem pin_eq_one (hc : s.Caches s.log.dev b i) (hb : b ∈ p) : s.pin p i = 1 := by
  unfold pin
  rw [if_pos ⟨hc.1, hc.2.symm ▸ hb⟩]

theorem pin_eq_zero (hc : (s.buf i).blockno = b) (hb : b ∉ p) : s.pin p i = 0 := by
  unfold pin
  rw [if_neg (fun hp => hb (hc ▸ hp.2))]

section

variable (h : s.Sound p cnt) {c : Nat} {l : Log}
include h

theorem cnt_eq_zero (hz : (s.buf i).refcnt = 0) : cnt i = 0 := by
  have := h.ref i
  omega

theorem lock_eq_none (hz : (s.buf i).refcnt = 0) : (s.buf i).lock = none := by
  by_contra hl
  have hpos := h.locked i hl
  rw [h.cnt_eq_zero hz] at hpos
  exact Nat.lt_irrefl _ hpos

theorem setBuf (hdev : x.dev = (s.buf i).dev)
    (hno : x.blockno = (s.buf i).blockno) (hvalid : (s.buf i).valid = true → x.valid = true)
    (href : x.refcnt = c + s.pin p i) (hlock : x.lock ≠ none → 0 < c) :
    (s.setBuf i x).Sound p (update cnt i c) := by
  have hbuf : ∀ j, ((s.setBuf i x).buf j).dev = (s.buf j).dev ∧
      ((s.setBuf i x).buf j).blockno = (s.buf j).blockno := by
    intro j
    rcases eq_or_ne j i with rfl | hj
    · rw [setBuf_self]
      exact ⟨hdev, hno⟩
    · rw [setBuf_ne hj]
      exact ⟨rfl, rfl⟩
  have hpin : ∀ j, (s.setBuf i x).pin p j = s.pin p j := by
    intro j
    simp only [pin, (hbuf j).1, (hbuf j).2, setBuf_log]
  refine ⟨h.lruNodup, h.lruMem, h.devNe, ?_, ?_, ?_, ?_⟩
  · intro j k hj hk hjk
    rw [(hbuf j).1] at hj
    rw [(hbuf k).1] at hk
    rw [(hbuf j).2, (hbuf k).2] at hjk
    exact h.key j k hj hk hjk
  · intro j
    rw [hpin]
    rcases eq_or_ne j i with rfl | hj
    · rw [setBuf_self, update_self]
      exact href
    · rw [setBuf_ne hj, update_of_ne hj]
      exact h.ref j
  · intro j hl
    rcases eq_or_ne j i with rfl | hj
    · rw [setBuf_self] at hl
      rw [update_self]
      exact hlock hl
    · rw [setBuf_ne hj] at hl
      rw [update_of_ne hj]
      exact h.locked j hl
  · intro c hc
    obtain ⟨j, hj, hv⟩ := h.pinned c hc
    refine ⟨j, ⟨(hbuf j).1.trans hj.1, (hbuf j).2.trans hj.2⟩, ?_⟩
    rcases eq_or_ne j i with rfl | hji
    · rw [setBuf_self]
      exact hvalid hv
    · rw [setBuf_ne hji]
      exact hv

theorem recycle (hl : s.lookup s.log.dev b = none)
    (hz : (s.buf i).refcnt = 0) (hno : x.blockno = b) (href : x.refcnt = c)
    (hlock : x.lock ≠ none → 0 < c) :
    (s.setBuf i x).Sound p (update cnt i c) := by
  have hnew : ∀ j, j ≠ i → (s.buf j).dev = s.log.dev → (s.buf j).blockno ≠ b :=
    fun j _ hd hb => not_caches_of_lookup hl (h.lruMem j) ⟨hd, hb⟩
  have hbp : b ∉ p := h.not_mem_of_lookup hl
  refine ⟨h.lruNodup, h.lruMem, h.devNe, ?_, ?_, ?_, ?_⟩
  · intro j k hj hk hjk
    by_cases hji : j = i
    · by_cases hki : k = i
      · rw [hji, hki]
      subst hji
      rw [setBuf_ne hki] at hk hjk
      rw [setBuf_self, hno] at hjk
      exact absurd hjk.symm (hnew k hki hk)
    rcases eq_or_ne k i with rfl | hki
    · rw [setBuf_ne hji] at hj hjk
      rw [setBuf_self, hno] at hjk
      exact absurd hjk (hnew j hji hj)
    · rw [setBuf_ne hji] at hj hjk
      rw [setBuf_ne hki] at hk hjk
      exact h.key j k hj hk hjk
  · intro j
    rcases eq_or_ne j i with rfl | hj
    · have hpin : (s.setBuf j x).pin p j = 0 := by
        unfold pin
        rw [setBuf_self, if_neg]
        rintro ⟨_, hp⟩
        exact hbp (hno ▸ hp)
      rw [hpin, setBuf_self, update_self]
      exact href
    · rw [update_of_ne hj]
      unfold pin
      rw [setBuf_ne hj]
      exact h.ref j
  · intro j hlj
    rcases eq_or_ne j i with rfl | hj
    · rw [setBuf_self] at hlj
      rw [update_self]
      exact hlock hlj
    · rw [setBuf_ne hj] at hlj
      rw [update_of_ne hj]
      exact h.locked j hlj
  · intro c hc
    obtain ⟨j, hj, hv⟩ := h.pinned c hc
    have hji : j ≠ i := by
      rintro rfl
      have hr := h.ref j
      rw [pin_eq_one hj hc, hz] at hr
      omega
    refine ⟨j, ?_, ?_⟩
    · unfold Caches
      rw [setBuf_ne hji]
      exact hj
    · rw [setBuf_ne hji]
      exact hv

theorem touch (i : BufId) : (s.touch i).Sound p cnt where
  lruNodup := by
    have hnot : i ∉ s.lru.erase i := h.lruNodup.not_mem_erase
    exact nodup_cons.mpr ⟨hnot, h.lruNodup.erase i⟩
  lruMem := by
    intro j
    rcases eq_or_ne j i with rfl | hj
    · exact mem_cons_self
    · exact mem_cons_of_mem _ ((mem_erase_of_ne hj).mpr (h.lruMem j))
  devNe := h.devNe
  key := h.key
  ref := h.ref
  locked := h.locked
  pinned := h.pinned

theorem flushed (i : BufId) : (s.flushed i).Sound p cnt :=
  ⟨h.lruNodup, h.lruMem, h.devNe, h.key, h.ref, h.locked, h.pinned⟩

theorem setLog (hdev : l.dev = s.log.dev) : (s.withLog l).Sound p cnt := by
  obtain ⟨h1, h2, h3, h4, h5, h6, h7⟩ := h
  refine ⟨h1, h2, ?_, ?_, ?_, h6, ?_⟩
  · simpa only [withLog_log, hdev] using h3
  · simpa only [withLog_log, withLog_buf, hdev] using h4
  · simpa only [pin, withLog_log, withLog_buf, hdev] using h5
  · simpa only [Caches, withLog_log, withLog_buf, hdev] using h7

theorem hit (hb : cnt i + 2 < 2 ^ 32) :
    (s.setBuf i (s.hitBuf i)).Sound p (update cnt i (cnt i + 1)) := by
  refine h.setBuf rfl rfl (fun _ => rfl) ?_ (fun _ => Nat.succ_pos _)
  have hpin : s.pin p i ≤ 1 := by
    unfold pin
    split <;> omega
  change incr32 (s.buf i).refcnt = _
  rw [h.ref i, incr32_of_lt (by omega)]
  omega

theorem miss (hl : s.lookup s.log.dev b = none) (hv : s.victim = some i) :
    (s.setBuf i (s.missBuf s.log.dev b)).Sound p (update cnt i (cnt i + 1)) := by
  have hz := victim_refcnt hv
  rw [h.cnt_eq_zero hz]
  exact h.recycle hl hz rfl rfl (fun _ => Nat.succ_pos _)

theorem dropped (hc : 0 < cnt i) : (s.dropped i).Sound p (update cnt i (cnt i - 1)) := by
  have hset : (s.setBuf i (s.dropBuf i)).Sound p (update cnt i (cnt i - 1)) := by
    refine h.setBuf rfl rfl (fun hv => hv) ?_ (fun hn => absurd rfl hn)
    change decr32 (s.buf i).refcnt = _
    rw [h.ref i, show cnt i + s.pin p i = (cnt i - 1 + s.pin p i) + 1 by omega, decr32_succ]
  unfold Blk.dropped
  split
  · exact hset.touch i
  · exact hset

theorem record (hc : s.Caches s.log.dev b i)
    (hv : (s.buf i).valid = true) (hb : b ∉ p) (hbound : cnt i + 2 < 2 ^ 32) :
    (s.setBuf i { s.buf i with refcnt := incr32 (s.buf i).refcnt }).Sound (p ++ [b]) cnt := by
  have hset : (s.setBuf i { s.buf i with refcnt := incr32 (s.buf i).refcnt }).Sound p
      (update cnt i (cnt i + 1)) := by
    refine h.setBuf rfl rfl (fun hv => hv) ?_ (fun _ => Nat.succ_pos _)
    rw [h.ref i, pin_eq_zero hc.2 hb, incr32_of_lt (by omega)]
  refine ⟨hset.lruNodup, hset.lruMem, hset.devNe, hset.key, ?_, ?_, ?_⟩
  · intro j
    rcases eq_or_ne j i with rfl | hj
    · have hpin : (s.setBuf j { s.buf j with refcnt := incr32 (s.buf j).refcnt }).pin
          (p ++ [b]) j = 1 := by
        unfold pin
        rw [setBuf_self, if_pos]
        exact ⟨hc.1, mem_append_right _ (by rw [hc.2]; exact mem_singleton_self b)⟩
      rw [hpin, setBuf_self, h.ref j, pin_eq_zero hc.2 hb, incr32_of_lt (by omega)]
    have hne : (s.buf j).dev = s.log.dev → (s.buf j).blockno ≠ b :=
      fun hd hbj => hj (h.key j i hd hc.1 (hbj.trans hc.2.symm))
    have hpin : (s.setBuf i { s.buf i with refcnt := incr32 (s.buf i).refcnt }).pin
        (p ++ [b]) j = s.pin p j := by
      unfold pin
      rw [setBuf_ne hj]
      by_cases hd : (s.buf j).dev = s.log.dev
      · simp [hd, hne hd]
      · simp [hd]
    rw [hpin, setBuf_ne hj]
    exact h.ref j
  · intro j hl
    rcases eq_or_ne j i with rfl | hj
    · rw [setBuf_self] at hl
      exact h.locked j hl
    · rw [setBuf_ne hj] at hl
      exact h.locked j hl
  · intro c hcm
    rcases mem_append.mp hcm with hcp | hcb
    · exact hset.pinned c hcp
    rw [mem_singleton] at hcb
    subst hcb
    refine ⟨i, ⟨?_, ?_⟩, ?_⟩
    · rw [setBuf_self]; exact hc.1
    · rw [setBuf_self]; exact hc.2
    · rw [setBuf_self]; exact hv

end

theorem unpin (h : s.Sound (b :: p) cnt) (hc : s.Caches s.log.dev b i) (hb : b ∉ p) :
    (s.setBuf i { s.buf i with refcnt := decr32 (s.buf i).refcnt }).Sound p cnt := by
  have hdev : ∀ j, ((s.setBuf i { s.buf i with refcnt := decr32 (s.buf i).refcnt }).buf j).dev =
      (s.buf j).dev := by
    intro j
    by_cases hj : j = i
    · subst hj; rw [setBuf_self]
    · rw [setBuf_ne hj]
  have hno : ∀ j, ((s.setBuf i { s.buf i with refcnt := decr32 (s.buf i).refcnt }).buf j).blockno =
      (s.buf j).blockno := by
    intro j
    by_cases hj : j = i
    · subst hj; rw [setBuf_self]
    · rw [setBuf_ne hj]
  refine ⟨h.lruNodup, h.lruMem, h.devNe, ?_, ?_, ?_, ?_⟩
  · intro j k hj hk hjk
    rw [hdev] at hj hk
    rw [hno, hno] at hjk
    exact h.key j k hj hk hjk
  · intro j
    have hr := h.ref j
    unfold pin at hr ⊢
    rw [hdev, hno, setBuf_log]
    rcases eq_or_ne j i with rfl | hj
    · rw [setBuf_self, hr, hc.1, hc.2]
      simp only [mem_cons, true_or, and_self, if_true, hb, and_false, if_false]
      exact decr32_succ _
    have hne : (s.buf j).dev = s.log.dev → (s.buf j).blockno ≠ b :=
      fun hd hbj => hj (h.key j i hd hc.1 (hbj.trans hc.2.symm))
    rw [setBuf_ne hj, hr]
    by_cases hd : (s.buf j).dev = s.log.dev
    · simp [hd, hne hd]
    · simp [hd]
  · intro j hl
    rcases eq_or_ne j i with rfl | hj
    · rw [setBuf_self] at hl
      exact h.locked j hl
    · rw [setBuf_ne hj] at hl
      exact h.locked j hl
  · intro c hcm
    obtain ⟨j, hj, hv⟩ := h.pinned c (mem_cons_of_mem _ hcm)
    refine ⟨j, ⟨(hdev j).trans hj.1, (hno j).trans hj.2⟩, ?_⟩
    rcases eq_or_ne j i with rfl | hji
    · rw [setBuf_self]
      exact hv
    · rw [setBuf_ne hji]
      exact hv

theorem exists_victim (h : s.Sound p cnt) (hs : List BufId) (hcnt : ∀ i, i ∉ hs → cnt i = 0)
    (hroom : p.length + hs.length < NBUF) : ∃ i, s.victim = some i := by
  by_contra hno
  have hnone : s.victim = none := by
    cases hv : s.victim with
    | none => rfl
    | some i => exact absurd ⟨i, hv⟩ hno
  -- every buffer outside `hs` holds a pinned block, and no two the same one
  have hmap : ∀ i ∈ Finset.univ \ hs.toFinset, (s.buf i).blockno ∈ p.toFinset := by
    intro i hi
    have hi' : i ∉ hs := by simpa using hi
    have hr := h.ref i
    have hz := refcnt_of_victim_none hnone (h.lruMem i)
    rw [hcnt i hi'] at hr
    by_contra hp
    rw [pin_eq_zero rfl (by simpa using hp)] at hr
    exact hz hr
  have hinj : Set.InjOn (fun i => (s.buf i).blockno)
      (Finset.univ \ hs.toFinset : Finset BufId) := by
    intro i hi j hj hij
    have hdev : ∀ k, k ∈ (Finset.univ \ hs.toFinset : Finset BufId) →
        (s.buf k).dev = s.log.dev := by
      intro k hk
      have hk' : k ∉ hs := by simpa using hk
      have hr := h.ref k
      have hz := refcnt_of_victim_none hnone (h.lruMem k)
      rw [hcnt k hk'] at hr
      unfold pin at hr
      split at hr
      · rename_i hp
        exact hp.1
      · omega
    exact h.key i j (hdev i hi) (hdev j hj) hij
  have hcard := Finset.card_le_card_of_injOn _ hmap hinj
  have hsub : Fintype.card BufId - hs.toFinset.card ≤ (Finset.univ \ hs.toFinset).card := by
    rw [← Finset.card_univ]
    exact Finset.le_card_sdiff _ _
  have hlen := toFinset_card_le p
  have hlen' := toFinset_card_le hs
  rw [Fintype.card_fin] at hsub
  omega

end Sound

end Blk

end Xv6.Kernel
