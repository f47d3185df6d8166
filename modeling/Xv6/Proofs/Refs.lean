import Xv6.Machine.Buffers
import Xv6.Proofs.Boot
/-!
# Reference accounting over whole runs

`Counted` says what the reference counts add up to while any number of
processes hold or wait for buffers.  Each operation keeps it, whatever the data
in the buffers, and so does each instruction of a commit; only a recovery that
has something to install does not.
-/

namespace Xv6.Kernel

open Xv6.Lib Function List

variable {s : Blk} {p : List Nat} {i : BufId}

namespace Blk

def lockRef (s : Blk) (i : BufId) : Nat := if (s.buf i).lock = none then 0 else 1

/-- What a call leaves to the other processes: a buffer in use keeps its block, and no
lock is given back but that of buffer `x`. -/
structure Kept (s t : Blk) (w : BufId → Nat) (x : Option BufId) : Prop where
  log : t.log = s.log
  caches : ∀ j b, 0 < w j + s.lockRef j → s.Caches s.log.dev b j → t.Caches s.log.dev b j
  lock : ∀ j, x ≠ some j → (s.buf j).lock ≠ none → (t.buf j).lock = (s.buf j).lock

structure Counted (s : Blk) (p : List Nat) (w : BufId → Nat) : Prop where
  sound : s.Sound p fun i => w i + s.lockRef i
  dev : ∀ i, 0 < w i + s.lockRef i → (s.buf i).dev = s.log.dev
  valid : ∀ i, (s.buf i).lock ≠ none → (s.buf i).valid = true

namespace Counted

variable {w : BufId → Nat} {b : Nat} {x : Buf} {c : Nat} {j : BufId}

theorem lockRef_setBuf_self : (s.setBuf i x).lockRef i = if x.lock = none then 0 else 1 := by
  unfold lockRef
  rw [setBuf_self]

theorem lockRef_setBuf_ne (hj : j ≠ i) : (s.setBuf i x).lockRef j = s.lockRef j := by
  unfold lockRef
  rw [setBuf_ne hj]

theorem lockRef_le : s.lockRef i ≤ 1 := by
  unfold lockRef
  split <;> omega

theorem cnt_setBuf : (fun j => update w i c j + (s.setBuf i x).lockRef j) =
    update (fun j => w j + s.lockRef j) i (c + if x.lock = none then 0 else 1) := by
  funext j
  rcases eq_or_ne j i with rfl | hj
  · rw [update_self, update_self, lockRef_setBuf_self]
  · rw [update_of_ne hj, update_of_ne hj, lockRef_setBuf_ne hj]

section

variable (h : s.Counted p w)
include h

private theorem used_setBuf (hd : 0 < c + (if x.lock = none then 0 else 1) → x.dev = s.log.dev)
    (hv : x.lock ≠ none → x.valid = true) : (∀ j, 0 < update w i c j + (s.setBuf i x).lockRef j →
      ((s.setBuf i x).buf j).dev = s.log.dev) ∧
    ∀ j, ((s.setBuf i x).buf j).lock ≠ none → ((s.setBuf i x).buf j).valid = true := by
  constructor
  · intro j hj
    rcases eq_or_ne j i with rfl | hji
    · rw [update_self, lockRef_setBuf_self] at hj
      rw [setBuf_self]
      exact hd hj
    · rw [update_of_ne hji, lockRef_setBuf_ne hji] at hj
      rw [setBuf_ne hji]
      exact h.dev j hj
  · intro j hj
    rcases eq_or_ne j i with rfl | hji
    · rw [setBuf_self] at hj ⊢
      exact hv hj
    · rw [setBuf_ne hji] at hj ⊢
      exact h.valid j hj

theorem setBuf (hdev : x.dev = (s.buf i).dev)
    (hno : x.blockno = (s.buf i).blockno) (hvalid : (s.buf i).valid = true → x.valid = true)
    (href : x.refcnt = c + (if x.lock = none then 0 else 1) + s.pin p i)
    (hd : 0 < c + (if x.lock = none then 0 else 1) → (s.buf i).dev = s.log.dev)
    (hv : x.lock ≠ none → x.valid = true) : (s.setBuf i x).Counted p (update w i c) := by
  have hlock : x.lock ≠ none → 0 < c + if x.lock = none then 0 else 1 := by
    intro hl
    rw [if_neg hl]
    omega
  obtain ⟨hused, hheld⟩ := used_setBuf h (i := i) (fun hpos => hdev.trans (hd hpos)) hv
  refine ⟨?_, hused, hheld⟩
  rw [cnt_setBuf]
  exact h.sound.setBuf hdev hno hvalid href hlock

theorem recycle (hl : s.lookup s.log.dev b = none)
    (hz : (s.buf i).refcnt = 0) (hdev : x.dev = s.log.dev) (hno : x.blockno = b)
    (href : x.refcnt = c + if x.lock = none then 0 else 1) (hv : x.lock ≠ none → x.valid = true) :
    (s.setBuf i x).Counted p (update w i c) := by
  have hlock : x.lock ≠ none → 0 < c + if x.lock = none then 0 else 1 := by
    intro hlx
    rw [if_neg hlx]
    omega
  obtain ⟨hused, hheld⟩ := used_setBuf h (i := i) (fun _ => hdev) hv
  refine ⟨?_, hused, hheld⟩
  rw [cnt_setBuf]
  exact h.sound.recycle hl hz hno href hlock

theorem touch (i : BufId) : (s.touch i).Counted p w :=
  ⟨h.sound.touch i, h.dev, h.valid⟩

theorem flushed (i : BufId) : (s.flushed i).Counted p w :=
  ⟨h.sound.flushed i, h.dev, h.valid⟩

theorem setLog {l : Log} (hdev : l.dev = s.log.dev) : (s.withLog l).Counted p w :=
  ⟨h.sound.setLog hdev, fun i hi => (h.dev i hi).trans hdev.symm, h.valid⟩

theorem setPid (pid : Nat) : ({ s with pid := pid } : Blk).Counted p w := by
  obtain ⟨hsound, hdev, hvalid⟩ := h
  exact ⟨⟨hsound.lruNodup, hsound.lruMem, hsound.devNe, hsound.key, hsound.ref, hsound.locked,
    hsound.pinned⟩, hdev, hvalid⟩

end

/-! ### The operations of `bio.c`

A program that stops takes no step of the machine, so every reason to stop is
allowed here. -/

theorem kept_setBuf {y : Option BufId} (hkey : 0 < w i + s.lockRef i →
      x.dev = (s.buf i).dev ∧ x.blockno = (s.buf i).blockno)
    (hlock : y ≠ some i → (s.buf i).lock ≠ none → x.lock = (s.buf i).lock) :
    Kept s (s.setBuf i x) w y := by
  refine ⟨rfl, ?_, ?_⟩
  · intro j b hj hc
    unfold Caches
    rcases eq_or_ne j i with rfl | hji
    · rw [setBuf_self, (hkey hj).1, (hkey hj).2]
      exact hc
    · rw [setBuf_ne hji]
      exact hc
  · intro j hy hj
    rcases eq_or_ne j i with rfl | hji
    · rw [setBuf_self]
      exact hlock hy hj
    · rw [setBuf_ne hji]

section

variable (h : s.Counted p w)
include h

theorem bgetRef_wp (hw : ∀ i, w i + 3 < 2 ^ 32) :
    Wp (fun _ => True) (bgetRef s.log.dev b) (fun i t =>
      t.Counted p (update w i (w i + 1)) ∧ Kept s t w none ∧ t.Caches s.log.dev b i) s := by
  unfold Wp
  cases hl : s.lookup s.log.dev b with
  | some i =>
    have hc := lookup_caches hl
    rw [bgetRef_hit hl]
    refine ⟨h.setBuf rfl rfl (fun hv => hv) ?_ (fun _ => hc.1) (h.valid i),
      kept_setBuf (fun _ => ⟨rfl, rfl⟩) fun _ _ => rfl, ?_⟩
    · have hle : s.lockRef i ≤ 1 := lockRef_le
      have hpin : s.pin p i ≤ 1 := by
        unfold pin
        split <;> omega
      have hw' := hw i
      have href := h.sound.ref i
      change incr32 (s.buf i).refcnt = w i + 1 + s.lockRef i + s.pin p i
      rw [href, incr32_of_lt (by omega)]
      omega
    · unfold Caches
      rw [setBuf_self]
      exact hc
  | none =>
    cases hv : s.victim with
    | some i =>
      have hz := victim_refcnt hv
      have hcnt := h.sound.cnt_eq_zero hz
      have hlock := h.sound.lock_eq_none hz
      rw [bgetRef_miss hl hv]
      refine ⟨h.recycle hl hz rfl rfl ?_ (fun hne => absurd hlock hne),
        kept_setBuf (fun hpos => absurd hcnt hpos.ne') fun _ _ => rfl, ?_⟩
      · change 1 = w i + 1 + s.lockRef i
        omega
      unfold Caches
      rw [setBuf_self]
      exact ⟨rfl, rfl⟩
    | none =>
      rw [bgetRef_full hl hv]
      trivial

theorem take_wp (hi : 0 < w i) : Wp (fun _ => True) (do acquiresleep i; bfill i) (fun _ t =>
      t.Counted p (update w i (w i - 1)) ∧ Kept s t w none ∧ (t.buf i).lock = some s.pid) s := by
  unfold Wp
  by_cases hl : (s.buf i).lock = none
  · simp only [bind, Prog.andThen, acquiresleep_free hl, bfill_eq, setBuf_setBuf, setBuf_self]
    have hdev : (s.buf i).dev = s.log.dev := h.dev i (by omega)
    refine ⟨h.setBuf rfl rfl (fun _ => rfl) ?_ (fun _ => hdev) (fun _ => rfl),
      kept_setBuf (fun _ => ⟨rfl, rfl⟩) (fun _ hne => absurd hl hne), trivial⟩
    have href := h.sound.ref i
    have hfree : s.lockRef i = 0 := if_pos hl
    change (s.buf i).refcnt = w i - 1 + 1 + s.pin p i
    omega
  · simp only [bind, Prog.andThen, acquiresleep_taken hl]

theorem brelse_wp : Wp (fun _ => True) (brelse i) (fun _ t =>
      t.Counted p w ∧ Kept s t w (some i) ∧ (s.buf i).lock = some s.pid) s := by
  by_cases hl : (s.buf i).lock = some s.pid
  · refine Kernel.brelse_wp hl ?_
    have hheld : s.lockRef i = 1 := if_neg (by rw [hl]; exact Option.some_ne_none _)
    have hset : (s.setBuf i (s.dropBuf i)).Counted p (update w i (w i)) := by
      refine h.setBuf rfl rfl (fun hv => hv) ?_ (fun _ => h.dev i (by omega))
        (fun hne => absurd rfl hne)
      have href := h.sound.ref i
      change decr32 (s.buf i).refcnt = w i + 0 + s.pin p i
      rw [href, hheld, show w i + 1 + s.pin p i = (w i + 0 + s.pin p i) + 1 by omega, decr32_succ]
    have hkept : Kept s (s.setBuf i (s.dropBuf i)) w (some i) :=
      kept_setBuf (fun _ => ⟨rfl, rfl⟩) fun hne => absurd rfl hne
    rw [update_eq_self] at hset
    unfold Blk.dropped
    split
    · exact ⟨hset.touch i, ⟨rfl, hkept.caches, hkept.lock⟩, hl⟩
    · exact ⟨hset, hkept, hl⟩
  · unfold Wp
    have hpanic : brelse i s = .error (.panic .brelse) := by
      simp only [brelse, bind, Prog.andThen, holdingsleep, Prog.gets, hl, decide_false,
        Bool.false_eq_true, if_false]
      rfl
    rw [hpanic]
    trivial

theorem setData_wp (d : Block) :
    Wp (fun _ => True) (setData i d) (fun _ t => t.Counted p w ∧ Kept s t w none) s := by
  have hset : (s.setBuf i { s.buf i with data := d }).Counted p (update w i (w i)) :=
    h.setBuf rfl rfl (fun hv => hv) (h.sound.ref i) (h.dev i) (h.valid i)
  rw [update_eq_self] at hset
  exact ⟨hset, kept_setBuf (fun _ => ⟨rfl, rfl⟩) fun _ _ => rfl⟩

theorem bwrite_wp :
    Wp (fun _ => True) (bwrite i) (fun _ t => t.Counted p w ∧ Kept s t w none) s := by
  by_cases hl : (s.buf i).lock = some s.pid
  · exact Kernel.bwrite_wp hl ⟨h.flushed i, rfl, fun _ _ _ hc => hc, fun _ _ _ => rfl⟩
  unfold Wp
  have hpanic : bwrite i s = .error (.panic .bwrite) := by
    simp only [bwrite, bind, Prog.andThen, holdingsleep, Prog.gets, hl, decide_false,
      Bool.false_eq_true, if_false]
    rfl
  rw [hpanic]
  trivial

end

theorem lockRef_setRefcnt (n : Nat) :
    (s.setBuf i { s.buf i with refcnt := n }).lockRef = s.lockRef := by
  funext j
  rcases eq_or_ne j i with rfl | hj
  · exact lockRef_setBuf_self
  · exact lockRef_setBuf_ne hj

theorem setRefcnt {p' : List Nat} {n : Nat} (h : s.Counted p w)
    (hsound : (s.setBuf i { s.buf i with refcnt := n }).Sound p' fun j => w j + s.lockRef j) :
    (s.setBuf i { s.buf i with refcnt := n }).Counted p' w := by
  have hused := used_setBuf h (i := i) (x := { s.buf i with refcnt := n }) (c := w i)
    (h.dev i) (h.valid i)
  rw [update_eq_self] at hused
  refine ⟨?_, hused.1, hused.2⟩
  rw [lockRef_setRefcnt]
  exact hsound

theorem bunpin_wp (h : s.Counted (b :: p) w) (hc : s.Caches s.log.dev b i) (hb : b ∉ p) :
    Wp (fun _ => True) (bunpin i) (fun _ t => t.Counted p w ∧ Kept s t w none) s :=
  ⟨h.setRefcnt (h.sound.unpin hc hb), kept_setBuf (fun _ => ⟨rfl, rfl⟩) fun _ _ => rfl⟩

end Counted

end Blk

/-! ## The functions of `log.c` -/

theorem Log.beginPass_lh {l l' : Log} (h : l.beginPass = some l') :
    l'.dev = l.dev ∧ l'.lh = l.lh ∧ l.committing = false := by
  unfold Log.beginPass at h
  split_ifs at h with hcom
  cases h
  exact ⟨rfl, rfl, Bool.eq_false_iff.mpr hcom⟩

theorem Log.endPass_lh {l l' : Log} {c : Bool} (h : l.endPass = .ok (l', c)) :
    l'.dev = l.dev ∧ l'.lh = l.lh ∧ l.committing = false ∧
      (c = true → l'.committing = true ∧ l'.outstanding < 1) := by
  unfold Log.endPass at h
  split_ifs at h with hcom hlast
  · cases h
    exact ⟨rfl, rfl, Bool.eq_false_iff.mpr hcom, fun _ => ⟨rfl, hlast.trans_lt Int.one_pos⟩⟩
  · cases h
    exact ⟨rfl, rfl, Bool.eq_false_iff.mpr hcom, nofun⟩

theorem beginOp_pass (s : Blk) : Wp (fun _ => True) beginOp
    (fun _ t => ∃ l, s.log.beginPass = some l ∧ t = s.withLog l) s := by
  unfold beginOp
  rw [Wp.bind_iff, getLog_wp]
  cases hpass : s.log.beginPass with
  | none => trivial
  | some l => exact ⟨l, rfl, rfl⟩

theorem logWrite_inside (s : Blk) (i : BufId) :
    Wp (fun _ => True) (logWrite i) (fun _ _ => ¬s.log.outstanding < 1) s := by
  unfold logWrite
  rw [Wp.bind_iff, getLog_wp]
  cases hcheck : s.log.writeCheck with
  | some p => trivial
  | none =>
    unfold Log.writeCheck at hcheck
    split_ifs at hcheck with _ hout
    exact Wp.of_forall fun _ _ => hout

theorem logWrite_counted {w : BufId → Nat} (h : s.Counted s.log.lh w) (hw : ∀ i, w i + 3 < 2 ^ 32)
    (hnodup : s.log.lh.Nodup) (hlock : (s.buf i).lock = some s.pid) :
    Wp (fun _ => True) (logWrite i) (fun _ t => t.Counted t.log.lh w ∧ t.log.lh.Nodup) s := by
  have hheld : s.lockRef i = 1 := if_neg (by rw [hlock]; exact Option.some_ne_none _)
  have hdev : (s.buf i).dev = s.log.dev := h.dev i (by omega)
  have hvalid : (s.buf i).valid = true := h.valid i (by rw [hlock]; exact Option.some_ne_none _)
  unfold logWrite
  rw [Wp.bind_iff, getLog_wp]
  cases s.log.writeCheck with
  | some p => trivial
  | none =>
    rw [Wp.bind_iff, getBuf_wp, Wp.ite_iff]
    refine ⟨fun _ => ⟨h, hnodup⟩, ?_⟩
    intro hnot
    have hw' := hw i
    have hsound := h.sound.record (i := i) ⟨hdev, rfl⟩ hvalid hnot (by omega)
    have hpinned := h.setRefcnt hsound
    have hlh : (s.log.record (s.buf i).blockno).lh = s.log.lh ++ [(s.buf i).blockno] := by
      unfold Log.record
      rw [if_neg hnot]
    have hdev' : (s.log.record (s.buf i).blockno).dev = s.log.dev := by
      unfold Log.record
      rw [if_neg hnot]
    change Blk.Counted _ (s.log.record (s.buf i).blockno).lh w ∧ _
    constructor
    · rw [hlh]
      exact hpinned.setLog hdev'
    change (s.log.record (s.buf i).blockno).lh.Nodup
    rw [hlh]
    exact nodup_append.mpr ⟨hnodup, nodup_singleton _, fun a ha c hc he =>
      hnot (mem_singleton.mp hc ▸ he ▸ ha)⟩

/-! ## The machine -/

namespace Machine

variable {m m' : Machine} {disk : Nat → Block} {p : ProcId} {w : Work} {x : Option BufId}
  {text : List Instr} {reg : Regs} {l : List Nat} {r : Bool}

theorem waiters_le (m : Machine) (i : BufId) : m.waiters i + 3 < 2 ^ 32 := by
  have hle : m.waiters i ≤ Fintype.card ProcId := Finset.card_le_univ _
  rw [Fintype.card_fin] at hle
  have hproc : NPROC = 64 := rfl
  omega

theorem waiters_wake (h : m.wait p = some i) (m' : Machine) (hm' : m'.wait = update m.wait p none) :
    0 < m.waiters i ∧ m'.waiters = update m.waiters i (m.waiters i - 1) := by
  have hmem : p ∈ Finset.univ.filter fun q => m.wait q = some i := by simp [h]
  refine ⟨Finset.card_pos.mpr ⟨p, hmem⟩, ?_⟩
  funext j
  unfold waiters
  rw [hm']
  rcases eq_or_ne j i with rfl | hj
  · rw [update_self, ← Finset.card_erase_of_mem hmem]
    congr 1
    ext q
    by_cases hq : q = p <;> simp [hq, update]
  rw [update_of_ne hj]
  congr 1
  ext q
  by_cases hq : q = p
  · simp [hq, h, update, Ne.symm hj]
  · simp [hq, update]

theorem waiters_sleep (h : m.wait p = none) (m' : Machine)
    (hm' : m'.wait = update m.wait p (some i)) :
    m'.waiters = update m.waiters i (m.waiters i + 1) := by
  have hnot : p ∉ Finset.univ.filter fun q => m.wait q = some i := by simp [h]
  funext j
  unfold waiters
  rw [hm']
  rcases eq_or_ne j i with rfl | hj
  · rw [update_self, ← Finset.card_insert_of_notMem hnot]
    congr 1
    ext q
    by_cases hq : q = p <;> simp [hq, update]
  rw [update_of_ne hj]
  congr 1
  ext q
  by_cases hq : q = p
  · simp [hq, h, update, Ne.symm hj]
  · simp [hq, update]

section

variable {x : Instr}
variable (hx : ∀ reg i, x.waits reg i = i)
include hx

theorem advance_wait : (m.advance w x text reg).wait = m.wait := by
  unfold advance
  rw [hx, update_eq_self]

theorem waiters_advance : (m.advance w x text reg).waiters = m.waiters := by
  unfold waiters
  rw [advance_wait hx]

end

/-! ### The code of `commit` -/

/-- The last buffer that `commit` asked for: register and block. -/
inductive Last where
  | none
  | waits (r : Bool) (b : Nat)
  | locked (r : Bool) (b : Nat)

/-- The instructions `text` can follow when the blocks `p` are pinned and the blocks `l`
are recorded. -/
def Fits : List Instr → Last → List Nat → List Nat → Prop
  | [], _, p, l => p = [] ∧ l = []
  | .bget r b :: text, a, p, l => (∀ r' c, a ≠ .waits r' c) ∧ Fits text (.waits r b) p l
  | .lock r :: text, a, p, l => ∃ b, a = .waits r b ∧ Fits text (.locked r b) p l
  | .bunpin r :: text, a, p, l =>
    r = true ∧ ∃ b rest, a = .locked r b ∧ p = b :: rest ∧ Fits text a rest l
  | .brelse _ :: text, a, p, l => (∀ r' c, a ≠ .waits r' c) ∧ Fits text .none p l
  | .clear :: text, a, p, _ => p = [] ∧ a = .none ∧ Fits text a [] []
  | .copy _ :: text, a, p, l => Fits text a p l
  | .head _ :: text, a, p, l => Fits text a p l
  | .bwrite _ :: text, a, p, l => Fits text a p l

section Fits

variable {p : List Nat} {start tail : Nat} {a : Last}

theorem Fits.head (h : Fits text .none p l) : Fits (headText start ++ text) .none p l := by
  simpa [headText, Fits] using h

theorem Fits.copyRounds {q : List Nat} (h : Fits text .none p l) :
    Fits (roundsText (copyText start) tail q ++ text) .none p l := by
  induction q generalizing tail with
  | nil => exact h
  | cons b rest ih => simpa [roundsText, copyText, Fits] using ih

theorem Fits.installRounds (h : Fits text .none [] l) :
    Fits (roundsText (installText start) tail p ++ text) .none p l := by
  induction p generalizing tail with
  | nil => exact h
  | cons b rest ih => simpa [roundsText, installText, Fits] using ih

theorem fits_commitText (l : Log) : Fits (commitText l) .none l.lh l.lh := by
  unfold commitText
  split_ifs with hlen
  · have hclear : Fits (.clear :: headText l.start) .none [] l.lh := by
      simp [headText, Fits]
    exact hclear.installRounds.head.copyRounds
  · have hnil : l.lh = [] := length_eq_zero_iff.mp (by omega)
    exact ⟨hnil, hnil⟩

theorem Fits.count (h : Fits text a p l) : text.count (.bunpin true) = p.length := by
  induction text generalizing a p l with
  | nil => simp [h.1]
  | cons x text ih =>
    cases x with
    | bunpin r =>
      obtain ⟨rfl, b, rest, _, rfl, hrest⟩ := h
      simp [ih hrest]
    | bget r b => simpa using ih h.2
    | lock r =>
      obtain ⟨b, _, hrest⟩ := h
      simpa using ih hrest
    | brelse r => simpa using ih h.2
    | clear => simpa [h.1] using ih h.2.2
    | copy r => simpa using ih h
    | head r => simpa using ih h
    | bwrite r => simpa using ih h

end Fits

/-- The process at work has the buffer that its next instructions count on. -/
def Holds (m : Machine) (w : Work) : Last → Prop
  | .none => m.wait w.proc = none
  | .waits r b => ∃ i, w.reg r = some i ∧ m.blk.Caches m.blk.log.dev b i ∧ m.wait w.proc = some i
  | .locked r b => ∃ i, w.reg r = some i ∧ m.blk.Caches m.blk.log.dev b i ∧
      (m.blk.buf i).lock = some w.proc.val ∧ m.wait w.proc = none

theorem Holds.wait_none {a : Last} (h : m.Holds w a) (ha : ∀ r b, a ≠ .waits r b) :
    m.wait w.proc = none := by
  cases a with
  | none => exact h
  | waits r b => exact absurd rfl (ha r b)
  | locked r b =>
    obtain ⟨_, _, _, _, hwait⟩ := h
    exact hwait

theorem Holds.kept {w' : Work} {a : Last} (h : m.Holds w a)
    (hk : m.blk.Kept m'.blk m.waiters x)
    (hx : ∀ i, x = some i → (m.blk.buf i).lock ≠ some w.proc.val)
    (hproc : w'.proc = w.proc) (hreg : w'.reg = w.reg) (hwait : m'.wait w.proc = m.wait w.proc) :
    m'.Holds w' a := by
  cases a with
  | none =>
    unfold Holds at h ⊢
    rw [hproc, hwait, h]
  | waits r b =>
    obtain ⟨i, hi, hc, hw⟩ := h
    have hpos := (waiters_wake hw { m with wait := update m.wait w.proc none } rfl).1
    refine ⟨i, by rw [hreg, hi], ?_, by rw [hproc, hwait, hw]⟩
    rw [hk.log]
    exact hk.caches i b (by omega) hc
  | locked r b =>
    obtain ⟨i, hi, hc, hl, hw⟩ := h
    have hne : (m.blk.buf i).lock ≠ none := by rw [hl]; exact Option.some_ne_none _
    have hpos : m.blk.lockRef i = 1 := if_neg hne
    refine ⟨i, by rw [hreg, hi], ?_, ?_, by rw [hproc, hwait, hw]⟩
    · rw [hk.log]
      exact hk.caches i b (by omega) hc
    · rw [hk.lock i (fun he => hx i he hl) hne, hl, hproc]

theorem bget_wp {v : BufId → Nat} {b : Nat} (h : s.Counted l v) (hv : ∀ i, v i + 3 < 2 ^ 32) :
    Wp (fun _ => True) ((Instr.bget r b).run reg) (fun reg' t => ∃ i, reg' = update reg r (some i) ∧
      t.Counted l (update v i (v i + 1)) ∧ s.Kept t v none ∧ t.Caches s.log.dev b i) s := by
  unfold Instr.run
  rw [Wp.bind_iff, getLog_wp, Wp.bind_iff]
  exact (h.bgetRef_wp hv).post fun i t ht => ⟨i, rfl, ht⟩

theorem withReg_wp {f : BufId → BlkM Unit} {Q : Regs → Blk → Prop}
    (hf : ∀ i, reg r = some i → Wp (fun _ => True) (f i) (fun _ t => Q reg t) s) :
    Wp (fun _ => True) (Instr.withReg reg r f) Q s := by
  unfold Instr.withReg
  split
  · trivial
  next i hi =>
    rw [Wp.bind_iff]
    exact hf i hi

theorem lock_wp {v : BufId → Nat} (h : s.Counted l v) (hi : reg r = some i) (hv : 0 < v i) :
    Wp (fun _ => True) ((Instr.lock r).run reg) (fun reg' t => reg' = reg ∧
      t.Counted l (update v i (v i - 1)) ∧ s.Kept t v none ∧ (t.buf i).lock = some s.pid) s := by
  refine withReg_wp ?_
  intro j hj
  cases hi.symm.trans hj
  exact (h.take_wp hv).post fun _ t ht => ⟨rfl, ht⟩

/-! ### The invariant -/

/-- The counts add up when the blocks `l` are pinned: all those recorded, or what a commit
has not unpinned of them. -/
structure Inv (m : Machine) (l : List Nat) : Prop where
  counted : m.blk.Counted l m.waiters
  nodup : m.blk.log.lh.Nodup
  suffix : l <:+ m.blk.log.lh
  idle : m.work = none → l = m.blk.log.lh
  busy : ∀ w, m.work = some w → m.blk.log.committing = true ∧ m.blk.log.outstanding < 1 ∧
    ∃ a, Fits w.text a l m.blk.log.lh ∧ m.Holds w a

namespace Inv

variable {α : Type} {f : BlkM α} {Q : α → Blk → Prop} {g : α × Machine → Machine}

theorem of_idle (hc : m.blk.Counted m.blk.log.lh m.waiters) (hnodup : m.blk.log.lh.Nodup)
    (hwork : m.work = none) : m.Inv m.blk.log.lh := by
  refine ⟨hc, hnodup, suffix_rfl, fun _ => rfl, ?_⟩
  intro w hw
  rw [hwork] at hw
  cases hw

theorem run_spec (hwp : Wp (fun _ => True) f Q { m.blk with pid := p.val })
    (hrun : (m.run p f).map g = some m') : ∃ a t, Q a t ∧ g (a, { m with blk := t }) = m' := by
  unfold run at hrun
  split at hrun
  · exact ⟨_, _, hwp.of_ok (by assumption), Option.some.inj hrun⟩
  · cases hrun

theorem kept_of_pid {t : Blk} {w : BufId → Nat} {pid : Nat}
    (h : Blk.Kept { s with pid := pid } t w x) : s.Kept t w x :=
  ⟨h.log, h.caches, h.lock⟩

section

variable (h : m.Inv l)
include h

theorem work_none (hlog : m.blk.log.committing = false ∨ ¬m.blk.log.outstanding < 1) :
    m.work = none := by
  cases hwork : m.work with
  | none => rfl
  | some w =>
    obtain ⟨hcom, hout, _⟩ := h.busy w hwork
    rw [hcom] at hlog
    exact absurd hout (hlog.resolve_left (by decide))

theorem other (hp : ∀ w, m.work = some w → w.proc ≠ p)
    (hc : m'.blk.Counted l m'.waiters) (hk : m.blk.Kept m'.blk m.waiters x)
    (hx : ∀ i, x = some i → (m.blk.buf i).lock = some p.val) (hwork : m'.work = m.work)
    (hwait : ∀ q, q ≠ p → m'.wait q = m.wait q) : m'.Inv l := by
  refine ⟨hc, by rw [hk.log]; exact h.nodup, by rw [hk.log]; exact h.suffix,
    fun hw => by rw [hk.log]; exact h.idle (hwork ▸ hw), ?_⟩
  intro w hw
  rw [hwork] at hw
  obtain ⟨hcom, hout, a, hfits, hholds⟩ := h.busy w hw
  rw [hk.log]
  refine ⟨hcom, hout, a, hfits, hholds.kept hk ?_ rfl rfl (hwait _ (hp w hw))⟩
  intro i hi hl
  rw [hx i hi] at hl
  exact hp w hw (Fin.ext (Option.some.inj hl).symm)

theorem counters {k : Log} (hc : s.Counted l m.waiters) (hs : s.log = m.blk.log)
    (hdev : k.dev = m.blk.log.dev) (hlh : k.lh = m.blk.log.lh) (hwork : m.work = none) :
    ∃ l', Inv { m with blk := s.withLog k } l' := by
  rw [h.idle hwork, ← hlh] at hc
  refine ⟨k.lh, of_idle (hc.setLog (by rw [hs, hdev])) ?_ hwork⟩
  change k.lh.Nodup
  rw [hlh]
  exact h.nodup

theorem endOp_last {k : Log} (hwait : m.wait p = none) (hend : m.blk.log.endPass = .ok (k, true)) :
    Inv { m with blk := m.blk.withLog k, work := some ⟨p, commitText k, fun _ => none⟩ } k.lh := by
  obtain ⟨hdev, hlh, hcom, hlast⟩ := Log.endPass_lh hend
  have hidle := h.idle (h.work_none (.inl hcom))
  refine ⟨?_, ?_, suffix_rfl, nofun, ?_⟩
  · rw [hlh, ← hidle]
    exact h.counted.setLog hdev
  · change k.lh.Nodup
    rw [hlh]
    exact h.nodup
  · intro w hw
    cases hw
    exact ⟨(hlast rfl).1, (hlast rfl).2, .none, fits_commitText k, hwait⟩

theorem act (a : Act) (hp : ∀ w, m.work = some w → w.proc ≠ p) (hstep : m.act p a = some m') :
    ∃ l', m'.Inv l' := by
  have hw := m.waiters_le
  have hc := h.counted.setPid p.val
  unfold Machine.act at hstep
  split at hstep
  next i hwait =>
    obtain ⟨hpos, hwaiters⟩ := waiters_wake hwait (m.setWait p none) rfl
    obtain ⟨_, t, ⟨hc', hk, _⟩, rfl⟩ := run_spec (hc.take_wp hpos) hstep
    rw [← hwaiters] at hc'
    exact ⟨l, h.other hp hc' (kept_of_pid hk) nofun rfl fun q hq => update_of_ne hq _ _⟩
  next b hwait =>
    obtain ⟨i, t, ⟨hc', hk, _⟩, rfl⟩ := run_spec (hc.bgetRef_wp hw) hstep
    rw [← waiters_sleep hwait (m.setWait p (some i)) rfl] at hc'
    exact ⟨l, h.other hp hc' (kept_of_pid hk) nofun rfl fun q hq => update_of_ne hq _ _⟩
  next i hwait =>
    obtain ⟨_, t, ⟨hc', hk, hl⟩, rfl⟩ := run_spec (hc.brelse_wp (i := i)) hstep
    refine ⟨l, h.other hp hc' (kept_of_pid hk) ?_ rfl fun _ _ => rfl⟩
    intro j hj
    cases hj
    exact hl
  next i d hwait =>
    obtain ⟨_, hrun⟩ := Option.ite_none_right_eq_some.mp hstep
    obtain ⟨_, t, ⟨hc', hk⟩, rfl⟩ := run_spec (hc.setData_wp d) hrun
    exact ⟨l, h.other hp hc' (kept_of_pid hk) nofun rfl fun _ _ => rfl⟩
  next i hwait =>
    obtain ⟨hlock, hrun⟩ := Option.ite_none_right_eq_some.mp hstep
    obtain ⟨_, _, hout, _⟩ := run_spec (logWrite_inside _ i) hrun
    have hwork := h.work_none (.inr hout)
    rw [h.idle hwork] at hc
    obtain ⟨_, t, ⟨hc', hnodup⟩, rfl⟩ := run_spec (logWrite_counted hc hw h.nodup hlock) hrun
    exact ⟨_, of_idle hc' hnodup hwork⟩
  next hwait =>
    obtain ⟨_, t, ⟨k, hpass, rfl⟩, rfl⟩ := run_spec (beginOp_pass _) hstep
    obtain ⟨hdev, hlh, hcom⟩ := Log.beginPass_lh hpass
    exact h.counters hc rfl hdev hlh (h.work_none (.inl hcom))
  next hwait =>
    unfold Machine.endOp at hstep
    split at hstep
    · cases hstep
    next k hend =>
      cases hstep
      obtain ⟨hdev, hlh, hcom, _⟩ := Log.endPass_lh hend
      exact h.counters h.counted rfl hdev hlh (h.work_none (.inl hcom))
    next k hend =>
      cases hstep
      exact ⟨_, h.endOp_last hwait hend⟩
  · cases hstep

section

variable {x : Instr} {a : Last}
variable (hwork : m.work = some w) (hholds : m.Holds w a)
include hwork

theorem next {l' : List Nat} {w' : Work} {a' : Last} (hlog : m'.blk.log = m.blk.log)
    (hc : m'.blk.Counted l' m'.waiters) (hl : l' <:+ l) (hwork' : m'.work = some w')
    (hfits : Fits w'.text a' l' m.blk.log.lh) (hholds : m'.Holds w' a') : m'.Inv l' := by
  obtain ⟨hcom, hout, _⟩ := h.busy w hwork
  refine ⟨hc, ?_, ?_, ?_, ?_⟩
  · rw [hlog]
    exact h.nodup
  · rw [hlog]
    exact hl.trans h.suffix
  · intro hw
    rw [hwork'] at hw
    cases hw
  · intro v hv
    rw [hwork'] at hv
    cases hv
    rw [hlog]
    exact ⟨hcom, hout, a', hfits, hholds⟩

include hholds

theorem plain {l' : List Nat}
    (hstep : (m.run w.proc (x.run w.reg)).map (fun y => y.2.advance w x text y.1) = some m')
    (hl : l' <:+ l) (hfits : Fits text a l' m.blk.log.lh) (hx : ∀ reg i, x.waits reg i = i)
    (hwp : Wp (fun _ => True) (x.run w.reg) (fun reg t =>
      reg = w.reg ∧ t.Counted l' m.waiters ∧ m.blk.Kept t m.waiters none)
      { m.blk with pid := w.proc.val }) : m'.Inv l' := by
  obtain ⟨_, t, ⟨rfl, hc, hk⟩, rfl⟩ := run_spec hwp hstep
  refine h.next hwork hk.log ?_ hl rfl hfits
    (hholds.kept hk nofun rfl rfl (congrFun (advance_wait hx) _))
  rw [waiters_advance hx]
  exact hc

omit hholds

theorem commitStep (hstep : m.commitStep w = some m') : ∃ l', m'.Inv l' := by
  obtain ⟨hcom, hout, a, hfits, hholds⟩ := h.busy w hwork
  have hw := m.waiters_le
  have hc := h.counted.setPid w.proc.val
  unfold Machine.commitStep at hstep
  split at hstep
  next htext =>
    rw [htext] at hfits
    cases hstep
    obtain ⟨rfl, hlh⟩ := hfits
    refine ⟨m.blk.log.lh, of_idle ?_ h.nodup rfl⟩
    change (m.blk.withLog m.blk.log.committed).Counted m.blk.log.lh m.waiters
    rw [hlh]
    exact h.counted.setLog rfl
  next x text htext =>
    rw [htext] at hfits
    cases x with
    | bget r b =>
      have hwait := hholds.wait_none hfits.1
      obtain ⟨reg, t, ⟨i, rfl, hc', hk, hcache⟩, rfl⟩ := run_spec (bget_wp hc hw) hstep
      refine ⟨l, h.next hwork hk.log ?_ suffix_rfl rfl hfits.2 ⟨i, update_self _ _ _, ?_, ?_⟩⟩
      · change t.Counted l (waiters (m.setWait w.proc (update w.reg r (some i) r)))
        rw [update_self, waiters_sleep hwait (m.setWait w.proc (some i)) rfl]
        exact hc'
      · change t.Caches t.log.dev b i
        rw [hk.log]
        exact hcache
      · change update m.wait w.proc (update w.reg r (some i) r) w.proc = some i
        rw [update_self, update_self]
    | lock r =>
      obtain ⟨b, rfl, hfits⟩ := hfits
      obtain ⟨i, hi, hcache, hwait⟩ := hholds
      obtain ⟨hpos, hwaiters⟩ := waiters_wake hwait (m.setWait w.proc none) rfl
      obtain ⟨_, t, ⟨rfl, hc', hk, hlock⟩, rfl⟩ := run_spec (lock_wp hc hi hpos) hstep
      refine ⟨l, h.next hwork hk.log ?_ suffix_rfl rfl hfits ⟨i, hi, ?_, hlock, update_self _ _ _⟩⟩
      · rw [← hwaiters] at hc'
        exact hc'
      · change t.Caches t.log.dev b i
        rw [hk.log]
        exact hk.caches i b (by omega) hcache
    | copy r =>
      refine ⟨l, h.plain hwork hholds hstep suffix_rfl hfits (fun _ _ => rfl) (withReg_wp ?_)⟩
      intro i _
      split
      · trivial
      · rw [Wp.bind_iff, bdata_wp]
        exact (hc.setData_wp _).post fun _ t ht => ⟨rfl, ht.1, kept_of_pid ht.2⟩
    | head r =>
      refine ⟨l, h.plain hwork hholds hstep suffix_rfl hfits (fun _ _ => rfl) (withReg_wp ?_)⟩
      intro i _
      rw [Wp.bind_iff, getLog_wp, Wp.bind_iff, bdata_wp]
      exact (hc.setData_wp _).post fun _ t ht => ⟨rfl, ht.1, kept_of_pid ht.2⟩
    | bwrite r =>
      refine ⟨l, h.plain hwork hholds hstep suffix_rfl hfits (fun _ _ => rfl) (withReg_wp ?_)⟩
      exact fun i _ => hc.bwrite_wp.post fun _ t ht => ⟨rfl, ht.1, kept_of_pid ht.2⟩
    | bunpin r =>
      obtain ⟨_, b, rest, rfl, rfl, hfits⟩ := hfits
      have hb : b ∉ rest := (nodup_cons.mp (h.nodup.sublist h.suffix.sublist)).1
      obtain ⟨i, hi, hcache, _⟩ := id hholds
      refine ⟨rest, h.plain hwork hholds hstep (suffix_cons b rest) hfits (fun _ _ => rfl)
        (withReg_wp ?_)⟩
      intro j hj
      cases hi.symm.trans hj
      exact (hc.bunpin_wp hcache hb).post fun _ t ht => ⟨rfl, ht.1, kept_of_pid ht.2⟩
    | brelse r =>
      have hwait := hholds.wait_none hfits.1
      have hwp : Wp (fun _ => True) ((Instr.brelse r).run w.reg) (fun reg t => reg = w.reg ∧
          t.Counted l m.waiters ∧ t.log = m.blk.log) { m.blk with pid := w.proc.val } :=
        withReg_wp fun i _ => hc.brelse_wp.post fun _ t ht => ⟨rfl, ht.1, ht.2.1.log⟩
      obtain ⟨_, t, ⟨rfl, hc', hlog⟩, rfl⟩ := run_spec hwp hstep
      refine ⟨l, h.next hwork hlog ?_ suffix_rfl rfl hfits.2 ?_⟩
      · rw [waiters_advance fun _ _ => rfl]
        exact hc'
      · exact (congrFun (advance_wait fun _ _ => rfl) _).trans hwait
    | clear =>
      obtain ⟨rfl, rfl, hfits⟩ := hfits
      cases hstep
      refine ⟨[], ?_, nodup_nil, suffix_rfl, nofun, ?_⟩
      · rw [waiters_advance fun _ _ => rfl]
        exact hc.setLog rfl
      · intro v hv
        cases hv
        exact ⟨hcom, hout, .none, hfits, (congrFun (advance_wait fun _ _ => rfl) _).trans hholds⟩

end

end

end Inv

theorem Inv.step (h : m.Inv l) (x : ProcId × Act) (hstep : m.step x = some m') :
    ∃ l', m'.Inv l' := by
  unfold Machine.step at hstep
  split at hstep
  next hwork => exact h.act x.2 (by rw [hwork]; exact nofun) hstep
  next w hwork =>
    split_ifs at hstep with hp
    · split at hstep
      · exact h.commitStep hwork hstep
      · cases hstep
    · refine h.act x.2 ?_ hstep
      intro v hv
      rw [hwork] at hv
      cases hv
      exact hp

theorem counted_of_at {v : Nat → Block} {T : Nat → Prop} {q : List Nat}
    (h : s.At v T q noExtra []) : s.Counted q fun _ => 0 := by
  have hlock : ∀ i, (s.buf i).lock = none := fun i => h.lock_free not_mem_nil
  have hzero : s.lockRef = fun _ => 0 := by
    funext i
    exact if_pos (hlock i)
  refine ⟨?_, ?_, fun i hi => absurd (hlock i) hi⟩
  · rw [hzero]
    exact h.sound
  intro i hi
  rw [hzero] at hi
  exact absurd hi (Nat.lt_irrefl 0)

theorem Inv.boot (h : boot disk = some m)
    (hempty : headNames (disk (Superblock.decode (disk 1)).logstart) = []) :
    m.Inv m.blk.log.lh := by
  have hwp : Wp (fun _ => True) (fsinit ROOTDEV) (fun _ t => t.Counted [] (fun _ => 0) ∧
      t.log.lh = []) (powerOn 1 disk) := by
    apply fsinit_wp (by decide) rfl (fun _ => trivial) hempty
    intro t hat hlog _ _
    refine ⟨counted_of_at hat, ?_⟩
    rw [hlog]
    rfl
  unfold Machine.boot at h
  split at h
  next sb t hrun =>
    obtain ⟨hc, hlh⟩ := hwp.of_ok hrun
    cases h
    have hwaiters : waiters ⟨t, fun _ => none, none⟩ = fun _ => 0 := by
      funext i
      simp [waiters]
    refine of_idle ?_ ?_ rfl
    · rw [hwaiters, hlh]
      exact hc
    · rw [hlh]
      exact nodup_nil
  · cases h

theorem Inv.reachable (h : Reachable disk m)
    (hempty : headNames (disk (Superblock.decode (disk 1)).logstart) = []) : ∃ l, m.Inv l := by
  obtain ⟨m₀, hboot, hreach⟩ := h
  refine hreach.invariant (I := fun m => ∃ l, m.Inv l) ⟨_, Inv.boot hboot hempty⟩ ?_
  rintro _ _ x ⟨l, hl⟩ _ hstep
  exact hl.step x hstep

theorem Inv.pinned_eq (h : m.Inv l) : m.pinned = l := by
  unfold pinned
  split
  next hwork => exact (h.idle hwork).symm
  next w hwork =>
    obtain ⟨_, _, a, hfits, _⟩ := h.busy w hwork
    rw [hfits.count]
    exact (suffix_iff_eq_drop.mp h.suffix).symm

/-- In every run of a machine whose log was empty when it was switched on, the
reference counts are right for the blocks still pinned, and no used buffer is
recycled.  Unless a commit has unpinned blocks it has not yet removed from the
log, those are all the blocks recorded. -/
theorem refcnt_accounted (hempty : headNames (disk (Superblock.decode (disk 1)).logstart) = [])
    (h : Reachable disk m) : m.Accounted m.pinned ∧ m.RecyclesUnused m.pinned ∧
      (¬m.Installing → m.Accounted m.blk.log.lh ∧ m.RecyclesUnused m.blk.log.lh) := by
  obtain ⟨l, hinv⟩ := Inv.reachable h hempty
  obtain rfl := hinv.pinned_eq
  have hacc : m.Accounted m.pinned := fun i => hinv.counted.sound.ref i
  have hrec : m.RecyclesUnused m.pinned := by
    intro b i _ hvictim
    have href := hacc i
    rw [Blk.victim_refcnt hvictim] at href
    refine ⟨by omega, ?_⟩
    intro hhas
    rw [if_pos hhas] at href
    omega
  refine ⟨hacc, hrec, ?_⟩
  intro hnot
  rw [← not_not.mp hnot]
  exact ⟨hacc, hrec⟩

/-- Block 1 as `mkfs` writes it for a disk of `FSSIZE` blocks and 200 inodes. -/
def mkfsSuper : Block :=
  ((((((((Bytes.zero.setU32 0 0x10203040).setU32 4 1000).setU32 8 954).setU32 12 200).setU32
    16 30).setU32 20 2).setU32 24 32).setU32 28 45)

/-- An otherwise empty disk whose log header names `names`. -/
def logImage (names : List Nat) (b : Nat) : Block :=
  if b = 1 then mkfsSuper else if b = 2 then headStore names Bytes.zero else Bytes.zero

instance : NeZero NPROC := ⟨by decide⟩

instance : NeZero NBUF := ⟨by decide⟩

/-- The first process logs block 46 and commits it; the second asks for the block when the
header is written.  The next instruction of the commit is the `bunpin`. -/
def commitRun : List (ProcId × Act) :=
  [(0, .beginOp), (0, .bget 46), (0, .bread), (0, .logWrite 2), (0, .brelse 2), (0, .endOp)] ++
    replicate 13 (0, .commit) ++ (1, .bget 46) :: replicate 6 (0, .commit)

theorem boot_run {α : Type} (names : List Nat) (acts : List (ProcId × Act)) (f : Machine → α)
    (x : α)
    (h : ((boot (logImage names)).bind fun m => exec step (fun _ _ => true) m acts).map f =
      some x) :
    ∃ m, Reachable (logImage names) m ∧ f m = x := by
  obtain ⟨m, hm, hf⟩ := Option.map_eq_some_iff.mp h
  obtain ⟨m₀, hboot, hrun⟩ := Option.bind_eq_some_iff.mp hm
  exact ⟨m, ⟨m₀, hboot, Reaches.refl.exec (fun _ _ _ _ => trivial) hrun⟩, hf⟩

theorem refcnt_accounted_commit :
    (∃ m, Reachable (logImage []) m ∧ (m.blk.buf 2).refcnt = 3 ∧
      m.Accounted m.blk.log.lh ∧ m.RecyclesUnused m.blk.log.lh) ∧
    ∃ m, Reachable (logImage []) m ∧ (m.blk.buf 2).refcnt = 2 ∧ m.Installing ∧
      m.Accounted m.pinned ∧ m.RecyclesUnused m.pinned := by
  have hempty : headNames (logImage [] (Superblock.decode (logImage [] 1)).logstart) = [] := by
    decide +kernel
  obtain ⟨m, hm, hobs⟩ := boot_run [] commitRun
    (fun m => ((m.blk.buf 2).refcnt, m.pinned, m.blk.log.lh)) (3, [46], [46])
    (by decide +kernel)
  obtain ⟨k, hk, hobs'⟩ := boot_run [] (commitRun ++ [(0, .commit)])
    (fun m => ((m.blk.buf 2).refcnt, m.pinned, m.blk.log.lh)) (2, [], [46])
    (by decide +kernel)
  simp only [Prod.mk.injEq] at hobs hobs'
  obtain ⟨href, hpin, hlh⟩ := hobs
  obtain ⟨href', hpin', hlh'⟩ := hobs'
  have hins : ¬m.Installing := not_not.mpr (hpin.trans hlh.symm)
  obtain ⟨hacc, hrec, _⟩ := refcnt_accounted hempty hk
  refine ⟨⟨m, hm, href, (refcnt_accounted hempty hm).2.2 hins⟩, k, hk, href', ?_, hacc, hrec⟩
  unfold Installing
  rw [hpin', hlh']
  decide

/-- A crash after `commit` has written its header leaves a disk whose recovery
takes a reference too many from the block it installs. -/
theorem refcnt_not_accounted :
    ∃ m, Reachable (logImage [46]) m ∧ ¬m.Installing ∧ ¬m.Accounted m.blk.log.lh := by
  obtain ⟨m, hm, hobs⟩ := boot_run [46] []
    (fun m => ((m.blk.buf 3).refcnt, m.callers 3, m.pinned, m.blk.log.lh))
    (2 ^ 32 - 1, 0, [], []) (by decide +kernel)
  simp only [Prod.mk.injEq] at hobs
  obtain ⟨href, hcallers, hpin, hlh⟩ := hobs
  refine ⟨m, hm, not_not.mpr (hpin.trans hlh.symm), ?_⟩
  intro hacc
  have hthree := hacc 3
  rw [href, hcallers, hlh, if_neg fun hhas => not_mem_nil hhas.2] at hthree
  omega

end Machine

end Xv6.Kernel
