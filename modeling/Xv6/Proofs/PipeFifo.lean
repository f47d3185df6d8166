import Xv6.Proofs.Pipes
/-!
# A pipe is a bounded queue

The counters of a pipe are the lengths of what was ever appended and removed,
modulo `2 ^ 32`; as `PIPESIZE` divides that, the ring between them holds what
was appended and not yet removed.
-/

namespace Xv6.Kernel

open Xv6.Lib Function List

variable {n : Nat} {s t : Pipes n} {a : PipeAct n} {p : Fin n} {m : Int} {pc : PipePc}

namespace Pipe

variable {pi : Pipe} {r : Nat} {items : List UInt8} {ch : UInt8}

structure Holds (pi : Pipe) (r : Nat) (items : List UInt8) : Prop where
  nread : pi.nread.toNat = r % 2 ^ 32
  nwrite : pi.nwrite.toNat = (r + items.length) % 2 ^ 32
  ring : Ring PIPESIZE pi.data.get r items

theorem PIPESIZE_eq : PIPESIZE = 512 := rfl

theorem PIPESIZE_dvd : PIPESIZE ∣ 2 ^ 32 := ⟨2 ^ 23, rfl⟩

namespace Holds

theorem fresh (page : Bytes PIPESIZE) : Holds (Pipe.fresh page) 0 [] where
  nread := rfl
  nwrite := rfl
  ring := Ring.empty _ _ _

section

variable (h : Holds pi r items)
include h

theorem room : items.length ≤ 512 := h.ring.room

theorem used_eq : pi.used = items.length := by
  have hr := h.nread
  have hw := h.nwrite
  have hroom := h.room
  unfold used
  rw [UInt32.toNat_sub, hr, hw]
  omega

theorem isEmpty_iff : pi.isEmpty = true ↔ items = [] := by
  have hr := h.nread
  have hw := h.nwrite
  have hroom := h.room
  unfold isEmpty
  rw [decide_eq_true_iff, ← UInt32.toNat_inj, hr, hw, ← length_eq_zero_iff]
  omega

theorem isFull_iff : pi.isFull = true ↔ items.length = PIPESIZE := by
  have hr := h.nread
  have hw := h.nwrite
  have hroom := h.room
  have hsize : (UInt32.ofNat PIPESIZE).toNat = 512 := rfl
  unfold isFull
  rw [decide_eq_true_iff, ← UInt32.toNat_inj, UInt32.toNat_add, hr, hw, hsize, PIPESIZE_eq]
  omega

theorem contents_eq : pi.contents = items := by
  unfold contents
  apply ext_getElem
  · simp [h.used_eq]
  intro j hj hj'
  have hsum : (pi.nread + UInt32.ofNat j).toNat = (r + j) % 2 ^ 32 := by
    rw [UInt32.toNat_add, h.nread, UInt32.toNat_ofNat', ← Nat.add_mod]
  rw [getElem_map, getElem_range, hsum, Nat.mod_mod_of_dvd _ PIPESIZE_dvd]
  exact h.ring.get j hj'

theorem put (hfull : pi.isFull = false) (ch : UInt8) : Holds (pi.put ch) r (items ++ [ch]) where
  nread := h.nread
  nwrite := by
    have hw := h.nwrite
    change (pi.nwrite + 1).toNat = _
    rw [UInt32.toNat_add, hw, length_append]
    simp
    omega
  ring := by
    have hlen : items.length < PIPESIZE := by
      have hne : items.length ≠ PIPESIZE := fun he => by simp [h.isFull_iff.mpr he] at hfull
      exact Nat.lt_of_le_of_ne h.ring.room hne
    have hslot : pi.nwrite.toNat % PIPESIZE = (r + items.length) % PIPESIZE := by
      rw [h.nwrite, Nat.mod_mod_of_dvd _ PIPESIZE_dvd]
    apply h.ring.push hlen
    · change (pi.data.set (pi.nwrite.toNat % PIPESIZE) ch).get _ = ch
      rw [hslot]
      exact Bytes.get_set_self (Nat.mod_lt _ (by decide))
    intro i _ hi
    change (pi.data.set (pi.nwrite.toNat % PIPESIZE) ch).get i = _
    rw [hslot]
    exact Bytes.get_set_ne hi

end

theorem drop (h : Holds pi r (ch :: items)) : pi.first = ch ∧ Holds pi.drop (r + 1) items := by
  obtain ⟨hfirst, hring⟩ := h.ring.pop
  refine ⟨?_, ?_, ?_, hring⟩
  · unfold first
    rw [h.nread, Nat.mod_mod_of_dvd _ PIPESIZE_dvd]
    exact hfirst
  · have hr := h.nread
    change (pi.nread + 1).toNat = _
    rw [UInt32.toNat_add, hr]
    simp
  have hw := h.nwrite
  rw [length_cons] at hw
  change pi.nwrite.toNat = _
  rw [hw]
  congr 1
  omega

theorem closed (h : Holds pi r items) (w : Bool) : Holds (pi.closed w) r items := by
  unfold Pipe.closed
  split
  · exact ⟨h.nread, h.nwrite, h.ring⟩
  · exact ⟨h.nread, h.nwrite, h.ring⟩

end Holds

end Pipe

namespace PipeCall

def writeArgs : PipeCall → Option (Int × (Nat → Option UInt8) × Nat)
  | .write m src i _ => some (m, src, i)
  | .read _ _ _ | .close _ => none

def readArgs : PipeCall → Option (Int × (Nat → Bool) × Nat)
  | .read m dst i => some (m, dst, i)
  | .write _ _ _ _ | .close _ => none

@[simp] theorem writeArgs_announced (c : PipeCall) : c.announced.writeArgs = c.writeArgs := by
  cases c <;> rfl

@[simp] theorem readArgs_announced (c : PipeCall) : c.announced.readArgs = c.readArgs := by
  cases c <;> rfl

end PipeCall

namespace PipePc

def writing : PipePc → Option (Int × (Nat → Option UInt8) × Nat)
  | .head c | .wake _ _ c _ | .sleep _ c | .letGo _ c | .doze _ c | .sched _ c | .asleep _ c
  | .woken c | .again c | .leave c _ => c.writeArgs
  | _ => none

def stays : PipePc → Bool
  | .head _ | .wake _ _ _ (.leave _) | .leave _ _ => true
  | _ => false

theorem stays.holds (h : pc.stays = true) : pc.holds = true := by
  cases pc <;> first | rfl | cases h

end PipePc

def WriteCall.first (c : WriteCall) (id k : Nat) : List (Nat × UInt8) :=
  (List.range k).map fun i => (id, (c.src i).getD 0)

namespace Pipes

variable {q : Fin n}

def bytes (s : Pipes n) : List UInt8 := s.sent.map Prod.snd

def bytesOf (s : Pipes n) (id : Nat) : List (Nat × UInt8) := s.sent.filter fun x => x.1 = id

def Queue (s : Pipes n) : Prop :=
  ∃ rest, s.bytes = s.recv ++ rest ∧ s.pipe.Holds s.recv.length rest

namespace Queue

theorem init (page : Bytes PIPESIZE) : Queue (Pipes.init page : Pipes n) :=
  ⟨[], rfl, Pipe.Holds.fresh page⟩

theorem append (h : Queue s) (hfull : s.pipe.isFull = false) (p : Fin n) (ch : UInt8) :
    Queue (s.append p ch) := by
  obtain ⟨rest, hb, hp⟩ := h
  refine ⟨rest ++ [ch], ?_, hp.put hfull ch⟩
  change (s.sent ++ [(s.id p, ch)]).map Prod.snd = s.recv ++ (rest ++ [ch])
  rw [map_append, ← append_assoc, ← hb]
  rfl

theorem remove (h : Queue s) (hempty : s.pipe.isEmpty = false) : Queue s.remove := by
  obtain ⟨rest, hb, hp⟩ := h
  cases rest with
  | nil => simp [hp.isEmpty_iff.mpr rfl] at hempty
  | cons ch rest =>
    obtain ⟨hfirst, hdrop⟩ := hp.drop
    refine ⟨rest, ?_, ?_⟩
    · change s.bytes = (s.recv ++ [s.pipe.first]) ++ rest
      rw [hfirst, hb, append_assoc]
      rfl
    · change s.pipe.drop.Holds (s.recv ++ [s.pipe.first]).length rest
      rw [length_append]
      exact hdrop

theorem congr (h : Queue s) (hp : t.pipe = s.pipe) (hs : t.sent = s.sent)
    (hr : t.recv = s.recv) : Queue t := by
  obtain ⟨rest, hb, hh⟩ := h
  refine ⟨rest, ?_, ?_⟩
  · unfold bytes at hb ⊢
    rw [hs, hr]
    exact hb
  · rw [hp, hr]
    exact hh

theorem step (h : Queue s) (hst : Steps s a t) : Queue t := by
  cases hst with
  | append _ _ hfull => exact (h.append hfull _ _).congr rfl rfl rfl
  | remove _ _ hempty => exact (h.remove hempty).congr rfl rfl rfl
  | removeFault _ _ hempty => exact (h.remove hempty).congr rfl rfl rfl
  | close =>
    obtain ⟨rest, hb, hp⟩ := h
    exact ⟨rest, hb, hp.closed _⟩
  | _ => apply h.congr <;> simp

end Queue

/-! ## The order of a call's bytes -/

structure Ordered (s : Pipes n) : Prop where
  start : ∀ p c, s.pc p = .enter c → Starts c
  known : ∀ x ∈ s.sent, x.1 < s.calls.length
  own : ∀ p q, (s.pc p).writing ≠ none → (s.pc q).writing ≠ none → s.id p = s.id q → p = q
  begun : ∀ p m src i, (s.pc p).writing = some (m, src, i) →
    ∃ c, s.calls[s.id p]? = some c ∧ c.n = m ∧ c.src = src ∧
      s.bytesOf (s.id p) = c.first (s.id p) i ∧
      (c.n ≤ c.room → (s.pc p).stays = true ∧ m + s.pipe.used ≤ i + PIPESIZE ∧
        ∃ a, s.sent = a ++ s.bytesOf (s.id p))
  each : ∀ id c, s.calls[id]? = some c →
    (∃ k, s.bytesOf id = c.first id k) ∧
    (c.n ≤ c.room → ∃ a b, s.sent = a ++ s.bytesOf id ++ b)

namespace Ordered

variable {src : Nat → Option UInt8}

theorem init (page : Bytes PIPESIZE) : Ordered (Pipes.init page : Pipes n) where
  start := by simp [Pipes.init]
  known := by simp [Pipes.init]
  own := by simp [Pipes.init, PipePc.writing]
  begun := by simp [Pipes.init, PipePc.writing]
  each := by simp [Pipes.init]

theorem quiet (h : Ordered s) {pc0 : PipePc} (hp : s.pc p = pc0) (hpc : t.pc = update s.pc p pc)
    (hsent : t.sent = s.sent) (hcalls : t.calls = s.calls) (hid : t.id = s.id)
    (hused : t.pipe.used ≤ s.pipe.used) (hstart : ∀ c, pc = .enter c → Starts c)
    (hw : pc.writing = none ∨ pc.writing = pc0.writing)
    (hstay : ∀ m src i, pc.writing = some (m, src, i) → pc0.stays = true →
      m + (s.pipe.used : Int) ≤ i + PIPESIZE → pc.stays = true) : Ordered t := by
  subst hp
  have hsub : ∀ q w, (t.pc q).writing = some w → (s.pc q).writing = some w := by
    intro q w hq
    rw [hpc] at hq
    rcases eq_or_ne q p with rfl | hqp
    · rw [update_self] at hq
      rcases hw with hn | he
      · rw [hn] at hq
        cases hq
      · rw [← he]
        exact hq
    · rwa [update_of_ne hqp] at hq
  have hsome : ∀ q, (t.pc q).writing ≠ none → (s.pc q).writing ≠ none := by
    intro q hq
    obtain ⟨w, hw'⟩ := Option.ne_none_iff_exists'.mp hq
    rw [hsub q w hw']
    simp
  have hof : ∀ id, t.bytesOf id = s.bytesOf id := by
    intro id
    unfold bytesOf
    rw [hsent]
  constructor
  · intro q c hq
    rw [hpc] at hq
    rcases eq_or_ne q p with rfl | hqp
    · rw [update_self] at hq
      exact hstart c hq
    · rw [update_of_ne hqp] at hq
      exact h.start q c hq
  · rw [hsent, hcalls]
    exact h.known
  · intro q q' hq hq'
    rw [hid]
    exact h.own q q' (hsome q hq) (hsome q' hq')
  · intro q m src i hq
    obtain ⟨c, hc, hn, hsrc, hb, hfit⟩ := h.begun q m src i (hsub q _ hq)
    rw [hid, hcalls, hof, hsent]
    refine ⟨c, hc, hn, hsrc, hb, fun hroom => ?_⟩
    obtain ⟨hs, hle, hend⟩ := hfit hroom
    refine ⟨?_, by omega, hend⟩
    rw [hpc] at hq ⊢
    rcases eq_or_ne q p with rfl | hqp
    · rw [update_self] at hq ⊢
      exact hstay m src i hq hs hle
    · rw [update_of_ne hqp]
      exact hs
  · intro id c hc
    rw [hcalls] at hc
    rw [hof, hsent]
    exact h.each id c hc

theorem bytesOf_append (s : Pipes n) (p : Fin n) (ch : UInt8) (id : Nat) :
    (s.append p ch).bytesOf id =
      s.bytesOf id ++ if s.id p = id then [(id, ch)] else [] := by
  change List.filter _ (s.sent ++ [(s.id p, ch)]) = _
  rw [filter_append]
  by_cases h : s.id p = id
  · simp [h, bytesOf]
  · simp [h, bytesOf]

theorem first_succ (c : WriteCall) (id k : Nat) :
    c.first id (k + 1) = c.first id k ++ [(id, (c.src k).getD 0)] := by
  unfold WriteCall.first
  rw [range_succ, map_append]
  rfl

theorem append (h : Ordered s) (hsync : Sync s)
    {i unseen : Nat} {ch : UInt8} (hp : s.pc p = .head (.write m src i unseen))
    (hsrc : src i = some ch) (hused : (s.pipe.put ch).used = s.pipe.used + 1) :
    Ordered ((s.append p ch).setPc p (.head (.write m src (i + 1) (unseen + 1)))) := by
  have hwp : (s.pc p).writing = some (m, src, i) := by rw [hp]; rfl
  obtain ⟨c, hc, hn, hs, hb, hfit⟩ := h.begun p m src i hwp
  have hsome : ∀ q,
      (((s.append p ch).setPc p (.head (.write m src (i + 1) (unseen + 1)))).pc q).writing ≠
      none → (s.pc q).writing ≠ none := by
    intro q hq
    by_cases hqp : q = p
    · rw [hqp, hwp]
      simp
    · simpa [update_of_ne hqp] using hq
  have hself : (s.append p ch).bytesOf (s.id p) = c.first (s.id p) (i + 1) := by
    rw [bytesOf_append, if_pos rfl, hb, first_succ, hs, hsrc]
    rfl
  have hblock : c.n ≤ c.room →
      ∃ a, s.sent ++ [(s.id p, ch)] = a ++ (s.append p ch).bytesOf (s.id p) := by
    intro hroom
    obtain ⟨_, _, a, ha⟩ := hfit hroom
    refine ⟨a, ?_⟩
    rw [bytesOf_append, if_pos rfl, ← append_assoc, ← ha]
  constructor
  · intro q c' hq
    rcases eq_or_ne q p with rfl | hqp
    · simp at hq
    · simp only [setPc_pc, update_of_ne hqp] at hq
      exact h.start q c' hq
  · intro x hx
    rcases mem_append.mp hx with hx | hx
    · exact h.known x hx
    · rw [mem_singleton.mp hx]
      exact (List.getElem?_eq_some_iff.mp hc).1
  · intro q q' hq hq'
    exact h.own q q' (hsome q hq) (hsome q' hq')
  · intro q m' src' i' hq
    rcases eq_or_ne q p with rfl | hqp
    · simp only [setPc_pc, update_self, PipePc.writing, PipeCall.writeArgs,
        Option.some.injEq, Prod.mk.injEq] at hq
      obtain ⟨rfl, rfl, rfl⟩ := hq
      refine ⟨c, hc, hn, hs, hself, fun hroom => ⟨?_, ?_, hblock hroom⟩⟩
      · simp [PipePc.stays]
      change m + ((s.pipe.put ch).used : Int) ≤ _
      rw [hused]
      omega
    · simp only [setPc_pc, append_pc, update_of_ne hqp] at hq ⊢
      obtain ⟨c', hc', hn', hs', hb', hfit'⟩ := h.begun q m' src' i' hq
      have hne : s.id p ≠ s.id q :=
        fun he => hqp (h.own q p (by rw [hq]; simp) (by rw [hwp]; simp) he.symm)
      refine ⟨c', hc', hn', hs', ?_, fun hroom => ?_⟩
      · change (s.append p ch).bytesOf (s.id q) = _
        rw [bytesOf_append, if_neg hne, append_nil]
        exact hb'
      -- only one process holds the lock, and it is the one that appends
      have hq' := (hsync.lock q).mpr (PipePc.stays.holds (hfit' hroom).1)
      have hp' := (hsync.lock p).mpr (by rw [hp]; rfl)
      rw [hq'] at hp'
      exact absurd (Option.some.inj hp') hqp
  · intro id c' hc'
    by_cases hid : s.id p = id
    · subst hid
      have he : c' = c := by
        have hc'' : s.calls[s.id p]? = some c' := hc'
        rw [hc] at hc''
        exact (Option.some.inj hc'').symm
      subst he
      refine ⟨⟨i + 1, hself⟩, fun hroom => ?_⟩
      obtain ⟨a, ha⟩ := hblock hroom
      exact ⟨a, [], by rw [append_nil]; exact ha⟩
    · obtain ⟨hk, hfit'⟩ := h.each id c' hc'
      have hb' : (s.append p ch).bytesOf id = s.bytesOf id := by
        rw [bytesOf_append, if_neg hid, append_nil]
      refine ⟨?_, fun hroom => ?_⟩
      · obtain ⟨k, hk⟩ := hk
        exact ⟨k, hb'.trans hk⟩
      obtain ⟨a, b, hab⟩ := hfit' hroom
      refine ⟨a, b ++ [(s.id p, ch)], ?_⟩
      change s.sent ++ [(s.id p, ch)] = a ++ (s.append p ch).bytesOf id ++ (b ++ [(s.id p, ch)])
      rw [hb', ← append_assoc, ← hab]

theorem used_drop {pi : Pipe} {r : Nat} {items : List UInt8} (h : pi.Holds r items)
    (hempty : pi.isEmpty = false) : pi.drop.used ≤ pi.used := by
  cases items with
  | nil => simp [h.isEmpty_iff.mpr rfl] at hempty
  | cons ch items =>
    rw [h.drop.2.used_eq, h.used_eq, length_cons]
    exact Nat.le_succ _

theorem register (h : Ordered s)
    (hp : s.pc p = .enter (.write m src 0 0)) (hused : s.pipe.used ≤ PIPESIZE) :
    Ordered (((s.withLock (some p)).register p (.write m src 0 0)).setPc p
      (.head (.write m src 0 0))) := by
  have hnone : s.bytesOf s.calls.length = [] := by
    apply filter_eq_nil_iff.mpr
    intro x hx
    have := h.known x hx
    simp only [decide_eq_true_eq]
    omega
  have hidp : ∀ q, (update s.id p s.calls.length) q =
      if q = p then s.calls.length else s.id q := by
    intro q
    exact update_apply ..
  have hlt : ∀ q, (s.pc q).writing ≠ none → s.id q < s.calls.length := by
    intro q hq
    obtain ⟨⟨m', src', i'⟩, hw⟩ := Option.ne_none_iff_exists'.mp hq
    obtain ⟨c, hc, _⟩ := h.begun q m' src' i' hw
    exact (List.getElem?_eq_some_iff.mp hc).1
  constructor
  · intro q c hq
    rcases eq_or_ne q p with rfl | hqp
    · simp at hq
    · simp only [setPc_pc, update_of_ne hqp] at hq
      exact h.start q c hq
  · intro x hx
    change x.1 < (s.calls ++ [_]).length
    rw [length_append]
    exact Nat.lt_succ_of_lt (h.known x hx)
  · intro q q' hq hq' he
    change update s.id p s.calls.length q = update s.id p s.calls.length q' at he
    rw [hidp, hidp] at he
    by_cases hqp : q = p
    · by_cases hqp' : q' = p
      · rw [hqp, hqp']
      simp only [setPc_pc, update_of_ne hqp'] at hq'
      rw [if_pos hqp, if_neg hqp'] at he
      exact absurd he.symm (Nat.ne_of_lt (hlt q' hq'))
    simp only [setPc_pc, update_of_ne hqp] at hq
    by_cases hqp' : q' = p
    · rw [if_neg hqp, if_pos hqp'] at he
      exact absurd he (Nat.ne_of_lt (hlt q hq))
    simp only [setPc_pc, update_of_ne hqp'] at hq'
    rw [if_neg hqp, if_neg hqp'] at he
    exact h.own q q' hq hq' he
  · intro q m' src' i' hq
    change ∃ c, (s.calls ++ [_])[update s.id p s.calls.length q]? = some c ∧ _
    rcases eq_or_ne q p with rfl | hqp
    · simp only [setPc_pc, update_self, PipePc.writing, PipeCall.writeArgs,
        Option.some.injEq, Prod.mk.injEq] at hq
      obtain ⟨rfl, rfl, rfl⟩ := hq
      have hid : (((s.withLock (some q)).register q (.write m src 0 0)).setPc q
          (.head (.write m src 0 0))).id q = s.calls.length := update_self ..
      refine ⟨⟨m, src, PIPESIZE - s.pipe.used⟩, ?_, rfl, rfl, ?_, fun hroom => ⟨?_, ?_, s.sent, ?_⟩⟩
      · rw [update_self, List.getElem?_concat_length]
        rfl
      · rw [hid]
        exact hnone
      · simp [PipePc.stays]
      · change m ≤ ((PIPESIZE - s.pipe.used : Nat) : Int) at hroom
        change m + (s.pipe.used : Int) ≤ _
        omega
      · rw [hid]
        change s.sent = s.sent ++ s.bytesOf s.calls.length
        rw [hnone, append_nil]
    · simp only [setPc_pc, update_of_ne hqp, register_pc, withLock_pc] at hq ⊢
      obtain ⟨c, hc, hrest⟩ := h.begun q m' src' i' hq
      have hid : (((s.withLock (some p)).register p (.write m src 0 0)).setPc p
          (.head (.write m src 0 0))).id q = s.id q := update_of_ne hqp ..
      rw [hid]
      refine ⟨c, ?_, hrest⟩
      rw [List.getElem?_append_left (List.getElem?_eq_some_iff.mp hc).1]
      exact hc
  · intro id c hc
    change (s.calls ++ [_])[id]? = some c at hc
    by_cases hid : id < s.calls.length
    · rw [List.getElem?_append_left hid] at hc
      exact h.each id c hc
    have hlen := (List.getElem?_eq_some_iff.mp hc).1
    rw [length_append, length_singleton] at hlen
    have he : id = s.calls.length := by omega
    subst he
    refine ⟨⟨0, hnone⟩, fun _ => ⟨s.sent, [], ?_⟩⟩
    change s.sent = s.sent ++ s.bytesOf s.calls.length ++ []
    rw [hnone, append_nil, append_nil]

theorem step (h : Ordered s) (hsync : Sync s) (hq : Queue s) (hst : Steps s a t) : Ordered t := by
  obtain ⟨rest, _, hholds⟩ := hq
  have hroom : s.pipe.used ≤ PIPESIZE := by
    rw [hholds.used_eq]
    exact hholds.ring.room
  cases hst with
  | call hp hc =>
    exact h.quiet hp rfl rfl rfl rfl le_rfl (fun c he => by cases he; exact hc)
      (.inl rfl) nofun
  | @enter p c hp =>
    have hc := h.start p c hp
    cases c with
    | write m src i unseen =>
      obtain ⟨rfl, rfl⟩ := hc
      exact h.register hp hroom
    | read m dst i =>
      exact h.quiet hp rfl rfl rfl rfl le_rfl nofun (.inl rfl) nofun
    | close w =>
      exact h.quiet hp rfl rfl rfl rfl le_rfl nofun (.inl rfl) nofun
  | writeLeave hp =>
    exact h.quiet hp rfl rfl rfl rfl le_rfl nofun (.inr rfl) fun _ _ _ _ _ _ => rfl
  | @writeFull p m src i unseen hp hi hfull =>
    refine h.quiet hp rfl rfl rfl rfl le_rfl nofun (.inr rfl) ?_
    -- a call with room for all its bytes never finds the pipe full
    intro m' src' i' hw _ hle
    have hlen := hholds.isFull_iff.mp hfull
    rw [hholds.used_eq, hlen] at hle
    cases hw
    omega
  | writeEnd hp =>
    exact h.quiet hp rfl rfl rfl rfl le_rfl nofun (.inr rfl) fun _ _ _ _ _ _ => rfl
  | @append p m src i unseen ch hp hi hfull hsrc =>
    refine h.append hsync hp hsrc ?_
    rw [(hholds.put hfull ch).used_eq, hholds.used_eq, length_append]
    rfl
  | readLeave hp => exact h.quiet hp rfl rfl rfl rfl le_rfl nofun (.inl rfl) nofun
  | readSleep hp => exact h.quiet hp rfl rfl rfl rfl le_rfl nofun (.inl rfl) nofun
  | readGo hp => exact h.quiet hp rfl rfl rfl rfl le_rfl nofun (.inl rfl) nofun
  | remove hp _ hempty =>
    exact h.quiet hp rfl rfl rfl rfl (used_drop hholds hempty) nofun (.inl rfl) nofun
  | removeFault hp _ hempty =>
    exact h.quiet hp rfl rfl rfl rfl (used_drop hholds hempty) nofun (.inl rfl) nofun
  | readEnd hp => exact h.quiet hp rfl rfl rfl rfl le_rfl nofun (.inl rfl) nofun
  | @close p w hp =>
    refine h.quiet hp rfl rfl rfl rfl ?_ nofun (.inl rfl) nofun
    change (s.pipe.closed w).used ≤ _
    rw [(hholds.closed w).used_eq, hholds.used_eq]
  | @wakeOne p ch q c k hp =>
    refine h.quiet hp rfl rfl rfl rfl le_rfl nofun (.inr rfl) ?_
    intro _ _ _ _ hs _
    cases k with
    | sleep => cases hs
    | leave => rfl
  | @wakeSleep p ch ch' q c hp =>
    exact h.quiet hp rfl rfl rfl rfl le_rfl nofun (.inr c.writeArgs_announced) nofun
  | wakeLeave hp =>
    exact h.quiet hp rfl rfl rfl rfl le_rfl nofun (.inr rfl) fun _ _ _ _ _ _ => rfl
  | sleep hp =>
    exact h.quiet hp rfl rfl rfl rfl le_rfl nofun (.inr rfl) nofun
  | letGo hp =>
    exact h.quiet hp rfl rfl rfl rfl le_rfl nofun (.inr rfl) nofun
  | doze hp =>
    exact h.quiet hp rfl rfl rfl rfl le_rfl nofun (.inr rfl) nofun
  | sched hp =>
    exact h.quiet hp rfl rfl rfl rfl le_rfl nofun (.inr rfl) nofun
  | resume hp =>
    exact h.quiet hp rfl rfl rfl rfl le_rfl nofun (.inr rfl) nofun
  | woken hp =>
    exact h.quiet hp rfl rfl rfl rfl le_rfl nofun (.inr rfl) nofun
  | again hp =>
    exact h.quiet hp rfl rfl rfl rfl le_rfl nofun (.inr rfl) nofun
  | @leave p c r hp =>
    exact h.quiet hp (leaveStep_pc s p c) (by simp) (by simp) (by simp) (by simp) nofun
      (.inl rfl) nofun
  | @kill q =>
    exact h.quiet rfl (update_eq_self q s.pc).symm rfl rfl rfl le_rfl
      (h.start q) (.inr rfl) fun _ _ _ _ hs _ => hs

end Ordered

/-! ## The end of the stream -/

end Pipes

namespace PipePc

def reading : PipePc → Option (Int × (Nat → Bool) × Nat)
  | .enter c | .head c | .wake _ _ c (.sleep _) | .sleep _ c | .letGo _ c | .doze _ c
  | .sched _ c | .asleep _ c | .woken c | .again c => c.readArgs
  | _ => none

def result : PipePc → Option (Int × Int)
  | .wake _ _ c (.leave r) | .leave c r => c.readArgs.map fun w => (w.1, r)
  | _ => none

theorem result.holds {w : Int × Int} (h : pc.result = some w) : pc.holds = true := by
  cases pc <;> first | rfl | cases h

end PipePc

namespace Pipes

variable {w : Int × (Nat → Bool) × Nat}

def Total : PipeCall → Prop
  | .write m src _ _ => ∀ i : Nat, (i : Int) < m → src i ≠ none
  | .read m dst _ => ∀ i : Nat, (i : Int) < m → dst i = true
  | .close _ => True

/-- All user copies succeed. -/
def CopiesSucceed (_s : Pipes n) : PipeAct n → Prop
  | .call _ c => Total c
  | _ => True

structure Draining (s : Pipes n) : Prop where
  waiting : ∀ p m dst i, (s.pc p).reading = some (m, dst, i) →
    i = 0 ∧ ∀ j : Nat, (j : Int) < m → dst j = true
  copying : ∀ p m dst i, s.pc p = .copy m dst i →
    (∀ j : Nat, (j : Int) < m → dst j = true) ∧
    (i = 0 → ¬(s.pipe.isEmpty = true ∧ s.pipe.writeopen = true))
  result : ∀ p m, (s.pc p).result = some (m, 0) → 0 < m →
    s.pipe.isEmpty = true ∧ s.pipe.writeopen = false

theorem Draining.init (page : Bytes PIPESIZE) : Draining (Pipes.init page : Pipes n) where
  waiting := by simp [Pipes.init, PipePc.reading]
  copying := by simp [Pipes.init]
  result := by simp [Pipes.init, PipePc.result]

theorem Steps.reading (hst : Steps s (.run p) t)
    (hp : (t.pc p).reading = some w) : (s.pc p).reading = some w := by
  cases hst with
  | @wakeOne _ ch q c k hpc =>
    cases k with
    | sleep => simpa [hpc, PipePc.reading] using hp
    | leave => simp [PipePc.reading] at hp
  | wakeSleep hpc => simpa [hpc, PipePc.reading] using hp
  | _ =>
    rename_i hpc
    simp_all [PipePc.reading, PipeCall.readArgs]

theorem Steps.pc_other (hst : Steps s a t) (hrun : a ≠ .run p) (hcall : ∀ c, a ≠ .call p c) :
    t.pc p = s.pc p := by
  cases hst with
  | kill => rfl
  | call =>
    apply update_of_ne
    intro he
    exact hcall _ (by rw [he])
  | _ =>
    simp only [setPc_pc, setProc_pc, withLock_pc, register_pc, leaveStep_pc, append_pc, remove_pc]
    apply update_of_ne
    intro he
    exact hrun (by rw [he])

namespace Draining

variable {dst : Nat → Bool} {i : Nat}

theorem step_waiting (h : Draining s) (hC : CopiesSucceed s a) (hst : Steps s a t)
    (hp : (t.pc p).reading = some (m, dst, i)) :
    i = 0 ∧ ∀ j : Nat, (j : Int) < m → dst j = true := by
  by_cases hrun : a = .run p
  · subst hrun
    exact h.waiting p m dst i (hst.reading hp)
  by_cases hcall : ∃ c, a = .call p c
  · obtain ⟨c, rfl⟩ := hcall
    cases hst with
    | call _ hc =>
      simp only [setPc_pc, update_self] at hp
      cases c with
      | read =>
        cases hp
        exact ⟨hc, hC⟩
      | write => cases hp
      | close => cases hp
  · rw [hst.pc_other hrun fun c hc => hcall ⟨c, hc⟩] at hp
    exact h.waiting p m dst i hp

theorem frame (hsync : Sync s) (hst : Steps s a t) (hrun : a ≠ .run p)
    (hp : (t.pc p).holds = true) : t.pipe = s.pipe ∧ t.pc p = s.pc p := by
  apply hsync.frame hst _ hrun
  by_cases hcall : ∃ c, a = .call p c
  · obtain ⟨c, rfl⟩ := hcall
    cases hst
    simp [PipePc.holds] at hp
  · rwa [hst.pc_other hrun fun c hc => hcall ⟨c, hc⟩] at hp

theorem step_copying (h : Draining s) (hsync : Sync s) (hst : Steps s a t)
    (hp : t.pc p = .copy m dst i) : (∀ j : Nat, (j : Int) < m → dst j = true) ∧
    (i = 0 → ¬(t.pipe.isEmpty = true ∧ t.pipe.writeopen = true)) := by
  by_cases hrun : a = .run p
  · subst hrun
    cases hst with
    | readGo hpc hne =>
      simp only [setPc_pc, update_self, PipePc.copy.injEq] at hp
      obtain ⟨rfl, rfl, rfl⟩ := hp
      exact ⟨(h.waiting p _ _ _ (by rw [hpc]; rfl)).2, fun _ => hne⟩
    | remove hpc =>
      simp only [setPc_pc, update_self, PipePc.copy.injEq] at hp
      obtain ⟨rfl, rfl, rfl⟩ := hp
      exact ⟨(h.copying p _ _ _ hpc).1, by omega⟩
    | _ => simp at hp
  · obtain ⟨hpipe, hpc⟩ := frame hsync hst hrun (by rw [hp]; rfl)
    rw [hpipe]
    exact h.copying p m dst i (by rw [← hpc]; exact hp)

theorem step_result (h : Draining s) (hsync : Sync s) (hst : Steps s a t)
    (hp : (t.pc p).result = some (m, 0)) (hm : 0 < m) :
    t.pipe.isEmpty = true ∧ t.pipe.writeopen = false := by
  by_cases hrun : a = .run p
  · subst hrun
    cases hst with
    | readEnd hpc hend =>
      simp only [setPc_pc, update_self, PipePc.result, PipeCall.readArgs,
        Option.map_some, Option.some.injEq, Prod.mk.injEq] at hp
      obtain ⟨rfl, hi⟩ := hp
      have hcopy := (h.copying p _ _ _ hpc).2 (by omega)
      simp only [setPc_pipe]
      cases he : s.pipe.isEmpty with
      | false => exact absurd ⟨by omega, he⟩ hend
      | true =>
        refine ⟨rfl, ?_⟩
        cases hw : s.pipe.writeopen with
        | false => rfl
        | true => exact absurd ⟨he, hw⟩ hcopy
    | removeFault hpc hi _ hd =>
      rw [(h.copying p _ _ _ hpc).1 _ hi] at hd
      cases hd
    | readLeave => simp [PipePc.result, PipeCall.readArgs] at hp
    | @wakeOne _ ch q c k hpc =>
      cases k with
      | sleep => simp [PipePc.result] at hp
      | leave => exact h.result p m (by simpa [hpc, PipePc.result] using hp) hm
    | wakeLeave hpc => exact h.result p m (by simpa [hpc, PipePc.result] using hp) hm
    | _ => simp [PipePc.result, PipeCall.readArgs] at hp
  · obtain ⟨hpipe, hpc⟩ := frame hsync hst hrun (PipePc.result.holds hp)
    rw [hpipe]
    exact h.result p m (by rw [← hpc]; exact hp) hm

theorem step (h : Draining s) (hsync : Sync s) (hC : CopiesSucceed s a) (hst : Steps s a t) :
    Draining t where
  waiting := fun _ _ _ _ hp => h.step_waiting hC hst hp
  copying := fun _ _ _ _ hp => h.step_copying hsync hst hp
  result := fun _ _ hp hm => h.step_result hsync hst hp hm

end Draining

/-- A pipe is a queue of at most `PIPESIZE` bytes, whoever uses it and however
often its counters wrap. -/
theorem pipe_bounded_fifo {page : Bytes PIPESIZE} (h : Reaches step CopiesSucceed (init page) s) :
    s.recv ++ s.pipe.contents = s.bytes ∧ s.pipe.used ≤ PIPESIZE ∧ (∀ id c, s.calls[id]? = some c →
      (∃ k, s.bytesOf id = c.first id k) ∧
      (c.n ≤ c.room → ∃ a b, s.sent = a ++ s.bytesOf id ++ b)) ∧
    (∀ p m dst i, s.pc p = .leave (.read m dst i) 0 → 0 < m →
      s.pipe.isEmpty = true ∧ s.pipe.writeopen = false) := by
  have hinv : Sync s ∧ Queue s ∧ Ordered s ∧ Draining s := by
    apply h.invariant ⟨.init page, .init page, .init page, .init page⟩
    rintro u v a ⟨hsync, hq, ho, hd⟩ hC hst
    have hs := steps_of_step hst
    exact ⟨hsync.step hs, hq.step hs, ho.step hsync hq hs, hd.step hsync hC hs⟩
  obtain ⟨_, ⟨rest, hb, hholds⟩, ho, hd⟩ := hinv
  refine ⟨?_, ?_, ho.each, ?_⟩
  · rw [hholds.contents_eq, hb]
  · rw [hholds.used_eq]
    exact hholds.ring.room
  · intro p m dst i hp hm
    exact hd.result p m (by rw [hp]; rfl) hm

/-- `w` writes three bytes, and `r` reads two. -/
def passBytes (w r : Fin n) : List (PipeAct n) :=
  [.call w (.write 3 (fun j => some (7 + UInt8.ofNat j)) 0 0)] ++ List.replicate 9 (.run w) ++
    [.call r (.read 2 (fun _ => true) 0)] ++ List.replicate 4 (.run r)

theorem pipe_bounded_fifo_passBytes :
    ∃ s : Pipes 2, Reaches step CopiesSucceed (init Bytes.zero) s ∧ s.bytes = [7, 8, 9] ∧
      s.recv = [7, 8] ∧ s.recv ++ s.pipe.contents = s.bytes := by
  have hrun : (exec step (fun _ _ => true) (init Bytes.zero : Pipes 2) (passBytes 0 1)).map
      (fun s => (s.bytes, s.recv)) = some ([7, 8, 9], [7, 8]) := by decide +kernel
  obtain ⟨s, hs, hpair⟩ := Option.map_eq_some_iff.mp hrun
  obtain ⟨hbytes, hrecv⟩ := Prod.mk.inj hpair
  have hreach : Reaches step CopiesSucceed (init Bytes.zero) s := by
    refine .exec .refl ?_ hs
    simp [passBytes, CopiesSucceed, Total]
  exact ⟨s, hreach, hbytes, hrecv, (pipe_bounded_fifo hreach).1⟩

end Pipes

end Xv6.Kernel
