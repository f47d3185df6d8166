import Xv6.Machine.Virtio
import Xv6.Lib.Ring
import Mathlib.Data.List.Nodup
import Mathlib.Data.List.Perm.Subperm
/-!
# The protocol between the disk driver and the device

Every request has three descriptors of its own.  A request that has been published
and not handled is in exactly one place: in the avail ring, with the device, or in
the used ring.
-/

namespace Xv6.Kernel

open Xv6.Lib Function List

variable {B : Type} {d : VDisk B} {b b' : B} {ch ch' : DescChain} {i : Nat} {pc : DiskPc}

theorem NUM_eq : NUM = 8 := rfl

theorem NUM_dvd : NUM ∣ 2 ^ 16 := ⟨2 ^ 13, rfl⟩

namespace DescChain

def idx (ch : DescChain) : List Nat := [ch.i0, ch.i1, ch.i2]

theorem i0_mem (ch : DescChain) : ch.i0 ∈ ch.idx := mem_cons_self

theorem i1_mem (ch : DescChain) : ch.i1 ∈ ch.idx := mem_cons_of_mem _ mem_cons_self

theorem i2_mem (ch : DescChain) : ch.i2 ∈ ch.idx :=
  mem_cons_of_mem _ (mem_cons_of_mem _ mem_cons_self)

end DescChain

/-! ## Descriptors -/

namespace VDisk

variable {d' d'' e : VDisk B} {j fuel : Nat} {l : List Nat}

structure Linked (d : VDisk B) (ch : DescChain) : Prop where
  lt : ∀ i ∈ ch.idx, i < NUM
  nodup : ch.idx.Nodup
  taken : ∀ i ∈ ch.idx, d.free i = false
  desc0 : (d.desc ch.i0).flags &&& VRING_DESC_F_NEXT ≠ 0 ∧ (d.desc ch.i0).next = ch.i1
  desc1 : (d.desc ch.i1).flags &&& VRING_DESC_F_NEXT ≠ 0 ∧ (d.desc ch.i1).next = ch.i2
  desc2 : (d.desc ch.i2).flags &&& VRING_DESC_F_NEXT = 0

structure Owned (d : VDisk B) (b : B) (ch : DescChain) : Prop extends Linked d ch where
  info : d.info ch.i0 = ⟨some b, 0⟩

theorem Owned.congr (h : Owned d b ch) (hfree : ∀ i ∈ ch.idx, d'.free i = d.free i)
    (hdesc : ∀ i ∈ ch.idx, d'.desc i = d.desc i) (hinfo : d'.info ch.i0 = d.info ch.i0) :
    Owned d' b ch where
  lt := h.lt
  nodup := h.nodup
  taken := fun i hi => (hfree i hi).trans (h.taken i hi)
  desc0 := by
    rw [hdesc _ ch.i0_mem]
    exact h.desc0
  desc1 := by
    rw [hdesc _ ch.i1_mem]
    exact h.desc1
  desc2 := by
    rw [hdesc _ ch.i2_mem]
    exact h.desc2
  info := hinfo.trans h.info

structure SameRings (d d' : VDisk B) : Prop where
  avail : d'.avail = d.avail
  availIdx : d'.availIdx = d.availIdx
  elems : d'.elems = d.elems
  usedId : d'.usedId = d.usedId
  usedIdx : d'.usedIdx = d.usedIdx

theorem SameRings.refl (d : VDisk B) : SameRings d d := ⟨rfl, rfl, rfl, rfl, rfl⟩

theorem SameRings.trans (h : SameRings d d') (h' : SameRings d' d'') : SameRings d d'' :=
  ⟨h'.avail.trans h.avail, h'.availIdx.trans h.availIdx, h'.elems.trans h.elems,
    h'.usedId.trans h.usedId, h'.usedIdx.trans h.usedIdx⟩

theorem allocDesc_some (h : d.allocDesc = (some i, d')) :
    i < NUM ∧ d.free i = true ∧ d' = d.setFree i false := by
  unfold allocDesc at h
  split at h
  · rename_i j hj
    cases h
    exact ⟨mem_range.mp (List.mem_of_find?_eq_some hj), List.find?_some hj, rfl⟩
  · cases h

theorem allocDesc_none (h : d.allocDesc = (none, d')) : d' = d := by
  unfold allocDesc at h
  split at h
  · cases h
  · cases h
    rfl

theorem freeDesc_ok (hlt : i < NUM) (htaken : d.free i = false) :
    d.freeDesc i = .ok ((d.setDesc i { d.desc i with addr := .null }).setFree i true) := by
  unfold freeDesc
  rw [if_neg (Nat.not_le.mpr hlt), htaken]
  rfl

def released (d : VDisk B) (i : Nat) : VDisk B :=
  (d.setDesc i { d.desc i with addr := .null }).setFree i true

theorem released_free (d : VDisk B) (i j : Nat) :
    (d.released i).free j = if j = i then true else d.free j := by
  change update d.free i true j = _
  rw [update_apply]

theorem released_desc_ne (h : j ≠ i) : (d.released i).desc j = d.desc j :=
  update_of_ne h ..

theorem released_flags (d : VDisk B) (i j : Nat) :
    ((d.released i).desc j).flags = (d.desc j).flags ∧
      ((d.released i).desc j).next = (d.desc j).next := by
  rcases eq_or_ne j i with rfl | h
  · have hself : (d.released j).desc j = { d.desc j with addr := .null } := update_self ..
    rw [hself]
    exact ⟨rfl, rfl⟩
  · rw [released_desc_ne h]
    exact ⟨rfl, rfl⟩

theorem released_rings (d : VDisk B) (i : Nat) : SameRings d (d.released i) :=
  ⟨rfl, rfl, rfl, rfl, rfl⟩

theorem freeDescs_released (hlt : ∀ i ∈ l, i < NUM) (hnd : l.Nodup)
    (htaken : ∀ i ∈ l, d.free i = false) : d.freeDescs l = .ok (l.foldl released d) := by
  induction l generalizing d with
  | nil => rfl
  | cons i rest ih =>
    obtain ⟨hnew, hnd⟩ := nodup_cons.mp hnd
    unfold freeDescs
    rw [freeDesc_ok (hlt i mem_cons_self) (htaken i mem_cons_self)]
    refine ih (fun j hj => hlt j (mem_cons_of_mem _ hj)) hnd fun j hj => ?_
    have hne : j ≠ i := by
      rintro rfl
      exact hnew hj
    have hfree := released_free d i j
    rw [if_neg hne] at hfree
    exact hfree.trans (htaken j (mem_cons_of_mem _ hj))

structure FreedAll (d d' : VDisk B) (l : List Nat) : Prop where
  free : ∀ i, d'.free i = if i ∈ l then true else d.free i
  desc : ∀ i, i ∉ l → d'.desc i = d.desc i
  info : d'.info = d.info
  rings : SameRings d d'

theorem foldl_released (d : VDisk B) (l : List Nat) : FreedAll d (l.foldl released d) l := by
  induction l generalizing d with
  | nil =>
    refine ⟨fun i => ?_, fun _ _ => rfl, rfl, SameRings.refl d⟩
    simp
  | cons i rest ih =>
    obtain ⟨hfree, hdesc, hinfo, hrings⟩ := ih (d.released i)
    refine ⟨fun j => ?_, fun j hj => ?_, hinfo, (released_rings d i).trans hrings⟩
    · rw [foldl_cons, hfree, released_free]
      by_cases hj : j = i
      · simp [hj]
      · simp [hj]
    · rw [foldl_cons, hdesc j fun hin => hj (mem_cons_of_mem _ hin)]
      exact released_desc_ne fun he => hj (by rw [he]; exact mem_cons_self)

theorem freeChain_round (hlt : i < NUM) (htaken : d.free i = false) : d.freeChain (fuel + 1) i =
      if (d.desc i).flags &&& VRING_DESC_F_NEXT ≠ 0 then
        (d.released i).freeChain fuel (d.desc i).next
      else .ok (d.released i) := by
  obtain ⟨hflags, hnext⟩ := released_flags d i i
  have hok : d.freeDesc i = .ok (d.released i) := freeDesc_ok hlt htaken
  rw [freeChain, hok]
  simp only [hflags, hnext]

theorem freeChain_linked (h : Linked d ch) :
    ∃ d', d.freeChain (NUM + 1) ch.i0 = .ok d' ∧ FreedAll d d' ch.idx := by
  refine ⟨_, ?_, foldl_released d ch.idx⟩
  have hnd := h.nodup
  unfold DescChain.idx at hnd
  simp only [nodup_cons, mem_cons, not_mem_nil, or_false, not_or, nodup_nil,
    and_true, not_false_eq_true] at hnd
  obtain ⟨⟨h01, h02⟩, h12⟩ := hnd
  have htaken1 : (d.released ch.i0).free ch.i1 = false := by
    rw [released_free, if_neg (Ne.symm h01)]
    exact h.taken _ ch.i1_mem
  have htaken2 : ((d.released ch.i0).released ch.i1).free ch.i2 = false := by
    rw [released_free, if_neg (Ne.symm h12), released_free, if_neg (Ne.symm h02)]
    exact h.taken _ ch.i2_mem
  have hdesc1 : (d.released ch.i0).desc ch.i1 = d.desc ch.i1 := released_desc_ne (Ne.symm h01)
  have hdesc2 : ((d.released ch.i0).released ch.i1).desc ch.i2 = d.desc ch.i2 := by
    rw [released_desc_ne (Ne.symm h12), released_desc_ne (Ne.symm h02)]
  rw [freeChain_round (h.lt _ ch.i0_mem) (h.taken _ ch.i0_mem), if_pos h.desc0.1, h.desc0.2]
  rw [NUM_eq, freeChain_round (h.lt _ ch.i1_mem) htaken1, hdesc1, if_pos h.desc1.1, h.desc1.2]
  rw [freeChain_round (h.lt _ ch.i2_mem) htaken2, hdesc2, if_neg (not_not.mpr h.desc2)]
  rfl

theorem finish_owned (h : Owned d b ch) : ∃ d', d.finish ch.i0 = .ok d' ∧
      FreedAll (d.setInfo ch.i0 { d.info ch.i0 with b := none }) d' ch.idx := by
  have hlinked : Linked (d.setInfo ch.i0 { d.info ch.i0 with b := none }) ch :=
    ⟨h.lt, h.nodup, h.taken, h.desc0, h.desc1, h.desc2⟩
  exact freeChain_linked hlinked

/-- What a failed `alloc3_desc` leaves alone: all but descriptors that are free. -/
structure Untouched (d d' : VDisk B) : Prop where
  free : d'.free = d.free
  desc : ∀ i, d.free i = false → d'.desc i = d.desc i
  info : d'.info = d.info
  rings : SameRings d d'

theorem setFree_free (d : VDisk B) (i j : Nat) (x : Bool) :
    (d.setFree i x).free j = if j = i then x else d.free j := by
  change update d.free i x j = _
  rw [update_apply]

theorem freeDescs_untouched (hlt : ∀ i ∈ l, i < NUM) (hnd : l.Nodup)
    (hfree : ∀ i, e.free i = if i ∈ l then false else d.free i) (hwas : ∀ i ∈ l, d.free i = true)
    (hdesc : e.desc = d.desc) (hinfo : e.info = d.info) (hrings : SameRings d e) :
    ∃ d', e.freeDescs l = .ok d' ∧ Untouched d d' := by
  refine ⟨_, freeDescs_released hlt hnd fun i hi => by rw [hfree, if_pos hi], ?_⟩
  obtain ⟨hf, hd, hi, hr⟩ := foldl_released e l
  refine ⟨?_, fun i hi => ?_, hi.trans hinfo, hrings.trans hr⟩
  · funext i
    rw [hf, hfree]
    by_cases hin : i ∈ l
    · rw [if_pos hin, hwas i hin]
    · rw [if_neg hin, if_neg hin]
  · rw [hd i, hdesc]
    intro hin
    rw [hwas i hin] at hi
    cases hi

theorem alloc3Desc_spec (d : VDisk B) : (∃ d', d.alloc3Desc = .ok (none, d') ∧ Untouched d d') ∨
      ∃ ch, d.alloc3Desc =
          .ok (some ch, ((d.setFree ch.i0 false).setFree ch.i1 false).setFree ch.i2 false) ∧
        ch.idx.Nodup ∧ ∀ i ∈ ch.idx, i < NUM ∧ d.free i = true := by
  unfold alloc3Desc
  rcases h0 : d.allocDesc with ⟨_ | i0, d0⟩
  · obtain rfl := allocDesc_none h0
    exact .inl ⟨d0, rfl, rfl, fun _ _ => rfl, rfl, SameRings.refl d0⟩
  obtain ⟨hlt0, hfree0, rfl⟩ := allocDesc_some h0
  simp only
  rcases h1 : (d.setFree i0 false).allocDesc with ⟨_ | i1, d1⟩
  · obtain rfl := allocDesc_none h1
    obtain ⟨d', hd', hsame⟩ := freeDescs_untouched (d := d) (l := [i0]) (e := d.setFree i0 false)
      (by simpa using hlt0) (by simp) (fun i => by simp [setFree_free])
      (by simpa using hfree0) rfl rfl ⟨rfl, rfl, rfl, rfl, rfl⟩
    refine .inl ⟨d', ?_, hsame⟩
    simp only [hd']
    rfl
  obtain ⟨hlt1, hfree1, rfl⟩ := allocDesc_some h1
  rw [setFree_free] at hfree1
  have hne01 : i1 ≠ i0 := by
    rintro rfl
    simp at hfree1
  rw [if_neg hne01] at hfree1
  simp only
  rcases h2 : ((d.setFree i0 false).setFree i1 false).allocDesc with ⟨_ | i2, d2⟩
  · obtain rfl := allocDesc_none h2
    obtain ⟨d', hd', hsame⟩ := freeDescs_untouched (d := d) (l := [i0, i1])
      (e := (d.setFree i0 false).setFree i1 false)
      (by simp [hlt0, hlt1]) (by simp [Ne.symm hne01])
      (fun i => by
        simp only [setFree_free, mem_cons, not_mem_nil, or_false]
        by_cases hi1 : i = i1 <;> by_cases hi0 : i = i0 <;> simp [hi1, hi0])
      (by simp [hfree0, hfree1]) rfl rfl ⟨rfl, rfl, rfl, rfl, rfl⟩
    refine .inl ⟨d', ?_, hsame⟩
    simp only [hd']
    rfl
  obtain ⟨hlt2, hfree2, rfl⟩ := allocDesc_some h2
  rw [setFree_free] at hfree2
  have hne12 : i2 ≠ i1 := by
    rintro rfl
    simp at hfree2
  rw [if_neg hne12, setFree_free] at hfree2
  have hne02 : i2 ≠ i0 := by
    rintro rfl
    simp at hfree2
  rw [if_neg hne02] at hfree2
  refine .inr ⟨⟨i0, i1, i2⟩, rfl, ?_, ?_⟩
  · simp [DescChain.idx, Ne.symm hne01, Ne.symm hne02, Ne.symm hne12]
  · simp [DescChain.idx, hlt0, hlt1, hlt2, hfree0, hfree1, hfree2]

theorem format_owned (write : Bool) (hnd : ch.idx.Nodup)
    (hfree : ∀ i ∈ ch.idx, i < NUM ∧ d.free i = true) :
    Owned ((((d.setFree ch.i0 false).setFree ch.i1 false).setFree ch.i2 false).format b write ch) b
      ch := by
  unfold DescChain.idx at hnd
  simp only [nodup_cons, mem_cons, not_mem_nil, or_false, not_or, nodup_nil,
    and_true, not_false_eq_true] at hnd
  obtain ⟨⟨h01, h02⟩, h12⟩ := hnd
  have hflag : ∀ f : UInt16, (f = 0 ∨ f = VRING_DESC_F_WRITE) →
      (f ||| VRING_DESC_F_NEXT) &&& VRING_DESC_F_NEXT ≠ 0 := by
    rintro f (rfl | rfl) <;> decide
  refine ⟨⟨fun i hi => (hfree i hi).1, ?_, ?_, ⟨?_, ?_⟩, ⟨?_, ?_⟩, ?_⟩, ?_⟩
  · simp [DescChain.idx, h01, h02, h12]
  · intro i hi
    simp only [DescChain.idx, mem_cons, not_mem_nil, or_false] at hi
    simp only [format, setInfo, setDesc, setFree, update_apply]
    rcases hi with rfl | rfl | rfl <;> simp
  · simp only [format, setInfo, setDesc, setFree, update_apply]
    simp [h01, h02, VRING_DESC_F_NEXT]
  · simp only [format, setInfo, setDesc, setFree, update_apply]
    simp [h01, h02]
  · simp only [format, setInfo, setDesc, setFree, update_apply]
    rw [if_neg h12, if_true]
    apply hflag
    cases write <;> simp
  · simp only [format, setInfo, setDesc, setFree, update_apply]
    simp [h12]
  · simp only [format, setInfo, setDesc, setFree, update_apply, if_true]
    decide
  · simp [format, setInfo]

theorem format_other (write : Bool) (h : Owned d b' ch') (hapart : ∀ i ∈ ch.idx, i ∉ ch'.idx) :
    Owned ((((d.setFree ch.i0 false).setFree ch.i1 false).setFree ch.i2 false).format b write ch) b'
      ch' := by
  have hne : ∀ i ∈ ch'.idx, i ≠ ch.i0 ∧ i ≠ ch.i1 ∧ i ≠ ch.i2 := by
    intro i hi
    refine ⟨?_, ?_, ?_⟩
    · rintro rfl
      exact hapart _ ch.i0_mem hi
    · rintro rfl
      exact hapart _ ch.i1_mem hi
    · rintro rfl
      exact hapart _ ch.i2_mem hi
  refine h.congr (fun i hi => ?_) (fun i hi => ?_) ?_
  · obtain ⟨h0, h1, h2⟩ := hne i hi
    simp [format, setInfo, setDesc, setFree, h0, h1, h2]
  · obtain ⟨h0, h1, h2⟩ := hne i hi
    simp [format, setInfo, setDesc, setFree, h0, h1, h2]
  · obtain ⟨h0, _, _⟩ := hne _ ch'.i0_mem
    simp [format, setInfo, setDesc, setFree, h0]

end VDisk

/-! ## The invariant -/

namespace DiskPc

def locked : DiskPc → Bool
  | .alloc _ | .ring _ | .bump _ | .check _ => true
  | .idle | .enter _ | .asleep _ => false

def sent : DiskPc → Option DescChain
  | .check ch | .asleep ch => some ch
  | .idle | .enter _ | .alloc _ | .ring _ | .bump _ => none

theorem chain_of_sent (h : pc.sent = some ch) : pc.chain = some ch := by
  cases pc <;> first | exact h | cases h

end DiskPc

namespace DiskSys

variable {s t : DiskSys B} {T D : Nat} {av us : List Nat}

/-- `T` avail entries have been taken by the device, and `av` are those after them;
`D` used entries have been handled, and `us` are those after them. -/
structure Rings (s : DiskSys B) (T D : Nat) (av us : List Nat) : Prop where
  seen : s.seen.toNat = T % 2 ^ 16
  availIdx : s.disk.availIdx.toNat = (T + av.length) % 2 ^ 16
  availRing : Ring NUM s.disk.avail T av
  usedIdx : s.disk.usedIdx.toNat = D % NUM
  usedId : s.disk.usedId.toNat = (D + us.length) % 2 ^ 16
  usedRing : Ring NUM s.disk.elems D us
  posted : s.posted = s.handled ++ us

structure Inv (s : DiskSys B) (T D : Nat) (av us : List Nat) : Prop extends
    Rings s T D av us where
  ok : s.panic = none
  lock : ∀ b, s.lock = some (.rw b) ↔ (s.pc b).locked = true
  own : ∀ b ch, (s.pc b).chain = some ch → s.disk.Owned b ch
  apart : ∀ b b' ch ch', b ≠ b' → (s.pc b).chain = some ch → (s.pc b').chain = some ch' →
    ∀ i ∈ ch.idx, i ∉ ch'.idx
  nodup : (av ++ (s.inflight ++ us)).Nodup
  mem : ∀ i, i ∈ av ++ (s.inflight ++ us) ↔
    ∃ b ch, (s.pc b).sent = some ch ∧ s.busy b = true ∧ ch.i0 = i
  slot : ∀ b ch, s.pc b = .bump ch → s.disk.avail (s.disk.availIdx.toNat % NUM) = ch.i0
  fresh : ∀ b ch, s.pc b = .ring ch ∨ s.pc b = .bump ch → s.busy b = true
  finished : ∀ b ch, (s.pc b).sent = some ch → s.busy b = false → s.done b = true
  used : ∀ b ch, (s.pc b).sent = some ch → ch.i0 ∈ us → s.done b = true

theorem init_inv : Inv (init : DiskSys B) 0 0 [] [] where
  ok := rfl
  lock := fun b => ⟨fun h => (nomatch h), fun h => (nomatch h)⟩
  own := fun b ch h => by cases h
  apart := fun b b' ch ch' _ h => by cases h
  seen := rfl
  availIdx := rfl
  availRing := Ring.empty _ _ _
  usedIdx := rfl
  usedId := rfl
  usedRing := Ring.empty _ _ _
  posted := rfl
  nodup := nodup_nil
  mem := fun i => ⟨fun h => absurd h not_mem_nil, fun ⟨b, ch, h, _⟩ => by cases h⟩
  slot := fun b ch h => by cases h
  fresh := fun b ch h => by rcases h with h | h <;> cases h
  finished := fun b ch h => by cases h
  used := fun b ch h => by cases h

section

variable (h : Inv s T D av us)
include h

theorem Inv.unique (hb : (s.pc b).chain = some ch)
    (hb' : (s.pc b').chain = some ch') (hi : i ∈ ch.idx) (hi' : i ∈ ch'.idx) :
    b = b' ∧ ch = ch' := by
  rcases eq_or_ne b b' with rfl | hne
  · rw [hb] at hb'
    exact ⟨rfl, Option.some.inj hb'⟩
  · exact absurd hi' (h.apart b b' ch ch' hne hb hb' i hi)

/-- There are never more than four requests under way, since each has a first and a
second descriptor. -/
theorem Inv.short : 2 * (av ++ (s.inflight ++ us)).length ≤ NUM := by
  set L := av ++ (s.inflight ++ us) with hL
  have hreq : ∀ i ∈ L, ∃ b ch, (s.pc b).chain = some ch ∧ ch.i0 = i ∧
      (s.disk.desc i).next = ch.i1 := by
    intro i hi
    obtain ⟨b, ch, hsent, _, rfl⟩ := (h.mem i).mp hi
    have hch := DiskPc.chain_of_sent hsent
    exact ⟨b, ch, hch, rfl, (h.own b ch hch).desc0.2⟩
  have hnd : (L ++ L.map fun i => (s.disk.desc i).next).Nodup := by
    refine List.Nodup.append h.nodup ?_ ?_
    · refine List.Nodup.map_on (fun i hi j hj heq => ?_) h.nodup
      obtain ⟨b, ch, hb, rfl, hnext⟩ := hreq i hi
      obtain ⟨b', ch', hb', rfl, hnext'⟩ := hreq j hj
      have hsame : ch.i1 = ch'.i1 := by rw [← hnext, ← hnext', heq]
      obtain ⟨_, rfl⟩ := h.unique hb hb' ch.i1_mem (hsame ▸ ch'.i1_mem)
      rfl
    intro i hi hi'
    obtain ⟨j, hj, heq⟩ := mem_map.mp hi'
    obtain ⟨b, ch, hb, rfl, _⟩ := hreq i hi
    obtain ⟨b', ch', hb', rfl, hnext'⟩ := hreq j hj
    have hsame : ch'.i1 = ch.i0 := by rw [← hnext', heq]
    obtain ⟨_, rfl⟩ := h.unique hb' hb ch'.i1_mem (hsame ▸ ch.i0_mem)
    have hnodup := (h.own b' ch' hb').nodup
    simp [DescChain.idx, hsame] at hnodup
  have hsub : L ++ L.map (fun i => (s.disk.desc i).next) ⊆ List.range NUM := by
    intro i hi
    rw [mem_range]
    rcases mem_append.mp hi with hi | hi
    · obtain ⟨b, ch, hb, rfl, _⟩ := hreq i hi
      exact (h.own b ch hb).lt _ ch.i0_mem
    obtain ⟨j, hj, rfl⟩ := mem_map.mp hi
    obtain ⟨b, ch, hb, rfl, hnext⟩ := hreq j hj
    rw [hnext]
    exact (h.own b ch hb).lt _ ch.i1_mem
  have hlen := (hnd.subperm hsub).length_le
  rw [length_append, length_map, length_range] at hlen
  omega

theorem Inv.av_short : av.length < NUM := by
  have hshort := h.short
  rw [length_append, NUM_eq] at hshort
  rw [NUM_eq]
  omega

theorem Inv.us_short : us.length < NUM := by
  have hshort := h.short
  rw [length_append, length_append, NUM_eq] at hshort
  rw [NUM_eq]
  omega

theorem Inv.alone (hb : (s.pc b).locked = true) (hne : b' ≠ b) : (s.pc b').locked = false := by
  by_contra hb'
  have hl := (h.lock b).mpr hb
  have hl' := (h.lock b').mpr (Bool.eq_true_of_not_eq_false hb')
  rw [hl] at hl'
  cases hl'
  exact hne rfl

end

theorem Rings.withDisk (h : Rings s T D av us) (hd : s.disk.SameRings d) :
    Rings (s.withDisk d) T D av us where
  seen := h.seen
  availIdx := (congrArg UInt16.toNat hd.availIdx).trans h.availIdx
  availRing := by
    have hring := h.availRing
    rwa [← hd.avail] at hring
  usedIdx := (congrArg UInt16.toNat hd.usedIdx).trans h.usedIdx
  usedId := (congrArg UInt16.toNat hd.usedId).trans h.usedId
  usedRing := by
    have hring := h.usedRing
    rwa [← hd.elems] at hring
  posted := h.posted

theorem Rings.slot (h : Rings s T D av us) :
    s.disk.availIdx.toNat % NUM = (T + av.length) % NUM := by
  rw [h.availIdx, Nat.mod_mod_of_dvd _ NUM_dvd]

theorem Inv.untouched (h : Inv s T D av us) (hd : s.disk.Untouched d) :
    Inv (s.withDisk d) T D av us := by
  obtain ⟨hfree, hdesc, hinfo, hrings⟩ := hd
  have hr := h.toRings.withDisk hrings
  refine { h with
    own := fun b ch hb => (h.own b ch hb).congr (fun i _ => by rw [← hfree]; rfl)
      (fun i hi => hdesc i ((h.own b ch hb).taken i hi)) (by rw [← hinfo]; rfl)
    availIdx := hr.availIdx, availRing := hr.availRing, usedIdx := hr.usedIdx
    usedId := hr.usedId, usedRing := hr.usedRing, slot := fun b ch hb => ?_ }
  have hslot := h.slot b ch hb
  rwa [← hrings.avail, ← hrings.availIdx] at hslot

/-! ## The steps of a caller -/

/-- One thread goes to `pc`, and the others keep what they have.  It may have put a
request of its own in the avail ring. -/
theorem Inv.moved (h : Inv s T D av us) {av' : List Nat} (hself : t.pc b = pc)
    (hothers : ∀ b', b' ≠ b → t.pc b' = s.pc b' ∧ t.busy b' = s.busy b' ∧ t.done b' = s.done b')
    (hok : t.panic = none) (hlock : t.lock = some (.rw b) ↔ pc.locked = true)
    (hlocks : ∀ b', b' ≠ b → (t.lock = some (.rw b') ↔ s.lock = some (.rw b')))
    (hown : ∀ ch, pc.chain = some ch → t.disk.Owned b ch ∧
      ∀ b' ch', b' ≠ b → (s.pc b').chain = some ch' → ∀ i ∈ ch.idx, i ∉ ch'.idx)
    (howns : ∀ b' ch, b' ≠ b → (s.pc b').chain = some ch → t.disk.Owned b' ch)
    (hrings : Rings t T D av' us) (hnodup : (av' ++ (t.inflight ++ us)).Nodup)
    (hwas : ∀ ch, (s.pc b).sent = some ch → s.busy b = true →
      pc.sent = some ch ∧ t.busy b = true)
    (hmem : ∀ i, i ∈ av' ++ (t.inflight ++ us) ↔ i ∈ av ++ (s.inflight ++ us) ∨
      ∃ ch, pc.sent = some ch ∧ t.busy b = true ∧ ch.i0 = i)
    (hslot : ∀ b' ch, t.pc b' = .bump ch → t.disk.avail (t.disk.availIdx.toNat % NUM) = ch.i0)
    (hfresh : ∀ ch, pc = .ring ch ∨ pc = .bump ch → t.busy b = true)
    (hdone : ∀ ch, pc.sent = some ch → t.busy b = false ∨ ch.i0 ∈ us → t.done b = true) :
    Inv t T D av' us := by
  subst hself
  refine ⟨hrings, hok, fun b' => ?_, fun b' ch hb' => ?_, fun b1 b2 ch1 ch2 hne h₁ h₂ => ?_,
    hnodup, fun i => (hmem i).trans ⟨?_, ?_⟩, hslot, fun b' ch hb' => ?_,
    fun b' ch hb' hbusy => ?_, fun b' ch hb' hi => ?_⟩
  · rcases eq_or_ne b' b with rfl | hb
    · exact hlock
    rw [(hothers b' hb).1]
    exact (hlocks b' hb).trans (h.lock b')
  · rcases eq_or_ne b' b with rfl | hb
    · exact (hown ch hb').1
    rw [(hothers b' hb).1] at hb'
    exact howns b' ch hb hb'
  · rcases eq_or_ne b1 b with rfl | hb1
    · rw [(hothers b2 (Ne.symm hne)).1] at h₂
      exact (hown ch1 h₁).2 b2 ch2 (Ne.symm hne) h₂
    rw [(hothers b1 hb1).1] at h₁
    rcases eq_or_ne b2 b with rfl | hb2
    · exact fun i hi hi' => (hown ch2 h₂).2 b1 ch1 hb1 h₁ i hi' hi
    rw [(hothers b2 hb2).1] at h₂
    exact h.apart b1 b2 ch1 ch2 hne h₁ h₂
  · rintro (hi | ⟨ch, hch⟩)
    · obtain ⟨b', ch, hb', hbusy, hi⟩ := (h.mem i).mp hi
      rcases eq_or_ne b' b with rfl | hb
      · obtain ⟨hsent, hbusy⟩ := hwas ch hb' hbusy
        exact ⟨b', ch, hsent, hbusy, hi⟩
      obtain ⟨hpc, hbusy', _⟩ := hothers b' hb
      exact ⟨b', ch, by rw [hpc, hb'], hbusy'.trans hbusy, hi⟩
    · exact ⟨b, ch, hch⟩
  · rintro ⟨b', ch, hb', hbusy, hi⟩
    rcases eq_or_ne b' b with rfl | hb
    · exact .inr ⟨ch, hb', hbusy, hi⟩
    obtain ⟨hpc, hbusy', _⟩ := hothers b' hb
    rw [hpc] at hb'
    exact .inl ((h.mem i).mpr ⟨b', ch, hb', hbusy'.symm.trans hbusy, hi⟩)
  · rcases eq_or_ne b' b with rfl | hb
    · exact hfresh ch hb'
    obtain ⟨hpc, hbusy, _⟩ := hothers b' hb
    rw [hpc] at hb'
    exact hbusy.trans (h.fresh b' ch hb')
  · rcases eq_or_ne b' b with rfl | hb
    · exact hdone ch hb' (.inl hbusy)
    obtain ⟨hpc, hbusy', hdone'⟩ := hothers b' hb
    rw [hpc] at hb'
    exact hdone'.trans (h.finished b' ch hb' (hbusy'.symm.trans hbusy))
  · rcases eq_or_ne b' b with rfl | hb
    · exact hdone ch hb' (.inr hi)
    obtain ⟨hpc, _, hdone'⟩ := hothers b' hb
    rw [hpc] at hb'
    exact hdone'.trans (h.used b' ch hb' hi)

theorem Inv.not_bump (h : Inv s T D av us)
    (hb : (s.pc b).locked = true) (hne : b' ≠ b) : s.pc b' ≠ .bump ch' := by
  intro hb'
  have halone := h.alone hb hne
  rw [hb'] at halone
  cases halone

theorem acquires (hfree : s.lock = none) (hb : b' ≠ b) :
    some (DiskHolder.rw b) = some (.rw b') ↔ s.lock = some (.rw b') := by
  rw [hfree]
  exact iff_of_false (fun hl => hb (by cases hl; rfl)) nofun

theorem Inv.releases (h : Inv s T D av us) (hlocked : (s.pc b).locked = true)
    (hb : b' ≠ b) : (none : Option (DiskHolder B)) = some (.rw b') ↔ s.lock = some (.rw b') := by
  rw [h.lock b', h.alone hlocked hb]
  exact iff_of_false nofun nofun

section Caller

variable [DecidableEq B]

theorem setPc_self (s : DiskSys B) (b : B) (pc : DiskPc) : (s.setPc b pc).pc b = pc :=
  update_self ..

theorem setPc_ne (hne : b' ≠ b) (pc : DiskPc) : (s.setPc b pc).pc b' = s.pc b' :=
  update_of_ne hne ..

section

variable (h : Inv s T D av us)
include h

/-- A thread without descriptors, or with the ones it had, goes somewhere else and
takes or gives up the lock. -/
theorem Inv.goto {l : Option (DiskHolder B)} (hlock : l = some (.rw b) ↔ pc.locked = true)
    (hother : ∀ b', b' ≠ b → (l = some (.rw b') ↔ s.lock = some (.rw b')))
    (hchain : pc.chain = (s.pc b).chain) (hsent : pc.sent = (s.pc b).sent)
    (hpc : ∀ ch, pc ≠ .ring ch ∧ pc ≠ .bump ch) : Inv ((s.withLock l).setPc b pc) T D av us := by
  refine h.moved (setPc_self ..) (fun b' hb => ⟨setPc_ne hb _, rfl, rfl⟩) h.ok hlock hother
    (fun ch hch => ?_) (fun b' ch _ hch => h.own b' ch hch) ⟨h.seen, h.availIdx, h.availRing,
      h.usedIdx, h.usedId, h.usedRing, h.posted⟩ h.nodup (fun ch hch hb => ⟨hsent.trans hch, hb⟩)
    (fun i => (or_iff_left_of_imp ?_).symm) (fun b' ch hb' => ?_)
    (fun ch hch => hch.elim (absurd · (hpc ch).1) (absurd · (hpc ch).2)) fun ch hch => ?_
  · rw [hchain] at hch
    exact ⟨h.own b ch hch, fun b' ch' hb hch' => h.apart b b' ch ch' (Ne.symm hb) hch hch'⟩
  · rintro ⟨ch, hch, hrest⟩
    exact (h.mem i).mpr ⟨b, ch, hsent.symm.trans hch, hrest⟩
  · rcases eq_or_ne b' b with rfl | hb
    · rw [setPc_self] at hb'
      exact absurd hb' (hpc ch).2
    rw [setPc_ne hb] at hb'
    exact h.slot b' ch hb'
  · rw [hsent] at hch
    exact fun hor => hor.elim (h.finished b ch hch) (h.used b ch hch)

theorem Inv.begin {write : Bool} (hpc : s.pc b = .alloc write)
    (hnd : ch.idx.Nodup) (hfree : ∀ i ∈ ch.idx, i < NUM ∧ s.disk.free i = true) :
    Inv (s.begin b write ch
      (((s.disk.setFree ch.i0 false).setFree ch.i1 false).setFree ch.i2 false)) T D av us := by
  have hnew : ∀ b' ch', (s.pc b').chain = some ch' → ∀ i ∈ ch.idx, i ∉ ch'.idx := by
    intro b' ch' hb' i hi hi'
    have htaken := (h.own b' ch' hb').taken i hi'
    rw [(hfree i hi).2] at htaken
    cases htaken
  have hlocked : (s.pc b).locked = true := by rw [hpc]; rfl
  refine h.moved (b := b) (show _ = DiskPc.ring ch from update_self ..)
    (fun b' hb => ⟨update_of_ne hb .., update_of_ne hb .., update_of_ne hb ..⟩) h.ok
    (iff_of_true ((h.lock b).mpr hlocked) rfl) (fun _ _ => Iff.rfl) ?_
    (fun b' ch' _ hb' => VDisk.format_other write (h.own b' ch' hb') (hnew b' ch' hb'))
    ⟨h.seen, h.availIdx, h.availRing, h.usedIdx, h.usedId, h.usedRing, h.posted⟩ h.nodup
    (fun ch' hch' => by rw [hpc] at hch'; cases hch') (fun i => (or_iff_left nofun).symm)
    (fun b' ch' hb' => ?_) (fun _ _ => update_self ..) nofun
  · rintro ch' hch'
    cases hch'
    exact ⟨VDisk.format_owned write hnd hfree, fun b' ch' _ hb' => hnew b' ch' hb'⟩
  rcases eq_or_ne b' b with rfl | hb
  · rw [show (s.begin b' write ch _).pc b' = .ring ch from update_self ..] at hb'
    cases hb'
  · rw [show (s.begin b write ch _).pc b' = s.pc b' from update_of_ne hb ..] at hb'
    exact h.slot b' ch' hb'

theorem Inv.ring (hpc : s.pc b = .ring ch) :
    Inv ((s.withDisk (s.disk.setAvail ch.i0)).setPc b (.bump ch)) T D av us := by
  have hmine : (s.pc b).chain = some ch := by rw [hpc]; rfl
  have hlocked : (s.pc b).locked = true := by rw [hpc]; rfl
  have hkept : ∀ b' ch', (s.pc b').chain = some ch' → (s.disk.setAvail ch.i0).Owned b' ch' :=
    fun b' ch' hb' => (h.own b' ch' hb').congr (fun _ _ => rfl) (fun _ _ => rfl) rfl
  refine h.moved (setPc_self ..) (fun b' hb => ⟨setPc_ne hb _, rfl, rfl⟩) h.ok
    (iff_of_true ((h.lock b).mpr hlocked) rfl) (fun _ _ => Iff.rfl) ?_
    (fun b' ch' _ hb' => hkept b' ch' hb') ⟨h.seen, h.availIdx, ?_, h.usedIdx, h.usedId, h.usedRing,
      h.posted⟩ h.nodup (fun ch' hch' => by rw [hpc] at hch'; cases hch')
    (fun i => (or_iff_left nofun).symm) (fun b' ch' hb' => ?_)
    (fun _ _ => h.fresh b ch (.inl hpc)) nofun
  · rintro ch' hch'
    cases hch'
    exact ⟨hkept b ch hmine, fun b' ch' hb hch' => h.apart b b' ch ch' (Ne.symm hb) hmine hch'⟩
  · refine h.availRing.prepare h.av_short fun i _ hi => update_of_ne ?_ ..
    rw [h.toRings.slot]
    exact hi
  rcases eq_or_ne b' b with rfl | hb
  · rw [setPc_self] at hb'
    cases hb'
    exact update_self ..
  · rw [setPc_ne hb] at hb'
    exact absurd hb' (h.not_bump hlocked hb)

theorem Inv.bump (hpc : s.pc b = .bump ch) :
    Inv ((s.withDisk s.disk.publish).setPc b (.check ch)) T D (av ++ [ch.i0]) us := by
  have hmine : (s.pc b).chain = some ch := by rw [hpc]; rfl
  have hlocked : (s.pc b).locked = true := by rw [hpc]; rfl
  have hbusy := h.fresh b ch (.inr hpc)
  have hnew : ch.i0 ∉ av ++ (s.inflight ++ us) := by
    intro hin
    obtain ⟨b', ch', hb', _, heq⟩ := (h.mem ch.i0).mp hin
    obtain ⟨rfl, rfl⟩ := h.unique (i := ch.i0) hmine (DiskPc.chain_of_sent hb') ch.i0_mem
      (heq ▸ ch'.i0_mem)
    rw [hpc] at hb'
    cases hb'
  have hperm : (av ++ [ch.i0] ++ (s.inflight ++ us)).Perm
      (ch.i0 :: (av ++ (s.inflight ++ us))) := by
    rw [append_assoc]
    exact perm_middle
  have hkept : ∀ b' ch', (s.pc b').chain = some ch' → s.disk.publish.Owned b' ch' :=
    fun b' ch' hb' => (h.own b' ch' hb').congr (fun _ _ => rfl) (fun _ _ => rfl) rfl
  refine h.moved (setPc_self ..) (fun b' hb => ⟨setPc_ne hb _, rfl, rfl⟩) h.ok
    (iff_of_true ((h.lock b).mpr hlocked) rfl) (fun _ _ => Iff.rfl) ?_
    (fun b' ch' _ hb' => hkept b' ch' hb')
    ⟨h.seen, ?_, ?_, h.usedIdx, h.usedId, h.usedRing, h.posted⟩
    (hperm.nodup_iff.mpr (nodup_cons.mpr ⟨hnew, h.nodup⟩))
    (fun ch' hch' => by rw [hpc] at hch'; cases hch') (fun i => ?_) (fun b' ch' hb' => ?_)
    (fun _ hch' => by rcases hch' with hch' | hch' <;> cases hch') ?_
  · rintro ch' hch'
    cases hch'
    exact ⟨hkept b ch hmine, fun b' ch' hb hch' => h.apart b b' ch ch' (Ne.symm hb) hmine hch'⟩
  · have hone : (1 : UInt16).toNat = 1 := rfl
    change (s.disk.availIdx + 1).toNat = _
    rw [UInt16.toNat_add, h.availIdx, hone, length_append, length_singleton]
    omega
  · refine h.availRing.push h.av_short ?_ fun _ _ _ => rfl
    rw [← h.toRings.slot]
    exact h.slot b ch hpc
  · refine hperm.mem_iff.trans (mem_cons.trans (or_comm.trans (or_congr_right ?_)))
    constructor
    · rintro rfl
      exact ⟨ch, rfl, hbusy, rfl⟩
    rintro ⟨ch', hch', _, rfl⟩
    cases hch'
    rfl
  · rcases eq_or_ne b' b with rfl | hb
    · rw [setPc_self] at hb'
      cases hb'
    · rw [setPc_ne hb] at hb'
      exact absurd hb' (h.not_bump hlocked hb)
  · rintro ch' hch' (hfalse | hi)
    · exact absurd (hbusy.symm.trans hfalse) nofun
    · cases hch'
      exact absurd (mem_append_right _ (mem_append_right _ hi)) hnew

theorem Inv.finish (hpc : s.pc b = .check ch) (hbusy : s.busy b = false)
    (hd : (s.disk.setInfo ch.i0 { s.disk.info ch.i0 with b := none }).FreedAll d ch.idx) :
    Inv (((s.withDisk d).withLock none).setPc b .idle) T D av us := by
  obtain ⟨hfree, hdesc, hinfo, hrings⟩ := hd
  have hmine : (s.pc b).chain = some ch := by rw [hpc]; rfl
  have hlocked : (s.pc b).locked = true := by rw [hpc]; rfl
  have hr := h.toRings.withDisk (d := d) ⟨hrings.avail, hrings.availIdx, hrings.elems, hrings.usedId,
    hrings.usedIdx⟩
  refine h.moved (setPc_self ..) (fun b' hb => ⟨setPc_ne hb _, rfl, rfl⟩) h.ok
    (iff_of_false nofun nofun) (fun b' hb => iff_of_false nofun ?_) nofun (fun b' ch' hb hb' => ?_)
    ⟨hr.seen, hr.availIdx, hr.availRing, hr.usedIdx, hr.usedId, hr.usedRing, hr.posted⟩ h.nodup
    (fun _ _ hb => ?_) (fun i => (or_iff_left nofun).symm) (fun b' ch' hb' => ?_)
    (fun _ hch' => by rcases hch' with hch' | hch' <;> cases hch') nofun
  · rw [h.lock b', h.alone hlocked hb]
    nofun
  · have hapart := h.apart b' b ch' ch hb hb' hmine
    refine (h.own b' ch' hb').congr (fun i hi => ?_) (fun i hi => hdesc i (hapart i hi)) ?_
    · change d.free i = _
      rw [hfree i, if_neg (hapart i hi)]
      rfl
    have hne0 : ch'.i0 ≠ ch.i0 := fun heq => hapart ch'.i0 ch'.i0_mem (heq ▸ ch.i0_mem)
    change d.info ch'.i0 = _
    rw [hinfo]
    exact update_of_ne hne0 ..
  · rw [hbusy] at hb
    cases hb
  · rcases eq_or_ne b' b with rfl | hb
    · rw [setPc_self] at hb'
      cases hb'
    · rw [setPc_ne hb] at hb'
      exact absurd hb' (h.not_bump hlocked hb)

theorem run_moves (hstep : s.runStep b (s.pc b) = some t) : ∃ av', Inv t T D av' us := by
  rcases hpc : s.pc b with _ | write | write | ch | ch | ch | ch
  all_goals rw [hpc] at hstep
  case idle => cases hstep
  case enter | asleep =>
    obtain ⟨hfree, hstep⟩ := Option.ite_none_right_eq_some.mp hstep
    cases hstep
    exact ⟨av, h.goto (iff_of_true rfl rfl) (fun b' => acquires hfree) (by rw [hpc]; rfl)
      (by rw [hpc]; rfl) fun ch => ⟨nofun, nofun⟩⟩
  case alloc =>
    cases hstep
    have hlocked : (s.pc b).locked = true := by rw [hpc]; rfl
    unfold allocStep
    rcases s.disk.alloc3Desc_spec with ⟨d, hd, hsame⟩ | ⟨ch, hd, hnd, hfree⟩
    · rw [hd]
      exact ⟨av, (h.untouched hsame).goto (iff_of_false nofun nofun) (fun b' => h.releases hlocked)
        (congrArg DiskPc.chain hpc).symm (congrArg DiskPc.sent hpc).symm fun ch => ⟨nofun, nofun⟩⟩
    · rw [hd]
      exact ⟨av, h.begin hpc hnd hfree⟩
  case ring =>
    cases hstep
    exact ⟨av, h.ring hpc⟩
  case bump =>
    cases hstep
    exact ⟨_, h.bump hpc⟩
  case check =>
    cases hstep
    have hlocked : (s.pc b).locked = true := by rw [hpc]; rfl
    unfold checkStep
    split
    · exact ⟨av, h.goto (iff_of_false nofun nofun) (fun b' => h.releases hlocked)
        (by rw [hpc]; rfl) (by rw [hpc]; rfl) fun ch => ⟨nofun, nofun⟩⟩
    rename_i hbusy
    obtain ⟨d, hd, hfreed⟩ := VDisk.finish_owned (h.own b ch (by rw [hpc]; rfl))
    rw [hd]
    exact ⟨av, h.finish hpc (Bool.eq_false_of_not_eq_true hbusy) hfreed⟩

end

end Caller

/-! ## The steps of the handler and of the device -/

theorem Inv.intr {l : Option (DiskHolder B)} (h : Inv s T D av us)
    (hl : ∀ b, l ≠ some (.rw b)) (hs : ∀ b, s.lock ≠ some (.rw b)) : Inv (s.withLock l) T D av us :=
  { h with
    lock := fun b =>
      iff_of_false (hl b) fun hb => hs b ((h.lock b).mpr hb) }

theorem Inv.hasUsed_iff (h : Inv s T D av us) : s.disk.hasUsed = true ↔ us ≠ [] := by
  have hlen := h.us_short
  have hus : us ≠ [] ↔ us.length ≠ 0 := length_eq_zero_iff.symm.not
  unfold VDisk.hasUsed
  rw [decide_eq_true_iff, h.usedIdx, h.usedId, hus]
  rw [NUM_eq] at hlen ⊢
  omega

theorem Inv.request (h : Inv s T D av us) (hi : i ∈ av ++ (s.inflight ++ us)) :
    ∃ b ch, (s.pc b).sent = some ch ∧ s.busy b = true ∧ ch.i0 = i ∧
      s.disk.info i = ⟨some b, 0⟩ := by
  obtain ⟨b, ch, hb, hbusy, rfl⟩ := (h.mem i).mp hi
  exact ⟨b, ch, hb, hbusy, rfl, (h.own b ch (DiskPc.chain_of_sent hb)).info⟩

section Device

variable [DecidableEq B]

theorem Inv.handle (h : Inv s T D av (i :: us)) :
    s.disk.firstUsed = i ∧ Inv (s.handleOne i) T (D + 1) av us := by
  obtain ⟨hfirst, hring⟩ := h.usedRing.pop
  have hmem : i ∈ av ++ (s.inflight ++ i :: us) :=
    mem_append_right _ (mem_append_right _ mem_cons_self)
  obtain ⟨b, ch, hb, hbusy, hi0, hinfo⟩ := h.request hmem
  have hperm : (av ++ (s.inflight ++ i :: us)).Perm (i :: (av ++ (s.inflight ++ us))) := by
    rw [← append_assoc, ← append_assoc]
    exact perm_middle
  have hnd := hperm.nodup_iff.mp h.nodup
  obtain ⟨hnot, hnd⟩ := nodup_cons.mp hnd
  constructor
  · change s.disk.elems s.disk.usedIdx.toNat = i
    rw [h.usedIdx, hfirst]
  have heq : s.handleOne i =
      { s with
        disk := s.disk.nextUsed
        busy := update s.busy b false
        handled := s.handled ++ [i] } := by
    unfold handleOne
    rw [hinfo]
    rfl
  -- the other requests keep `b->disk`
  have hother : ∀ b' ch', (s.pc b').sent = some ch' → ch'.i0 ≠ i → b' ≠ b := by
    rintro b' ch' hb' hne rfl
    rw [hb] at hb'
    cases hb'
    exact hne hi0
  rw [heq]
  refine { h with
    own := fun b' ch' hb' => (h.own b' ch' hb').congr (fun _ _ => rfl) (fun _ _ => rfl) rfl
    usedIdx := ?_, usedId := ?_, usedRing := hring, posted := ?_, nodup := hnd
    mem := fun j => ?_, fresh := fun b' ch' hb' => ?_, finished := fun b' ch' hb' hbusy' => ?_
    used := fun b' ch' hb' hj => h.used b' ch' hb' (mem_cons_of_mem _ hj) }
  · have hidx := h.usedIdx
    have hone : (1 : UInt16).toNat = 1 := rfl
    have height : (UInt16.ofNat NUM).toNat = NUM := rfl
    change ((s.disk.usedIdx + 1) % UInt16.ofNat NUM).toNat = _
    rw [UInt16.toNat_mod, UInt16.toNat_add, hidx, hone, height, NUM_eq]
    omega
  · have hid := h.usedId
    rw [length_cons] at hid
    change s.disk.usedId.toNat = _
    rw [hid]
    congr 1
    omega
  · rw [h.posted, append_assoc]
    rfl
  · have hj : j ∈ av ++ (s.inflight ++ us) ↔ j ≠ i ∧ j ∈ av ++ (s.inflight ++ i :: us) := by
      rw [hperm.mem_iff, mem_cons]
      constructor
      · intro hj
        exact ⟨fun heq => hnot (heq ▸ hj), .inr hj⟩
      rintro ⟨hne, rfl | hj⟩
      · exact absurd rfl hne
      · exact hj
    refine hj.trans ⟨?_, ?_⟩
    · rintro ⟨hne, hj⟩
      obtain ⟨b', ch', hb', hbusy', rfl⟩ := (h.mem j).mp hj
      exact ⟨b', ch', hb', (update_of_ne (hother b' ch' hb' hne) ..).trans hbusy', rfl⟩
    rintro ⟨b', ch', hb', hbusy', rfl⟩
    have hne : b' ≠ b := by
      rintro rfl
      have hfalse : update s.busy b' false b' = true := hbusy'
      rw [update_self] at hfalse
      cases hfalse
    have hbusy' : update s.busy b false b' = true := hbusy'
    rw [update_of_ne hne] at hbusy'
    refine ⟨fun heq => hne ?_, (h.mem _).mpr ⟨b', ch', hb', hbusy', rfl⟩⟩
    exact (h.unique (i := i) (DiskPc.chain_of_sent hb') (DiskPc.chain_of_sent hb)
      (heq ▸ ch'.i0_mem) (hi0 ▸ ch.i0_mem)).1
  · have hne : b' ≠ b := by
      rintro rfl
      rcases hb' with hb' | hb' <;> (rw [show s.pc b' = _ from hb'] at hb; cases hb)
    exact (update_of_ne hne ..).trans (h.fresh b' ch' hb')
  · rcases eq_or_ne b' b with rfl | hne
    · rw [hb] at hb'
      cases hb'
      exact h.used b' ch hb (hi0 ▸ mem_cons_self)
    · refine h.finished b' ch' hb' ?_
      exact (update_of_ne hne ..).symm.trans hbusy'

end Device

theorem Inv.seen_ne_iff (h : Inv s T D av us) : s.seen ≠ s.disk.availIdx ↔ av ≠ [] := by
  have hlen := h.av_short
  have hav : av ≠ [] ↔ av.length ≠ 0 := length_eq_zero_iff.symm.not
  have heq : s.seen = s.disk.availIdx ↔ s.seen.toNat = s.disk.availIdx.toNat :=
    UInt16.toNat_inj.symm
  rw [hav, Ne, heq, h.seen, h.availIdx]
  rw [NUM_eq] at hlen
  omega

theorem Inv.take (h : Inv s T D (i :: av) us) :
    Inv { s with inflight := s.inflight ++ [s.disk.avail (s.seen.toNat % NUM)], seen := s.seen + 1 }
      (T + 1) D av us := by
  obtain ⟨hfirst, hring⟩ := h.availRing.pop
  have hget : s.disk.avail (s.seen.toNat % NUM) = i := by
    rw [h.seen, Nat.mod_mod_of_dvd _ NUM_dvd, hfirst]
  rw [hget]
  have hperm : (av ++ ((s.inflight ++ [i]) ++ us)).Perm (i :: av ++ (s.inflight ++ us)) := by
    rw [append_assoc, ← append_assoc]
    exact perm_middle.trans (by rw [append_assoc]; rfl)
  refine { h with
    seen := ?_, availIdx := ?_, availRing := hring
    nodup := hperm.nodup_iff.mpr h.nodup
    mem := fun j => hperm.mem_iff.trans (h.mem j) }
  · have hone : (1 : UInt16).toNat = 1 := rfl
    rw [UInt16.toNat_add, h.seen, hone]
    omega
  have hidx := h.availIdx
  rw [length_cons] at hidx
  rw [hidx]
  congr 1
  omega

theorem Inv.complete [DecidableEq B] (h : Inv s T D av us) (hi : i ∈ s.inflight) :
    Inv (s.completed i) T D av (us ++ [i]) := by
  obtain ⟨b, ch, hb, hbusy, hi0, hinfo⟩ :=
    h.request (mem_append_right _ (mem_append_left _ hi))
  have hsame : (s.disk.post i).info = s.disk.info := by
    change update s.disk.info i _ = _
    rw [hinfo, ← hinfo]
    exact update_eq_self ..
  have hslot : s.disk.usedId.toNat % NUM = (D + us.length) % NUM := by
    rw [h.usedId, Nat.mod_mod_of_dvd _ NUM_dvd]
  have hperm : (av ++ (s.inflight.erase i ++ (us ++ [i]))).Perm (av ++ (s.inflight ++ us)) := by
    refine List.Perm.append_left av ?_
    rw [← append_assoc]
    refine perm_append_singleton .. |>.trans ?_
    exact (perm_cons_erase hi).symm.append_right us
  have hdone : ∀ b', s.done b' = true → (s.completed i).done b' = true := by
    intro b' hb'
    change (if _ then true else s.done b') = true
    rw [hb', ite_self]
  refine { h with
    own := fun b' ch' hb' => (h.own b' ch' hb').congr (fun _ _ => rfl) (fun _ _ => rfl)
      (congrFun hsame _)
    usedId := ?_, usedRing := ?_, posted := ?_
    nodup := hperm.nodup_iff.mpr h.nodup
    mem := fun j => hperm.mem_iff.trans (h.mem j)
    finished := fun b' ch' hb' hbusy' => hdone b' (h.finished b' ch' hb' hbusy')
    used := fun b' ch' hb' hj => ?_ }
  · have hone : (1 : UInt16).toNat = 1 := rfl
    change (s.disk.usedId + 1).toNat = _
    rw [UInt16.toNat_add, h.usedId, hone, length_append, length_singleton]
    omega
  · refine h.usedRing.push h.us_short ?_ fun j _ hj => ?_
    · rw [← hslot]
      exact update_self ..
    refine update_of_ne ?_ ..
    rw [hslot]
    exact hj
  · change s.posted ++ [i] = s.handled ++ (us ++ [i])
    rw [h.posted, append_assoc]
  rcases mem_append.mp hj with hj | hj
  · exact hdone b' (h.used b' ch' hb' hj)
  rw [mem_singleton] at hj
  have hmine : (s.pc b').chain = some ch' := DiskPc.chain_of_sent hb'
  change (if (s.pc b').chain.map DescChain.i0 = some i then true else s.done b') = true
  rw [hmine, ← hj]
  exact if_pos rfl

/-! ## Runs -/

variable [DecidableEq B]

theorem step_inv {a : DiskAct B} (h : Inv s T D av us) (hstep : s.step a = some t) :
    ∃ T D av us, Inv t T D av us := by
  unfold step at hstep
  rw [if_pos h.ok] at hstep
  cases a with
  | rw b write =>
    obtain ⟨hidle, hstep⟩ := Option.ite_none_right_eq_some.mp hstep
    cases hstep
    have hfree : s.lock ≠ some (.rw b) := by
      rw [Ne, h.lock b, hidle]
      nofun
    refine ⟨T, D, av, us, h.goto (l := s.lock) (iff_of_false hfree nofun) (fun _ _ => Iff.rfl)
      ?_ ?_ fun ch => ⟨nofun, nofun⟩⟩
    · rw [hidle]
      rfl
    · rw [hidle]
      rfl
  | run b =>
    obtain ⟨av', h'⟩ := run_moves h hstep
    exact ⟨T, D, av', us, h'⟩
  | intr =>
    obtain ⟨hfree, hstep⟩ := Option.ite_none_right_eq_some.mp hstep
    cases hstep
    refine ⟨T, D, av, us, h.intr (fun b => nofun) fun b => ?_⟩
    rw [hfree]
    nofun
  | handle =>
    obtain ⟨hintr, hstep⟩ := Option.ite_none_right_eq_some.mp hstep
    split at hstep
    · rename_i hused
      cases hstep
      obtain ⟨i, us', rfl⟩ := exists_cons_of_ne_nil (h.hasUsed_iff.mp hused)
      obtain ⟨hfirst, h'⟩ := h.handle
      rw [hfirst]
      exact ⟨T, D + 1, av, us', h'⟩
    · cases hstep
      refine ⟨T, D, av, us, h.intr (fun b => nofun) fun b => ?_⟩
      rw [hintr]
      nofun
  | take =>
    obtain ⟨hseen, hstep⟩ := Option.ite_none_right_eq_some.mp hstep
    cases hstep
    obtain ⟨i, av', rfl⟩ := exists_cons_of_ne_nil (h.seen_ne_iff.mp hseen)
    exact ⟨T + 1, D, av', us, h.take⟩
  | complete i =>
    obtain ⟨hi, hstep⟩ := Option.ite_none_right_eq_some.mp hstep
    cases hstep
    exact ⟨T, D, av, us ++ [i], h.complete hi⟩

theorem reaches_inv (h : Reaches step (fun _ _ => True) init s) : ∃ T D av us, Inv s T D av us := by
  refine h.invariant (I := fun s => ∃ T D av us, Inv s T D av us) ⟨0, 0, [], [], init_inv⟩ ?_
  rintro u v a ⟨T, D, av, us, hu⟩ _ hstep
  exact step_inv hu hstep

theorem Inv.checkStep_eq (h : Inv s T D av us) (hpc : s.pc b = .check ch)
    (hbusy : s.busy b = false) :
    ∃ d, s.checkStep b ch = ((s.withDisk d).withLock none).setPc b .idle ∧
      ∀ i, d.free i = if i ∈ ch.idx then true else s.disk.free i := by
  obtain ⟨d, hd, hfreed⟩ := VDisk.finish_owned (h.own b ch (by rw [hpc]; rfl))
  refine ⟨d, ?_, hfreed.free⟩
  unfold checkStep
  rw [if_neg (Bool.not_eq_true _ ▸ hbusy), hd]

/-- A caller returns when its request is finished, and then its three descriptors
are free and no other. -/
theorem Inv.returns (h : Inv s T D av us) (hpc : s.pc b ≠ .idle) (hstep : s.step (.run b) = some t)
    (hret : t.pc b = .idle) : ∃ ch, (s.pc b).chain = some ch ∧ s.done b = true ∧
      ∀ i, t.disk.free i = if i ∈ ch.idx then true else s.disk.free i := by
  unfold step at hstep
  rw [if_pos h.ok] at hstep
  change s.runStep b (s.pc b) = some t at hstep
  have hstays : ∀ {u : DiskSys B} {pc : DiskPc}, pc ≠ .idle → u.setPc b pc ≠ t := by
    rintro u pc hne rfl
    rw [setPc_self] at hret
    exact hne hret
  rcases hcase : s.pc b with _ | write | write | ch | ch | ch | ch
  all_goals rw [hcase] at hstep
  case idle => exact absurd hcase hpc
  case enter | asleep =>
    obtain ⟨_, hstep⟩ := Option.ite_none_right_eq_some.mp hstep
    exact absurd (Option.some.inj hstep) (hstays nofun)
  case ring | bump => exact absurd (Option.some.inj hstep) (hstays nofun)
  case alloc =>
    have hstep : s.allocStep b write = t := Option.some.inj hstep
    unfold allocStep at hstep
    rcases s.disk.alloc3Desc_spec with ⟨d, hd, _⟩ | ⟨ch, hd, _⟩
    · rw [hd] at hstep
      exact absurd hstep (hstays nofun)
    · rw [hd] at hstep
      exact absurd hstep (hstays nofun)
  case check =>
    have hstep : s.checkStep b ch = t := Option.some.inj hstep
    by_cases hbusy : s.busy b = true
    · unfold checkStep at hstep
      rw [if_pos hbusy] at hstep
      exact absurd hstep (hstays nofun)
    have hbusy := Bool.eq_false_of_not_eq_true hbusy
    obtain ⟨d, hd, hfree⟩ := h.checkStep_eq hcase hbusy
    rw [hd] at hstep
    subst hstep
    exact ⟨ch, rfl, h.finished b ch (by rw [hcase]; rfl) hbusy, hfree⟩

theorem Inv.check_returns (h : Inv s T D av us) (hpc : s.pc b = .check ch)
    (hbusy : s.busy b = false) : ∃ t, s.step (.run b) = some t ∧ t.pc b = .idle ∧
      t.lock = none ∧ ∀ i, t.disk.free i = if i ∈ ch.idx then true else s.disk.free i := by
  obtain ⟨d, hd, hfree⟩ := h.checkStep_eq hpc hbusy
  refine ⟨((s.withDisk d).withLock none).setPc b .idle, ?_, setPc_self _ b _, rfl, hfree⟩
  unfold step
  rw [if_pos h.ok]
  change s.runStep b (s.pc b) = _
  rw [hpc, runStep, hd]

/-- The disk protocol, in every state of every run: no panic and no null
dereference; the descriptors of the requests under way are three each, not free and
disjoint; the used entries are handled in order, each once, and a handler that ends
has handled them all; a caller that returns does so after the device completed its
request, and gives back its three descriptors and nothing else; and a caller that sees
its request finished does return. -/
theorem disk_protocol (B : Type) [DecidableEq B] (s : DiskSys B)
    (h : Reaches step (fun _ _ => True) init s) : s.panic = none ∧
      (∀ b ch, (s.pc b).chain = some ch →
        ch.idx.Nodup ∧ ∀ i ∈ ch.idx, i < NUM ∧ s.disk.free i = false) ∧
      (∀ b b' ch ch', b ≠ b' → (s.pc b).chain = some ch → (s.pc b').chain = some ch' →
        ∀ i ∈ ch.idx, i ∉ ch'.idx) ∧
      (∃ pending, s.posted = s.handled ++ pending ∧ (s.disk.hasUsed = false → pending = [])) ∧
      (∀ b t, s.pc b ≠ .idle → s.step (.run b) = some t → t.pc b = .idle →
        ∃ ch, (s.pc b).chain = some ch ∧ s.done b = true ∧
          ∀ i, t.disk.free i = if i ∈ ch.idx then true else s.disk.free i) ∧
      ∀ b ch, s.pc b = .check ch → s.busy b = false →
        ∃ t, s.step (.run b) = some t ∧ t.pc b = .idle ∧ t.lock = none ∧
          ∀ i, t.disk.free i = if i ∈ ch.idx then true else s.disk.free i := by
  obtain ⟨T, D, av, us, hinv⟩ := reaches_inv h
  refine ⟨hinv.ok, fun b ch hb => ?_, hinv.apart, ⟨us, hinv.posted, fun hused => ?_⟩,
    fun b t hpc hstep hret => hinv.returns hpc hstep hret,
    fun b ch hpc hbusy => hinv.check_returns hpc hbusy⟩
  · have hown := hinv.own b ch hb
    exact ⟨hown.nodup, fun i hi => ⟨hown.lt i hi, hown.taken i hi⟩⟩
  by_contra hne
  rw [hinv.hasUsed_iff.mpr hne] at hused
  cases hused

/-- Two requests are sent and completed in the other order, the handler has seen both, and
the first caller is back. -/
theorem disk_protocol_two : ∃ s t : DiskSys Bool, s.posted = [3, 0] ∧ s.handled = [3, 0] ∧
    (s.pc true).chain = some ⟨3, 4, 5⟩ ∧ s.step (.run false) = some t ∧ t.pc false = .idle ∧
    t.panic = none ∧ ∀ i, t.disk.free i = if i ∈ [0, 1, 2] then true else s.disk.free i := by
  have hrun : (exec step (fun _ _ => true) (init : DiskSys Bool)
      [.rw false true, .run false, .run false, .run false, .run false, .run false,
        .rw true false, .run true, .run true, .run true, .run true, .run true,
        .take, .take, .complete 3, .complete 0, .intr, .handle, .handle, .handle, .run false]).map
      (fun s => (s.posted, s.handled, s.pc false, s.busy false, (s.pc true).chain)) =
      some ([3, 0], [3, 0], .check ⟨0, 1, 2⟩, false, some ⟨3, 4, 5⟩) := by decide +kernel
  obtain ⟨s, hs, hres⟩ := Option.map_eq_some_iff.mp hrun
  simp only [Prod.mk.injEq] at hres
  obtain ⟨hposted, hhandled, hpc, hbusy, hchain⟩ := hres
  have hreach : Reaches step (fun _ _ => True) init s := .exec .refl (fun _ _ _ _ => trivial) hs
  obtain ⟨_, _, _, _, _, hcheck⟩ := disk_protocol Bool s hreach
  obtain ⟨t, hstep, hidle, _, hfree⟩ := hcheck false _ hpc hbusy
  exact ⟨s, t, hposted, hhandled, hchain, hstep, hidle,
    (disk_protocol Bool t (.step _ hreach trivial hstep)).1, hfree⟩

end DiskSys

end Xv6.Kernel
