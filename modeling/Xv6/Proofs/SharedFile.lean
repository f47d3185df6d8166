import Xv6.Lib.Merge
import Xv6.Lib.Runs
import Xv6.Machine.SharedFile
import Xv6.Proofs.FileWrite
/-!
# What processes write through one open file

The bytes behind the initial offset are the chunks of all calls, one after the
other, in an order that keeps the chunks of each call, and the calls of each
process, in order.
-/

namespace Xv6.Kernel

open Xv6.Lib Function List
open Blk

variable {c : FileCall} {i : Nat} {x : Chunk}

def FileCall.chunksFrom (c : FileCall) (i : Nat) : List Chunk :=
  if i < c.n.toNat then
    SharedFile.chunkAt c i :: c.chunksFrom (i + (SharedFile.chunkAt c i).len)
  else []
termination_by c.n.toNat - i
decreasing_by
  have hw : writeMax = 3072 := rfl
  simp only [SharedFile.chunkAt]
  omega

def FileCall.chunks (c : FileCall) : List Chunk := c.chunksFrom 0

def Writer.chunks (w : Writer) : List Chunk :=
  match w.calls with
  | [] => []
  | c :: rest => c.chunksFrom w.i ++ rest.flatMap FileCall.chunks

def Chunk.bytes (x : Chunk) : List UInt8 := (Mem.user x.mem).bytes x.addr x.len

def FileCall.Readable (c : FileCall) : Prop :=
  (Mem.user c.mem).readable c.addr c.n.toNat = c.n.toNat

structure Chunk.Ready (x : Chunk) : Prop where
  pos : 0 < x.len
  small : x.len ≤ writeMax
  readable : (Mem.user x.mem).readable x.addr x.len = x.len

namespace FileCall

theorem chunkAt_ready (h : c.Readable) (hi : i < c.n.toNat) :
    (SharedFile.chunkAt c i).Ready ∧ (SharedFile.chunkAt c i).addr = c.addr + i := by
  have hw : writeMax = 3072 := rfl
  have haddr : (c.addr + i) % 2 ^ 64 = c.addr + i := by
    have hload := Mem.readable_eq_iff.mp h i hi
    have hva : MAXVA = 2 ^ 38 := rfl
    by_contra hne
    rw [Mem.load_user] at hload
    unfold walkaddr at hload
    rw [if_pos (by omega)] at hload
    cases hload
  unfold SharedFile.chunkAt
  rw [haddr]
  refine ⟨⟨?_, Nat.min_le_right _ _, Mem.readable_sub h ?_⟩, rfl⟩
  · exact Nat.lt_min.mpr ⟨by omega, by omega⟩
  have hle := Nat.min_le_left (c.n.toNat - i) writeMax
  simp only
  omega

theorem chunksFrom_ready (h : c.Readable) (i : Nat) (hx : x ∈ c.chunksFrom i) : x.Ready := by
  induction i using chunksFrom.induct c with
  | case1 i hi ih =>
    rw [chunksFrom, if_pos hi] at hx
    rcases mem_cons.mp hx with rfl | hx
    · exact (chunkAt_ready h hi).1
    · exact ih hx
  | case2 i hi =>
    rw [chunksFrom, if_neg hi] at hx
    cases hx

theorem chunksFrom_bytes (h : c.Readable) (i : Nat) : (c.chunksFrom i).flatMap Chunk.bytes =
      (Mem.user c.mem).bytes (c.addr + i) (c.n.toNat - i) := by
  induction i using chunksFrom.induct c with
  | case1 i hi ih =>
    obtain ⟨hready, haddr⟩ := chunkAt_ready h hi
    have hlen : (SharedFile.chunkAt c i).len = min (c.n.toNat - i) writeMax := rfl
    rw [chunksFrom, if_pos hi, flatMap_cons, ih]
    have hle := Nat.min_le_left (c.n.toNat - i) writeMax
    unfold Chunk.bytes
    rw [haddr, show (SharedFile.chunkAt c i).mem = c.mem from rfl, ← Nat.add_assoc,
      ← Mem.bytes_add, hlen]
    congr 1
    omega
  | case2 i hi =>
    rw [chunksFrom, if_neg hi, Nat.sub_eq_zero_of_le (by omega)]
    rfl

theorem chunksFrom_len (c : FileCall) (i : Nat) :
    ((c.chunksFrom i).map Chunk.len).sum = c.n.toNat - i := by
  induction i using chunksFrom.induct c with
  | case1 i hi ih =>
    have hlen : (SharedFile.chunkAt c i).len = min (c.n.toNat - i) writeMax := rfl
    have hle := Nat.min_le_left (c.n.toNat - i) writeMax
    rw [chunksFrom, if_pos hi, map_cons, sum_cons, ih]
    omega
  | case2 i hi =>
    rw [chunksFrom, if_neg hi, Nat.sub_eq_zero_of_le (by omega)]
    rfl

end FileCall

theorem blocksBegun_add (lo a b : Nat) :
    blocksBegun lo (a + b) = blocksBegun lo a + blocksBegun (lo + a) b := by
  unfold blocksBegun
  rw [BSIZE_eq]
  omega

namespace SharedFile

def bytes (s : SharedFile) : List UInt8 := s.order.flatMap fun x => x.2.bytes

def left (s : SharedFile) : Nat := ∑ p, ((s.writer p).chunks.map Chunk.len).sum

def total (calls : ProcId → List FileCall) : Nat := ∑ p, ((calls p).map fun c => c.n.toNat).sum

def Room (s : SharedFile) (fs : FS) (f : FileId) (i : Nat) : Prop :=
  blocksBegun (s.sys.ftable f).off.toNat s.left + fs.lacks i ≤ s.sys.sb.freeCount fs

/-- The rest of the kernel neither writes nor truncates inode `i`, does not use
file `f`, and leaves enough blocks free. -/
def LeavesAlone (f : FileId) (ip : InodeId) (i : Nat) (s : SharedFile) : Act → Prop
  | .write _ => True
  | .other k => ∀ fs, s.sys.Rests fs ip i → fs.Clean i →
      ∃ fs', k.Rests fs' ip i ∧ fs'.Clean i ∧ fs'.contents i = fs.contents i ∧
        k.sb = s.sys.sb ∧ (k.ftable f).kind = (s.sys.ftable f).kind ∧
        (k.ftable f).off = (s.sys.ftable f).off ∧ { s with sys := k }.Room fs' f i

/-- The calls can be read from memory and fit in the file and on the disk. -/
structure Fits (k : Sys) (fs : FS) (f : FileId) (ip : InodeId) (i : Nat)
    (calls : ProcId → List FileCall) : Prop where
  rests : k.Rests fs ip i
  clean : fs.Clean i
  kind : (k.ftable f).kind = .inode ip
  log : MAXOPBLOCKS < k.sb.nlog
  off : (k.ftable f).off.toNat ≤ (fs.ino i).size.toNat
  readable : ∀ p, ∀ c ∈ calls p, c.Readable
  file : (k.ftable f).off.toNat + total calls ≤ MAXFILE * BSIZE
  disk : blocksBegun (k.ftable f).off.toNat (total calls) + fs.lacks i ≤ k.sb.freeCount fs

structure Inv (k : Sys) (fs : FS) (f : FileId) (ip : InodeId) (i : Nat)
    (calls : ProcId → List FileCall) (s : SharedFile) (fs' : FS) : Prop where
  rests : s.sys.Rests fs' ip i
  clean : fs'.Clean i
  kind : (s.sys.ftable f).kind = .inode ip
  sb : s.sys.sb = k.sb
  merged : Merged s.order (fun p => (calls p).flatMap FileCall.chunks) fun p =>
    (s.writer p).chunks
  contents : fs'.contents i = overwrite (fs.contents i) (k.ftable f).off.toNat s.bytes
  off : (s.sys.ftable f).off.toNat = (k.ftable f).off.toNat + s.bytes.length
  room : s.Room fs' f i

section

variable {k k' : Sys} {fs fs' fs'' : FS} {f : FileId} {ip : InodeId}
  {calls : ProcId → List FileCall} {s t : SharedFile} {p : ProcId} {j : Nat} {w : Writer}
  {rest : List FileCall} {a : SharedFile.Act}

theorem length_bytes : s.bytes.length = (s.order.map fun x => x.2.len).sum := by
  unfold bytes
  rw [length_flatMap]
  congr 1
  refine map_congr_left fun x _ => ?_
  exact Mem.length_bytes

theorem sum_chunks (calls : ProcId → List FileCall) :
    ∑ p, (((calls p).flatMap FileCall.chunks).map Chunk.len).sum = total calls := by
  refine Finset.sum_congr rfl fun p _ => ?_
  induction calls p with
  | nil => rfl
  | cons c rest ih =>
    rw [flatMap_cons, map_append, sum_append, ih, map_cons, sum_cons]
    unfold FileCall.chunks
    rw [FileCall.chunksFrom_len, Nat.sub_zero]

theorem sum_of_merged (h : Merged s.order (fun p => (calls p).flatMap FileCall.chunks) fun p =>
    (s.writer p).chunks) : s.bytes.length + s.left = total calls := by
  rw [length_bytes, ← sum_chunks]
  exact h.sum Chunk.len

theorem ready_of_mem (hfit : Fits k fs f ip i calls)
    (hx : x ∈ (calls p).flatMap FileCall.chunks) : x.Ready := by
  obtain ⟨c, hc, hx⟩ := mem_flatMap.mp hx
  exact FileCall.chunksFrom_ready (hfit.readable p c hc) 0 hx

theorem Inv.off_le (h : Inv k fs f ip i calls s fs') (hfit : Fits k fs f ip i calls) :
    (s.sys.ftable f).off.toNat ≤ (fs'.ino i).size.toNat := by
  rw [← FS.length_contents, h.contents,
    length_overwrite (by rw [FS.length_contents]; exact hfit.off), h.off]
  exact Nat.le_max_right _ _

theorem Rests.run (h : s.sys.Rests fs ip i) (p : ProcId) : (s.run p).Rests fs ip i where
  holds := h.holds.setPid p.val
  quiet := h.quiet
  entry := h.entry
  own := h.own
  live := h.live
  mapped := h.mapped

/-- One transaction stores its chunk at the offset and moves the offset behind it. -/
theorem chunk_stored (h : Inv k fs f ip i calls s fs') (hfit : Fits k fs f ip i calls)
    (hx : x.Ready) (hlen : x.len ≤ s.left) :
    ∃ k' fs'', filewriteChunk f ip x.mem x.addr x.len (s.run p) = .ok ((x.len : Int), k') ∧
      k'.Rests fs'' ip i ∧ fs''.Clean i ∧ Advanced (s.run p) k' f ip x.len ∧
      fs''.contents i = overwrite (fs'.contents i) (s.sys.ftable f).off.toNat x.bytes ∧
      k.sb.freeCount fs' + fs''.lacks i ≤
        k.sb.freeCount fs'' + blocksBegun (s.sys.ftable f).off.toNat x.len + fs'.lacks i := by
  have hoff := h.off_le hfit
  have hsum := sum_of_merged h.merged
  have ho := h.off
  have hmax := hfit.file
  have hfits : (s.sys.ftable f).off.toNat + x.len ≤ MAXFILE * BSIZE := by omega
  have hroom := h.room
  unfold Room at hroom
  rw [h.sb] at hroom
  have hsub : blocksBegun (s.sys.ftable f).off.toNat x.len ≤
      blocksBegun (s.sys.ftable f).off.toNat s.left := by
    obtain ⟨m, hm⟩ := Nat.exists_eq_add_of_le hlen
    rw [hm, blocksBegun_add]
    exact Nat.le_add_right _ _
  have hsb : (s.run p).sb = k.sb := h.sb
  have hwp : Wp (fun _ => False) (filewriteChunk f ip x.mem x.addr x.len) (fun r k' =>
      r = x.len ∧ ∃ fs'', k'.Rests fs'' ip i ∧ fs''.Clean i ∧ Advanced (s.run p) k' f ip x.len ∧
        fs''.contents i = overwrite (fs'.contents i) (s.sys.ftable f).off.toNat x.bytes ∧
        k.sb.freeCount fs' + fs''.lacks i ≤
          k.sb.freeCount fs'' + blocksBegun (s.sys.ftable f).off.toNat x.len + fs'.lacks i)
      (s.run p) := by
    refine filewriteChunk_wp (Rests.run h.rests p) hx.pos hx.small (.inr ?_) (.inr ?_) ?_ ?_
    · rw [hsb]
      exact hfit.log
    · rw [hsb]
      exact Nat.le_trans (Nat.add_le_add_right hsub _) hroom
    · intro k' hrej _ _
      rcases hrej with hrej | hrej
      · exact absurd hrej (Nat.not_lt.mpr hoff)
      · exact absurd hrej (Nat.not_lt.mpr hfits)
    intro k' fs'' off' hi' hk' hadv hw hfree hle _ hfull htop
    rw [hfull hx.readable] at hw
    rw [hsb] at hfree
    exact ⟨rfl, fs'', hk', hw.clean h.clean (not_torn hx.readable), hadv,
      hw.contents_self htop hle h.rests.mapped h.clean, hfree⟩
  obtain ⟨r, k', hok, rfl, fs'', hrest⟩ := hwp.returns
  exact ⟨k', fs'', hok, hrest⟩

theorem chunks_cons (rest : List FileCall) (hj : j < c.n.toNat) : (Writer.mk (c :: rest) j).chunks =
      chunkAt c j :: (Writer.mk (c :: rest) (j + (chunkAt c j).len)).chunks := by
  unfold Writer.chunks
  simp only
  rw [FileCall.chunksFrom, if_pos hj, cons_append]

theorem chunks_return (rest : List FileCall) (hj : ¬j < c.n.toNat) :
    (Writer.mk rest 0).chunks = (Writer.mk (c :: rest) j).chunks := by
  unfold Writer.chunks
  simp only
  rw [FileCall.chunksFrom, if_neg hj, nil_append]
  cases rest with
  | nil => rfl
  | cons d rest => rfl

section

variable (h : Inv k fs f ip i calls s fs')
include h

theorem Inv.stored (hfit : Fits k fs f ip i calls) (hcons : (s.writer p).chunks = x :: w.chunks)
    (hk' : k'.Rests fs'' ip i) (hclean : fs''.Clean i) (hadv : Advanced (s.run p) k' f ip x.len)
    (hcontents : fs''.contents i = overwrite (fs'.contents i) (s.sys.ftable f).off.toNat x.bytes)
    (hfree : k.sb.freeCount fs' + fs''.lacks i ≤
      k.sb.freeCount fs'' + blocksBegun (s.sys.ftable f).off.toNat x.len + fs'.lacks i) :
    Inv k fs f ip i calls
      ({ s with sys := k', order := s.order ++ [(p, x)] }.setWriter p w) fs'' := by
  generalize ht : ({ s with sys := k', order := s.order ++ [(p, x)] }.setWriter p w) = t
  have hsys : t.sys = k' := by rw [← ht]; rfl
  have horder : t.order = s.order ++ [(p, x)] := by rw [← ht]; rfl
  have hself : t.writer p = w := by
    rw [← ht]
    exact update_self ..
  have hother : ∀ q, q ≠ p → t.writer q = s.writer q := by
    intro q hq
    rw [← ht]
    exact update_of_ne hq ..
  have hmerged : Merged t.order (fun p => (calls p).flatMap FileCall.chunks) fun p =>
      (t.writer p).chunks := by
    rw [horder]
    refine h.merged.take ?_ ?_
    · rw [hself]
      exact hcons
    · intro q hq
      rw [hother q hq]
  have hbytes : t.bytes = s.bytes ++ x.bytes := by
    unfold bytes
    rw [horder, flatMap_append, flatMap_singleton]
  have hlen : t.bytes.length = s.bytes.length + x.len := by
    rw [hbytes, length_append]
    exact congrArg (s.bytes.length + ·) Mem.length_bytes
  have hsum := sum_of_merged h.merged
  have hsum' := sum_of_merged hmerged
  have ho := h.off
  have hfile := hfit.file
  have hoff : (k'.ftable f).off.toNat = (s.sys.ftable f).off.toNat + x.len :=
    hadv.off_toNat (show (s.sys.ftable f).off.toNat + x.len ≤ _ by omega)
  have hsb : k'.sb = k.sb := hadv.sb.trans h.sb
  refine ⟨?_, hclean, ?_, ?_, hmerged, ?_, ?_, ?_⟩
  · rw [hsys]
    exact hk'
  · rw [hsys, hadv.file]
    exact h.kind
  · rw [hsys]
    exact hsb
  · rw [hcontents, h.contents, ho,
      overwrite_overwrite (by rw [FS.length_contents]; exact hfit.off), hbytes]
  · rw [hsys, hoff, ho, hlen, Nat.add_assoc]
  have hroom := h.room
  unfold Room at hroom ⊢
  rw [h.sb] at hroom
  rw [hsys, hoff, hsb]
  rw [show s.left = x.len + t.left by omega, blocksBegun_add] at hroom
  omega

theorem Inv.returned
    (hw : w.chunks = (s.writer p).chunks) : Inv k fs f ip i calls (s.setWriter p w) fs' := by
  have hchunks : ∀ q, ((s.setWriter p w).writer q).chunks = (s.writer q).chunks := by
    intro q
    rcases eq_or_ne q p with rfl | hq
    · rw [← hw]
      exact congrArg Writer.chunks (update_self ..)
    · exact congrArg Writer.chunks (update_of_ne hq ..)
  have hleft : (s.setWriter p w).left = s.left := by
    unfold left
    exact Finset.sum_congr rfl fun q _ => by rw [hchunks q]
  refine ⟨h.rests, h.clean, h.kind, h.sb, h.merged.congr hchunks, h.contents, h.off, ?_⟩
  have hroom := h.room
  unfold Room at hroom ⊢
  rw [hleft]
  exact hroom

def wrote (s : SharedFile) (p : ProcId) (k : Sys) (c : FileCall) (rest : List FileCall)
    (j : Nat) : SharedFile :=
  { s with sys := k, order := s.order ++ [(p, chunkAt c j)] }.setWriter p
    ⟨c :: rest, j + (chunkAt c j).len⟩

theorem Inv.round (hfit : Fits k fs f ip i calls)
    (hw : s.writer p = ⟨c :: rest, j⟩) (hj : j < c.n.toNat) :
    ∃ k' fs'', filewriteChunk f ip (chunkAt c j).mem (chunkAt c j).addr (chunkAt c j).len
        (s.run p) = .ok (((chunkAt c j).len : Int), k') ∧
      Advanced (s.run p) k' f ip (chunkAt c j).len ∧
      step f ip s (.write p) = some (s.wrote p k' c rest j) ∧
      Inv k fs f ip i calls (s.wrote p k' c rest j) fs'' := by
  have hcons := chunks_cons rest hj
  rw [← hw] at hcons
  have hmem : chunkAt c j ∈ (s.writer p).chunks := by
    rw [hcons]
    exact mem_cons_self
  have hready := ready_of_mem hfit (h.merged.mem (p := p) hmem)
  have hlen : (chunkAt c j).len ≤ s.left := by
    have hle : ((s.writer p).chunks.map Chunk.len).sum ≤ s.left :=
      Finset.single_le_sum (f := fun q => ((s.writer q).chunks.map Chunk.len).sum)
        (fun _ _ => Nat.zero_le _) (Finset.mem_univ p)
    rw [hcons, map_cons, sum_cons] at hle
    omega
  obtain ⟨k', fs'', hok, hk', hclean, hadv, hcontents, hfree⟩ :=
    chunk_stored (p := p) h hfit hready hlen
  refine ⟨k', fs'', hok, hadv, ?_, h.stored hfit hcons hk' hclean hadv hcontents hfree⟩
  unfold step
  simp only [hw]
  rw [if_pos hj]
  unfold SharedFile.round
  simp only [hok]
  rw [if_neg (by omega), if_neg (by simp), Int.toNat_natCast]
  rfl

/-- A process with a call to make can take a step, and the step keeps the invariant. -/
theorem Inv.write (hfit : Fits k fs f ip i calls) (hne : (s.writer p).calls ≠ []) :
    ∃ t fs'', step f ip s (.write p) = some t ∧ Inv k fs f ip i calls t fs'' := by
  obtain ⟨c, rest, hcalls⟩ := exists_cons_of_ne_nil hne
  have hw : s.writer p = ⟨c :: rest, (s.writer p).i⟩ := by
    rw [← hcalls]
  by_cases hj : (s.writer p).i < c.n.toNat
  · obtain ⟨k', fs'', _, _, hstep, hinv⟩ := h.round hfit hw hj
    exact ⟨_, fs'', hstep, hinv⟩
  have hret := chunks_return rest hj
  rw [← hw] at hret
  refine ⟨_, fs', ?_, h.returned hret⟩
  unfold step
  simp only [hcalls]
  rw [if_neg hj]

end

theorem Inv.start (hfit : Fits k fs f ip i calls) : Inv k fs f ip i calls (start k calls) fs := by
  have hchunks : ∀ p, ((SharedFile.start k calls).writer p).chunks =
      (calls p).flatMap FileCall.chunks := by
    intro p
    unfold SharedFile.start Writer.chunks
    simp only
    cases calls p with
    | nil => rfl
    | cons c rest => rfl
  have hmerged := (Merged.nil fun p => (calls p).flatMap FileCall.chunks).congr hchunks
  have hleft : (SharedFile.start k calls).left = total calls := by
    have hsum := sum_of_merged (s := SharedFile.start k calls) hmerged
    rwa [show (SharedFile.start k calls).bytes = [] from rfl, length_nil, Nat.zero_add] at hsum
  refine ⟨hfit.rests, hfit.clean, hfit.kind, rfl, hmerged, ?_, rfl, ?_⟩
  · exact overwrite_nil.symm
  unfold Room
  rw [hleft]
  exact hfit.disk

theorem Inv.step (h : Inv k fs f ip i calls s fs') (hfit : Fits k fs f ip i calls)
    (ha : LeavesAlone f ip i s a) (hstep : step f ip s a = some t) :
    ∃ fs'', Inv k fs f ip i calls t fs'' := by
  cases a with
  | write p =>
    have hne : (s.writer p).calls ≠ [] := by
      intro hnil
      unfold SharedFile.step at hstep
      simp only [hnil] at hstep
      cases hstep
    obtain ⟨u, fs'', hu, hinv⟩ := h.write hfit hne
    cases hu.symm.trans hstep
    exact ⟨fs'', hinv⟩
  | other k' =>
    obtain ⟨fs'', hk', hclean, hcontents, hsb, hkind, hoff, hroom⟩ := ha fs' h.rests h.clean
    cases hstep
    exact ⟨fs'', hk', hclean, hkind.trans h.kind, hsb.trans h.sb, h.merged,
      hcontents.trans h.contents, (congrArg UInt32.toNat hoff).trans h.off, hroom⟩

/-- In every interleaving the bytes from the initial offset on are the chunks
written so far, in an order that keeps the order within each process, and the offset
is behind the last of them.  No process gets stuck, and in the end every chunk has
been written. -/
theorem shared_writes_merge (hfit : Fits k fs f ip i calls)
    (hrun : Reaches (SharedFile.step f ip) (LeavesAlone f ip i) (SharedFile.start k calls) s) :
    (∃ fs', s.sys.Rests fs' ip i ∧
      fs'.contents i = overwrite (fs.contents i) (k.ftable f).off.toNat
        (s.order.flatMap fun x => x.2.bytes)) ∧ (s.sys.ftable f).off.toNat =
      (k.ftable f).off.toNat + (s.order.flatMap fun x => x.2.bytes).length ∧
    (∀ p, pick p s.order ++ (s.writer p).chunks = (calls p).flatMap FileCall.chunks) ∧
    (∀ p, ∀ c ∈ calls p,
      c.chunks.flatMap Chunk.bytes = (Mem.user c.mem).bytes c.addr c.n.toNat ∧
      ∀ x ∈ c.chunks, x.bytes.length ≤ ((MAXOPBLOCKS - 1 - 1 - 2) / 2) * BSIZE) ∧
    (∀ p, (s.writer p).calls ≠ [] → ∃ t, SharedFile.step f ip s (.write p) = some t) ∧
    ((∀ p, (s.writer p).calls = []) →
      (∀ p, pick p s.order = (calls p).flatMap FileCall.chunks) ∧
      (s.sys.ftable f).off.toNat = (k.ftable f).off.toNat + total calls) := by
  have hinv : ∃ fs', Inv k fs f ip i calls s fs' :=
    hrun.invariant (I := fun s => ∃ fs', Inv k fs f ip i calls s fs') ⟨fs, Inv.start hfit⟩
      fun _ _ _ ⟨_, hu⟩ ha hstep => hu.step hfit ha hstep
  obtain ⟨fs', h⟩ := hinv
  refine ⟨⟨fs', h.rests, h.contents⟩, h.off, h.merged, ?_, ?_, ?_⟩
  · intro p c hc
    have hread := hfit.readable p c hc
    refine ⟨FileCall.chunksFrom_bytes hread 0, ?_⟩
    intro x hx
    have hsmall := (FileCall.chunksFrom_ready hread 0 hx).small
    rw [Chunk.bytes, Mem.length_bytes]
    exact hsmall
  · intro p hne
    obtain ⟨t, _, ht, _⟩ := h.write hfit hne
    exact ⟨t, ht⟩
  intro hdone
  have hnil : ∀ p, (s.writer p).chunks = [] := by
    intro p
    unfold Writer.chunks
    rw [hdone p]
  refine ⟨?_, ?_⟩
  · intro p
    have hp : pick p s.order ++ (s.writer p).chunks = _ := h.merged p
    rwa [hnil p, append_nil] at hp
  have hsum := sum_of_merged h.merged
  have hleft : s.left = 0 := by
    unfold left
    exact Finset.sum_eq_zero fun p _ => by rw [hnil p]; rfl
  rw [h.off]
  omega

/-- Process 0 writes across a page boundary, each byte the low byte of its address. -/
def twoCalls (p : ProcId) : List FileCall :=
  if p.val = 0 then [⟨fun _ => some fun j => UInt8.ofNat j, 4090, 10⟩]
  else if p.val = 1 then [⟨fun _ => some (Bytes.const 9), 4096, 5⟩]
  else []

theorem twoCalls_fits : Fits (openSys 30715) smallFS openFile smallIp 2 twoCalls where
  rests := openSys_rests 30715
  clean := Sys.HasInode.small_clean
  kind := rfl
  log := by decide
  off := by
    rw [smallFS_file]
    decide
  readable := by
    intro p c hc
    unfold twoCalls at hc
    split at hc
    · rw [mem_singleton.mp hc]
      unfold FileCall.Readable
      decide +kernel
    split at hc
    · rw [mem_singleton.mp hc]
      unfold FileCall.Readable
      decide +kernel
    · cases hc
  file := by decide +kernel
  disk := by
    have hlack : smallFS.lacks 2 = 0 := by decide +kernel
    have htotal : total twoCalls = 15 := by decide +kernel
    rw [hlack, htotal, show (openSys 30715).sb = smallSb from rfl, smallFS_freeCount]
    decide

def twoTurns : List Act :=
  [.write ⟨1, by decide⟩, .write ⟨0, by decide⟩, .write ⟨0, by decide⟩, .write ⟨1, by decide⟩]

theorem shared_writes_merge_two : ∃ (s : SharedFile) (fs' : FS),
    exec (SharedFile.step openFile smallIp) (fun _ _ => true)
        (SharedFile.start (openSys 30715) twoCalls) twoTurns = some s ∧
      fs'.contents 2 = overwrite (smallFS.contents 2) 30715
        [9, 9, 9, 9, 9, 250, 251, 252, 253, 254, 255, 0, 1, 2, 3] ∧
      (s.sys.ftable openFile).off = 30730 := by
  have hexec : (exec (SharedFile.step openFile smallIp) (fun _ _ => true)
      (SharedFile.start (openSys 30715) twoCalls) twoTurns).map (fun s =>
        ((s.sys.ftable openFile).off, s.order.flatMap fun x => x.2.bytes)) =
      some (30730, [9, 9, 9, 9, 9, 250, 251, 252, 253, 254, 255, 0, 1, 2, 3]) := by
    decide +kernel
  obtain ⟨s, hs, hx⟩ := Option.map_eq_some_iff.mp hexec
  simp only [Prod.mk.injEq] at hx
  have hrun : Reaches (SharedFile.step openFile smallIp) (LeavesAlone openFile smallIp 2)
      (SharedFile.start (openSys 30715) twoCalls) s := by
    refine Reaches.refl.exec ?_ hs
    intro a ha _ _
    simp only [twoTurns, mem_cons, not_mem_nil, or_false] at ha
    rcases ha with rfl | rfl | rfl | rfl <;> trivial
  obtain ⟨⟨fs', _, hcontents⟩, _⟩ := shared_writes_merge twoCalls_fits hrun
  refine ⟨s, fs', hs, ?_, hx.1⟩
  rw [hcontents, hx.2]
  rfl

theorem filewriteLoop_steps (h : Inv k fs f ip i calls s fs') (hfit : Fits k fs f ip i calls)
    (hw : s.writer p = ⟨c :: rest, j⟩) (hj : j ≤ c.n.toNat) (fuel : Nat)
    (hfuel : c.n.toNat - j ≤ fuel) :
    ∃ t, filewriteLoop f ip c.mem c.addr c.n.toNat fuel j (s.run p) =
        .ok (c.n.toNat, t.run p) ∧
      Reaches (SharedFile.step f ip) (LeavesAlone f ip i) s t ∧
      t.writer p = ⟨c :: rest, c.n.toNat⟩ := by
  induction fuel generalizing s fs' j with
  | zero =>
    obtain rfl : j = c.n.toNat := by omega
    exact ⟨s, rfl, .refl, hw⟩
  | succ fuel ih =>
    by_cases hlt : j < c.n.toNat
    · obtain ⟨k', fs'', hok, hadv, hstep, hinv⟩ := h.round hfit hw hlt
      have hmax : writeMax = 3072 := rfl
      have hlen : (chunkAt c j).len = min (c.n.toNat - j) writeMax := rfl
      have hrun : (s.wrote p k' c rest j).run p = k' := by
        have hpid : k'.blk.pid = p.val := hadv.pid
        have hcur : k'.cur = p := hadv.cur
        unfold SharedFile.run
        change ({ k' with blk := { k'.blk with pid := p.val }, cur := p } : Sys) = k'
        rw [← hpid, ← hcur]
      obtain ⟨t, hloop, hreach, hend⟩ := ih hinv (update_self ..) (by omega) (by omega)
      rw [hrun] at hloop
      refine ⟨t, ?_, ?_, hend⟩
      · unfold filewriteLoop
        rw [if_pos hlt]
        refine (Prog.bind_ok hok).trans ?_
        rw [if_neg (by omega), if_neg (by rw [hlen]; simp), Int.toNat_natCast]
        exact hloop
      · exact (Reaches.refl.step (.write p) trivial hstep).trans hreach
    · obtain rfl : j = c.n.toNat := by omega
      refine ⟨s, ?_, .refl, hw⟩
      unfold filewriteLoop
      rw [if_neg hlt]
      rfl

/-- In every reachable state a process that makes its next call alone returns from `filewrite` with
all bytes written, by steps of the machine. -/
theorem filewrite_alone (hfit : Fits k fs f ip i calls)
    (hrun : Reaches (SharedFile.step f ip) (LeavesAlone f ip i) (SharedFile.start k calls) s)
    (hw : s.writer p = ⟨c :: rest, 0⟩) (hopen : (s.sys.ftable f).writable = true) (hn : 0 ≤ c.n)
    (answer : Int) :
    ∃ t, filewrite f c.mem c.addr c.n answer (s.run p) = .ok (c.n, t.run p) ∧
      Reaches (SharedFile.step f ip) (LeavesAlone f ip i) (SharedFile.start k calls) t ∧
      t.writer p = ⟨rest, 0⟩ := by
  obtain ⟨fs', h⟩ : ∃ fs', Inv k fs f ip i calls s fs' :=
    hrun.invariant (I := fun s => ∃ fs', Inv k fs f ip i calls s fs') ⟨fs, Inv.start hfit⟩
      fun _ _ _ ⟨_, hu⟩ ha hstep => hu.step hfit ha hstep
  obtain ⟨t, hloop, hreach, hend⟩ :=
    filewriteLoop_steps h hfit hw (Nat.zero_le _) c.n.toNat (Nat.sub_le _ _)
  have hreturn : SharedFile.step f ip t (.write p) = some (t.setWriter p ⟨rest, 0⟩) := by
    unfold SharedFile.step
    simp only [hend, lt_irrefl, if_false]
  refine ⟨t.setWriter p ⟨rest, 0⟩, ?_, (hrun.trans hreach).step (.write p) trivial hreturn,
    update_self ..⟩
  have hkind : ((s.run p).ftable f).kind = .inode ip := h.kind
  have hwritable : ((s.run p).ftable f).writable = true := hopen
  unfold filewrite
  refine (Prog.bind_ok (a := (s.run p).ftable f) rfl).trans ?_
  simp only [hkind, hwritable, Bool.true_eq_false, if_false]
  refine (Prog.bind_ok hloop).trans ?_
  rw [if_pos (Int.toNat_of_nonneg hn)]
  rfl

theorem filewrite_alone_ten : ∃ t : SharedFile,
    filewrite openFile (fun _ => some fun j => UInt8.ofNat j) 4090 10 0
      ((SharedFile.start (openSys 30715) twoCalls).run ⟨0, by decide⟩) =
        .ok (10, t.run ⟨0, by decide⟩) := by
  obtain ⟨t, ht, _⟩ := filewrite_alone twoCalls_fits .refl (p := ⟨0, by decide⟩) rfl rfl
    (by decide) 0
  exact ⟨t, ht⟩

end

end SharedFile

end Xv6.Kernel
