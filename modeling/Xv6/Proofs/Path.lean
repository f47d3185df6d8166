import Xv6.Lib.Words
import Xv6.Proofs.Directory
import Xv6.Proofs.InodeRefs
/-!
# Path names

`skipelem` cuts a path into its components, and `namex` follows them through the
directories.
-/

namespace Xv6.Kernel

open Xv6.Lib List
open Blk

variable {path : List UInt8} {name : Name} {fs : FS} {i : Nat} {parent : Bool} {c : Env} {k : Sys}
  {R : Refs} {ip : InodeId} {E : Stop → Prop}

/-! ## The components of a path -/

section

variable {rest : List UInt8}

def components (path : List UInt8) : List Name := (words slash path).map fun w => w.take DIRSIZ

/-- The names `skipelem` yields, called again and again on what it returns until there is
none. -/
def elements : Nat → List UInt8 → Option (List Name)
  | 0, _ => none
  | n + 1, path => match skipelem path with
    | none => some []
    | some (name, rest) => (elements n rest).map fun names => name :: names

theorem components_of_none (h : skipelem path = none) : components path = [] := by
  unfold skipelem at h
  unfold components
  rw [← words_dropWhile]
  cases hd : path.dropWhile (· == slash) with
  | nil => rw [words_nil, map_nil]
  | cons c cs =>
    rw [hd] at h
    cases h

theorem components_of_some (h : skipelem path = some (name, rest)) :
    components path = name :: components rest ∧ rest.length < path.length ∧
      (rest = [] ↔ components rest = []) := by
  unfold skipelem at h
  have hdrop : words slash (path.dropWhile (· == slash)) = words slash path := words_dropWhile
  have hlen := (dropWhile_suffix (l := path) (· == slash)).length_le
  cases hd : path.dropWhile (· == slash) with
  | nil =>
    rw [hd] at h
    cases h
  | cons c cs =>
    rw [hd] at h hdrop hlen
    obtain ⟨rfl, rfl⟩ := Prod.mk.inj (Option.some.inj h)
    have hc : c ≠ slash := by
      have hhead := List.head?_dropWhile_not (· == slash) path
      rw [hd] at hhead
      simpa using hhead
    refine ⟨?_, ?_, ?_⟩
    · unfold components
      rw [← hdrop, words_cons hc, words_dropWhile]
      rfl
    · have h1 := (dropWhile_suffix (l := (c :: cs).dropWhile (· != slash)) (· == slash)).length_le
      have h2 := (dropWhile_suffix (l := cs) (· != slash)).length_le
      rw [dropWhile_cons_of_pos (by simpa using hc)] at h1 ⊢
      rw [length_cons] at hlen
      omega
    refine ⟨fun hnil => by rw [hnil]; rfl, fun hnil => ?_⟩
    have hhead := List.head?_dropWhile_not (· == slash) ((c :: cs).dropWhile (· != slash))
    cases hr : ((c :: cs).dropWhile (· != slash)).dropWhile (· == slash) with
    | nil => rfl
    | cons b bs =>
      rw [hr] at hhead hnil
      have hb : b ≠ slash := by simpa using hhead
      exact absurd (map_eq_nil_iff.mp hnil) (words_ne_nil hb)

theorem elements_eq : ∀ (n : Nat) (path : List UInt8), path.length < n →
    elements n path = some (components path) := by
  intro n
  induction n with
  | zero => exact fun _ hlt => absurd hlt (Nat.not_lt_zero _)
  | succ n ih =>
    intro path hlt
    unfold elements
    cases hs : skipelem path with
    | none => rw [components_of_none hs]
    | some x =>
      obtain ⟨name, rest⟩ := x
      obtain ⟨hcomp, hlen, _⟩ := components_of_some hs
      simp only
      rw [ih rest (by omega), hcomp]
      rfl

end

/-! ## The directory graph -/

namespace FS

variable {j : Nat} {names : List Name}

def enter (fs : FS) (i : Nat) (name : Name) : Option Nat :=
  if (fs.ino i).type = T_DIR then fs.lookup i name else none

def walk (fs : FS) (i : Nat) (names : List Name) : Option Nat := names.foldlM fs.enter i

def walkParent (fs : FS) (i : Nat) (names : List Name) : Option (Nat × Name) := do
  let last ← names.getLast?
  let j ← fs.walk i names.dropLast
  if (fs.ino j).type = T_DIR then some (j, last) else none

/-- Where `namex` is to arrive. -/
def target (fs : FS) (parent : Bool) (i : Nat) (names : List Name) : Option (Nat × Name) :=
  if parent = true then fs.walkParent i names else (fs.walk i names).map fun j => (j, [])

def Dangles (fs : FS) (i : Nat) (names : List Name) : Prop :=
  ∃ first last j, names = first ++ last ∧ last ≠ [] ∧ fs.walk i first = some j ∧
    (fs.ino j).type = 0

theorem walk_nil : fs.walk i [] = some i := rfl

theorem walk_cons : fs.walk i (name :: names) = (fs.enter i name).bind fun j => fs.walk j names :=
  rfl

theorem walkParent_cons (hne : names ≠ []) : fs.walkParent i (name :: names) =
    (fs.enter i name).bind fun j => fs.walkParent j names := by
  unfold walkParent
  rw [List.getLast?_cons_of_ne_nil hne, dropLast_cons_of_ne_nil hne, walk_cons]
  cases names.getLast? with
  | none => cases fs.enter i name <;> rfl
  | some last => cases fs.enter i name <;> rfl

theorem target_single : fs.target true i [name] =
    if (fs.ino i).type = T_DIR then some (i, name) else none := rfl

theorem target_cons (h : ¬(parent = true ∧ names = [])) : fs.target parent i (name :: names) =
    (fs.enter i name).bind fun j => fs.target parent j names := by
  unfold target
  cases parent with
  | true =>
    have hne : names ≠ [] := fun hnil => h ⟨rfl, hnil⟩
    rw [if_pos rfl, walkParent_cons hne]
    rfl
  | false =>
    rw [if_neg (by decide), walk_cons]
    cases fs.enter i name <;> rfl

theorem target_parent (h : fs.target true i names = some (j, name)) : (fs.ino j).type = T_DIR := by
  unfold target walkParent at h
  rw [if_pos rfl] at h
  simp only [Option.bind_eq_bind, Option.bind_eq_some_iff] at h
  obtain ⟨last, _, v, _, hv⟩ := h
  split at hv
  · rename_i htype
    cases hv
    exact htype
  · cases hv

theorem target_not_dir (h : (fs.ino i).type ≠ T_DIR) :
    fs.target parent i (name :: names) = none := by
  by_cases hend : parent = true ∧ names = []
  · obtain ⟨rfl, rfl⟩ := hend
    rw [target_single, if_neg h]
  rw [target_cons hend]
  unfold enter
  rw [if_neg h]
  rfl

/-- Some component is looked up in what is not a directory, or is not there. -/
def Broken (fs : FS) (i : Nat) (names : List Name) : Prop :=
  ∃ first name last j, names = first ++ name :: last ∧ fs.walk i first = some j ∧
    ((fs.ino j).type ≠ T_DIR ∨ fs.lookup j name = none)

theorem walk_eq_none : fs.walk i names = none ↔ fs.Broken i names := by
  induction names generalizing i with
  | nil =>
    refine iff_of_false (by rw [walk_nil]; simp) ?_
    rintro ⟨first, name, last, j, hnil, _⟩
    simp at hnil
  | cons a names ih =>
    rw [walk_cons]
    constructor
    · intro hnone
      cases he : fs.enter i a with
      | none =>
        refine ⟨[], a, names, i, rfl, rfl, ?_⟩
        unfold enter at he
        split at he
        · exact .inr he
        · exact .inl (by assumption)
      | some j =>
        rw [he] at hnone
        obtain ⟨first, b, last, v, rfl, hwalk, hbad⟩ := ih.mp hnone
        refine ⟨a :: first, b, last, v, rfl, ?_, hbad⟩
        rw [walk_cons, he]
        exact hwalk
    · rintro ⟨first, b, last, v, hnames, hwalk, hbad⟩
      cases first with
      | nil =>
        obtain ⟨rfl, rfl⟩ := List.cons.inj hnames
        cases hwalk
        have he : fs.enter i a = none := by
          unfold enter
          rcases hbad with hbad | hbad
          · rw [if_neg hbad]
          · rw [hbad, ite_self]
        rw [he]
        rfl
      | cons f first =>
        obtain ⟨rfl, rfl⟩ := List.cons.inj hnames
        rw [walk_cons] at hwalk
        cases he : fs.enter i a with
        | none => rfl
        | some j =>
          rw [he] at hwalk
          exact ih.mpr ⟨first, b, last, v, rfl, hwalk, hbad⟩

theorem dangles_of_free (h : (fs.ino i).type = 0) : fs.Dangles i (name :: names) :=
  ⟨[], name :: names, i, rfl, cons_ne_nil _ _, rfl, h⟩

theorem Dangles.cons (h : fs.Dangles j names) (hj : fs.enter i name = some j) :
    fs.Dangles i (name :: names) := by
  obtain ⟨first, last, v, rfl, hlast, hwalk, htype⟩ := h
  refine ⟨name :: first, last, v, rfl, hlast, ?_, htype⟩
  rw [walk_cons, hj]
  exact hwalk

/-- What the directories of a file system have to be for a walk.  An entry may name an
inode that has been freed. -/
structure Graph (fs : FS) (sb : Superblock) : Prop where
  dir : ∀ i, fs.live sb i → (fs.ino i).type = T_DIR → fs.Dir i
  range : ∀ i, fs.live sb i → ∀ name j, fs.enter i name = some j → 1 ≤ j ∧ j < sb.ninodes

end FS

/-! ## The inode cache during a walk -/

/-- Every allocated inode that no directory entry counts is in use. -/
def NoOrphans (sb : Superblock) (fs : FS) (R : Refs) : Prop :=
  ∀ i, fs.live sb i → (fs.ino i).nlink = 0 → ∃ r ∈ R, r.inum = i

namespace Coherent

section

variable {l : Bool} {t : Blk} {Q : Unit → Sys → Prop}

theorem hasInode (h : Coherent c k fs (⟨ip, i, true⟩ ::ₘ R)) : k.HasInode fs ip i where
  holds := by
    rw [h.sb_eq]
    exact h.holds
  dev := h.entry.dev
  inum := h.entry.inum
  copy := h.locked.1.symm
  own := by
    rw [h.sb_eq]
    exact h.own
  live := by
    rw [h.sb_eq]
    exact h.locked.2
  mapped := h.mapped i h.locked.2

theorem frame (h : Coherent c k fs (⟨ip, i, true⟩ ::ₘ R)) (ht : t.Holds k.sb fs [])
    (hf : Frame k.blk t) : Coherent c (k.upd t ip (fs.ino i)) fs (⟨ip, i, true⟩ ::ₘ R) := by
  rw [h.sb_eq] at ht
  exact h.write ht hf h.own h.mapped (fun _ _ => rfl) h.locked.2.2.2

theorem keeps (h : Coherent c k fs (⟨ip, i, l⟩ ::ₘ R)) (hheld : NoOrphans c.sb fs R)
    (hlive : fs.live c.sb i) : R.users ip ≠ 0 ∨ (fs.ino i).nlink ≠ 0 := by
  by_cases hz : (fs.ino i).nlink = 0
  · obtain ⟨r, hr, hri⟩ := hheld i hlive hz
    have hused : Refs.users (⟨ip, i, l⟩ ::ₘ R) r.ip ≠ 0 :=
      Refs.users_ne_zero.mpr ⟨r, Multiset.mem_cons_of_mem hr, rfl⟩
    have hip : r.ip = ip := by
      refine h.key r.ip ip hused (by simp) ?_
      rw [(h.names r (Multiset.mem_cons_of_mem hr)).inum, hri, h.entry.inum]
    exact .inl (Refs.users_ne_zero.mpr ⟨r, hr, hip⟩)
  · exact .inr hz

theorem iput_kept_wp (h : Coherent c k fs (⟨ip, i, false⟩ ::ₘ R)) (hheld : NoOrphans c.sb fs R)
    (hQ : ∀ k', Coherent c k' fs R → k'.blk.log = k.blk.log → Q () k') : Wp E (iput ip) Q k := by
  refine h.iput_wp ?_ hQ
  cases hv : (k.icache ip).valid with
  | true => exact (h.keeps hheld (h.live hv)).imp_right .inr
  | false => exact .inr (.inl rfl)

theorem ilock_free_wp (h : Coherent c k fs (⟨ip, i, false⟩ ::ₘ R)) (hE : Supply E k.blk 0)
    (hl : R.lockers ip = 0) (hfree : (fs.ino i).type = 0 → E (.panic .ilockNoType))
    (hQ : ∀ k', Coherent c k' fs (⟨ip, i, true⟩ ::ₘ R) → k'.blk.log = k.blk.log → Q () k') :
    Wp E (ilock ip) Q k := by
  by_cases htype : (fs.ino i).type = 0
  · -- a copy in the cache would have a type, so the inode is read from the disk
    have hinvalid : (k.icache ip).valid = false := by
      cases hv : (k.icache ip).valid with
      | true => exact absurd htype (h.copy_of_ref hv).2
      | false => rfl
    have hx := h.free hl
    have href := hx.ref
    have hb : k.blk.Holds k.sb fs [] := by
      rw [h.sb_eq]
      exact h.holds
    have hi : i < k.sb.ninodes := by
      rw [h.sb_eq]
      exact h.entry.range.2
    unfold ilock
    rw [Wp.bind_iff, getInode_wp, if_neg (by omega), Wp.bind_iff, acquireInode_wp hx.unlocked,
      if_pos hinvalid, Wp.bind_iff, getSb_wp, Wp.bind_iff, lift_wp, hx.dev, hx.inum]
    refine loadDinode_wp hb hE (by intro j hj; simp at hj) (by simp) hi ?_
    intro t _ _ _ _
    rw [Wp.bind_iff, getInode_wp, Wp.bind_iff, putInode_wp, if_pos htype]
    exact hfree htype
  · exact h.ilock_wp hE hl ⟨h.entry.range.1, h.entry.range.2, htype⟩ hQ

theorem dirlookup_wp {Q : Option (InodeId × Nat) → Sys → Prop}
    (h : Coherent c k fs (⟨ip, i, true⟩ ::ₘ R)) (hE : Supply E k.blk 0)
    (hspare : Refs.Spare E (⟨ip, i, true⟩ ::ₘ R) 1) (hdir : fs.Dir i)
    (hrange : ∀ j, fs.lookup i name = some j → 1 ≤ j ∧ j < c.sb.ninodes)
    (hnone : ∀ k', fs.lookup i name = none → Coherent c k' fs (⟨ip, i, true⟩ ::ₘ R) →
      k'.blk.log = k.blk.log → Q none k')
    (hsome : ∀ k' j jp, fs.lookup i name = some j →
      Coherent c k' fs (⟨jp, j, false⟩ ::ₘ ⟨ip, i, true⟩ ::ₘ R) → k'.blk.log = k.blk.log →
      Q (some (jp, SlotTable.index (fs.table i) name.key * DIRENT)) k') :
    Wp E (dirlookup ip name) Q k := by
  refine Xv6.Kernel.dirlookup_wp h.hasInode hdir hE ?_ ?_
  · intro t hl ht hf hlog
    exact hnone _ hl (h.frame ht hf) hlog
  · intro t j hl ht hf hlog
    refine (h.frame ht hf).iget_wp hspare (hrange j hl) fun jp k' hk' hlog' => ?_
    exact hsome k' j jp hl hk' (hlog'.trans hlog)

end

end Coherent

/-! ## Following a path -/

/-- `namex` returned `r` where it was to arrive at `goal`: nothing but the reference to
the inode is new. -/
def Arrived (c : Env) (k : Sys) (fs : FS) (R : Refs) :
    Option (InodeId × Name) → Option (Nat × Name) → Prop
  | some (ip, name), some (j, last) => name = last ∧ Coherent c k fs (⟨ip, j, false⟩ ::ₘ R)
  | none, none => Coherent c k fs R
  | _, _ => False

section

variable {r : Option (InodeId × Name)} {goal : Option (Nat × Name)} {k' : Sys}

theorem namexLoop_wp {Q : Option (InodeId × Name) → Sys → Prop} (hspare : R.Spare E 2)
    (hl : ∀ ip, R.lockers ip = 0) (hg : fs.Graph c.sb)
    (hheld : NoOrphans c.sb fs R) :
    ∀ (n : Nat) (k : Sys) (ip : InodeId) (i : Nat) (path : List UInt8), path.length < n →
      Supply E k.blk 0 → Coherent c k fs (⟨ip, i, false⟩ ::ₘ R) →
      (fs.Dangles i (components path) → E (.panic .ilockNoType)) →
      (∀ r k', Arrived c k' fs R r (fs.target parent i (components path)) → Q r k') →
      Wp E (namexLoop parent n ip path) Q k := by
  intro n
  induction n with
  | zero => exact fun _ _ _ _ hlt => absurd hlt (Nat.not_lt_zero _)
  | succ n ih =>
    intro k ip i path hlt hE h hdang hQ
    unfold namexLoop
    cases hs : skipelem path with
    | none =>
      rw [components_of_none hs] at hQ
      cases parent with
      | true =>
        simp only [if_pos]
        refine Wp.bind (h.iput_kept_wp hheld fun k' hk' _ => ?_)
        rw [Wp.pure_iff]
        exact hQ none k' hk'
      | false => exact hQ (some (ip, [])) k ⟨rfl, h⟩
    | some x =>
      obtain ⟨name, rest⟩ := x
      obtain ⟨hcomp, hlen, hlast⟩ := components_of_some hs
      rw [hcomp] at hQ hdang
      refine Wp.bind (h.ilock_free_wp hE (hl ip) (fun hz => hdang (FS.dangles_of_free hz)) ?_)
      intro k₁ hk1 hlog1
      have hE1 := hE.congr hlog1
      obtain ⟨hcopy, hlive⟩ := hk1.locked
      rw [Wp.bind_iff, getInode_wp, hcopy]
      refine Wp.ite_iff.mpr ⟨fun hnot => ?_, fun hdir => ?_⟩
      · refine Wp.bind (hk1.iunlockput_wp (hk1.keeps hheld hlive) fun k₂ hk2 _ => ?_)
        rw [Wp.pure_iff]
        refine hQ none k₂ ?_
        rw [FS.target_not_dir hnot]
        exact hk2
      have htype : (fs.ino i).type = T_DIR := not_not.mp hdir
      have henter : ∀ name, fs.enter i name = fs.lookup i name := fun name => if_pos htype
      refine Wp.ite_iff.mpr ⟨fun hend => ?_, fun hend => ?_⟩
      · obtain ⟨rfl, rfl⟩ := hend
        refine Wp.bind (hk1.iunlock_wp fun k₂ hk2 _ => ?_)
        rw [Wp.pure_iff]
        refine hQ (some (ip, name)) k₂ ?_
        rw [hlast.mp rfl, FS.target_single, if_pos htype]
        exact ⟨rfl, hk2⟩
      rw [FS.target_cons fun hx => hend ⟨hx.1, hlast.mpr hx.2⟩, henter] at hQ
      refine Wp.bind (hk1.dirlookup_wp hE1 hspare.cons (hg.dir i hlive htype) ?_ ?_ ?_)
      · intro j hj
        exact hg.range i hlive name j ((henter name).trans hj)
      · intro k₂ hnone hk2 _
        rw [hnone] at hQ
        simp only
        refine Wp.bind (hk2.iunlockput_wp (hk2.keeps hheld hlive) fun k3 hk3 _ => ?_)
        rw [Wp.pure_iff]
        exact hQ none k3 hk3
      intro k₂ j jp hj hk2 hlog2
      rw [hj] at hQ
      rw [Multiset.cons_swap] at hk2
      rw [Wp.bind_iff]
      have hkeep : Refs.users (⟨jp, j, false⟩ ::ₘ R) ip ≠ 0 ∨ (fs.ino i).nlink ≠ 0 := by
        refine (hk1.keeps hheld hlive).imp_left fun hu => ?_
        rw [Refs.users_cons]
        omega
      refine hk2.iunlockput_wp hkeep fun k3 hk3 hlog3 => ?_
      refine ih k3 jp j rest (by omega) (hE1.congr (hlog3.trans hlog2)) hk3 ?_ hQ
      exact fun hd => hdang (hd.cons ((henter name).trans hj))

def walkStart (k : Sys) (path : List UInt8) : Nat :=
  if path.head? = some slash then ROOTINO
  else ((k.proc k.cur).cwd.map fun ip => (k.icache ip).inum).getD 0

/-- What a process needs to walk: nobody has an inode locked, and it has a current
directory. -/
structure Walks (k : Sys) (fs : FS) (R : Refs) : Prop where
  coherent : Coherent k.env k fs R
  unlocked : ∀ ip, R.lockers ip = 0
  graph : fs.Graph k.sb
  orphans : NoOrphans k.sb fs R
  root : ROOTINO < k.sb.ninodes
  cwd : ∃ r ∈ R, (k.proc k.cur).cwd = some r.ip

theorem getCwd_wp {Q : Option InodeId → Sys → Prop} :
    Wp E getCwd Q k ↔ Q (k.proc k.cur).cwd k := Iff.rfl

theorem namexBytes_wp {Q : Option (InodeId × Name) → Sys → Prop} (h : Walks k fs R)
    (hE : Supply E k.blk 0) (hspare : R.Spare E 2)
    (hdang : fs.Dangles (walkStart k path) (components path) → E (.panic .ilockNoType))
    (hQ : ∀ r k', Arrived k.env k' fs R r
      (fs.target parent (walkStart k path) (components path)) → Q r k') :
    Wp E (namexBytes path parent) Q k := by
  unfold namexBytes namexStart
  rw [Wp.bind_iff]
  unfold walkStart at hdang hQ
  refine Wp.ite_iff.mpr ⟨fun hroot => ?_, fun hrel => ?_⟩
  · rw [if_pos hroot] at hdang hQ
    have hone := hspare.mono (Nat.le_succ 1)
    refine h.coherent.iget_wp hone ⟨Nat.le_refl 1, h.root⟩ fun ip k' hk' hlog => ?_
    exact namexLoop_wp hspare h.unlocked h.graph h.orphans _ k' ip _ path (Nat.lt_succ_self _)
      (hE.congr hlog) hk' hdang hQ
  obtain ⟨r, hr, hcwd⟩ := h.cwd
  have hinum := (h.coherent.names r hr).inum
  rw [if_neg hrel, hcwd, Option.map_some, Option.getD_some, hinum] at hdang hQ
  rw [Wp.bind_iff, getCwd_wp, hcwd]
  refine h.coherent.idup_wp hr fun k' hk' hlog => ?_
  exact namexLoop_wp hspare h.unlocked h.graph h.orphans _ k' r.ip _ path (Nat.lt_succ_self _)
    (hE.congr hlog) hk' hdang hQ

section

variable (h : Arrived c k fs R r goal)
include h

theorem Arrived.elim : r = none ∧ goal = none ∧ Coherent c k fs R ∨
      ∃ ip j name, r = some (ip, name) ∧ goal = some (j, name) ∧
        Coherent c k fs (⟨ip, j, false⟩ ::ₘ R) := by
  cases r with
  | none =>
    cases goal with
    | none => exact .inl ⟨rfl, rfl, h⟩
    | some g => exact False.elim h
  | some x =>
    cases goal with
    | none => exact False.elim h
    | some g =>
      obtain ⟨hname, hk⟩ := h
      exact .inr ⟨x.1, g.1, x.2, rfl, by rw [hname], hk⟩

theorem Arrived.holds : k.blk.Holds c.sb fs [] := by
  obtain ⟨_, _, hk⟩ | ⟨_, _, _, _, _, hk⟩ := h.elim
  · exact hk.holds
  · exact hk.holds

theorem Arrived.inum : (r.map fun x => ((k.icache x.1).inum, x.2)) = goal := by
  obtain ⟨rfl, rfl, _⟩ | ⟨ip, j, name, rfl, rfl, hk⟩ := h.elim
  · rfl
  · rw [Option.map_some, hk.entry.inum]

end

theorem Arrived.ref (h : Arrived c k' fs R r goal) (hk : Coherent c k fs R) (jp : InodeId) :
    (k'.icache jp).ref = (k.icache jp).ref + if r.map Prod.fst = some jp then 1 else 0 := by
  obtain ⟨rfl, _, hk'⟩ | ⟨ip, j, name, rfl, _, hk'⟩ := h.elim
  · change _ = _ + 0
    rw [hk'.ref, hk.ref, add_zero]
  · rw [hk'.ref, hk.ref, Refs.users_cons, Option.map_some]
    by_cases hj : ip = jp <;> simp [hj]

/-- `skipelem` yields the components of a path, and `namex` follows them: to the last
inode, or to the directory of the last component.  Only a lack of resources or an entry
that names a free inode stops it; so it returns if there are buffers and two entries of the
inode cache. -/
theorem namex_follows_components (h : Walks k fs R) (path : List UInt8) (parent : Bool) :
    elements (path.length + 1) path = some (components path) ∧
    (∀ r k', namexBytes path parent k = .ok (r, k') →
      (r.map fun x => ((k'.icache x.1).inum, x.2)) =
        fs.target parent (walkStart k path) (components path) ∧
      (parent = false → (r = none ↔ fs.Broken (walkStart k path) (components path))) ∧
      k'.blk.Holds k.sb fs [] ∧
      ∀ jp, (k'.icache jp).ref =
        (k.icache jp).ref + if r.map Prod.fst = some jp then 1 else 0) ∧
    (∀ e, namexBytes path parent k = .error e → e.scarce = true ∨
      e = .panic .ilockNoType ∧ fs.Dangles (walkStart k path) (components path)) ∧
    (k.blk.Room 0 → (∃ ip jp, ip ≠ jp ∧ (k.icache ip).ref = 0 ∧ (k.icache jp).ref = 0) →
      ¬fs.Dangles (walkStart k path) (components path) →
      ∃ r k', namexBytes path parent k = .ok (r, k')) := by
  have hwp : Wp (fun e => e.scarce = true ∨
      e = .panic .ilockNoType ∧ fs.Dangles (walkStart k path) (components path))
      (namexBytes path parent) (fun r k' => Arrived k.env k' fs R r
        (fs.target parent (walkStart k path) (components path))) k :=
    namexBytes_wp h (.read fun _ he => .inl he) (.inl fun _ he => .inl he)
      (fun hd => .inr ⟨rfl, hd⟩) fun _ _ hr => hr
  refine ⟨elements_eq _ _ (Nat.lt_succ_self _), ?_, fun e he => hwp.of_error he, ?_⟩
  swap
  · rintro hroom ⟨ip, jp, hne, hip, hjp⟩ hgood
    have hspare : R.Spare (fun _ => False) 2 := by
      refine .inr ⟨{ip, jp}, (Finset.card_pair hne).ge, fun a ha => ?_⟩
      rcases Finset.mem_insert.mp ha with rfl | ha
      · exact h.coherent.unused_of_ref hip
      · exact h.coherent.unused_of_ref (Finset.mem_singleton.mp ha ▸ hjp)
    have hret : Wp (fun _ => False) (namexBytes path parent) (fun _ _ => True) k :=
      namexBytes_wp h (.inr hroom) hspare hgood fun _ _ _ => trivial
    obtain ⟨r, k', hok, _⟩ := hret.returns
    exact ⟨r, k', hok⟩
  intro r k' hrun
  have harr := hwp.of_ok hrun
  refine ⟨harr.inum, ?_, ?_, fun jp => harr.ref h.coherent jp⟩
  · rintro rfl
    have htarget : fs.target false (walkStart k path) (components path) = none ↔
        fs.walk (walkStart k path) (components path) = none := Option.map_eq_none_iff
    rw [← FS.walk_eq_none, ← htarget, ← harr.inum, Option.map_eq_none_iff]
  · exact harr.holds

end

/-! ## A walk on the small disk -/

def homeSys : Sys :=
  { rootSys with
    proc := Function.update rootSys.proc rootSys.cur
      { cwd := some smallIp, ofile := fun _ => none } }

def homeRefs : Refs := {⟨smallIp, 1, false⟩}

theorem homeRefs_users (ip : InodeId) : homeRefs.users ip = if smallIp = ip then 1 else 0 := by
  change Refs.users (⟨smallIp, 1, false⟩ ::ₘ 0) ip = _
  rw [Refs.users_cons]
  exact Nat.zero_add _

theorem homeRefs_lockers (ip : InodeId) : homeRefs.lockers ip = 0 := by
  change Refs.lockers (⟨smallIp, 1, false⟩ ::ₘ 0) ip = _
  rw [Refs.lockers_cons_free]
  rfl

theorem homeRefs_used (h : homeRefs.users ip ≠ 0) : ip = smallIp := by
  rw [homeRefs_users] at h
  by_contra hne
  exact h (if_neg (Ne.symm hne))

theorem homeSys_other (h : smallIp ≠ ip) :
    (homeSys.icache ip).ref = 0 ∧ (homeSys.icache ip).lock = none := by
  have hip : homeSys.icache ip = smallSys.icache ip := Function.update_of_ne (Ne.symm h) ..
  have hne : ip.val ≠ 0 := fun hz => h (Fin.ext hz.symm)
  rw [hip]
  unfold smallSys
  simp only [if_neg hne, and_self]

theorem homeSys_coherent : Coherent homeSys.env homeSys smallFS homeRefs where
  env := rfl
  holds := (Blk.Holds.cold smallLayout 1 smallDisk).setLog rfl rfl rfl rfl
  calm := rfl
  idle := fun _ => rfl
  own := smallFS_own
  mapped := fun _ => smallFS_mapped
  ref := by
    intro ip
    rw [homeRefs_users]
    rcases eq_or_ne smallIp ip with rfl | hip
    · rfl
    · rw [if_neg hip, (homeSys_other hip).1]
      rfl
  lock := by
    intro ip
    rw [homeRefs_lockers, if_pos rfl]
    rcases eq_or_ne smallIp ip with rfl | hip
    · rfl
    · exact (homeSys_other hip).2
  alone := fun ip => by
    rw [homeRefs_lockers]
    exact Nat.zero_le 1
  names := by
    intro r hr
    obtain rfl := Multiset.mem_singleton.mp hr
    exact ⟨rfl, rfl, by decide, fun hx => by cases hx⟩
  key := fun ip jp hi hj _ => (homeRefs_used hi).trans (homeRefs_used hj).symm
  copy := by
    intro ip hi _
    obtain rfl := homeRefs_used hi
    change smallRoot = smallFS.ino 1 ∧ (smallFS.ino 1).type ≠ 0
    rw [smallFS_root]
    exact ⟨rfl, by decide⟩

theorem smallFS_type_file : (smallFS.ino 2).type ≠ T_DIR := by
  rw [smallFS_file]
  decide

theorem smallFS_graph : smallFS.Graph smallSb where
  dir := by
    intro i hi htype
    rcases smallFS_live hi with rfl | rfl
    · exact smallFS_dir
    · exact absurd htype smallFS_type_file
  range := by
    intro i hi name j hj
    unfold FS.enter at hj
    rcases smallFS_live hi with rfl | rfl
    · rw [if_pos smallFS_dir.type] at hj
      obtain ⟨n, hn⟩ := (SlotTable.find_eq_some smallFS_distinct).mp hj
      have hmem := mem_of_getElem? hn
      rw [smallFS_table] at hmem
      simp only [mem_cons, Option.some.injEq, Prod.mk.injEq, not_mem_nil, or_false] at hmem
      have hlt : smallSb.ninodes = 3 := rfl
      omega
    · rw [if_neg smallFS_type_file] at hj
      cases hj

theorem smallFS_linked (hi : smallFS.live smallSb i) : (smallFS.ino i).nlink ≠ 0 := by
  rcases smallFS_live hi with rfl | rfl
  · rw [smallFS_root]
    decide
  · rw [smallFS_file]
    decide

theorem homeSys_walks : Walks homeSys smallFS homeRefs where
  coherent := homeSys_coherent
  unlocked := homeRefs_lockers
  graph := smallFS_graph
  orphans := fun _ hi hz => absurd hz (smallFS_linked hi)
  root := by decide
  cwd := ⟨_, Multiset.mem_singleton_self _, rfl⟩

/-- After `begin_op`. -/
def Sys.begun (k : Sys) : Sys :=
  k.withBlk (k.blk.withLog { k.blk.log with outstanding := 1 })

theorem Walks.begun (h : Walks k fs R) : Walks k.begun fs R where
  coherent :=
    { h.coherent with
      env := rfl
      holds := h.coherent.holds.setLog rfl rfl rfl rfl
      idle := fun hlt => absurd hlt (Int.lt_irrefl 1) }
  unlocked := h.unlocked
  graph := h.graph
  orphans := h.orphans
  root := h.root
  cwd := h.cwd

/-- In a transaction `..//./f/` leads to inode 2. -/
theorem namex_follows_components_small : ∃ ip name k',
    namexBytes [46, 46, 47, 47, 46, 47, 102, 47] false homeSys.begun = .ok (some (ip, name), k') ∧
      (k'.icache ip).inum = 2 ∧ (k'.icache ip).ref = (homeSys.icache ip).ref + 1 := by
  have htarget : smallFS.target false 1 [dotdot, dot, [102]] = some (2, []) := by
    decide +kernel
  have hall : ∀ n < 3, (smallFS.walk 1 ([dotdot, dot, [102]].take n)).all
      (fun j => (smallFS.ino j).type ≠ 0) = true := by
    decide +kernel
  have hgood : ¬smallFS.Dangles 1 [dotdot, dot, [102]] := by
    rintro ⟨first, last, j, hnames, hne, hwalk, htype⟩
    have hlen := congrArg length hnames
    have hpos := length_pos_iff.mpr hne
    rw [length_append] at hlen
    have hj := hall first.length (by simp only [length_cons, length_nil] at hlen; omega)
    rw [hnames, take_left, hwalk] at hj
    simp [htype] at hj
  obtain ⟨_, harr, _, hret⟩ := namex_follows_components homeSys_walks.begun
    [46, 46, 47, 47, 46, 47, 102, 47] false
  obtain ⟨r, k', hok⟩ := hret ⟨by decide, by decide, by decide⟩
    ⟨⟨1, by decide⟩, ⟨2, by decide⟩, by decide, by decide, by decide⟩ hgood
  obtain ⟨hinum, _, _, href⟩ := harr r k' hok
  obtain ⟨x, rfl, hx⟩ := Option.map_eq_some_iff.mp (hinum.trans htarget)
  refine ⟨x.1, x.2, k', hok, congrArg Prod.fst hx, ?_⟩
  rw [href x.1, Option.map_some, if_pos rfl]
  rfl

end Xv6.Kernel
