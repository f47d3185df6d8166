import Xv6.Proofs.UserHeap
import Mathlib
/-!
# What `morecore` asks for

The number of bytes reaches `sbrk` as an `int`.  Below `2 ^ 31` bytes nothing is lost,
and `malloc` is the one whose heap is known to be well formed.
-/

namespace Xv6.User

open Xv6.Lib

variable {A : Arena} {E : Sbrk} {nbytes : UInt32}

namespace Heap

variable {h : Heap} {nu : UInt32}

theorem toInt_asked (hfit : HDR * nu.toNat < 2 ^ 31) :
    (asked nu).toInt = ((HDR * nu.toNat : Nat) : Int) :=
  Int32.toInt_ofNat_of_lt hfit

theorem sbrkInt_eq (hpos : 0 < nu.toNat) (hfit : HDR * nu.toNat < 2 ^ 31) :
    h.sbrkInt E nu = h.sbrk E nu := by
  have hheaders : HDR * nu.toNat / HDR = nu.toNat := Nat.mul_div_cancel_left _ (by decide)
  unfold sbrkInt
  simp only [toInt_asked hfit, Int.toNat_natCast, hheaders, UInt32.ofNat_toNat]
  exact if_pos (Int.natCast_pos.mpr (Nat.mul_pos (by decide) hpos))

theorem installed_pos (nu : UInt32) : 0 < (installed nu).toNat := by
  unfold installed
  split
  · decide
  · rename_i hge
    exact lt_of_lt_of_le (by decide) (UInt32.le_iff_toNat_le.mp (UInt32.not_lt.mp hge))

theorem installed_fits_iff : HDR * (installed nu).toNat < 2 ^ 31 ↔ HDR * nu.toNat < 2 ^ 31 := by
  unfold installed
  split
  · rename_i hlt
    have hlt : nu.toNat < 4096 := UInt32.lt_iff_toNat_lt.mp hlt
    simp only [HDR, UInt32.reduceToNat]
    omega
  · rfl

theorem mallocLoop_sbrkInt (hfit : HDR * nu.toNat < 2 ^ 31) (fuel : Nat) (h : Heap)
    (prevp p : Nat) :
    h.mallocLoop (sbrkInt E) nu fuel prevp p = h.mallocLoop (sbrk E) nu fuel prevp p := by
  induction fuel generalizing h prevp p with
  | zero => rfl
  | succ fuel ih =>
    unfold mallocLoop morecore
    simp only [sbrkInt_eq (installed_pos nu) (installed_fits_iff.mpr hfit), ih]

/-- If `morecore(nu)` installs a block, `sbrk` was asked for the size in its header, and
what it returned is that long. -/
def Granted (E : Sbrk) (h : Heap) (nu : UInt32) : Prop :=
  ∀ hp h', h.sbrkInt E (installed nu) = some (some hp, h') →
    (asked (installed nu)).toInt = HDR * (installed nu).toNat ∧
      h'.obtained = (hp, HDR * (installed nu).toNat) :: h.obtained

theorem granted_of_fits (hfit : HDR * nu.toNat < 2 ^ 31) : Granted E h nu := by
  intro hp h' hsbrk
  have hfit' := installed_fits_iff.mpr hfit
  refine ⟨toInt_asked hfit', ?_⟩
  rw [sbrkInt_eq (installed_pos nu) hfit'] at hsbrk
  unfold sbrk at hsbrk
  split at hsbrk
  · cases hsbrk
  split at hsbrk
  · cases hsbrk
    rfl
  · cases hsbrk

theorem asked_mod (nu : UInt32) : (asked nu).toInt % 16 = 0 := by
  unfold asked HDR
  rw [Int32.toInt_ofNat']
  have hsize : Int32.size = 2 ^ 32 := rfl
  simp only [Int.bmod, hsize]
  split <;> omega

def generous : Sbrk := ⟨fun _ => some 0, 2 ^ 27⟩

/-- What is left of a product that is not an `int` is another number, and granted where the
page of the break is there. -/
theorem not_granted (hfit : ¬ HDR * nu.toNat < 2 ^ 31) (hgot : h.got = [])
    (htop : h.top = 1) : ¬ Granted generous h nu := by
  intro hgranted
  have hlt := Int32.toInt_lt (asked (installed nu))
  have hinstalled := mt installed_fits_iff.mp hfit
  have hdvd := asked_mod (installed nu)
  -- accepted, be it a positive number or not
  obtain ⟨hp, h', hsbrk⟩ : ∃ hp h', h.sbrkInt generous (installed nu) = some (some hp, h') := by
    unfold sbrkInt
    simp only
    split
    · have hroom : h.units +
          (UInt32.ofNat ((asked (installed nu)).toInt.toNat / HDR)).toNat ≤ 2 ^ 27 := by
        unfold units
        rw [hgot, UInt32.toNat_ofNat']
        simp only [HDR, List.map_nil, List.sum_nil]
        omega
      exact ⟨_, _, if_pos hroom⟩
    · refine ⟨_, _, if_pos ?_⟩
      rw [htop]
      unfold PGROUNDUP
      split <;> omega
  have hasked := (hgranted hp h' hsbrk).1
  omega

end Heap

namespace Program

variable {s : Program} {e : Nat × UInt32} {x fuel ap : Nat} {h' : Heap}

theorem Inv.obtained (hs : Inv A s) (he : e ∈ s.live)
    (hge : e.1 ≤ x) (hlt : x < e.1 + e.2.toNat) : ∃ g ∈ s.heap.obtained, g.Mem x := by
  obtain ⟨fl, hwf⟩ := hs.wellFormed
  obtain ⟨_, hstop⟩ := hwf.usable e he
  have hblock : s.heap.block (e.1 - HDR) ∈ (fl ++ s.headers).map s.heap.block :=
    List.mem_map_of_mem (List.mem_append_right _ (List.mem_map_of_mem he))
  refine (hwf.tiles x).mp ⟨_, hblock, ?_, lt_of_lt_of_le hlt hstop⟩
  exact Nat.le_trans (Nat.sub_le ..) hge

theorem Inv.malloc_obtained (hs : Inv A s) (hE : E.limit < 2 ^ 32)
    (hrun : s.heap.malloc A (Heap.sbrk E) fuel nbytes = some (h', ap))
    (hap : ap ≠ 0) (hge : ap ≤ x) (hlt : x < ap + nbytes.toNat) : ∃ g ∈ h'.obtained, g.Mem x := by
  obtain ⟨N, r, hends, hinv⟩ := hs.malloc hE nbytes
  have hmono := malloc_mono hrun (Nat.le_max_left fuel N)
  rw [hends _ (Nat.le_max_right ..)] at hmono
  cases hmono
  rw [if_neg hap] at hinv
  exact hinv.obtained List.mem_cons_self hge hlt

/-- Exactly for requests whose size in bytes, with the header, is a positive `int`: if
`morecore` installs a block, `sbrk` was asked for and granted its size, and what
`malloc` returns lies in memory that `sbrk` returned.  Here `s` is the state after any
calls of which this is true, and `sbrk` returns less than `2 ^ 32` headers. -/
theorem malloc_obtained_iff (nbytes : UInt32) :
    ((∀ (E : Sbrk) (h : Heap), h.Granted E (nunits nbytes)) ∧
      ∀ (A : Arena) (E : Sbrk), E.limit < 2 ^ 32 → ∀ (mem : Nat → Header) (s : Program),
        Reaches (step A E) (fun _ _ => True) (init A mem) s → ∀ fuel h' ap,
          s.heap.malloc A (Heap.sbrkInt E) fuel nbytes = some (h', ap) → ap ≠ 0 →
            ∀ x, ap ≤ x → x < ap + nbytes.toNat → ∃ g ∈ h'.obtained, g.Mem x) ↔
      fits nbytes = true := by
  constructor
  · rintro ⟨hgranted, _⟩
    by_contra hfit
    have hlarge : ¬ HDR * (nunits nbytes).toNat < 2 ^ 31 := fun hlt => hfit (decide_eq_true hlt)
    exact Heap.not_granted (h := ⟨fun _ => ⟨0, 0⟩, 0, 0, 1, []⟩) hlarge rfl rfl (hgranted _ _)
  intro hfit
  refine ⟨fun E h => Heap.granted_of_fits (of_decide_eq_true hfit), ?_⟩
  intro A E hE mem s hs fuel h' ap hrun hap x hge hlt
  unfold Heap.malloc at hrun
  rw [Heap.mallocLoop_sbrkInt (of_decide_eq_true hfit)] at hrun
  exact (reaches_inv hE hs).malloc_obtained hE hrun hap hge hlt

def pageArena : Arena := ⟨4096, 12288, by decide, by decide⟩

/-- A process whose break is at a page calls `malloc(4294967295)`, which asks for the 16 bytes
of the header and returns the address behind them. -/
theorem malloc_obtains_nothing : ∃ (h' : Heap) (ap : Nat),
    (init pageArena
      fun _ => ⟨0, 0⟩).heap.malloc pageArena (Heap.sbrkInt Heap.generous) 4 4294967295 =
      some (h', ap) ∧ ap ≠ 0 ∧ (Heap.asked (nunits 4294967295)).toInt = 16 ∧
      h'.obtained = [(12288, 16)] ∧ ∀ x, ap ≤ x → ¬∃ g ∈ h'.obtained, g.Mem x := by
  have hrun : ((init pageArena fun _ => ⟨0, 0⟩).heap.malloc pageArena
      (Heap.sbrkInt Heap.generous) 4 4294967295).map (fun r => (r.1.got, r.2)) =
      some ([(12288, 1)], 12304) := by decide +kernel
  obtain ⟨⟨h', ap⟩, hmalloc, hres⟩ := Option.map_eq_some_iff.mp hrun
  obtain ⟨hgot, rfl⟩ := Prod.mk.inj hres
  have hobt : h'.obtained = [(12288, 16)] := by
    unfold Heap.obtained
    rw [show h'.got = _ from hgot]
    rfl
  refine ⟨h', 12304, hmalloc, by decide, by decide, hobt, fun x hx => ?_⟩
  rw [hobt]
  rintro ⟨g, hg, hge, hlt⟩
  obtain rfl := List.mem_singleton.mp hg
  simp only at hge hlt
  omega

end Program

end Xv6.User
