import Xv6.Lib.Cycle
import Mathlib.Logic.Function.Basic
/-!
# Circular lists linked both ways

Each node has a pointer to the next node and one to the node before it.  A circle
is a node, the head, and a list of others in the order of the pointers.
-/

namespace Xv6.Lib

open Function List

namespace Path

variable {α : Type} {next prev : α → α} {a b x : α} {l : List α}

theorem exists_pred (h : Path next a l b) (hl : l ≠ []) : ∃ z ∈ l, next z = b := by
  induction l generalizing a with
  | nil => exact absurd rfl hl
  | cons x l ih =>
    obtain ⟨rfl, htail⟩ := h
    cases l with
    | nil => exact ⟨a, mem_cons_self, htail⟩
    | cons y l =>
      obtain ⟨z, hz, hb⟩ := ih htail (cons_ne_nil y l)
      exact ⟨z, mem_cons_of_mem a hz, hb⟩

/-- A path can be walked back where the links have an inverse. -/
theorem reverse (h : Path next a l b) (hinv : ∀ y ∈ l, prev (next y) = y) :
    Path prev (prev b) l.reverse (prev a) := by
  induction l generalizing a with
  | nil =>
    obtain rfl : a = b := h
    exact rfl
  | cons x l ih =>
    obtain ⟨rfl, htail⟩ := h
    have hback := ih htail fun y hy => hinv y (mem_cons_of_mem a hy)
    rw [hinv a mem_cons_self] at hback
    rw [reverse_cons]
    exact append_iff.mpr ⟨a, hback, rfl, rfl⟩

end Path

section Scan

variable {α β : Type} [DecidableEq α]

/-- Look at the nodes from `a` on, up to `h`, until one gives an answer. -/
def scan (step : α → α) (h : α) (f : α → Option β) : Nat → α → Option β
  | 0, _ => none
  | fuel + 1, a => if a = h then none else
      match f a with
      | some b => some b
      | none => scan step h f fuel (step a)

theorem scan_path {step : α → α} {h a : α} {f : α → Option β} {l : List α} {fuel : Nat}
    (hpath : Path step a l h) (hh : h ∉ l) (hfuel : l.length < fuel) :
    scan step h f fuel a = l.findSome? f := by
  induction l generalizing a fuel with
  | nil =>
    obtain rfl : a = h := hpath
    cases fuel with
    | zero => exact absurd hfuel (Nat.not_lt_zero _)
    | succ fuel => exact if_pos rfl
  | cons x l ih =>
    obtain ⟨rfl, htail⟩ := hpath
    cases fuel with
    | zero => exact absurd hfuel (Nat.not_lt_zero _)
    | succ fuel =>
      have hne : a ≠ h := fun heq => hh (by rw [heq]; exact mem_cons_self)
      rw [scan, if_neg hne, List.findSome?_cons]
      cases f a with
      | some b => rfl
      | none =>
        exact ih htail (fun hmem => hh (mem_cons_of_mem a hmem))
          (Nat.lt_of_succ_lt_succ hfuel)

end Scan

/-- The two pointers of every node. -/
structure Links (α : Type) where
  next : α → α
  prev : α → α

namespace Links

variable {α : Type} {k : Links α} {h x : α} {l l1 l2 : List α}

/-- From `h` the links lead through `l` and back to `h`. -/
structure Circle (k : Links α) (h : α) (l : List α) : Prop where
  nodup : (h :: l).Nodup
  path : Path k.next h (h :: l) h
  inv : ∀ y ∈ h :: l, k.prev (k.next y) = y

namespace Circle

section

variable (hc : k.Circle h l)
include hc

/-- The list is what is seen from the head. -/
theorem forward : Path k.next (k.next h) l h := hc.path.2

theorem backward : Path k.prev (k.prev h) l.reverse h := by
  have hback := hc.forward.reverse fun y hy => hc.inv y (mem_cons_of_mem h hy)
  rwa [hc.inv h mem_cons_self] at hback

theorem next_mem {y : α} (hy : y ∈ h :: l) : k.next y ∈ h :: l := by
  have hhead : ∀ m : List α, m.headD h ∈ h :: m := by
    intro m
    cases m with
    | nil => exact mem_cons_self
    | cons z m => exact mem_cons_of_mem h mem_cons_self
  rcases mem_cons.mp hy with rfl | hy
  · rw [← hc.forward.headD_eq]
    exact hhead l
  obtain ⟨l1, l2, rfl⟩ := append_of_mem hy
  rw [hc.forward.next_eq]
  rcases mem_cons.mp (hhead l2) with heq | hmem
  · rw [heq]
    exact mem_cons_self
  · exact mem_cons_of_mem h (mem_append_right l1 (mem_cons_of_mem y hmem))

theorem exists_pred {y : α} (hy : y ∈ h :: l) : ∃ z ∈ h :: l, k.next z = y := by
  rcases mem_cons.mp hy with rfl | hy
  · exact hc.path.exists_pred (cons_ne_nil y l)
  obtain ⟨l1, l2, rfl⟩ := append_of_mem hy
  have hpath : Path k.next h ((h :: l1) ++ y :: l2) h := hc.path
  obtain ⟨z, hz, hnext⟩ := hpath.split.1.exists_pred (cons_ne_nil h l1)
  exact ⟨z, mem_append_left (y :: l2) hz, hnext⟩

theorem next_prev {y : α} (hy : y ∈ h :: l) : k.next (k.prev y) = y := by
  obtain ⟨z, hz, rfl⟩ := hc.exists_pred hy
  rw [hc.inv z hz]

theorem next_inj {y z : α} (hy : y ∈ h :: l) (hz : z ∈ h :: l)
    (heq : k.next y = k.next z) : y = z := by
  rw [← hc.inv y hy, heq, hc.inv z hz]

end

end Circle

section Surgery

variable [DecidableEq α]

def setNext (k : Links α) (a b : α) : Links α := { k with next := update k.next a b }

def setPrev (k : Links α) (a b : α) : Links α := { k with prev := update k.prev a b }

def alone (k : Links α) (h : α) : Links α := (k.setPrev h h).setNext h h

def unlink (k : Links α) (x : α) : Links α :=
  let k₁ := k.setPrev (k.next x) (k.prev x)
  k₁.setNext (k₁.prev x) (k₁.next x)

def insert (k : Links α) (h x : α) : Links α :=
  let k₁ := k.setNext x (k.next h)
  let k₂ := k₁.setPrev x h
  let k3 := k₂.setPrev (k₂.next h) x
  k3.setNext h x

theorem unlink_next (k : Links α) (x : α) :
    (k.unlink x).next = update k.next (k.prev x) (k.next x) := by
  have hkeep : (k.setPrev (k.next x) (k.prev x)).prev x = k.prev x := by
    change update k.prev (k.next x) (k.prev x) x = k.prev x
    by_cases heq : x = k.next x
    · rw [← heq, update_self]
    · rw [update_of_ne heq]
  change update k.next ((k.setPrev (k.next x) (k.prev x)).prev x) (k.next x) = _
  rw [hkeep]

theorem unlink_prev (k : Links α) (x : α) :
    (k.unlink x).prev = update k.prev (k.next x) (k.prev x) := rfl

theorem insert_next (k : Links α) (h x : α) :
    (k.insert h x).next = update (update k.next x (k.next h)) h x := rfl

theorem insert_prev (k : Links α) (hne : h ≠ x) :
    (k.insert h x).prev = update (update k.prev x h) (k.next h) x := by
  have hkeep : ((k.setNext x (k.next h)).setPrev x h).next h = k.next h :=
    update_of_ne hne ..
  change update (update k.prev x h)
    (((k.setNext x (k.next h)).setPrev x h).next h) x = _
  rw [hkeep]

namespace Circle

theorem alone (k : Links α) (h : α) : (k.alone h).Circle h [] := by
  have hnext : (k.alone h).next h = h := update_self ..
  refine ⟨nodup_singleton h, ⟨rfl, hnext⟩, fun y hy => ?_⟩
  rw [mem_singleton.mp hy, hnext]
  exact update_self ..

/-- Taking a node out of the circle. -/
theorem unlink (hc : k.Circle h (l1 ++ x :: l2)) : (k.unlink x).Circle h (l1 ++ l2) := by
  have hmiddle : (x :: (h :: l1 ++ l2)).Nodup := nodup_middle.mp hc.nodup
  obtain ⟨hout, hnd⟩ := nodup_cons.mp hmiddle
  have hmem : ∀ y, y ∈ h :: l1 ++ l2 → y ∈ h :: (l1 ++ x :: l2) := fun y hy =>
    ((sublist_cons_self x l2).append_left (h :: l1)).subset hy
  -- the node before `x` ends the first part
  obtain ⟨a, z, haz⟩ : ∃ a z, h :: l1 = a ++ [z] :=
    ⟨_, _, (dropLast_append_getLast (cons_ne_nil h l1)).symm⟩
  have hcut : ∀ m, h :: l1 ++ m = a ++ z :: m := by
    intro m
    rw [haz, append_assoc]
    rfl
  have hpath : Path k.next h (h :: l1 ++ x :: l2) h := hc.path
  rw [hcut] at hpath
  obtain ⟨hbefore, hzx, hafter⟩ := hpath.split
  rw [hzx] at hafter
  have hzmem : z ∈ h :: l1 ++ l2 := by
    rw [hcut]
    exact mem_append_right a mem_cons_self
  have hprev : k.prev x = z := by
    rw [← hzx]
    exact hc.inv z (hmem z hzmem)
  have hz : (k.unlink x).next z = k.next x := by
    rw [unlink_next, hprev, update_self]
  have hother : ∀ y, y ≠ z → (k.unlink x).next y = k.next y := by
    intro y hy
    rw [unlink_next, hprev, update_of_ne hy]
  refine ⟨hnd, ?_, ?_⟩
  · change Path (k.unlink x).next h (h :: l1 ++ l2) h
    rw [hcut] at hnd ⊢
    obtain ⟨_, hndz, hdis⟩ := nodup_append.mp hnd
    refine Path.join (hbefore.congr fun y hy => hother y ?_) ?_
    · rintro rfl
      exact hdis y hy y mem_cons_self rfl
    rw [hz]
    refine hafter.congr fun y hy => hother y ?_
    rintro rfl
    exact (nodup_cons.mp hndz).1 hy
  · intro y hy
    rw [unlink_prev]
    by_cases hyz : y = z
    · rw [hyz, hz, update_self, hprev]
    have hyx : k.next y ≠ k.next x := by
      intro heq
      have hx : x ∈ h :: (l1 ++ x :: l2) :=
        mem_append_right (h :: l1) mem_cons_self
      obtain rfl := hc.next_inj (hmem y hy) hx heq
      exact hout hy
    rw [hother y hyz, update_of_ne hyx]
    exact hc.inv y (hmem y hy)

theorem insert (hc : k.Circle h l) (hx : x ∉ h :: l) : (k.insert h x).Circle h (x :: l) := by
  have hhx : h ≠ x := fun heq => hx (by rw [heq]; exact mem_cons_self)
  have hhead : (k.insert h x).next h = x := update_self ..
  have hnew : (k.insert h x).next x = k.next h := by
    rw [insert_next, update_of_ne hhx.symm, update_self]
  have hother : ∀ y ∈ l, (k.insert h x).next y = k.next y := by
    intro y hy
    have hyh : y ≠ h := by
      rintro rfl
      exact (nodup_cons.mp hc.nodup).1 hy
    have hyx : y ≠ x := by
      rintro rfl
      exact hx (mem_cons_of_mem h hy)
    rw [insert_next, update_of_ne hyh, update_of_ne hyx]
  refine ⟨?_, ⟨rfl, ?_⟩, ?_⟩
  · have hnd : (x :: ([h] ++ l)).Nodup := nodup_cons.mpr ⟨hx, hc.nodup⟩
    exact nodup_middle.mpr hnd
  · rw [hhead]
    refine ⟨rfl, ?_⟩
    rw [hnew]
    exact hc.forward.congr hother
  -- a pointer of the old circle does not lead to `x`
  have hold : ∀ y ∈ h :: l, k.next y ≠ x := by
    rintro y hy rfl
    exact hx (hc.next_mem hy)
  intro y hy
  rw [insert_prev k hhx]
  rcases mem_cons.mp hy with rfl | hy
  · rw [hhead, update_of_ne (hold y mem_cons_self).symm, update_self]
  rcases mem_cons.mp hy with rfl | hyl
  · rw [hnew, update_self]
  have hin := mem_cons_of_mem h hyl
  have hne : k.next y ≠ k.next h := by
    intro heq
    obtain rfl := hc.next_inj hin mem_cons_self heq
    exact (nodup_cons.mp hc.nodup).1 hyl
  rw [hother y hyl, update_of_ne hne, update_of_ne (hold y hin)]
  exact hc.inv y hin

end Circle

end Surgery

end Links

end Xv6.Lib
