import Xv6.Machine.Bcache
import Xv6.Proofs.Cache
/-!
# The list of buffers is sound

The pointers form one circle through all buffers, in the order in which the buffers
were last moved to the front; the list the model of `bio.c` keeps is that circle.
-/

namespace Xv6.Kernel

open Xv6.Lib Function List

variable {l : List BufId} {i : BufId} {dev : Nat}

theorem findSome_filter {α : Type} (p : α → Bool) (l : List α) :
    (l.map some).findSome? (fun x => x.filter p) = l.find? p := by
  induction l with
  | nil => rfl
  | cons a l ih =>
    rw [map_cons, List.findSome?_cons, List.find?_cons, ih]
    cases hp : p a with
    | true => rw [Option.filter_some, hp]; rfl
    | false => rw [Option.filter_some, hp]; rfl

theorem pairwise_idxOf {α : Type} [DecidableEq α] {l : List α} (hnd : l.Nodup) :
    l.Pairwise fun a b => l.idxOf a < l.idxOf b := by
  rw [pairwise_iff_getElem]
  intro i j hi hj hij
  rw [hnd.idxOf_getElem i hi, hnd.idxOf_getElem j hj]
  exact hij

namespace Bcache

variable {c : Bcache} {b : Nat}

/-- The pointers lead through the buffers of `l`, which are all of them. -/
structure Linked (c : Bcache) (l : List BufId) : Prop where
  circle : c.links.Circle none (l.map some)
  all : ∀ i, i ∈ l

namespace Linked

section

variable (h : Linked c l) {c' : Bcache}
include h

theorem congr (heq : c'.links = c.links) : Linked c' l :=
  ⟨by rw [heq]; exact h.circle, h.all⟩

theorem nodup : l.Nodup :=
  List.Nodup.of_map some (nodup_cons.mp h.circle.nodup).2

theorem length_lt : l.length < NBUF + 1 := by
  have hle := h.nodup.length_le_card
  rw [Fintype.card_fin] at hle
  omega

theorem lookup_eq : c.lookup dev b = l.find? fun i => c.Caches dev b i := by
  unfold lookup
  rw [scan_path h.circle.forward (nodup_cons.mp h.circle.nodup).1, findSome_filter]
  rw [length_map]
  exact h.length_lt

theorem victim_eq : c.victim = l.reverse.find? fun i => (c.buf i).refcnt = 0 := by
  unfold victim
  have hback := h.circle.backward
  rw [← map_reverse] at hback
  have hhead : (none : Node) ∉ l.reverse.map some := by simp
  rw [scan_path hback hhead, findSome_filter]
  rw [length_map, length_reverse]
  exact h.length_lt

theorem touch (i : BufId) : Linked (c.touch i) (i :: l.erase i) := by
  refine ⟨?_, fun j => ?_⟩
  · obtain ⟨l1, l2, hnot, hl, herase⟩ := exists_erase_eq (h.all i)
    have hcircle := h.circle
    rw [hl, map_append, map_cons] at hcircle
    have hout := hcircle.unlink
    rw [← map_append, ← herase] at hout
    refine hout.insert ?_
    have hi : i ∉ l.erase i := h.nodup.not_mem_erase
    simp [hi]
  · by_cases hji : j = i
    · rw [hji]
      exact mem_cons_self
    · exact mem_cons_of_mem i ((mem_erase_of_ne hji).mpr (h.all j))

end

end Linked

theorem foldl_link (todo acc : List BufId) (hc : c.links.Circle none (acc.map some))
    (hnd : (todo.reverse ++ acc).Nodup) :
    (todo.foldl link c).links.Circle none ((todo.reverse ++ acc).map some) := by
  induction todo generalizing c acc with
  | nil => exact hc
  | cons i todo ih =>
    rw [reverse_cons, append_assoc, singleton_append] at hnd ⊢
    refine ih (i :: acc) ?_ hnd
    refine hc.insert ?_
    have hi : i ∉ acc := (nodup_cons.mp (nodup_append.mp hnd).2.1).1
    simp [hi]

theorem foldl_link_buf {todo : List BufId} (hc : ∀ j, c.buf j = Buf.initial) (j : BufId) :
    (todo.foldl link c).buf j = Buf.initial := by
  induction todo generalizing c with
  | nil => exact hc j
  | cons i todo ih =>
    refine ih fun k => ?_
    change update c.buf i { c.buf i with lock := none } k = Buf.initial
    by_cases hki : k = i
    · rw [hki, update_self, hc i]
      rfl
    · rw [update_of_ne hki]
      exact hc k

theorem binit_linked (c : Bcache) : Linked c.binit (List.finRange NBUF).reverse where
  circle := by
    have hnd : ((List.finRange NBUF).reverse ++ []).Nodup := by
      rw [append_nil]
      exact nodup_reverse.mpr (nodup_finRange NBUF)
    have hall := foldl_link (c := { c with links := c.links.alone none }) (List.finRange NBUF) []
      (Links.Circle.alone c.links none) hnd
    rwa [append_nil] at hall
  all := fun i => mem_reverse.mpr (mem_finRange i)

theorem bgetRef_found (hl : c.lookup dev b = some i) : c.bgetRef dev b = .ok (i, c.bpin i) := by
  unfold bgetRef
  rw [hl]
  rfl

theorem bgetRef_recycled (hl : c.lookup dev b = none) (hv : c.victim = some i) :
    c.bgetRef dev b = .ok (i, c.setBuf i
      { c.buf i with dev := dev, blockno := b, valid := false, refcnt := 1 }) := by
  unfold bgetRef
  rw [hl, hv]

theorem bgetRef_busy (hl : c.lookup dev b = none) (hv : c.victim = none) :
    c.bgetRef dev b = .error (.panic .bgetNoBuffers) := by
  unfold bgetRef
  rw [hl, hv]

/-! ## The model of `bio.c` -/

theorem binit_eq_reverse : Kernel.binit = (List.finRange NBUF).reverse := by decide +kernel

structure Refines (c : Bcache) (s : Blk) : Prop where
  buf : c.buf = s.buf
  linked : Linked c s.lru

namespace Refines

variable {s : Blk}

theorem binit (links : Links Node) (hbuf : s.buf = fun _ => Buf.initial)
    (hlru : s.lru = Kernel.binit) : Refines (Bcache.binit ⟨fun _ => Buf.initial, links⟩) s where
  buf := by
    rw [hbuf]
    funext j
    exact foldl_link_buf (fun _ => rfl) j
  linked := by
    rw [hlru, binit_eq_reverse]
    exact binit_linked _

section

variable (h : Refines c s)
include h

theorem setBuf (i : BufId) (x : Buf) : Refines (c.setBuf i x) (s.setBuf i x) where
  buf := by
    change update c.buf i x = update s.buf i x
    rw [h.buf]
  linked := h.linked.congr rfl

theorem lookup_eq : c.lookup dev b = s.lookup dev b := by
  obtain ⟨buf, links⟩ := c
  obtain rfl : buf = s.buf := h.buf
  exact h.linked.lookup_eq

theorem victim_eq : c.victim = s.victim := by
  obtain ⟨buf, links⟩ := c
  obtain rfl : buf = s.buf := h.buf
  exact h.linked.victim_eq

theorem bgetRef (dev b : Nat) :
    (∃ r c' s', c.bgetRef dev b = .ok (r, c') ∧ Kernel.bgetRef dev b s = .ok (r, s') ∧
      Refines c' s') ∨ ∃ e, c.bgetRef dev b = .error e ∧ Kernel.bgetRef dev b s = .error e := by
  cases hl : s.lookup dev b with
  | some i =>
    refine .inl ⟨i, _, _, bgetRef_found (h.lookup_eq.trans hl), bgetRef_hit hl, ?_⟩
    unfold bpin
    rw [h.buf]
    exact h.setBuf i _
  | none =>
    have hlc := h.lookup_eq.trans hl
    cases hv : s.victim with
    | some i =>
      refine .inl ⟨i, _, _, bgetRef_recycled hlc (h.victim_eq.trans hv), bgetRef_miss hl hv, ?_⟩
      rw [h.buf]
      exact h.setBuf i _
    | none => exact .inr ⟨_, bgetRef_busy hlc (h.victim_eq.trans hv), bgetRef_full hl hv⟩

theorem bdrop : ∃ s', Kernel.bdrop i s = .ok ((), s') ∧ Refines (c.bdrop i) s' := by
  refine ⟨_, bdrop_eq s i, ?_⟩
  unfold Bcache.bdrop
  rw [h.buf]
  have hset := h.setBuf i { s.buf i with refcnt := decr32 (s.buf i).refcnt }
  split
  · exact ⟨hset.buf, hset.linked.touch i⟩
  · exact hset

theorem withPid (pid : Nat) : Refines c { s with pid := pid } := ⟨h.buf, h.linked⟩

end

theorem step {x : CacheRun} (h : Refines x.cache s) (a : CacheCall) :
    Option.Rel (fun y t => Refines y.cache t) (x.step a) (listStep s a) := by
  cases a with
  | bget dev b =>
    rcases h.bgetRef dev b with ⟨r, c', s', hc, hs, h'⟩ | ⟨e, hc, hs⟩
    · simp only [CacheRun.step, listStep, callOnList, hc, hs]
      exact .some h'
    · simp only [CacheRun.step, listStep, callOnList, hc, hs]
      exact .none
  | acquiresleep pid i =>
    simp only [CacheRun.step, listStep, callOnList, Bcache.acquiresleep, h.buf]
    by_cases hfree : (s.buf i).lock = none
    · rw [if_pos hfree, acquiresleep_free (s := { s with pid := pid }) hfree]
      exact .some ((h.withPid pid).setBuf i _)
    · rw [if_neg hfree, acquiresleep_taken (s := { s with pid := pid }) hfree]
      exact .none
  | unlock pid i =>
    simp only [CacheRun.step, listStep, callOnList, Bcache.unlock, h.buf, unlockBuf, holdingsleep,
      bind, Prog.andThen, Prog.gets]
    by_cases hheld : (s.buf i).lock = some pid
    · rw [if_pos hheld, if_pos (decide_eq_true hheld)]
      exact .some ((h.withPid pid).setBuf i _)
    · rw [if_neg hheld, if_neg (by simpa using hheld)]
      exact .none
  | bdrop i =>
    obtain ⟨s', hs', h'⟩ := h.bdrop (i := i)
    simp only [CacheRun.step, listStep, callOnList, hs']
    exact .some h'
  | bpin i =>
    simp only [CacheRun.step, Bcache.bpin, h.buf]
    exact .some (h.setBuf i _)
  | bunpin i =>
    simp only [CacheRun.step, Bcache.bunpin, h.buf]
    exact .some (h.setBuf i _)

end Refines

/-- Any calls of any processes: the pointers do what the list does. -/
theorem pointers_refine_list (links : Links Node) (pid : Nat) (disk : Nat → Block)
    (calls : List CacheCall) :
    Option.Rel (fun x s => Refines x.cache s ∧ ∀ dev b,
        (x.cache.bgetRef dev b).map Prod.fst = (Kernel.bgetRef dev b s).map Prod.fst)
      (exec CacheRun.step (fun _ _ => true) (CacheRun.start links) calls)
      (exec listStep (fun _ _ => true) (powerOn pid disk) calls) := by
  have h := exec_rel (R := fun x s => Refines x.cache s) (s := CacheRun.start links)
    (t := powerOn pid disk) (fun _ _ a hR => hR.step a) (.binit links rfl rfl) calls
  generalize exec CacheRun.step (fun _ _ => true) (CacheRun.start links) calls = o,
    exec listStep (fun _ _ => true) (powerOn pid disk) calls = o' at h ⊢
  cases h with
  | none => exact .none
  | some h =>
    refine .some ⟨h, fun dev b => ?_⟩
    rcases h.bgetRef dev b with ⟨r, c', s', hc, hs, _⟩ | ⟨e, hc, hs⟩
    · rw [hc, hs]
      rfl
    · rw [hc, hs]
      rfl

end Bcache

/-! ## Runs -/

namespace CacheRun

variable {x y : CacheRun} {links : Links Node}

structure Inv (x : CacheRun) (l : List BufId) : Prop where
  linked : x.cache.Linked l
  moved : ∀ i, i ∈ x.moves
  order : l.Pairwise fun i j => x.moves.idxOf i < x.moves.idxOf j
  unique : ∀ i j, (x.cache.buf i).dev ≠ 0 → (x.cache.buf i).dev = (x.cache.buf j).dev →
    (x.cache.buf i).blockno = (x.cache.buf j).blockno → i = j

namespace Inv

variable {b : Buf}

theorem start (links : Links Node) : Inv (start links) (List.finRange NBUF).reverse where
  linked := Bcache.binit_linked _
  moved := fun i => mem_reverse.mpr (mem_finRange i)
  order := pairwise_idxOf (nodup_reverse.mpr (nodup_finRange NBUF))
  unique := by
    intro i _ hdev _ _
    have hbuf : (CacheRun.start links).cache.buf i = Buf.initial :=
      Bcache.foldl_link_buf (fun _ => rfl) i
    rw [hbuf] at hdev
    exact absurd rfl hdev

theorem setBuf (h : Inv x l) (i : BufId)
    (hnew : ∀ j, j ≠ i → b.dev ≠ 0 → ¬x.cache.Caches b.dev b.blockno j) :
    Inv { x with cache := x.cache.setBuf i b } l where
  linked := h.linked.congr rfl
  moved := h.moved
  order := h.order
  unique := by
    intro j k hdev hsame hno
    change (update x.cache.buf i b j).dev ≠ 0 at hdev
    change (update x.cache.buf i b j).dev = (update x.cache.buf i b k).dev at hsame
    change (update x.cache.buf i b j).blockno =
      (update x.cache.buf i b k).blockno at hno
    by_cases hj : j = i
    · by_cases hk : k = i
      · rw [hj, hk]
      rw [hj, update_self] at hdev hsame hno
      rw [update_of_ne hk] at hsame hno
      exact absurd ⟨hsame.symm, hno.symm⟩ (hnew k hk hdev)
    rw [update_of_ne hj] at hdev hsame hno
    by_cases hk : k = i
    · rw [hk, update_self] at hsame hno
      exact absurd ⟨hsame, hno⟩ (hnew j hj (hsame ▸ hdev))
    · rw [update_of_ne hk] at hsame hno
      exact h.unique j k hdev hsame hno

theorem keepBlock (h : Inv x l) (i : BufId) (hdev : b.dev = (x.cache.buf i).dev)
    (hno : b.blockno = (x.cache.buf i).blockno) : Inv { x with cache := x.cache.setBuf i b } l := by
  refine h.setBuf i fun j hj hne hcaches => hj ?_
  rw [hdev] at hne
  obtain ⟨hd, hb⟩ := hcaches
  exact (h.unique i j hne (hdev ▸ hd.symm) (hno ▸ hb.symm)).symm

variable {blockno : Nat}

section

variable (h : Inv x l) {r : BufId × Bcache} {a : CacheCall}
include h

theorem lookup_none (hl : x.cache.lookup dev blockno = none)
    (i : BufId) : ¬x.cache.Caches dev blockno i := by
  rw [h.linked.lookup_eq, List.find?_eq_none] at hl
  simpa using hl i (h.linked.all i)

theorem lookup_some (hl : x.cache.lookup dev blockno = some i) : x.cache.Caches dev blockno i := by
  rw [h.linked.lookup_eq] at hl
  simpa using List.find?_some hl

theorem bget (hrun : x.cache.bgetRef dev blockno = .ok r) : Inv { x with cache := r.2 } l := by
  cases hl : x.cache.lookup dev blockno with
  | some i =>
    rw [Bcache.bgetRef_found hl] at hrun
    cases hrun
    exact h.keepBlock i rfl rfl
  | none =>
    cases hv : x.cache.victim with
    | some i =>
      rw [Bcache.bgetRef_recycled hl hv] at hrun
      cases hrun
      exact h.setBuf i fun j _ _ => h.lookup_none hl j
    | none =>
      rw [Bcache.bgetRef_busy hl hv] at hrun
      cases hrun

theorem touch (i : BufId) : Inv ⟨x.cache.touch i, i :: x.moves⟩ (i :: l.erase i) where
  linked := h.linked.touch i
  moved := fun j => mem_cons_of_mem i (h.moved j)
  order := by
    have hpos : ∀ j ∈ l.erase i, (i :: x.moves).idxOf j = x.moves.idxOf j + 1 := by
      intro j hj
      refine idxOf_cons_ne x.moves ?_
      rintro rfl
      exact h.linked.nodup.not_mem_erase hj
    refine pairwise_cons.mpr ⟨fun j hj => ?_, ?_⟩
    · rw [idxOf_cons_self, hpos j hj]
      exact Nat.succ_pos _
    refine (h.order.sublist erase_sublist).imp_of_mem fun {j k} hj hk hlt => ?_
    rw [hpos j hj, hpos k hk]
    exact Nat.succ_lt_succ hlt
  unique := h.unique

theorem step (hstep : x.step a = some y) : ∃ l', Inv y l' := by
  cases a with
  | bget dev blockno =>
    obtain ⟨r, hrun, rfl⟩ := Option.map_eq_some_iff.mp hstep
    cases hget : x.cache.bgetRef dev blockno with
    | ok r' =>
      rw [hget] at hrun
      cases hrun
      exact ⟨l, h.bget hget⟩
    | error e =>
      rw [hget] at hrun
      cases hrun
  | acquiresleep pid i =>
    obtain ⟨c, hrun, rfl⟩ := Option.map_eq_some_iff.mp hstep
    unfold Bcache.acquiresleep at hrun
    split at hrun
    · cases hrun
      exact ⟨l, h.keepBlock i rfl rfl⟩
    · cases hrun
  | unlock pid i =>
    obtain ⟨c, hrun, rfl⟩ := Option.map_eq_some_iff.mp hstep
    unfold Bcache.unlock at hrun
    split at hrun
    · cases hrun
      exact ⟨l, h.keepBlock i rfl rfl⟩
    · cases hrun
  | bdrop i =>
    cases hstep
    have hkeep : Inv { x with cache := x.cache.bunpin i } l := h.keepBlock i rfl rfl
    unfold Bcache.bdrop
    by_cases hzero : decr32 (x.cache.buf i).refcnt = 0
    · rw [if_pos hzero, if_pos hzero]
      exact ⟨_, hkeep.touch i⟩
    · rw [if_neg hzero, if_neg hzero]
      exact ⟨l, hkeep⟩
  | bpin i =>
    cases hstep
    exact ⟨l, h.keepBlock i rfl rfl⟩
  | bunpin i =>
    cases hstep
    exact ⟨l, h.keepBlock i rfl rfl⟩

/-- The buffer that is recycled was moved to the front before every other one that is free. -/
theorem oldest (hv : x.cache.victim = some i) : (x.cache.buf i).refcnt = 0 ∧
      ∀ j, (x.cache.buf j).refcnt = 0 → x.moves.idxOf j ≤ x.moves.idxOf i := by
  rw [h.linked.victim_eq] at hv
  refine ⟨by simpa using List.find?_some hv, fun j hj => ?_⟩
  obtain ⟨_, l1, l2, hl, hbusy⟩ := List.find?_eq_some_iff_append.mp hv
  have hback : l = l2.reverse ++ i :: l1.reverse := by
    have hrev := congrArg List.reverse hl
    rwa [reverse_reverse, reverse_append, reverse_cons, append_assoc, singleton_append] at hrev
  have hmem := h.linked.all j
  have horder := h.order
  rw [hback] at hmem horder
  rcases mem_append.mp hmem with hbefore | hafter
  · exact Nat.le_of_lt ((pairwise_append.mp horder).2.2 j hbefore i mem_cons_self)
  rcases mem_cons.mp hafter with rfl | hafter
  · exact le_rfl
  · have hno := hbusy j (mem_reverse.mp hafter)
    simp [hj] at hno

theorem victim_none (hv : x.cache.victim = none) (j : BufId) : (x.cache.buf j).refcnt ≠ 0 := by
  rw [h.linked.victim_eq, List.find?_eq_none] at hv
  simpa using hv j (mem_reverse.mpr (h.linked.all j))

end

end Inv

/-- From `head` the pointers lead through each buffer once and back, `prev` undoes `next`, and
no block of a device is in two buffers. -/
structure ListSound (c : Bcache) : Prop where
  visits : ∃ l : List BufId, l.Nodup ∧ (∀ i, i ∈ l) ∧
    Xv6.Lib.Path c.links.next none (none :: l.map some) none
  prev_next : ∀ p, c.links.prev (c.links.next p) = p
  next_prev : ∀ p, c.links.next (c.links.prev p) = p
  unique : ∀ i j, (c.buf i).dev ≠ 0 → (c.buf i).dev = (c.buf j).dev →
    (c.buf i).blockno = (c.buf j).blockno → i = j

/-- What `bget` does: it finds the buffer that has the block, or recycles the free buffer that
was moved to the front longest ago; it fails if there is neither. -/
structure Gets (x : CacheRun) (dev blockno : Nat) : Prop where
  cached : (∃ i, x.cache.Caches dev blockno i) →
    ∃ i c, x.cache.bgetRef dev blockno = .ok (i, c) ∧ x.cache.Caches dev blockno i
  recycled : (¬∃ i, x.cache.Caches dev blockno i) → (∃ i, (x.cache.buf i).refcnt = 0) →
    ∃ i c, x.cache.bgetRef dev blockno = .ok (i, c) ∧ (x.cache.buf i).refcnt = 0 ∧
      ∀ j, (x.cache.buf j).refcnt = 0 → x.moves.idxOf j ≤ x.moves.idxOf i
  full : (¬∃ i, x.cache.Caches dev blockno i) → (¬∃ i, (x.cache.buf i).refcnt = 0) →
    x.cache.bgetRef dev blockno = .error (.panic .bgetNoBuffers)

theorem Inv.listSound (h : Inv x l) : ListSound x.cache := by
  have hmem : ∀ p : Node, p ∈ none :: l.map some := by
    intro p
    cases p with
    | none => exact mem_cons_self
    | some i => exact mem_cons_of_mem _ (mem_map_of_mem (h.linked.all i))
  exact ⟨⟨l, h.linked.nodup, h.linked.all, h.linked.circle.path⟩,
    fun p => h.linked.circle.inv p (hmem p), fun p => h.linked.circle.next_prev (hmem p), h.unique⟩

theorem Inv.gets (h : Inv x l) (dev blockno : Nat) : Gets x dev blockno := by
  have hmiss : (¬∃ i, x.cache.Caches dev blockno i) → x.cache.lookup dev blockno = none := by
    intro hno
    cases hl : x.cache.lookup dev blockno with
    | none => rfl
    | some i => exact absurd ⟨i, h.lookup_some hl⟩ hno
  refine ⟨?_, ?_, ?_⟩
  · rintro ⟨j, hj⟩
    cases hl : x.cache.lookup dev blockno with
    | none => exact absurd hj (h.lookup_none hl j)
    | some i => exact ⟨i, _, Bcache.bgetRef_found hl, h.lookup_some hl⟩
  · rintro hno ⟨j, hj⟩
    cases hv : x.cache.victim with
    | none => exact absurd hj (h.victim_none hv j)
    | some i => exact ⟨i, _, Bcache.bgetRef_recycled (hmiss hno) hv, h.oldest hv⟩
  · intro hno hbusy
    cases hv : x.cache.victim with
    | none => exact Bcache.bgetRef_busy (hmiss hno) hv
    | some i => exact absurd ⟨i, (h.oldest hv).1⟩ hbusy

/-- After `binit` and any calls of `bget`, `brelse`, `bpin` and `bunpin`, of any processes, the
list of buffers is sound and `bget` picks the right buffer. -/
theorem buffer_list_sound (h : Reaches step (fun _ _ => True) (start links) x) :
    ListSound x.cache ∧ ∀ dev blockno, Gets x dev blockno := by
  obtain ⟨l, hl⟩ : ∃ l, Inv x l := by
    refine h.invariant (I := fun y => ∃ l, Inv y l) ⟨_, Inv.start links⟩ ?_
    rintro u v a ⟨l, hl⟩ _ hstep
    exact hl.step hstep
  exact ⟨hl.listSound, hl.gets⟩

theorem NBUF_pos : 0 < NBUF := by decide

/-- The first buffer of the array is read and released: it is the one `binit` linked in first,
and it is moved to the front. -/
theorem buffer_list_sound_read : ∃ x,
    exec step (fun _ _ => true) (start ⟨id, id⟩) [.bget 1 7, .acquiresleep 5 ⟨0, NBUF_pos⟩,
      .unlock 5 ⟨0, NBUF_pos⟩, .bdrop ⟨0, NBUF_pos⟩] = some x ∧
    x.cache.links.next none = some ⟨0, NBUF_pos⟩ ∧ ListSound x.cache := by
  have hrun : (exec step (fun _ _ => true) (start ⟨id, id⟩) [.bget 1 7,
      .acquiresleep 5 ⟨0, NBUF_pos⟩, .unlock 5 ⟨0, NBUF_pos⟩, .bdrop ⟨0, NBUF_pos⟩]).map
        (fun x => x.cache.links.next none) = some (some ⟨0, NBUF_pos⟩) := by decide +kernel
  obtain ⟨x, hx, hfirst⟩ := Option.map_eq_some_iff.mp hrun
  have hreach : Reaches step (fun _ _ => True) (start ⟨id, id⟩) x :=
    Reaches.refl.exec (fun _ _ _ _ => trivial) hx
  exact ⟨x, hx, hfirst, (buffer_list_sound hreach).1⟩

end CacheRun

end Xv6.Kernel
