import Xv6.User.Grep
import Xv6.Lib.Lines
import Xv6.Proofs.Memmove
/-!
# `grep` prints the lines that match

Before each `read` the buffer holds what comes after the last newline so far, at its
beginning.  The loop goes on as long as that leaves room for another byte.
-/

namespace Xv6.User.Grep

open Xv6.Lib Function List

variable {m : Mem} {p q : UInt64} {n i j : Nat} {l xs pattern c input : List UInt8} {buf : Buffer}
  {fuel : Nat} {s : Run} {m' : Xv6.Mem}

/-! ## Bytes in memory -/

theorem byteAt_byteAt (p : UInt64) (i j : Nat) : byteAt (byteAt p i) j = byteAt p (i + j) := by
  unfold byteAt
  rw [UInt64.ofNat_add, UInt64.add_assoc]

theorem bytesAt_congr (h : ∀ i, i < n → m (byteAt p i) = m' (byteAt q i)) :
    bytesAt m p n = bytesAt m' q n := by
  induction n generalizing p q with
  | zero => rfl
  | succ n ih =>
    have h0 := h 0 (Nat.succ_pos n)
    rw [byteAt_zero, byteAt_zero] at h0
    have hrest := fun i hi => h (i + 1) (Nat.succ_lt_succ hi)
    simp only [byteAt_succ] at hrest
    rw [bytesAt, bytesAt, h0, ih hrest]

theorem bytesAt_add (m : Mem) (p : UInt64) (a b : Nat) :
    bytesAt m p (a + b) = bytesAt m p a ++ bytesAt m (byteAt p a) b := by
  induction a generalizing p with
  | zero =>
    rw [byteAt_zero, Nat.zero_add]
    rfl
  | succ a ih =>
    rw [Nat.succ_add, bytesAt, ih, byteAt_succ]
    rfl

theorem length_bytesAt (m : Mem) (p : UInt64) (n : Nat) : (bytesAt m p n).length = n := by
  induction n generalizing p with
  | zero => rfl
  | succ n ih => rw [bytesAt, length_cons, ih]

theorem bytesAt_update (h : ∀ i, i < n → byteAt p i ≠ q) (x : UInt8) :
    bytesAt (update m q x) p n = bytesAt m p n :=
  bytesAt_congr fun i hi => update_of_ne (h i hi) ..

theorem putBytes_of_ne (h : ∀ i, i < xs.length → byteAt p i ≠ q) : putBytes m p xs q = m q := by
  induction xs generalizing m p with
  | nil => rfl
  | cons x xs ih =>
    have h0 := h 0 (Nat.succ_pos _)
    rw [byteAt_zero] at h0
    rw [putBytes, ih fun i hi => byteAt_succ p i ▸ h (i + 1) (Nat.succ_lt_succ hi),
      update_of_ne h0.symm]

theorem bytesAt_putBytes (h : ∀ i j, i < j → j < xs.length → byteAt p i ≠ byteAt p j) :
    bytesAt (putBytes m p xs) p xs.length = xs := by
  induction xs generalizing m p with
  | nil => rfl
  | cons x xs ih =>
    have hne : ∀ i, i < xs.length → byteAt (p + 1) i ≠ p := by
      intro i hi
      have hne := h 0 (i + 1) (Nat.succ_pos i) (Nat.succ_lt_succ hi)
      rw [byteAt_zero, byteAt_succ] at hne
      exact hne.symm
    have hrest := fun i j hij hj => h (i + 1) (j + 1) (Nat.succ_lt_succ hij) (Nat.succ_lt_succ hj)
    simp only [byteAt_succ] at hrest
    rw [putBytes, length_cons, bytesAt, putBytes_of_ne hne, update_self, ih hrest]

/-! ## Strings -/

theorem strchr_skip (hl : bytesAt m p l.length = l) (h0 : 0 ∉ l) (hn : newline ∉ l) (k : Nat) :
    strchr m newline (l.length + k) p = strchr m newline k (byteAt p l.length) := by
  induction l generalizing p with
  | nil => rw [length_nil, Nat.zero_add, byteAt_zero]
  | cons x l ih =>
    obtain ⟨hx, hl⟩ := List.cons.inj hl
    rw [mem_cons, not_or] at h0 hn
    rw [length_cons, Nat.succ_add, strchr, hx, if_neg (Ne.symm h0.1), if_neg (Ne.symm hn.1),
      ih hl h0.2 hn.2, byteAt_succ]

theorem stringAt_eq (hl : bytesAt m p l.length = l) (h0 : 0 ∉ l)
    (hend : m (byteAt p l.length) = 0) (k : Nat) : stringAt m (l.length + (k + 1)) p = some l := by
  induction l generalizing p with
  | nil =>
    rw [length_nil, byteAt_zero] at hend
    rw [length_nil, Nat.zero_add, stringAt, if_pos hend]
  | cons x l ih =>
    obtain ⟨hx, hl⟩ := List.cons.inj hl
    rw [mem_cons, not_or] at h0
    rw [length_cons, byteAt_succ] at hend
    rw [length_cons, Nat.succ_add, stringAt, hx, if_neg (Ne.symm h0.1), ih hl h0.2 hend]
    rfl

def printed (pattern xs : List UInt8) : List UInt8 :=
  ((lines newline xs).filter (matchText pattern)).flatMap (· ++ [newline])

theorem printed_append_line (pattern : List UInt8) (h : newline ∉ l) (xs : List UInt8) :
    printed pattern (l ++ newline :: xs) =
      (if matchText pattern l = true then l ++ [newline] else []) ++ printed pattern xs := by
  unfold printed
  rw [lines_append_sep h, filter_cons]
  split_ifs <;> rfl

theorem printed_append (pattern xs ys : List UInt8) :
    printed pattern (xs ++ ys) =
      printed pattern xs ++ printed pattern (lastPart newline xs ++ ys) := by
  unfold printed
  rw [(lines_append newline xs ys).1, filter_append, flatMap_append]

structure TextAt (m : Mem) (p : UInt64) (xs : List UInt8) : Prop where
  bytes : bytesAt m p xs.length = xs
  nul : m (byteAt p xs.length) = 0
  none : 0 ∉ xs
  pos : 0 < p.toNat
  noWrap : NoWrap p (xs.length + 1)

theorem TextAt.ne_zero (h : TextAt m p xs) (hi : i ≤ xs.length) : byteAt p i ≠ 0 := by
  intro h0
  have hval := byteAt_toNat h.noWrap (Nat.lt_succ_of_le hi)
  rw [h0] at hval
  have := h.pos
  change 0 = _ at hval
  omega

theorem TextAt.ne (h : TextAt m p xs) (hi : i ≤ xs.length) (hj : j ≤ xs.length)
    (hij : i ≠ j) : byteAt p i ≠ byteAt p j :=
  byteAt_ne h.noWrap h.noWrap (Nat.lt_succ_of_le hi) (Nat.lt_succ_of_le hj) (by omega)

theorem TextAt.line (h : TextAt m p (l ++ newline :: xs)) :
    bytesAt m p l.length = l ∧ m (byteAt p l.length) = newline ∧
      ∀ x, TextAt (update m (byteAt p l.length) x) (byteAt p (l.length + 1)) xs ∧
        bytesAt (update m (byteAt p l.length) x) p l.length = l := by
  have hlen : (l ++ newline :: xs).length = l.length + (1 + xs.length) := by
    rw [length_append, length_cons, Nat.add_comm 1]
  have hbytes := h.bytes
  rw [hlen, bytesAt_add, bytesAt_add, byteAt_byteAt] at hbytes
  obtain ⟨hl, hrest⟩ := append_inj hbytes (length_bytesAt ..)
  obtain ⟨hnl, hxs⟩ := List.cons.inj hrest
  refine ⟨hl, hnl, fun x => ⟨⟨?_, ?_, ?_, ?_, ?_⟩, ?_⟩⟩
  · rw [bytesAt_update]
    · exact hxs
    intro i hi
    rw [byteAt_byteAt]
    exact h.ne (by omega) (by omega) (by omega)
  · rw [byteAt_byteAt, update_of_ne]
    · rw [← h.nul, hlen, Nat.add_assoc]
    · exact h.ne (by omega) (by omega) (by omega)
  · exact fun h0 => h.none (mem_append_right _ (mem_cons_of_mem _ h0))
  · rw [byteAt_toNat h.noWrap (by omega)]
    have := h.pos
    omega
  · have hno := h.noWrap
    unfold NoWrap at hno ⊢
    rw [byteAt_toNat h.noWrap (by omega)]
    omega
  · rw [bytesAt_update, hl]
    exact fun i hi => h.ne (by omega) (by omega) (by omega)

theorem byteAt_add_one (p : UInt64) (i : Nat) : byteAt p i + 1 = byteAt p (i + 1) :=
  byteAt_byteAt p i 1

theorem byteAt_sub (p : UInt64) (hi : i < 2 ^ 64) : (byteAt p i - p).toNat = i := by
  rw [byteAt, UInt64.add_comm, UInt64.add_sub_cancel, UInt64.toNat_ofNat', Nat.mod_eq_of_lt hi]

theorem scanLoop_eq (pattern : List UInt8) (h : TextAt s.mem p xs)
    (hfuel : xs.length + 1 < fuel) :
    ∃ mem k, scanLoop pattern fuel p s =
        some (byteAt p k, { s with mem := mem, out := s.out ++ printed pattern xs }) ∧
      k + (lastPart newline xs).length = xs.length ∧
      bytesAt mem (byteAt p k) (lastPart newline xs).length = lastPart newline xs := by
  induction xs using lines_induction newline generalizing fuel p s with
  | h0 l hl =>
    obtain ⟨fuel, rfl⟩ : ∃ f, fuel = l.length + (f + 1) + 1 := ⟨fuel - l.length - 2, by omega⟩
    refine ⟨s.mem, 0, ?_, ?_, ?_⟩
    · rw [scanLoop, strchr_skip h.bytes h.none hl, strchr, if_pos h.nul, printed,
        lines_of_not_mem hl]
      simp
    · rw [lastPart_of_not_mem hl, Nat.zero_add]
    · rw [lastPart_of_not_mem hl, byteAt_zero]
      exact h.bytes
  | hstep l xs hl ih =>
    obtain ⟨hbytes, hnl, hline⟩ := h.line
    rw [length_append, length_cons] at hfuel
    obtain ⟨fuel, rfl⟩ : ∃ f, fuel = l.length + (f + 1) + 1 := ⟨fuel - l.length - 2, by omega⟩
    have hnone : 0 ∉ l := fun h0 => h.none (mem_append_left _ h0)
    have hfound : strchr s.mem newline (l.length + (fuel + 1)) p = some (byteAt p l.length) := by
      rw [strchr_skip hbytes hnone hl, strchr, hnl, if_neg (by decide), if_pos rfl]
    have htext : stringAt (s.store (byteAt p l.length) 0).mem (l.length + (fuel + 1)) p = some l :=
      stringAt_eq (hline 0).2 hnone (update_self ..) fuel
    have hne : byteAt p l.length ≠ 0 := h.ne_zero (by rw [length_append]; omega)
    have hnext : ∀ x out, ∃ mem k, scanLoop pattern (l.length + (fuel + 1)) (byteAt p l.length + 1)
          { s with mem := update s.mem (byteAt p l.length) x, out := out } =
          some (byteAt p k, { s with mem := mem, out := out ++ printed pattern xs }) ∧
        k + (lastPart newline xs).length = (l ++ newline :: xs).length ∧
        bytesAt mem (byteAt p k) (lastPart newline xs).length = lastPart newline xs := by
      intro x out
      have hfuel : xs.length + 1 < l.length + (fuel + 1) := by omega
      obtain ⟨mem, k, hloop, hk, hrest⟩ := ih
        (s := { s with mem := update s.mem (byteAt p l.length) x, out := out })
        (hline x).1 hfuel
      refine ⟨mem, l.length + 1 + k, ?_, ?_, ?_⟩
      · rw [byteAt_add_one, hloop, byteAt_byteAt]
      · rw [length_append, length_cons]
        omega
      · rwa [← byteAt_byteAt]
    rw [scanLoop, hfound, Option.bind_some, if_neg hne]
    simp only [htext, Option.bind_some, lastPart_append_sep hl, printed_append_line pattern hl]
    split_ifs with hmatch
    · have hwritten : ((s.store (byteAt p l.length) 0).store (byteAt p l.length) newline).write p
          (byteAt p l.length + 1 - p).toNat =
          { s with
            mem := update s.mem (byteAt p l.length) newline
            out := s.out ++ (l ++ [newline]) } := by
        have hlen : l.length + 1 < 2 ^ 64 := by
          have := h.noWrap
          have := h.pos
          rw [NoWrap, length_append, length_cons] at *
          omega
        rw [byteAt_add_one, byteAt_sub p hlen, Run.write, Run.store, Run.store]
        simp only [update_idem, bytesAt_add, (hline newline).2]
        simp [bytesAt]
      obtain ⟨mem, k, hloop, hrest⟩ := hnext newline (s.out ++ (l ++ [newline]))
      rw [append_assoc] at hloop
      rw [hwritten]
      exact ⟨mem, k, hloop, hrest⟩
    · obtain ⟨mem, k, hloop, hrest⟩ := hnext 0 s.out
      exact ⟨mem, k, hloop, hrest⟩

/-! ## The whole input -/

structure Consumed (pattern : List UInt8) (buf : Buffer) (c : List UInt8) (s : Run) : Prop where
  out : s.out = printed pattern c
  last : bytesAt s.mem buf.addr (lastPart newline c).length = lastPart newline c
  lines : ∀ l ∈ lines newline c, l.length + 1 < BUFSIZE
  room : (lastPart newline c).length < BUFSIZE
  none : 0 ∉ c ++ s.input

theorem textAt_store (h : bytesAt s.mem buf.addr xs.length = xs)
    (h0 : 0 ∉ xs) (hlen : xs.length < BUFSIZE) :
    TextAt (s.store (byteAt buf.addr xs.length) 0).mem buf.addr xs where
  bytes := by
    rw [Run.store, bytesAt_update, h]
    intro i hi
    exact byteAt_ne buf.fits buf.fits (by omega) hlen (by omega)
  nul := update_self ..
  none := h0
  pos := buf.pos
  noWrap := by
    have := buf.fits
    unfold NoWrap
    omega

theorem bytesAt_read (hlen : n + xs.length < BUFSIZE) :
    bytesAt (putBytes m (byteAt buf.addr n) xs) buf.addr (n + xs.length) =
      bytesAt m buf.addr n ++ xs := by
  have hne : ∀ i j, i < BUFSIZE → j < BUFSIZE → i ≠ j → byteAt buf.addr i ≠ byteAt buf.addr j :=
    fun i j hi hj hij => byteAt_ne buf.fits buf.fits hi hj (by omega)
  rw [bytesAt_add, bytesAt_putBytes]
  · congr 1
    refine bytesAt_congr fun i hi => putBytes_of_ne fun j hj => ?_
    rw [byteAt_byteAt]
    exact hne _ _ (by omega) (by omega) (by omega)
  · intro i j hij hj
    rw [byteAt_byteAt, byteAt_byteAt]
    exact hne _ _ (by omega) (by omega) (by omega)

theorem bytesAt_memmove (hi : i + n < BUFSIZE) :
    bytesAt (memmove buf.addr (byteAt buf.addr i) (Int32.ofNat n) m).2 buf.addr n =
      bytesAt m (byteAt buf.addr i) n := by
  have hfits := buf.fits
  have hsize : BUFSIZE < 2 ^ 31 := by decide
  have hval : (Int32.ofNat n).toInt = n := Int32.toInt_ofNat_of_lt (by omega)
  have hnat : (Int32.ofNat n).toInt.toNat = n := by rw [hval, Int.toNat_natCast]
  have hpos : 0 ≤ Int32.ofNat n := Int32.le_iff_toInt_le.mpr (hval ▸ Int.natCast_nonneg n)
  have hdst : NoWrap buf.addr (Int32.ofNat n).toInt.toNat := by
    rw [hnat, NoWrap]
    omega
  have hsrc : NoWrap (byteAt buf.addr i) (Int32.ofNat n).toInt.toNat := by
    rw [hnat, NoWrap, byteAt_toNat hfits (by omega)]
    omega
  have hmoved := User.memmove_moved (m := m) hpos hdst hsrc
  rw [hnat] at hmoved
  exact bytesAt_congr hmoved.moved

theorem read_eq (split : Nat → Nat) (s : Run) (p : UInt64) (n : Nat) :
    ∃ k, k ≤ n ∧ k ≤ s.input.length ∧ (k = 0 → n = 0 ∨ s.input = []) ∧
      s.read split p n = (k, { s with
        mem := putBytes s.mem p (s.input.take k)
        input := s.input.drop k
        reads := s.reads + 1 }) := by
  refine ⟨_, ?_, ?_, ?_, rfl⟩
  · omega
  · omega
  · rw [← length_eq_zero_iff]
    omega

theorem Consumed.round
    (h : Consumed pattern buf c s) (hfuel : BUFSIZE < fuel) (ys : List UInt8) (t : Run)
    (hlen : (lastPart newline c).length + ys.length < BUFSIZE)
    (hin : s.input = ys ++ t.input) (hout : t.out = s.out)
    (hmem : t.mem = putBytes s.mem (byteAt buf.addr (lastPart newline c).length) ys) :
    ∃ mem k, scanLoop pattern fuel buf.addr
        (t.store (byteAt buf.addr ((lastPart newline c).length + ys.length)) 0) =
        some (byteAt buf.addr k, { t with mem := mem, out := printed pattern (c ++ ys) }) ∧
      (lastPart newline c).length + ys.length - (byteAt buf.addr k - buf.addr).toNat =
        (lastPart newline (c ++ ys)).length ∧
      Consumed pattern buf (c ++ ys) { t with
        mem := (memmove buf.addr (byteAt buf.addr k)
          (Int32.ofNat (lastPart newline (c ++ ys)).length) mem).2
        out := printed pattern (c ++ ys) } := by
  obtain ⟨hlines, hlast⟩ := lines_append newline c ys
  have hnone := h.none
  rw [hin, ← append_assoc] at hnone
  have htext : TextAt (t.store (byteAt buf.addr (lastPart newline c ++ ys).length) 0).mem buf.addr
      (lastPart newline c ++ ys) := by
    refine textAt_store ?_ ?_ (by rwa [length_append])
    · rw [hmem, length_append, bytesAt_read hlen, h.last]
    intro h0
    refine hnone (mem_append_left _ (mem_append.mpr ?_))
    exact (mem_append.mp h0).imp_left fun hc => (lastPart_suffix newline c).subset hc
  have hfuel : (lastPart newline c ++ ys).length + 1 < fuel := by
    rw [length_append]
    omega
  obtain ⟨mem, k, hscan, hk, hbytes⟩ := scanLoop_eq pattern htext hfuel
  rw [length_append] at hscan hk
  rw [← hlast] at hk hbytes
  refine ⟨mem, k, ?_, ?_, ?_, ?_, ?_, ?_, ?_⟩
  · rw [hscan, printed_append pattern c, ← h.out, ← hout]
    rfl
  · rw [byteAt_sub _ (lt_of_le_of_lt (by omega : k ≤ BUFSIZE) (by decide))]
    omega
  · rfl
  · rw [bytesAt_memmove (by omega), hbytes]
  · intro l hl
    rw [hlines, mem_append] at hl
    rcases hl with hl | hl
    · exact h.lines l hl
    have hlt := length_lines _ l hl
    rw [length_append] at hlt
    omega
  · omega
  · exact hnone

theorem grepLoop_eq (pattern : List UInt8) (split : Nat → Nat) (buf : Buffer)
   (h : Consumed pattern buf c s)
    (hfuel : s.input.length + BUFSIZE < fuel) :
    ∃ t d, grepLoop pattern split buf fuel (lastPart newline c).length s = some t ∧
      Consumed pattern buf d t ∧ d ++ t.input = c ++ s.input ∧
      (t.input ≠ [] → (lastPart newline d).length + 1 = BUFSIZE) := by
  induction fuel generalizing s c with
  | zero => exact absurd hfuel (Nat.not_lt_zero _)
  | succ fuel ih =>
    have hroom := h.room
    obtain ⟨k, hk, hkin, hk0, hread⟩ :=
      read_eq split s (byteAt buf.addr (lastPart newline c).length)
        (BUFSIZE - (lastPart newline c).length - 1)
    rw [grepLoop, hread]
    simp only
    by_cases hpos : k > 0
    · have hlen : (s.input.take k).length = k := length_take_of_le hkin
      obtain ⟨mem, j, hscan, hm, hnext⟩ := h.round (by omega : BUFSIZE < fuel) (s.input.take k)
        { s with mem := _, input := s.input.drop k, reads := s.reads + 1 } (by omega)
        (take_append_drop k s.input).symm rfl rfl
      rw [hlen] at hscan hm
      rw [if_pos hpos, hscan]
      simp only [Option.bind_some]
      rw [if_pos (by omega), hm]
      obtain ⟨t, d, hloop, hd, hall, hfull⟩ := ih hnext (by
        rw [length_drop]
        omega)
      refine ⟨t, d, hloop, hd, ?_, hfull⟩
      rw [hall, append_assoc]
      exact congrArg (c ++ ·) (take_append_drop k s.input)
    · obtain rfl : k = 0 := by omega
      rw [if_neg hpos]
      refine ⟨_, c, rfl, ⟨h.out, h.last, h.lines, h.room, h.none⟩, rfl, ?_⟩
      intro hne
      have hfull := (hk0 rfl).resolve_right hne
      omega

theorem grep_consumed (pattern : List UInt8) (split : Nat → Nat) (buf : Buffer) (mem : Mem)
    (h0 : 0 ∉ input) (hfuel : input.length + BUFSIZE < fuel) :
    ∃ t d, grep pattern split buf fuel mem input = some t ∧ Consumed pattern buf d t ∧
      d ++ t.input = input ∧ (t.input ≠ [] → (lastPart newline d).length + 1 = BUFSIZE) := by
  have hlast : lastPart newline [] = [] := lastPart_of_not_mem not_mem_nil
  have hlines : lines newline [] = [] := lines_of_not_mem not_mem_nil
  have hstart : Consumed pattern buf [] ⟨mem, input, 0, []⟩ := by
    refine ⟨?_, ?_, ?_, ?_, h0⟩
    · rw [printed, hlines]
      rfl
    · rw [hlast]
      rfl
    · rw [hlines]
      exact fun l hl => absurd hl not_mem_nil
    · rw [hlast]
      decide
  have hloop := grepLoop_eq pattern split buf hstart hfuel
  rwa [hlast] at hloop

/-- `grep` has printed the lines of the input that match, and read all of it. -/
def Complete (pattern input : List UInt8) (t : Run) : Prop :=
  t.input = [] ∧ t.out = printed pattern input

/-- Every line fits in the buffer with its newline and a NUL, and so does what follows the
last line with a NUL. -/
def Fits (input : List UInt8) : Prop :=
  (∀ l ∈ lines newline input, l.length + 1 < BUFSIZE) ∧ (lastPart newline input).length < BUFSIZE

/-- `grep` ends, and has done its job exactly when the lines fit in its buffer. -/
theorem grep_iff (pattern : List UInt8) (split : Nat → Nat) (buf : Buffer) (mem : Mem)
    (input : List UInt8) (h0 : 0 ∉ input) (fuel : Nat) (hfuel : input.length + BUFSIZE < fuel) :
    ∃ t, grep pattern split buf fuel mem input = some t ∧
      (Complete pattern input t ↔ Fits input) := by
  obtain ⟨t, d, hgrep, hd, rfl, hfull⟩ := grep_consumed pattern split buf mem h0 hfuel
  refine ⟨t, hgrep, fun h => ?_, fun hfits => ?_⟩
  · rw [h.1, append_nil]
    exact ⟨hd.lines, hd.room⟩
  have hend : t.input = [] := by
    by_contra hne
    have hlen := hfull hne
    rcases lastPart_append newline d hne with ⟨l, hl, hle⟩ | hlt
    · have := hfits.1 l hl
      omega
    · have := hfits.2
      omega
  refine ⟨hend, ?_⟩
  rw [hend, append_nil, hd.out]

def pageTwo : Buffer := ⟨0x2000, by decide, by decide⟩

theorem grep_two_lines :
    ∃ t, grep [97] (fun _ => 1) pageTwo 2000 (fun _ => 0) [97, 98, 10, 98, 10] = some t ∧
      Complete [97] [97, 98, 10, 98, 10] t := by
  obtain ⟨t, ht, hiff⟩ := grep_iff [97] (fun _ => 1) pageTwo (fun _ => 0) [97, 98, 10, 98, 10]
    (by decide) 2000 (by decide)
  exact ⟨t, ht, hiff.mpr ⟨by decide, by decide⟩⟩

/-- A line of 1023 bytes is not printed, although it matches. -/
theorem grep_long_line :
    let input := List.replicate 1023 97 ++ [newline]
    ∃ t, grep [97] (fun _ => 1023) pageTwo 4096 (fun _ => 0) input = some t ∧
      ¬Complete [97] input t := by
  intro input
  have hlong : newline ∉ List.replicate 1023 97 := by
    rw [mem_replicate]
    decide
  have h0 : (0 : UInt8) ∉ input := by
    rw [mem_append, mem_replicate]
    decide
  have hlen : input.length + BUFSIZE < 4096 := by
    rw [length_append, length_replicate]
    decide
  obtain ⟨t, d, hgrep, hd, hall, -⟩ :=
    grep_consumed [97] (fun _ => 1023) pageTwo (fun _ => 0) h0 hlen
  refine ⟨t, hgrep, fun h => ?_⟩
  rw [h.1, append_nil] at hall
  have hline := hd.lines (List.replicate 1023 97) (by
    rw [hall, lines_append_sep hlong]
    exact mem_cons_self)
  rw [length_replicate] at hline
  exact absurd hline (by decide)

end Xv6.User.Grep
