import Xv6.User.Printf
import Xv6.Lib.Numeral
/-!
# What `printf` prints

A format is a list of literal characters and conversions.  Each conversion prints
the canonical numeral of its argument, except that `%l` is given to `printint`, which
takes an `int`.
-/

namespace Xv6.User.Printf

open Xv6.Lib List

variable {n : Nat} {base : UInt32}

/-! ## `printint` -/

theorem digitLoop_eq {x : UInt32} {room : Nat} (hb : 1 < base.toNat) (buf : List UInt8)
    (hroom : (lowDigits base.toNat x.toNat).length ≤ room) : digitLoop base room x buf =
      some (room - (lowDigits base.toNat x.toNat).length,
        buf ++ (lowDigits base.toNat x.toNat).map digit) := by
  have hmod : (x % base).toNat = x.toNat % base.toNat := UInt32.toNat_mod ..
  have hdiv : (x / base).toNat = x.toNat / base.toNat := UInt32.toNat_div ..
  induction room generalizing x buf with
  | zero =>
    rw [length_lowDigits hb] at hroom
    exact absurd hroom (Nat.not_succ_le_zero _)
  | succ room ih =>
    rw [digitLoop, hmod]
    by_cases hlt : x.toNat < base.toNat
    · have hlast : x / base = 0 := UInt32.toNat_inj.mp (hdiv.trans (Nat.div_eq_of_lt hlt))
      rw [hlast, lowDigits_of_lt hlt, Nat.mod_eq_of_lt hlt]
      rfl
    rw [lowDigits_of_le hb (not_lt.mp hlt), ← hdiv] at hroom ⊢
    have hmore : x / base ≠ 0 := by
      intro h0
      rw [h0] at hdiv
      exact (Nat.div_pos (not_lt.mp hlt) (by omega)).ne hdiv
    simp only [if_pos hmore]
    rw [ih _ (Nat.le_of_succ_le_succ hroom) (UInt32.toNat_mod ..) (UInt32.toNat_div ..)]
    simp [Nat.add_sub_add_right]

theorem length_lowDigits_le (hb : 10 ≤ n) (x : UInt32) : (lowDigits n x.toNat).length ≤ 10 := by
  have hlog : Nat.log n x.toNat < 10 := by
    refine Nat.log_lt_of_lt_pow' (by decide) ?_
    exact lt_of_lt_of_le (lt_trans x.toNat_lt (by decide)) (Nat.pow_le_pow_left hb 10)
  rw [length_lowDigits (by omega)]
  exact hlog

theorem printint_eq (xx : Int32) (hb : 10 ≤ base.toNat) (sgn : Bool) : printint xx base sgn =
      some (if sgn = true ∧ xx < 0 then '-'.toUInt8 :: numeral digit base.toNat (-xx).toUInt32.toNat
        else numeral digit base.toNat xx.toUInt32.toNat) := by
  unfold printint
  split_ifs with hneg
  · have hlen := length_lowDigits_le hb (-xx).toUInt32
    simp only [if_pos hneg]
    rw [digitLoop_eq (by omega) [] (by omega)]
    simp only [nil_append, reverse_append]
    rw [if_neg (by omega)]
    rfl
  · have hlen := length_lowDigits_le hb xx.toUInt32
    simp only [if_neg hneg]
    rw [digitLoop_eq (by omega) [] (by omega)]
    rfl

/-- The digits as they are written. -/
def figures : List UInt8 := "0123456789ABCDEF".toList.map Char.toUInt8

def figure (d : Nat) : UInt8 := figures.getD d 0

theorem digit_eq : digit = figure := by
  have htable : digits = figures := by decide +kernel
  funext d
  rw [digit, htable, figure]

def decimal (z : Int) : List UInt8 :=
  if z < 0 then '-'.toUInt8 :: numeral figure 10 z.natAbs else numeral figure 10 z.natAbs

/-- The negation wraps only for the smallest number, and is right as an unsigned one. -/
theorem toNat_neg_toUInt32 {xx : Int32} (h : xx.toInt < 0) :
    (-xx).toUInt32.toNat = xx.toInt.natAbs := by
  have hval := toNat_toUInt32 (-xx)
  have hmin := Int32.le_toInt xx
  rw [Int32.toInt_neg, Int.bmod_def] at hval
  split_ifs at hval <;> omega

theorem printint_signed (xx : Int32) : printint xx 10 true = some (decimal xx.toInt) := by
  rw [printint_eq xx (by decide) true, decimal, digit_eq]
  by_cases hneg : xx.toInt < 0
  · rw [if_pos ⟨rfl, Int32.lt_iff_toInt_lt.mpr hneg⟩, if_pos hneg, toNat_neg_toUInt32 hneg]
    rfl
  have hval := toNat_toUInt32_of_nonneg (not_lt.mp hneg)
  rw [if_neg fun h => hneg (Int32.lt_iff_toInt_lt.mp h.2), if_neg hneg, ← hval]
  rfl

/-! ## `printptr` -/

def hex16 (x : UInt64) : List UInt8 :=
  (List.range 16).map fun i => figure (x.toNat / 16 ^ (15 - i) % 16)

theorem pointerLoop_eq (x : UInt64) (hn : n ≤ 16) :
    pointerLoop n x = (List.range n).map fun i => digit (x.toNat / 16 ^ (15 - i) % 16) := by
  induction n generalizing x with
  | zero => rfl
  | succ n ih =>
    rw [pointerLoop, ih _ (by omega), range_succ_eq_map, map_cons, map_map]
    congr 1
    · have hlt : x.toNat / 16 ^ 15 < 16 := Nat.div_lt_of_lt_mul x.toNat_lt
      rw [UInt64.toNat_shiftRight, Nat.shiftRight_eq_div_pow, Nat.sub_zero, Nat.mod_eq_of_lt hlt]
      rfl
    refine map_congr_left fun i hi => ?_
    have hi := mem_range.mp hi
    have hshift : (x <<< 4).toNat = x.toNat * 16 % 16 ^ 16 := by
      rw [UInt64.toNat_shiftLeft, Nat.shiftLeft_eq]
      rfl
    obtain ⟨k, hk⟩ : ∃ k, 15 - i = k + 1 := ⟨14 - i, by omega⟩
    have hpow : (16 : Nat) ^ 16 = 16 ^ (k + 1) * 16 ^ (15 - k) := by
      rw [← Nat.pow_add]
      congr 1
      omega
    rw [Function.comp_apply, hshift, hk, hpow, Nat.mod_mul_right_div_self,
      Nat.mod_mod_of_dvd _ (dvd_pow_self 16 (by omega)), Nat.pow_succ,
      Nat.mul_div_mul_right _ _ (by decide : 0 < 16), Nat.succ_eq_add_one,
      show 15 - (i + 1) = k by omega]

theorem printptr_eq (x : UInt64) : printptr x = '0'.toUInt8 :: 'x'.toUInt8 :: hex16 x := by
  rw [printptr, pointerLoop_eq x (Nat.le_refl 16), digit_eq]
  rfl

/-! ## The format -/

inductive Piece where
  | lit (c : UInt8)
  | conv (c : UInt8)

def pieces : List UInt8 → List Piece
  | [] => []
  | [c] => if c = '%'.toUInt8 then [] else [.lit c]
  | c :: d :: fmt => if c = '%'.toUInt8 then .conv d :: pieces fmt else .lit c :: pieces (d :: fmt)

namespace Piece

def takes : Piece → Nat
  | .lit _ => 0
  | .conv c =>
    if c ∈ ['d'.toUInt8, 'l'.toUInt8, 'x'.toUInt8, 'p'.toUInt8, 's'.toUInt8, 'c'.toUInt8] then 1
    else 0

/-- What stands for a piece in the output, given the next argument. -/
def shown (str : UInt64 → List UInt8) (a : UInt64) : Piece → List UInt8
  | .lit c => [c]
  | .conv c => if c = 'd'.toUInt8 then decimal a.toUInt32.toInt32.toInt
    else if c = 'l'.toUInt8 then numeral figure 10 a.toNat
    else if c = 'x'.toUInt8 then numeral figure 16 a.toUInt32.toNat
    else if c = 'p'.toUInt8 then '0'.toUInt8 :: 'x'.toUInt8 :: hex16 a
    else if c = 's'.toUInt8 then if a = 0 then null else str a
    else if c = 'c'.toUInt8 then [a.toUInt8] else if c = '%'.toUInt8 then [c] else ['%'.toUInt8, c]

/-- The argument as the code reads it: `%l` passes it as an `int`. -/
def narrowed (a : UInt64) : Piece → UInt64
  | .lit _ => a
  | .conv c => if c = 'l'.toUInt8 then a.toUInt32.toUInt64 else a

end Piece

/-- The pieces with the arguments that are next when their turn comes. -/
def withArgs (args : Nat → UInt64) : List Piece → Nat → List (Piece × UInt64)
  | [], _ => []
  | p :: ps, ap => (p, args ap) :: withArgs args ps (ap + p.takes)

/-- The literal characters of the format, with each conversion replaced. -/
def rendered (str : UInt64 → List UInt8) (fmt : List UInt8) (args : Nat → UInt64) : List UInt8 :=
  (withArgs args (pieces fmt) 0).flatMap fun e => e.1.shown str e.2

variable {str : UInt64 → List UInt8} {args : Nat → UInt64}

theorem printint_unsigned (x : UInt32) (hb : 10 ≤ base.toNat) :
    printint x.toInt32 base false = some (numeral figure base.toNat x.toNat) := by
  rw [printint_eq _ hb, if_neg fun h => Bool.false_ne_true h.1, digit_eq]
  rfl

theorem convert_eq (str : UInt64 → List UInt8) (c : UInt8) (a : UInt64) : convert str c a =
      some ((Piece.conv c).shown str ((Piece.conv c).narrowed a), (Piece.conv c).takes) := by
  by_cases hd : c = 'd'.toUInt8
  · rw [hd, convert, if_pos rfl, printint_signed]
    rfl
  by_cases hl : c = 'l'.toUInt8
  · rw [hl, convert, if_neg (by decide), if_pos rfl, printint_unsigned _ (by decide)]
    rfl
  by_cases hx : c = 'x'.toUInt8
  · rw [hx, convert, if_neg (by decide), if_neg (by decide), if_pos rfl,
      printint_unsigned _ (by decide)]
    rfl
  simp only [convert, Piece.shown, Piece.narrowed, Piece.takes, printptr_eq,
    mem_cons, not_mem_nil, hd, hl, hx, false_or, or_false]
  split_ifs <;> simp_all

theorem vprintfLoop_eq (fmt : List UInt8) (ap : Nat) : vprintfLoop str args fmt false ap =
      some ((withArgs args (pieces fmt) ap).flatMap fun e => e.1.shown str (e.1.narrowed e.2)) := by
  fun_induction pieces fmt generalizing ap with
  | case1 => rfl
  | case2 => rfl
  | case3 c h =>
    rw [vprintfLoop, if_neg h]
    rfl
  | case4 d fmt ih =>
    rw [vprintfLoop, if_pos rfl, vprintfLoop, convert_eq]
    simp only
    rw [ih]
    rfl
  | case5 c d fmt h ih =>
    rw [vprintfLoop, if_neg h, ih]
    rfl

namespace Piece

variable {p : Piece} {a : UInt64}

theorem narrowed_of_ne (h : p ≠ .conv 'l'.toUInt8) (a : UInt64) : p.narrowed a = a := by
  cases p with
  | lit c => rfl
  | conv c => exact if_neg fun hc => h (congrArg conv hc)

theorem shown_long (str : UInt64 → List UInt8) (a : UInt64) :
    (conv 'l'.toUInt8).shown str ((conv 'l'.toUInt8).narrowed a) =
      numeral figure 10 (a.toNat % 2 ^ 32) := rfl

theorem length_shown_narrowed_le (str : UInt64 → List UInt8) (p : Piece) (a : UInt64) :
    (p.shown str (p.narrowed a)).length ≤ (p.shown str a).length := by
  by_cases hp : p = .conv 'l'.toUInt8
  · have hlong : (conv 'l'.toUInt8).shown str a = numeral figure 10 a.toNat := rfl
    rw [hp, shown_long, hlong, length_numeral (by decide), length_numeral (by decide)]
    exact Nat.succ_le_succ (Nat.log_mono_right (Nat.mod_le _ _))
  · rw [narrowed_of_ne hp]

theorem shown_narrowed_iff (str : UInt64 → List UInt8) (p : Piece) (a : UInt64) :
    p.shown str (p.narrowed a) = p.shown str a ↔
      (p = .conv 'l'.toUInt8 → a.toNat < 2 ^ 32) := by
  by_cases hp : p = .conv 'l'.toUInt8
  · have hlong : (conv 'l'.toUInt8).shown str a = numeral figure 10 a.toNat := rfl
    rw [hp, shown_long, hlong]
    constructor
    · intro h _
      have hmod := numeral_injective (v := figures.idxOf) (by decide) (by decide) h
      omega
    · intro h
      rw [Nat.mod_eq_of_lt (h rfl)]
  · rw [narrowed_of_ne hp]
    exact iff_of_true rfl fun h => absurd h hp

end Piece

/-- `vprintf` never stores past `buf`, and prints what the format says exactly when
every argument of a `%l` fits in 32 bits. -/
theorem vprintf_iff (str : UInt64 → List UInt8) (fmt : List UInt8) (args : Nat → UInt64) :
    ∃ out, vprintf str fmt args = some out ∧
      (out = rendered str fmt args ↔
        ∀ e ∈ withArgs args (pieces fmt) 0, e.1 = .conv 'l'.toUInt8 → e.2.toNat < 2 ^ 32) := by
  refine ⟨_, vprintfLoop_eq fmt 0, ?_⟩
  rw [rendered, flatMap_eq_iff fun e _ => e.1.length_shown_narrowed_le str e.2]
  exact forall₂_congr fun e _ => e.1.shown_narrowed_iff str e.2

/-- `printf("%l", 4294967296)` prints 0. -/
theorem vprintf_long_wrong :
    vprintf (fun _ => []) ['%'.toUInt8, 'l'.toUInt8] (fun _ => 0x100000000) = some ['0'.toUInt8] ∧
      rendered (fun _ => []) ['%'.toUInt8, 'l'.toUInt8] (fun _ => 0x100000000) =
        "4294967296".toList.map Char.toUInt8 := by
  constructor
  · decide
  · decide +kernel

end Xv6.User.Printf
