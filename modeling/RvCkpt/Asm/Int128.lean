import RvCkpt.Lib.DoubleWord

/-! # Integers of 128 bits

`u128` and `s128` (`src/src/asm/types.h`) and their operators (`src/src/asm/operators.h`) without
`PREDICATED_SHIFT`. Signed sums wrap, as the build's `-fwrapv` has them.
-/

namespace RvCkpt.Asm
set_option autoImplicit false

@[ext]
structure U128 where
  hi : BitVec 64
  lo : BitVec 64
  deriving DecidableEq, Repr

@[ext]
structure S128 where
  hi : BitVec 64
  lo : BitVec 64
  deriving DecidableEq, Repr

/-- A shift count as both types cut it. -/
def shiftCount (shamt : BitVec 32) : ℕ := (shamt &&& 127).toNat

/-- A comparison's result as a word. -/
def word (b : Bool) : BitVec 64 := if b then 1 else 0

namespace U128

/-- The constructor from one word copies its sign bit. -/
def ofWord (lo : BitVec 64) : U128 := ⟨~~~(lo >>> 63 - 1), lo⟩

instance : Zero U128 := ⟨ofWord 0⟩

instance : One U128 := ⟨ofWord 1⟩

def eq (x y : U128) : Bool := x.lo == y.lo && x.hi == y.hi

def ne (x y : U128) : Bool := x.lo != y.lo || x.hi != y.hi

def lt (x y : U128) : Bool := x.hi.ult y.hi || x.hi == y.hi && x.lo.ult y.lo

def gt (x y : U128) : Bool := y.hi.ult x.hi || x.hi == y.hi && y.lo.ult x.lo

def ge (x y : U128) : Bool := y.hi.ult x.hi || x.hi == y.hi && y.lo.ule x.lo

def le (x y : U128) : Bool := x.hi.ult y.hi || x.hi == y.hi && x.lo.ule y.lo

def and (x y : U128) : U128 := ⟨x.hi &&& y.hi, x.lo &&& y.lo⟩

def or (x y : U128) : U128 := ⟨x.hi ||| y.hi, x.lo ||| y.lo⟩

def not (x : U128) : U128 := ⟨~~~x.hi, ~~~x.lo⟩

def shl (x : U128) (shamt : BitVec 32) : U128 :=
  let s := shiftCount shamt
  if s = 0 then x
  else if s < 64 then ⟨x.hi <<< s ||| x.lo >>> (64 - s), x.lo <<< s⟩
  else ⟨x.lo <<< (s - 64), 0⟩

def shr (x : U128) (shamt : BitVec 32) : U128 :=
  let s := shiftCount shamt
  if s = 0 then x
  else if s < 64 then ⟨x.hi >>> s, x.lo >>> s ||| x.hi <<< (64 - s)⟩
  else ⟨0, x.hi >>> (s - 64)⟩

def add (x y : U128) : U128 :=
  let lo := x.lo + y.lo
  let c := word (lo.ult x.lo)
  ⟨x.hi + y.hi + c, lo⟩

def sub (x y : U128) : U128 :=
  let lo := x.lo - y.lo
  let b := word (x.lo.ult lo)
  ⟨x.hi - y.hi - b, lo⟩

def neg (x : U128) : U128 := x.not.add 1

def mul (x y : U128) : U128 :=
  let z0 := ofWord (x.lo * y.lo)
  let z1 := ofWord (x.hi * y.lo)
  let z2 := ofWord (x.lo * y.hi)
  let z4 := z1.add z2
  let c1 := ofWord (word (z4.lt z1))
  ((z4.add c1).shl 64).add z0

/-- The loop's body in `/` and `%`, on the quotient and the remainder. -/
def divStep (x y : U128) (i : ℕ) (qr : U128 × U128) : U128 × U128 :=
  let r := qr.2.shl 1
  let r := r.or ((x.shr (.ofNat 32 i)).and 1)
  let d := ofWord (word (r.ge y))
  let r := r.sub (y.and d.neg)
  let q := qr.1.or (d.shl (.ofNat 32 i))
  (q, r)

/-- The iterations from `n - 1` down to 0. -/
def divLoop (x y : U128) : ℕ → U128 × U128 → U128 × U128
  | 0, qr => qr
  | n + 1, qr => divLoop x y n (divStep x y n qr)

def div (x y : U128) : U128 := if y.eq 0 then ⟨-1, -1⟩ else (divLoop x y 128 (0, 0)).1

def mod (x y : U128) : U128 := if y.eq 0 then x else (divLoop x y 128 (0, 0)).2

end U128

namespace S128

/-- The constructor from one word copies its sign bit. -/
def ofWord (lo : BitVec 64) : S128 := ⟨~~~(lo >>> 63 - 1), lo⟩

instance : One S128 := ⟨ofWord 1⟩

def eq (x y : S128) : Bool := x.lo == y.lo && x.hi == y.hi

def ne (x y : S128) : Bool := x.lo != y.lo || x.hi != y.hi

def lt (x y : S128) : Bool := x.hi.slt y.hi || x.hi == y.hi && x.lo.ult y.lo

def gt (x y : S128) : Bool := y.hi.slt x.hi || x.hi == y.hi && y.lo.ult x.lo

def ge (x y : S128) : Bool := y.hi.slt x.hi || x.hi == y.hi && y.lo.ule x.lo

def le (x y : S128) : Bool := x.hi.slt y.hi || x.hi == y.hi && x.lo.ule y.lo

def not (x : S128) : S128 := ⟨~~~x.hi, ~~~x.lo⟩

def shl (x : S128) (shamt : BitVec 32) : S128 :=
  let s := shiftCount shamt
  if s = 0 then x
  else if s < 64 then ⟨x.hi <<< s ||| x.lo >>> (64 - s), x.lo <<< s⟩
  else ⟨x.lo <<< (s - 64), 0⟩

def shr (x : S128) (shamt : BitVec 32) : S128 :=
  let s := shiftCount shamt
  if s = 0 then x
  else if s < 64 then ⟨x.hi.sshiftRight s, x.lo >>> s ||| x.hi <<< (64 - s)⟩
  else ⟨-(x.hi >>> 63), x.hi.sshiftRight (s - 64)⟩

def add (x y : S128) : S128 :=
  let lo := x.lo + y.lo
  let c := word (lo.ult x.lo)
  ⟨x.hi + y.hi + c, lo⟩

def sub (x y : S128) : S128 :=
  let lo := x.lo - y.lo
  let b := word (x.lo.ult lo)
  ⟨x.hi - y.hi - b, lo⟩

def neg (x : S128) : S128 := x.not.add 1

def mul (x y : S128) : S128 :=
  let z0 := ofWord (x.lo * y.lo)
  let z1 := ofWord (x.hi * y.lo)
  let z2 := ofWord (x.lo * y.hi)
  let z4 := z1.add z2
  let c1 := ofWord (word (z4.lt z1))
  ((z4.add c1).shl 64).add z0

end S128

/-! ## The integers they stand for -/

namespace U128

def value (x : U128) : ℕ := x.hi.toNat * 2 ^ 64 + x.lo.toNat

/-- The operators are the integers', modulo `2 ^ 128`. -/
structure Right (x y : U128) : Prop where
  eq : x.eq y = decide (x.value = y.value)
  ne : x.ne y = decide (x.value ≠ y.value)
  lt : x.lt y = decide (x.value < y.value)
  gt : x.gt y = decide (x.value > y.value)
  ge : x.ge y = decide (x.value ≥ y.value)
  le : x.le y = decide (x.value ≤ y.value)
  shl : ∀ s < 128, (x.shl (.ofNat 32 s)).value = x.value * 2 ^ s % 2 ^ 128
  shr : ∀ s < 128, (x.shr (.ofNat 32 s)).value = x.value / 2 ^ s
  add : (x.add y).value = (x.value + y.value) % 2 ^ 128
  sub : ((x.sub y).value : ℤ) = (x.value - y.value) % 2 ^ 128
  neg : (x.neg.value : ℤ) = -x.value % 2 ^ 128
  mul : (x.mul y).value = x.value * y.value % 2 ^ 128
  div : y.value ≠ 0 → (x.div y).value = x.value / y.value
  mod : y.value ≠ 0 → (x.mod y).value = x.value % y.value
  restores : y.value ≠ 0 → (x.div y).value * y.value + (x.mod y).value = x.value
  smaller : y.value ≠ 0 → (x.mod y).value < y.value

/-- The product of the lower words is below half of a word's range where the lower words of the
cross products add up without a carry, else in the range's length from there. -/
def MulFits (x y : U128) : Prop :=
  (x.lo.toNat * y.lo.toNat + 2 ^ 63) / 2 ^ 64 =
    (x.hi.toNat * y.lo.toNat % 2 ^ 64 + x.lo.toNat * y.hi.toNat % 2 ^ 64) / 2 ^ 64

end U128

namespace S128

def value (x : S128) : ℤ := x.hi.toInt * 2 ^ 64 + x.lo.toNat

/-- The operators are the integers', cut to two's complement. There is no division. -/
structure Right (x y : S128) : Prop where
  eq : x.eq y = decide (x.value = y.value)
  ne : x.ne y = decide (x.value ≠ y.value)
  lt : x.lt y = decide (x.value < y.value)
  gt : x.gt y = decide (x.value > y.value)
  ge : x.ge y = decide (x.value ≥ y.value)
  le : x.le y = decide (x.value ≤ y.value)
  shl : ∀ s < 128, (x.shl (.ofNat 32 s)).value = (x.value * 2 ^ s).bmod (2 ^ 128)
  shr : ∀ s < 128, (x.shr (.ofNat 32 s)).value = x.value / 2 ^ s
  add : (x.add y).value = (x.value + y.value).bmod (2 ^ 128)
  sub : (x.sub y).value = (x.value - y.value).bmod (2 ^ 128)
  neg : x.neg.value = (-x.value).bmod (2 ^ 128)
  mul : (x.mul y).value = (x.value * y.value).bmod (2 ^ 128)

/-- The same with the sign of the second cross product's lower word. -/
def MulFits (x y : S128) : Prop :=
  (x.lo.toNat * y.lo.toNat + 2 ^ 63) / 2 ^ 64 = x.lo.toNat * y.hi.toNat % 2 ^ 64 / 2 ^ 63

end S128

end RvCkpt.Asm
