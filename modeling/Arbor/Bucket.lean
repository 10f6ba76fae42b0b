/-
  Bucket hashing of switch keys.  The compiler groups case keys by bucket and
  the machine computes the bucket of the switch value; both use `Bucket.of`.
-/

set_option autoImplicit false

namespace Arbor

/-- A value that a switch can be hashed on. -/
inductive SwitchKey where
  | int (value : Int)
  | bool (value : Bool)
  | text (value : String)
  deriving DecidableEq

namespace Bucket

/-- Starting value of the string hash. -/
def hashBasis : UInt64 := 0xcbf29ce484222325

/-- Multiplier of the string hash. -/
def hashPrime : UInt64 := 0x100000001b3

/-- One round of the string hash: mix in a byte, then multiply. -/
def hashStep (h : UInt64) (byte : UInt8) : UInt64 := (h ^^^ byte.toUInt64) * hashPrime

/-- Hash of a text: one round for every byte of its UTF-8 form. -/
def hashText (s : String) : UInt64 := s.toUTF8.toList.foldl hashStep hashBasis

/-- Whether no divisor of `n` lies between `d` and the square root of `n`. -/
def noDivisorFrom (n : Nat) : Nat → Nat → Bool
  | 0, _ => true
  | fuel + 1, d =>
      if n < d * d then true
      else if n % d == 0 then false
      else noDivisorFrom n fuel (d + 1)

/-- Trial division. -/
def isPrime (n : Nat) : Bool := 2 ≤ n && noDivisorFrom n n 2

/-- The first prime among `n`, `n + 1`, ...; `fuel` bounds the search. -/
def nextPrime : Nat → Nat → Nat
  | 0, n => n
  | fuel + 1, n => if isPrime n then n else nextPrime fuel (n + 1)

/-- Number of buckets for a switch with the given number of keys, which is held in 32 bits: the
least prime that is neither below it nor below two.  A prime occurs before twice the number, so the
search needs no more steps than that. -/
def count (keys : Nat) : Nat :=
  let n := max keys 2 % 0x100000000
  nextPrime (n + 2) n

/-- Bucket of a key in a table of `size` buckets. -/
def of (key : SwitchKey) (size : Nat) : Nat :=
  match key with
  | .int v => (v % size).toNat
  | .bool b => b.toNat % size
  | .text s => (hashText s).toNat % size

end Bucket

end Arbor
