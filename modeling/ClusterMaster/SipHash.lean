/-!
# SipHash: a keyed 64-bit hash of a byte string

`sipHash c d k₀ k₁ bytes` mixes the bytes in eight at a time with `c` rounds each, then the
remaining bytes together with the length, and finishes with `d` rounds.
-/

namespace ClusterMaster.SipHash

/-- The four words a hash works on. -/
structure Lanes where
  v0 : UInt64
  v1 : UInt64
  v2 : UInt64
  v3 : UInt64

/-- The bits of a word moved left, those that leave entering at the right. -/
def rotl (x : UInt64) (n : UInt64) : UInt64 := (x <<< n) ||| (x >>> (64 - n))

def start (k₀ k₁ : UInt64) : Lanes :=
  { v0 := k₀ ^^^ 0x736f6d6570736575
    v1 := k₁ ^^^ 0x646f72616e646f6d
    v2 := k₀ ^^^ 0x6c7967656e657261
    v3 := k₁ ^^^ 0x7465646279746573 }

def round (s : Lanes) : Lanes :=
  let v0 := s.v0 + s.v1
  let v1 := rotl s.v1 13 ^^^ v0
  let v0 := rotl v0 32
  let v2 := s.v2 + s.v3
  let v3 := rotl s.v3 16 ^^^ v2
  let v0 := v0 + v3
  let v3 := rotl v3 21 ^^^ v0
  let v2 := v2 + v1
  let v1 := rotl v1 17 ^^^ v2
  let v2 := rotl v2 32
  { v0, v1, v2, v3 }

def rounds (n : Nat) (s : Lanes) : Lanes := n.fold (fun _ _ s => round s) s

/-- Mix one word in. -/
def absorb (c : Nat) (s : Lanes) (m : UInt64) : Lanes :=
  let s := rounds c { s with v3 := s.v3 ^^^ m }
  { s with v0 := s.v0 ^^^ m }

/-- Bytes as a number, the lowest first. -/
def littleEndian : List UInt8 → UInt64
  | [] => 0
  | b :: bs => b.toUInt64 ||| (littleEndian bs <<< 8)

/-- Mix bytes in, eight at a time; the last word holds the rest and the length modulo 256. -/
def absorbAll (c : Nat) (length : UInt64) (s : Lanes) : List UInt8 → Lanes
  | b0 :: b1 :: b2 :: b3 :: b4 :: b5 :: b6 :: b7 :: rest =>
    absorbAll c length (absorb c s (littleEndian [b0, b1, b2, b3, b4, b5, b6, b7])) rest
  | rest => absorb c s (littleEndian rest ||| (length <<< 56))

def sipHash (c d : Nat) (k₀ k₁ : UInt64) (bytes : List UInt8) : UInt64 :=
  let s := absorbAll c bytes.length.toUInt64 (start k₀ k₁) bytes
  let s := rounds d { s with v2 := s.v2 ^^^ 0xff }
  s.v0 ^^^ s.v1 ^^^ s.v2 ^^^ s.v3

/-- The bytes of a number, the lowest first. -/
def bytesOf (width : Nat) (n : Nat) : List UInt8 :=
  (List.range width).map fun i => (n >>> (8 * i)).toUInt8

end ClusterMaster.SipHash
