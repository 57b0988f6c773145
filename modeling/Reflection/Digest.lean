namespace Reflection.Digest

-- The first 32 bits of the fractional parts of the square roots of the first 8 primes.
def initialState : List UInt32 :=
  [0x6a09e667, 0xbb67ae85, 0x3c6ef372, 0xa54ff53a, 0x510e527f, 0x9b05688c, 0x1f83d9ab, 0x5be0cd19]

-- The same of the cube roots of the first 64 primes.
def roundConstants : List UInt32 :=
  [0x428a2f98, 0x71374491, 0xb5c0fbcf, 0xe9b5dba5, 0x3956c25b, 0x59f111f1, 0x923f82a4, 0xab1c5ed5,
   0xd807aa98, 0x12835b01, 0x243185be, 0x550c7dc3, 0x72be5d74, 0x80deb1fe, 0x9bdc06a7, 0xc19bf174,
   0xe49b69c1, 0xefbe4786, 0x0fc19dc6, 0x240ca1cc, 0x2de92c6f, 0x4a7484aa, 0x5cb0a9dc, 0x76f988da,
   0x983e5152, 0xa831c66d, 0xb00327c8, 0xbf597fc7, 0xc6e00bf3, 0xd5a79147, 0x06ca6351, 0x14292967,
   0x27b70a85, 0x2e1b2138, 0x4d2c6dfc, 0x53380d13, 0x650a7354, 0x766a0abb, 0x81c2c92e, 0x92722c85,
   0xa2bfe8a1, 0xa81a664b, 0xc24b8b70, 0xc76c51a3, 0xd192e819, 0xd6990624, 0xf40e3585, 0x106aa070,
   0x19a4c116, 0x1e376c08, 0x2748774c, 0x34b0bcb5, 0x391c0cb3, 0x4ed8aa4a, 0x5b9cca4f, 0x682e6ff3,
   0x748f82ee, 0x78a5636f, 0x84c87814, 0x8cc70208, 0x90befffa, 0xa4506ceb, 0xbef9a3f7, 0xc67178f2]

def rotateRight (word : UInt32) (count : UInt32) : UInt32 :=
  (word >>> count) ||| (word <<< (32 - count))

-- The least significant byte comes last.
def bigEndian (count value : Nat) : List UInt8 :=
  (List.range count).reverse.map fun i => UInt8.ofNat (value / Nat.pow 256 i)

-- A one bit, zeros up to eight bytes before the end of a block, and the length in bits.
def padding (length : Nat) : List UInt8 :=
  0x80 :: List.replicate ((119 - length % 64) % 64) 0 ++ bigEndian 8 (length * 8)

def word : List UInt8 → UInt32 :=
  List.foldl (fun value byte => value <<< 8 ||| byte.toUInt32) 0

-- The sixteen words of a block, and, newest first, what the schedule makes of them.
def extend (newestFirst : List UInt32) : List UInt32 :=
  let w15 := newestFirst.getD 14 0
  let w2 := newestFirst.getD 1 0
  let s0 := rotateRight w15 7 ^^^ rotateRight w15 18 ^^^ (w15 >>> 3)
  let s1 := rotateRight w2 17 ^^^ rotateRight w2 19 ^^^ (w2 >>> 10)
  (newestFirst.getD 15 0 + s0 + newestFirst.getD 6 0 + s1) :: newestFirst

def schedule (words : List UInt32) : List UInt32 :=
  (Nat.repeat extend 48 words.reverse).reverse

-- Words are 32 bits wide and their sums wrap.
def round : List UInt32 → UInt32 × UInt32 → List UInt32
  | [a, b, c, d, e, f, g, h], (constant, scheduled) =>
    let s1 := rotateRight e 6 ^^^ rotateRight e 11 ^^^ rotateRight e 25
    let choice := (e &&& f) ^^^ (~~~e &&& g)
    let t1 := h + s1 + choice + constant + scheduled
    let s0 := rotateRight a 2 ^^^ rotateRight a 13 ^^^ rotateRight a 22
    let majority := (a &&& b) ^^^ (a &&& c) ^^^ (b &&& c)
    [t1 + (s0 + majority), a, b, c, d + t1, e, f, g]
  | state, _ => state

def chunks (size : Nat) (count : Nat) (bytes : List UInt8) : List (List UInt8) :=
  match count with
  | 0 => []
  | count + 1 => bytes.take size :: chunks size count (bytes.drop size)

def compress (state : List UInt32) (block : List UInt8) : List UInt32 :=
  let words := (chunks 4 16 block).map word
  List.zipWith (· + ·) state ((roundConstants.zip (schedule words)).foldl round state)

def sha256 (bytes : List UInt8) : List UInt8 :=
  let padded := bytes ++ padding bytes.length
  let state := (chunks 64 (padded.length / 64) padded).foldl compress initialState
  state.flatMap fun word => bigEndian 4 word.toNat

def hexDigits (byte : UInt8) : List Char :=
  [Nat.digitChar (byte.toNat / 16), Nat.digitChar (byte.toNat % 16)]

def hexadecimal (bytes : List UInt8) : String := String.ofList (bytes.flatMap hexDigits)

end Reflection.Digest

namespace Reflection

-- The digest by which the contents of a source are told apart.
def sourceHash (bytes : ByteArray) : String :=
  Digest.hexadecimal (Digest.sha256 bytes.toList)

end Reflection
