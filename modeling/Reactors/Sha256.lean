/-! # SHA-256

    The hash function of FIPS 180-4 on lists of bytes.  The message is padded to blocks of sixteen
    32-bit words; every block is stretched to a schedule of sixty-four words and mixed into a state
    of eight words, one word a round.
-/

namespace Reactors.Sha256

/-! ## Constants -/

/-- The state before the first block: the fractional parts of the square roots of the first eight
    primes. -/
def initialState : Vector UInt32 8 :=
  #v[0x6a09e667, 0xbb67ae85, 0x3c6ef372, 0xa54ff53a, 0x510e527f, 0x9b05688c, 0x1f83d9ab, 0x5be0cd19]

/-- The constant of each round: the fractional parts of the cube roots of the first sixty-four
    primes. -/
def roundConstants : List UInt32 :=
  [0x428a2f98, 0x71374491, 0xb5c0fbcf, 0xe9b5dba5, 0x3956c25b, 0x59f111f1, 0x923f82a4, 0xab1c5ed5,
   0xd807aa98, 0x12835b01, 0x243185be, 0x550c7dc3, 0x72be5d74, 0x80deb1fe, 0x9bdc06a7, 0xc19bf174,
   0xe49b69c1, 0xefbe4786, 0x0fc19dc6, 0x240ca1cc, 0x2de92c6f, 0x4a7484aa, 0x5cb0a9dc, 0x76f988da,
   0x983e5152, 0xa831c66d, 0xb00327c8, 0xbf597fc7, 0xc6e00bf3, 0xd5a79147, 0x06ca6351, 0x14292967,
   0x27b70a85, 0x2e1b2138, 0x4d2c6dfc, 0x53380d13, 0x650a7354, 0x766a0abb, 0x81c2c92e, 0x92722c85,
   0xa2bfe8a1, 0xa81a664b, 0xc24b8b70, 0xc76c51a3, 0xd192e819, 0xd6990624, 0xf40e3585, 0x106aa070,
   0x19a4c116, 0x1e376c08, 0x2748774c, 0x34b0bcb5, 0x391c0cb3, 0x4ed8aa4a, 0x5b9cca4f, 0x682e6ff3,
   0x748f82ee, 0x78a5636f, 0x84c87814, 0x8cc70208, 0x90befffa, 0xa4506ceb, 0xbef9a3f7, 0xc67178f2]

/-! ## Functions on words -/

/-- The word `x` rotated right by `n` places, for `0 < n < 32`. -/
def rotateRight (x : UInt32) (n : UInt32) : UInt32 := (x >>> n) ||| (x <<< (32 - n))

/-- The first mixing function of the schedule. -/
def lowSigma0 (x : UInt32) : UInt32 := rotateRight x 7 ^^^ rotateRight x 18 ^^^ (x >>> 3)

/-- The second mixing function of the schedule. -/
def lowSigma1 (x : UInt32) : UInt32 := rotateRight x 17 ^^^ rotateRight x 19 ^^^ (x >>> 10)

/-- The mixing function of a round on the first word. -/
def bigSigma0 (x : UInt32) : UInt32 := rotateRight x 2 ^^^ rotateRight x 13 ^^^ rotateRight x 22

/-- The mixing function of a round on the fifth word. -/
def bigSigma1 (x : UInt32) : UInt32 := rotateRight x 6 ^^^ rotateRight x 11 ^^^ rotateRight x 25

/-- Each bit of `x` chooses between the bits of `y` and `z`. -/
def choose (x y z : UInt32) : UInt32 := (x &&& y) ^^^ (~~~x &&& z)

/-- Each bit is the one that at least two of the three words have. -/
def majority (x y z : UInt32) : UInt32 := (x &&& y) ^^^ (x &&& z) ^^^ (y &&& z)

/-! ## Padding -/

/-- The `count` bytes of `n`, the most significant first. -/
def bigEndian (count n : Nat) : List UInt8 :=
  (List.range count).map fun (i : Nat) => (n >>> (8 * (count - 1 - i))).toUInt8

/-- The message, a closing one bit, as few zeros as fill up a block, and the length in bits. -/
def pad (message : List UInt8) : List UInt8 :=
  let n := message.length
  message ++ [0x80] ++ List.replicate ((119 - n % 64) % 64) 0 ++ bigEndian 8 (8 * n)

/-- Groups of four bytes read as words, the most significant byte first. -/
def wordsOf : List UInt8 → List UInt32
  | a :: b :: c :: d :: rest =>
    ((a.toUInt32 <<< 24) ||| (b.toUInt32 <<< 16) ||| (c.toUInt32 <<< 8) ||| d.toUInt32) ::
      wordsOf rest
  | _ => []

/-- Cuts a list into the `count` blocks of sixteen that it starts with. -/
def blocksOf (count : Nat) (words : List UInt32) : List (List UInt32) :=
  match count with
  | 0 => []
  | n + 1 => words.take 16 :: blocksOf n (words.drop 16)

/-! ## Compression -/

/-- The next word of a schedule, from the words before it. -/
def nextWord (w : Array UInt32) : UInt32 :=
  let n := w.size
  lowSigma1 (w.getD (n - 2) 0) + w.getD (n - 7) 0 + lowSigma0 (w.getD (n - 15) 0) +
    w.getD (n - 16) 0

/-- The sixty-four words of the rounds of a block: its own sixteen and forty-eight mixed ones. -/
def schedule (block : List UInt32) : List UInt32 :=
  ((List.range 48).foldl (fun w _ => w.push (nextWord w)) block.toArray).toList

/-- One round, with its constant and its word of the schedule. -/
def round (s : Vector UInt32 8) (kw : UInt32 × UInt32) : Vector UInt32 8 :=
  let t1 := s[7] + bigSigma1 s[4] + choose s[4] s[5] s[6] + kw.1 + kw.2
  let t2 := bigSigma0 s[0] + majority s[0] s[1] s[2]
  #v[t1 + t2, s[0], s[1], s[2], s[3] + t1, s[4], s[5], s[6]]

/-- The state after a block: the state before it, plus what the rounds make of it. -/
def compress (s : Vector UInt32 8) (block : List UInt32) : Vector UInt32 8 :=
  Vector.zipWith (· + ·) s ((roundConstants.zip (schedule block)).foldl round s)

/-- The digest of a message, thirty-two bytes. -/
def digest (message : List UInt8) : List UInt8 :=
  let words := wordsOf (pad message)
  let state := (blocksOf (words.length / 16) words).foldl compress initialState
  state.toList.flatMap fun w => bigEndian 4 w.toNat

/-- A byte as two hexadecimal digits in lower case. -/
def byteHex (b : UInt8) : List Char :=
  [Nat.digitChar (b.toNat / 16), Nat.digitChar (b.toNat % 16)]

/-- The digest of the UTF-8 form of a text, in hexadecimal digits. -/
def hexDigest (s : String) : String :=
  String.ofList ((digest s.toUTF8.data.toList).flatMap byteHex)

end Reactors.Sha256
