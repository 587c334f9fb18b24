/-!
# XXH64

The 64-bit digest of a text, under a seed. The text is given as its 64-bit little-endian lanes
followed by fewer than eight further bytes, so a text that is made of words needs no bytes at all.

## Termination

Both passes consume their list: four lanes a stripe, one lane or one byte a step.
-/

namespace TermRewriting.Digest

/-! ## Constants and rounds -/

/-- The five odd multipliers of the digest. -/
def prime1 : UInt64 := 0x9e3779b185ebca87

@[inherit_doc prime1]
def prime2 : UInt64 := 0xc2b2ae3d27d4eb4f

@[inherit_doc prime1]
def prime3 : UInt64 := 0x165667b19e3779f9

@[inherit_doc prime1]
def prime4 : UInt64 := 0x85ebca77c2b2ae63

@[inherit_doc prime1]
def prime5 : UInt64 := 0x27d4eb2f165667c5

/-- Rotation to the left, for `0 < k < 64`. -/
def rotate (x : UInt64) (k : UInt64) : UInt64 :=
  (x <<< k) ||| (x >>> (64 - k))

/-- One lane enters an accumulator. -/
def mixLane (acc lane : UInt64) : UInt64 :=
  rotate (acc + lane * prime2) 31 * prime1

/-- An accumulator enters the digest. -/
def mergeAccumulator (h acc : UInt64) : UInt64 :=
  (h ^^^ mixLane 0 acc) * prime1 + prime4

/-- A lane behind the last whole stripe enters the digest. -/
def absorbLane (h lane : UInt64) : UInt64 :=
  rotate (h ^^^ mixLane 0 lane) 27 * prime1 + prime4

/-- Four bytes behind the last whole lane enter the digest. -/
def absorbHalf (h half : UInt64) : UInt64 :=
  rotate (h ^^^ (half * prime1)) 23 * prime2 + prime3

/-- A single byte at the end enters the digest. -/
def absorbByte (h : UInt64) (byte : UInt8) : UInt64 :=
  rotate (h ^^^ (byte.toUInt64 * prime5)) 11 * prime1

/-- The last mixing of all bits. -/
def avalanche (h : UInt64) : UInt64 :=
  let h := (h ^^^ (h >>> 33)) * prime2
  let h := (h ^^^ (h >>> 29)) * prime3
  h ^^^ (h >>> 32)

/-! ## Texts -/

/-- A little-endian number, the first byte being the least significant. -/
def littleEndian : List UInt8 → UInt64
  | [] => 0
  | b :: bs => b.toUInt64 ||| (littleEndian bs <<< 8)

/-- The lanes of a text and the bytes behind its last whole lane. -/
def lanesOf : List UInt8 → List UInt64 × List UInt8
  | a :: b :: c :: d :: e :: f :: g :: h :: rest =>
    let (lanes, tail) := lanesOf rest
    (littleEndian [a, b, c, d, e, f, g, h] :: lanes, tail)
  | short => ([], short)

/-! ## The digest -/

/-- The four accumulators of a long text. -/
structure Stripes where
  a : UInt64
  b : UInt64
  c : UInt64
  d : UInt64

/-- The accumulators before the first stripe. -/
def Stripes.start (seed : UInt64) : Stripes :=
  ⟨seed + prime1 + prime2, seed + prime2, seed, seed - prime1⟩

/-- Runs through the whole stripes and returns the lanes that do not fill one. -/
def Stripes.consume (s : Stripes) : List UInt64 → Stripes × List UInt64
  | p :: q :: r :: t :: rest =>
    Stripes.consume ⟨mixLane s.a p, mixLane s.b q, mixLane s.c r, mixLane s.d t⟩ rest
  | rest => (s, rest)

/-- Joins the accumulators. -/
def Stripes.join (s : Stripes) : UInt64 :=
  let h := rotate s.a 1 + rotate s.b 7 + rotate s.c 12 + rotate s.d 18
  mergeAccumulator (mergeAccumulator (mergeAccumulator (mergeAccumulator h s.a) s.b) s.c) s.d

/-- The bytes behind the last lane: four at once where there are four, then one by one. -/
def absorbTail (h : UInt64) : List UInt8 → UInt64
  | a :: b :: c :: d :: rest => rest.foldl absorbByte (absorbHalf h (littleEndian [a, b, c, d]))
  | rest => rest.foldl absorbByte h

/-- The digest of the text with these lanes and this tail. A text of 32 bytes or more goes through
the accumulators, a shorter one starts from the seed alone. -/
def xxh64 (seed : UInt64) (lanes : List UInt64) (tail : List UInt8) : UInt64 :=
  let length := UInt64.ofNat (8 * lanes.length + tail.length)
  let (start, rest) :=
    if 4 ≤ lanes.length then
      let (stripes, rest) := (Stripes.start seed).consume lanes
      (stripes.join, rest)
    else (seed + prime5, lanes)
  avalanche (absorbTail (rest.foldl absorbLane (start + length)) tail)

/-- A text of one lane. -/
theorem xxh64_lane (seed lane : UInt64) :
    xxh64 seed [lane] [] = avalanche (absorbLane (seed + prime5 + 8) lane) := rfl

end TermRewriting.Digest
