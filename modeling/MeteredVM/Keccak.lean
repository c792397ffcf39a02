import MeteredVM.Bytes

namespace MeteredVM.Keccak

structure Plane where
  a : UInt64
  b : UInt64
  c : UInt64
  d : UInt64
  e : UInt64
  deriving Inhabited, DecidableEq

structure Lanes where
  p : Plane
  q : Plane
  r : Plane
  s : Plane
  t : Plane
  deriving Inhabited, DecidableEq

def rotate (x : UInt64) (n : UInt64) : UInt64 := (x <<< n) ||| (x >>> (64 - n))

namespace Plane

def zero : Plane := ⟨0, 0, 0, 0, 0⟩

def xor (x y : Plane) : Plane := ⟨x.a ^^^ y.a, x.b ^^^ y.b, x.c ^^^ y.c, x.d ^^^ y.d, x.e ^^^ y.e⟩

def spread (x : Plane) : Plane :=
  ⟨x.e ^^^ rotate x.b 1, x.a ^^^ rotate x.c 1, x.b ^^^ rotate x.d 1,
   x.c ^^^ rotate x.e 1, x.d ^^^ rotate x.a 1⟩

def mix (x : Plane) : Plane :=
  ⟨x.a ^^^ (~~~x.b &&& x.c), x.b ^^^ (~~~x.c &&& x.d), x.c ^^^ (~~~x.d &&& x.e),
   x.d ^^^ (~~~x.e &&& x.a), x.e ^^^ (~~~x.a &&& x.b)⟩

end Plane

namespace Lanes

def zero : Lanes := ⟨.zero, .zero, .zero, .zero, .zero⟩

def xor (x y : Lanes) : Lanes :=
  ⟨x.p.xor y.p, x.q.xor y.q, x.r.xor y.r, x.s.xor y.s, x.t.xor y.t⟩

def parity (x : Lanes) : Lanes :=
  let d := ((((x.p.xor x.q).xor x.r).xor x.s).xor x.t).spread
  ⟨x.p.xor d, x.q.xor d, x.r.xor d, x.s.xor d, x.t.xor d⟩

def scatter (x : Lanes) : Lanes :=
  ⟨⟨x.p.a, rotate x.q.b 44, rotate x.r.c 43, rotate x.s.d 21, rotate x.t.e 14⟩,
   ⟨rotate x.p.d 28, rotate x.q.e 20, rotate x.r.a 3, rotate x.s.b 45, rotate x.t.c 61⟩,
   ⟨rotate x.p.b 1, rotate x.q.c 6, rotate x.r.d 25, rotate x.s.e 8, rotate x.t.a 18⟩,
   ⟨rotate x.p.e 27, rotate x.q.a 36, rotate x.r.b 10, rotate x.s.c 15, rotate x.t.d 56⟩,
   ⟨rotate x.p.c 62, rotate x.q.d 55, rotate x.r.e 39, rotate x.s.a 41, rotate x.t.b 2⟩⟩

def round (x : Lanes) (constant : UInt64) : Lanes :=
  let y := x.parity.scatter
  let p := y.p.mix
  ⟨⟨p.a ^^^ constant, p.b, p.c, p.d, p.e⟩, y.q.mix, y.r.mix, y.s.mix, y.t.mix⟩

end Lanes

def constants : List UInt64 :=
  [0x0000000000000001, 0x0000000000008082, 0x800000000000808a, 0x8000000080008000,
   0x000000000000808b, 0x0000000080000001, 0x8000000080008081, 0x8000000000008009,
   0x000000000000008a, 0x0000000000000088, 0x0000000080008009, 0x000000008000000a,
   0x000000008000808b, 0x800000000000008b, 0x8000000000008089, 0x8000000000008003,
   0x8000000000008002, 0x8000000000000080, 0x000000000000800a, 0x800000008000000a,
   0x8000000080008081, 0x8000000000008080, 0x0000000080000001, 0x8000000080008008]

def permute (x : Lanes) : Lanes := constants.foldl Lanes.round x

def rate : Nat := 136

/-- The message completed to whole blocks: a first mark bit, zeros, and a last mark bit. -/
def pad (b : Bytes) : Bytes :=
  let fill := rate - b.size % rate
  if fill = 1 then b.push 0x81 else b.push 0x01 ++ Bytes.zeros (fill - 2) ++ ⟨#[0x80]⟩

/-- The lane whose little-endian bytes start at a position. -/
def lane (b : Bytes) (i : Nat) : UInt64 :=
  (b.at0 i).toUInt64 ||| ((b.at0 (i + 1)).toUInt64 <<< 8) |||
  ((b.at0 (i + 2)).toUInt64 <<< 16) ||| ((b.at0 (i + 3)).toUInt64 <<< 24) |||
  ((b.at0 (i + 4)).toUInt64 <<< 32) ||| ((b.at0 (i + 5)).toUInt64 <<< 40) |||
  ((b.at0 (i + 6)).toUInt64 <<< 48) ||| ((b.at0 (i + 7)).toUInt64 <<< 56)

/-- The block that starts at a position, as the lanes it is added to. -/
def block (b : Bytes) (i : Nat) : Lanes :=
  ⟨⟨lane b i, lane b (i + 8), lane b (i + 16), lane b (i + 24), lane b (i + 32)⟩,
   ⟨lane b (i + 40), lane b (i + 48), lane b (i + 56), lane b (i + 64), lane b (i + 72)⟩,
   ⟨lane b (i + 80), lane b (i + 88), lane b (i + 96), lane b (i + 104), lane b (i + 112)⟩,
   ⟨lane b (i + 120), lane b (i + 128), 0, 0, 0⟩, .zero⟩

def absorb (b : Bytes) : Nat → Nat → Lanes → Lanes
  | 0, _, x => x
  | n + 1, i, x => absorb b n (i + rate) (permute (x.xor (block b i)))

def swapped (x : UInt64) : Nat :=
  (List.range 8).foldl (fun acc i => acc * 256 + ((x >>> (8 * i).toUInt64) &&& 0xff).toNat) 0

end MeteredVM.Keccak

namespace MeteredVM

/-- The Keccak-256 digest of a byte string. -/
def keccak256 (b : Bytes) : Hash :=
  let padded := Keccak.pad b
  let x := (Keccak.absorb padded (padded.size / Keccak.rate) 0 .zero).p
  BitVec.ofNat 256 ([x.a, x.b, x.c, x.d].foldl (fun acc l => acc <<< 64 + Keccak.swapped l) 0)

/-- The digest of the empty byte string, which is the code hash of an account without code. -/
def emptyCodeHash : Hash := 0xc5d2460186f7233c927e7db2dcc703c0e500b653ca82273b7bfad8045d85a470

end MeteredVM
