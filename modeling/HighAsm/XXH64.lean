import HighAsm.Text.Number

/-!
# The hash XXH64

A 64-bit hash of a text with the seed zero. The text is read in little-endian lanes of eight bytes,
four lanes to a stripe; what is left after the last stripe is mixed in afterwards.
-/

namespace HighAsm.XXH64

def prime1 : UInt64 := 11400714785074694791

def prime2 : UInt64 := 14029467366897019727

def prime3 : UInt64 := 1609587929392839161

def prime4 : UInt64 := 9650029242287828579

def prime5 : UInt64 := 2870177450012600261

def rotate (x : UInt64) (n : UInt64) : UInt64 := (x <<< n) ||| (x >>> (64 - n))

/-- The number whose little-endian bytes are given. -/
def ofBytes (bytes : Text) : UInt64 := bytes.foldr (fun b n => n <<< 8 ||| b.toUInt64) 0

def round (acc lane : UInt64) : UInt64 := rotate (acc + lane * prime2) 31 * prime1

structure Lanes where
  a : UInt64 := prime1 + prime2
  b : UInt64 := prime2
  c : UInt64 := 0
  d : UInt64 := 0 - prime1

/-- Takes whole stripes into the accumulators. -/
def Lanes.absorb (l : Lanes) : List UInt64 → Lanes
  | a :: b :: c :: d :: rest =>
    absorb ⟨round l.a a, round l.b b, round l.c c, round l.d d⟩ rest
  | _ => l

def lanes : Text → List UInt64
  | a :: b :: c :: d :: e :: f :: g :: h :: rest => ofBytes [a, b, c, d, e, f, g, h] :: lanes rest
  | _ => []

def Lanes.merged (l : Lanes) : UInt64 :=
  let merge (acc lane : UInt64) : UInt64 := (acc ^^^ round 0 lane) * prime1 + prime4
  [l.a, l.b, l.c, l.d].foldl merge (rotate l.a 1 + rotate l.b 7 + rotate l.c 12 + rotate l.d 18)

/-- Mixes in fewer than eight bytes: four at once if possible, the others one by one. -/
def mixShort (acc : UInt64) : Text → UInt64
  | a :: b :: c :: d :: rest =>
    rest.foldl mixByte (rotate (acc ^^^ ofBytes [a, b, c, d] * prime1) 23 * prime2 + prime3)
  | rest => rest.foldl mixByte acc
where
  mixByte (acc : UInt64) (b : UInt8) : UInt64 := rotate (acc ^^^ b.toUInt64 * prime5) 11 * prime1

def mixTail (acc : UInt64) : Text → UInt64
  | a :: b :: c :: d :: e :: f :: g :: h :: rest =>
    mixTail (rotate (acc ^^^ round 0 (ofBytes [a, b, c, d, e, f, g, h])) 27 * prime1 + prime4) rest
  | rest => mixShort acc rest

/-- Spreads every bit over the whole word. -/
def avalanche (x : UInt64) : UInt64 :=
  let x := (x ^^^ (x >>> 33)) * prime2
  let x := (x ^^^ (x >>> 29)) * prime3
  x ^^^ (x >>> 32)

def hash (t : Text) : UInt64 :=
  let striped := t.length / 32 * 32
  let start :=
    if striped = 0 then prime5
    else (({} : Lanes).absorb (lanes (t.take striped))).merged
  avalanche (mixTail (start + UInt64.ofNat t.length) (t.drop striped))

def digest (t : Text) : Text := Text.hex 16 (hash t).toNat

end HighAsm.XXH64
