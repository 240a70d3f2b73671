namespace FeatureNet

namespace Xxh64

def prime1 : UInt64 := 11400714785074694791

def prime2 : UInt64 := 14029467366897019727

def prime3 : UInt64 := 1609587929392839161

def prime4 : UInt64 := 9650029242287828579

def prime5 : UInt64 := 2870177450012600261

def rotate (x : UInt64) (n : UInt64) : UInt64 := (x <<< n) ||| (x >>> (64 - n))

/-- Bytes as one number, the first the least. -/
def word (bytes : List UInt8) : UInt64 := bytes.foldr (fun b w => (w <<< 8) ||| b.toUInt64) 0

def round (lane input : UInt64) : UInt64 := rotate (lane + input * prime2) 31 * prime1

structure Lanes where
  a : UInt64
  b : UInt64
  c : UInt64
  d : UInt64

def Lanes.start : Lanes := ⟨prime1 + prime2, prime2, 0, 0 - prime1⟩

/-- Takes in a stripe of 32 bytes, eight to a lane. -/
def Lanes.feed (l : Lanes) (stripe : List UInt8) : Lanes where
  a := round l.a (word (stripe.take 8))
  b := round l.b (word ((stripe.drop 8).take 8))
  c := round l.c (word ((stripe.drop 16).take 8))
  d := round l.d (word (stripe.drop 24))

def Lanes.feedAll (l : Lanes) : Nat → List UInt8 → Lanes
  | 0, _ => l
  | n + 1, bytes => (l.feed (bytes.take 32)).feedAll n (bytes.drop 32)

def merge (h lane : UInt64) : UInt64 := (h ^^^ round 0 lane) * prime1 + prime4

def Lanes.join (l : Lanes) : UInt64 :=
  [l.a, l.b, l.c, l.d].foldl merge (rotate l.a 1 + rotate l.b 7 + rotate l.c 12 + rotate l.d 18)

def takeEights (h : UInt64) : Nat → List UInt8 → UInt64
  | 0, _ => h
  | n + 1, bytes =>
    takeEights (rotate (h ^^^ round 0 (word (bytes.take 8))) 27 * prime1 + prime4) n (bytes.drop 8)

def takeFour (h : UInt64) (bytes : List UInt8) : UInt64 :=
  rotate (h ^^^ word bytes * prime1) 23 * prime2 + prime3

def takeOne (h : UInt64) (b : UInt8) : UInt64 := rotate (h ^^^ b.toUInt64 * prime5) 11 * prime1

def mix (h : UInt64) : UInt64 :=
  let h := (h ^^^ (h >>> 33)) * prime2
  let h := (h ^^^ (h >>> 29)) * prime3
  h ^^^ (h >>> 32)

/-- The 64-bit xxHash with seed 0: four lanes over stripes of 32 bytes, then the bytes that are left by
eights, by a four and one by one, then a final mix. -/
def hash (bytes : List UInt8) : UInt64 :=
  let length := bytes.length
  let lanes := if length < 32 then prime5 else (Lanes.start.feedAll (length / 32) bytes).join
  let left := bytes.drop (length / 32 * 32)
  let h := takeEights (lanes + UInt64.ofNat length) (left.length / 8) left
  let left := left.drop (left.length / 8 * 8)
  let h := if left.length < 4 then h else takeFour h (left.take 4)
  let left := left.drop (left.length / 4 * 4)
  mix (left.foldl takeOne h)

/-- Sixteen hexadecimal digits. -/
def hexText (h : UInt64) : String :=
  let digits := Nat.toDigits 16 h.toNat
  String.ofList (List.replicate (16 - digits.length) '0' ++ digits)

/-- The hash of a text in UTF-8. -/
def ofText (text : String) : UInt64 := hash text.toUTF8.toList

end Xxh64

end FeatureNet
