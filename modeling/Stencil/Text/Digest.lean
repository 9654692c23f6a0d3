/-!
A digest of texts: SipHash with one round a word and three at the end, both keys zero, over the
bytes of the text in UTF-8 and one more byte with all bits set.
-/
set_option autoImplicit false

namespace Stencil.Text

structure SipState where
  v0 : UInt64
  v1 : UInt64
  v2 : UInt64
  v3 : UInt64
  deriving DecidableEq, Repr

namespace SipState

def start : SipState :=
  ⟨0x736f6d6570736575, 0x646f72616e646f6d, 0x6c7967656e657261, 0x7465646279746573⟩

def rotateLeft (x : UInt64) (n : UInt64) : UInt64 := x <<< n ||| x >>> (64 - n)

def round (s : SipState) : SipState :=
  let a := s.v0 + s.v1
  let b := rotateLeft s.v1 13 ^^^ a
  let c := s.v2 + s.v3
  let d := rotateLeft s.v3 16 ^^^ c
  let e := rotateLeft a 32
  let f := e + d
  let g := rotateLeft d 21 ^^^ f
  let h := c + b
  let i := rotateLeft b 17 ^^^ h
  ⟨f, i, rotateLeft h 32, g⟩

def absorb (s : SipState) (word : UInt64) : SipState :=
  let t := round { s with v3 := s.v3 ^^^ word }
  { t with v0 := t.v0 ^^^ word }

def finish (s : SipState) : UInt64 :=
  let t := round (round (round { s with v2 := s.v2 ^^^ 0xff }))
  t.v0 ^^^ t.v1 ^^^ t.v2 ^^^ t.v3

end SipState

def wordOfBytes : List UInt8 → UInt64
  | [] => 0
  | b :: rest => b.toUInt64 ||| wordOfBytes rest <<< 8

/-- Takes in the bytes eight at a time; the last word also holds the total length. -/
def sipBytes (total : Nat) (s : SipState) : List UInt8 → SipState
  | b0 :: b1 :: b2 :: b3 :: b4 :: b5 :: b6 :: b7 :: rest =>
    sipBytes total (s.absorb (wordOfBytes [b0, b1, b2, b3, b4, b5, b6, b7])) rest
  | last => s.absorb (wordOfBytes last ||| total.toUInt64 <<< 56)

def digest (s : String) : UInt64 :=
  let bytes := s.toUTF8.data.toList ++ [0xff]
  (sipBytes bytes.length .start bytes).finish

def hexDigits : Nat → Nat → List Char
  | 0, _ => []
  | count + 1, n => hexDigits count (n / 16) ++ [Nat.digitChar (n % 16)]

def hexWord (w : UInt64) : List Char := hexDigits 16 w.toNat

end Stencil.Text
