import IshaVectorDb.Packed.Words

/-!
# `Engine.Bitmap` — a **dense bitmap** with a maintained population count

A bit set of fixed length in 64-bit words, with the number of its set bits beside it so that nobody has to count. Setting
and clearing a bit keep the number, and what comes from outside (`fromWords`) is masked and counted. The iterator goes through
the words and takes the lowest bit off the one it is in.
-/

namespace IshaVectorDb.Engine

open Packed

/-- A fixed-length bit set. -/
structure Bitmap where
  words : List (BitVec 64)
  len : Nat
  ones : Nat
deriving DecidableEq, Repr

/-- The iterator over the set bits: the word it is in, and the bits of it that it has not given. -/
structure SetBits where
  words : List (BitVec 64)
  wordIdx : Nat
  current : BitVec 64
deriving DecidableEq, Repr

namespace Bitmap

/-- Zero the unused high bits of the final word. -/
def clearTail (b : Bitmap) : Bitmap :=
  let used := b.len % 64
  if used = 0 then b
  else { b with words := b.words.dropLast ++ (b.words.getLast?.map (fun last => last &&& (1#64 <<< used - 1#64))).toList }

/-- A bitmap of `len` bits, all clear. -/
def new (len : Nat) : Bitmap := ⟨List.replicate ((len + 63) / 64) 0#64, len, 0⟩

/-- A bitmap of `len` bits, all set. -/
def allSet (len : Nat) : Bitmap := clearTail ⟨List.replicate ((len + 63) / 64) (BitVec.allOnes 64), len, len⟩

/-- Number of set bits. -/
def count (b : Bitmap) : Nat := b.ones

/-- Whether bit `i` is set. -/
def get (b : Bitmap) (i : Nat) : Bool :=
  if b.len ≤ i then false
  else match b.words[i / 64]? with
    | some w => w &&& (1#64 <<< (i % 64)) ≠ 0#64
    | none => false

/-- Give bit `i` a value, saying whether it changed. -/
def assign (b : Bitmap) (i : Nat) (value : Bool) : Bool × Bitmap :=
  if b.len ≤ i then (false, b)
  else match b.words[i / 64]? with
    | none => (false, b)
    | some word =>
        let mask := 1#64 <<< (i % 64)
        let was : Bool := word &&& mask ≠ 0#64
        if was = value then (false, b)
        else if value then (true, { b with words := b.words.set (i / 64) (word ||| mask), ones := b.ones + 1 })
        else (true, { b with words := b.words.set (i / 64) (word &&& ~~~ mask), ones := b.ones - 1 })

/-- Set bit `i`, saying whether it changed. -/
def set (b : Bitmap) (i : Nat) : Bool × Bitmap := b.assign i true

/-- Clear bit `i`, saying whether it changed. -/
def clear (b : Bitmap) (i : Nat) : Bool × Bitmap := b.assign i false

/-- Grow to `newLen` bits, with the new bits clear. -/
def grow (b : Bitmap) (newLen : Nat) : Bitmap :=
  if newLen ≤ b.len then b else { b with words := resize b.words ((newLen + 63) / 64), len := newLen }

/-- Clear every bit. -/
def clearAll (b : Bitmap) : Bitmap := { b with words := List.replicate b.words.length 0#64, ones := 0 }

/-- The indices of the set bits, by an iterator. -/
def iterSet (b : Bitmap) : SetBits := ⟨b.words, 0, b.words.head?.getD 0#64⟩

/-- The raw words. -/
def asWords (b : Bitmap) : List (BitVec 64) := b.words

/-- Rebuild from raw words; bits beyond `len` are cleared. -/
def fromWords (words : List (BitVec 64)) (len : Nat) : Bitmap :=
  let b := clearTail ⟨resize words ((len + 63) / 64), len, 0⟩
  { b with ones := (b.words.map Packed.ones).sum }

end Bitmap

namespace SetBits

/-- The next set bit: the lowest one left in the word, or else in a later word. -/
def next (s : SetBits) : Option Nat × SetBits :=
  if s.current ≠ 0#64 then
    (some (s.wordIdx * 64 + s.current.ctz.toNat), { s with current := s.current &&& (s.current - 1#64) })
  else match h : s.words[s.wordIdx + 1]? with
    | none => (none, { s with wordIdx := s.wordIdx + 1 })
    | some w => next ⟨s.words, s.wordIdx + 1, w⟩
termination_by s.words.length - s.wordIdx
decreasing_by
  have hlt := (List.getElem?_eq_some_iff.mp h).1
  show s.words.length - (s.wordIdx + 1) < s.words.length - s.wordIdx
  omega

/-- **What an iterator gives** until it gives nothing. -/
inductive Gives : SetBits → List Nat → Prop
  | done {s s' : SetBits} (h : s.next = (none, s')) : Gives s []
  | more {s s' : SetBits} {i : Nat} {rest : List Nat} (h : s.next = (some i, s')) (hrest : Gives s' rest) :
      Gives s (i :: rest)

end SetBits

/-- The operations on a bitmap; a constructor starts a new one. -/
inductive BitmapOp where
  | new (len : Nat)
  | allSet (len : Nat)
  | fromWords (words : List (BitVec 64)) (len : Nat)
  | set (i : Nat)
  | clear (i : Nat)
  | grow (newLen : Nat)
  | clearAll

/-- The bitmap after an operation. -/
def BitmapOp.apply (b : Bitmap) : BitmapOp → Bitmap
  | .new len => .new len
  | .allSet len => .allSet len
  | .fromWords words len => .fromWords words len
  | .set i => (b.set i).2
  | .clear i => (b.clear i).2
  | .grow newLen => b.grow newLen
  | .clearAll => b.clearAll

end IshaVectorDb.Engine
