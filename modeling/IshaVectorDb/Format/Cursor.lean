import IshaVectorDb.Parsing.Reads
import IshaVectorDb.Parsing.LittleEndian
import IshaVectorDb.Format.Varint

/-!
# `Format.Cursor` — bounded reading and writing over bytes

Every decoder of the format goes through the methods below, and so does every encoder: a reader is the
parser's input (bytes left, offset of the next one), a writer is the bytes written so far. Each `Reads` lemma
is one field's round trip.

`Str` is the source's `String`: bytes that are UTF-8, compared byte by byte.
-/

namespace IshaVectorDb.Format

open Parsing

abbrev Bytes := List UInt8

/-! ## Errors -/

/-- What a malformed structure broke. -/
inductive MalformedKind
  | reservedNotZero
  | headerTooShort
  | unknownFileKind (tag : Bytes)
  | unknownFlags (bits : Nat)
  | unknownValueTag (tag : UInt8)
  | unknownDiscriminant (field : String) (value : UInt8)
  | nonCanonicalVarint
  | invalidUtf8
  | keysNotSorted
  | duplicateKey
  | depthExceeded (max : Nat)
  | zeroNotAllowed (field : String)
  | nonFiniteFloat
  | inconsistent (field : String)
deriving DecidableEq, Repr

/-- Why persisted bytes were refused. -/
inductive FormatError
  | badMagic (expected found : Bytes)
  | unsupportedVersion (found minReadable current : Nat)
  | checksumMismatch (offset : Nat) (expected found : UInt32)
  | truncated (offset needed available : Nat)
  | lengthExceedsInput (offset claimed available : Nat)
  | malformed (offset : Nat) (kind : MalformedKind)
deriving DecidableEq, Repr

/-- Whether the input simply ends early: the one failure a torn tail may show. -/
def FormatError.isTruncation : FormatError → Bool
  | .truncated _ _ _ => true
  | _ => false

/-! ## Strings -/

/-- The bytes at the front that continue a multi-byte character. -/
def isContinuation (b : UInt8) : Bool := 0x80 ≤ b && b ≤ 0xBF

/-- Decode UTF-8 into code points: no overlong forms, no surrogates, nothing past `U+10FFFF`. -/
def utf8Chars : Bytes → Option (List Nat)
  | [] => some []
  | a :: rest =>
      if a < 0x80 then (utf8Chars rest).map (a.toNat :: ·)
      else match rest with
        | [] => none
        | b :: rest =>
            if 0xC2 ≤ a && a ≤ 0xDF then
              if isContinuation b then (utf8Chars rest).map ((a.toNat % 32 * 64 + b.toNat % 64) :: ·) else none
            else match rest with
              | [] => none
              | c :: rest =>
                  if 0xE0 ≤ a && a ≤ 0xEF then
                    if isContinuation b && isContinuation c
                        && !(a == 0xE0 && b < 0xA0) && !(a == 0xED && 0xA0 ≤ b) then
                      (utf8Chars rest).map ((a.toNat % 16 * 4096 + b.toNat % 64 * 64 + c.toNat % 64) :: ·)
                    else none
                  else match rest with
                    | [] => none
                    | d :: rest =>
                        if 0xF0 ≤ a && a ≤ 0xF4 && isContinuation b && isContinuation c && isContinuation d
                            && !(a == 0xF0 && b < 0x90) && !(a == 0xF4 && 0x90 ≤ b) then
                          (utf8Chars rest).map ((a.toNat % 8 * 262144 + b.toNat % 64 * 4096
                            + c.toNat % 64 * 64 + d.toNat % 64) :: ·)
                        else none

/-- A string: bytes that are UTF-8. -/
structure Str where
  bytes : Bytes
  utf8 : (utf8Chars bytes).isSome = true
deriving DecidableEq

-- what the strings of one character in the fixed runs carry
theorem utf8_empty : (utf8Chars []).isSome = true := rfl

theorem utf8_a : (utf8Chars [0x61]).isSome = true := by decide

theorem utf8_b : (utf8Chars [0x62]).isSome = true := by decide

theorem utf8_d : (utf8Chars [0x64]).isSome = true := by decide

/-- The code points of a string. -/
def Str.chars (s : Str) : List Nat := (utf8Chars s.bytes).getD []

/-- Check bytes for UTF-8. -/
def fromUtf8 (bytes : Bytes) : Option Str :=
  if h : (utf8Chars bytes).isSome = true then some ⟨bytes, h⟩ else none

theorem Str.ext {s t : Str} (h : s.bytes = t.bytes) : s = t := by
  cases s; cases t; simpa using h

@[simp] theorem fromUtf8_bytes (s : Str) : fromUtf8 s.bytes = some s := dif_pos s.utf8

theorem bytes_of_fromUtf8 {bs : Bytes} {s : Str} (h : fromUtf8 bs = some s) : s.bytes = bs := by
  unfold fromUtf8 at h
  split at h
  · exact (Option.some.inj h) ▸ rfl
  · cases h

/-! ## Reading -/

/-- A reader over a slice of a larger buffer. -/
abbrev Reader (α : Type) := Parser FormatError α

namespace Reader

/-- Take exactly `n` bytes. -/
def bytes (n : Nat) : Reader Bytes := fun i =>
  if n ≤ i.rest.length then .ok (i.rest.take n, ⟨i.rest.drop n, i.offset + n⟩)
  else .error (.truncated i.offset n i.rest.length)

/-- Take `claimed` bytes, where `claimed` came from the input at `at_`. -/
def bytesClaimed (claimed : UInt64) (at_ : Nat) : Reader Bytes := fun i =>
  if i.rest.length < claimed.toNat then
    .error (.lengthExceedsInput at_ claimed.toNat i.rest.length)
  else bytes claimed.toNat i

def u8 : Reader UInt8 := fun i => match i.rest with
  | b :: rest => .ok (b, ⟨rest, i.offset + 1⟩)
  | [] => .error (.truncated i.offset 1 0)

def u16 : Reader UInt16 := do return UInt16.ofNat (leNat (← bytes 2))

def u32 : Reader UInt32 := do return UInt32.ofNat (leNat (← bytes 4))

def u64 : Reader UInt64 := do return UInt64.ofNat (leNat (← bytes 8))

/-- `f32::is_finite` on the bits: the exponent is not all ones. -/
def finite32 (bits : UInt32) : Bool := bits.toNat / 2 ^ 23 % 2 ^ 8 ≠ 2 ^ 8 - 1

theorem finite32_zero : finite32 0 = true := by decide

/-- Read the bits of an `f32`, rejecting non-finite values. -/
def f32 : Reader UInt32 := do
  let at_ ← position
  let v ← u32
  if finite32 v then return v else fail (.malformed at_ .nonFiniteFloat)

/-- Read a LEB128 varint. -/
def varint : Reader UInt64 := fun i => match Varint.decodeU64 i.rest with
  | .ok (v, n) => .ok (v, ⟨i.rest.drop n, i.offset + n⟩)
  | .error .truncated => .error (.truncated i.offset 1 i.rest.length)
  | .error _ => .error (.malformed i.offset .nonCanonicalVarint)

/-- Read a length-prefixed byte string. -/
def blob : Reader Bytes := do
  let at_ ← position
  let len ← varint
  bytesClaimed len at_

/-- Read a length-prefixed UTF-8 string. -/
def string : Reader Str := do
  let at_ ← position
  let bs ← blob
  match fromUtf8 bs with
  | some s => return s
  | none => fail (.malformed at_ .invalidUtf8)

/-- Read `n` bytes that must be zero. -/
def reserved (n : Nat) : Reader Unit := do
  let at_ ← position
  let bs ← bytes n
  if bs.any (· ≠ 0) then fail (.malformed at_ .reservedNotZero)

/-- Require that every byte was consumed. -/
def expectEnd (field : String) : Reader Unit := fun i =>
  if i.rest.isEmpty then .ok ((), i) else .error (.malformed i.offset (.inconsistent field))

/-- Refuse a count that the bytes left could not supply. -/
def bounded (claimed : UInt64) (maxPossible at_ : Nat) : Reader Nat :=
  if maxPossible < claimed.toNat then fail (.lengthExceedsInput at_ claimed.toNat maxPossible)
  else pure claimed.toNat

end Reader

/-! ## Writing -/

namespace Writer

def u16 (v : UInt16) : Bytes := leBytes 2 v.toNat

def u32 (v : UInt32) : Bytes := leBytes 4 v.toNat

def u64 (v : UInt64) : Bytes := leBytes 8 v.toNat

def varint (v : UInt64) : Bytes := Varint.encodeU64 v

/-- A length-prefixed byte string. -/
def blob (bs : Bytes) : Bytes := varint (UInt64.ofNat bs.length) ++ bs

def string (s : Str) : Bytes := blob s.bytes

/-- `n` zero bytes. -/
def reserved (n : Nat) : Bytes := List.replicate n 0

@[simp] theorem u16_length (v : UInt16) : (u16 v).length = 2 := leBytes_length _ _

@[simp] theorem u32_length (v : UInt32) : (u32 v).length = 4 := leBytes_length _ _

@[simp] theorem u64_length (v : UInt64) : (u64 v).length = 8 := leBytes_length _ _

@[simp] theorem reserved_length (n : Nat) : (reserved n).length = n := List.length_replicate

theorem varint_length_pos (v : UInt64) : 0 < (varint v).length := Varint.encodeU64_length_pos v

theorem blob_length (bs : Bytes) :
    (blob bs).length = (varint (UInt64.ofNat bs.length)).length + bs.length := List.length_append

end Writer

/-! ## Each field's round trip -/

namespace Reader

theorem bytes_append (bs rest : Bytes) (o : Nat) :
    bytes bs.length ⟨bs ++ rest, o⟩ = .ok (bs, ⟨rest, o + bs.length⟩) := by
  unfold bytes
  rw [if_pos (by rw [List.length_append]; omega), List.take_left, List.drop_left]

theorem reads_bytes {bs : Bytes} {n : Nat} (h : bs.length = n) : Reads (bytes n) bs bs := by
  subst h; exact bytes_append bs

/-- A read that wants more than there is reports the input as truncated. -/
theorem bytes_short {n : Nat} {i : Input} (h : i.rest.length < n) :
    bytes n i = .error (.truncated i.offset n i.rest.length) := if_neg (by omega)

theorem reads_u8 (b : UInt8) : Reads u8 [b] b := fun _ _ => rfl

theorem reads_u16 (v : UInt16) : Reads u16 (Writer.u16 v) v := by
  refine Reads.bind_nil (reads_bytes (Writer.u16_length v)) ?_
  have h := leNat_u16 v
  rw [Writer.u16, h]; exact Reads.pure v

theorem reads_u32 (v : UInt32) : Reads u32 (Writer.u32 v) v := by
  refine Reads.bind_nil (reads_bytes (Writer.u32_length v)) ?_
  have h := leNat_u32 v
  rw [Writer.u32, h]; exact Reads.pure v

theorem reads_u64 (v : UInt64) : Reads u64 (Writer.u64 v) v := by
  refine Reads.bind_nil (reads_bytes (Writer.u64_length v)) ?_
  have h := leNat_u64 v
  rw [Writer.u64, h]; exact Reads.pure v

theorem reads_f32 {v : UInt32} (h : finite32 v = true) : Reads f32 (Writer.u32 v) v := by
  refine Reads.position_bind (fun _ => Reads.bind_nil (reads_u32 v) ?_)
  rw [if_pos h]; exact Reads.pure v

theorem reads_varint (v : UInt64) : Reads varint (Writer.varint v) v := by
  intro rest o
  unfold varint Writer.varint
  simp only [Varint.decodeU64_encodeU64, List.drop_left]

theorem reads_blob {bs : Bytes} (h : bs.length < 2 ^ 64) : Reads blob (Writer.blob bs) bs := by
  have hn : (UInt64.ofNat bs.length).toNat = bs.length := by
    rw [UInt64.toNat_ofNat']; exact Nat.mod_eq_of_lt h
  refine Reads.position_bind (fun o => Reads.bind (reads_varint _) ?_)
  intro rest o'
  unfold bytesClaimed
  rw [hn, if_neg (by simp), bytes_append]

theorem reads_string {s : Str} (h : s.bytes.length < 2 ^ 64) : Reads string (Writer.string s) s := by
  refine Reads.position_bind (fun o => Reads.bind_nil (reads_blob h) ?_)
  rw [fromUtf8_bytes]; exact Reads.pure s

theorem reads_reserved (n : Nat) : Reads (reserved n) (Writer.reserved n) () := by
  refine Reads.position_bind (fun o => Reads.bind_nil (reads_bytes (Writer.reserved_length n)) ?_)
  have hz : (Writer.reserved n).any (· ≠ 0) = false := by
    rw [List.any_eq_false]
    intro b hb
    simp [List.eq_of_mem_replicate hb]
  rw [hz]; exact Reads.pure ()

theorem readsAll_expectEnd (field : String) : ReadsAll (expectEnd field) [] () := fun _ => rfl

theorem reads_bounded {n : UInt64} {m : Nat} (at_ : Nat) (h : n.toNat ≤ m) :
    Reads (bounded n m at_) [] n.toNat := by
  unfold bounded
  rw [if_neg (by omega)]; exact Reads.pure _

/-! ## Torn fields -/

/-- The failure of a read that runs off the end of its input. -/
abbrev Cut (e : FormatError) : Prop := e.isTruncation = true

theorem torn_bytes {bs : Bytes} {n : Nat} (h : bs.length = n) : Torn Cut (bytes n) bs := by
  intro k hk o
  have hlen : (bs.take k).length < n := by rw [List.length_take]; omega
  exact ⟨_, bytes_short hlen, rfl⟩

theorem torn_u16 (v : UInt16) : Torn Cut u16 (Writer.u16 v) := (torn_bytes (Writer.u16_length v)).bind_left

theorem torn_u32 (v : UInt32) : Torn Cut u32 (Writer.u32 v) := (torn_bytes (Writer.u32_length v)).bind_left

theorem torn_u64 (v : UInt64) : Torn Cut u64 (Writer.u64 v) := (torn_bytes (Writer.u64_length v)).bind_left

theorem torn_reserved (n : Nat) : Torn Cut (reserved n) (Writer.reserved n) := by
  intro k hk o
  obtain ⟨e, he, hT⟩ := torn_bytes (Writer.reserved_length n) k hk o
  refine ⟨e, ?_, hT⟩
  show (bytes n >>= fun bs => if bs.any (· ≠ 0) then fail (.malformed o .reservedNotZero) else pure ()) _ = _
  exact bind_of_error he

end Reader

end IshaVectorDb.Format
