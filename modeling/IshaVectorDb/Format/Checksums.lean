import IshaVectorDb.Format.Crc32c
import IshaVectorDb.Parsing.Remainders

/-!
# `Format.Checksums` — the table-driven checksum **is CRC-32C**

The running checksum in the source's own words: a table that a constant builds, a byte at a time through it, started,
resumed and finished. It is `crc32c` over the naturals (`crc32c_eq`), and that is the bitwise checksum, one round for every
bit of the message; and what it leaves is the remainder of the message by the Castagnoli polynomial (`checksum_is_crc32c`).
Pieces of a message, with the checksum finished and resumed between them or not, give the checksum of the whole.
-/

namespace IshaVectorDb.Format

open Parsing ShiftRegister Polynomial

/-! ## The running checksum -/

/-- One round of the table's construction. -/
def tableBit (crc : UInt32) : UInt32 := if crc &&& 1 ≠ 0 then (crc >>> 1) ^^^ 0x82F63B78 else crc >>> 1

/-- The byte-at-a-time table. -/
def crcTable : List UInt32 := (List.range 256).map (fun i => tableBit^[8] (UInt32.ofNat i))

/-- Incremental CRC-32C. -/
structure Crc32c where
  state : UInt32

namespace Crc32c

/-- Start a new checksum. -/
def new : Crc32c := ⟨0xFFFFFFFF⟩

/-- Resume from a previously finished value. -/
def resume (previous : UInt32) : Crc32c := ⟨~~~previous⟩

/-- One byte. -/
def step (crc : UInt32) (b : UInt8) : UInt32 :=
  let idx := ((crc ^^^ b.toUInt32) &&& 0xFF).toNat
  let entry := match crcTable[idx]? with
    | some e => e
    | none => 0
  (crc >>> 8) ^^^ entry

/-- Feed bytes in. -/
def update (c : Crc32c) (data : List UInt8) : Crc32c := ⟨data.foldl step c.state⟩

/-- The checksum of everything fed in so far. -/
def finish (c : Crc32c) : UInt32 := ~~~c.state

/-- Feed pieces in; before a marked one the checksum is finished, and resumed from its value. -/
def updateAll (c : Crc32c) (pieces : List (Bool × List UInt8)) : Crc32c :=
  pieces.foldl (fun c piece => (if piece.1 then resume c.finish else c).update piece.2) c

end Crc32c

/-! ## What it should be -/

/-- The bits of a message, the low bit of each byte first. -/
def messageBits (data : List UInt8) : List Bool := (List.range (8 * data.length)).map (bitAt data)

/-- **The bitwise checksum**: every bit goes into the low bit of the register, and then a round. -/
def crc32cBitwise (data : List UInt8) : UInt32 :=
  UInt32.ofNat (0xFFFFFFFF - (messageBits data).foldl (feed poly) 0xFFFFFFFF)

/-- The Castagnoli polynomial. -/
noncomputable def castagnoli : (ZMod 2)[X] :=
  X ^ 32 + X ^ 28 + X ^ 27 + X ^ 26 + X ^ 25 + X ^ 23 + X ^ 22 + X ^ 20 + X ^ 19 + X ^ 18 + X ^ 14 + X ^ 13 + X ^ 11 +
    X ^ 10 + X ^ 9 + X ^ 8 + X ^ 6 + 1

/-- The polynomial of 32 ones. -/
noncomputable def allOnes : (ZMod 2)[X] := ∑ i ∈ Finset.range 32, X ^ i

/-- **CRC-32C by division**: the message with ones in front, moved up by 32, leaves a remainder by the Castagnoli
    polynomial; its complement is the checksum, the highest coefficient in the low bit. -/
def IsCrc32c (data : List UInt8) (crc : UInt32) : Prop :=
  polyOf 32 crc.toNat =
    (X ^ (8 * data.length) * allOnes + X ^ 32 * messageOf (messageBits data)) %ₘ castagnoli + allOnes

/-! ## Words as numbers -/

theorem tableBit_toNat (crc : UInt32) : (tableBit crc).toNat = tableRound crc.toNat := by
  have hbit : crc &&& 1 ≠ 0 ↔ crc.toNat % 2 ≠ 0 := by
    rw [ne_eq, ← UInt32.toNat_inj, UInt32.toNat_and]
    show ¬ (crc.toNat &&& 1 = 0) ↔ _
    rw [Nat.and_one_is_mod]
  have hshift : (crc >>> 1).toNat = crc.toNat >>> 1 := by
    rw [UInt32.toNat_shiftRight]
    rfl
  unfold tableBit
  rw [tableRound_eq]
  by_cases h : crc &&& 1 ≠ 0
  · rw [if_pos h, if_pos (hbit.mp h), UInt32.toNat_xor, hshift]
    rfl
  · rw [if_neg h, if_neg (fun h' => h (hbit.mpr h')), hshift]

theorem tableBits_toNat (n : Nat) (crc : UInt32) : (tableBit^[n] crc).toNat = tableRound^[n] crc.toNat := by
  induction n generalizing crc with
  | zero => rfl
  | succ n ih => rw [Function.iterate_succ_apply, Function.iterate_succ_apply, ih, tableBit_toNat]

/-- **The table's entries.** -/
theorem crcTable_get {i : Nat} (hi : i < 256) : ∃ e, crcTable[i]? = some e ∧ e.toNat = table i := by
  refine ⟨tableBit^[8] (UInt32.ofNat i), ?_, ?_⟩
  · unfold crcTable
    rw [List.getElem?_map, List.getElem?_range hi]
    rfl
  · have hsize : i < UInt32.size := lt_trans hi (by decide)
    rw [tableBits_toNat, UInt32.toNat_ofNat_of_lt' hsize]
    rfl

namespace Crc32c

theorem step_toNat (crc : UInt32) (b : UInt8) : (step crc b).toNat = crcStep crc.toNat b := by
  have hidx : ((crc ^^^ b.toUInt32) &&& 0xFF).toNat = (crc.toNat ^^^ b.toNat) % 256 := by
    rw [UInt32.toNat_and, UInt32.toNat_xor]
    exact Nat.and_two_pow_sub_one_eq_mod _ 8
  obtain ⟨e, he, hentry⟩ := crcTable_get (Nat.mod_lt (crc.toNat ^^^ b.toNat) (by omega : 256 > 0))
  unfold step crcStep
  dsimp only
  rw [hidx, he, UInt32.toNat_xor, UInt32.toNat_shiftRight, hentry]
  show crc.toNat >>> 8 ^^^ _ = _
  rw [Nat.shiftRight_eq_div_pow]

/-- **The running checksum is the one over the naturals.** -/
theorem update_toNat (c : Crc32c) (data : List UInt8) : (c.update data).state.toNat = crcUpdate c.state.toNat data := by
  obtain ⟨crc⟩ := c
  induction data generalizing crc with
  | nil => rfl
  | cons b data ih =>
    refine (ih (step crc b)).trans ?_
    rw [step_toNat]
    rfl

/-- Finishing complements the register. -/
theorem finish_eq (c : Crc32c) : c.finish = UInt32.ofNat (0xFFFFFFFF - c.state.toNat) := by
  apply UInt32.toNat_inj.mp
  have hsize : 0xFFFFFFFF - c.state.toNat < UInt32.size := lt_of_le_of_lt (Nat.sub_le _ _) (by decide)
  rw [UInt32.toNat_ofNat_of_lt' hsize]
  unfold finish
  rw [UInt32.toNat_not]
  rfl

/-- **A finished checksum is resumed where it was.** -/
theorem resume_finish (c : Crc32c) : resume c.finish = c := by
  unfold resume finish
  rw [UInt32.not_not]

theorem update_append (c : Crc32c) (xs ys : List UInt8) : c.update (xs ++ ys) = (c.update xs).update ys := by
  unfold update
  rw [List.foldl_append]

/-- **Pieces are the whole.** -/
theorem updateAll_eq (c : Crc32c) (pieces : List (Bool × List UInt8)) :
    c.updateAll pieces = c.update (pieces.map Prod.snd).flatten := by
  induction pieces generalizing c with
  | nil => rfl
  | cons piece pieces ih =>
    have hsame : (if piece.1 then resume c.finish else c) = c := by
      split
      · exact resume_finish c
      · rfl
    refine (ih _).trans ?_
    dsimp only
    rw [hsame, List.map_cons, List.flatten_cons, update_append]

end Crc32c

/-- The checksum of a buffer, by the running one. -/
theorem crc32c_eq (data : List UInt8) : crc32c data = (Crc32c.new.update data).finish := by
  rw [Crc32c.finish_eq, Crc32c.update_toNat]
  rfl

/-! ## Bits and polynomials -/

/-- The bits of a message are those of the number it stands for. -/
theorem messageBits_eq (data : List UInt8) : messageBits data = bitsOf (8 * data.length) (leNat data) :=
  List.map_congr_left fun i _ => (testBit_leNat data i).symm

theorem length_messageBits (data : List UInt8) : (messageBits data).length = 8 * data.length := by
  unfold messageBits
  rw [List.length_map, List.length_range]

/-- **Bytes through the table** are bits through the rounds. -/
theorem crcUpdate_eq_feed (crc : Nat) (data : List UInt8) : crcUpdate crc data = (messageBits data).foldl (feed poly) crc := by
  have hlt : leNat data < 2 ^ (8 * data.length) := by
    have h := leNat_lt data
    rwa [show (256 : Nat) = 2 ^ 8 by rfl, ← Nat.pow_mul] at h
  rw [messageBits_eq, foldl_feed _ hlt, crcUpdate_eq_rounds]

theorem crc32c_bitwise (data : List UInt8) : crc32c data = crc32cBitwise data := by
  unfold crc32c crc32cBitwise
  rw [crcUpdate_eq_feed]

/-- The source's constant is the Castagnoli polynomial, reflected and without its highest term. -/
theorem generator_poly : generator 32 poly = castagnoli := by
  unfold generator castagnoli polyOf
  simp only [Finset.sum_range_succ, Finset.sum_range_zero, coefficient]
  simp [poly, Nat.testBit]
  ring

theorem polyOf_allOnes : polyOf 32 0xFFFFFFFF = allOnes := by
  unfold polyOf allOnes
  refine Finset.sum_congr rfl fun i hi => ?_
  have hi : i < 32 := Finset.mem_range.mp hi
  rw [show 0xFFFFFFFF = 2 ^ 32 - 1 by rfl, Nat.testBit_two_pow_sub_one, decide_eq_true (by omega)]
  simp [coefficient]

/-- **The checksum is the one that division gives**, and no other number is. -/
theorem isCrc32c_iff (data : List UInt8) (crc : UInt32) : IsCrc32c data crc ↔ crc = crc32c data := by
  set s := crcUpdate 0xFFFFFFFF data with hs
  have hlt : s < 2 ^ 32 := crcUpdate_lt data _ (by omega)
  have hremainder : polyOf 32 s = (X ^ (8 * data.length) * allOnes + X ^ 32 * messageOf (messageBits data)) %ₘ castagnoli := by
    rw [hs, crcUpdate_eq_feed, polyOf_foldl (by omega) poly_lt _ (by omega), polyOf_allOnes, generator_poly,
      length_messageBits]
  have hcrc : (crc32c data).toNat = s ^^^ 0xFFFFFFFF := by
    have hsize : 0xFFFFFFFF - s < UInt32.size := lt_of_le_of_lt (Nat.sub_le _ _) (by decide)
    have hxor : s ^^^ (s ^^^ (0xFFFFFFFF - s)) = s ^^^ 0xFFFFFFFF := congrArg (s ^^^ ·) (xor_complement hlt)
    rw [← Nat.xor_assoc, Nat.xor_self, Nat.zero_xor] at hxor
    unfold crc32c
    rw [← hs, UInt32.toNat_ofNat_of_lt' hsize, hxor]
  have hpoly : polyOf 32 (crc32c data).toNat = polyOf 32 s + allOnes := by
    rw [hcrc, polyOf_xor, polyOf_allOnes]
  unfold IsCrc32c
  rw [← hremainder, ← hpoly]
  constructor
  · intro h
    exact UInt32.toNat_inj.mp (polyOf_injective crc.toNat_lt (crc32c data).toNat_lt h)
  · rintro rfl
    rfl

/-- **The table-driven checksum is CRC-32C**: it is the bitwise checksum and the one that division gives, and however the
    bytes come in pieces, with the checksum finished and resumed between them or not, it is the same. -/
theorem checksum_is_crc32c (data : List UInt8) :
    (Crc32c.new.update data).finish = crc32cBitwise data ∧
      (∀ crc, IsCrc32c data crc ↔ crc = (Crc32c.new.update data).finish) ∧
      ∀ pieces : List (Bool × List UInt8), (pieces.map Prod.snd).flatten = data →
        (Crc32c.new.updateAll pieces).finish = (Crc32c.new.update data).finish := by
  refine ⟨?_, fun crc => ?_, fun pieces hpieces => ?_⟩
  · rw [← crc32c_eq, crc32c_bitwise]
  · rw [← crc32c_eq]
    exact isCrc32c_iff data crc
  · rw [Crc32c.updateAll_eq, hpieces]

end IshaVectorDb.Format
