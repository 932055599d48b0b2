import IshaVectorDb.Parsing.ShiftRegister
import Mathlib.Tactic.SplitIfs

/-!
# `Format.Crc32c` — the Castagnoli checksum on every persisted block

The byte-at-a-time form of the source, over the naturals below `2 ^ 32`. A table entry is computed by the
same eight rounds that build the table at compile time. `crc32c_byte`: two buffers that differ in one byte never
have one checksum, since a table entry's top byte tells its index and so a step loses nothing. `Sealed.eq_of_burst`:
neither do a buffer and its checksum, taken together, survive a burst of 32 bits, since the whole of them is one number
that goes through a shift register (`crcUpdate_eq_rounds`).
-/

namespace IshaVectorDb.Format

/-- Reflected Castagnoli polynomial. -/
def poly : Nat := 0x82F63B78

/-- One shift round of the table's construction: the polynomial enters when the low bit is set. -/
def tableRound (crc : Nat) : Nat := (crc / 2) ^^^ (poly * (crc % 2))

theorem tableRound_eq (crc : Nat) :
    tableRound crc = if crc % 2 ≠ 0 then (crc >>> 1) ^^^ poly else crc >>> 1 := by
  have hs : crc >>> 1 = crc / 2 := by rw [Nat.shiftRight_eq_div_pow]
  unfold tableRound
  split_ifs with h
  · have h1 : crc % 2 = 1 := by omega
    rw [h1, Nat.mul_one, hs]
  · have h0 : crc % 2 = 0 := by omega
    rw [h0, Nat.mul_zero, Nat.xor_zero, hs]

/-- The entry of the byte-at-a-time table at `idx`. -/
def table (idx : Nat) : Nat :=
  tableRound (tableRound (tableRound (tableRound (tableRound (tableRound (tableRound (tableRound idx)))))))

/-- Feed bytes into a running checksum. -/
def crcUpdate : Nat → List UInt8 → Nat
  | crc, [] => crc
  | crc, b :: rest => crcUpdate ((crc / 256) ^^^ table ((crc ^^^ b.toNat) % 256)) rest

/-- Checksum a single buffer. -/
def crc32c (data : List UInt8) : UInt32 := UInt32.ofNat (0xFFFFFFFF - crcUpdate 0xFFFFFFFF data)

example : crc32c [0x31, 0x32, 0x33, 0x34, 0x35, 0x36, 0x37, 0x38, 0x39] = 0xE3069283 := by decide +kernel

/-! ## One byte's difference is always seen -/

/-- A shift round taken back: the polynomial's own top bit says whether it entered. -/
def untableRound (crc : Nat) : Nat := if crc / 2 ^ 31 % 2 = 1 then 2 * (crc ^^^ poly) + 1 else 2 * crc

/-- The index of the table entry with the top byte `top`. -/
def tableIndex (top : Nat) : Nat :=
  untableRound (untableRound (untableRound (untableRound (untableRound (untableRound (untableRound
    (untableRound (top * 2 ^ 24)))))))) % 256

theorem tableIndex_top : ∀ i < 256, tableIndex (table i / 2 ^ 24) = i := by
  have h : (List.range 256).all (fun i => tableIndex (table i / 2 ^ 24) == i) = true := by decide +kernel
  exact fun i hi => beq_iff_eq.mp (List.all_eq_true.mp h i (List.mem_range.mpr hi))

/-- The top byte of a table entry tells which entry it is. -/
theorem table_top_injective {i j : Nat} (hi : i < 256) (hj : j < 256) (h : table i / 2 ^ 24 = table j / 2 ^ 24) :
    i = j := by
  rw [← tableIndex_top i hi, h, tableIndex_top j hj]

theorem table_lt : ∀ i < 256, table i < 2 ^ 32 := by
  have h : (List.range 256).all (fun i => decide (table i < 2 ^ 32)) = true := by decide +kernel
  exact fun i hi => of_decide_eq_true (List.all_eq_true.mp h i (List.mem_range.mpr hi))

/-- What one byte does to the running checksum. -/
def crcStep (crc : Nat) (b : UInt8) : Nat := (crc / 256) ^^^ table ((crc ^^^ b.toNat) % 256)

theorem crcUpdate_append (xs ys : List UInt8) : ∀ crc, crcUpdate crc (xs ++ ys) = crcUpdate (crcUpdate crc xs) ys := by
  induction xs with
  | nil => exact fun _ => rfl
  | cons b xs ih => exact fun crc => ih _

theorem crcStep_lt {crc : Nat} (h : crc < 2 ^ 32) (b : UInt8) : crcStep crc b < 2 ^ 32 :=
  Nat.xor_lt_two_pow (by omega) (table_lt _ (Nat.mod_lt _ (by omega)))

theorem crcUpdate_lt (xs : List UInt8) : ∀ crc, crc < 2 ^ 32 → crcUpdate crc xs < 2 ^ 32 := by
  induction xs with
  | nil => exact fun _ h => h
  | cons b xs ih => exact fun crc h => ih _ (crcStep_lt h b)

/-- Two steps that end alike began alike: on the bytes' difference, and on everything above the low byte. -/
theorem crcStep_eq {crc crc' : Nat} (h : crc < 2 ^ 32) (h' : crc' < 2 ^ 32) {b b' : UInt8}
    (heq : crcStep crc b = crcStep crc' b') :
    (crc ^^^ b.toNat) % 256 = (crc' ^^^ b'.toNat) % 256 ∧ crc / 256 = crc' / 256 := by
  have htop : ∀ c i : Nat, c < 2 ^ 32 → (c / 256 ^^^ table i) / 2 ^ 24 = table i / 2 ^ 24 := fun c i hc => by
    have h0 : c / 256 / 2 ^ 24 = 0 := Nat.div_eq_of_lt (by omega)
    rw [Nat.xor_div_two_pow, h0, Nat.zero_xor]
  have hidx : (crc ^^^ b.toNat) % 256 = (crc' ^^^ b'.toNat) % 256 := by
    apply table_top_injective (Nat.mod_lt _ (by omega)) (Nat.mod_lt _ (by omega))
    have hdiv := congrArg (· / 2 ^ 24) heq
    simp only [crcStep] at hdiv
    rwa [htop _ _ h, htop _ _ h'] at hdiv
  unfold crcStep at heq
  rw [hidx] at heq
  exact ⟨hidx, Nat.xor_left_inj.mp heq⟩

theorem crcStep_state {crc crc' : Nat} (h : crc < 2 ^ 32) (h' : crc' < 2 ^ 32) {b : UInt8}
    (heq : crcStep crc b = crcStep crc' b) : crc = crc' := by
  obtain ⟨hlow, hhigh⟩ := crcStep_eq h h' heq
  have hmod : crc % 256 = crc' % 256 := by
    rw [show 256 = 2 ^ 8 by rfl, Nat.xor_mod_two_pow, Nat.xor_mod_two_pow] at hlow
    exact Nat.xor_left_inj.mp hlow
  omega

theorem crcStep_byte {crc : Nat} (h : crc < 2 ^ 32) {b b' : UInt8} (heq : crcStep crc b = crcStep crc b') : b = b' := by
  obtain ⟨hlow, -⟩ := crcStep_eq h h heq
  rw [show 256 = 2 ^ 8 by rfl, Nat.xor_mod_two_pow, Nat.xor_mod_two_pow] at hlow
  have hb := Nat.xor_right_inj.mp hlow
  rw [Nat.mod_eq_of_lt b.toNat_lt, Nat.mod_eq_of_lt b'.toNat_lt] at hb
  exact UInt8.toNat.inj hb

theorem crcUpdate_state (xs : List UInt8) : ∀ crc crc', crc < 2 ^ 32 → crc' < 2 ^ 32 →
    crcUpdate crc xs = crcUpdate crc' xs → crc = crc' := by
  induction xs with
  | nil => exact fun _ _ _ _ h => h
  | cons b xs ih =>
    intro crc crc' h h' heq
    exact crcStep_state h h' (ih _ _ (crcStep_lt h b) (crcStep_lt h' b) heq)

/-- **A changed byte changes the checksum**, wherever it stands and whatever surrounds it. -/
theorem crc32c_byte {xs ys : List UInt8} {b b' : UInt8} (h : crc32c (xs ++ b :: ys) = crc32c (xs ++ b' :: ys)) :
    b = b' := by
  have hinit : (0xFFFFFFFF : Nat) < 2 ^ 32 := by omega
  have hmid := crcUpdate_lt xs _ hinit
  have hlt : ∀ zs, crcUpdate 0xFFFFFFFF zs < 2 ^ 32 := fun zs => crcUpdate_lt zs _ hinit
  have hnat := congrArg UInt32.toNat h
  simp only [crc32c, UInt32.toNat_ofNat'] at hnat
  have heq : crcUpdate 0xFFFFFFFF (xs ++ b :: ys) = crcUpdate 0xFFFFFFFF (xs ++ b' :: ys) := by
    have h1 := hlt (xs ++ b :: ys)
    have h2 := hlt (xs ++ b' :: ys)
    omega
  rw [crcUpdate_append, crcUpdate_append] at heq
  exact crcStep_byte hmid (crcUpdate_state ys _ _ (crcStep_lt hmid b) (crcStep_lt hmid b') heq)

/-! ## The checksum as a shift register -/

open Parsing ShiftRegister

theorem poly_lt : poly < 2 ^ 32 := by decide

/-- The polynomial has the top bit. -/
theorem poly_top : 2 ^ 32 ≤ 2 * poly + 1 := by decide

/-- A table entry is eight rounds of its index. -/
theorem table_eq_rounds (idx : Nat) : table idx = (shiftRound poly)^[8] idx := rfl

/-- **A step is eight rounds** of the register with the byte in its low bits. -/
theorem crcStep_eq_rounds (crc : Nat) (b : UInt8) : crcStep crc b = (shiftRound poly)^[8] (crc ^^^ b.toNat) := by
  have hbyte : b.toNat / 2 ^ 8 = 0 := Nat.div_eq_of_lt b.toNat_lt
  rw [rounds_split, Nat.xor_div_two_pow, hbyte, Nat.xor_zero, ← table_eq_rounds]
  rfl

/-- **A buffer is eight rounds for each byte**, of the register with all of the buffer above it. -/
theorem crcUpdate_eq_rounds (bs : List UInt8) : ∀ crc,
    crcUpdate crc bs = (shiftRound poly)^[8 * bs.length] (crc ^^^ leNat bs) := by
  induction bs with
  | nil => exact fun crc => (Nat.xor_zero crc).symm
  | cons b bs ih =>
    intro crc
    have hnum : leNat (b :: bs) = b.toNat ^^^ 2 ^ 8 * leNat bs := (xor_low_high b.toNat_lt _).symm
    show crcUpdate (crcStep crc b) bs = _
    -- what is above the byte comes down eight places while the byte goes through
    rw [ih, List.length_cons, Nat.mul_succ, Function.iterate_add_apply, hnum, ← Nat.xor_assoc,
      rounds_xor poly 8, rounds_shifted, crcStep_eq_rounds]

/-- The text has its checksum behind it. -/
def Sealed (text word : List UInt8) : Prop := word.length = 4 ∧ crc32c text = UInt32.ofNat (leNat word)

/-- What a number and its complement leave of each other. -/
theorem xor_complement {s : Nat} (h : s < 2 ^ 32) : s ^^^ (0xFFFFFFFF - s) = 0xFFFFFFFF := by
  have hc : 0xFFFFFFFF - s = 2 ^ 32 - (s + 1) := by omega
  have hall : 0xFFFFFFFF = 2 ^ 32 - (0 + 1) := rfl
  rw [hc, hall]
  apply Nat.eq_of_testBit_eq
  intro i
  rw [Nat.testBit_xor, Nat.testBit_two_pow_sub_succ h, Nat.testBit_two_pow_sub_succ (Nat.two_pow_pos 32),
    Nat.zero_testBit]
  by_cases hi : i < 32
  · rw [decide_eq_true hi]; cases s.testBit i <;> rfl
  · have hhigh : s.testBit i = false :=
      Nat.testBit_lt_two_pow (lt_of_lt_of_le h (Nat.pow_le_pow_right (by omega) (by omega)))
    rw [decide_eq_false hi, hhigh]; rfl

/-- **Every sealed text leaves the register alike.** -/
theorem Sealed.residue {text word : List UInt8} (h : Sealed text word) :
    crcUpdate 0xFFFFFFFF (text ++ word) = (shiftRound poly)^[32] 0xFFFFFFFF := by
  obtain ⟨hlen, hcrc⟩ := h
  have hs : crcUpdate 0xFFFFFFFF text < 2 ^ 32 := crcUpdate_lt text _ (by omega)
  have hword : leNat word < 2 ^ 32 := by
    have hlt := leNat_lt word
    rwa [hlen] at hlt
  have hstored : leNat word = 0xFFFFFFFF - crcUpdate 0xFFFFFFFF text := by
    have hnat := congrArg UInt32.toNat hcrc
    rw [crc32c, UInt32.toNat_ofNat', UInt32.toNat_ofNat'] at hnat
    omega
  rw [crcUpdate_append, crcUpdate_eq_rounds word, hlen, hstored, xor_complement hs]

/-- **A burst changes what the register ends with**, wherever in the buffer it stands. -/
theorem eq_of_crcUpdate {bs cs : List UInt8} (hd : Differ 32 bs cs) {crc : Nat}
    (h : crcUpdate crc bs = crcUpdate crc cs) : bs = cs := by
  obtain ⟨start, hin, e, he, hdiff⟩ := hd.leNat
  rw [hd.length] at hin
  rw [crcUpdate_eq_rounds, crcUpdate_eq_rounds, hd.length] at h
  have hzero : (shiftRound poly)^[8 * cs.length] (2 ^ start * e) = 0 := by
    rw [← hdiff, ← Nat.xor_eq_zero_iff.mpr h, ← rounds_xor]
    congr 1
    rw [Nat.xor_comm crc, Nat.xor_assoc, ← Nat.xor_assoc crc, Nat.xor_self, Nat.zero_xor]
  have h0 := rounds_burst poly_lt poly_top hin he hzero
  rw [h0, Nat.mul_zero] at hdiff
  exact leNat_injective hd.length (Nat.xor_eq_zero_iff.mp hdiff)

/-- **No burst of 32 bits leaves a sealed text sealed**, in the text, in the checksum or across the border. -/
theorem Sealed.eq_of_burst {text word text' word' : List UInt8} (h : Sealed text word) (h' : Sealed text' word')
    (hd : Differ 32 (text ++ word) (text' ++ word')) : text ++ word = text' ++ word' := by
  apply eq_of_crcUpdate hd
  rw [h.residue, h'.residue]

end IshaVectorDb.Format
