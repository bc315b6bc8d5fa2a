import WaferRun.Wasm.GuestCalls

/-!
# Packed results

A guest and the host hand each other a range of the guest's memory as one signed 64-bit number, with
the pointer in the upper half. Negative numbers are errors and zero is the end of a stream. So a
pointer with its top bit set packs to a number that is refused as an error. Every other range comes
back, and bytes are never taken for an error or for the end of a stream (`packed_results`).
-/

namespace WaferRun.Wasm.Abi

def packPtrLen (ptr len : BitVec 32) : BitVec 64 := ptr.setWidth 64 <<< 32 ||| len.setWidth 64

def unpackPtrLen (packed : BitVec 64) : Except String (BitVec 32 × BitVec 32) :=
  if packed.toInt < 0 then
    .error ("guest returned a negative i64 (" ++ toString packed.toInt ++ ") where a packed (ptr, " ++
      "len) was expected — likely an error sentinel returned from an export that must return a " ++
      "pointer")
  else .ok ((packed.sshiftRight 32).setWidth 32, (packed &&& 0xFFFFFFFF).setWidth 32)

def errorCodeToNegI64 (code : ErrorCode) : BitVec 64 := BitVec.ofInt 64 (errorCodeToNeg code)

def checkedGuestRange (memSize : ℕ) (ptr len : BitVec 32) : Except String (ℕ × ℕ) :=
  if len.toInt < 0 then
    .error ("invalid length " ++ toString len.toInt ++
      ": guest-supplied lengths must be non-negative")
  else if ptr.toNat + len.toNat < 2 ^ 64 ∧ ptr.toNat + len.toNat ≤ memSize then
    .ok (ptr.toNat, len.toNat)
  else
    .error ("guest memory access out of bounds: ptr=" ++ toString ptr.toNat ++ " len=" ++
      toString len.toNat ++ " exceeds memory size " ++ toString memSize)

/-! ## Packing -/

theorem toNat_packPtrLen (ptr len : BitVec 32) :
    (packPtrLen ptr len).toNat = Wasm.packPtrLen ptr.toNat len.toNat := by
  have hptr := ptr.isLt
  have hlen := len.isLt
  have hshift : (ptr.setWidth 64 <<< 32).toNat = ptr.toNat * 2 ^ 32 := by
    rw [BitVec.toNat_shiftLeft, BitVec.toNat_setWidth_of_le (by decide), Nat.shiftLeft_eq]
    exact Nat.mod_eq_of_lt (by omega)
  rw [packPtrLen, BitVec.toNat_or, hshift, BitVec.toNat_setWidth_of_le (by decide), Nat.mul_comm,
    ← Nat.two_pow_add_eq_or_of_lt hlen, Nat.mul_comm]
  rfl

theorem packPtrLen_nonneg_iff (ptr len : BitVec 32) :
    0 ≤ (packPtrLen ptr len).toInt ↔ ptr.toNat < 2 ^ 31 := by
  have hptr := ptr.isLt
  have hlen := len.isLt
  rw [BitVec.toInt_eq_toNat_cond, toNat_packPtrLen, Wasm.packPtrLen]
  split <;> omega

theorem unpack_pack {ptr len : BitVec 32} (h : ptr.toNat < 2 ^ 31) :
    unpackPtrLen (packPtrLen ptr len) = .ok (ptr, len) := by
  have hlen := len.isLt
  have hnonneg := (packPtrLen_nonneg_iff ptr len).mpr h
  have hmsb : (packPtrLen ptr len).msb = false := by
    rw [BitVec.msb_eq_false_iff_two_mul_lt, toNat_packPtrLen, Wasm.packPtrLen]
    omega
  have hupper : ((packPtrLen ptr len).sshiftRight 32).setWidth 32 = ptr := by
    apply BitVec.eq_of_toNat_eq
    rw [BitVec.sshiftRight_eq_of_msb_false hmsb, BitVec.toNat_setWidth, BitVec.toNat_ushiftRight,
      toNat_packPtrLen, Wasm.packPtrLen, Nat.shiftRight_eq_div_pow]
    omega
  have hlower : (packPtrLen ptr len &&& 0xFFFFFFFF).setWidth 32 = len := by
    apply BitVec.eq_of_toNat_eq
    have hmask : (0xFFFFFFFF : BitVec 64).toNat = 2 ^ 32 - 1 := rfl
    rw [BitVec.toNat_setWidth, BitVec.toNat_and, hmask, Nat.and_two_pow_sub_one_eq_mod,
      toNat_packPtrLen, Wasm.packPtrLen]
    omega
  rw [unpackPtrLen, if_neg hnonneg.not_gt, hupper, hlower]

theorem unpack_pack_iff (ptr len : BitVec 32) :
    unpackPtrLen (packPtrLen ptr len) = .ok (ptr, len) ↔ ptr.toNat < 2 ^ 31 := by
  refine ⟨fun h ↦ ?_, unpack_pack⟩
  rw [← packPtrLen_nonneg_iff ptr len]
  by_contra hneg
  rw [unpackPtrLen, if_pos (not_le.mp hneg)] at h
  cases h

theorem packPtrLen_ne_zero (ptr : BitVec 32) {len : BitVec 32} (h : len ≠ 0) :
    packPtrLen ptr len ≠ 0 := by
  intro heq
  rw [← BitVec.toNat_inj, toNat_packPtrLen, Wasm.packPtrLen] at heq
  change _ = 0 at heq
  exact h (BitVec.eq_of_toNat_eq (by change _ = 0; omega))

theorem le_toNat_errorCodeToNegI64 (code : ErrorCode) (h : code ≠ .ok) :
    2 ^ 64 - 16 ≤ (errorCodeToNegI64 code).toNat := by
  cases code <;> first | exact absurd rfl h | decide

theorem packPtrLen_ne_error {ptr len : BitVec 32} (h : ptr.toNat + len.toNat ≤ 2 ^ 32)
    {code : ErrorCode} (hcode : code ≠ .ok) : packPtrLen ptr len ≠ errorCodeToNegI64 code := by
  intro heq
  have hle := le_toNat_errorCodeToNegI64 code hcode
  rw [← heq, toNat_packPtrLen, Wasm.packPtrLen] at hle
  omega

theorem checkedGuestRange_iff (memSize : ℕ) (ptr len : BitVec 32) :
    (∃ r, checkedGuestRange memSize ptr len = .ok r) ↔
      0 ≤ len.toInt ∧ ptr.toNat + len.toNat ≤ memSize := by
  have hptr := ptr.isLt
  have hlen := len.isLt
  rw [checkedGuestRange]
  split
  · rename_i hneg
    exact iff_of_false (by rintro ⟨_, ⟨⟩⟩) fun h ↦ h.1.not_gt hneg
  · rename_i hneg
    split
    · rename_i hin
      exact iff_of_true ⟨_, rfl⟩ ⟨not_lt.mp hneg, hin.2⟩
    · rename_i hout
      exact iff_of_false (by rintro ⟨_, ⟨⟩⟩) fun h ↦ hout ⟨by omega, h.2⟩

/-- **Packed results.** A range of a memory is unpacked again if the top bit of its pointer is
clear, and refused otherwise. If it has bytes it is never the end of a stream or an error, and no
range is the error of a code that means failure. -/
theorem packed_results {memSize : ℕ} (hmem : memSize ≤ 2 ^ 32) {ptr len : BitVec 32}
    (hrange : ptr.toNat + len.toNat ≤ memSize) :
    (unpackPtrLen (packPtrLen ptr len) = .ok (ptr, len) ↔ ptr.toNat < 2 ^ 31) ∧
      (len ≠ 0 → packPtrLen ptr len ≠ 0 ∧ ∀ code, packPtrLen ptr len ≠ errorCodeToNegI64 code) ∧
      (∀ code, code ≠ .ok → packPtrLen ptr len ≠ errorCodeToNegI64 code) ∧
      ∀ p l : BitVec 32, (∃ r, checkedGuestRange memSize p l = .ok r) ↔
        0 ≤ l.toInt ∧ p.toNat + l.toNat ≤ memSize := by
  have herror : ∀ code, code ≠ .ok → packPtrLen ptr len ≠ errorCodeToNegI64 code :=
    fun _ ↦ packPtrLen_ne_error (hrange.trans hmem)
  refine ⟨unpack_pack_iff ptr len, fun hlen ↦ ?_, herror, checkedGuestRange_iff memSize⟩
  have hzero := packPtrLen_ne_zero ptr hlen
  refine ⟨hzero, fun code ↦ ?_⟩
  by_cases hcode : code = .ok
  · rwa [hcode]
  · exact herror code hcode

theorem packed_results_middle :
    (unpackPtrLen (packPtrLen 0x80000000 1) = .ok (0x80000000, 1) ↔
        (0x80000000 : BitVec 32).toNat < 2 ^ 31) ∧
      ((1 : BitVec 32) ≠ 0 → packPtrLen 0x80000000 1 ≠ 0 ∧
        ∀ code, packPtrLen 0x80000000 1 ≠ errorCodeToNegI64 code) ∧
      (∀ code, code ≠ .ok → packPtrLen 0x80000000 1 ≠ errorCodeToNegI64 code) ∧
      ∀ p l : BitVec 32, (∃ r, checkedGuestRange (2 ^ 32) p l = .ok r) ↔
        0 ≤ l.toInt ∧ p.toNat + l.toNat ≤ 2 ^ 32 :=
  packed_results le_rfl (by decide)

theorem top_bit_refused : (2 ^ 31 + 1 ≤ 2 ^ 32) ∧
    unpackPtrLen (packPtrLen 0x80000000 1) ≠ .ok (0x80000000, 1) := by
  refine ⟨by decide, fun h ↦ ?_⟩
  exact absurd ((unpack_pack_iff _ _).mp h) (by decide)

end WaferRun.Wasm.Abi
