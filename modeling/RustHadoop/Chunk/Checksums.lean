import RustHadoop.Common.Sharding

/-!
# Checksums of blocks

A block is stored with a second file, `<block id>.meta`, that holds the CRC-32 of every 512 bytes of the block,
four bytes each in big-endian order (`dfs/chunkserver/src/chunkserver.rs`).  Reading the file back gives the
checksums (`parseChecksums_metaBytes`), and the comparison succeeds exactly if they are equal
(`compareChecksums_eq_ok`).
-/

namespace RustHadoop

open List

abbrev Bytes := List UInt8

def checksumChunkSize : Nat := 512

def calculateChecksums (data : Bytes) : List UInt32 :=
  (range ((data.length + (checksumChunkSize - 1)) / checksumChunkSize)).map fun i =>
    crc32 ((data.drop (i * checksumChunkSize)).take checksumChunkSize)

def toBeBytes (c : UInt32) : List UInt8 :=
  [UInt8.ofNat (c.toNat / 2 ^ 24), UInt8.ofNat (c.toNat / 2 ^ 16), UInt8.ofNat (c.toNat / 2 ^ 8),
    UInt8.ofNat c.toNat]

def fromBeBytes (a b c d : UInt8) : UInt32 :=
  UInt32.ofNat (a.toNat * 2 ^ 24 + b.toNat * 2 ^ 16 + c.toNat * 2 ^ 8 + d.toNat)

def metaBytes (checksums : List UInt32) : Bytes := checksums.flatMap toBeBytes

/-- The checksums in a file; bytes after the last full group of four are ignored. -/
def parseChecksums : Bytes → List UInt32
  | a :: b :: c :: d :: rest => fromBeBytes a b c d :: parseChecksums rest
  | _ => []

private theorem fromBeBytes_toBeBytes (c : UInt32) :
    fromBeBytes (UInt8.ofNat (c.toNat / 2 ^ 24)) (UInt8.ofNat (c.toNat / 2 ^ 16))
    (UInt8.ofNat (c.toNat / 2 ^ 8)) (UInt8.ofNat c.toNat) = c := by
  have hc : c.toNat < 2 ^ 32 := c.toNat_lt
  have hs :
    c.toNat / 2 ^ 24 % 2 ^ 8 * 2 ^ 24 + c.toNat / 2 ^ 16 % 2 ^ 8 * 2 ^ 16 + c.toNat / 2 ^ 8 % 2 ^ 8 * 2 ^ 8 +
      c.toNat % 2 ^ 8 = c.toNat := by omega
  simp only [fromBeBytes, UInt8.toNat_ofNat', hs, UInt32.ofNat_toNat]

theorem parseChecksums_metaBytes (checksums : List UInt32) : parseChecksums (metaBytes checksums) = checksums := by
  induction checksums with
  | nil => rfl
  | cons c checksums ih =>
    simp only [metaBytes, flatMap_cons, toBeBytes, cons_append, nil_append, parseChecksums] at ih ⊢
    rw [fromBeBytes_toBeBytes, ih]

def firstMismatch : Nat → List (UInt32 × UInt32) → Option Nat
  | _, [] => none
  | i, (expected, actual) :: rest => if expected ≠ actual then some i else firstMismatch (i + 1) rest

def compareChecksums (expected actual : List UInt32) : Except String Unit :=
  if expected.length ≠ actual.length then .error "Checksum count mismatch"
  else
    match firstMismatch 0 (expected.zip actual) with
    | some i => .error ("Checksum mismatch at chunk " ++ toString i)
    | none => .ok ()

theorem firstMismatch_eq_none {i : Nat} {expected actual : List UInt32} (hlen : expected.length = actual.length) :
    firstMismatch i (expected.zip actual) = none ↔ expected = actual := by
  induction expected generalizing i actual with
  | nil =>
    obtain rfl : actual = [] := eq_nil_of_length_eq_zero hlen.symm
    simp [firstMismatch]
  | cons e expected ih =>
    cases actual with
    | nil => cases hlen
    | cons a actual =>
      rw [zip_cons_cons, firstMismatch, cons.injEq]
      by_cases h : e = a
      · simp [h, ih (Nat.succ.inj hlen)]
      · simp [h]

theorem compareChecksums_eq_ok {expected actual : List UInt32} :
    compareChecksums expected actual = .ok () ↔ expected = actual := by
  unfold compareChecksums
  by_cases hlen : expected.length = actual.length
  · rw [if_neg (not_not.2 hlen), ← firstMismatch_eq_none (i := 0) hlen]
    cases firstMismatch 0 (expected.zip actual) with
    | none => simp
    | some i => simp
  · rw [if_pos hlen]
    refine iff_of_false (fun h => by cases h) ?_
    rintro rfl
    exact hlen rfl

theorem calculateChecksums_eq_nil {data : Bytes} : calculateChecksums data = [] ↔ data = [] := by
  simp only [calculateChecksums, map_eq_nil_iff, range_eq_nil, checksumChunkSize]
  rw [← length_eq_zero_iff]
  omega

end RustHadoop
