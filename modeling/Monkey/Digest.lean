/-!
  Monkey/Digest.lean
  ==================
  **The 64-bit FNV-1a digest of bytes.**

  Starting from a fixed basis, every byte is added without carry into the digest
  so far, which is then multiplied by a fixed prime modulo `2^64`.
-/
namespace Monkey.Digest

/-- The digest of no bytes. -/
def basis : UInt64 := 14695981039346656037

/-- The multiplier, a prime. -/
def prime : UInt64 := 1099511628211

/-- The digest after one more byte. -/
def step (digest : UInt64) (b : UInt8) : UInt64 :=
  (digest ^^^ b.toUInt64) * prime

/-- The digest of some bytes (`fnv1a`). -/
def fnv1a (bytes : List UInt8) : UInt64 :=
  bytes.foldl step basis

end Monkey.Digest
