import Degoonification.Bytes

/-! `BloomFilter`: double hashing over an array of 64-bit words, with the
wrapping arithmetic of `uint64_t`. The two floating-point formulas of the
constructor enter as their rounded results; whatever they are, a filter that was
never added to contains nothing. -/

namespace Degoonification

structure BloomFilter where
  numBits : UInt64
  numHashes : UInt64
  elementCount : UInt64
  bits : List UInt64
  deriving DecidableEq

namespace BloomFilter

/-- The constructor; `m` and `k` are `ceil(m)` and `round(k)` as `size_t`. -/
def sized (m k : UInt64) : BloomFilter :=
  let numBits := if m < 64 then 64 else m
  let words := (numBits + 63) / 64
  ⟨words * 64, if k < 1 then 1 else k, 0, List.replicate words.toNat 0⟩

def hashFnv1a64 (s : Bytes) : UInt64 :=
  s.foldl (fun hash c => (hash ^^^ (tolower c).toUInt64) * 1099511628211) 14695981039346656037

def hashMurmurMix64 (s : Bytes) : UInt64 :=
  s.foldl (fun h c =>
    let h := (h ^^^ (tolower c).toUInt64) * 0xc6a4a7935bd1e995
    h ^^^ (h >>> 47)) 0x517cc1b727220a95

/-- The bit of a key in the `i`-th round. -/
def combined (f : BloomFilter) (key : Bytes) (i : ℕ) : UInt64 :=
  (hashFnv1a64 key + UInt64.ofNat i * hashMurmurMix64 key) % f.numBits

def setBit (bits : List UInt64) (b : UInt64) : List UInt64 :=
  bits.modify (b / 64).toNat fun w => w ||| (1 <<< (b % 64))

def testBit (bits : List UInt64) (b : UInt64) : Bool :=
  bits.getD (b / 64).toNat 0 &&& (1 <<< (b % 64)) != 0

def add (f : BloomFilter) (key : Bytes) : BloomFilter :=
  if f.numBits = 0 then f
  else
    { f with
      bits := (List.range f.numHashes.toNat).foldl (fun bits i => setBit bits (f.combined key i))
        f.bits
      elementCount := f.elementCount + 1 }

def contains (f : BloomFilter) (key : Bytes) : Bool :=
  if f.numBits = 0 ∨ f.bits = [] then false
  else (List.range f.numHashes.toNat).all fun i => testBit f.bits (f.combined key i)

def clear (f : BloomFilter) : BloomFilter :=
  { f with bits := f.bits.map fun _ => 0, elementCount := 0 }

theorem testBit_of_zero {bits : List UInt64} (h : ∀ w ∈ bits, w = 0) (b : UInt64) :
    testBit bits b = false := by
  have hword : bits.getD (b / 64).toNat 0 = 0 := by
    rw [List.getD_eq_getElem?_getD]
    cases hw : bits[(b / 64).toNat]? with
    | none => rfl
    | some w => exact h w (List.mem_of_getElem? hw)
  rw [testBit, hword, UInt64.zero_and]
  rfl

/-- A filter that asks for at least one bit contains nothing while all are clear. -/
theorem contains_of_zero {f : BloomFilter} (hhashes : f.numHashes ≠ 0) (h : ∀ w ∈ f.bits, w = 0)
    (key : Bytes) : f.contains key = false := by
  have hpos : 0 < f.numHashes.toNat := by
    rw [Nat.pos_iff_ne_zero]
    exact fun h0 => hhashes (UInt64.toNat_inj.mp h0)
  rw [contains]
  split_ifs
  · rfl
  · exact List.all_eq_false.mpr ⟨0, List.mem_range.mpr hpos, by rw [testBit_of_zero h]; simp⟩

theorem numHashes_sized (m k : UInt64) : (sized m k).numHashes ≠ 0 := by
  simp only [sized]
  split_ifs with hk
  · decide
  · rintro rfl
    exact hk (by decide)

@[simp] theorem contains_sized (m k : UInt64) (key : Bytes) : (sized m k).contains key = false :=
  contains_of_zero (numHashes_sized m k) (fun _ hw => List.eq_of_mem_replicate hw) key

end BloomFilter

end Degoonification
