import Degoonification.Domains.BloomFilter
import Degoonification.Library.Streams
import Mathlib.Data.List.Infix

/-! The binary file of a `BloomFilter` on a little-endian host. The loader checks
the magic and the version as soon as it has them, but whether the reads of the
header and of the words succeeded only once, at the end. -/

namespace Degoonification.BloomFilter

open Streams (Source le ofLe)

/-- `"DGBF"`. -/
def magicBytes : Bytes := [68, 71, 66, 70]

/-- `max_size()` of a `std::vector<uint64_t>`; a longer one throws `std::length_error`. -/
def maxSize : ℕ := 2 ^ 60 - 1

/-- The words of `bits_` as they lie in memory. -/
def wordBytes (bits : List UInt64) : Bytes := bits.flatMap fun w => le 8 w.toNat

/-- The first `n` words in a block of memory. -/
def wordsOf : ℕ → Bytes → List UInt64
  | 0, _ => []
  | n + 1, bs => UInt64.ofNat (ofLe (bs.take 8)) :: wordsOf n (bs.drop 8)

def saveToFile (f : BloomFilter) : Bytes :=
  magicBytes ++ le 4 1 ++ le 8 f.numBits.toNat ++ le 8 f.numHashes.toNat ++
    le 8 f.elementCount.toNat ++ le 8 f.bits.length ++ wordBytes f.bits

/-- `load_from_file` into `g` of a file that opens; `magic` is what the
uninitialised array of that name holds. The result is `none` if an exception
leaves the function, else the value returned and the filter afterwards. -/
def loadFromFile (magic : Fin 4 → UInt8) (g : BloomFilter) (file : Bytes) :
    Option (Bool × BloomFilter) :=
  let magic := Source.readInto (List.ofFn magic) ⟨file, false⟩
  let version := magic.2.readInto (le 4 0)
  if magic.1 ≠ magicBytes ∨ ofLe version.1 ≠ 1 then some (false, g)
  else
    let nBits := version.2.readInto (le 8 0)
    let nHashes := nBits.2.readInto (le 8 0)
    let nElem := nHashes.2.readInto (le 8 0)
    let nWords := nElem.2.readInto (le 8 0)
    let n := ofLe nWords.1
    if maxSize < n then none
    else
      let loadedBits :=
        if n > 0 then nWords.2.readInto (List.replicate (8 * n) 0) else ([], nWords.2)
      if loadedBits.2.failed then some (false, g)
      else some (true, ⟨.ofNat (ofLe nBits.1), .ofNat (ofLe nHashes.1), .ofNat (ofLe nElem.1),
        wordsOf n loadedBits.1⟩)

/-- The eight-byte number at an offset of a file. -/
def field (file : Bytes) (offset : ℕ) : ℕ := ofLe ((file.drop offset).take 8)

@[simp] theorem length_wordBytes (bits : List UInt64) :
    (wordBytes bits).length = 8 * bits.length := by
  induction bits with
  | nil => rfl
  | cons w bits ih =>
    have hcons : wordBytes (w :: bits) = le 8 w.toNat ++ wordBytes bits := rfl
    rw [hcons, List.length_append, ih, Streams.length_le, List.length_cons]
    omega

@[simp] theorem length_wordsOf (n : ℕ) (bs : Bytes) : (wordsOf n bs).length = n := by
  induction n generalizing bs with
  | zero => rfl
  | succ n ih => rw [wordsOf, List.length_cons, ih]

theorem ofLe_le_toNat (w : UInt64) : ofLe (le 8 w.toNat) = w.toNat := by
  rw [Streams.ofLe_le]
  exact Nat.mod_eq_of_lt w.toNat_lt

theorem wordsOf_wordBytes (bits : List UInt64) :
    wordsOf bits.length (wordBytes bits) = bits := by
  induction bits with
  | nil => rfl
  | cons w bits ih =>
    have hcons : wordBytes (w :: bits) = le 8 w.toNat ++ wordBytes bits := rfl
    have hlen : (le 8 w.toNat).length = 8 := Streams.length_le 8 _
    rw [hcons, List.length_cons, wordsOf, List.take_left' hlen, List.drop_left' hlen, ih,
      ofLe_le_toNat, UInt64.ofNat_toNat]

@[simp] theorem length_saveToFile (f : BloomFilter) :
    (saveToFile f).length = 40 + 8 * f.bits.length := by
  simp only [saveToFile, List.length_append, Streams.length_le, length_wordBytes, magicBytes,
    List.length_cons, List.length_nil]

/-- Not reading the words of an empty array is reading none. -/
theorem readWords_eq (n : ℕ) (src : Source UInt8) :
    (if n > 0 then src.readInto (List.replicate (8 * n) 0) else ([], src)) =
      src.readInto (List.replicate (8 * n) 0) := by
  split_ifs with h
  · rfl
  · obtain rfl : n = 0 := Nat.eq_zero_of_not_pos h
    simp

/-- The file read back into any filter gives the filter that was saved. -/
theorem loadFromFile_saveToFile {f : BloomFilter} (hf : f.bits.length ≤ maxSize)
    (magic : Fin 4 → UInt8) (g : BloomFilter) :
    loadFromFile magic g (saveToFile f) = some (true, f) := by
  have hlen : ofLe (le 8 f.bits.length) = f.bits.length := by
    rw [Streams.ofLe_le]
    exact Nat.mod_eq_of_lt (by rw [maxSize] at hf; omega)
  have hversion : ofLe (le 4 1) = 1 := rfl
  have hwords : Source.readInto (List.replicate (8 * f.bits.length) 0)
      ⟨wordBytes f.bits, false⟩ = (wordBytes f.bits, ⟨[], false⟩) := by
    have hread : Source.readInto (List.replicate (8 * f.bits.length) 0)
        ⟨wordBytes f.bits ++ [], false⟩ = (wordBytes f.bits, ⟨[], false⟩) :=
      Source.readInto_append (by rw [length_wordBytes, List.length_replicate]) []
    rwa [List.append_nil] at hread
  simp only [loadFromFile, saveToFile, List.append_assoc, readWords_eq]
  have hmagic : magicBytes.length = (List.ofFn magic).length := List.length_ofFn.symm
  rw [Source.readInto_append hmagic]
  simp only [Streams.readInto_le, hversion, hlen, hwords, ofLe_le_toNat, UInt64.ofNat_toNat,
    wordsOf_wordBytes, Nat.not_lt.mpr hf, ne_eq, not_true_eq_false, or_self, if_false,
    Bool.false_eq_true]

/-- The three ways out of `load_from_file`. -/
theorem loadFromFile_cases (magic : Fin 4 → UInt8) (g : BloomFilter) (file : Bytes) :
    loadFromFile magic g file = none ∧ maxSize < field file 32 ∨
    loadFromFile magic g file = some (false, g) ∨
    40 + 8 * field file 32 ≤ file.length ∧ field file 32 ≤ maxSize ∧
      loadFromFile magic g file = some (true, ⟨.ofNat (field file 8), .ofNat (field file 16),
        .ofNat (field file 24),
        wordsOf (field file 32) ((file.drop 40).take (8 * field file 32))⟩) := by
  simp only [loadFromFile, readWords_eq]
  set r₁ := Source.readInto (List.ofFn magic) ⟨file, false⟩
  set r₂ := r₁.2.readInto (le 4 0)
  set r₃ := r₂.2.readInto (le 8 0)
  set r₄ := r₃.2.readInto (le 8 0)
  set r₅ := r₄.2.readInto (le 8 0)
  set r₆ := r₅.2.readInto (le 8 0)
  have h₁ : r₁.2.At file 4 := (Source.at_start file).read (List.ofFn magic)
  have h₂ : r₂.2.At file 8 := h₁.read (le 4 0)
  have h₃ : r₃.2.At file 16 := h₂.read (le 8 0)
  have h₄ : r₄.2.At file 24 := h₃.read (le 8 0)
  have h₅ : r₅.2.At file 32 := h₄.read (le 8 0)
  have h₆ : r₆.2.At file 40 := h₅.read (le 8 0)
  split_ifs with hmagic hsize hfailed
  · exact .inr (.inl rfl)
  · exact .inl ⟨rfl, lt_of_lt_of_le hsize (h₅.ofLe_readInto_le 8)⟩
  · exact .inr (.inl rfl)
  · -- a stream that is still good was good at every earlier read
    obtain ⟨hg₆, hlen₇, hv₇⟩ := h₆.good (Bool.eq_false_iff.mpr hfailed)
    obtain ⟨hg₅, hlen₆, hv₆⟩ := h₅.good hg₆
    obtain ⟨hg₄, hlen₅, hv₅⟩ := h₄.good hg₅
    obtain ⟨hg₃, hlen₄, hv₄⟩ := h₃.good hg₄
    obtain ⟨hg₂, hlen₃, hv₃⟩ := h₂.good hg₃
    obtain ⟨hg₁, hlen₂, -⟩ := h₁.good hg₂
    obtain ⟨-, hlen₁, -⟩ := (Source.at_start file).good hg₁
    have hn : ofLe r₆.1 = field file 32 := by rw [hv₆, Streams.length_le, field]
    rw [hv₇, hv₅, hv₄, hv₃, hn]
    simp only [Streams.length_le, List.length_replicate, List.length_ofFn, hn] at *
    exact .inr (.inr ⟨by omega, by omega, rfl⟩)

theorem field_saveToFile {f : BloomFilter} (hf : f.bits.length ≤ maxSize) :
    field (saveToFile f) 32 = f.bits.length := by
  have hsave : saveToFile f = (magicBytes ++ le 4 1 ++ le 8 f.numBits.toNat ++
      le 8 f.numHashes.toNat ++ le 8 f.elementCount.toNat) ++
      (le 8 f.bits.length ++ wordBytes f.bits) := by
    rw [saveToFile, List.append_assoc _ (le 8 f.bits.length)]
  rw [field, hsave, List.drop_left' (by simp [magicBytes]), List.take_left' (by simp),
    Streams.ofLe_le]
  exact Nat.mod_eq_of_lt (by rw [maxSize] at hf; omega)

/-- A file that is cut anywhere is rejected and changes nothing. -/
theorem loadFromFile_prefix {f : BloomFilter} (hf : f.bits.length ≤ maxSize) {p : Bytes}
    (hp : p <+: saveToFile f) (hne : p ≠ saveToFile f) (magic : Fin 4 → UInt8) (g : BloomFilter) :
    loadFromFile magic g p = some (false, g) := by
  have hlt : p.length < 40 + 8 * f.bits.length := by
    rw [← length_saveToFile]
    exact lt_of_le_of_ne hp.length_le fun h => hne (hp.eq_of_length h)
  have hcut : (p.drop 32).take 8 <+: ((saveToFile f).drop 32).take 8 := (hp.drop 32).take 8
  have hle : field p 32 ≤ f.bits.length := by
    rw [← field_saveToFile hf]
    exact Streams.ofLe_mono_prefix hcut
  obtain ⟨-, hsize⟩ | hfalse | ⟨hlen, -⟩ := loadFromFile_cases magic g p
  · omega
  · exact hfalse
  · -- the header is whole, so the number of words is the one that was written
    have hwhole : field p 32 = f.bits.length := by
      rw [← field_saveToFile hf, field, field]
      congr 1
      refine hcut.eq_of_length ?_
      rw [List.length_take, List.length_take, List.length_drop, List.length_drop,
        length_saveToFile]
      omega
    omega

end Degoonification.BloomFilter
