import Degoonification.Domains.BloomRuns
import Mathlib.Data.Set.Finite.Basic

/-! The word indices that `add` and `contains` compute from a key, after a file
was loaded. `load_from_file` does not compare the number of bits with the number
of words, and FNV-1a takes every value on the keys, so the indices stay inside
the words exactly if the header says so. -/

namespace Degoonification.BloomFilter

/-- The word indices of the loop in `add`. -/
def addIndices (f : BloomFilter) (key : Bytes) : List UInt64 :=
  if f.numBits = 0 then [] else (List.range f.numHashes.toNat).map fun i => f.combined key i / 64

/-- The word indices of some rounds of the loop in `contains`, which ends at the
first bit that is clear. -/
def probes (f : BloomFilter) (key : Bytes) : List ℕ → List UInt64
  | [] => []
  | i :: is => f.combined key i / 64 ::
      if testBit f.bits (f.combined key i) then probes f key is else []

def containsIndices (f : BloomFilter) (key : Bytes) : List UInt64 :=
  if f.numBits = 0 ∨ f.bits = [] then [] else probes f key (List.range f.numHashes.toNat)

/-- The header of a file bounds the indices: no bit is ever looked at, or every
bit has a word. -/
def Consistent (file : Bytes) : Prop :=
  field file 8 = 0 ∨ field file 16 = 0 ∨ field file 8 ≤ 64 * field file 32

/-! ### FNV-1a is onto -/

/-- A set that an injective map of a finite type keeps is kept by its inverse. -/
theorem mem_of_apply_mem {α : Type*} [Finite α] {f : α → α} (hf : Function.Injective f) {T : Set α}
    (hT : Set.MapsTo f T T) {x : α} (hx : f x ∈ T) : x ∈ T := by
  have hbij : Set.BijOn f T T := (T.toFinite.injOn_iff_bijOn_of_mapsTo hT).mp hf.injOn
  obtain ⟨y, hy, hxy⟩ := hbij.surjOn hx
  exact hf hxy ▸ hy

instance : Finite UInt64 := Finite.of_injective UInt64.toFin fun _ _ => UInt64.toFin_inj.mp

/-- The multiplier of FNV-1a. -/
def prime : UInt64 := 1099511628211

def primeInv : UInt64 := 14886173955864302971

theorem prime_mul_inv : prime * primeInv = 1 := by decide

theorem inv_mul_prime : primeInv * prime = 1 := by decide

/-- One step of the hash. -/
def round (c : UInt8) (x : UInt64) : UInt64 := (x ^^^ (tolower c).toUInt64) * prime

/-- Some key has this hash. -/
def Reached (x : UInt64) : Prop := ∃ key, hashFnv1a64 key = x

theorem hashFnv1a64_append_singleton (key : Bytes) (c : UInt8) :
    hashFnv1a64 (key ++ [c]) = round c (hashFnv1a64 key) := List.foldl_append

theorem Reached.round {x : UInt64} (h : Reached x) (c : UInt8) : Reached (round c x) := by
  obtain ⟨key, rfl⟩ := h
  exact ⟨key ++ [c], hashFnv1a64_append_singleton key c⟩

theorem mul_prime_inj {x y : UInt64} (h : x * prime = y * prime) : x = y := by
  have := congrArg (· * primeInv) h
  simpa only [UInt64.mul_assoc, prime_mul_inv, UInt64.mul_one] using this

theorem round_injective (c : UInt8) : Function.Injective (round c) := by
  intro x y h
  rw [BloomFilter.round, BloomFilter.round] at h
  exact (UInt64.xor_left_inj _).mp (mul_prime_inj h)

theorem Reached.of_round {x : UInt64} (c : UInt8) (h : Reached (BloomFilter.round c x)) :
    Reached x := by
  have hmaps : Set.MapsTo (BloomFilter.round c) {x | Reached x} {x | Reached x} :=
    fun _ hx => Reached.round hx c
  exact mem_of_apply_mem (round_injective c) hmaps h

theorem round_zero (x : UInt64) : round 0 x = x * prime := by
  rw [round, show (tolower 0).toUInt64 = 0 from rfl, UInt64.xor_zero]

theorem reached_mul_prime {x : UInt64} : Reached (x * prime) ↔ Reached x := by
  rw [← round_zero]
  exact ⟨.of_round 0, fun h => h.round 0⟩

/-- Undo the last byte of `x * prime` as if it had been `c`. -/
theorem Reached.xor_tolower {x : UInt64} (h : Reached x) (c : UInt8) :
    Reached (x ^^^ (tolower c).toUInt64) := by
  refine .of_round c ?_
  rw [BloomFilter.round, UInt64.xor_assoc, UInt64.xor_self, UInt64.xor_zero]
  exact reached_mul_prime.mpr h

/-- Upper-case letters are not bytes that a hash sees, but they are the
differences of two such bytes. -/
theorem tolower_xor_tolower (c : UInt8) : tolower (c &&& 0xC0) ^^^ tolower (c &&& 0x3F) = c := by
  obtain ⟨n, rfl⟩ : ∃ n : Fin 256, UInt8.ofFin n = c := ⟨c.toFin, rfl⟩
  revert n
  decide +kernel

theorem Reached.xor_byte {x : UInt64} (h : Reached x) (c : UInt8) :
    Reached (x ^^^ c.toUInt64) := by
  have := (h.xor_tolower (c &&& 0xC0)).xor_tolower (c &&& 0x3F)
  rwa [UInt64.xor_assoc, ← UInt8.toUInt64_xor, tolower_xor_tolower] at this

theorem xor_low_byte {a : ℕ} (ha : a % 256 ≠ 255) :
    a ^^^ ((a % 256) ^^^ (a % 256 + 1)) = a + 1 := by
  have hc : (a % 256) ^^^ (a % 256 + 1) < 2 ^ 8 := Nat.xor_lt_two_pow (by omega) (by omega)
  have hmod : (a ^^^ ((a % 256) ^^^ (a % 256 + 1))) % 2 ^ 8 = a % 256 + 1 := by
    rw [Nat.xor_mod_two_pow, Nat.mod_eq_of_lt hc, ← Nat.xor_assoc, Nat.xor_self, Nat.zero_xor]
  have hdiv : (a ^^^ ((a % 256) ^^^ (a % 256 + 1))) / 2 ^ 8 = a / 2 ^ 8 := by
    rw [Nat.xor_div_two_pow, Nat.div_eq_of_lt hc, Nat.xor_zero]
  omega

/-- Inside a block of 256 values the last byte can be changed at will. -/
theorem reached_succ_of_mod {x : UInt64} (hx : x.toNat % 256 ≠ 255) :
    Reached (x + 1) ↔ Reached x := by
  obtain ⟨c, hc⟩ : ∃ c : UInt8, x ^^^ c.toUInt64 = x + 1 := by
    have hlt : (x.toNat % 256) ^^^ (x.toNat % 256 + 1) < 2 ^ 8 :=
      Nat.xor_lt_two_pow (by omega) (by omega)
    refine ⟨UInt8.ofNat ((x.toNat % 256) ^^^ (x.toNat % 256 + 1)), UInt64.toNat_inj.mp ?_⟩
    have hx64 := x.toNat_lt
    rw [UInt64.toNat_xor, UInt8.toNat_toUInt64, UInt8.toNat_ofNat_of_lt' hlt, xor_low_byte hx,
      UInt64.toNat_add, UInt64.toNat_one, Nat.mod_eq_of_lt (by omega)]
  constructor
  · intro h
    have hback := h.xor_byte c
    rwa [← hc, UInt64.xor_assoc, UInt64.xor_self, UInt64.xor_zero] at hback
  · intro h
    exact hc ▸ h.xor_byte c

theorem reached_add_prime {x : UInt64} (hx : (x * primeInv).toNat % 256 ≠ 255) :
    Reached (x + prime) ↔ Reached x := by
  have hx' : x * primeInv * prime = x := by
    rw [UInt64.mul_assoc, inv_mul_prime, UInt64.mul_one]
  have hadd : (x * primeInv + 1) * prime = x + prime := by
    rw [UInt64.add_mul, hx', UInt64.one_mul]
  rw [← hadd, reached_mul_prime, reached_succ_of_mod hx, ← reached_mul_prime, hx']

/-- Past the end of a block the way leads over a multiple of `prime`: neither
`x + prime` nor `x + 1` stands at an end again. -/
theorem reached_succ (x : UInt64) : Reached (x + 1) ↔ Reached x := by
  by_cases hx : x.toNat % 256 = 255
  · have hmul (y : UInt64) : (y * primeInv).toNat % 256 = y.toNat % 256 * 123 % 256 := by
      simp only [UInt64.toNat_mul, primeInv, UInt64.reduceToNat]
      omega
    have h₁ : Reached (x + prime) ↔ Reached x := reached_add_prime (by rw [hmul, hx]; decide)
    have h₂ : Reached (x + prime + 1) ↔ Reached (x + prime) := reached_succ_of_mod (by
      simp only [UInt64.toNat_add, prime, UInt64.reduceToNat]
      omega)
    have h₃ : Reached (x + 1 + prime) ↔ Reached (x + 1) := reached_add_prime (by
      rw [hmul, UInt64.toNat_add, UInt64.toNat_one]
      omega)
    rw [← h₁, ← h₂, ← h₃, UInt64.add_assoc, UInt64.add_comm 1, ← UInt64.add_assoc]
  · exact reached_succ_of_mod hx

/-- FNV-1a takes every value. -/
theorem hashFnv1a64_surjective : Function.Surjective hashFnv1a64 := by
  have hall (n : ℕ) : Reached (14695981039346656037 + UInt64.ofNat n) := by
    induction n with
    | zero => exact ⟨[], rfl⟩
    | succ n ih =>
      rw [UInt64.ofNat_add, ← UInt64.add_assoc]
      exact (reached_succ _).mpr ih
  intro x
  have := hall (x - 14695981039346656037).toNat
  rwa [UInt64.ofNat_toNat, UInt64.add_comm, UInt64.sub_add_cancel] at this

/-! ### Loaded filters -/

theorem field_lt (file : Bytes) (offset : ℕ) : field file offset < 2 ^ 64 := by
  have hlt := Streams.ofLe_lt ((file.drop offset).take 8)
  have hlen : ((file.drop offset).take 8).length ≤ 8 := List.length_take_le ..
  exact lt_of_lt_of_le hlt (Nat.pow_le_pow_right (by decide) hlen)

theorem loadFromFile_eq_true {magic : Fin 4 → UInt8} {g g' : BloomFilter} {file : Bytes}
    (h : loadFromFile magic g file = some (true, g')) :
    g'.numBits.toNat = field file 8 ∧ g'.numHashes.toNat = field file 16 ∧
      g'.bits.length = field file 32 ∧ field file 32 ≤ maxSize := by
  obtain ⟨hnone, -⟩ | hfalse | ⟨-, hsize, htrue⟩ := loadFromFile_cases magic g file
  · exact absurd (hnone.symm.trans h) (by simp)
  · exact absurd (hfalse.symm.trans h) (by simp)
  · obtain rfl := (Prod.mk.inj (Option.some.inj (htrue.symm.trans h))).2
    exact ⟨UInt64.toNat_ofNat_of_lt' (field_lt file 8),
      UInt64.toNat_ofNat_of_lt' (field_lt file 16), length_wordsOf _ _, hsize⟩

theorem frame_edit {f : BloomFilter} (hf : f.bits.length ≤ maxSize) (e : Edit) :
    (f.edit e).numBits = f.numBits ∧ (f.edit e).numHashes = f.numHashes := by
  cases e with
  | add key =>
    rw [edit, BloomFilter.add]
    split_ifs <;> exact ⟨rfl, rfl⟩
  | clear => exact ⟨rfl, rfl⟩
  | reload magic g => rw [edit_reload hf]; exact ⟨rfl, rfl⟩

theorem frame_run {f : BloomFilter} (hf : f.bits.length ≤ maxSize) (edits : List Edit) :
    (f.run edits).numBits = f.numBits ∧ (f.run edits).numHashes = f.numHashes := by
  induction edits using List.reverseRecOn with
  | nil => exact ⟨rfl, rfl⟩
  | append_singleton edits e ih =>
    have hlen : (f.run edits).bits.length ≤ maxSize := by rwa [length_run hf]
    obtain ⟨hbits, hhashes⟩ := frame_edit hlen e
    rw [run_append_singleton, hbits, hhashes]
    exact ih

theorem mem_probes {f : BloomFilter} {key : Bytes} {j : UInt64} {is : List ℕ}
    (h : j ∈ probes f key is) : ∃ i ∈ is, j = f.combined key i / 64 := by
  induction is with
  | nil => exact absurd h List.not_mem_nil
  | cons i is ih =>
    obtain rfl | h := List.mem_cons.mp h
    · exact ⟨i, List.mem_cons_self, rfl⟩
    · split_ifs at h
      · obtain ⟨i', hi', hj⟩ := ih h
        exact ⟨i', List.mem_cons_of_mem i hi', hj⟩
      · exact absurd h List.not_mem_nil

/-- Every index of either loop is the word of one of the bits of the key. -/
theorem mem_indices {f : BloomFilter} {key : Bytes} {j : UInt64}
    (h : j ∈ addIndices f key ++ containsIndices f key) :
    f.numBits ≠ 0 ∧ f.numHashes ≠ 0 ∧ ∃ i, j = f.combined key i / 64 := by
  have hrange {i : ℕ} (hi : i ∈ List.range f.numHashes.toNat) : f.numHashes ≠ 0 := by
    intro h0
    rw [h0] at hi
    exact absurd hi (by simp)
  obtain h | h := List.mem_append.mp h
  · rw [addIndices] at h
    split_ifs at h with h0
    · exact absurd h List.not_mem_nil
    · obtain ⟨i, hi, rfl⟩ := List.mem_map.mp h
      exact ⟨h0, hrange hi, i, rfl⟩
  · rw [containsIndices] at h
    split_ifs at h with h0
    · exact absurd h List.not_mem_nil
    · obtain ⟨i, hi, hj⟩ := mem_probes h
      exact ⟨fun h0' => h0 (.inl h0'), hrange hi, i, hj⟩

theorem combined_lt_of_numBits_le {f : BloomFilter} (h0 : f.numBits ≠ 0)
    (h : f.numBits.toNat ≤ 64 * f.bits.length) (key : Bytes) (i : ℕ) :
    (f.combined key i / 64).toNat < f.bits.length := by
  have hpos : 0 < f.numBits.toNat := by
    rw [Nat.pos_iff_ne_zero]
    exact fun hz => h0 (UInt64.toNat_inj.mp hz)
  have hlt : (f.combined key i).toNat < f.numBits.toNat := by
    rw [combined, UInt64.toNat_mod]
    exact Nat.mod_lt _ hpos
  simp only [UInt64.toNat_div, UInt64.reduceToNat]
  omega

/-- The first hash of a key can be any bit of the header's range. -/
theorem exists_combined_eq {f : BloomFilter} {n : ℕ} (hn : n < f.numBits.toNat) :
    ∃ key, (f.combined key 0).toNat = n := by
  obtain ⟨key, hkey⟩ := hashFnv1a64_surjective (.ofNat n)
  have hzero : UInt64.ofNat 0 = 0 := rfl
  refine ⟨key, ?_⟩
  rw [combined, hzero, UInt64.zero_mul, UInt64.add_zero, hkey, UInt64.toNat_mod,
    UInt64.toNat_ofNat_of_lt' (hn.trans f.numBits.toNat_lt), Nat.mod_eq_of_lt hn]

/-- Once a file is loaded, every word index that `add` or `contains` ever
computes is inside the loaded words exactly if the header is consistent. -/
theorem indices_lt_iff {magic : Fin 4 → UInt8} {g g' : BloomFilter} {file : Bytes}
    (h : loadFromFile magic g file = some (true, g')) :
    (∀ edits key, ∀ j ∈ addIndices (g'.run edits) key ++ containsIndices (g'.run edits) key,
      j.toNat < field file 32) ↔ Consistent file := by
  obtain ⟨hbits, hhashes, hwords, hsize⟩ := loadFromFile_eq_true h
  rw [← hwords] at hsize
  constructor
  · intro hall
    by_contra hcon
    obtain ⟨hb0, hh0, hlt⟩ : field file 8 ≠ 0 ∧ field file 16 ≠ 0 ∧
        64 * field file 32 < field file 8 := by
      rw [Consistent] at hcon
      omega
    -- a key whose first hash is the first bit that has no word
    obtain ⟨key, hkey⟩ := exists_combined_eq (f := g') (hbits ▸ hlt)
    have hnum : g'.numBits ≠ 0 := by
      intro h0
      rw [h0] at hbits
      exact hb0 hbits.symm
    have hmem : g'.combined key 0 / 64 ∈ addIndices g' key := by
      rw [addIndices, if_neg hnum]
      exact List.mem_map.mpr ⟨0, List.mem_range.mpr (by omega), rfl⟩
    have hidx := hall [] key _ (List.mem_append_left _ hmem)
    simp only [UInt64.toNat_div, hkey, UInt64.reduceToNat] at hidx
    omega
  · intro hcon edits key j hj
    obtain ⟨hrunBits, hrunHashes⟩ := frame_run hsize edits
    have hrunLen := length_run hsize edits
    obtain ⟨hnum, hhash, i, rfl⟩ := mem_indices hj
    rw [hrunHashes] at hhash
    rw [← hwords, ← hrunLen]
    refine combined_lt_of_numBits_le hnum ?_ key i
    rw [hrunBits] at hnum ⊢
    rw [hrunLen, hbits, hwords]
    have hb0 : field file 8 ≠ 0 := fun h0 => hnum (UInt64.toNat_inj.mp (hbits.trans h0))
    have hh0 : field file 16 ≠ 0 := fun h0 => hhash (UInt64.toNat_inj.mp (hhashes.trans h0))
    exact (hcon.resolve_left hb0).resolve_left hh0

/-- A header of 128 bits and one hash over a single word. -/
def shortFile : Bytes := saveToFile ⟨128, 1, 0, [0]⟩

theorem shortFile_indices_lt_iff :
    (∀ edits key, ∀ j ∈ addIndices (run ⟨128, 1, 0, [0]⟩ edits) key ++
      containsIndices (run ⟨128, 1, 0, [0]⟩ edits) key, j.toNat < field shortFile 32) ↔
    Consistent shortFile :=
  have hload : loadFromFile (fun _ => 0) oneWord shortFile = some (true, ⟨128, 1, 0, [0]⟩) := by
    decide +kernel
  indices_lt_iff hload

/-- The file loads, and both loops read a word it does not have. -/
theorem shortFile_unusable :
    loadFromFile (fun _ => 0) oneWord shortFile = some (true, ⟨128, 1, 0, [0]⟩) ∧
      field shortFile 32 = 1 ∧ addIndices ⟨128, 1, 0, [0]⟩ [99] = [1] ∧
      containsIndices ⟨128, 1, 0, [0]⟩ [99] = [1] := by
  decide +kernel

end Degoonification.BloomFilter
