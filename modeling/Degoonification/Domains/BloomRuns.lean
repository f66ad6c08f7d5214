import Degoonification.Domains.BloomFile

/-! Runs of edits of a `BloomFilter`. A set bit stays set under every later `add`
and through a file, so a key is found until the filter is cleared. -/

namespace Degoonification.BloomFilter

/-- What a caller does to a filter. `reload` saves it and goes on with another
filter `g` that has loaded the file. -/
inductive Edit where
  | add (key : Bytes)
  | clear
  | reload (magic : Fin 4 → UInt8) (g : BloomFilter)

def edit (f : BloomFilter) : Edit → BloomFilter
  | .add key => f.add key
  | .clear => f.clear
  | .reload magic g => ((loadFromFile magic g (saveToFile f)).map Prod.snd).getD g

def run (f : BloomFilter) (edits : List Edit) : BloomFilter := edits.foldl edit f

/-- The keys added since the last `clear`. -/
def live (edits : List Edit) : List Bytes :=
  edits.foldl (fun keys e => match e with
    | .add key => key :: keys
    | .clear => []
    | .reload _ _ => keys) []

/-- The shape the constructor gives a filter. -/
structure Shaped (f : BloomFilter) : Prop where
  words_pos : 1 ≤ f.bits.length
  numBits_eq : f.numBits.toNat = 64 * f.bits.length
  numHashes_ne : f.numHashes ≠ 0

/-- Every bit of the key is set. -/
def Marked (f : BloomFilter) (key : Bytes) : Prop :=
  ∀ i < f.numHashes.toNat, testBit f.bits (f.combined key i) = true

/-! ### Bits -/

theorem or_and_self (w x : UInt64) : (w ||| x) &&& x = x := by
  apply UInt64.toNat_inj.mp
  apply Nat.eq_of_testBit_eq
  intro i
  simp only [UInt64.toNat_and, UInt64.toNat_or, Nat.testBit_and, Nat.testBit_or]
  cases Nat.testBit x.toNat i <;> simp

theorem or_and_ne_zero {w x : UInt64} (h : w &&& x ≠ 0) (y : UInt64) : (w ||| y) &&& x ≠ 0 := by
  intro h0
  apply h
  apply UInt64.toNat_inj.mp
  apply Nat.eq_of_testBit_eq
  intro i
  have hi : ((w ||| y) &&& x).toNat.testBit i = false := by rw [h0]; exact Nat.zero_testBit i
  simp only [UInt64.toNat_and, UInt64.toNat_or, Nat.testBit_and, Nat.testBit_or] at hi ⊢
  cases hw : w.toNat.testBit i <;> simp_all

theorem one_shiftLeft_ne_zero (b : UInt64) : (1 : UInt64) <<< (b % 64) ≠ 0 := by
  intro h
  have hlt : b.toNat % 64 < 64 := Nat.mod_lt _ (by decide)
  have hpow : 2 ^ (b.toNat % 64) < 2 ^ 64 := Nat.pow_lt_pow_right (by decide) hlt
  have h0 := congrArg UInt64.toNat h
  simp only [UInt64.toNat_shiftLeft, UInt64.toNat_mod, UInt64.reduceToNat, Nat.shiftLeft_eq,
    Nat.one_mul, Nat.mod_mod, Nat.mod_eq_of_lt hpow] at h0
  exact absurd h0 (Nat.two_pow_pos _).ne'

@[simp] theorem length_setBit (bits : List UInt64) (b : UInt64) :
    (setBit bits b).length = bits.length := List.length_modify ..

theorem testBit_setBit_self {bits : List UInt64} {b : UInt64} (hb : (b / 64).toNat < bits.length) :
    testBit (setBit bits b) b = true := by
  rw [testBit, setBit, List.getD_eq_getElem?_getD, List.getElem?_modify_eq,
    List.getElem?_eq_getElem hb]
  simp only [Option.map_eq_map, Option.map_some, Option.getD_some, or_and_self, bne_iff_ne]
  exact one_shiftLeft_ne_zero b

/-- Setting a bit keeps every bit that is set. -/
theorem testBit_setBit {bits : List UInt64} {b : UInt64} (h : testBit bits b = true) (c : UInt64) :
    testBit (setBit bits c) b = true := by
  rw [testBit, bne_iff_ne] at h ⊢
  rw [setBit, List.getD_eq_getElem?_getD, List.getElem?_modify]
  rw [List.getD_eq_getElem?_getD] at h
  cases hw : bits[(b / 64).toNat]? with
  | none => exact absurd (by rw [hw]; exact UInt64.zero_and) h
  | some w =>
    rw [hw, Option.getD_some] at h
    simp only [Option.map_eq_map, Option.map_some, Option.getD_some]
    split_ifs
    · exact or_and_ne_zero h _
    · exact h

theorem length_setBits (g : ℕ → UInt64) (is : List ℕ) (bits : List UInt64) :
    (is.foldl (fun bits i => setBit bits (g i)) bits).length = bits.length := by
  induction is generalizing bits with
  | nil => rfl
  | cons i is ih => rw [List.foldl_cons, ih, length_setBit]

theorem testBit_setBits {g : ℕ → UInt64} (is : List ℕ) {bits : List UInt64} {b : UInt64}
    (h : testBit bits b = true) :
    testBit (is.foldl (fun bits i => setBit bits (g i)) bits) b = true := by
  induction is generalizing bits with
  | nil => exact h
  | cons i is ih => exact ih (testBit_setBit h (g i))

theorem testBit_setBits_self {g : ℕ → UInt64} {is : List ℕ} {bits : List UInt64}
    (hg : ∀ i, (g i / 64).toNat < bits.length) {i : ℕ} (hi : i ∈ is) :
    testBit (is.foldl (fun bits i => setBit bits (g i)) bits) (g i) = true := by
  induction is generalizing bits with
  | nil => exact absurd hi List.not_mem_nil
  | cons j is ih =>
    obtain rfl | hi := List.mem_cons.mp hi
    · exact testBit_setBits is (testBit_setBit_self (hg i))
    · exact ih (fun k => (length_setBit bits (g j)).symm ▸ hg k) hi

/-! ### Keys -/

theorem foldl_tolower_congr (step : UInt64 → UInt8 → UInt64) (a : UInt64) {key key' : Bytes}
    (h : lower key' = lower key) :
    key'.foldl (fun a c => step a (tolower c)) a = key.foldl (fun a c => step a (tolower c)) a := by
  have hlower (s : Bytes) :
      s.foldl (fun a c => step a (tolower c)) a = (lower s).foldl step a := List.foldl_map.symm
  rw [hlower, hlower, h]

/-- The bits of a key do not depend on the case of its letters. -/
theorem combined_congr {key key' : Bytes} (h : lower key' = lower key) (f : BloomFilter) (i : ℕ) :
    f.combined key' i = f.combined key i := by
  have h₁ : hashFnv1a64 key' = hashFnv1a64 key :=
    foldl_tolower_congr (fun hash c => (hash ^^^ c.toUInt64) * 1099511628211) _ h
  have h₂ : hashMurmurMix64 key' = hashMurmurMix64 key :=
    foldl_tolower_congr (fun h c =>
      let h : UInt64 := (h ^^^ c.toUInt64) * 0xc6a4a7935bd1e995
      h ^^^ (h >>> 47)) _ h
  rw [combined, combined, h₁, h₂]

theorem Marked.congr {f : BloomFilter} {key key' : Bytes} (h : Marked f key)
    (hkey : lower key' = lower key) : Marked f key' := by
  intro i hi
  rw [combined_congr hkey]
  exact h i hi

theorem Shaped.numBits_ne {f : BloomFilter} (hf : Shaped f) : f.numBits ≠ 0 := by
  intro h
  have hbits := hf.numBits_eq
  have hpos := hf.words_pos
  rw [h, UInt64.toNat_zero] at hbits
  omega

theorem Shaped.combined_lt {f : BloomFilter} (hf : Shaped f) (key : Bytes) (i : ℕ) :
    (f.combined key i / 64).toNat < f.bits.length := by
  have hpos := hf.words_pos
  have hlt : (f.combined key i).toNat < 64 * f.bits.length := by
    rw [combined, UInt64.toNat_mod, hf.numBits_eq]
    exact Nat.mod_lt _ (by omega)
  simp only [UInt64.toNat_div, UInt64.reduceToNat]
  omega

theorem Shaped.contains_iff {f : BloomFilter} (hf : Shaped f) (key : Bytes) :
    f.contains key = true ↔ Marked f key := by
  have hbits : f.bits ≠ [] := fun h => absurd hf.words_pos (by simp [h])
  rw [contains, if_neg (by simp [hf.numBits_ne, hbits]), List.all_eq_true]
  simp only [List.mem_range, Marked]

/-! ### Edits -/

theorem Shaped.add {f : BloomFilter} (hf : Shaped f) (key : Bytes) : Shaped (f.add key) := by
  rw [BloomFilter.add, if_neg hf.numBits_ne]
  exact ⟨by rw [length_setBits]; exact hf.words_pos, by rw [length_setBits]; exact hf.numBits_eq,
    hf.numHashes_ne⟩

theorem Shaped.marked_add {f : BloomFilter} (hf : Shaped f) (key : Bytes) :
    Marked (f.add key) key := by
  rw [BloomFilter.add, if_neg hf.numBits_ne]
  exact fun i hi => testBit_setBits_self (hf.combined_lt key) (List.mem_range.mpr hi)

theorem Marked.add {f : BloomFilter} {key : Bytes} (h : Marked f key) (key' : Bytes) :
    Marked (f.add key') key := by
  rw [BloomFilter.add]
  split_ifs
  · exact h
  · exact fun i hi => testBit_setBits _ (h i hi)

theorem Shaped.clear {f : BloomFilter} (hf : Shaped f) : Shaped f.clear :=
  ⟨by rw [BloomFilter.clear, List.length_map]; exact hf.words_pos,
    by rw [BloomFilter.clear, List.length_map]; exact hf.numBits_eq, hf.numHashes_ne⟩

theorem Shaped.contains_clear {f : BloomFilter} (hf : Shaped f) (key : Bytes) :
    f.clear.contains key = false := by
  refine contains_of_zero hf.clear.numHashes_ne (fun w hw => ?_) key
  obtain ⟨_, _, rfl⟩ := List.mem_map.mp hw
  rfl

theorem Shaped.length_le {f : BloomFilter} (hf : Shaped f) : f.bits.length ≤ maxSize := by
  have hbits := hf.numBits_eq
  have hlt := f.numBits.toNat_lt
  rw [maxSize]
  omega

/-- A filter that fits in memory comes through its file unchanged. -/
theorem edit_reload {f : BloomFilter} (hf : f.bits.length ≤ maxSize) (magic : Fin 4 → UInt8)
    (g : BloomFilter) : f.edit (.reload magic g) = f := by
  rw [edit, loadFromFile_saveToFile hf]
  rfl

theorem run_append_singleton (f : BloomFilter) (edits : List Edit) (e : Edit) :
    f.run (edits ++ [e]) = (f.run edits).edit e := by
  rw [run, List.foldl_append]
  rfl

/-- Whatever the edits were, the filter keeps its shape and every live key its bits. -/
theorem Shaped.run {f : BloomFilter} (hf : Shaped f) (edits : List Edit) :
    Shaped (f.run edits) ∧ ∀ key ∈ live edits, Marked (f.run edits) key := by
  induction edits using List.reverseRecOn with
  | nil => exact ⟨hf, fun _ h => absurd h List.not_mem_nil⟩
  | append_singleton edits e ih =>
    obtain ⟨hshape, hmarked⟩ := ih
    rw [run_append_singleton]
    cases e with
    | add key =>
      refine ⟨hshape.add key, fun key' hkey' => ?_⟩
      rw [live, List.foldl_append] at hkey'
      obtain rfl | hkey' := List.mem_cons.mp hkey'
      · exact hshape.marked_add key'
      · exact (hmarked key' hkey').add key
    | clear =>
      refine ⟨hshape.clear, fun key hkey => ?_⟩
      rw [live, List.foldl_append] at hkey
      exact absurd hkey List.not_mem_nil
    | reload magic g =>
      rw [edit_reload hshape.length_le]
      refine ⟨hshape, fun key hkey => hmarked key ?_⟩
      rwa [live, List.foldl_append] at hkey

/-- A filter finds every key added since the last `clear`, in any case of its
letters, and finds nothing right after `clear` or construction. -/
theorem no_false_negatives {f : BloomFilter} (hf : Shaped f) (edits : List Edit) :
    (∀ key ∈ live edits, ∀ key', lower key' = lower key →
      (f.run edits).contains key' = true) ∧
    (∀ key, (f.run (edits ++ [.clear])).contains key = false) ∧
    ∀ m k key, (sized m k).contains key = false := by
  obtain ⟨hshape, hmarked⟩ := hf.run edits
  refine ⟨fun key hkey key' hlower => ?_, fun key => ?_, contains_sized⟩
  · exact (hshape.contains_iff key').mpr ((hmarked key hkey).congr hlower)
  · rw [run_append_singleton]
    exact hshape.contains_clear key

/-- A filter of one word that looks at two bits of a key. -/
def oneWord : BloomFilter := ⟨64, 2, 0, [0]⟩

theorem oneWord_no_false_negatives :
    Shaped oneWord ∧
      (oneWord.run [.add [65], .reload (fun _ => 0) oneWord, .add [66]]).contains [97] = true :=
  have hf : Shaped oneWord := ⟨by decide, by decide, by decide⟩
  ⟨hf, (no_false_negatives hf [.add [65], .reload (fun _ => 0) oneWord, .add [66]]).1 [65]
    (by decide) [97] (by decide)⟩

theorem length_sized (m k : UInt64) : (sized m k).bits.length ≤ maxSize := by
  rw [sized, List.length_replicate, UInt64.toNat_div, maxSize]
  have := ((if m < 64 then 64 else m) + 63 : UInt64).toNat_lt
  simp only [UInt64.reduceToNat]
  omega

/-- An edit leaves as many words as there were. -/
theorem length_edit {f : BloomFilter} (hf : f.bits.length ≤ maxSize) (e : Edit) :
    (f.edit e).bits.length = f.bits.length := by
  cases e with
  | add key =>
    rw [edit, BloomFilter.add]
    split_ifs
    · rfl
    · exact length_setBits _ _ _
  | clear => exact List.length_map ..
  | reload magic g => rw [edit_reload hf]

theorem length_run {f : BloomFilter} (hf : f.bits.length ≤ maxSize) (edits : List Edit) :
    (f.run edits).bits.length = f.bits.length := by
  induction edits using List.reverseRecOn with
  | nil => rfl
  | append_singleton edits e ih => rw [run_append_singleton, length_edit (ih ▸ hf), ih]

/-- The file of a filter that was built by the constructor and edits loads into
any filter as it was, and no proper prefix of the file changes a filter. -/
theorem loadFromFile_run_sized (m k : UInt64) (edits : List Edit) (magic : Fin 4 → UInt8)
    (g : BloomFilter) :
    loadFromFile magic g (saveToFile ((sized m k).run edits)) =
        some (true, (sized m k).run edits) ∧
      ∀ p, p <+: saveToFile ((sized m k).run edits) → p ≠ saveToFile ((sized m k).run edits) →
        loadFromFile magic g p = some (false, g) := by
  have hlen : ((sized m k).run edits).bits.length ≤ maxSize := by
    rw [length_run (length_sized m k)]
    exact length_sized m k
  exact ⟨loadFromFile_saveToFile hlen magic g, fun p hp hne =>
    loadFromFile_prefix hlen hp hne magic g⟩

end Degoonification.BloomFilter
