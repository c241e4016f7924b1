import Beelzebub.Memory.Checks

/-!
# The syscall that copies memory

The bytes are moved in chunks, each of them with `memmove`.  Memory is taken by its virtual
addresses; nothing faults.
-/

namespace Beelzebub.Syscalls

open Memory

/-! ## The code -/

abbrev Bytes := ℕ → UInt8

/-- `rep movsb`. -/
def repMovsb : ℕ → ℕ → ℕ → Bytes → Bytes
  | 0, _, _, mem => mem
  | len + 1, dst, src, mem => repMovsb len (dst + 1) (src + 1) (Function.update mem dst (mem src))

/-- `rep movsb` with the direction flag set. -/
def repMovsbDown : ℕ → ℕ → ℕ → Bytes → Bytes
  | 0, _, _, mem => mem
  | len + 1, dst, src, mem =>
      repMovsbDown len (dst - 1) (src - 1) (Function.update mem dst (mem src))

def memmove (dst src len : ℕ) (mem : Bytes) : Bytes :=
  if src > dst then repMovsb len dst src mem
  else if src < dst then repMovsbDown len (dst + len - 1) (src + len - 1) mem
  else mem

/-- `ChunkSize`. -/
def chunkSize : ℕ := 2 ^ 20

/-- The loop from `chunk` on, for so many rounds at most. -/
def copyChunks (dst src len : ℕ) : ℕ → ℕ → Bytes → Bytes
  | 0, _, mem => mem
  | rounds + 1, chunk, mem =>
      if chunk < len then
        copyChunks dst src len rounds (chunk + chunkSize)
          (memmove (dst + chunk) (src + chunk) (min chunkSize (len - chunk)) mem)
      else mem

/-- `MemoryCopy`, for a process with the address space `user`.  After the first checks no address
wraps around. -/
def memoryCopy (user kernel : Vas) (dst src len : ℕ) (mem : Bytes) :
    Option (HandleResult × Bytes) :=
  if dst = src ∨ len = 0 then some (.okay, mem)
  else if Word.add dst len < dst ∨ Word.add src len < src ∨ dst < Vmm.userlandStart ∨
      Word.add dst len ≥ Vmm.userlandEnd then some (.argumentOutOfRange, mem)
  else do
    let res ← Vmm.checkMemoryRegion user kernel src len
      (MemoryCheckType.userland ||| MemoryCheckType.readable)
    if res ≠ .okay then some (res, mem)
    else do
      let res ← Vmm.checkMemoryRegion user kernel dst len
        (MemoryCheckType.userland ||| MemoryCheckType.readable ||| MemoryCheckType.private)
      if res ≠ .okay then some (res, mem)
      else some (.okay, copyChunks dst src len len 0 mem)

/-! ## What is asked -/

/-- The bytes were moved, and no others were touched. -/
def Moved (dst src len : ℕ) (mem mem' : Bytes) : Prop :=
  (∀ i, i < len → mem' (dst + i) = mem (src + i)) ∧
  ∀ a, a < dst ∨ dst + len ≤ a → mem' a = mem a

/-! ## The condition -/

/-- A byte of the source that an earlier chunk is copied over. -/
def Stale (dst src i : ℕ) : Prop :=
  src < dst ∧ dst - src ≤ i ∧ (i - (dst - src)) / chunkSize < i / chunkSize

instance (dst src i : ℕ) : Decidable (Stale dst src i) := inferInstanceAs (Decidable (_ ∧ _))

/-- Such bytes are copied over with the same value. -/
def Repeats (dst src len : ℕ) (mem : Bytes) : Prop :=
  ∀ i, i < len → Stale dst src i → mem (src + i) = mem (src + (i - (dst - src)))

variable {dst src len : ℕ} {mem mem' : Bytes} {a i : ℕ}

/-- The ranges are apart, or the destination is the lower one, or a single chunk is enough. -/
theorem repeats_of_apart (h : dst ≤ src ∨ src + len ≤ dst ∨ len ≤ chunkSize) (mem : Bytes) :
    Repeats dst src len mem := by
  rintro i hi ⟨hlt, hle, hchunk⟩
  rcases h with h | h | h
  · exact absurd hlt (Nat.not_lt.mpr h)
  · omega
  · rw [Nat.div_eq_of_lt (Nat.lt_of_lt_of_le hi h)] at hchunk
    exact absurd hchunk (Nat.not_lt_zero _)

/-! ## `memmove` -/

theorem repMovsb_spec (h : dst < src) (len : ℕ) (mem : Bytes) (a : ℕ) :
    repMovsb len dst src mem a =
      if dst ≤ a ∧ a < dst + len then mem (src + (a - dst)) else mem a := by
  induction len generalizing dst src mem with
  | zero =>
      rw [if_neg (by omega)]
      rfl
  | succ len ih =>
      rw [repMovsb, ih (Nat.succ_lt_succ h)]
      by_cases hfirst : a = dst
      · subst hfirst
        rw [if_neg (by omega), if_pos (by omega), Function.update_self, Nat.sub_self]
        rfl
      · by_cases hrest : dst + 1 ≤ a ∧ a < dst + 1 + len
        · rw [if_pos hrest, if_pos (by omega), Function.update_of_ne (by omega)]
          congr 1
          omega
        · rw [if_neg hrest, if_neg (by omega), Function.update_of_ne hfirst]

theorem repMovsbDown_spec (h : src < dst) (len : ℕ) (mem : Bytes) (a : ℕ) :
    repMovsbDown len (dst + len - 1) (src + len - 1) mem a =
      if dst ≤ a ∧ a < dst + len then mem (src + (a - dst)) else mem a := by
  induction len generalizing mem with
  | zero =>
      rw [if_neg (by omega)]
      rfl
  | succ len ih =>
      rw [repMovsbDown, show dst + (len + 1) - 1 - 1 = dst + len - 1 by omega,
        show src + (len + 1) - 1 - 1 = src + len - 1 by omega, ih]
      rw [show dst + (len + 1) - 1 = dst + len by omega,
        show src + (len + 1) - 1 = src + len by omega]
      by_cases hlast : a = dst + len
      · subst hlast
        rw [if_neg (by omega), if_pos (by omega), Function.update_self, Nat.add_sub_cancel_left]
      · by_cases hrest : dst ≤ a ∧ a < dst + len
        · rw [if_pos hrest, if_pos (by omega), Function.update_of_ne (by omega)]
        · rw [if_neg hrest, if_neg (by omega), Function.update_of_ne hlast]

theorem memmove_spec (dst src len : ℕ) (mem : Bytes) (a : ℕ) :
    memmove dst src len mem a =
      if dst ≤ a ∧ a < dst + len then mem (src + (a - dst)) else mem a := by
  unfold memmove
  split
  next h => exact repMovsb_spec h len mem a
  next =>
    split
    next h => exact repMovsbDown_spec h len mem a
    next =>
      obtain rfl : src = dst := by omega
      split
      next hin => rw [Nat.add_sub_cancel' hin.1]
      next => rfl

/-! ## The chunks -/

/-- What the loop has done up to `done`: a byte is what it was in the source, or what had been
copied over it there. -/
structure Partly (dst src done : ℕ) (mem mem' : Bytes) : Prop where
  fresh : ∀ i, i < done → ¬ Stale dst src i → mem' (dst + i) = mem (src + i)
  stale : ∀ i, i < done → Stale dst src i → mem' (dst + i) = mem' (dst + (i - (dst - src)))
  others : ∀ a, a < dst ∨ dst + done ≤ a → mem' a = mem a

/-- One chunk. -/
theorem Partly.chunk {k n : ℕ} (h : Partly dst src (k * chunkSize) mem mem')
    (hn : n ≤ chunkSize) :
    Partly dst src (k * chunkSize + n) mem
      (memmove (dst + k * chunkSize) (src + k * chunkSize) n mem') := by
  have hin : ∀ i, k * chunkSize ≤ i → i < k * chunkSize + n →
      memmove (dst + k * chunkSize) (src + k * chunkSize) n mem' (dst + i) = mem' (src + i) := by
    intro i hle hlt
    rw [memmove_spec, if_pos (by omega)]
    congr 1
    omega
  have hout : ∀ a, a < dst + k * chunkSize ∨ dst + k * chunkSize + n ≤ a →
      memmove (dst + k * chunkSize) (src + k * chunkSize) n mem' a = mem' a := by
    intro a ha
    rw [memmove_spec, if_neg (by omega)]
  have hdiv : ∀ i, k * chunkSize ≤ i → i < k * chunkSize + n → i / chunkSize = k := by
    intro i hle hlt
    refine Nat.div_eq_of_lt_le hle ?_
    rw [Nat.add_mul, Nat.one_mul]
    omega
  have hearlier : ∀ j, j / chunkSize < k ↔ j < k * chunkSize := fun j =>
    Nat.div_lt_iff_lt_mul (by decide)
  constructor
  case fresh =>
    intro i hi hstale
    by_cases hk : i < k * chunkSize
    · rw [hout _ (by omega)]
      exact h.fresh i hk hstale
    · rw [hin i (by omega) hi]
      refine h.others _ ?_
      by_contra hover
      refine hstale ⟨by omega, by omega, ?_⟩
      rw [hdiv i (by omega) hi, hearlier]
      omega
  case stale =>
    intro i hi hstale
    obtain ⟨hlt, hle, hchunk⟩ := id hstale
    by_cases hk : i < k * chunkSize
    · rw [hout _ (by omega), hout _ (by omega)]
      exact h.stale i hk hstale
    · rw [hdiv i (by omega) hi, hearlier] at hchunk
      rw [hin i (by omega) hi, hout _ (by omega)]
      congr 1
      omega
  case others =>
    intro a ha
    rw [hout a (by omega)]
    exact h.others a (by omega)

theorem copyChunks_done {rounds chunk : ℕ} (h : len ≤ chunk) (mem : Bytes) :
    copyChunks dst src len rounds chunk mem = mem := by
  cases rounds with
  | zero => rfl
  | succ rounds => exact if_neg (Nat.not_lt.mpr h)

/-- The loop, from a chunk on. -/
theorem Partly.copyChunks {rounds k : ℕ} (h : Partly dst src (k * chunkSize) mem mem')
    (hk : k * chunkSize ≤ len) (hrounds : len ≤ k * chunkSize + rounds) :
    Partly dst src len mem (copyChunks dst src len rounds (k * chunkSize) mem') := by
  induction rounds generalizing k mem' with
  | zero =>
      rw [Nat.add_zero] at hrounds
      obtain rfl : len = k * chunkSize := Nat.le_antisymm hrounds hk
      exact h
  | succ rounds ih =>
      rw [Syscalls.copyChunks]
      split
      next hlt =>
        have hchunk := h.chunk (Nat.min_le_left chunkSize (len - k * chunkSize))
        have hnext : k * chunkSize + chunkSize = (k + 1) * chunkSize := (Nat.succ_mul _ _).symm
        have hpos : 0 < chunkSize := by decide
        rcases Nat.le_total chunkSize (len - k * chunkSize) with hfull | hlast
        · rw [Nat.min_eq_left hfull, hnext] at hchunk ⊢
          exact ih hchunk (by omega) (by omega)
        · rw [Nat.min_eq_right hlast, Nat.add_sub_cancel' hk] at hchunk
          rw [Nat.min_eq_right hlast, copyChunks_done (by omega)]
          exact hchunk
      next hge =>
        obtain rfl : len = k * chunkSize := Nat.le_antisymm (Nat.not_lt.mp hge) hk
        exact h

theorem copyChunks_partly (dst src len : ℕ) (mem : Bytes) :
    Partly dst src len mem (copyChunks dst src len len 0 mem) := by
  have hstart : Partly dst src (0 * chunkSize) mem mem := by
    rw [Nat.zero_mul]
    exact ⟨fun i hi => absurd hi (Nat.not_lt_zero i), fun i hi => absurd hi (Nat.not_lt_zero i),
      fun _ _ => rfl⟩
  have hloop := hstart.copyChunks (Nat.zero_mul chunkSize ▸ Nat.zero_le len)
    (Nat.le_add_left _ _)
  rw [Nat.zero_mul] at hloop
  exact hloop

/-- The bytes are moved exactly if those that are copied over are the same. -/
theorem Partly.moved_iff (h : Partly dst src len mem mem') :
    Moved dst src len mem mem' ↔ Repeats dst src len mem := by
  constructor
  · rintro ⟨hmoved, -⟩ i hi hstale
    rw [← hmoved i hi, h.stale i hi hstale, hmoved _ (by omega)]
  · intro hrepeats
    refine ⟨?_, h.others⟩
    intro i hi
    induction i using Nat.strongRecOn with
    | ind i ih =>
        by_cases hstale : Stale dst src i
        · have hshift : 0 < dst - src := Nat.sub_pos_of_lt hstale.1
          have hback : i - (dst - src) < i := Nat.sub_lt (Nat.lt_of_lt_of_le hshift hstale.2.1) hshift
          rw [h.stale i hi hstale, ih _ hback (Nat.lt_trans hback hi), hrepeats i hi hstale]
        · exact h.fresh i hi hstale

/-! ## The syscall -/

/-- What a call that returns `Okay` has done. -/
theorem memoryCopy_cases {user kernel : Vas}
    (h : memoryCopy user kernel dst src len mem = some (.okay, mem')) :
    (dst = src ∨ len = 0) ∧ mem' = mem ∨ mem' = copyChunks dst src len len 0 mem := by
  unfold memoryCopy at h
  split at h
  next htrivial => exact .inl ⟨htrivial, (Prod.mk.inj (Option.some.inj h)).2.symm⟩
  next =>
    split at h
    next => exact nomatch h
    next =>
      obtain ⟨res, -, h⟩ := Option.bind_eq_some_iff.mp h
      split at h
      next hres => exact absurd (Prod.mk.inj (Option.some.inj h)).1 hres
      next =>
        obtain ⟨res', -, h⟩ := Option.bind_eq_some_iff.mp h
        split at h
        next hres => exact absurd (Prod.mk.inj (Option.some.inj h)).1 hres
        next => exact .inr (Prod.mk.inj (Option.some.inj h)).2.symm

/-- A call that passes the checks moves the bytes if and only if those of the source that earlier
chunks are copied over are copied over with the same values. -/
theorem memoryCopy_moves_iff {user kernel : Vas}
    (h : memoryCopy user kernel dst src len mem = some (.okay, mem')) :
    Moved dst src len mem mem' ↔ Repeats dst src len mem := by
  rcases memoryCopy_cases h with ⟨htrivial, rfl⟩ | rfl
  · refine iff_of_true ⟨?_, fun _ _ => rfl⟩ ?_
    · intro i hi
      rcases htrivial with rfl | rfl
      · rfl
      · exact absurd hi (Nat.not_lt_zero i)
    · rintro i hi ⟨hlt, -⟩
      rcases htrivial with rfl | rfl
      · exact absurd hlt (Nat.lt_irrefl _)
      · exact absurd hi (Nat.not_lt_zero i)
  · exact (copyChunks_partly dst src len mem).moved_iff

/-- A userland process with a region of 4 MiB. -/
def largeRegion : Vas :=
  (Vas.performAll Vas.unlimited [.allocate 0x400000 0x400000
    (MemoryFlags.userland ||| MemoryFlags.writable) .generic
    MemoryAllocationOptions.allocateOnDemand] (Vas.fresh Vmm.userlandStart Vmm.userlandEnd)).getD
    (Vas.fresh Vmm.userlandStart Vmm.userlandEnd)

def kernelVas : Vas := Vas.fresh Vmm.kernelStart Vmm.kernelEnd

theorem memoryCopy_moves_iff_page : ∃ mem',
    memoryCopy largeRegion kernelVas 0x400000 0x401000 0x1000 (fun _ => 0) = some (.okay, mem') ∧
    (Moved 0x400000 0x401000 0x1000 (fun _ => 0) mem' ↔
      Repeats 0x400000 0x401000 0x1000 fun _ => 0) := by
  have hsrc : Vmm.checkMemoryRegion largeRegion kernelVas 0x401000 0x1000
      (MemoryCheckType.userland ||| MemoryCheckType.readable) = some .okay := by decide
  have hdst : Vmm.checkMemoryRegion largeRegion kernelVas 0x400000 0x1000
      (MemoryCheckType.userland ||| MemoryCheckType.readable ||| MemoryCheckType.private) =
      some .okay := by decide
  have hcopy : memoryCopy largeRegion kernelVas 0x400000 0x401000 0x1000 (fun _ => 0) =
      some (.okay, copyChunks 0x400000 0x401000 0x1000 0x1000 0 fun _ => 0) := by
    unfold memoryCopy
    rw [if_neg (by decide), if_neg (by decide), hsrc, hdst]
    rfl
  exact ⟨_, hcopy, memoryCopy_moves_iff hcopy⟩

/-- A source and a destination one byte above it, where the second chunk has a single byte. -/
theorem not_moved : ∃ mem mem',
    memoryCopy largeRegion kernelVas 0x400001 0x400000 (2 ^ 20 + 1) mem = some (.okay, mem') ∧
    ¬ Moved 0x400001 0x400000 (2 ^ 20 + 1) mem mem' := by
  have hsrc : Vmm.checkMemoryRegion largeRegion kernelVas 0x400000 (2 ^ 20 + 1)
      (MemoryCheckType.userland ||| MemoryCheckType.readable) = some .okay := by decide
  have hdst : Vmm.checkMemoryRegion largeRegion kernelVas 0x400001 (2 ^ 20 + 1)
      (MemoryCheckType.userland ||| MemoryCheckType.readable ||| MemoryCheckType.private) =
      some .okay := by decide
  let mem : Bytes := fun a => if a = 0x500000 then 1 else 0
  have hcopy : memoryCopy largeRegion kernelVas 0x400001 0x400000 (2 ^ 20 + 1) mem =
      some (.okay, copyChunks 0x400001 0x400000 (2 ^ 20 + 1) (2 ^ 20 + 1) 0 mem) := by
    unfold memoryCopy
    rw [if_neg (by decide), if_neg (by decide), hsrc, hdst]
    rfl
  refine ⟨mem, _, hcopy, ?_⟩
  rw [(copyChunks_partly _ _ _ _).moved_iff]
  intro hrepeats
  exact absurd (hrepeats (2 ^ 20) (by decide) (by decide)) (by decide)

end Beelzebub.Syscalls
