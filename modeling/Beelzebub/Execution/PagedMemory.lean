import Beelzebub.Memory.Enums
import Mathlib.Algebra.Ring.Nat
import Mathlib.Data.Nat.Notation
import Mathlib.Tactic.Common

/-!
# Memory behind pages

The memory of a process is seen through its page map.  Bytes are moved one at a time, and a byte
that is not mapped, or not to be written to, is a fault.  Where a frame is shown by one page only,
what is stored there is seen there and nowhere else.
-/

namespace Beelzebub.Execution

open Memory (MemoryFlags has)

/-! ## The code -/

structure Page where
  frame : UInt64
  flags : MemoryFlags
  deriving DecidableEq

/-- The number of the page of an address. -/
def pageOf (addr : UInt64) : UInt64 := addr / 4096

/-- The page map of a process, the pages that its address space has given out, and the frames.  The
processor may be told not to write to pages that are not writable. -/
structure ProcessMemory where
  page : UInt64 → Option Page
  reserved : UInt64 → Bool
  byte : UInt64 → UInt64 → UInt8
  writeProtect : Bool

namespace ProcessMemory

def load (addr : UInt64) (m : ProcessMemory) : Option UInt8 :=
  (m.page (pageOf addr)).map fun p => m.byte p.frame (addr % 4096)

/-- The byte of a frame. -/
def put (frame offset : UInt64) (value : UInt8) (m : ProcessMemory) : ProcessMemory :=
  { m with byte := fun f o => if f = frame ∧ o = offset then value else m.byte f o }

def store (addr : UInt64) (value : UInt8) (m : ProcessMemory) : Option ProcessMemory :=
  match m.page (pageOf addr) with
  | none => none
  | some p =>
      if m.writeProtect && !has p.flags MemoryFlags.writable then none
      else some (m.put p.frame (addr % 4096) value)

/-- `memcpy`. -/
def copy : ℕ → UInt64 → UInt64 → ProcessMemory → Option ProcessMemory
  | 0, _, _, m => some m
  | n + 1, dst, src, m =>
      match m.load src with
      | none => none
      | some value =>
          match m.store dst value with
          | none => none
          | some m => copy n (dst + 1) (src + 1) m

/-- `memset`. -/
def fill (value : UInt8) : ℕ → UInt64 → ProcessMemory → Option ProcessMemory
  | 0, _, m => some m
  | n + 1, dst, m =>
      match m.store dst value with
      | none => none
      | some m => fill value n (dst + 1) m

/-! ## Bytes -/

/-- What does not change when bytes are stored. -/
structure SamePages (m m' : ProcessMemory) : Prop where
  page : m'.page = m.page
  reserved : m'.reserved = m.reserved
  writeProtect : m'.writeProtect = m.writeProtect

theorem SamePages.refl (m : ProcessMemory) : SamePages m m := ⟨rfl, rfl, rfl⟩

theorem SamePages.trans {m m' m'' : ProcessMemory} (h : SamePages m m') (h' : SamePages m' m'') :
    SamePages m m'' :=
  ⟨h'.page.trans h.page, h'.reserved.trans h.reserved, h'.writeProtect.trans h.writeProtect⟩

/-- No other page shows the frame of the page. -/
def Own (m : ProcessMemory) (p : UInt64) : Prop :=
  ∀ q r s, m.page p = some r → m.page q = some s → s.frame = r.frame → q = p

theorem SamePages.own {m m' : ProcessMemory} (h : SamePages m m') {p : UInt64} (hown : m.Own p) :
    m'.Own p := by
  intro q r s
  rw [h.page]
  exact hown q r s

variable {m m' : ProcessMemory} {a b dst src : UInt64} {value : UInt8} {n : ℕ}

theorem eq_of_page {a b : UInt64} (hpage : pageOf a = pageOf b) (hoffset : a % 4096 = b % 4096) :
    a = b := by
  unfold pageOf at hpage
  have hdiv := congrArg UInt64.toNat hpage
  have hmod := congrArg UInt64.toNat hoffset
  rw [UInt64.toNat_div, UInt64.toNat_div] at hdiv
  rw [UInt64.toNat_mod, UInt64.toNat_mod] at hmod
  refine UInt64.toNat_inj.mp ?_
  rw [← Nat.div_add_mod a.toNat (UInt64.toNat 4096), ← Nat.div_add_mod b.toNat (UInt64.toNat 4096),
    hdiv, hmod]

/-- A store that is not refused. -/
theorem store_eq_some (h : m.store a value = some m') :
    ∃ p, m.page (pageOf a) = some p ∧ m' = m.put p.frame (a % 4096) value := by
  unfold store at h
  split at h
  next => exact nomatch h
  next p hp =>
    split at h
    next => exact nomatch h
    next => exact ⟨p, hp, (Option.some.inj h).symm⟩

theorem store_same (h : m.store a value = some m') : SamePages m m' := by
  obtain ⟨p, -, rfl⟩ := store_eq_some h
  exact ⟨rfl, rfl, rfl⟩

theorem load_store (h : m.store a value = some m') : m'.load a = some value := by
  obtain ⟨p, hp, rfl⟩ := store_eq_some h
  unfold load put
  rw [hp]
  exact congrArg some (if_pos ⟨rfl, rfl⟩)

theorem load_store_ne (h : m.store a value = some m') (hown : m.Own (pageOf a)) (hb : b ≠ a) :
    m'.load b = m.load b := by
  obtain ⟨p, hp, rfl⟩ := store_eq_some h
  unfold load put
  cases hq : m.page (pageOf b) with
  | none => rfl
  | some q =>
      refine congrArg some (if_neg ?_)
      rintro ⟨hframe, hoffset⟩
      exact hb (eq_of_page (hown _ _ _ hp hq hframe) hoffset)

theorem store_mapped (hpage : ∀ p, m.page p ≠ none) (hprotect : m.writeProtect = false)
    (a : UInt64) (value : UInt8) : ∃ m', m.store a value = some m' := by
  unfold store
  cases hp : m.page (pageOf a) with
  | none => exact absurd hp (hpage _)
  | some p =>
      rw [hprotect]
      exact ⟨_, rfl⟩

/-! ## Copies -/

theorem ofNat_succ_add (a : UInt64) (k : ℕ) :
    a + UInt64.ofNat (k + 1) = a + 1 + UInt64.ofNat k := by
  rw [UInt64.ofNat_add, UInt64.add_comm (UInt64.ofNat k), ← UInt64.add_assoc]
  rfl

theorem add_ofNat_zero (a : UInt64) : a + UInt64.ofNat 0 = a := UInt64.add_zero a

/-- So few bytes on, an address does not come again. -/
theorem add_ofNat_inj {j k : ℕ} (hj : j < 2 ^ 64) (hk : k < 2 ^ 64)
    (h : a + UInt64.ofNat j = a + UInt64.ofNat k) : j = k := by
  have hsame := congrArg UInt64.toNat (UInt64.add_right_inj a |>.mp h)
  rwa [UInt64.toNat_ofNat', UInt64.toNat_ofNat', Nat.mod_eq_of_lt hj, Nat.mod_eq_of_lt hk] at hsame

/-- The pages of so many bytes are shown nowhere else. -/
def Owns (m : ProcessMemory) (dst : UInt64) (n : ℕ) : Prop :=
  ∀ k < n, m.Own (pageOf (dst + UInt64.ofNat k))

theorem Owns.head (h : m.Owns dst (n + 1)) : m.Own (pageOf dst) := by
  have hown := h 0 (Nat.zero_lt_succ n)
  rwa [add_ofNat_zero] at hown

theorem Owns.tail (h : m.Owns dst (n + 1)) (hsame : SamePages m m') : m'.Owns (dst + 1) n := by
  intro k hk
  rw [← ofNat_succ_add]
  exact hsame.own (h (k + 1) (Nat.succ_lt_succ hk))

/-- The address is none of so many bytes. -/
def Avoids (b dst : UInt64) (n : ℕ) : Prop := ∀ k < n, b ≠ dst + UInt64.ofNat k

theorem Avoids.head (h : Avoids b dst (n + 1)) : b ≠ dst := by
  have hne := h 0 (Nat.zero_lt_succ n)
  rwa [add_ofNat_zero] at hne

theorem Avoids.tail (h : Avoids b dst (n + 1)) : Avoids b (dst + 1) n := by
  intro k hk
  rw [← ofNat_succ_add]
  exact h (k + 1) (Nat.succ_lt_succ hk)

/-- The bytes behind an address do not come back to it. -/
theorem avoids_next (dst : UInt64) (hn : n < 2 ^ 64) : Avoids dst (dst + 1) n := by
  intro k hk hsame
  rw [← ofNat_succ_add] at hsame
  have hzero : dst + UInt64.ofNat 0 = dst + UInt64.ofNat (k + 1) := (add_ofNat_zero dst).trans hsame
  exact nomatch add_ofNat_inj (Nat.two_pow_pos 64) (by omega) hzero

theorem copy_succ (h : m.copy (n + 1) dst src = some m') : ∃ v m₁,
    m.load src = some v ∧ m.store dst v = some m₁ ∧ m₁.copy n (dst + 1) (src + 1) = some m' := by
  rw [copy] at h
  split at h
  next => exact nomatch h
  next v hv =>
    split at h
    next => exact nomatch h
    next m₁ hm₁ => exact ⟨v, m₁, hv, hm₁, h⟩

theorem copy_same (h : m.copy n dst src = some m') : SamePages m m' := by
  induction n generalizing m dst src with
  | zero =>
      obtain rfl := Option.some.inj h
      exact .refl m
  | succ n ih =>
      obtain ⟨v, m₁, _, hstore, hrest⟩ := copy_succ h
      exact (store_same hstore).trans (ih hrest)

/-- What lies elsewhere is left alone. -/
theorem load_copy_outside (h : m.copy n dst src = some m') (hown : m.Owns dst n)
    (hb : Avoids b dst n) : m'.load b = m.load b := by
  induction n generalizing m dst src with
  | zero =>
      obtain rfl := Option.some.inj h
      rfl
  | succ n ih =>
      obtain ⟨v, m₁, _, hstore, hrest⟩ := copy_succ h
      rw [ih hrest (hown.tail (store_same hstore)) hb.tail]
      exact load_store_ne hstore hown.head hb.head

/-- A byte arrives unless its source has been overwritten before. -/
theorem load_copy (h : m.copy n dst src = some m') (hn : n ≤ 2 ^ 64) (hown : m.Owns dst n) {k : ℕ}
    (hk : k < n) (hsrc : Avoids (src + UInt64.ofNat k) dst k) :
    m'.load (dst + UInt64.ofNat k) = m.load (src + UInt64.ofNat k) := by
  induction n generalizing m dst src k with
  | zero => exact absurd hk (Nat.not_lt_zero k)
  | succ n ih =>
      obtain ⟨v, m₁, hload, hstore, hrest⟩ := copy_succ h
      have hown' := hown.tail (store_same hstore)
      cases k with
      | zero =>
          rw [add_ofNat_zero, add_ofNat_zero, hload,
            load_copy_outside hrest hown' (avoids_next dst (Nat.lt_of_succ_le hn))]
          exact load_store hstore
      | succ k =>
          rw [ofNat_succ_add src] at hsrc
          rw [ofNat_succ_add dst, ofNat_succ_add src,
            ih hrest (Nat.le_of_succ_le hn) hown' (Nat.lt_of_succ_lt_succ hk) hsrc.tail]
          exact load_store_ne hstore hown.head hsrc.head

theorem copy_mapped (hpage : ∀ p, m.page p ≠ none) (hprotect : m.writeProtect = false) (n : ℕ)
    (dst src : UInt64) : ∃ m', m.copy n dst src = some m' := by
  induction n generalizing m dst src with
  | zero => exact ⟨m, rfl⟩
  | succ n ih =>
      rw [copy]
      cases hload : m.load src with
      | none =>
          unfold load at hload
          exact absurd (Option.map_eq_none_iff.mp hload) (hpage _)
      | some value =>
          obtain ⟨m₁, hstore⟩ := store_mapped hpage hprotect dst value
          have hsame := store_same hstore
          dsimp only
          rw [hstore]
          exact ih (hsame.page ▸ hpage) (hsame.writeProtect.trans hprotect) _ _

/-! ## Fills -/

theorem fill_succ (h : m.fill value (n + 1) dst = some m') : ∃ m₁,
    m.store dst value = some m₁ ∧ m₁.fill value n (dst + 1) = some m' := by
  rw [fill] at h
  split at h
  next => exact nomatch h
  next m₁ hm₁ => exact ⟨m₁, hm₁, h⟩

theorem fill_same (h : m.fill value n dst = some m') : SamePages m m' := by
  induction n generalizing m dst with
  | zero =>
      obtain rfl := Option.some.inj h
      exact .refl m
  | succ n ih =>
      obtain ⟨m₁, hstore, hrest⟩ := fill_succ h
      exact (store_same hstore).trans (ih hrest)

theorem load_fill_outside (h : m.fill value n dst = some m') (hown : m.Owns dst n)
    (hb : Avoids b dst n) : m'.load b = m.load b := by
  induction n generalizing m dst with
  | zero =>
      obtain rfl := Option.some.inj h
      rfl
  | succ n ih =>
      obtain ⟨m₁, hstore, hrest⟩ := fill_succ h
      rw [ih hrest (hown.tail (store_same hstore)) hb.tail]
      exact load_store_ne hstore hown.head hb.head

theorem load_fill (h : m.fill value n dst = some m') (hn : n ≤ 2 ^ 64) (hown : m.Owns dst n) {k : ℕ}
    (hk : k < n) : m'.load (dst + UInt64.ofNat k) = some value := by
  induction n generalizing m dst k with
  | zero => exact absurd hk (Nat.not_lt_zero k)
  | succ n ih =>
      obtain ⟨m₁, hstore, hrest⟩ := fill_succ h
      have hown' := hown.tail (store_same hstore)
      cases k with
      | zero =>
          rw [add_ofNat_zero,
            load_fill_outside hrest hown' (avoids_next dst (Nat.lt_of_succ_le hn))]
          exact load_store hstore
      | succ k =>
          rw [ofNat_succ_add dst]
          exact ih hrest (Nat.le_of_succ_le hn) hown' (Nat.lt_of_succ_lt_succ hk)

theorem fill_mapped (hpage : ∀ p, m.page p ≠ none) (hprotect : m.writeProtect = false)
    (value : UInt8) (n : ℕ) (dst : UInt64) : ∃ m', m.fill value n dst = some m' := by
  induction n generalizing m dst with
  | zero => exact ⟨m, rfl⟩
  | succ n ih =>
      obtain ⟨m₁, hstore⟩ := store_mapped hpage hprotect dst value
      have hsame := store_same hstore
      rw [fill, hstore]
      exact ih (hsame.page ▸ hpage) (hsame.writeProtect.trans hprotect) _

end ProcessMemory

end Beelzebub.Execution
