import Beelzebub.Execution.ElfBounds

/-!
# The entries of the dynamic section

The loop over the entries takes the section to be as large as its segment is in memory, and of a
segment smaller than one entry it takes the size to be almost `2 ^ 64`.  What the loop reads
therefore lies in the file if some entry in the file is one that it cannot go past.
-/

namespace Beelzebub.Execution

variable {σ : Type} {mem : Memory} {segval : Option (SegmentValidator σ)}

/-! ## What is asked -/

/-- The offsets in the section of the entries that the loop reads, one for each time that it looks
at an entry. -/
def ElfDynamic.offsetsRead (mem : Memory) (dtSize : UInt64) :
    ℕ → UInt64 → UInt64 → ElfDynamic → List UInt64
  | 0, _, _, _ => []
  | rounds + 1, cursor, offset, elf =>
      offset ::
        match elf.takeEntry (.read mem cursor) with
        | .error _ => []
        | .ok elf =>
            if offset + 16 > dtSize - 16 then []
            else if (ElfDynamicEntry64.read mem (cursor + 16)).tag = 0 then [offset + 16]
            else (offset + 16) :: offsetsRead mem dtSize rounds (cursor + 16) (offset + 16) elf

/-- The entry of such an index. -/
def entryAt (mem : Memory) (dts : UInt64) (s : ℕ) : ElfDynamicEntry64 :=
  .read mem (dts + UInt64.ofNat (16 * s))

/-- What is asked of parsing a section of so many bytes in the file. -/
structure WithinSegment (mem : Memory) (elf : Elf) (dts pSize : UInt64) : Prop where
  reads : ∀ o ∈ elf.dynamic.offsetsRead mem elf.dtSize (2 ^ 60) dts 0, o.toNat + 16 ≤ pSize.toNat
  ends : elf.validateParseDt64 mem dts ≠ none
  terminated : ∀ elf', elf.validateParseDt64 mem dts = some (.ok elf') →
    16 * elf'.dynamic.dtCount + 16 ≤ pSize.toNat ∧ (entryAt mem dts elf'.dynamic.dtCount).tag = 0

/-- The header and the segments have passed the checks before the section. -/
structure Accepted (mem : Memory) (segval : Option (SegmentValidator σ)) (valdata : σ)
    (image : Elf) (g : Gathered σ) : Prop where
  isElf64 : image.isElf64 mem = true
  entrySize : image.programHeaderTableEntrySize mem = 56
  tableOffset : image.programHeaderTableOffset mem ≤ image.size - 56
  table : image.programHeaderTableOffset mem +
    UInt64.ofNat (image.programHeaderTableEntryCount mem).toNat * 56 ≤ image.size
  segments : Gathered.takeAll mem segval [] (image.phdrs mem) ⟨image, 0, 0, valdata⟩ = .ok g
  nonload : g.elf.checkNonload mem (image.phdrs mem) = .ok ()

/-- The last dynamic segment. -/
def lastDynamic (phdrs : List ElfProgramHeader64) : Option ElfProgramHeader64 :=
  (phdrs.filter fun phdr => phdr.type = typeDynamic).getLast?

/-- An entry that the `switch` turns down. -/
def ElfDynamicEntry64.Rejected (entry : ElfDynamicEntry64) : Prop :=
  (entry.tag = dtRelaent ∧ entry.value ≠ 24) ∨ (entry.tag = dtRelent ∧ entry.value ≠ 16) ∨
    (entry.tag = dtSyment ∧ entry.value ≠ 24) ∨
    (entry.tag = dtPltrel ∧ entry.value.toUInt32 ≠ dtRel ∧ entry.value.toUInt32 ≠ dtRela)

/-- An entry that the loop does not go past, in a section of such a size. -/
structure Stops (mem : Memory) (dts vSize : UInt64) (s : ℕ) : Prop where
  stops : (1 ≤ s ∧ (entryAt mem dts s).tag = 0) ∨ (entryAt mem dts s).Rejected ∨
    (16 ≤ vSize.toNat ∧ vSize.toNat < 16 * s + 32)

/-- Some entry in the file stops the loop. -/
def Enclosed (mem : Memory) (dts vSize pSize : UInt64) : Prop :=
  ∃ s, 16 * s + 16 ≤ pSize.toNat ∧ Stops mem dts vSize s

/-! ## One entry -/

theorem takeEntry_rejected (elf : ElfDynamic) {entry : ElfDynamicEntry64} (h : entry.Rejected) :
    ∃ e, elf.takeEntry entry = .error e := by
  unfold ElfDynamic.takeEntry
  rcases h with ⟨htag, hvalue⟩ | ⟨htag, hvalue⟩ | ⟨htag, hvalue⟩ | ⟨htag, hrel, hrela⟩
  · simp [htag, hvalue, dtRela, dtRelasz, dtRelaent]
  · simp [htag, hvalue, dtRela, dtRelasz, dtRelaent, dtRel, dtRelsz, dtRelent]
  · simp [htag, hvalue, dtRela, dtRelasz, dtRelaent, dtRel, dtRelsz, dtRelent, dtJmprel,
      dtPltrelsz, dtPltrel, dtPltgot, dtSymtab, dtSyment]
  · refine ⟨.dtInvalidPltRelocationType, ?_⟩
    have hneither : ¬ (entry.value.toUInt32 = dtRel ∨ entry.value.toUInt32 = dtRela) := by
      rintro (h | h)
      · exact hrel h
      · exact hrela h
    dsimp only
    rw [if_neg hneither]
    simp [htag, dtRela, dtRelasz, dtRelaent, dtRel, dtRelsz, dtRelent, dtJmprel, dtPltrelsz,
      dtPltrel]

section Cases

variable {α ε : Type} {c d : Prop} [Decidable c] [Decidable d] {a : α} {e : ε} {x : Except ε α}

/-- A case that stores the value. -/
theorem ite_stored (hx : ∃ b, x = .ok b) : ∃ b, (if c then .ok a else x) = .ok b := by
  by_cases hc : c
  · exact ⟨a, if_pos hc⟩
  · rw [if_neg hc]
    exact hx

/-- A case that checks the value first. -/
theorem ite_checked (hd : c → ¬ d) (hx : ∃ b, x = .ok b) :
    ∃ b, (if c then if d then .error e else .ok a else x) = .ok b := by
  by_cases hc : c
  · rw [if_pos hc]
    exact ⟨a, if_neg (hd hc)⟩
  · rw [if_neg hc]
    exact hx

end Cases

theorem takeEntry_taken (elf : ElfDynamic) {entry : ElfDynamicEntry64} (h : ¬ entry.Rejected) :
    ∃ elf', elf.takeEntry entry = .ok elf' := by
  have hrelaent : entry.tag = dtRelaent → ¬ entry.value ≠ 24 :=
    fun htag hvalue => h (.inl ⟨htag, hvalue⟩)
  have hrelent : entry.tag = dtRelent → ¬ entry.value ≠ 16 :=
    fun htag hvalue => h (.inr (.inl ⟨htag, hvalue⟩))
  have hsyment : entry.tag = dtSyment → ¬ entry.value ≠ 24 :=
    fun htag hvalue => h (.inr (.inr (.inl ⟨htag, hvalue⟩)))
  have hpltrel : entry.tag = dtPltrel →
      entry.value.toUInt32 = dtRel ∨ entry.value.toUInt32 = dtRela := by
    intro htag
    by_contra hneither
    exact h (.inr (.inr (.inr ⟨htag, not_or.mp hneither⟩)))
  unfold ElfDynamic.takeEntry
  dsimp only
  refine ite_stored (ite_stored (ite_checked hrelaent ?_))
  refine ite_stored (ite_stored (ite_checked hrelent ?_))
  refine ite_stored (ite_stored ?_)
  by_cases htag : entry.tag = dtPltrel
  · rw [if_pos htag, if_pos (hpltrel htag)]
    exact ⟨_, rfl⟩
  · rw [if_neg htag]
    refine ite_stored (ite_stored (ite_checked hsyment ?_))
    refine ite_stored (ite_stored (ite_stored (ite_stored (ite_stored ?_))))
    exact ⟨_, rfl⟩

/-! ## One round -/

variable {dts vSize pSize : UInt64} {elf : ElfDynamic} {counters : TagCounters} {s n rounds : ℕ}

theorem offset_succ (s : ℕ) : UInt64.ofNat (16 * s) + 16 = UInt64.ofNat (16 * (s + 1)) := by
  rw [Nat.mul_add, UInt64.ofNat_add]
  rfl

theorem cursor_succ (dts : UInt64) (s : ℕ) :
    dts + UInt64.ofNat (16 * s) + 16 = dts + UInt64.ofNat (16 * (s + 1)) := by
  rw [UInt64.add_assoc, offset_succ]

@[simp] theorem offset_zero : UInt64.ofNat (16 * 0) = 0 := rfl

@[simp] theorem cursor_zero (dts : UInt64) : dts + UInt64.ofNat (16 * 0) = dts :=
  UInt64.add_zero dts

theorem toNat_offset (hs : s < 2 ^ 60) : (UInt64.ofNat (16 * s)).toNat = 16 * s := by
  have hlt : 16 * s < 2 ^ 64 := by omega
  exact UInt64.toNat_ofNat_of_lt' hlt

/-- The check on the offset.  Of a size below `16`, the difference wraps around. -/
theorem offset_gt_iff (hs : s + 1 < 2 ^ 60) : UInt64.ofNat (16 * (s + 1)) > vSize - 16 ↔
    16 ≤ vSize.toNat ∧ vSize.toNat < 16 * s + 32 := by
  have hv := vSize.toNat_lt
  rw [gt_iff_lt, UInt64.lt_iff_toNat_lt, toNat_offset hs, UInt64.toNat_sub]
  have h16 : (16 : UInt64).toNat = 16 := rfl
  rw [h16]
  by_cases hsmall : vSize.toNat < 16
  · rw [Nat.mod_eq_of_lt (by omega)]
    omega
  · have hsum : 2 ^ 64 - 16 + vSize.toNat = (vSize.toNat - 16) + 2 ^ 64 := by omega
    rw [hsum, Nat.add_mod_right, Nat.mod_eq_of_lt (by omega)]
    omega

theorem offsetsRead_round (hs : s + 1 < 2 ^ 60) :
    ElfDynamic.offsetsRead mem vSize (rounds + 1) (dts + UInt64.ofNat (16 * s))
        (UInt64.ofNat (16 * s)) elf =
      UInt64.ofNat (16 * s) ::
        match elf.takeEntry (entryAt mem dts s) with
        | .error _ => []
        | .ok elf =>
            if 16 ≤ vSize.toNat ∧ vSize.toNat < 16 * s + 32 then []
            else if (entryAt mem dts (s + 1)).tag = 0 then [UInt64.ofNat (16 * (s + 1))]
            else
              UInt64.ofNat (16 * (s + 1)) ::
                elf.offsetsRead mem vSize rounds (dts + UInt64.ofNat (16 * (s + 1)))
                  (UInt64.ofNat (16 * (s + 1))) := by
  rw [ElfDynamic.offsetsRead, offset_succ, cursor_succ]
  simp only [offset_gt_iff hs]
  rfl

theorem takeEntries_round (hs : s + 1 < 2 ^ 60) :
    ElfDynamic.takeEntries mem vSize (rounds + 1) (dts + UInt64.ofNat (16 * s))
        (UInt64.ofNat (16 * s)) s counters elf =
      match elf.takeEntry (entryAt mem dts s) with
      | .error e => some (.error e)
      | .ok elf =>
          if 16 ≤ vSize.toNat ∧ vSize.toNat < 16 * s + 32 then some (.error .dtEntryOutOfBounds)
          else if (entryAt mem dts (s + 1)).tag = 0 then
            some (.ok (counters.add (entryAt mem dts s).tag, { elf with dtCount := s + 1 }))
          else
            elf.takeEntries mem vSize rounds (dts + UInt64.ofNat (16 * (s + 1)))
              (UInt64.ofNat (16 * (s + 1))) (s + 1) (counters.add (entryAt mem dts s).tag) := by
  rw [ElfDynamic.takeEntries]
  simp only [offset_succ, cursor_succ, offset_gt_iff hs]
  rfl

/-- What the loop does depends on no other entries than those. -/
theorem takeEntries_congr {mem' : Memory} {offset : UInt64} {count : ℕ}
    (h : ∀ o ∈ elf.offsetsRead mem vSize rounds (dts + offset) offset,
      ElfDynamicEntry64.read mem' (dts + o) = .read mem (dts + o)) :
    elf.takeEntries mem' vSize rounds (dts + offset) offset count counters =
      elf.takeEntries mem vSize rounds (dts + offset) offset count counters := by
  induction rounds generalizing offset count counters elf with
  | zero => rfl
  | succ rounds ih =>
      have hcursor : dts + offset + 16 = dts + (offset + 16) := UInt64.add_assoc dts offset 16
      rw [ElfDynamic.offsetsRead, hcursor] at h
      obtain ⟨hhead, hrest⟩ := List.forall_mem_cons.mp h
      rw [ElfDynamic.takeEntries, ElfDynamic.takeEntries, hhead, hcursor]
      cases htake : elf.takeEntry (.read mem (dts + offset)) with
      | error e => rfl
      | ok elf' =>
          rw [htake] at hrest
          dsimp only at hrest ⊢
          split at hrest
          next hlast => rw [if_pos hlast, if_pos hlast]
          next hinside =>
            rw [if_neg hinside, if_neg hinside]
            split at hrest
            next htag =>
              rw [(List.forall_mem_cons.mp hrest).1, if_pos htag, if_pos htag]
            next htag =>
              obtain ⟨hnext, hrest⟩ := List.forall_mem_cons.mp hrest
              rw [hnext, if_neg htag, if_neg htag]
              exact ih hrest

/-! ## The loop -/

/-- The loop gets to the entry only if it is the first one or not the null entry. -/
def Entered (mem : Memory) (dts : UInt64) (s : ℕ) : Prop := s = 0 ∨ (entryAt mem dts s).tag ≠ 0

/-- Where the loop goes past an entry, the one that it does not go past is still to come. -/
theorem Stops.lt (h : Stops mem dts vSize n) (hs : s ≤ n) (hentered : Entered mem dts s)
    (htaken : ¬ (entryAt mem dts s).Rejected)
    (hinside : ¬ (16 ≤ vSize.toNat ∧ vSize.toNat < 16 * s + 32)) : s < n := by
  refine Nat.lt_of_le_of_ne hs ?_
  rintro rfl
  rcases h.stops with ⟨hpos, hnull⟩ | hrejected | hlast
  · rcases hentered with hzero | htag
    · exact absurd hzero (Nat.one_le_iff_ne_zero.mp hpos)
    · exact htag hnull
  · exact htaken hrejected
  · exact hinside hlast

/-- The loop reads no entry behind one that it does not go past. -/
theorem offsetsRead_le (h : Stops mem dts vSize n) (hn : n + 1 < 2 ^ 60) (hs : s ≤ n)
    (hentered : Entered mem dts s) :
    ∀ o ∈ elf.offsetsRead mem vSize rounds (dts + UInt64.ofNat (16 * s)) (UInt64.ofNat (16 * s)),
      o.toNat ≤ 16 * n := by
  induction rounds generalizing s elf with
  | zero => exact fun o ho => nomatch ho
  | succ rounds ih =>
      rw [offsetsRead_round (by omega)]
      refine List.forall_mem_cons.mpr ⟨?_, ?_⟩
      · rw [toNat_offset (by omega)]
        exact Nat.mul_le_mul_left 16 hs
      · by_cases hrejected : (entryAt mem dts s).Rejected
        · obtain ⟨e, herror⟩ := takeEntry_rejected elf hrejected
          rw [herror]
          exact fun o ho => nomatch ho
        · obtain ⟨elf', htake⟩ := takeEntry_taken elf hrejected
          rw [htake]
          dsimp only
          split
          next => exact fun o ho => nomatch ho
          next hinside =>
            have hlt := h.lt hs hentered hrejected hinside
            have hnext : (UInt64.ofNat (16 * (s + 1))).toNat ≤ 16 * n := by
              rw [toNat_offset (by omega)]
              exact Nat.mul_le_mul_left 16 hlt
            split
            next => exact List.forall_mem_cons.mpr ⟨hnext, fun o ho => nomatch ho⟩
            next htag => exact List.forall_mem_cons.mpr ⟨hnext, ih hlt (.inr htag)⟩

/-- The loop ends at such an entry at the latest, and where it succeeds, at the null entry. -/
theorem takeEntries_ends (h : Stops mem dts vSize n) (hn : n + 1 < 2 ^ 60) (hs : s ≤ n)
    (hentered : Entered mem dts s) (hrounds : n < s + rounds) :
    ∃ result, elf.takeEntries mem vSize rounds (dts + UInt64.ofNat (16 * s))
        (UInt64.ofNat (16 * s)) s counters = some result ∧
      ∀ counters' elf', result = .ok (counters', elf') →
        elf'.dtCount ≤ n ∧ (entryAt mem dts elf'.dtCount).tag = 0 := by
  induction rounds generalizing s counters elf with
  | zero => exact absurd hrounds (Nat.not_lt.mpr hs)
  | succ rounds ih =>
      rw [takeEntries_round (by omega)]
      by_cases hrejected : (entryAt mem dts s).Rejected
      · obtain ⟨e, herror⟩ := takeEntry_rejected elf hrejected
        rw [herror]
        exact ⟨_, rfl, fun _ _ hok => nomatch hok⟩
      · obtain ⟨elf', htake⟩ := takeEntry_taken elf hrejected
        rw [htake]
        dsimp only
        split
        next => exact ⟨_, rfl, fun _ _ hok => nomatch hok⟩
        next hinside =>
          have hlt := h.lt hs hentered hrejected hinside
          split
          next htag =>
            refine ⟨_, rfl, ?_⟩
            rintro counters' elf' hok
            cases hok
            exact ⟨hlt, htag⟩
          next htag => exact ih hlt (.inr htag) (by omega)

/-- The loop reads every entry up to the first one that it does not go past. -/
theorem mem_offsetsRead (hgoes : ∀ t, s ≤ t → t < n → ¬ Stops mem dts vSize t) (hn : n < 2 ^ 60)
    (hs : s ≤ n) (hrounds : n < s + rounds) :
    UInt64.ofNat (16 * n) ∈ elf.offsetsRead mem vSize rounds (dts + UInt64.ofNat (16 * s))
      (UInt64.ofNat (16 * s)) := by
  induction rounds generalizing s elf with
  | zero => exact absurd hrounds (Nat.not_lt.mpr hs)
  | succ rounds ih =>
      rcases Nat.eq_or_lt_of_le hs with rfl | hlt
      · exact List.mem_cons_self
      · have hgoes₁ := hgoes s (Nat.le_refl s) hlt
        obtain ⟨elf', htake⟩ :=
          takeEntry_taken elf fun hrejected => hgoes₁ ⟨.inr (.inl hrejected)⟩
        rw [offsetsRead_round (by omega), htake]
        dsimp only
        rw [if_neg fun hlast => hgoes₁ ⟨.inr (.inr hlast)⟩]
        refine List.mem_cons_of_mem _ ?_
        rcases Nat.eq_or_lt_of_le (Nat.succ_le_of_lt hlt) with rfl | hlt₁
        · split
          next => exact List.mem_cons_self
          next => exact List.mem_cons_self
        · have htag : (entryAt mem dts (s + 1)).tag ≠ 0 := by
            intro hnull
            exact hgoes (s + 1) (Nat.le_succ s) hlt₁ ⟨.inl ⟨Nat.le_add_left 1 s, hnull⟩⟩
          rw [if_neg htag]
          refine List.mem_cons_of_mem _ (ih ?_ hlt (by omega))
          intro t ht htn
          exact hgoes t (Nat.le_of_succ_le ht) htn

/-! ## The dynamic segment -/

theorem lastDynamic_snoc (before : List ElfProgramHeader64) (phdr : ElfProgramHeader64) :
    lastDynamic (before ++ [phdr]) =
      if phdr.type = typeDynamic then some phdr else lastDynamic before := by
  unfold lastDynamic
  rw [List.filter_append]
  by_cases htype : phdr.type = typeDynamic
  · simp [htype]
  · simp [htype]

/-- The section is that of the last dynamic segment before. -/
def Gathered.Follows (image : Elf) (before : List ElfProgramHeader64) (g : Gathered σ) : Prop :=
  g.elf.start = image.start ∧
    ∀ phdr, lastDynamic before = some phdr →
      g.dts = image.start + phdr.offset ∧ g.elf.dtSize = phdr.vSize

variable {image : Elf} {before : List ElfProgramHeader64} {phdr : ElfProgramHeader64}
variable {g g' : Gathered σ} {address : UInt64}

/-- A segment of another kind leaves the section as it is. -/
theorem take_other (h : g.take segval before address phdr = .ok g')
    (htype : phdr.type ≠ typeDynamic) :
    g'.elf.start = g.elf.start ∧ g'.dts = g.dts ∧ g'.elf.dtSize = g.elf.dtSize := by
  obtain ⟨-, ⟨-, hload⟩ | ⟨hdynamic, -⟩ | ⟨-, -, tls64, rfl⟩⟩ := Gathered.take_eq_ok h
  · obtain ⟨-, valdata, rfl⟩ := Gathered.load_eq_ok hload
    exact ⟨rfl, rfl, rfl⟩
  · exact absurd hdynamic htype
  · exact ⟨rfl, rfl, rfl⟩

theorem take_dynamic (h : g.take segval before address phdr = .ok g')
    (htype : phdr.type = typeDynamic) :
    g'.elf.start = g.elf.start ∧ g'.dts = g.elf.start + phdr.offset ∧
      g'.elf.dtSize = phdr.vSize := by
  obtain ⟨-, ⟨hload, -⟩ | ⟨-, rfl⟩ | ⟨-, hdynamic, -⟩⟩ := Gathered.take_eq_ok h
  · exact absurd (hload.symm.trans htype) (by decide)
  · exact ⟨rfl, rfl, rfl⟩
  · exact absurd htype hdynamic

theorem Gathered.Follows.take (h : g.Follows image before)
    (htake : g.take segval before address phdr = .ok g') : g'.Follows image (before ++ [phdr]) := by
  unfold Gathered.Follows
  rw [lastDynamic_snoc]
  by_cases htype : phdr.type = typeDynamic
  · obtain ⟨hstart, hdts, hsize⟩ := take_dynamic htake htype
    rw [if_pos htype]
    refine ⟨hstart.trans h.1, ?_⟩
    rintro _ ⟨rfl⟩
    exact ⟨by rw [hdts, h.1], hsize⟩
  · obtain ⟨hstart, hdts, hsize⟩ := take_other htake htype
    rw [if_neg htype, hdts, hsize]
    exact ⟨hstart.trans h.1, h.2⟩

theorem Gathered.Follows.takeAll {rest : List ElfProgramHeader64} (h : g.Follows image before)
    (htake : Gathered.takeAll mem segval before rest g = .ok g') :
    g'.Follows image (before ++ rest) :=
  takeAll_keeps (P := fun before g => g.Follows image before) (fun _ _ _ _ h hone => h.take hone) h
    htake

theorem Accepted.follows {valdata : σ} (h : Accepted mem segval valdata image g) :
    g.Follows image (image.phdrs mem) := by
  have hstart : (⟨image, 0, 0, valdata⟩ : Gathered σ).Follows image [] :=
    ⟨rfl, fun _ hlast => nomatch hlast⟩
  exact hstart.takeAll h.segments

/-! ## The section -/

theorem validateParseDt64_ends {elf : Elf} (h : Stops mem dts elf.dtSize n) (hn : n + 1 < 2 ^ 60) :
    elf.validateParseDt64 mem dts ≠ none ∧
      ∀ elf', elf.validateParseDt64 mem dts = some (.ok elf') →
        elf'.dynamic.dtCount ≤ n ∧ (entryAt mem dts elf'.dynamic.dtCount).tag = 0 := by
  obtain ⟨result, htake, hok⟩ : ∃ result,
      elf.dynamic.takeEntries mem elf.dtSize (2 ^ 60) (dts + UInt64.ofNat (16 * 0))
        (UInt64.ofNat (16 * 0)) 0 (fun _ => 0) = some result ∧
      ∀ counters' elf', result = .ok (counters', elf') →
        elf'.dtCount ≤ n ∧ (entryAt mem dts elf'.dtCount).tag = 0 :=
    takeEntries_ends h hn (Nat.zero_le n) (.inl rfl) (by omega)
  rw [cursor_zero, offset_zero] at htake
  unfold Elf.validateParseDt64
  rw [htake]
  cases result with
  | error e => exact ⟨nofun, fun _ herror => nomatch Option.some.inj herror⟩
  | ok taken =>
      obtain ⟨counters, dynamic⟩ := taken
      refine ⟨nofun, ?_⟩
      intro elf' hparsed
      have hparsed := Option.some.inj hparsed
      cases hcheck : Elf.checkEntries mem { elf with dynamic := dynamic } counters with
      | error e =>
          rw [hcheck] at hparsed
          exact nomatch hparsed
      | ok =>
          rw [hcheck] at hparsed
          obtain rfl := Except.ok.inj hparsed
          exact hok counters dynamic rfl

/-- A section is parsed within its bytes of the file if and only if some entry in them stops the
loop. -/
theorem within_iff {elf : Elf} (hsize : elf.dtSize = vSize) :
    WithinSegment mem elf dts pSize ↔ Enclosed mem dts vSize pSize := by
  subst hsize
  have hp := pSize.toNat_lt
  constructor
  · intro hwithin
    by_contra hopen
    have hgoes : ∀ t, 0 ≤ t → t < pSize.toNat / 16 → ¬ Stops mem dts elf.dtSize t := by
      intro t _ ht hstops
      exact hopen ⟨t, by omega, hstops⟩
    -- The first entry that is not in the file is read.
    have hread : UInt64.ofNat (16 * (pSize.toNat / 16)) ∈
        elf.dynamic.offsetsRead mem elf.dtSize (2 ^ 60) (dts + UInt64.ofNat (16 * 0))
          (UInt64.ofNat (16 * 0)) :=
      mem_offsetsRead hgoes (by omega) (Nat.zero_le _) (by omega)
    rw [cursor_zero, offset_zero] at hread
    have hinside := hwithin.reads _ hread
    rw [toNat_offset (by omega)] at hinside
    omega
  · rintro ⟨n, hn, hstops⟩
    have hends := validateParseDt64_ends hstops (by omega)
    constructor
    case reads =>
      intro o ho
      have hle : o.toNat ≤ 16 * n := by
        rw [← cursor_zero dts, ← offset_zero] at ho
        exact offsetsRead_le hstops (by omega) (Nat.zero_le n) (.inl rfl) o ho
      omega
    case ends => exact hends.1
    case terminated =>
      intro elf' hparsed
      obtain ⟨hcount, htag⟩ := hends.2 elf' hparsed
      exact ⟨by omega, htag⟩

/-- The section of an accepted image is parsed within the bytes of its segment if and only if some
entry in them stops the loop. -/
theorem withinSegment_iff {addr size : UInt64} {valdata : σ}
    (h : Accepted mem segval valdata (Elf.new addr size) g)
    (hlast : lastDynamic ((Elf.new addr size).phdrs mem) = some phdr) :
    WithinSegment mem g.elf g.dts phdr.pSize ↔
      Enclosed mem (addr + phdr.offset) phdr.vSize phdr.pSize := by
  obtain ⟨hdts, hsize⟩ := h.follows.2 phdr hlast
  rw [hdts]
  exact within_iff hsize

/-! An image with a load segment and a dynamic one at `176`, at `4096` in memory.  The entries are
the five that there have to be, and the null entry. -/

def withDynamic (pSize vSize : ℕ) : Memory :=
  let header1 := [0x7F, 0x45, 0x4C, 0x46, 2, 1, 1] ++ bytesOf 9 0 ++
    bytesOf 2 2 ++ bytesOf 2 62 ++ bytesOf 4 1
  let header2 := bytesOf 8 0x400000 ++ bytesOf 8 64 ++ bytesOf 8 0
  let header3 := bytesOf 4 0 ++ bytesOf 2 64 ++ bytesOf 2 56 ++ bytesOf 2 2 ++ bytesOf 6 0
  let load := bytesOf 4 1 ++ bytesOf 4 5 ++ bytesOf 8 0 ++ bytesOf 8 0x400000 ++
    bytesOf 8 0 ++ bytesOf 8 176 ++ bytesOf 8 4096 ++ bytesOf 8 4096
  let dynamic := bytesOf 4 2 ++ bytesOf 4 4 ++ bytesOf 8 176 ++ bytesOf 8 0x4000B0 ++
    bytesOf 8 0 ++ bytesOf 8 pSize ++ bytesOf 8 vSize ++ bytesOf 8 8
  let entries := bytesOf 8 6 ++ bytesOf 8 0x400000 ++ bytesOf 8 11 ++ bytesOf 8 24 ++
    bytesOf 8 4 ++ bytesOf 8 0x400000 ++ bytesOf 8 5 ++ bytesOf 8 0x400000 ++
    bytesOf 8 10 ++ bytesOf 8 1 ++ bytesOf 16 0
  fun addr =>
    (header1 ++ header2 ++ header3 ++ load ++ dynamic ++ entries).getD (addr.toNat - 4096) 0

def withDynamicElf (size vSize : UInt64) : Elf :=
  { Elf.new 4096 size with
    baseAddress := 0x400000, endAddress := 0x401000, dt64 := 0x4000B0, dtSize := vSize }

theorem map_variables {x : Except ElfValidationResult (Gathered Unit)} {elf : Elf} {dts : UInt64}
    {count : ℕ} (h : (x.map fun g => (g.elf, g.dts, g.loadableCount)) = .ok (elf, dts, count)) :
    x = .ok ⟨elf, dts, count, ()⟩ := by
  cases x with
  | error e => exact nomatch h
  | ok g =>
      cases g
      cases h
      rfl

theorem withinSegment_iff_six :
    Accepted (withDynamic 96 96) none () (Elf.new 4096 272) ⟨withDynamicElf 272 96, 4272, 1, ()⟩ ∧
    (WithinSegment (withDynamic 96 96) (withDynamicElf 272 96) 4272 96 ↔
      Enclosed (withDynamic 96 96) (4096 + 176) 96 96) := by
  have haccepted : Accepted (withDynamic 96 96) none () (Elf.new 4096 272)
      ⟨withDynamicElf 272 96, 4272, 1, ()⟩ := by
    constructor
    case isElf64 => decide +kernel
    case entrySize => decide +kernel
    case tableOffset => decide +kernel
    case table => decide +kernel
    case segments => exact map_variables (by decide +kernel)
    case nonload => decide +kernel
  have hlast : lastDynamic ((Elf.new 4096 272).phdrs (withDynamic 96 96)) =
      some ⟨2, 4, 176, 0x4000B0, 96, 96⟩ := by decide +kernel
  exact ⟨haccepted, withinSegment_iff haccepted hlast⟩

/-- Of a segment of one entry in the file and three in memory, the second one is read. -/
theorem not_withinSegment : ¬ ∀ (mem : Memory) (addr size : UInt64) (g : Gathered Unit)
    (phdr : ElfProgramHeader64), Accepted mem none () (Elf.new addr size) g →
    lastDynamic ((Elf.new addr size).phdrs mem) = some phdr →
    WithinSegment mem g.elf g.dts phdr.pSize := by
  intro h
  have haccepted : Accepted (withDynamic 16 48) none () (Elf.new 4096 192)
      ⟨withDynamicElf 192 48, 4272, 1, ()⟩ := by
    constructor
    case isElf64 => decide +kernel
    case entrySize => decide +kernel
    case tableOffset => decide +kernel
    case table => decide +kernel
    case segments => exact map_variables (by decide +kernel)
    case nonload => decide +kernel
  have hlast : lastDynamic ((Elf.new 4096 192).phdrs (withDynamic 16 48)) =
      some ⟨2, 4, 176, 0x4000B0, 16, 48⟩ := by decide +kernel
  have hwithin := h _ _ _ _ _ haccepted hlast
  obtain ⟨s, hs, ⟨hstops⟩⟩ := (within_iff rfl).mp hwithin
  have hzero : s = 0 := Nat.le_zero.mp (Nat.le_of_mul_le_mul_left (Nat.le_of_add_le_add_right hs)
    (by decide))
  subst hzero
  have htag : (entryAt (withDynamic 16 48) 4272 0).tag = dtSymtab := by decide +kernel
  rcases hstops with ⟨hpos, _⟩ | hrejected | ⟨_, hlarge⟩
  · exact absurd hpos (by decide)
  · unfold ElfDynamicEntry64.Rejected at hrejected
    rw [htag] at hrejected
    rcases hrejected with ⟨h, _⟩ | ⟨h, _⟩ | ⟨h, _⟩ | ⟨h, _⟩
    all_goals exact absurd h (by decide)
  · exact absurd hlarge (by decide)

end Beelzebub.Execution
