import Beelzebub.Memory.PageMap
import Beelzebub.Memory.ZeroSize

/-!
# Allocations anywhere

An allocation without an address goes along the list of regions and takes the top end of the
first free one that is large enough (`findAnonymous_eq`).  The size with the guard pages is
computed in one word.  If it fits in one, the search is complete (`Inv.firstFit_iff`);
otherwise what is left of it is looked for instead.
-/

namespace Beelzebub.Memory

open Utils Tiling
open MemoryAllocationOptions (permanent guardLow guardHigh)

/-- The region is free and has room for this many bytes. -/
def Region.Fits (n : Nat) (r : Region) : Prop := r.content = .free ∧ n ≤ r.stop - r.start

instance (n : Nat) (r : Region) : Decidable (r.Fits n) := inferInstanceAs (Decidable (_ ∧ _))

theorem Region.Fits.mono {m n : Nat} {r : Region} (h : r.Fits n) (hle : m ≤ n) : r.Fits m :=
  ⟨h.1, Nat.le_trans hle h.2⟩

/-- The region behind a free one is not free. -/
theorem RegionInv.not_free_behind {lo hi : Nat} {L : List Region} {r s : Region}
    (h : RegionInv lo hi L) (hr : r ∈ L) (hs : s ∈ L) (hfree : r.content = .free)
    (hbehind : s.start ≤ r.stop ∧ r.stop < s.stop) : s.content ≠ .free := by
  obtain ⟨A, B, rfl⟩ := List.append_of_mem hr
  obtain ⟨-, -, htail⟩ := h.tiles.split
  cases B with
  | nil =>
      have hstop := tiles_nil.mp htail
      have hbounds := h.tiles.bounds hs
      omega
  | cons b B =>
      have hb : b ∈ A ++ r :: b :: B := by simp
      obtain ⟨hstart, hpos, -⟩ := htail
      obtain rfl := h.tiles.eq_of_mem hs hb hbehind ⟨by omega, by omega⟩
      obtain ⟨-, hboth, -⟩ := List.isChain_append_cons_cons.mp h.merged
      exact fun hfree' => hboth ⟨hfree, hfree'⟩

namespace Vas

/-- What an allocation of `n` bytes anywhere is for, guard pages included: it succeeds if a free
region has room for it, and then fills the top end of the lowest one. -/
structure FirstFit (vas : Vas) (n : Nat) (low : Nat) (c : PageAttributes) (res : HandleResult)
    (vaddr' : Nat) (vas' : Vas) : Prop where
  complete : res = .okay ↔ ∃ r ∈ vas.regions, r.Fits n
  placed : res = .okay → ∃ r ∈ vas.regions, r.Fits n ∧
    (∀ s ∈ vas.regions, s.Fits n → r.start ≤ s.start) ∧ vaddr' = r.stop - n + low ∧
    vas'.pageMap = vas.pageMap.fill (r.stop - n) r.stop c
  refused : res ≠ .okay → res = .outOfMemory ∧ vas'.regions = vas.regions

/-- The number of bytes does not fit in a word, and there is room for what is left of it. -/
def Truncated (vas : Vas) (n : Nat) : Prop :=
  2 ^ 64 ≤ n ∧ ∃ r ∈ vas.regions, r.Fits (n % 2 ^ 64)

section FirstFit

variable {alloc : NodeAllocator} {lo hi n : Nat} {vas vas' : Vas} {p : Ptr}
  {flags : MemoryFlags} {content : MemoryContent} {type : MemoryAllocationOptions}

/-- The walk stops at the first region that fits. -/
theorem findAnonymous_eq (startSize : Nat) {ps : List Ptr} {s : Option Ptr}
    (h : Linked.Chain vas.next s ps) {fuel : Nat} (hfuel : ps.length ≤ fuel)
    (hsize : ∀ p ∈ ps, (vas.region p).range.getSize = (vas.region p).stop - (vas.region p).start) :
    vas.findAnonymous startSize fuel s = some
      ((ps.find? fun p => (vas.region p).Fits startSize).map fun p =>
        Word.sub (vas.region p).stop startSize) := by
  induction ps generalizing s fuel with
  | nil =>
      rw [Linked.chain_nil.mp h, findAnonymous]
      rfl
  | cons p ps ih =>
      obtain ⟨rfl, hchain⟩ := h
      have hsize' := hsize p List.mem_cons_self
      cases fuel with
      | zero => exact absurd hfuel (Nat.not_succ_le_zero _)
      | succ fuel =>
          have hfits : (vas.mem p).content = .free ∧ (vas.mem p).range.getSize ≥ startSize ↔
              (vas.region p).Fits startSize := by
            unfold Region.Fits
            rw [← hsize']
            rfl
          rw [findAnonymous]
          simp only [hfits, List.find?_cons]
          split
          next hfit =>
            rw [decide_eq_true hfit]
            rfl
          next hfit =>
            rw [decide_eq_false hfit]
            exact ih hchain (Nat.le_of_succ_le_succ hfuel) fun q hq =>
              hsize q (List.mem_cons_of_mem _ hq)

/-- A stretch within a free region can be allocated. -/
theorem Executes.okay_of_free {v e : Nat} {res : HandleResult}
    (h : Executes alloc (.allocate flags content type) false false e v vas res vas')
    (hs : alloc.Succeeds) (hinv : vas.Inv lo hi) (hp : vas.Around v p)
    (hfree : (vas.region p).content = .free) (he : e ≤ (vas.region p).stop) :
    res = .okay ∧ Passed (.allocate flags content type) v e p (vas.forget p) vas' := by
  cases h with
  | outOfRange hout => exact absurd hp (hout p)
  | beyond hq hstop =>
      obtain rfl := hinv.wf.around_unique hp hq
      exact absurd hstop (Nat.not_lt.mpr he)
  | refused hq _ hrefused =>
      obtain rfl := hinv.wf.around_unique hp hq
      exact absurd hfree hrefused
  | permanent hq _ _ hperm =>
      obtain rfl := hinv.wf.around_unique hp hq
      rw [has_guard_of_free (hinv.regions.blank _ hp.mem_regions) hfree] at hperm
      cases hperm
  | noNode _ _ _ hn => exact absurd (.of_succeeds hs _ _ _ _ _) hn
  | last hq _ hpass =>
      obtain rfl := hinv.wf.around_unique hp hq
      cases hpass with
      | tolerated _ htol => cases htol
      | accepted _ hpass => exact ⟨rfl, hpass⟩
  | more _ _ hsparse => cases hsparse

/-- An empty allocation behind a free region is turned down. -/
theorem execute_behind_free (alloc : NodeAllocator) (fuel : Nat) {op : OperationParameters}
    (hop : op = ⟨.allocate flags content type, 0, (vas.region p).stop, 0, false, false⟩)
    (hinv : vas.Inv lo hi) (hlohi : lo < hi) (hhi : hi < 2 ^ 64) (hp : p ∈ vas.tree.inorder)
    (hfree : (vas.region p).content = .free) :
    ∃ res vas', vas.execute alloc (fuel + 1) op = some (res, op, vas') ∧ res ≠ .okay ∧
      res ≠ .outOfMemory := by
  subst hop
  obtain ⟨A, B, f⟩ := hinv.wf.focus hp
  have hbounds := f.tiles.bounds (List.mem_map_of_mem hp)
  have hnull : (vas.region p).stop ≠ 0 := by omega
  cases hfind : vas.findRegion (vas.region p).stop with
  | none =>
      refine ⟨.argumentOutOfRange, vas, ?_, by simp, by simp⟩
      rw [execute, if_neg (hinv.wf.first_ne_none hlohi), if_neg (fun h => hnull h.2), hfind]
  | some q =>
      have hq := around_of_findRegion hfind
      have hbounds' := f.tiles.bounds (List.mem_map_of_mem hq.mem)
      have hupper := hq.upper
      have hwithin : Word.add (vas.region p).stop 0 ≤ (vas.region q).stop := by
        rw [Word.add_of_lt (by omega)]
        omega
      have hused : (vas.region q).content ≠ .free :=
        hinv.regions.not_free_behind (List.mem_map_of_mem hp) hq.mem_regions hfree
          ⟨hq.lower, hq.upper⟩
      have hrefused : ¬(Operation.allocate flags content type).Accepts (vas.region q) := hused
      refine ⟨.pageFree, vas.forget q, ?_, by simp, by simp⟩
      rw [execute_within hinv.wf hlohi (fun _ => hnull) hq hwithin, if_pos ⟨hrefused, rfl⟩]

theorem Inv.getSize_eq (hinv : vas.Inv lo hi) (hhi : hi < 2 ^ 64) :
    ∀ p ∈ vas.tree.inorder,
      (vas.region p).range.getSize = (vas.region p).stop - (vas.region p).start := by
  intro p hp
  have hbounds := hinv.wf.tiles.bounds (List.mem_map_of_mem (f := vas.region) hp)
  exact Word.sub_of_le (Nat.lt_of_le_of_lt hbounds.2.2 hhi) (Nat.le_of_lt hbounds.2.1)

theorem Inv.not_fits (hinv : vas.Inv lo hi) (hhi : hi < 2 ^ 64) (hn : 2 ^ 64 ≤ n) :
    ¬∃ r ∈ vas.regions, r.Fits n := by
  rintro ⟨r, hr, -, hroom⟩
  have hbounds := hinv.wf.tiles.bounds hr
  omega

/-- What is looked for: the size and the guard pages, in one word. -/
theorem allocateParameters_anonymous (size : Nat) (flags : MemoryFlags) (content : MemoryContent)
    (type : MemoryAllocationOptions) : allocateParameters 0 size flags content type =
      ⟨.allocate flags content type, (size + lowOffset type + highOffset type) % 2 ^ 64, 0,
        (size + lowOffset type + highOffset type) % 2 ^ 64, false, false⟩ := by
  have hsize : Word.add (Word.add size (lowOffset type)) (highOffset type) =
      (size + lowOffset type + highOffset type) % 2 ^ 64 := Nat.mod_add_mod ..
  unfold allocateParameters
  rw [hsize, if_pos rfl]

/-- The region that is found. -/
theorem fits_of_find (h : (vas.tree.inorder.find? fun p => (vas.region p).Fits n) = some p) :
    p ∈ vas.tree.inorder ∧ (vas.region p).Fits n :=
  ⟨List.mem_of_find?_eq_some h, by simpa using List.find?_some h⟩

/-- It is the lowest one that fits. -/
theorem Wf.lowest_of_find (hw : vas.Wf lo hi)
    (h : (vas.tree.inorder.find? fun p => (vas.region p).Fits n) = some p) :
    ∀ s ∈ vas.regions, s.Fits n → (vas.region p).start ≤ s.start := by
  obtain ⟨-, A, B, hsplit, hbefore⟩ := List.find?_eq_some_iff_append.mp h
  intro s hs hfits
  have htiles := hw.tiles
  unfold regions at hs htiles
  rw [hsplit, List.map_append, List.map_cons] at hs htiles
  obtain ⟨-, hpos, htail⟩ := htiles.split
  rcases List.mem_append.mp hs with hs | hs
  · obtain ⟨q, hq, rfl⟩ := List.mem_map.mp hs
    have hnot := hbefore q hq
    simp [hfits] at hnot
  · rcases List.mem_cons.mp hs with rfl | hs
    · exact Nat.le_refl _
    · have hbounds := htail.bounds hs
      omega

section Anonymous

variable (hinv : vas.Inv lo hi) (hlo : 0 < lo) (hlohi : lo < hi) (hhi : hi < 2 ^ 64)
  {size sz : Nat} (hsz : (size + lowOffset type + highOffset type) % 2 ^ 64 = sz)

include hinv hlohi hhi hsz

/-- A call finds nothing, or is run at the top end of the first region that fits. -/
theorem allocate_anonymous (alloc : NodeAllocator) (flags : MemoryFlags)
    (content : MemoryContent) : vas.allocate alloc 0 size flags content type =
      match vas.tree.inorder.find? fun p => (vas.region p).Fits sz with
      | none => some (.outOfMemory, Word.add 0 (lowOffset type), vas)
      | some p => (vas.execute alloc (vas.tree.inorder.length + 1)
          ⟨.allocate flags content type, sz, (vas.region p).stop - sz, sz, false, false⟩).map
            fun (res, op, vas) => (res, Word.add op.address (lowOffset type), vas) := by
  have hfirst := hinv.wf.first_ne_none hlohi
  have hfind := @findAnonymous_eq vas sz _ _
    (hinv.threaded.first ▸ hinv.threaded.links.chain) _ (Nat.le_refl _) (hinv.getSize_eq hhi)
  rw [allocate, if_neg hfirst, allocateParameters_anonymous, hsz, fuel, execute, if_neg hfirst,
    if_pos ⟨rfl, rfl⟩]
  simp only [hfind]
  cases hcase : vas.tree.inorder.find? fun p => (vas.region p).Fits sz with
  | none => rfl
  | some p =>
      obtain ⟨hmem, -, hroom⟩ := fits_of_find hcase
      have hbounds := hinv.wf.tiles.bounds (List.mem_map_of_mem (f := vas.region) hmem)
      have hsub : Word.sub (vas.region p).stop sz = (vas.region p).stop - sz :=
        Word.sub_of_le (by omega) (by omega)
      simp only [Option.map_some, hsub]

include hlo

/-- A call for something that has room succeeds. -/
theorem allocate_found (flags : MemoryFlags) (content : MemoryContent) (hs : alloc.Succeeds)
    (hpos : 0 < sz) {p : Ptr}
    (hfind : (vas.tree.inorder.find? fun p => (vas.region p).Fits sz) = some p) :
    ∃ vas', vas.allocate alloc 0 size flags content type =
        some (.okay, Word.add ((vas.region p).stop - sz) (lowOffset type), vas') ∧
      vas'.pageMap = vas.pageMap.fill ((vas.region p).stop - sz) (vas.region p).stop
        ⟨flags, content, withoutGuards type⟩ := by
  obtain ⟨hmem, hfree, hroom⟩ := fits_of_find hfind
  have hbounds := hinv.wf.tiles.bounds (List.mem_map_of_mem (f := vas.region) hmem)
  have hend : (vas.region p).stop - sz + sz = (vas.region p).stop := by omega
  have hp : vas.Around ((vas.region p).stop - sz) p := ⟨hmem, by omega, by omega⟩
  obtain ⟨res, op', vas', hrun, hexec, hop⟩ := execute_refines alloc hhi hlohi
    (vas.tree.inorder.length + 1)
    ⟨.allocate flags content type, sz, (vas.region p).stop - sz, sz, false, false⟩ vas hinv.wf hpos
    (by dsimp only; omega) (fun _ => ⟨by dsimp only; omega, rfl⟩)
    (Nat.lt_succ_of_le (countAbove_le_length _ vas))
  obtain rfl := hop rfl
  dsimp only at hexec
  rw [hend] at hexec
  obtain ⟨rfl, hpass⟩ := hexec.okay_of_free hs hinv hp hfree (Nat.le_refl _)
  obtain ⟨hfill, -⟩ := hpass.pageMap_allocate hp (by omega) hinv
  refine ⟨vas', ?_, hfill⟩
  rw [allocate_anonymous hinv hlohi hhi hsz, hfind]
  simp only [hrun, Option.map_some]

omit hlo in
/-- A search for no byte ends behind the first free region. -/
theorem allocate_nothing (alloc : NodeAllocator) (flags : MemoryFlags) (content : MemoryContent)
    (hzero : sz = 0) {p : Ptr}
    (hfind : (vas.tree.inorder.find? fun p => (vas.region p).Fits sz) = some p) :
    ∃ res vaddr' vas', vas.allocate alloc 0 size flags content type = some (res, vaddr', vas') ∧
      res ≠ .okay ∧ res ≠ .outOfMemory := by
  subst hzero
  obtain ⟨hmem, hfree, -⟩ := fits_of_find hfind
  have hop : (⟨.allocate flags content type, 0, (vas.region p).stop, 0, false, false⟩ :
    OperationParameters) = _ := rfl
  obtain ⟨res, vas', hrun, hokay, hmemory⟩ :=
    execute_behind_free alloc vas.tree.inorder.length hop hinv hlohi hhi hmem hfree
  refine ⟨res, Word.add (vas.region p).stop (lowOffset type), vas', ?_, hokay, hmemory⟩
  rw [allocate_anonymous hinv hlohi hhi hsz, hfind]
  simp only [Nat.sub_zero, hrun, Option.map_some]

end Anonymous

/-- An allocation anywhere, of at least one byte, returns.  It is a complete first fit exactly
if its size with the guard pages fits in a word, or nothing has room for what is left of it. -/
theorem Inv.firstFit_iff (hinv : vas.Inv lo hi) (hlo : 0 < lo) (hlohi : lo < hi)
    (hhi : hi < 2 ^ 64) (hs : alloc.Succeeds) {size : Nat} (hpos : 0 < size)
    (hsize : size < 2 ^ 64) (flags : MemoryFlags) (content : MemoryContent)
    (type : MemoryAllocationOptions) :
    ∃ res vaddr' vas', vas.allocate alloc 0 size flags content type = some (res, vaddr', vas') ∧
      (vas.FirstFit (size + lowOffset type + highOffset type) (lowOffset type)
          ⟨flags, content, withoutGuards type⟩ res vaddr' vas' ↔
        ¬vas.Truncated (size + lowOffset type + highOffset type)) := by
  generalize hn : size + lowOffset type + highOffset type = n
  have hsz : (size + lowOffset type + highOffset type) % 2 ^ 64 = n % 2 ^ 64 := by rw [hn]
  cases hfind : vas.tree.inorder.find? fun p => (vas.region p).Fits (n % 2 ^ 64) with
  | none =>
      have hnone : ¬∃ r ∈ vas.regions, r.Fits (n % 2 ^ 64) := by
        rintro ⟨r, hr, hfits⟩
        obtain ⟨p, hp, rfl⟩ := List.mem_map.mp hr
        have hnot := List.find?_eq_none.mp hfind p hp
        exact hnot (decide_eq_true hfits)
      refine ⟨.outOfMemory, Word.add 0 (lowOffset type), vas, ?_,
        iff_of_true ?_ fun htrunc => hnone htrunc.2⟩
      · rw [allocate_anonymous hinv hlohi hhi hsz, hfind]
      · refine ⟨iff_of_false (by simp) ?_, fun h => absurd h (by simp), fun _ => ⟨rfl, rfl⟩⟩
        rintro ⟨r, hr, hfits⟩
        exact hnone ⟨r, hr, hfits.mono (Nat.mod_le _ _)⟩
  | some p =>
      obtain ⟨hmem, hfits⟩ := fits_of_find hfind
      have hr : vas.region p ∈ vas.regions := List.mem_map_of_mem hmem
      by_cases hword : n < 2 ^ 64
      · -- the size fits in a word
        rw [Nat.mod_eq_of_lt hword] at hfind hfits hsz
        obtain ⟨vas', hcall, hfill⟩ := allocate_found hinv hlo hlohi hhi hsz flags content hs
          (by omega) hfind
        have hbounds := hinv.wf.tiles.bounds hr
        have hroom := hfits.2
        have haddr : Word.add ((vas.region p).stop - n) (lowOffset type) =
            (vas.region p).stop - n + lowOffset type := Word.add_of_lt (by omega)
        refine ⟨_, _, vas', hcall, iff_of_true ?_ fun htrunc => by
          exact absurd htrunc.1 (Nat.not_le.mpr hword)⟩
        refine ⟨iff_of_true rfl ⟨_, hr, hfits⟩, fun _ => ?_, fun h => absurd rfl h⟩
        exact ⟨_, hr, hfits, hinv.wf.lowest_of_find hfind, haddr, hfill⟩
      · have hlarge := hinv.not_fits hhi (Nat.not_lt.mp hword)
        have htrunc : vas.Truncated n := ⟨Nat.not_lt.mp hword, _, hr, hfits⟩
        rcases Nat.eq_zero_or_pos (n % 2 ^ 64) with hzero | hleft
        · obtain ⟨res, vaddr', vas', hcall, hokay, hmemory⟩ := allocate_nothing hinv hlohi hhi
            hsz alloc flags content hzero hfind
          refine ⟨res, vaddr', vas', hcall, iff_of_false ?_ (not_not.mpr htrunc)⟩
          exact fun hfirst => hmemory (hfirst.refused hokay).1
        · obtain ⟨vas', hcall, -⟩ := allocate_found hinv hlo hlohi hhi hsz flags content hs
            hleft hfind
          refine ⟨_, _, vas', hcall, iff_of_false ?_ (not_not.mpr htrunc)⟩
          exact fun hfirst => hlarge (hfirst.complete.mp rfl)

end FirstFit

/-- A page between two guards, anywhere in a small space. -/
theorem Inv.firstFit_iff_small :
    ∃ res vaddr' vas', (fresh 0x1000 0x9000).allocate unlimited 0 0x1000 MemoryFlags.writable
        .generic MemoryAllocationOptions.guardFull = some (res, vaddr', vas') ∧
      ((fresh 0x1000 0x9000).FirstFit 0x3000 0x1000
          ⟨MemoryFlags.writable, .generic, MemoryAllocationOptions.none⟩ res vaddr' vas' ↔
        ¬(fresh 0x1000 0x9000).Truncated 0x3000) :=
  ((Reachable.of_fresh 0x1000 0x9000).inv (by decide) (by decide) (by decide)).firstFit_iff
    (by decide) (by decide) (by decide) unlimited_succeeds (by decide) (by decide) _ _ _

/-- All but one page of a word, between two guards: what is left is one page, and it is
allocated. -/
theorem truncated_succeeds :
    Reachable 0x1000 0x9000 (fresh 0x1000 0x9000) ∧
      ∃ vaddr' vas', (fresh 0x1000 0x9000).allocate unlimited 0 0xFFFFFFFFFFFFF000
          MemoryFlags.writable .generic MemoryAllocationOptions.guardFull =
          some (.okay, vaddr', vas') ∧
        ¬∃ r ∈ (fresh 0x1000 0x9000).regions, r.Fits (0xFFFFFFFFFFFFF000 + 0x1000 + 0x1000) := by
  refine ⟨.of_fresh _ _, ?_⟩
  have hcall : ((fresh 0x1000 0x9000).allocate unlimited 0 0xFFFFFFFFFFFFF000
      MemoryFlags.writable .generic MemoryAllocationOptions.guardFull).map (·.1) =
      some .okay := by decide +kernel
  obtain ⟨⟨res, vaddr', vas'⟩, hcall, rfl⟩ := Option.map_eq_some_iff.mp hcall
  exact ⟨vaddr', vas', hcall, by decide +kernel⟩

end Vas

end Beelzebub.Memory
