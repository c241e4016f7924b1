import Beelzebub.Memory.PageMap

/-!
# Guard pages

A request may ask for a guard page below or above its range.  The guard is a bit of
the region's type, and says that the first or the last page of the region is not to
be touched.  A merge keeps the type of the descriptor that is extended, so the guard
on the far side of the request, or of the second neighbour, is lost: `LosesGuard`.
All the other passes keep every guard page that the request does not reach.
-/

namespace Beelzebub.Memory

open Utils Tiling
open MemoryAllocationOptions (permanent guardLow guardHigh guardFull)

/-! ## Guard pages of a region list -/

/-- The page at `g` is a guard page of the region. -/
structure Region.Guards (r : Region) (g : Nat) : Prop where
  lower : r.start ≤ g
  upper : g + pageSize ≤ r.stop
  guarded : has r.type guardLow = true ∧ r.start = g ∨
    has r.type guardHigh = true ∧ r.stop = g + pageSize

/-- The page at `g` is a guard page of the region around it. -/
def GuardPage (L : List Region) (g : Nat) : Prop := ∃ r ∈ L, r.Guards g

instance (r : Region) (g : Nat) : Decidable (r.Guards g) :=
  decidable_of_iff (r.start ≤ g ∧ g + pageSize ≤ r.stop ∧
    (has r.type guardLow = true ∧ r.start = g ∨ has r.type guardHigh = true ∧ r.stop = g + pageSize))
    ⟨fun h => ⟨h.1, h.2.1, h.2.2⟩, fun h => ⟨h.lower, h.upper, h.guarded⟩⟩

instance (L : List Region) (g : Nat) : Decidable (GuardPage L g) :=
  inferInstanceAs (Decidable (∃ r ∈ L, _))

/-- A request on `[v, e)` stays away from the page at `g`: it neither covers nor
abuts it. -/
def Apart (v e g : Nat) : Prop := g + pageSize < v ∨ e < g

/-- The allocation on `[v, e)` is merged with a neighbour in a way that drops a
guard: its own guard on the far side, or the high guard of the right neighbour
when both are merged. -/
def Operation.LosesGuard (op : Operation) (v e : Nat) (L : List Region) : Prop :=
  ∃ A r B, L = A ++ r :: B ∧ r.start ≤ v ∧ v < r.stop ∧
    ((op.MeetsLeft v r ∧ (∃ a ∈ A.getLast?, op.LeftMergeable a) ∧
        has op.newType guardHigh = true) ∨
      (op.MeetsRight e r ∧ (∃ b ∈ B.head?, op.RightMergeable b) ∧
        has op.newType guardLow = true) ∨
      (op.MeetsLeft v r ∧ op.MeetsRight e r ∧ (∃ a ∈ A.getLast?, op.LeftMergeable a) ∧
        ∃ b ∈ B.head?, op.RightMergeable b ∧ has b.type guardHigh = true))

/-- A release stays away from the page at `g`. -/
def Request.SparesGuard (g : Nat) : Request → Prop
  | allocate .. => True
  | free vaddr size _ _ => Apart vaddr (vaddr + size) g

section Region

variable {r : Region} {g : Nat}

theorem Region.Guards.content_ne_free (h : r.Guards g) (hb : r.Blank) : r.content ≠ .free := by
  intro hf
  rcases h.guarded with ⟨hg, -⟩ | ⟨hg, -⟩
  · rw [has_guard_of_free hb hf] at hg
    cases hg
  · rw [has_guard_of_free hb hf] at hg
    cases hg

/-- A region extended upwards keeps its low guard. -/
theorem Region.Guards.setStop (h : r.Guards g) (hg : has r.type guardHigh = false) {t : Nat}
    (ht : r.stop ≤ t) : (r.setStop t).Guards g := by
  rcases h.guarded with hlow | ⟨hhigh, -⟩
  · exact ⟨h.lower, h.upper.trans ht, Or.inl hlow⟩
  · rw [hg] at hhigh
    cases hhigh

/-- A region extended downwards keeps its high guard. -/
theorem Region.Guards.setStart (h : r.Guards g) (hg : has r.type guardLow = false) {t : Nat}
    (ht : t ≤ r.start) : (r.setStart t).Guards g := by
  rcases h.guarded with ⟨hlow, -⟩ | hhigh
  · rw [hg] at hlow
    cases hlow
  · exact ⟨ht.trans h.lower, h.upper, Or.inr hhigh⟩

/-- A region cut above its low guard page keeps it. -/
theorem Region.Guards.cutEnd (h : r.Guards g) {v : Nat} (hv : v < r.stop) (hg : g + pageSize < v) :
    ((r.setStop v).clear guardHigh).Guards g := by
  rcases h.guarded with ⟨hlow, hst⟩ | ⟨-, hst⟩
  · refine ⟨h.lower, Nat.le_of_lt hg, Or.inl ⟨?_, hst⟩⟩
    rw [Region.type_clear, has_clear _ (by decide)]
    exact hlow
  · omega

/-- A region cut below its high guard page keeps it. -/
theorem Region.Guards.cutStart (h : r.Guards g) {e : Nat} (he : r.start < e) (hg : e < g) :
    ((r.setStart e).clear guardLow).Guards g := by
  rcases h.guarded with ⟨-, hst⟩ | ⟨hhigh, hst⟩
  · omega
  · refine ⟨Nat.le_of_lt hg, h.upper, Or.inr ⟨?_, hst⟩⟩
    rw [Region.type_clear, has_clear _ (by decide)]
    exact hhigh

/-- What is left above a request in the middle keeps the high guard page. -/
theorem Region.Guards.above (h : r.Guards g) {e : Nat} (he : r.start < e) (hg : e < g) :
    (r.above e).Guards g := by
  rcases h.guarded with ⟨-, hst⟩ | ⟨hhigh, hst⟩
  · omega
  · refine ⟨Nat.le_of_lt hg, h.upper, Or.inr ⟨?_, hst⟩⟩
    rw [Region.type_above, has_or]
    have hself : has (r.type &&& guardHigh) guardHigh = true := by
      rw [has, BitVec.and_assoc, BitVec.and_self]
      exact hhigh
    rw [hself, Bool.or_true]

end Region

/-! ## A pass on guard pages -/

section Step

variable {op : Operation} {v e lo hi g : Nat} {r : Region} {L L' : List Region}
  {flags : MemoryFlags} {content : MemoryContent} {type : MemoryAllocationOptions}

/-- A region that is neither the one in focus nor a neighbour is kept. -/
theorem guardPage_of_mem {s : Region} (hs : s ∈ L) (hg : s.Guards g) : GuardPage L g := ⟨s, hs, hg⟩

/-- A pass of a release keeps the guard pages it stays away from. -/
theorem RegionStep.guardPage_free (h : RegionStep .free v e r L L') (hve : v < e)
    (hL : RegionInv lo hi L) (hap : Apart v e g) (hg : GuardPage L g) : GuardPage L' g := by
  obtain ⟨s, hs, hgs⟩ := hg
  have hne : s.content ≠ .free := hgs.content_ne_free (hL.blank s hs)
  have hlow := h.hits.lower
  have hupp := h.hits.upper
  have h1 := hgs.lower
  have h2 := hgs.upper
  -- the request reaches neither end of the region with the guard page
  have hleft : s = r → Operation.free.MeetsLeft v r → e < g := by
    rintro rfl hl
    rcases hl with hl | ⟨-, hl⟩ <;> unfold Apart at hap <;> omega
  have hright : s = r → Operation.free.MeetsRight e r → g + pageSize < v := by
    rintro rfl hr
    rcases hr with hr | ⟨-, hr⟩ <;> unfold Apart at hap <;> omega
  have hwhole : Operation.free.MeetsLeft v r → Operation.free.MeetsRight e r → s ≠ r := by
    intro hl hr hsr
    have := hleft hsr hl
    have := hright hsr hr
    unfold pageSize at *
    omega
  cases h with
  | @mergeBoth A B a b _ hl hr ha hb =>
      have hsa : s ≠ a := fun h => hne (h ▸ ha)
      have hsb : s ≠ b := fun h => hne (h ▸ hb)
      simp only [List.mem_append, List.mem_cons, hsa, hwhole hl hr, hsb, false_or] at hs
      exact guardPage_of_mem (by rcases hs with hs | hs <;> simp [hs]) hgs
  | @mergeLeft A B a _ hl hr ha hb =>
      have hsa : s ≠ a := fun h => hne (h ▸ ha)
      simp only [List.mem_append, List.mem_cons, hsa, hwhole hl hr, false_or] at hs
      exact guardPage_of_mem (by rcases hs with hs | hs <;> simp [hs]) hgs
  | @mergeRight A B b _ hl hr ha hb =>
      have hsb : s ≠ b := fun h => hne (h ▸ hb)
      simp only [List.mem_append, List.mem_cons, hwhole hl hr, hsb, false_or] at hs
      exact guardPage_of_mem (by rcases hs with hs | hs <;> simp [hs]) hgs
  | repurpose _ hl hr ha hb =>
      simp only [List.mem_append, List.mem_cons, hwhole hl hr, false_or] at hs
      exact guardPage_of_mem (by rcases hs with hs | hs <;> simp [hs]) hgs
  | @startMerge A B a _ hl hr ha =>
      have hsa : s ≠ a := fun h => hne (h ▸ ha)
      simp only [List.mem_append, List.mem_cons, hsa, false_or] at hs
      rcases hs with hs | rfl | hs
      · exact guardPage_of_mem (by simp [hs]) hgs
      · exact guardPage_of_mem (by simp) (hgs.cutStart (by omega) (hleft rfl hl))
      · exact guardPage_of_mem (by simp [hs]) hgs
  | startSpawn _ hl hr ha =>
      simp only [List.mem_append, List.mem_cons] at hs
      rcases hs with hs | rfl | hs
      · exact guardPage_of_mem (by simp [hs]) hgs
      · exact guardPage_of_mem (by simp) (hgs.cutStart (by omega) (hleft rfl hl))
      · exact guardPage_of_mem (by simp [hs]) hgs
  | @endMerge A B b _ hl hr hb =>
      have hsb : s ≠ b := fun h => hne (h ▸ hb)
      simp only [List.mem_append, List.mem_cons, hsb, false_or] at hs
      rcases hs with hs | rfl | hs
      · exact guardPage_of_mem (by simp [hs]) hgs
      · exact guardPage_of_mem (by simp) (hgs.cutEnd hupp (hright rfl hr))
      · exact guardPage_of_mem (by simp [hs]) hgs
  | endSpawn _ hl hr hb =>
      simp only [List.mem_append, List.mem_cons] at hs
      rcases hs with hs | rfl | hs
      · exact guardPage_of_mem (by simp [hs]) hgs
      · exact guardPage_of_mem (by simp) (hgs.cutEnd hupp (hright rfl hr))
      · exact guardPage_of_mem (by simp [hs]) hgs
  | middle _ hl hr =>
      simp only [List.mem_append, List.mem_cons] at hs
      rcases hs with hs | rfl | hs
      · exact guardPage_of_mem (by simp [hs]) hgs
      · rcases hap with hap | hap
        · exact guardPage_of_mem (by simp) (hgs.cutEnd hupp hap)
        · exact guardPage_of_mem (by simp) (hgs.above (by omega) hap)
      · exact guardPage_of_mem (by simp [hs]) hgs

/-- A pass of an allocation keeps every guard page, unless its merge drops one. -/
theorem RegionStep.guardPage_allocate (h : RegionStep (.allocate flags content type) v e r L L')
    (hve : v < e) (hL : RegionInv lo hi L)
    (hlose : ¬(Operation.allocate flags content type).LosesGuard v e L) (hg : GuardPage L g) :
    GuardPage L' g := by
  obtain ⟨s, hs, hgs⟩ := hg
  have hne : s.content ≠ .free := hgs.content_ne_free (hL.blank s hs)
  have hlow := h.hits.lower
  have hupp := h.hits.upper
  have hsr : s ≠ r := fun h' => hne (h' ▸ h.hits.accepts)
  have htiles := hL.tiles
  cases h with
  | @mergeBoth A B a b _ hl hr ha hb =>
      obtain ⟨m, hA, h1, h2, h3, h4, h5, h6, h7⟩ := tiles_append.mp htiles
      simp only [List.mem_append, List.mem_cons, hsr, false_or] at hs
      rcases hs with hs | rfl | rfl | hs
      · exact guardPage_of_mem (by simp [hs]) hgs
      · exact guardPage_of_mem (by simp) (hgs.setStop ha.1 (t := b.stop) (by omega))
      · rcases hgs.guarded with ⟨hgl, -⟩ | ⟨hgh, -⟩
        · rw [hb.1] at hgl
          cases hgl
        · refine absurd ⟨A ++ [a], r, s :: B, by simp, hlow, hupp, Or.inr (Or.inr ?_)⟩ hlose
          exact ⟨hl, hr, ⟨a, by simp, ha⟩, s, rfl, hb, hgh⟩
      · exact guardPage_of_mem (by simp [hs]) hgs
  | @mergeLeft A B a _ hl hr ha hb =>
      obtain ⟨m, hA, h1, h2, h3, h4, h5⟩ := tiles_append.mp htiles
      simp only [List.mem_append, List.mem_cons, hsr, false_or] at hs
      rcases hs with hs | rfl | hs
      · exact guardPage_of_mem (by simp [hs]) hgs
      · exact guardPage_of_mem (by simp) (hgs.setStop ha.1 (t := r.stop) (by omega))
      · exact guardPage_of_mem (by simp [hs]) hgs
  | @mergeRight A B b _ hl hr ha hb =>
      obtain ⟨m, hA, h1, h2, h3, h4, h5⟩ := tiles_append.mp htiles
      simp only [List.mem_append, List.mem_cons, hsr, false_or] at hs
      rcases hs with hs | rfl | hs
      · exact guardPage_of_mem (by simp [hs]) hgs
      · exact guardPage_of_mem (by simp) (hgs.setStart hb.1 (t := r.start) (by omega))
      · exact guardPage_of_mem (by simp [hs]) hgs
  | @startMerge A B a _ hl hr ha =>
      obtain ⟨m, hA, h1, h2, h3, h4, h5⟩ := tiles_append.mp htiles
      simp only [List.mem_append, List.mem_cons, hsr, false_or] at hs
      rcases hs with hs | rfl | hs
      · exact guardPage_of_mem (by simp [hs]) hgs
      · exact guardPage_of_mem (by simp) (hgs.setStop ha.1 (t := e) (by omega))
      · exact guardPage_of_mem (by simp [hs]) hgs
  | @endMerge A B b _ hl hr hb =>
      obtain ⟨m, hA, h1, h2, h3, h4, h5⟩ := tiles_append.mp htiles
      simp only [List.mem_append, List.mem_cons, hsr, false_or] at hs
      rcases hs with hs | rfl | hs
      · exact guardPage_of_mem (by simp [hs]) hgs
      · exact guardPage_of_mem (by simp) (hgs.setStart hb.1 (t := v) (by omega))
      · exact guardPage_of_mem (by simp [hs]) hgs
  | _ =>
      simp only [List.mem_append, List.mem_cons, hsr, false_or] at hs
      exact guardPage_of_mem (by rcases hs with hs | hs <;> simp [hs]) hgs

/-- A pass of an allocation makes guard pages of the pages it was asked to guard,
unless its merge drops one. -/
theorem RegionStep.guardPage_new (h : RegionStep (.allocate flags content type) v e r L L')
    (hve : v + pageSize ≤ e)
    (hlose : ¬(Operation.allocate flags content type).LosesGuard v e L)
    (hg : has type guardLow = true ∧ g = v ∨ has type guardHigh = true ∧ g + pageSize = e) :
    GuardPage L' g := by
  have hlow := h.hits.lower
  have hupp := h.hits.upper
  -- a region with the requested type on the requested range
  have hnew : ∀ s : Region, s.type = type → s.start = v → s.stop = e → s ∈ L' →
      GuardPage L' g := by
    intro s ht hstart hstop hs
    refine guardPage_of_mem hs ⟨by omega, by omega, ?_⟩
    rw [ht, hstart, hstop]
    rcases hg with ⟨hg, rfl⟩ | ⟨hg, rfl⟩
    · exact Or.inl ⟨hg, rfl⟩
    · exact Or.inr ⟨hg, rfl⟩
  cases h with
  | @mergeBoth A B a b _ hl hr ha hb =>
      rcases hg with ⟨hg, -⟩ | ⟨hg, -⟩
      · rw [ha.2.1] at hg
        cases hg
      · rw [hb.2.1] at hg
        cases hg
  | @mergeLeft A B a _ hl hr ha hb =>
      rcases hg with ⟨hg, -⟩ | ⟨hg, -⟩
      · rw [ha.2.1] at hg
        cases hg
      · exact absurd ⟨A ++ [a], r, B, by simp, hlow, hupp, Or.inl ⟨hl, ⟨a, by simp, ha⟩, hg⟩⟩ hlose
  | @mergeRight A B b _ hl hr ha hb =>
      rcases hg with ⟨hg, -⟩ | ⟨hg, -⟩
      · exact absurd ⟨A, r, b :: B, rfl, hlow, hupp,
          Or.inr (Or.inl ⟨hr, ⟨b, rfl, hb⟩, hg⟩)⟩ hlose
      · rw [hb.2.1] at hg
        cases hg
  | repurpose _ hl hr _ _ =>
      exact hnew ((Operation.allocate flags content type).repurpose r) rfl hl hr (by simp)
  | @startMerge A B a _ hl hr ha =>
      rcases hg with ⟨hg, -⟩ | ⟨hg, -⟩
      · rw [ha.2.1] at hg
        cases hg
      · exact absurd ⟨A ++ [a], r, B, by simp, hlow, hupp, Or.inl ⟨hl, ⟨a, by simp, ha⟩, hg⟩⟩ hlose
  | startSpawn _ hl hr _ =>
      exact hnew ((Operation.allocate flags content type).spawned r.start e) rfl hl rfl (by simp)
  | @endMerge A B b _ hl hr hb =>
      rcases hg with ⟨hg, -⟩ | ⟨hg, -⟩
      · exact absurd ⟨A, r, b :: B, rfl, hlow, hupp,
          Or.inr (Or.inl ⟨hr, ⟨b, rfl, hb⟩, hg⟩)⟩ hlose
      · rw [hb.2.1] at hg
        cases hg
  | endSpawn _ hl hr _ =>
      exact hnew ((Operation.allocate flags content type).spawned v r.stop) rfl rfl hr (by simp)
  | middle _ hl hr =>
      exact hnew ((Operation.allocate flags content type).spawned v e) rfl rfl rfl (by simp)

end Step

/-! ## Runs -/

namespace Vas

/-- The call keeps guards: if it is an allocation, it is not merged in a way that
drops one. -/
def KeepsGuards (vas : Vas) (req : Request) : Prop :=
  req.operation.isAllocation = true → ∀ v, vas.target req = some v →
    ¬req.operation.LosesGuard v (v + req.effectiveSize) vas.regions

section Runs

variable {alloc : NodeAllocator} {sparse tolerant : Bool} {v e lo hi g : Nat} {vas vas' : Vas}
  {p : Ptr} {res : HandleResult}

theorem Passes.guardPage_free (h : Passes alloc .free tolerant v e p vas vas') (hve : v < e)
    (hinv : vas.Inv lo hi) (hap : Apart v e g) (hg : GuardPage vas.regions g) :
    GuardPage vas'.regions g := by
  cases h with
  | tolerated => rwa [regions_forget]
  | accepted _ hp => exact hp.step_of_forget.guardPage_free hve hinv.regions hap hg

/-- A release keeps the guard pages it stays away from. -/
theorem Executes.guardPage_free (h : Executes alloc .free sparse tolerant e v vas res vas')
    (hs : alloc.Succeeds) (hve : v < e) (hinv : vas.Inv lo hi) (hap : Apart v e g)
    (hg : GuardPage vas.regions g) : GuardPage vas'.regions g := by
  induction h with
  | outOfRange => exact hg
  | beyond => rwa [regions_forget]
  | refused => rwa [regions_forget]
  | permanent => rwa [regions_forget]
  | noNode _ _ _ hn => exact absurd (.of_succeeds hs _ _ _ _ _) hn
  | last _ _ hp => exact hp.guardPage_free hve hinv hap hg
  | more hp hstop _ hpass _ ih =>
      have hupp := hp.upper
      refine ih hstop (hpass.inv hve (fun h => by cases h) hinv) ?_
        (hpass.guardPage_free hve hinv hap hg)
      unfold Apart at hap ⊢
      omega

/-- A call that keeps guards and stays away from a guard page leaves it one. -/
theorem perform_guardPage {req : Request} (hinv : vas.Inv lo hi) (hlo : 0 < lo) (hlohi : lo < hi)
    (hhi : hi < 2 ^ 64) (hs : alloc.Succeeds) (hreq : req.Valid)
    (hcall : vas.perform alloc req = some (res, vas')) (hkeep : vas.KeepsGuards req)
    (hspare : req.SparesGuard g) (hg : GuardPage vas.regions g) : GuardPage vas'.regions g := by
  obtain ⟨res', vas'', h1, h2⟩ := perform_spec alloc hinv.wf hlo hlohi hhi hreq
  rw [h1] at hcall
  cases hcall
  rcases h2 with ⟨-, rfl, -⟩ | ⟨v, hperf⟩
  · exact hg
  · have hpos := hperf.pos
    cases req with
    | allocate vaddr size flags content type =>
        rcases hperf.executes.allocation_cases hs with ⟨-, hregs⟩ | ⟨-, p, hp, hpass⟩
        · rwa [hregs]
        · exact hpass.step_of_forget.guardPage_allocate (by omega) hinv.regions
            (hkeep rfl v hperf.target) hg
    | free vaddr size sparse tolerant =>
        obtain rfl : v = vaddr := hperf.address (Or.inl rfl)
        exact Executes.guardPage_free hperf.executes hs (by omega) hinv hspare hg

/-- Calls that keep guards and stay away from the page at `g`. -/
inductive GuardedRun (g : Nat) : Vas → Vas → Prop
  | refl (vas : Vas) : GuardedRun g vas vas
  | call {alloc : NodeAllocator} {vas vas' vas'' : Vas} {req : Request} {res : HandleResult} :
      GuardedRun g vas vas' → alloc.Succeeds → req.Valid → vas'.KeepsGuards req →
      req.SparesGuard g → vas'.perform alloc req = some (res, vas'') → GuardedRun g vas vas''

theorem GuardedRun.guardPage (hrun : GuardedRun g vas vas') (hinv : vas.Inv lo hi) (hlo : 0 < lo)
    (hlohi : lo < hi) (hhi : hi < 2 ^ 64) (hg : GuardPage vas.regions g) :
    vas'.Inv lo hi ∧ GuardPage vas'.regions g := by
  induction hrun with
  | refl => exact ⟨hinv, hg⟩
  | call _ hs hreq hkeep hspare hcall ih =>
      obtain ⟨hinv', hg'⟩ := ih hinv hg
      exact ⟨perform_inv hinv' hlo hlohi hhi hs hreq hcall,
        perform_guardPage hinv' hlo hlohi hhi hs hreq hcall hkeep hspare hg'⟩

/-- The pages an allocation was asked to guard. -/
def ReservedGuard (vaddr size : Nat) (type : MemoryAllocationOptions) (g : Nat) : Prop :=
  has type guardLow = true ∧ g + pageSize = vaddr ∨ has type guardHigh = true ∧ g = vaddr + size

/-- In a fresh space there is nothing to merge with. -/
theorem fresh_keepsGuards (start stop : Nat) (req : Request) :
    (fresh start stop).KeepsGuards req := by
  rintro - v - ⟨A, r, B, hL, -, -, hcases⟩
  have hlen := congrArg List.length hL
  have hA : A = [] := List.eq_nil_of_length_eq_zero (by
    simp only [List.length_append, List.length_cons] at hlen
    have : (fresh start stop).regions.length = 1 := rfl
    omega)
  have hB : B = [] := List.eq_nil_of_length_eq_zero (by
    simp only [List.length_append, List.length_cons] at hlen
    have : (fresh start stop).regions.length = 1 := rfl
    omega)
  subst hA hB
  simp at hcases

end Runs

end Vas

end Beelzebub.Memory
