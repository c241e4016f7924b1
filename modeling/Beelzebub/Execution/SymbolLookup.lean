import Beelzebub.Execution.Loading
import Beelzebub.Lib.Linked
import Beelzebub.Utils.Strings

/-!
# Looking symbols up by name

The hash table of an image gives a first index for each name, and from each index the next one.
The table is data of the image, and nothing has checked it.
-/

namespace Beelzebub.Execution

open Strings (CString)

/-! ## The code -/

/-- The body of the loop of `Hash`. -/
def hashStep (h : UInt32) (c : UInt8) : UInt32 :=
  let h := (h <<< 4) + c.toUInt32
  let g := h &&& 0xF0000000
  let h := if g ≠ 0 then h ^^^ (g >>> 24) else h
  h &&& ~~~g

/-- `Hash`. -/
def Elf.hash (name : CString) : UInt32 := name.chars.foldl hashStep 0

/-- Whether `strcmp` gives `0` for what an address points to and a string. -/
def streq (ram : Memory) : UInt64 → List UInt8 → Bool
  | p, [] => ram p = 0
  | p, c :: rest => ram p = c ∧ streq ram (p + 1) rest

/-- What `GetSymbol` cannot go on from. -/
inductive LookupFault where
  | divisionByZero
  | nullName

/-- What a lookup came to, and the indices of the entries that it read. -/
structure LookedUp where
  result : Except LookupFault Symbol
  indices : List UInt32

namespace Image

variable (ram : Memory) (image : Image)

def getBucket (ind : UInt32) : UInt32 :=
  read32 ram (image.elf.dynamic.hash + 8 + ind.toUInt64 * 4)

def getChain (ind : UInt32) : UInt32 :=
  read32 ram (image.elf.dynamic.hash + 8 + (image.bucketCount ram).toUInt64 * 4 + ind.toUInt64 * 4)

/-- The loop of `GetSymbol`, for so many rounds at most. -/
def walk (name : CString) (first : UInt32) : ℕ → UInt32 → List UInt32 → Option LookedUp
  | 0, _, _ => none
  | rounds + 1, id, indices =>
      let res := image.getSymbol64 ram id
      if res.name = 0 then some ⟨.error .nullName, indices⟩
      else if streq ram res.name name.chars then some ⟨.ok res, indices ++ [id]⟩
      else
        let next := image.getChain ram id
        if next ≠ 0 ∧ next ≠ first then walk name first rounds next (indices ++ [id])
        else some ⟨.ok {}, indices ++ [id]⟩

/-- The index that the walk begins at. -/
def firstIndex (name : CString) : UInt32 :=
  image.getBucket ram (Elf.hash name % image.bucketCount ram)

/-- `GetSymbol`, by name. -/
def getSymbolByName (name : CString) (rounds : ℕ) : Option LookedUp :=
  if !image.elf.loadable then some ⟨.ok {}, []⟩
  else if !image.isLocated then some ⟨.ok {}, []⟩
  else if !image.hasSymbols then some ⟨.ok {}, []⟩
  else if image.bucketCount ram = 0 then some ⟨.error .divisionByZero, []⟩
  else
    image.walk ram name (image.firstIndex ram name) rounds (image.firstIndex ram name) []

/-! ## What is asked -/

/-- The image is where it will run, with the tables that symbols are looked up in. -/
structure Loaded : Prop where
  loadable : image.elf.loadable = true
  located : image.isLocated = true
  symbols : image.hasSymbols = true

/-- Where the name of a symbol is. -/
def symbolName (id : UInt32) : UInt64 :=
  image.elf.dynamic.strtab + (image.dynsym ram id).name.toUInt64

/-- The symbol has that name. -/
def IsNamed (name : CString) (id : UInt32) : Prop :=
  streq ram (image.symbolName ram id) name.chars = true

/-- The symbol table has a symbol of that name.  The first entry is none. -/
def HasNamed (name : CString) : Prop :=
  ∃ id, 0 < id ∧ id < image.chainCount ram ∧ image.IsNamed ram name id

/-- An index as a link: `STN_UNDEF` leads nowhere. -/
def link (id : UInt32) : Option UInt32 := if id = 0 then none else some id

/-- The hash table is built as the ABI has it: every symbol is on the chain of its bucket. -/
structure SystemV : Prop where
  buckets : 0 < image.bucketCount ram
  undefined : 0 < image.chainCount ram ∧ image.getChain ram 0 = 0 ∧
    ram (image.symbolName ram 0) = 0
  names : ∀ id < image.chainCount ram, image.symbolName ram id ≠ 0
  chains : ∀ b < image.bucketCount ram, ∃ ids : List UInt32,
    Linked.Chain (fun id => link (image.getChain ram id)) (link (image.getBucket ram b)) ids ∧
    (∀ id ∈ ids, id < image.chainCount ram) ∧
    ∀ (name : CString) (id : UInt32), 0 < id → id < image.chainCount ram →
      image.IsNamed ram name id → Elf.hash name % image.bucketCount ram = b → id ∈ ids

/-- What is asked of looking a name up. -/
def LooksUp (name : CString) : Prop :=
  ∃ rounds sym indices,
    image.getSymbolByName ram name rounds = some ⟨.ok sym, indices⟩ ∧
    (∀ id ∈ indices, id < image.chainCount ram) ∧
    (image.SystemV ram →
      (sym.isExistent = true ↔ image.HasNamed ram name) ∧
      (sym.isExistent = true → streq ram sym.name name.chars = true))

/-! ## What decides it -/

/-- The symbol is in the table, and its name somewhere. -/
def IsReadable (id : UInt32) : Prop :=
  id < image.chainCount ram ∧ image.symbolName ram id ≠ 0

/-- The walk does not go past the index. -/
def IsLast (name : CString) (first id : UInt32) : Prop :=
  image.IsNamed ram name id ∨ image.getChain ram id = 0 ∨ image.getChain ram id = first

/-- So many links from an index on, all symbols are in the table. -/
def AllReadable (id : UInt32) (n : ℕ) : Prop :=
  ∀ k ≤ n, image.IsReadable ram ((image.getChain ram)^[k] id)

/-- The table has buckets, and the chain of the name comes to its last index within as many steps as
there are symbols.  No lookup of the empty name in a table built as the ABI has it begins at the
entry that is no symbol. -/
structure Reaches (name : CString) : Prop where
  buckets : image.bucketCount ram ≠ 0
  ends : ∃ n < (image.chainCount ram).toNat,
    image.AllReadable ram (image.firstIndex ram name) n ∧
    image.IsLast ram name (image.firstIndex ram name)
      ((image.getChain ram)^[n] (image.firstIndex ram name))
  nameless : image.SystemV ram → name.chars = [] → image.firstIndex ram name ≠ 0

end Image

/-! ## One symbol -/

section Lookup

variable {ram : Memory} {image : Image} {name : CString} {first id : UInt32} {rounds : ℕ}
  {indices : List UInt32}

theorem getSymbol64_of_ge (h : ¬ id < image.chainCount ram) : image.getSymbol64 ram id = {} := by
  unfold Image.getSymbol64
  rw [if_pos (UInt32.not_lt.mp h), ite_self, ite_self, ite_self]

theorem getSymbol64_of_lt (hloaded : image.Loaded) (h : id < image.chainCount ram) :
    (image.getSymbol64 ram id).name = image.symbolName ram id ∧
    (image.getSymbol64 ram id).isExistent = true := by
  unfold Image.getSymbol64
  rw [hloaded.loadable, hloaded.located, hloaded.symbols, Bool.not_true,
    if_neg Bool.false_ne_true, if_neg Bool.false_ne_true, if_neg Bool.false_ne_true,
    if_neg (UInt32.not_le.mpr h)]
  exact ⟨rfl, rfl⟩

theorem name_ne_zero_iff (hloaded : image.Loaded) :
    (image.getSymbol64 ram id).name ≠ 0 ↔ image.IsReadable ram id := by
  by_cases h : id < image.chainCount ram
  · rw [(getSymbol64_of_lt hloaded h).1]
    exact ⟨fun hname => ⟨h, hname⟩, fun hread => hread.2⟩
  · rw [getSymbol64_of_ge h]
    exact ⟨fun hname => absurd rfl hname, fun hread => absurd hread.1 h⟩

/-! ## The walk -/

theorem walk_unreadable (hloaded : image.Loaded) (h : ¬ image.IsReadable ram id) :
    image.walk ram name first (rounds + 1) id indices = some ⟨.error .nullName, indices⟩ := by
  rw [Image.walk, if_pos (not_not.mp (mt (name_ne_zero_iff hloaded).mp h))]

theorem walk_readable (hloaded : image.Loaded) (hread : image.IsReadable ram id) :
    image.walk ram name first (rounds + 1) id indices =
      if streq ram (image.symbolName ram id) name.chars then
        some ⟨.ok (image.getSymbol64 ram id), indices ++ [id]⟩
      else if image.getChain ram id ≠ 0 ∧ image.getChain ram id ≠ first then
        image.walk ram name first rounds (image.getChain ram id) (indices ++ [id])
      else some ⟨.ok {}, indices ++ [id]⟩ := by
  rw [Image.walk, if_neg ((name_ne_zero_iff hloaded).mpr hread),
    (getSymbol64_of_lt hloaded hread.1).1]

theorem walk_named (hloaded : image.Loaded) (hread : image.IsReadable ram id)
    (h : image.IsNamed ram name id) :
    image.walk ram name first (rounds + 1) id indices =
      some ⟨.ok (image.getSymbol64 ram id), indices ++ [id]⟩ := by
  rw [walk_readable hloaded hread]
  exact if_pos h

theorem walk_next (hloaded : image.Loaded) (hread : image.IsReadable ram id)
    (h : ¬ image.IsLast ram name first id) :
    image.walk ram name first (rounds + 1) id indices =
      image.walk ram name first rounds (image.getChain ram id) (indices ++ [id]) := by
  obtain ⟨hnamed, hnext⟩ := not_or.mp h
  rw [walk_readable hloaded hread, if_pos (not_or.mp hnext)]
  exact if_neg hnamed

theorem walk_last (hloaded : image.Loaded) (hread : image.IsReadable ram id)
    (hnamed : ¬ image.IsNamed ram name id) (h : image.IsLast ram name first id) :
    image.walk ram name first (rounds + 1) id indices = some ⟨.ok {}, indices ++ [id]⟩ := by
  have hnext : ¬ (image.getChain ram id ≠ 0 ∧ image.getChain ram id ≠ first) := by
    intro hnext
    rcases h with h | h | h
    · exact hnamed h
    · exact hnext.1 h
    · exact hnext.2 h
  rw [walk_readable hloaded hread, if_neg hnext]
  exact if_neg hnamed

/-- At its last index the walk ends. -/
theorem walk_of_last (hloaded : image.Loaded) (hread : image.IsReadable ram id)
    (h : image.IsLast ram name first id) (rounds : ℕ) (indices : List UInt32) :
    ∃ sym, image.walk ram name first (rounds + 1) id indices = some ⟨.ok sym, indices ++ [id]⟩ := by
  by_cases hnamed : image.IsNamed ram name id
  · exact ⟨_, walk_named hloaded hread hnamed⟩
  · exact ⟨_, walk_last hloaded hread hnamed h⟩

theorem allReadable_zero : image.AllReadable ram id 0 ↔ image.IsReadable ram id := by
  constructor
  · intro h
    exact h 0 (Nat.le_refl 0)
  · intro h k hk
    obtain rfl := Nat.le_zero.mp hk
    exact h

theorem allReadable_succ {n : ℕ} : image.AllReadable ram id (n + 1) ↔
    image.IsReadable ram id ∧ image.AllReadable ram (image.getChain ram id) n := by
  constructor
  · intro h
    exact ⟨h 0 (Nat.zero_le _), fun k hk => h (k + 1) (Nat.succ_le_succ hk)⟩
  · rintro ⟨hid, h⟩ k hk
    cases k with
    | zero => exact hid
    | succ k => exact h k (Nat.le_of_succ_le_succ hk)

/-- Where an index that is last can be reached, the walk ends. -/
theorem walk_ends (hloaded : image.Loaded) {n : ℕ} (hread : image.AllReadable ram id n)
    (hlast : image.IsLast ram name first ((image.getChain ram)^[n] id)) (hn : n < rounds)
    (indices : List UInt32) :
    ∃ sym indices', image.walk ram name first rounds id indices = some ⟨.ok sym, indices'⟩ := by
  obtain ⟨rounds, rfl⟩ := Nat.exists_eq_add_one_of_ne_zero (Nat.ne_of_gt (Nat.zero_lt_of_lt hn))
  induction n generalizing id rounds indices with
  | zero =>
      obtain ⟨sym, hsym⟩ := walk_of_last hloaded (allReadable_zero.mp hread) hlast rounds indices
      exact ⟨sym, _, hsym⟩
  | succ n ih =>
      obtain ⟨hid, hrest⟩ := allReadable_succ.mp hread
      by_cases h : image.IsLast ram name first id
      · obtain ⟨sym, hsym⟩ := walk_of_last hloaded hid h rounds indices
        exact ⟨sym, _, hsym⟩
      · obtain ⟨rounds, rfl⟩ := Nat.exists_eq_add_one_of_ne_zero
          (Nat.ne_of_gt (Nat.zero_lt_of_lt (Nat.lt_of_succ_lt_succ hn)))
        rw [walk_next hloaded hid h]
        exact ih hrest hlast _ rounds (Nat.lt_of_succ_lt_succ hn)

/-- The walk ends only where an index that is last can be reached. -/
theorem reaches_of_walk (hloaded : image.Loaded) {sym : Symbol} {indices' : List UInt32}
    (h : image.walk ram name first rounds id indices = some ⟨.ok sym, indices'⟩) :
    ∃ n, image.AllReadable ram id n ∧
      image.IsLast ram name first ((image.getChain ram)^[n] id) := by
  induction rounds generalizing id indices with
  | zero => exact nomatch h
  | succ rounds ih =>
      by_cases hread : image.IsReadable ram id
      · by_cases hlast : image.IsLast ram name first id
        · exact ⟨0, allReadable_zero.mpr hread, hlast⟩
        · rw [walk_next hloaded hread hlast] at h
          obtain ⟨n, hrest, hn⟩ := ih h
          exact ⟨n + 1, allReadable_succ.mpr ⟨hread, hrest⟩, hn⟩
      · rw [walk_unreadable hloaded hread] at h
        exact nomatch h

/-- The walk reads no entry that is not in the tables. -/
theorem walk_indices (hloaded : image.Loaded) {out : LookedUp}
    (h : image.walk ram name first rounds id indices = some out)
    (hindices : ∀ i ∈ indices, i < image.chainCount ram) :
    ∀ i ∈ out.indices, i < image.chainCount ram := by
  induction rounds generalizing id indices with
  | zero => exact nomatch h
  | succ rounds ih =>
      by_cases hread : image.IsReadable ram id
      · have hmore : ∀ i ∈ indices ++ [id], i < image.chainCount ram := by
          intro i hi
          rcases List.mem_append.mp hi with hi | hi
          · exact hindices i hi
          · rw [List.mem_singleton.mp hi]
            exact hread.1
        by_cases hlast : image.IsLast ram name first id
        · by_cases hnamed : image.IsNamed ram name id
          · rw [walk_named hloaded hread hnamed] at h
            cases h
            exact hmore
          · rw [walk_last hloaded hread hnamed hlast] at h
            cases h
            exact hmore
        · rw [walk_next hloaded hread hlast] at h
          exact ih h hmore
      · rw [walk_unreadable hloaded hread] at h
        cases h
        exact hindices

/-! ## Tables of the ABI -/

theorem link_eq_some {i : UInt32} (h : Image.link id = some i) : id = i ∧ id ≠ 0 := by
  unfold Image.link at h
  split at h
  next => exact nomatch h
  next hid => exact ⟨Option.some.inj h, hid⟩

theorem link_eq_none (h : Image.link id = none) : id = 0 := by
  unfold Image.link at h
  split at h
  next hid => exact hid
  next => exact nomatch h

/-- On a chain that ends, the walk finds the first symbol of the name. -/
theorem walk_chain (hloaded : image.Loaded) {ids : List UInt32}
    (hchain : Linked.Chain (fun id => Image.link (image.getChain ram id)) (some id) ids)
    (hfirst : first ∉ ids.tail)
    (hread : ∀ i ∈ ids, image.IsReadable ram i) {sym : Symbol} {indices' : List UInt32}
    (h : image.walk ram name first rounds id indices = some ⟨.ok sym, indices'⟩) :
    (sym.isExistent = true ↔ ∃ i ∈ ids, image.IsNamed ram name i) ∧
    (sym.isExistent = true → streq ram sym.name name.chars = true) := by
  induction ids generalizing id rounds indices with
  | nil => exact nomatch hchain
  | cons i rest ih =>
      obtain ⟨hid, hrest⟩ := hchain
      obtain rfl := Option.some.inj hid
      cases rounds with
      | zero => exact nomatch h
      | succ rounds =>
          have hi := hread id List.mem_cons_self
          by_cases hnamed : image.IsNamed ram name id
          · rw [walk_named hloaded hi hnamed] at h
            cases h
            obtain ⟨hname, hexists⟩ := getSymbol64_of_lt hloaded hi.1
            constructor
            · exact ⟨fun _ => ⟨id, List.mem_cons_self, hnamed⟩, fun _ => hexists⟩
            · intro _
              rw [hname]
              exact hnamed
          · by_cases hlast : image.IsLast ram name first id
            · rw [walk_last hloaded hi hnamed hlast] at h
              cases h
              -- The chain does not come back, so that it is at its end.
              have hnil : rest = [] := by
                cases rest with
                | nil => rfl
                | cons next rest =>
                    obtain ⟨hnext, hne⟩ := link_eq_some hrest.1
                    rcases hlast with hlast | hlast | hlast
                    · exact absurd hlast hnamed
                    · exact absurd hlast hne
                    · exact absurd (hlast.symm.trans hnext ▸ List.mem_cons_self) hfirst
              subst hnil
              refine ⟨⟨nofun, ?_⟩, nofun⟩
              rintro ⟨i, hi, hin⟩
              rw [List.mem_singleton.mp hi] at hin
              exact absurd hin hnamed
            · rw [walk_next hloaded hi hlast] at h
              cases rest with
              | nil =>
                  exact absurd (.inr (.inl (link_eq_none hrest))) hlast
              | cons next rest =>
                  obtain ⟨rfl, _⟩ := link_eq_some hrest.1
                  have hresult := ih ⟨rfl, hrest.2⟩
                    (fun hmem => hfirst (List.mem_cons_of_mem _ hmem))
                    (fun i hi => hread i (List.mem_cons_of_mem _ hi)) h
                  refine ⟨hresult.1.trans ?_, hresult.2⟩
                  constructor
                  · rintro ⟨i, hi, hin⟩
                    exact ⟨i, List.mem_cons_of_mem _ hi, hin⟩
                  · rintro ⟨i, hi, hin⟩
                    rcases List.mem_cons.mp hi with rfl | hi
                    · exact absurd hin hnamed
                    · exact ⟨i, hi, hin⟩

theorem chain_ne_zero {next : UInt32 → UInt32} {start : UInt32} {ids : List UInt32}
    (h : Linked.Chain (fun id => Image.link (next id)) (Image.link start) ids) :
    ∀ i ∈ ids, i ≠ 0 := by
  induction ids generalizing start with
  | nil => exact nofun
  | cons id rest ih =>
      intro i hi
      rcases List.mem_cons.mp hi with rfl | hi
      · obtain ⟨rfl, hne⟩ := link_eq_some h.1
        exact hne
      · exact ih h.2 i hi

/-- The symbols of a name are on the chain of its bucket. -/
theorem firstIndex_of_systemV (h : image.SystemV ram) (name : CString) : ∃ ids : List UInt32,
    Linked.Chain (fun id => Image.link (image.getChain ram id))
      (Image.link (image.firstIndex ram name)) ids ∧
    (∀ i ∈ ids, image.IsReadable ram i) ∧
    ((∃ i ∈ ids, image.IsNamed ram name i) ↔ image.HasNamed ram name) := by
  have hbucket : Elf.hash name % image.bucketCount ram < image.bucketCount ram :=
    UInt32.mod_lt _ h.buckets
  obtain ⟨ids, hchain, hids, hall⟩ := h.chains _ hbucket
  refine ⟨ids, hchain, fun i hi => ⟨hids i hi, h.names i (hids i hi)⟩, ?_⟩
  constructor
  · rintro ⟨i, hi, hnamed⟩
    refine ⟨i, ?_, hids i hi, hnamed⟩
    exact UInt32.pos_iff_ne_zero.mpr (chain_ne_zero hchain i hi)
  · rintro ⟨i, hpos, hi, hnamed⟩
    exact ⟨i, hall name i hpos hi hnamed rfl, hnamed⟩

theorem isNamed_zero (h : image.SystemV ram) : image.IsNamed ram name 0 ↔ name.chars = [] := by
  have hnonzero := name.nonzero
  unfold Image.IsNamed
  cases hchars : name.chars with
  | nil =>
      refine ⟨fun _ => rfl, fun _ => ?_⟩
      exact decide_eq_true h.undefined.2.2
  | cons c rest =>
      rw [hchars, List.mem_cons, not_or] at hnonzero
      refine ⟨fun hnamed => ?_, nofun⟩
      have hc : ram (image.symbolName ram 0) = c := (of_decide_eq_true hnamed).1
      exact absurd (h.undefined.2.2.symm.trans hc) hnonzero.1

/-- In a table of the ABI, a walk finds the symbol of a name exactly if there is one, unless it
finds the first entry under the empty name. -/
theorem walk_systemV (hloaded : image.Loaded) (h : image.SystemV ram) {sym : Symbol}
    {indices' : List UInt32}
    (hwalk : image.walk ram name (image.firstIndex ram name) rounds (image.firstIndex ram name)
      indices = some ⟨.ok sym, indices'⟩) :
    ((sym.isExistent = true ↔ image.HasNamed ram name) ∧
      (sym.isExistent = true → streq ram sym.name name.chars = true)) ↔
    (name.chars = [] → image.firstIndex ram name ≠ 0) := by
  obtain ⟨ids, hchain, hread, hnamed⟩ := firstIndex_of_systemV h name
  have hhead := hchain.head?
  by_cases hfirst : image.firstIndex ram name = 0
  · -- The bucket is empty, and the walk looks at the first entry.
    rw [hfirst] at hwalk hhead
    obtain rfl : ids = [] := List.head?_eq_none_iff.mp hhead.symm
    have habsent : ¬ image.HasNamed ram name := by
      intro hhas
      obtain ⟨i, hi, _⟩ := hnamed.mpr hhas
      exact nomatch hi
    have hzero : image.IsReadable ram 0 := ⟨h.undefined.1, h.names 0 h.undefined.1⟩
    cases rounds with
    | zero => exact nomatch hwalk
    | succ rounds =>
        by_cases hempty : name.chars = []
        · rw [walk_named hloaded hzero ((isNamed_zero h).mpr hempty)] at hwalk
          cases hwalk
          have hexists := (getSymbol64_of_lt hloaded hzero.1).2
          constructor
          · intro hfound
            exact absurd (hfound.1.mp hexists) habsent
          · intro hne
            exact absurd hfirst (hne hempty)
        · rw [walk_last hloaded hzero (mt (isNamed_zero h).mp hempty)
            (.inr (.inl h.undefined.2.1))] at hwalk
          cases hwalk
          constructor
          · intro _ hchars
            exact absurd hchars hempty
          · intro _
            exact ⟨⟨nofun, fun hhas => absurd hhas habsent⟩, nofun⟩
  · have hlink : Image.link (image.firstIndex ram name) = some (image.firstIndex ram name) :=
      if_neg hfirst
    rw [hlink] at hchain hhead
    have htail : image.firstIndex ram name ∉ ids.tail := by
      have hnodup := hchain.nodup
      cases ids with
      | nil => exact nofun
      | cons id rest =>
          obtain rfl := Option.some.inj hhead
          exact (List.nodup_cons.mp hnodup).1
    have hfound := walk_chain hloaded hchain htail hread hwalk
    rw [hnamed] at hfound
    exact ⟨fun _ _ => hfirst, fun _ => hfound⟩

/-! ## The lookup -/

theorem getSymbolByName_eq (hloaded : image.Loaded) (name : CString) (rounds : ℕ) :
    image.getSymbolByName ram name rounds =
      if image.bucketCount ram = 0 then some ⟨.error .divisionByZero, []⟩
      else
        image.walk ram name (image.firstIndex ram name) rounds (image.firstIndex ram name) [] := by
  unfold Image.getSymbolByName
  rw [hloaded.loadable, hloaded.located, hloaded.symbols, Bool.not_true,
    if_neg Bool.false_ne_true, if_neg Bool.false_ne_true, if_neg Bool.false_ne_true]

/-- Looking a name up in a loaded image does what is asked if and only if the table has buckets and
the chain of the name ends, and the name is not the empty one of an empty bucket. -/
theorem looksUp_iff (hloaded : image.Loaded) : image.LooksUp ram name ↔ image.Reaches ram name := by
  constructor
  · rintro ⟨rounds, sym, indices, hget, _, hsystemV⟩
    rw [getSymbolByName_eq hloaded] at hget
    split at hget
    next => exact nomatch hget
    next hbuckets =>
      obtain ⟨n, hread, hlast⟩ := reaches_of_walk hloaded hget
      obtain ⟨k, hk, hkn, hlast⟩ := Linked.exists_iterate_lt
        (P := image.IsLast ram name (image.firstIndex ram name))
        (fun _ _ h => UInt32.toNat_inj.mp h) hlast fun k hk => UInt32.lt_iff_toNat_lt.mp (hread k hk).1
      constructor
      case buckets => exact hbuckets
      case ends => exact ⟨k, hk, fun i hi => hread i (Nat.le_trans hi hkn), hlast⟩
      case nameless => exact fun h => (walk_systemV hloaded h hget).mp (hsystemV h)
  · rintro ⟨hbuckets, ⟨n, _, hread, hlast⟩, hnameless⟩
    obtain ⟨sym, indices, hwalk⟩ := walk_ends hloaded hread hlast (Nat.lt_succ_self n) []
    refine ⟨n + 1, sym, indices, ?_, walk_indices hloaded hwalk nofun, ?_⟩
    · rw [getSymbolByName_eq hloaded, if_neg hbuckets]
      exact hwalk
    · exact fun h => (walk_systemV hloaded h hwalk).mpr (hnameless h)

end Lookup

/-! A table with one bucket and one symbol, of the name `a`. -/

def symbolic : Image where
  mem := zeros
  elf := { Elf.new 4096 64 with
    loadable := true
    dynamic := { hash := 0x1000, dynsym64 := 0x2000, strtab := 0x3000 } }

def oneSymbol : Memory := fun addr =>
  if addr = 0x1000 then 1
  else if addr = 0x1004 then 2
  else if addr = 0x1008 then 1
  else if addr = 0x2018 then 1
  else if addr = 0x3001 then 97
  else 0

def nameA : CString := ⟨[97], by decide⟩

theorem looksUp_iff_a : symbolic.Loaded ∧
    (symbolic.LooksUp oneSymbol nameA ↔ symbolic.Reaches oneSymbol nameA) := by
  have hloaded : symbolic.Loaded := ⟨rfl, by decide +kernel, by decide⟩
  exact ⟨hloaded, looksUp_iff hloaded⟩

/-- In a table without buckets there is nothing to divide by. -/
theorem not_looksUp : ¬ ∀ (image : Image) (ram : Memory) (name : CString), image.Loaded →
    image.LooksUp ram name := by
  intro h
  have hloaded : relocatable.Loaded := ⟨rfl, by decide +kernel, by decide⟩
  obtain ⟨rounds, sym, indices, hget, _⟩ := h relocatable zeros nameA hloaded
  have hbuckets : relocatable.bucketCount zeros = 0 := by decide
  rw [getSymbolByName_eq hloaded, if_pos hbuckets] at hget
  exact nomatch hget

end Beelzebub.Execution
