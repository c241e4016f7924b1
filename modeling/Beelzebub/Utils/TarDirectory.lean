import Beelzebub.InitRd
import Beelzebub.Utils.MemoryComparison

/-!
# Directories of the ramdisk

`IsInDirectory` compares the name of a header with the path of a directory and looks at what comes
behind.  A path with a separator at the end is not told apart from the directory itself, because
the test for that belongs to the other case only.
-/

namespace Beelzebub.InitRd

open MemoryComparison

/-! ## The code -/

/-- `repne scasb` for zero: the pointer after it. -/
def repneScasb (mem : ℕ → UInt8) : ℕ → ℕ → ℕ
  | 0, str => str
  | len + 1, str => if mem str = 0 then str + 1 else repneScasb mem len (str + 1)

def strnlen (mem : ℕ → UInt8) (str len : ℕ) : ℕ :=
  if len = 0 then 0
  else
    let stop := repneScasb mem len str
    if mem (stop - 1) = 0 then stop - str - 1 else stop - str

/-- Behind a dot, and then behind a slash. -/
def skipRoot (mem : ℕ → UInt8) (str : ℕ) : ℕ :=
  let str := if mem str = 0x2E then str + 1 else str
  if mem str = 0x2F then str + 1 else str

/-- Of the header at `thdr`.  The name comes first in it. -/
def isInDirectory (mem : ℕ → UInt8) (reg : Registers) (thdr dir : ℕ) (includeSelf : Bool) : Bool :=
  let myName := skipRoot mem thdr
  let dir := skipRoot mem dir
  let dirlen := strnlen mem dir 99
  let startsEqual := memeq mem reg myName dir dirlen
  if mem (dir + dirlen - 1) = 0x2F then startsEqual
  else
    startsEqual && mem (myName + dirlen) = 0x2F &&
      -- The pointer was incremented by the test before.
      (includeSelf || mem (myName + 1 + dirlen) ≠ 0)

/-! ## Paths -/

/-- A string in so many bytes of memory.  A zero ends it, unless it fills them. -/
inductive StringAt (mem : ℕ → UInt8) : ℕ → ℕ → List UInt8 → Prop
  | full {p : ℕ} : StringAt mem p 0 []
  | ended {p room : ℕ} : mem p = 0 → StringAt mem p (room + 1) []
  | char {p room : ℕ} {c : UInt8} {s : List UInt8} : mem p = c → c ≠ 0 →
      StringAt mem (p + 1) room s → StringAt mem p (room + 1) (c :: s)

/-- Without a character at the beginning. -/
def withoutHead (c : UInt8) : List UInt8 → List UInt8
  | [] => []
  | d :: s => if d = c then s else d :: s

/-- Without a dot, and then without a slash. -/
def withoutRoot (s : List UInt8) : List UInt8 := withoutHead 0x2F (withoutHead 0x2E s)

/-- Without a slash at the end. -/
def withoutSeparator (s : List UInt8) : List UInt8 :=
  if s.getLast? = some 0x2F then s.dropLast else s

/-- The name is the directory and a slash, and something behind it unless the directory itself
counts. -/
def InDirectory (name dir : List UInt8) (includeSelf : Bool) : Prop :=
  ∃ rest, name = withoutSeparator dir ++ 0x2F :: rest ∧ (includeSelf = true ∨ rest ≠ [])

/-- The header has a name, and the path is one of at most so many characters. -/
structure Arguments (mem : ℕ → UInt8) (thdr dir : ℕ) (name path : List UInt8) : Prop where
  nameAt : StringAt mem thdr 100 name
  pathAt : StringAt mem dir 99 path
  nonempty : path ≠ []
  length_le : path.length ≤ 98

section Headers

variable (mem : ℕ → UInt8) (reg : Registers) (thdr dir : ℕ) (name path : List UInt8)
  (includeSelf : Bool)

/-- `IsInDirectory` tells whether it is. -/
def DirectoryExact : Prop :=
  isInDirectory mem reg thdr dir includeSelf = true ↔
    InDirectory (withoutRoot name) (withoutRoot path) includeSelf

/-- No bytes are taken as equal. -/
def EmptyEqual : Prop := skipRoot mem thdr = skipRoot mem dir ∨ reg.zf = true

/-- What comes behind the name looks like more of a name in the directory. -/
def Continues (p : ℕ) : Prop := mem p = 0x2F ∧ (includeSelf = true ∨ mem (p + 1) ≠ 0)

/-- Where it can tell.  The first two are about the path of the root, the others about that of any
other directory: it does not end in a separator when the name is the same and itself does not count,
and a name that fills its field is not followed by what would be read as more of it. -/
structure Discernible : Prop where
  root : withoutRoot path = [] → path.getLast? ≠ some 0x2F →
    EmptyEqual mem reg thdr dir ∨ ¬InDirectory (withoutRoot name) [] includeSelf
  rootSeparator : withoutRoot path = [] → path.getLast? = some 0x2F →
    (EmptyEqual mem reg thdr dir ↔ InDirectory (withoutRoot name) [] includeSelf)
  separator : withoutRoot path ≠ [] → path.getLast? = some 0x2F →
    includeSelf = true ∨ withoutRoot name ≠ withoutRoot path
  filled : withoutRoot path ≠ [] → path.getLast? ≠ some 0x2F →
    withoutRoot name = withoutRoot path → ¬Continues mem includeSelf (thdr + name.length)
  filledSelf : withoutRoot path ≠ [] → path.getLast? ≠ some 0x2F →
    withoutRoot name = withoutRoot path ++ [0x2F] →
      includeSelf = true ∨ mem (thdr + name.length) = 0

end Headers

/-! ## Strings in memory -/

variable {mem : ℕ → UInt8} {p q room len : ℕ} {c : UInt8} {s t : List UInt8}

theorem StringAt.of_append (h : StringAt mem p room (s ++ t)) :
    ∃ room', room = s.length + room' ∧ StringAt mem (p + s.length) room' t := by
  induction s generalizing p room with
  | nil => exact ⟨room, (Nat.zero_add room).symm, h⟩
  | cons c s ih =>
      cases h with
      | char hc hne hrest =>
          obtain ⟨room', hroom, ht⟩ := ih hrest
          refine ⟨room', ?_, ?_⟩
          · rw [List.length_cons, hroom, Nat.add_right_comm]
          · rw [List.length_cons, Nat.add_comm s.length, ← Nat.add_assoc]
            exact ht

/-- Behind a string that leaves room there is its zero. -/
theorem StringAt.behind (h : StringAt mem p room s) (hroom : s.length < room) :
    mem (p + s.length) = 0 := by
  rw [← List.append_nil s] at h
  obtain ⟨room', hadd, hrest⟩ := h.of_append
  cases hrest with
  | full => omega
  | ended hzero => exact hzero

/-- One character less is still a string, and there is as much room behind it. -/
theorem StringAt.withoutHead (h : StringAt mem p (room + 1) s) (hc : c ≠ 0) :
    ∃ room', room' + s.length = room + 1 + (withoutHead c s).length ∧
      StringAt mem (if mem p = c then p + 1 else p) room' (withoutHead c s) ∧
      (if mem p = c then p + 1 else p) + (InitRd.withoutHead c s).length = p + s.length := by
  cases h with
  | ended hzero =>
      rw [if_neg (by rw [hzero]; exact Ne.symm hc)]
      exact ⟨room + 1, rfl, .ended hzero, rfl⟩
  | @char _ _ d s hd hne hrest =>
      by_cases heq : d = c
      · rw [if_pos (hd.trans heq), InitRd.withoutHead, if_pos heq, List.length_cons]
        exact ⟨room, by omega, hrest, by omega⟩
      · rw [if_neg (by rw [hd]; exact heq), InitRd.withoutHead, if_neg heq]
        exact ⟨room + 1, rfl, .char hd hne hrest, rfl⟩

theorem length_le_withoutHead (c : UInt8) (s : List UInt8) :
    s.length ≤ (withoutHead c s).length + 1 := by
  cases s with
  | nil => exact Nat.zero_le _
  | cons d s =>
      rw [withoutHead]
      split
      · exact Nat.le_refl _
      · exact Nat.le_succ _

theorem length_withoutHead_le (c : UInt8) (s : List UInt8) :
    (withoutHead c s).length ≤ s.length := by
  cases s with
  | nil => exact Nat.le_refl _
  | cons d s =>
      rw [withoutHead]
      split
      · exact Nat.le_succ _
      · exact Nat.le_refl _

theorem length_withoutRoot (s : List UInt8) :
    (withoutRoot s).length ≤ s.length ∧ s.length ≤ (withoutRoot s).length + 2 := by
  have hdot := length_le_withoutHead 0x2E s
  have hslash := length_le_withoutHead 0x2F (withoutHead 0x2E s)
  have hdot' := length_withoutHead_le 0x2E s
  have hslash' := length_withoutHead_le 0x2F (withoutHead 0x2E s)
  unfold withoutRoot
  omega

/-- The pointer behind the root is to the path without it. -/
theorem StringAt.skipRoot (h : StringAt mem p (room + 2) s) :
    ∃ room', room' + s.length = room + 2 + (withoutRoot s).length ∧
      StringAt mem (skipRoot mem p) room' (withoutRoot s) ∧
      InitRd.skipRoot mem p + (withoutRoot s).length = p + s.length := by
  obtain ⟨room₁, hroom₁, hdot, hend₁⟩ := h.withoutHead (c := 0x2E) (by decide)
  have hle := length_le_withoutHead 0x2E s
  obtain ⟨room₂, rfl⟩ : ∃ r, room₁ = r + 1 := ⟨room₁ - 1, by omega⟩
  obtain ⟨room₃, hroom₃, hslash, hend₂⟩ := hdot.withoutHead (c := 0x2F) (by decide)
  refine ⟨room₃, ?_, hslash, hend₂.trans hend₁⟩
  unfold withoutRoot
  omega

/-- `strnlen` finds the length of a string that ends before the limit. -/
theorem StringAt.strnlen (h : StringAt mem p room s) (hroom : s.length < room)
    (hlen : s.length < len) : strnlen mem p len = s.length := by
  have hstop : ∀ {p room len}, StringAt mem p room s → s.length < room → s.length < len →
      repneScasb mem len p = p + s.length + 1 := by
    clear h hroom hlen
    intro p room len h hroom hlen
    induction h generalizing len with
    | full => exact absurd hroom (Nat.lt_irrefl 0)
    | ended hzero =>
        obtain ⟨len, rfl⟩ := Nat.exists_eq_add_of_lt hlen
        exact if_pos hzero
    | @char p room c s hc hne _ ih =>
        rw [List.length_cons] at hroom hlen ⊢
        obtain ⟨len, rfl⟩ : ∃ k, len = k + 1 := ⟨len - 1, by omega⟩
        rw [repneScasb, if_neg (by rw [hc]; exact hne), ih (by omega) (by omega)]
        omega
  have hzero := h.behind hroom
  unfold InitRd.strnlen
  rw [if_neg (by omega), hstop h hroom hlen]
  dsimp only
  rw [Nat.add_sub_cancel, if_pos hzero]
  omega

/-- The first bytes of a string are those of another if and only if it begins with the other. -/
theorem StringAt.same_iff {room' : ℕ} (ht : StringAt mem p room t) (hs : StringAt mem q room' s)
    (hroom : s.length ≤ room) : Same mem p q s.length ↔ s <+: t := by
  induction hs generalizing p room t with
  | full => exact iff_of_true nofun List.nil_prefix
  | ended _ => exact iff_of_true nofun List.nil_prefix
  | @char q room' c s hc hne hrest ih =>
      rw [List.length_cons] at hroom ⊢
      rw [same_succ, hc]
      cases ht with
      | full => omega
      | ended hzero =>
          refine iff_of_false (fun h => ?_) fun h => nomatch List.prefix_nil.mp h
          exact hne (h.1.symm.trans hzero)
      | @char _ room d t hd hne' hrest' =>
          rw [hd, List.cons_prefix_cons, ih hrest' (Nat.le_of_succ_le_succ hroom),
            eq_comm (a := d)]

/-- The byte before the end of a path is its last character. -/
theorem StringAt.last (h : StringAt mem p room s) (hs : s ≠ []) :
    mem (p + s.length - 1) = 0x2F ↔ s.getLast? = some 0x2F := by
  obtain ⟨t, c, rfl⟩ := (List.eq_nil_or_concat' s).resolve_left hs
  obtain ⟨room', -, hlast⟩ := h.of_append
  rw [List.length_append, List.getLast?_concat, Option.some_inj]
  cases hlast with
  | char hc _ _ =>
      show mem (p + t.length) = 0x2F ↔ _
      rw [hc]

/-! ## The test -/

variable {reg : Registers} {thdr dir : ℕ} {name path : List UInt8} {includeSelf : Bool}

/-- What comes behind a name is read right unless the name fills its field. -/
theorem StringAt.continues_iff (h : StringAt mem p room t) :
    (Continues mem includeSelf p ↔
        ∃ rest, t = 0x2F :: rest ∧ (includeSelf = true ∨ rest ≠ [])) ↔
      (t = [] → ¬Continues mem includeSelf p) ∧
        (t = [0x2F] → includeSelf = true ∨ mem (p + 1) = 0) := by
  cases t with
  | nil =>
      have hspec : ¬∃ rest, ([] : List UInt8) = 0x2F :: rest ∧ (includeSelf = true ∨ rest ≠ []) :=
        fun ⟨_, heq, _⟩ => nomatch heq
      constructor
      · intro hexact
        exact ⟨fun _ hcontinues => hspec (hexact.mp hcontinues), nofun⟩
      · intro hbehind
        exact iff_of_false (hbehind.1 rfl) hspec
  | cons c t =>
      have hc : mem p = c := by
        cases h with
        | char hc _ _ => exact hc
      by_cases hslash : c = 0x2F
      · subst hslash
        have hspec : (∃ rest, (0x2F : UInt8) :: t = 0x2F :: rest ∧
            (includeSelf = true ∨ rest ≠ [])) ↔ includeSelf = true ∨ t ≠ [] := by
          constructor
          · rintro ⟨rest, heq, hrest⟩
            cases heq
            exact hrest
          · exact fun hrest => ⟨t, rfl, hrest⟩
        unfold Continues
        rw [hspec, and_iff_right hc]
        cases h with
        | char _ _ hrest =>
            cases t with
            | nil =>
                cases includeSelf with
                | true => simp
                | false => simp
            | cons d t =>
                cases hrest with
                | char hd hne _ =>
                    have hnext : mem (p + 1) ≠ 0 := by
                      rw [hd]
                      exact hne
                    exact iff_of_true (iff_of_true (.inr hnext) (.inr (List.cons_ne_nil d t)))
                      ⟨nofun, nofun⟩
      · refine iff_of_true (iff_of_false (fun h => ?_) ?_) ⟨nofun, fun heq => ?_⟩
        · exact hslash (hc.symm.trans h.1)
        · rintro ⟨rest, heq, -⟩
          cases heq
          exact hslash rfl
        · cases heq
          exact absurd rfl hslash

/-- The two strings behind their roots. -/
theorem Arguments.normal (h : Arguments mem thdr dir name path) :
    ∃ room room', StringAt mem (skipRoot mem thdr) room (withoutRoot name) ∧
      StringAt mem (skipRoot mem dir) room' (withoutRoot path) ∧
      98 ≤ room ∧ (withoutRoot path).length < room' ∧ (withoutRoot path).length < 99 ∧
      skipRoot mem thdr + (withoutRoot name).length = thdr + name.length ∧
      skipRoot mem dir + (withoutRoot path).length = dir + path.length := by
  obtain ⟨room, hroom, hname, hself⟩ := h.nameAt.skipRoot
  obtain ⟨room', hroom', hpath, hdir⟩ := h.pathAt.skipRoot
  have hle := h.length_le
  have hname' := length_withoutRoot name
  have hpath' := length_withoutRoot path
  exact ⟨room, room', hname, hpath, by omega, by omega, by omega, hself, hdir⟩

/-- What the function computes. -/
theorem isInDirectory_iff (h : Arguments mem thdr dir name path) :
    isInDirectory mem reg thdr dir includeSelf = true ↔
      (withoutRoot path = [] → EmptyEqual mem reg thdr dir) ∧
        withoutRoot path <+: withoutRoot name ∧
        (path.getLast? = some 0x2F ∨
          Continues mem includeSelf (skipRoot mem thdr + (withoutRoot path).length)) := by
  obtain ⟨room, room', hname, hpath, hroom, hroom', hlt, hself, hdir⟩ := h.normal
  have hstarts : memeq mem reg (skipRoot mem thdr) (skipRoot mem dir) (withoutRoot path).length
      = true ↔ (withoutRoot path = [] → EmptyEqual mem reg thdr dir) ∧
        withoutRoot path <+: withoutRoot name := by
    by_cases hempty : withoutRoot path = []
    · rw [hempty, List.length_nil]
      have hnone : Same mem (skipRoot mem thdr) (skipRoot mem dir) 0 := nofun
      have hzero := @memeqExact_iff mem (skipRoot mem thdr) (skipRoot mem dir) 0 reg
      unfold MemeqExact at hzero
      rw [iff_true_right hnone, or_iff_right (Nat.lt_irrefl 0)] at hzero
      rw [hzero, and_iff_left List.nil_prefix]
      exact ⟨fun hequal _ => hequal, fun hequal => hequal rfl⟩
    · rw [memeq_of_pos (List.length_pos_of_ne_nil hempty), hname.same_iff hpath (by omega)]
      exact ⟨fun hpre => ⟨fun hnil => absurd hnil hempty, hpre⟩, fun hboth => hboth.2⟩
  unfold isInDirectory
  dsimp only
  rw [hpath.strnlen hroom' hlt, hdir, ← and_assoc, ← hstarts, ← h.pathAt.last h.nonempty]
  by_cases hlast : mem (dir + path.length - 1) = 0x2F
  · rw [if_pos hlast, and_iff_left (.inl hlast)]
  · rw [if_neg hlast, or_iff_right hlast, Nat.add_right_comm]
    unfold Continues
    simp [and_assoc]

theorem getLast?_withoutHead (hs : withoutHead c s ≠ []) :
    (withoutHead c s).getLast? = s.getLast? := by
  cases s with
  | nil => rfl
  | cons d s =>
      rw [withoutHead] at hs ⊢
      by_cases heq : d = c
      · rw [if_pos heq] at hs ⊢
        rw [List.getLast?_cons_of_ne_nil hs]
      · rw [if_neg heq]

/-- The last character of a path is still there without the root. -/
theorem getLast?_withoutRoot {s : List UInt8} (hs : withoutRoot s ≠ []) :
    (withoutRoot s).getLast? = s.getLast? := by
  unfold withoutRoot at hs ⊢
  have hdot : withoutHead 0x2E s ≠ [] := by
    intro hnil
    rw [hnil] at hs
    exact hs rfl
  rw [getLast?_withoutHead hs, getLast?_withoutHead hdot]

/-- The path of the root. -/
theorem directoryExact_root (h : Arguments mem thdr dir name path)
    (hempty : withoutRoot path = []) :
    DirectoryExact mem reg thdr dir name path includeSelf ↔
      Discernible mem reg thdr dir name path includeSelf := by
  obtain ⟨room, room', hname, -, hroom, -⟩ := h.normal
  have hcontinues : Continues mem includeSelf (skipRoot mem thdr) ↔
      InDirectory (withoutRoot name) [] includeSelf := by
    refine hname.continues_iff.mpr ⟨fun hnil hcontinues => ?_, fun hslash => .inr ?_⟩
    · rw [hnil] at hname
      have hzero : mem (skipRoot mem thdr) = 0 :=
        hname.behind (Nat.lt_of_lt_of_le (by decide) hroom)
      exact absurd (hzero.symm.trans hcontinues.1) (by decide)
    · rw [hslash] at hname
      exact hname.behind (Nat.lt_of_lt_of_le (by decide) hroom)
  unfold DirectoryExact
  rw [isInDirectory_iff h, hempty, List.length_nil, Nat.add_zero, hcontinues,
    and_iff_right List.nil_prefix]
  constructor
  · intro hexact
    constructor
    case root =>
      intro _ hlast
      rw [or_iff_right hlast] at hexact
      by_cases hin : InDirectory (withoutRoot name) [] includeSelf
      · exact .inl ((hexact.mpr hin).1 rfl)
      · exact .inr hin
    case rootSeparator =>
      intro _ hlast
      rw [← hexact, and_iff_left (.inl hlast)]
      exact ⟨fun hequal _ => hequal, fun hequal => hequal rfl⟩
    case separator => exact fun hne => absurd hempty hne
    case filled => exact fun hne => absurd hempty hne
    case filledSelf => exact fun hne => absurd hempty hne
  · intro hmet
    by_cases hlast : path.getLast? = some 0x2F
    · rw [← hmet.rootSeparator hempty hlast, and_iff_left (.inl hlast)]
      exact ⟨fun hequal => hequal rfl, fun hequal _ => hequal⟩
    · rw [or_iff_right hlast]
      constructor
      · exact fun hboth => hboth.2
      · intro hin
        refine ⟨fun _ => ?_, hin⟩
        exact (hmet.root hempty hlast).resolve_right (not_not.mpr hin)

/-- The path of another directory with a separator at its end. -/
theorem directoryExact_separator (h : Arguments mem thdr dir name path)
    (hne : withoutRoot path ≠ []) (hlast : path.getLast? = some 0x2F) :
    DirectoryExact mem reg thdr dir name path includeSelf ↔
      Discernible mem reg thdr dir name path includeSelf := by
  have hend : (withoutRoot path).getLast? = some 0x2F := (getLast?_withoutRoot hne).trans hlast
  have hin : InDirectory (withoutRoot name) (withoutRoot path) includeSelf ↔
      ∃ rest, withoutRoot name = withoutRoot path ++ rest ∧ (includeSelf = true ∨ rest ≠ []) := by
    have hsplit := List.dropLast_append_getLast? _ hend
    unfold InDirectory withoutSeparator
    rw [if_pos hend]
    constructor
    · rintro ⟨rest, heq, hrest⟩
      refine ⟨rest, ?_, hrest⟩
      rw [heq, ← hsplit]
      simp
    · rintro ⟨rest, heq, hrest⟩
      refine ⟨rest, ?_, hrest⟩
      rw [heq, ← hsplit]
      simp
  unfold DirectoryExact
  rw [isInDirectory_iff h, hin, and_iff_right (fun hnil => absurd hnil hne),
    and_iff_left (.inl hlast)]
  constructor
  · intro hexact
    constructor
    case root => exact fun hnil => absurd hnil hne
    case rootSeparator => exact fun hnil => absurd hnil hne
    case separator =>
      intro _ _
      by_cases heq : withoutRoot name = withoutRoot path
      · obtain ⟨rest, happ, hrest⟩ := hexact.mp ⟨[], by rw [heq, List.append_nil]⟩
        rw [heq, List.self_eq_append_right] at happ
        exact .inl (hrest.resolve_right (not_not.mpr happ))
      · exact .inr heq
    case filled => exact fun _ hbare => absurd hlast hbare
    case filledSelf => exact fun _ hbare => absurd hlast hbare
  · intro hmet
    constructor
    · rintro ⟨rest, happ⟩
      refine ⟨rest, happ.symm, ?_⟩
      rcases hmet.separator hne hlast with hself | hother
      · exact .inl hself
      · right
        rintro rfl
        rw [List.append_nil] at happ
        exact hother happ.symm
    · rintro ⟨rest, happ, -⟩
      exact ⟨rest, happ.symm⟩

/-- The path of another directory without one. -/
theorem directoryExact_bare (h : Arguments mem thdr dir name path)
    (hne : withoutRoot path ≠ []) (hlast : path.getLast? ≠ some 0x2F) :
    DirectoryExact mem reg thdr dir name path includeSelf ↔
      Discernible mem reg thdr dir name path includeSelf := by
  obtain ⟨room, room', hname, -, hroom, -, -, hthdr, -⟩ := h.normal
  have hend : (withoutRoot path).getLast? ≠ some 0x2F := by
    rw [getLast?_withoutRoot hne]
    exact hlast
  unfold DirectoryExact InDirectory withoutSeparator
  rw [isInDirectory_iff h, if_neg hend, and_iff_right (fun hnil => absurd hnil hne),
    or_iff_right hlast]
  have hmet : Discernible mem reg thdr dir name path includeSelf ↔
      (withoutRoot name = withoutRoot path →
          ¬Continues mem includeSelf (thdr + name.length)) ∧
        (withoutRoot name = withoutRoot path ++ [0x2F] →
          includeSelf = true ∨ mem (thdr + name.length) = 0) := by
    constructor
    · exact fun hmet => ⟨hmet.filled hne hlast, hmet.filledSelf hne hlast⟩
    · rintro ⟨hfilled, hself⟩
      constructor
      case root => exact fun hnil => absurd hnil hne
      case rootSeparator => exact fun hnil => absurd hnil hne
      case separator => exact fun _ hsep => absurd hsep hlast
      case filled => exact fun _ _ => hfilled
      case filledSelf => exact fun _ _ => hself
  rw [hmet, ← hthdr]
  by_cases hpre : withoutRoot path <+: withoutRoot name
  · obtain ⟨rest, happ⟩ := hpre
    rw [← happ] at hname ⊢
    obtain ⟨left, -, hrest⟩ := hname.of_append
    rw [and_iff_right (List.prefix_append _ _), List.append_right_eq_self, List.length_append,
      ← Nat.add_assoc]
    simp only [List.append_cancel_left_eq]
    rw [hrest.continues_iff]
    refine and_congr (forall_congr' fun hnil => ?_) (forall_congr' fun hslash => ?_)
    · rw [hnil]
      rfl
    · rw [hslash]
      rfl
  · refine iff_of_true (iff_of_false (fun hboth => hpre hboth.1) ?_) ⟨fun heq => ?_, fun heq => ?_⟩
    · rintro ⟨rest, heq, -⟩
      exact hpre ⟨_, heq.symm⟩
    · exact absurd ⟨[], by rw [heq, List.append_nil]⟩ hpre
    · exact absurd ⟨_, heq.symm⟩ hpre

/-- The answer is right if and only if the function can tell. -/
theorem directoryExact_iff_discernible (h : Arguments mem thdr dir name path) :
    DirectoryExact mem reg thdr dir name path includeSelf ↔
      Discernible mem reg thdr dir name path includeSelf := by
  by_cases hempty : withoutRoot path = []
  · exact directoryExact_root h hempty
  · by_cases hlast : path.getLast? = some 0x2F
    · exact directoryExact_separator h hempty hlast
    · exact directoryExact_bare h hempty hlast

/-- The name `a/`, and from 1000 on a path of the same with or without the slash. -/
def nameAndPath (last : UInt8) : ℕ → UInt8
  | 0 | 1000 => 0x61
  | 1 => 0x2F
  | 1001 => last
  | _ => 0

theorem nameAndPath_name (last : UInt8) : StringAt (nameAndPath last) 0 100 [0x61, 0x2F] :=
  .char rfl (by decide) (.char rfl (by decide) (.ended rfl))

theorem directoryExact_iff_discernible_bare :
    DirectoryExact (nameAndPath 0) ⟨false, 0⟩ 0 1000 [0x61, 0x2F] [0x61] false ↔
      Discernible (nameAndPath 0) ⟨false, 0⟩ 0 1000 [0x61, 0x2F] [0x61] false :=
  directoryExact_iff_discernible
    ⟨nameAndPath_name 0, .char rfl (by decide) (.ended rfl), by decide, by decide⟩

/-- The path `a/` is said to have the item `a/` in it. -/
theorem not_directoryExact :
    ¬ ∀ (mem : ℕ → UInt8) (reg : Registers) (thdr dir : ℕ) (name path : List UInt8)
      (includeSelf : Bool), Arguments mem thdr dir name path →
        DirectoryExact mem reg thdr dir name path includeSelf := by
  intro h
  have hpath : StringAt (nameAndPath 0x2F) 1000 99 [0x61, 0x2F] :=
    .char rfl (by decide) (.char rfl (by decide) (.ended rfl))
  have hexact := h (nameAndPath 0x2F) ⟨false, 0⟩ 0 1000 [0x61, 0x2F] [0x61, 0x2F] false
    ⟨nameAndPath_name 0x2F, hpath, by decide, by decide⟩
  obtain ⟨rest, happ, hrest⟩ := hexact.mp (by decide)
  rcases hrest with hself | hmore
  · exact nomatch hself
  · cases happ
    exact hmore rfl

end Beelzebub.InitRd
