import Beelzebub.Handles
import Beelzebub.Utils.Strings
import Mathlib.Tactic.NormNum

/-!
# The initial ramdisk

The ramdisk is an archive of blocks of 512 bytes.  `Initialize` goes from header to header and
tests that each one is inside; `FindItem` goes the same way with no test.  The size of an item is
a number of eleven octal digits, and the way to the next header is computed from it.

Memory is the ramdisk: any read outside is a fault.  A loop is run for so many rounds.
-/

namespace Beelzebub.InitRd

open Strings

/-! ## The code -/

/-- The memory from `vaddr` on. -/
structure Ramdisk where
  vaddr : ℕ
  size : ℕ
  content : ℕ → UInt8
  aligned : vaddr % 4096 = 0
  noWrap : vaddr + size < 2 ^ 64

/-- The bytes of a header, by their offset. -/
abbrev TarHeader := ℕ → UInt8

def Ramdisk.header (r : Ramdisk) (cursor : ℕ) : Option TarHeader :=
  if r.vaddr ≤ cursor ∧ cursor + 512 ≤ r.vaddr + r.size then
    some fun k => r.content (cursor - r.vaddr + k)
  else none

namespace TarHeader

/-- A term of `GetNumber`: `(size_t)(c - '0') << shift`. -/
def digit (c : UInt8) (shift : ℕ) : ℕ := ((c.toInt8.toInt - 0x30) % 2 ^ 64).toNat <<< shift

/-- The cases of `GetNumber` from `num` down. -/
def addDigits (str : ℕ → UInt8) (size : ℕ) : ℕ → ℕ → ℕ
  | 0, val => val
  | num + 1, val =>
      addDigits str size num ((val + digit (str (size - (num + 1))) (3 * num)) % 2 ^ 64)

def getNumber (str : ℕ → UInt8) (size : ℕ) : ℕ :=
  if size ≤ 12 then addDigits str size size 0 else 2 ^ 64 - 1

def getSize (h : TarHeader) : ℕ := getNumber (fun k => h (124 + k)) 11

def getChecksum (h : TarHeader) : ℕ := getNumber (fun k => h (148 + k)) 7

def typeFlag (h : TarHeader) : UInt8 := h 156

/-- `TarHeaderType::File`. -/
def file : UInt8 := 0x30

/-- `TarHeaderType::Directory`. -/
def directory : UInt8 := 0x35

/-- The first byte of the size, of the user, of the group or of the mode is zero, or the type. -/
def isZero (h : TarHeader) : Bool :=
  h 124 = 0 || h 108 = 0 || h 116 = 0 || h 100 = 0 || h.typeFlag = 0

/-- `GetNext` of the header at `cursor`. -/
def getNext (cursor : ℕ) (h : TarHeader) : ℕ :=
  if h.isZero then 0 else (cursor + (h.getSize + 1023) % 2 ^ 64 / 512 * 512) % 2 ^ 64

/-- Without a dot and without a slash at the beginning. -/
def normalize (p : Pointer) : Option Pointer := do
  let c ← read p
  let p := if c = 0x2E then p.drop 1 else p
  let c ← read p
  some (if c = 0x2F then p.drop 1 else p)

@[irreducible] def compareName (h : TarHeader) (str : Pointer) : Option ℤ := do
  let myName ← normalize ((List.range 512).map h)
  let str ← normalize str
  strncmp myName str 99

end TarHeader

/-- Why a loop has no result. -/
inductive Stop where
  | fault
  | rounds
  deriving DecidableEq

/-- The loop of `Initialize`. -/
def validate (r : Ramdisk) : ℕ → ℕ → Except Stop HandleResult
  | 0, _ => .error .rounds
  | n + 1, cursor =>
      if cursor = 0 then .ok .okay
      else if (cursor + 512) % 2 ^ 64 > r.vaddr + r.size then .ok .integrityFailure
      else if cursor % 512 ≠ 0 then .ok .alignmentFailure
      else
        match r.header cursor with
        | none => .error .fault
        | some h => validate r n (h.getNext cursor)

def initializeRd (r : Ramdisk) (n : ℕ) : Except Stop HandleResult := validate r n r.vaddr

/-- What `FindItem` returns.  A handle to an item is its header and sixteen bits of data. -/
inductive Item where
  | result (res : HandleResult)
  | file (thdr data : ℕ)
  | directory (thdr data : ℕ)
  deriving DecidableEq

/-- The handle to an item with the name. -/
def Item.of (cursor : ℕ) (h : TarHeader) : Item :=
  if h.typeFlag = TarHeader.file then .file cursor (h.getChecksum % 2 ^ 16)
  else if h.typeFlag = TarHeader.directory then .directory cursor (h.getChecksum % 2 ^ 16)
  else .result .unsupportedOperation

/-- The loop of `FindItem`. -/
def search (r : Ramdisk) (name : CString) : ℕ → ℕ → Except Stop Item
  | 0, _ => .error .rounds
  | n + 1, cursor =>
      if cursor = 0 then .ok (.result .notFound)
      else
        match r.header cursor with
        | none => .error .fault
        | some h =>
            match h.compareName name.bytes with
            | none => .error .fault
            | some res =>
                if res = 0 then .ok (.of cursor h) else search r name n (h.getNext cursor)

/-- `FindItem` after `Initialize`. -/
def findItem (r : Ramdisk) (name : CString) (n : ℕ) : Except Stop Item :=
  if r.vaddr = 0 ∨ r.vaddr + r.size = 0 then .ok (.result .unsupportedOperation)
  else search r name n r.vaddr

structure FileBoundaries where
  start : ℕ
  size : ℕ
  alignedSize : ℕ
  deriving DecidableEq

/-- `GetFileBoundaries`, or no result when the header is not in the ramdisk. -/
def getFileBoundaries (r : Ramdisk) : Item → Option FileBoundaries
  | .file thdr data =>
      (r.header thdr).map fun h =>
        if data ≠ h.getChecksum % 2 ^ 16 then ⟨0, 0, 0⟩
        else ⟨(thdr + 512) % 2 ^ 64, h.getSize, (h.getSize + 511) % 2 ^ 64 / 512 * 512⟩
  | _ => some ⟨0, 0, 0⟩

/-! ## What is asked -/

/-- The loop has this result after some rounds. -/
def Ends {α : Type} (loop : ℕ → Except Stop α) (res : α) : Prop := ∃ n, loop n = .ok res

/-- The file is inside. -/
def Inside (r : Ramdisk) (item : Item) : Prop :=
  ∃ bounds, getFileBoundaries r item = some bounds ∧ r.vaddr ≤ bounds.start ∧
    bounds.start + bounds.size ≤ r.vaddr + r.size

/-- The loop of `FindItem` from some header on ends, with a file that is inside or no file. -/
def Finds (r : Ramdisk) (loop : ℕ → Except Stop Item) : Prop :=
  ∃ item, Ends loop item ∧ ∀ thdr data, item = .file thdr data → Inside r item

structure Safe (r : Ramdisk) (res : HandleResult) : Prop where
  ends : Ends (initializeRd r) res
  finds : res = .okay → ∀ name, Finds r (findItem r name)

/-! ## The condition -/

/-- The headers that `Initialize` comes to. -/
inductive Walk (r : Ramdisk) : ℕ → Prop
  | start : Walk r r.vaddr
  | next {cursor : ℕ} {h : TarHeader} : Walk r cursor → r.header cursor = some h →
      h.isZero = false → Walk r (h.getNext cursor)

/-- No address that is computed from the size of a header wraps, and when the header that ends the
archive is that of a file then the file is inside. -/
structure Fit (r : Ramdisk) : Prop where
  forward : ∀ cursor h, Walk r cursor → r.header cursor = some h → h.isZero = false →
    cursor + (h.getSize + 1023) / 512 * 512 + 512 < 2 ^ 64
  last : ∀ cursor h, Walk r cursor → r.header cursor = some h → h.isZero = true →
    h.typeFlag = TarHeader.file → cursor + 512 + h.getSize ≤ r.vaddr + r.size

/-! ## Headers -/

variable {r : Ramdisk} {cursor : ℕ} {h : TarHeader} {name : CString}

theorem header_inside (hr : r.header cursor = some h) :
    r.vaddr ≤ cursor ∧ cursor + 512 ≤ r.vaddr + r.size := by
  unfold Ramdisk.header at hr
  split at hr
  next hinside => exact hinside
  next => cases hr

theorem header_of_inside (hle : r.vaddr ≤ cursor) (hend : cursor + 512 ≤ r.vaddr + r.size) :
    ∃ h, r.header cursor = some h := ⟨_, if_pos ⟨hle, hend⟩⟩

theorem getNext_zero (hzero : h.isZero = true) : h.getNext cursor = 0 := if_pos hzero

/-- When nothing wraps the next header is further on, in whole blocks, and behind the item. -/
theorem getNext_of_lt (hzero : h.isZero = false)
    (hlt : cursor + (h.getSize + 1023) / 512 * 512 + 512 < 2 ^ 64) :
    h.getNext cursor = cursor + (h.getSize + 1023) / 512 * 512 := by
  unfold TarHeader.getNext
  rw [hzero, if_neg Bool.false_ne_true]
  have hsize : (h.getSize + 1023) % 2 ^ 64 = h.getSize + 1023 := Nat.mod_eq_of_lt (by omega)
  rw [hsize]
  exact Nat.mod_eq_of_lt (by omega)

/-- The beginning of a string in memory that is long enough, without a dot and a slash. -/
theorem normalize_length {p : Pointer} (hp : 101 ≤ p.length) :
    ∃ q, TarHeader.normalize p = some q ∧ 99 ≤ q.length := by
  match p with
  | [] => cases hp
  | [_] => exact absurd hp (by simp)
  | a :: b :: p =>
      rw [List.length_cons, List.length_cons] at hp
      have hdrop : ∀ {q : Pointer}, 100 ≤ q.length → ∃ c, read q = some c ∧
          99 ≤ (if c = 0x2F then q.drop 1 else q).length := by
        intro q hq
        cases q with
        | nil => cases hq
        | cons c q =>
            rw [List.length_cons] at hq
            refine ⟨c, rfl, ?_⟩
            split
            next => exact Nat.le_of_succ_le_succ hq
            next =>
              rw [List.length_cons]
              omega
      have hfirst : 100 ≤ (if a = 0x2E then (a :: b :: p).drop 1 else a :: b :: p).length := by
        split
        next =>
          show 100 ≤ (b :: p).length
          rw [List.length_cons]
          omega
        next =>
          rw [List.length_cons, List.length_cons]
          omega
      obtain ⟨c, hc, hlength⟩ := hdrop hfirst
      refine ⟨_, ?_, hlength⟩
      unfold TarHeader.normalize
      dsimp only [Option.bind_eq_bind]
      rw [show read (a :: b :: p) = some a from rfl, Option.bind_some, hc]
      rfl

/-- A name is read up to its end at most. -/
theorem normalize_bytes (s : CString) :
    ∃ f : List UInt8, 0 ∉ f ∧ TarHeader.normalize s.bytes = some (f ++ [0]) := by
  have hslash : ∀ {f : List UInt8}, 0 ∉ f → ∃ c f', 0 ∉ f' ∧ read (f ++ [0]) = some c ∧
      (if c = 0x2F then (f ++ [0]).drop 1 else f ++ [0]) = f' ++ [0] := by
    intro f hf
    cases f with
    | nil => exact ⟨0, [], hf, rfl, rfl⟩
    | cons c f =>
        by_cases hc : c = 0x2F
        · exact ⟨c, f, fun hmem => hf (List.mem_cons_of_mem _ hmem), rfl, if_pos hc⟩
        · exact ⟨c, c :: f, hf, rfl, if_neg hc⟩
  have hdot : ∃ c f, 0 ∉ f ∧ read s.bytes = some c ∧
      (if c = 0x2E then s.bytes.drop 1 else s.bytes) = f ++ [0] := by
    obtain ⟨chars, hs⟩ := s
    cases chars with
    | nil => exact ⟨0, [], hs, rfl, rfl⟩
    | cons c f =>
        by_cases hc : c = 0x2E
        · exact ⟨c, f, fun hmem => hs (List.mem_cons_of_mem _ hmem), rfl, if_pos hc⟩
        · exact ⟨c, c :: f, hs, rfl, if_neg hc⟩
  obtain ⟨a, f, hf, ha, hfirst⟩ := hdot
  obtain ⟨c, f', hf', hc, hsecond⟩ := hslash hf
  refine ⟨f', hf', ?_⟩
  unfold TarHeader.normalize
  dsimp only [Option.bind_eq_bind]
  rw [ha, Option.bind_some, hfirst, hc, Option.bind_some, hsecond]

/-- Names are compared within the header. -/
theorem compareName_some (h : TarHeader) (name : CString) :
    ∃ res, h.compareName name.bytes = some res := by
  obtain ⟨myName, hname, hlength⟩ := normalize_length (p := (List.range 512).map h) (by
    rw [List.length_map, List.length_range]
    norm_num)
  obtain ⟨f, hf, hstr⟩ := normalize_bytes name
  obtain ⟨res, hres⟩ := strncmp_within hf (show 0 < 99 by norm_num) hlength
  refine ⟨res, ?_⟩
  unfold TarHeader.compareName
  dsimp only [Option.bind_eq_bind]
  rw [hname, Option.bind_some, hstr, Option.bind_some, hres]

/-! ## One header -/

/-- A search that comes to a header finds the item, or goes on as from the next one. -/
theorem finds_of_next (hcursor : cursor ≠ 0) (hr : r.header cursor = some h)
    (hfile : h.typeFlag = TarHeader.file → Inside r (.file cursor (h.getChecksum % 2 ^ 16)))
    (hnext : Finds r fun n => search r name n (h.getNext cursor)) :
    Finds r fun n => search r name n cursor := by
  obtain ⟨res, hres⟩ := compareName_some h name
  have hsearch : ∀ n, search r name (n + 1) cursor =
      if res = 0 then .ok (.of cursor h) else search r name n (h.getNext cursor) := by
    intro n
    rw [search, if_neg hcursor, hr]
    dsimp only
    rw [hres]
  by_cases hzero : res = 0
  · refine ⟨.of cursor h, ⟨1, (hsearch 0).trans (if_pos hzero)⟩, ?_⟩
    intro thdr data heq
    unfold Item.of at heq ⊢
    split at heq
    next htype =>
      rw [if_pos htype]
      exact hfile htype
    next =>
      split at heq <;> cases heq
  · obtain ⟨item, ⟨n, hn⟩, hitem⟩ := hnext
    exact ⟨item, ⟨n + 1, ((hsearch n).trans (if_neg hzero)).trans hn⟩, hitem⟩

theorem finds_zero : Finds r fun n => search r name n 0 :=
  ⟨.result .notFound, ⟨1, rfl⟩, fun _ _ heq => nomatch heq⟩

/-- A file whose end is inside. -/
theorem inside_of_le (hr : r.header cursor = some h)
    (hend : cursor + 512 + h.getSize ≤ r.vaddr + r.size) :
    Inside r (.file cursor (h.getChecksum % 2 ^ 16)) := by
  obtain ⟨hle, -⟩ := header_inside hr
  have hwrap := r.noWrap
  have hstart : (cursor + 512) % 2 ^ 64 = cursor + 512 := Nat.mod_eq_of_lt (by omega)
  refine ⟨⟨(cursor + 512) % 2 ^ 64, h.getSize, (h.getSize + 511) % 2 ^ 64 / 512 * 512⟩, ?_, ?_, ?_⟩
  · unfold getFileBoundaries
    dsimp only
    rw [hr, Option.map_some, if_neg (not_not.mpr rfl)]
  · show r.vaddr ≤ (cursor + 512) % 2 ^ 64
    omega
  · show (cursor + 512) % 2 ^ 64 + h.getSize ≤ r.vaddr + r.size
    omega

/-- A header from which `Initialize` returns without an error is inside. -/
theorem end_of_okay {n : ℕ} (hcursor : cursor ≠ 0) (hlt : cursor + 512 < 2 ^ 64)
    (hokay : validate r n cursor = .ok .okay) : cursor + 512 ≤ r.vaddr + r.size := by
  cases n with
  | zero => cases hokay
  | succ n =>
      by_contra hend
      rw [validate, if_neg hcursor, Nat.mod_eq_of_lt hlt, if_pos (by omega)] at hokay
      cases hokay

/-! ## The way from header to header -/

/-- From each header on its way `Initialize` ends, and if it finds no error then so does any
search, with a file that is inside. -/
theorem Walk.ends (hfit : Fit r) (m : ℕ) (hm : r.vaddr + r.size < cursor + m) (hpos : 0 < m)
    (hwalk : Walk r cursor) (hcursor : cursor ≠ 0) (hle : r.vaddr ≤ cursor)
    (halign : cursor % 512 = 0) (hlt : cursor + 512 < 2 ^ 64) :
    ∃ n res, validate r n cursor = .ok res ∧
      (res = .okay → ∀ name, Finds r fun n => search r name n cursor) := by
  induction m generalizing cursor with
  | zero => exact (Nat.lt_irrefl 0 hpos).elim
  | succ m ih =>
      by_cases hend : cursor + 512 ≤ r.vaddr + r.size
      · obtain ⟨h, hr⟩ := header_of_inside hle hend
        have hvalidate : ∀ n, validate r (n + 1) cursor = validate r n (h.getNext cursor) := by
          intro n
          rw [validate, if_neg hcursor, Nat.mod_eq_of_lt hlt, if_neg (by omega),
            if_neg (not_not.mpr halign), hr]
        cases hzero : h.isZero with
        | true =>
            have hnext := @getNext_zero cursor _ hzero
            refine ⟨2, .okay, ?_, fun _ name => finds_of_next hcursor hr (fun htype => ?_) ?_⟩
            · rw [hvalidate, hnext]
              rfl
            · exact inside_of_le hr (hfit.last cursor h hwalk hr hzero htype)
            · rw [hnext]
              exact finds_zero
        | false =>
            have hforward := hfit.forward cursor h hwalk hr hzero
            have hnext := getNext_of_lt hzero hforward
            have hwalk' := hwalk.next hr hzero
            obtain ⟨n, res, hn, hfinds⟩ := @ih (h.getNext cursor) (by omega) (by omega)
              hwalk' (by omega) (by omega) (by omega) (by omega)
            refine ⟨n + 1, res, (hvalidate n).trans hn, fun hokay name => ?_⟩
            rw [hokay] at hn
            have hinside := end_of_okay (by omega) (by omega) hn
            refine finds_of_next hcursor hr (fun _ => ?_) (hfinds hokay name)
            exact inside_of_le hr (by omega)
      · refine ⟨1, .integrityFailure, ?_, fun hokay => nomatch hokay⟩
        rw [validate, if_neg hcursor, Nat.mod_eq_of_lt hlt, if_pos (by omega)]

/-- A single header, of an empty file, that ends the archive. -/
def emptyFile : Ramdisk where
  vaddr := 0x1000
  size := 512
  content k := if k = 100 then 0 else 0x30
  aligned := rfl
  noWrap := by norm_num

theorem emptyFile_walk {c : ℕ} (hwalk : Walk emptyFile c) : c = 0x1000 := by
  induction hwalk with
  | start => rfl
  | next _ hr hzero ih =>
      subst ih
      cases hr
      exact absurd hzero (by decide)

/-- A header whose size is `00000000(00`, that is minus 512. -/
def negativeSize : Ramdisk where
  vaddr := 0x1000
  size := 512
  content k := if k = 132 then 0x28 else 0x30
  aligned := rfl
  noWrap := by norm_num

end Beelzebub.InitRd
