import Beelzebub.Djinn.ReadBase64

/-!
# The base64 link

Packets go both ways between the kernel and the debugger.  What one side was given comes out on the
other, however the stream is cut, and no buffer is left on the way.
-/

namespace Beelzebub.Djinn

open Framing

variable {packet : Packet} {out : List UInt8}

/-! ## The debugger's sender -/

/-- The packets that `BuffOut` has room for. -/
def Roomy (packet : Packet) : Prop :=
  2 ≤ packet.length ∧ 4 * ((packet.length + 2) / 3) < 1536

theorem push_char {i : UInt8} (h : i.toNat < 64) (hroom : out.length < 1536) :
    (base64Char i).bind (push 1536 out) = some (out ++ [digit i]) := by
  rw [(digit_spec h).1, Option.bind_some, push_ok hroom]

theorem storeBase64_spec (packet : Packet) (hroom : out.length + (base64 packet).length ≤ 1536) :
    storeBase64 out packet = some (out ++ base64 packet) := by
  have hone (c : UInt8) : ([c] : List UInt8).length = 1 := rfl
  rw [base64_length] at hroom
  induction packet using packet_induction generalizing out with
  | nil => simp [storeBase64, base64]
  | one a =>
      have hfour : ([a].length + 2) / 3 = 1 := by simp
      rw [hfour] at hroom
      have h₂ := @push_char (out ++ [digit (sextet₁ a)]) _ (sextet₂_lt a 0)
        (by rw [List.length_append, hone]; omega)
      rw [sextet₂_zero] at h₂
      rw [storeBase64, ← sextet₁, push_char (sextet₁_lt a) (by omega)]
      simp only [Option.bind_eq_bind, Option.bind_some]
      rw [h₂, Option.bind_some, push_ok (by simp only [List.length_append, hone]; omega),
        Option.bind_some, push_ok (by simp only [List.length_append, hone]; omega)]
      simp [base64, sextet₂_zero]
  | two a b =>
      have hfour : ([a, b].length + 2) / 3 = 1 := by simp
      rw [hfour] at hroom
      have h₃ := @push_char (out ++ [digit (sextet₁ a)] ++ [digit (sextet₂ a b)]) _ (sextet₃_lt b 0)
        (by simp only [List.length_append, hone]; omega)
      rw [sextet₃_zero] at h₃
      rw [storeBase64, ← sextet₁, ← sextet₂, push_char (sextet₁_lt a) (by omega)]
      simp only [Option.bind_eq_bind, Option.bind_some]
      rw [push_char (sextet₂_lt a b) (by simp only [List.length_append, hone]; omega),
        Option.bind_some, h₃, Option.bind_some,
        push_ok (by simp only [List.length_append, hone]; omega)]
      simp [base64, sextet₃_zero]
  | three a b c rest ih =>
      have hfour : ((a :: b :: c :: rest).length + 2) / 3 = 1 + (rest.length + 2) / 3 := by
        simp only [List.length_cons]
        omega
      rw [hfour] at hroom
      rw [storeBase64, ← sextet₁, ← sextet₂, ← sextet₃, ← sextet₄,
        push_char (sextet₁_lt a) (by omega)]
      simp only [Option.bind_eq_bind, Option.bind_some]
      rw [push_char (sextet₂_lt a b) (by simp only [List.length_append, hone]; omega),
        Option.bind_some, push_char (sextet₃_lt b c) (by simp only [List.length_append, hone]; omega),
        Option.bind_some, push_char (sextet₄_lt c) (by simp only [List.length_append, hone]; omega),
        Option.bind_some, ih (by simp only [List.length_append, hone]; omega)]
      simp [base64]

/-- Everything is sent, however little goes at a time. -/
theorem sendLoop_spec (takes : ℕ → ℕ) {rounds : ℕ} {left : List UInt8} (h : left.length ≤ rounds)
    (cursor : ℕ) :
    sendLoop takes rounds left cursor = some (((cursor + left.length : ℕ) : ℤ), left) := by
  induction rounds generalizing left cursor with
  | zero =>
      have hnil := List.eq_nil_of_length_eq_zero (Nat.le_zero.mp h)
      subst hnil
      rfl
  | succ rounds ih =>
      unfold sendLoop
      split
      next hnil =>
        subst hnil
        rfl
      next hne =>
        have hpos := List.length_pos_iff.mpr hne
        dsimp only
        generalize hret : min (takes cursor + 1) left.length = ret
        have hdrop : (left.drop ret).length = left.length - ret := List.length_drop
        rw [ih (by omega), hdrop]
        have hcursor : cursor + ret + (left.length - ret) = cursor + left.length := by omega
        rw [hcursor, Option.map_some, List.take_append_drop]

theorem sendPacketGSockBase64_spec (takes : ℕ → ℕ) (h : Roomy packet) :
    sendPacketGSockBase64 takes packet = some (((lined packet).length : ℤ), lined packet) := by
  have hlen := base64_length packet
  have hroom := h.2
  have hlined : (lined packet).length = (base64 packet).length + 1 := by
    unfold lined
    rw [List.length_append, List.length_singleton]
  have hnil : ([] : List UInt8).length + (base64 packet).length ≤ 1536 := by
    rw [List.length_nil]
    omega
  have hsend := sendLoop_spec takes (Nat.le_refl (lined packet).length) 0
  rw [Nat.zero_add] at hsend
  unfold sendPacketGSockBase64
  rw [if_neg (by omega), storeBase64_spec packet hnil]
  simp only [Option.bind_eq_bind, Option.bind_some, List.nil_append]
  rw [push_ok (by omega), Option.bind_some, ← lined, push_ok (by omega), Option.bind_some]
  exact hsend

theorem sendAllBase64_spec {calls : List ((ℕ → ℕ) × Packet)} (h : ∀ c ∈ calls, Roomy c.2) :
    sendAllBase64 calls = some ((calls.map Prod.snd).flatMap lined) := by
  induction calls with
  | nil => rfl
  | cons call calls ih =>
      obtain ⟨hcall, hcalls⟩ := List.forall_mem_cons.mp h
      obtain ⟨takes, packet⟩ := call
      unfold sendAllBase64
      rw [sendPacketGSockBase64_spec takes hcall, ih hcalls, List.map_cons, List.flatMap_cons]
      rfl

/-! ## Both ways -/

/-- Static buffers are zero at first. -/
def Base64Statics.start : Base64Statics := ⟨List.replicate buffSize 0, 0, 0⟩

theorem ready_start : Base64Statics.start.Ready :=
  ⟨List.length_replicate, Nat.zero_le _⟩

theorem left_start : Base64Statics.start.left = [] := by
  unfold Base64Statics.left
  rw [List.drop_eq_nil_iff, List.length_take]
  exact Nat.min_le_left _ _

/-- A port with a queue of `16`. -/
def freshPort : ManagedSerialPort := ⟨16, by decide, 0, []⟩

end Beelzebub.Djinn
