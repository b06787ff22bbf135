/-
Checksummed packets in a byte stream: a magic number, the length of the
payload, the payload and a checksum over all of it, and what a cut at an
arbitrary byte leaves of a stream of blocks.

The file names no log. A reader takes a packet apart at fixed offsets;
`packet_append_take` says what it finds at each of them, whatever
follows the packet.
-/
import MemoryFirst.Lib.Bytes

namespace MemoryFirst.Lib

open List

-- ===== one packet

/-- What the checksum covers. -/
def packetBody (magic : Nat) (payload : List UInt8) : List UInt8 :=
  leBytes 4 magic ++ leBytes 4 payload.length ++ payload

def packet (magic : Nat) (checksum : List UInt8 → UInt32) (payload : List UInt8) : List UInt8 :=
  packetBody magic payload ++ leBytes 4 (checksum (packetBody magic payload)).toNat

section

variable (magic : Nat) (checksum : List UInt8 → UInt32)

theorem length_packetBody (payload : List UInt8) :
    (packetBody magic payload).length = 8 + payload.length := by
  simp only [packetBody, length_append, length_leBytes]

theorem length_packet (payload : List UInt8) :
    (packet magic checksum payload).length = 8 + payload.length + 4 := by
  simp only [packet, length_append, length_packetBody, length_leBytes]

/-- The front of a packet, as a reader takes it apart. -/
theorem packet_append_take (payload rest : List UInt8) {bytes : List UInt8}
    (h : bytes = packet magic checksum payload ++ rest) :
    bytes.take 4 = leBytes 4 magic
      ∧ (bytes.drop 4).take 4 = leBytes 4 payload.length
      ∧ bytes.take (8 + payload.length) = packetBody magic payload
      ∧ (bytes.drop 8).take payload.length = payload
      ∧ (bytes.drop (8 + payload.length)).take 4
        = leBytes 4 (checksum (packetBody magic payload)).toNat := by
  subst h
  have hm := length_leBytes 4 magic
  have hl := length_leBytes 4 payload.length
  have hc := length_leBytes 4 (checksum (packetBody magic payload)).toNat
  refine ⟨?_, ?_, ?_, ?_, ?_⟩
  · rw [packet, packetBody, append_assoc, append_assoc, append_assoc]
    exact take_left' hm
  · rw [packet, packetBody, append_assoc, append_assoc,
      append_assoc, drop_left' hm]
    exact take_left' hl
  · rw [packet, append_assoc]
    exact take_left' (length_packetBody magic payload)
  · rw [packet, packetBody, append_assoc, append_assoc,
      drop_left' (by rw [length_append, hm, hl])]
    exact take_left' rfl
  · rw [packet, append_assoc, drop_left' (length_packetBody magic payload)]
    exact take_left' hc

end

-- ===== cut streams

variable {α : Type}

/-- The blocks wholly inside the first `n` bytes of their stream. -/
def blocksWithin (enc : α → List UInt8) : Nat → List α → List α
  | _, [] => []
  | n, a :: l =>
    if (enc a).length ≤ n then a :: blocksWithin enc (n - (enc a).length) l
    else []

variable (enc : α → List UInt8)

theorem prefix_blocksWithin (n : Nat) (l : List α) : blocksWithin enc n l <+: l := by
  induction l generalizing n with
  | nil => exact nil_prefix
  | cons a l ih =>
    unfold blocksWithin
    split
    case isTrue => exact (prefix_cons_inj a).2 (ih _)
    case isFalse => exact nil_prefix

/-- A stream of blocks and a tail, cut at any byte, is the whole blocks
and a cut block or tail. -/
theorem take_stream (l : List α) (tail : List UInt8)
    (n : Nat) : ∃ tail', (l.flatMap enc ++ tail).take n
        = (blocksWithin enc n l).flatMap enc ++ tail'
      ∧ ((∃ m, tail' = tail.take m) ∨ ∃ a ∈ l, ∃ m < (enc a).length, tail' = (enc a).take m) := by
  induction l generalizing n with
  | nil => exact ⟨tail.take n, rfl, Or.inl ⟨n, rfl⟩⟩
  | cons a l ih =>
    rw [flatMap_cons, append_assoc, take_append]
    unfold blocksWithin
    split
    case isTrue hle =>
      obtain ⟨tail', heq, htail⟩ := ih (n - (enc a).length)
      refine ⟨tail', ?_, ?_⟩
      · rw [take_of_length_le hle, heq, flatMap_cons, append_assoc]
      · rcases htail with htail | ⟨b, hb, htail⟩
        · exact Or.inl htail
        · exact Or.inr ⟨b, mem_cons_of_mem a hb, htail⟩
    case isFalse hlt =>
      have hn : n - (enc a).length = 0 := by omega
      refine ⟨(enc a).take n, ?_, Or.inr ⟨a, mem_cons_self, n, Nat.not_le.1 hlt, rfl⟩⟩
      rw [hn, take_zero, append_nil]
      rfl

end MemoryFirst.Lib
