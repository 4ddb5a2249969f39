import AmqOs.Network.HttpDefs

/-!
# The response buffer

`http_tcp_data_received` copies a chunk that leaves room in the buffer, and of any other chunk what still fits. However the
data is cut into chunks, the buffer holds its first 16384 bytes, and nothing behind them is written (`chunks_received`).
-/

set_option autoImplicit false

namespace AmqOs.Network

open AmqOs.Lib

/-- The buffer holds these bytes; behind them the memory is what it was. -/
structure HttpResponse.Holds (r : HttpResponse) (before : Mem) (bytes : List UInt8) : Prop where
  len : r.len = bytes.length
  bytes : r.buffer.slice 0 r.len = bytes
  behind : ∀ a, r.len ≤ a → r.buffer a = before a

section Buffer

variable {r : HttpResponse} {before : Mem} {bytes data : List UInt8} {n : Nat}

/-- One byte. -/
theorem HttpResponse.Holds.push (h : r.Holds before bytes) (b : UInt8) : (r.push b).Holds before (bytes ++ [b]) := by
  refine ⟨?_, ?_, ?_⟩
  · simp [HttpResponse.push, h.len]
  · show Mem.slice (Function.update r.buffer r.len b) 0 (r.len + 1) = bytes ++ [b]
    rw [Mem.slice_add, Mem.slice_update (by omega), h.bytes, Nat.zero_add]
    simp [Mem.slice]
  · intro a ha
    have hlt : r.len < a := ha
    show Function.update r.buffer r.len b a = before a
    rw [Function.update_of_ne (by omega)]
    exact h.behind a (by omega)

/-- A copy loop. -/
theorem HttpResponse.Holds.copy (h : r.Holds before bytes) (hn : n ≤ data.length) :
    (forUpTo (fun i r => r.push (byteAt data i)) n r).Holds before (bytes ++ data.take n) := by
  apply forUpTo_inv fun i (t : HttpResponse) => t.Holds before (bytes ++ data.take i)
  · simpa using h
  · intro i t hi ht
    have hbyte : data.take (i + 1) = data.take i ++ [byteAt data i] := by
      have hlt : i < data.length := by omega
      rw [List.take_succ_eq_append_getElem hlt, byteAt, List.getD_eq_getElem?_getD, List.getElem?_eq_getElem hlt,
        Option.getD_some]
    rw [hbyte, ← List.append_assoc]
    exact ht.push _

theorem toInt32_of_lt (h : n < 2 ^ 31) : toInt32 n = n := by
  unfold toInt32
  apply Int.bmod_eq_of_le <;> omega

/-- **One chunk**, of a length that a segment can have. -/
theorem HttpResponse.Holds.receive {total : List UInt8} (h : r.Holds before (total.take httpResponseMax))
    (hdata : data.length + httpResponseMax < 2 ^ 31) :
    (httpTcpDataReceived r data).Holds before ((total ++ data).take httpResponseMax) := by
  have hlen : r.len = min httpResponseMax total.length := by rw [h.len, List.length_take]
  unfold httpTcpDataReceived
  rw [toInt32_of_lt (by omega)]
  split
  · -- there is room for the whole chunk, so nothing was cut before
    rename_i hroom
    have hold : total.take httpResponseMax = total := List.take_of_length_le (by omega)
    have hnew : (total ++ data).take httpResponseMax = total ++ data := by
      apply List.take_of_length_le
      rw [List.length_append]
      omega
    have hcopy := h.copy (Nat.le_refl data.length)
    rw [hold, List.take_length] at hcopy
    rwa [hnew]
  · rename_i hroom
    have hcopy := h.copy (show httpResponseMax - r.len ≤ data.length by omega)
    have htake : httpResponseMax - r.len = httpResponseMax - total.length := by omega
    rw [htake, ← List.take_append] at hcopy
    rwa [htake]

end Buffer

/-- **The response.** However the data is cut into chunks, the buffer holds the first 16384 bytes of it. -/
theorem chunks_received (buffer : Mem) {chunks : List (List UInt8)}
    (hchunks : ∀ c ∈ chunks, c.length + httpResponseMax < 2 ^ 31) :
    (chunks.foldl httpTcpDataReceived ⟨buffer, 0⟩).Holds buffer (chunks.flatten.take httpResponseMax) := by
  induction chunks using List.reverseRecOn with
  | nil => exact ⟨rfl, rfl, fun _ _ => rfl⟩
  | append_singleton chunks c ih =>
    have hprefix := ih fun d hd => hchunks d (List.mem_append_left _ hd)
    rw [List.foldl_append, List.foldl_cons, List.foldl_nil, List.flatten_append, List.flatten_singleton]
    exact hprefix.receive (hchunks c (by simp))

/-- Two segments. -/
def twoChunks : List (List UInt8) := [[0x48, 0x54], [], [0x54, 0x50]]

theorem chunks_received_two : (twoChunks.foldl httpTcpDataReceived ⟨fun _ => 0, 0⟩).Holds (fun _ => 0)
    (twoChunks.flatten.take httpResponseMax) := chunks_received _ (by simp [twoChunks, httpResponseMax])

end AmqOs.Network
