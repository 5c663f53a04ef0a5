import Nibble.Lib.Bytes

/-!
# Words written into bytes

Eight bytes at an offset are overwritten. Words at offsets that are eight apart
do not disturb each other.
-/

namespace Nibble.Lib

def writeWord (bytes : List UInt8) (o : Nat) (v : BitVec 64) : Option (List UInt8) :=
  if o + 8 ≤ bytes.length then
    some (bytes.take o ++ leBytes 8 v.toNat ++ bytes.drop (o + 8))
  else none

def readWord (bytes : List UInt8) (o : Nat) : Option (BitVec 64) :=
  (readLe 8 (bytes.drop o)).map fun (n, _) => BitVec.ofNat 64 n

/-- Words written in order. -/
def writeWords : List (Nat × BitVec 64) → List UInt8 → Option (List UInt8)
  | [], bytes => some bytes
  | (o, v) :: ws, bytes => writeWord bytes o v >>= writeWords ws

section

variable {bytes out : List UInt8} {o o' : Nat} {v x : BitVec 64}

theorem le_of_readWord (h : readWord bytes o = some x) : o + 8 ≤ bytes.length := by
  unfold readWord readLe at h
  rw [List.length_drop] at h
  split at h
  · omega
  · cases h

theorem length_writeWord (h : writeWord bytes o v = some out) : out.length = bytes.length := by
  unfold writeWord at h
  split at h
  · cases h
    simp only [List.length_append, List.length_take, length_leBytes, List.length_drop]
    omega
  · cases h

theorem readWord_writeWord (h : writeWord bytes o v = some out) : readWord out o = some v := by
  unfold writeWord at h
  split at h
  · rename_i hlen
    cases h
    have htake : (bytes.take o).length = o := by
      rw [List.length_take]
      omega
    unfold readWord
    rw [List.append_assoc, List.drop_append_of_le_length (by omega),
      List.drop_of_length_le (by omega), List.nil_append, readLe_leBytes]
    have hv : BitVec.ofNat 64 (v.toNat % 2 ^ (8 * 8)) = v := by
      rw [Nat.mod_eq_of_lt v.isLt, BitVec.ofNat_toNat, BitVec.setWidth_eq]
    simp only [Option.map_some, hv]
  · cases h

theorem getElem?_writeWord (h : writeWord bytes o v = some out) {k : Nat}
    (hk : k < o ∨ o + 8 ≤ k) : out[k]? = bytes[k]? := by
  unfold writeWord at h
  split at h
  · rename_i hlen
    cases h
    have htake : (bytes.take o).length = o := by
      rw [List.length_take]
      omega
    rcases hk with hk | hk
    · rw [List.append_assoc, List.getElem?_append_left (by omega), List.getElem?_take, if_pos hk]
    · have hfront : (bytes.take o ++ leBytes 8 v.toNat).length = o + 8 := by
        rw [List.length_append, htake, length_leBytes]
      rw [List.getElem?_append_right (by omega), hfront, List.getElem?_drop]
      congr 1
      omega
  · cases h

theorem readWord_congr (hlen : out.length = bytes.length)
    (h : ∀ k, o ≤ k → k < o + 8 → out[k]? = bytes[k]?) : readWord out o = readWord bytes o := by
  have htake : (out.drop o).take 8 = (bytes.drop o).take 8 := by
    apply List.ext_getElem?
    intro k
    rw [List.getElem?_take, List.getElem?_take]
    split
    · rw [List.getElem?_drop, List.getElem?_drop]
      exact h _ (by omega) (by omega)
    · rfl
  unfold readWord readLe
  rw [List.length_drop, List.length_drop, hlen, htake]
  split <;> rfl

theorem readWord_writeWord_apart (h : writeWord bytes o v = some out)
    (ho : o' + 8 ≤ o ∨ o + 8 ≤ o') : readWord out o' = readWord bytes o' :=
  readWord_congr (length_writeWord h) fun k h1 h2 => getElem?_writeWord h (by omega)

end

section

variable {ws : List (Nat × BitVec 64)} {bytes : List UInt8}

theorem readWord_writeWords_before {out : List UInt8} {o : Nat} (hws : ∀ w ∈ ws, o + 8 ≤ w.1)
    (h : writeWords ws bytes = some out) : readWord out o = readWord bytes o := by
  induction ws generalizing bytes with
  | nil =>
    cases h
    rfl
  | cons w ws ih =>
    obtain ⟨mid, hmid, h⟩ := Option.bind_eq_some_iff.mp h
    rw [ih (fun w' hw' => hws w' (List.mem_cons_of_mem w hw')) h]
    exact readWord_writeWord_apart hmid (.inl (hws w List.mem_cons_self))

/-- Words in order and within the bytes are all read back. -/
theorem writeWords_spec (hin : ∀ w ∈ ws, w.1 + 8 ≤ bytes.length)
    (hord : ws.Pairwise fun w w' => w.1 + 8 ≤ w'.1) : ∃ out, writeWords ws bytes = some out ∧
      out.length = bytes.length ∧ ∀ w ∈ ws, readWord out w.1 = some w.2 := by
  induction ws generalizing bytes with
  | nil => exact ⟨bytes, rfl, rfl, by simp⟩
  | cons w ws ih =>
    obtain ⟨o, v⟩ := w
    obtain ⟨hhead, htail⟩ := List.pairwise_cons.mp hord
    have hmid : writeWord bytes o v =
        some (bytes.take o ++ leBytes 8 v.toNat ++ bytes.drop (o + 8)) :=
      if_pos (hin (o, v) List.mem_cons_self)
    have hlen := length_writeWord hmid
    obtain ⟨out, hout, hlen', hread⟩ := ih
      (fun w hw => hlen ▸ hin w (List.mem_cons_of_mem _ hw)) htail
    refine ⟨out, ?_, hlen'.trans hlen, List.forall_mem_cons.mpr ⟨?_, hread⟩⟩
    · rw [writeWords, hmid]
      exact hout
    · show readWord out o = some v
      rw [readWord_writeWords_before hhead hout]
      exact readWord_writeWord hmid

theorem length_writeWords {out : List UInt8} (h : writeWords ws bytes = some out) :
    out.length = bytes.length := by
  induction ws generalizing bytes with
  | nil =>
    cases h
    rfl
  | cons w ws ih =>
    obtain ⟨mid, hmid, h⟩ := Option.bind_eq_some_iff.mp h
    rw [ih h, length_writeWord hmid]

end

end Nibble.Lib
