import WasmFS.Source.DataFile

/-!
# One segment of a memory file

`MemoryDataFile` takes the offset as a signed number.  Below 2^63 it is the number
that the loops pass.  A read is then a slice of the buffer, and a write is an
overlay or is refused, unless its end passes 2^63.  From 2^63 on the offset is
negative.  The comparisons with the size are then beside the point, and the copy
takes place at the offset modulo 2^32.
-/

namespace WasmFS

open Lists

namespace MemoryDataFile

variable {buffer : Buffer} {buf : List UInt8}

/-! ## Copies -/

/-- A copy into the buffer fails exactly when one of the bytes it writes is not in
the buffer. -/
theorem copyIn_eq_outOfBounds {offset : Int} : copyIn buffer offset buf = .error .outOfBounds ↔
    ∃ j, j < buf.length ∧ buffer.size ≤ u32 offset + j := by
  have hin := buffer.copyIn?_isSome (u32 offset) buf
  simp only [copyIn]
  cases hc : buffer.copyIn? (u32 offset) buf with
  | none =>
      rw [hc] at hin
      simp only [true_iff]
      by_contra hnone
      refine absurd (hin.mpr fun j hj => ?_) (by decide)
      by_contra hout
      exact hnone ⟨j, hj, Nat.le_of_not_lt hout⟩
  | some w =>
      rw [hc] at hin
      simp only [reduceCtorEq, false_iff]
      intro h
      obtain ⟨j, hj, hout⟩ := h
      exact Nat.not_lt_of_le hout (hin.mp rfl j hj)

/-- A copy out of the buffer fails exactly when one of the bytes it reads is not in
the buffer. -/
theorem copyOut_eq_outOfBounds {offset : Int} {len : Nat} :
    copyOut buffer offset len = .error .outOfBounds ↔
      ∃ j, j < len ∧ buffer.size ≤ u32 offset + j := by
  have hin := buffer.copyOut?_isSome (u32 offset) len
  simp only [copyOut]
  cases hc : buffer.copyOut? (u32 offset) len with
  | none =>
      rw [hc] at hin
      simp only [true_iff]
      by_contra hnone
      refine absurd (hin.mpr fun j hj => ?_) (by decide)
      by_contra hout
      exact hnone ⟨j, hj, Nat.le_of_not_lt hout⟩
  | some w =>
      rw [hc] at hin
      simp only [reduceCtorEq, false_iff]
      intro h
      obtain ⟨j, hj, hout⟩ := h
      exact Nat.not_lt_of_le hout (hin.mp rfl j hj)

variable (buffer)

theorem copyIn_inside (buf : List UInt8) (offset : Int)
    (h : buf = [] ∨ u32 offset + buf.length ≤ buffer.size) :
    ∃ b, copyIn buffer offset buf = .ok b ∧
      b.toList = overlay 0 buffer.toList (u32 offset) buf := by
  simp only [copyIn]
  cases hc : buffer.copyIn? (u32 offset) buf with
  | none =>
      obtain ⟨hne, hlt⟩ := (buffer.copyIn?_eq_none _ _).mp hc
      exact absurd (h.resolve_left hne) (Nat.not_le_of_lt hlt)
  | some b => exact ⟨b, rfl, Vec.toList_of_copyIn? 0 hc⟩

theorem copyIn_outside {offset : Int} (h : buf ≠ []) (h' : buffer.size < u32 offset + buf.length) :
    copyIn buffer offset buf = .error .outOfBounds := by
  have hpos := List.length_pos_of_ne_nil h
  exact copyIn_eq_outOfBounds.mpr ⟨buf.length - 1, by omega, by omega⟩

theorem copyOut_inside {offset : Int} {len : Nat}
    (h : len = 0 ∨ u32 offset + len ≤ buffer.size) :
    copyOut buffer offset len = .ok (slice buffer.toList (u32 offset) len) := by
  simp only [copyOut, Vec.copyOut?, if_pos h]

theorem copyOut_outside {offset : Int} {len : Nat} (h : len ≠ 0)
    (h' : buffer.size < u32 offset + len) : copyOut buffer offset len = .error .outOfBounds :=
  copyOut_eq_outOfBounds.mpr ⟨len - 1, by omega, by omega⟩

theorem resize_fits {n : Nat} (h : n ≤ Buffer.maxSize) :
    ∃ b, resize buffer n = .ok b ∧ b.toList = Lists.resize 0 buffer.toList n := by
  have hmax : Buffer.maxSize = 2147483647 := rfl
  have hfits : u32 (n : Int) = n := u32_of_lt (by omega)
  simp only [resize, hfits]
  cases hb : buffer.resize? 0 n with
  | none =>
      have hsome := (buffer.resize?_isSome 0 n).mpr h
      rw [hb] at hsome
      cases hsome
  | some b => exact ⟨b, rfl, Vec.toList_of_resize? hb⟩

theorem size_of_resize {b : Buffer} {n : Nat} (h : b.toList = Lists.resize 0 buffer.toList n) :
    b.size = n := by
  rw [Vec.size, h, length_resize]

/-! ## Offsets below 2^63 -/

/-- A write that ends within the maximum size is an overlay. -/
theorem write_fits {o : Nat} (hb : buf ≠ []) (h : o + buf.length ≤ Buffer.maxSize) :
    ∃ b, write buffer buf o = .ok (b, buf.length) ∧ b.toList = overlay 0 buffer.toList o buf := by
  have hmax : Buffer.maxSize = 2147483647 := rfl
  have hstop : s64 ((o : Int) + buf.length) = (o + buf.length : Nat) := by
    rw [s64_of_mem (by omega) (by omega), Int.natCast_add]
  have hindex : u32 (o : Int) = o := u32_of_lt (by omega)
  have hlen : s32 (buf.length : Int) = buf.length := s32_of_mem (by omega) (by omega)
  simp only [write, hstop]
  split
  · rename_i hgrow
    obtain ⟨w, hw, hlist⟩ := resize_fits buffer h
    have hsize := size_of_resize _ hlist
    rw [if_neg (by omega), hw]
    simp only [copyIn, hindex]
    cases hc : w.copyIn? o buf with
    | none =>
        obtain ⟨-, hlt⟩ := (w.copyIn?_eq_none _ _).mp hc
        omega
    | some b =>
        simp only [hlen]
        exact ⟨b, rfl, Vec.toList_grow_copyIn hb (by omega) hlist hc⟩
  · rename_i hin
    obtain ⟨b, hc, hlist⟩ := copyIn_inside buffer buf o
      (Or.inr (by rw [hindex]; omega))
    rw [hindex] at hlist
    simp only [hc, hlen]
    exact ⟨b, rfl, hlist⟩

/-- Writing nothing at an offset within the maximum size grows the buffer up to there. -/
theorem write_empty {o : Nat} (h : o ≤ Buffer.maxSize) :
    ∃ b, write buffer [] o = .ok (b, 0) ∧ b.toList = place 0 buffer.toList o [] := by
  have hmax : Buffer.maxSize = 2147483647 := rfl
  have hstop : s64 ((o : Int) + ([] : List UInt8).length) = o := by
    rw [List.length_nil, Int.natCast_zero, Int.add_zero, s64_of_mem (by omega) (by omega)]
  have hlen : s32 (([] : List UInt8).length : Int) = 0 := rfl
  have hempty : ∀ w : Buffer, copyIn w o [] = .ok w := by
    intro w
    obtain ⟨b, hc, hlist⟩ := copyIn_inside w [] o (Or.inl rfl)
    rw [hc, Vec.ext (hlist.trans (overlay_nil ..))]
  simp only [write, hstop, hlen]
  split
  · rename_i hgrow
    obtain ⟨w, hw, hlist⟩ := resize_fits buffer h
    have hsize := size_of_resize _ hlist
    rw [if_neg (by omega), hw]
    simp only [hempty]
    refine ⟨w, rfl, ?_⟩
    rw [hlist, place, List.append_nil,
      List.drop_of_length_le (by simp only [Vec.size] at hgrow; omega), List.append_nil]
  · rename_i hin
    simp only [hempty]
    refine ⟨buffer, rfl, ((place_eq_self_iff ..).mpr ⟨?_, List.nil_prefix⟩).symm⟩
    simp only [Vec.size] at hin
    omega

/-- A write of any length that ends within the maximum size is a placement. -/
theorem write_place (buf : List UInt8) {o : Nat} (h : o + buf.length ≤ Buffer.maxSize) :
    ∃ b, write buffer buf o = .ok (b, buf.length) ∧ b.toList = place 0 buffer.toList o buf := by
  by_cases hempty : buf = []
  · subst hempty
    exact write_empty buffer h
  · rw [← overlay_eq_place _ _ _ hempty]
    exact write_fits buffer hempty h

/-- A write that ends beyond the maximum size is refused. -/
theorem write_full {o : Nat} (h : Buffer.maxSize < o + buf.length)
    (h' : o + buf.length < 9223372036854775808) :
    write buffer buf o = .ok (buffer, Errno.io.neg) := by
  have hsize := buffer.size_le_max
  have hstop : s64 ((o : Int) + buf.length) = (o + buf.length : Nat) := by
    rw [s64_of_mem (by omega) (by omega), Int.natCast_add]
  simp only [write, hstop]
  rw [if_pos (by omega), if_pos (by omega)]

/-- The end of a write wraps around, and the copy leaves the buffer. -/
theorem write_wraps {o : Nat} (ho : o < 9223372036854775808)
    (h : 9223372036854775808 ≤ o + buf.length) (hlen : buf.length < 4294967296) :
    write buffer buf o = .error .outOfBounds := by
  have hsize := buffer.size_le_max
  have hmax : Buffer.maxSize = 2147483647 := rfl
  have hstop : s64 ((o : Int) + buf.length) < 0 := by
    unfold s64
    omega
  have hb : buf ≠ [] := by
    intro hb
    rw [hb, List.length_nil] at h
    omega
  have hout : buffer.size < u32 (o : Int) + buf.length := by
    unfold u32
    omega
  simp only [write]
  rw [if_neg (by omega), copyIn_outside _ hb hout]

/-- A read is a slice. -/
theorem read_slice {o len : Nat} (ho : o < 9223372036854775808) (hlen : len < 4294967296) :
    read buffer len o = .ok (slice buffer.toList o len, (slice buffer.toList o len).length) := by
  have hsize := buffer.size_le_max
  have hmax : Buffer.maxSize = 2147483647 := rfl
  have hcount : readLength buffer len o = (slice buffer.toList o len).length := by
    rw [length_slice]
    change _ = min len (buffer.size - o)
    simp only [readLength]
    split
    · omega
    · rw [s64_of_mem (by omega) (by omega)]
      split
      · unfold u32
        omega
      · omega
  have hle : (slice buffer.toList o len).length = min len (buffer.size - o) := length_slice ..
  have hlen : s32 ((slice buffer.toList o len).length : Int) = (slice buffer.toList o len).length :=
    s32_of_mem (by omega) (by omega)
  have hcopy : copyOut buffer o (slice buffer.toList o len).length =
      .ok (slice buffer.toList o len) := by
    by_cases hnone : slice buffer.toList o len = []
    · rw [hnone, List.length_nil, copyOut_inside _ (Or.inl rfl), slice_zero]
    · have hpos := List.length_pos_of_ne_nil hnone
      have hindex : u32 (o : Int) = o := u32_of_lt (by omega)
      rw [copyOut_inside _ (Or.inr (by omega)), hindex, slice_length]
  simp only [read, hcount, hcopy, hlen]

/-! ## Offsets from 2^63 on -/

/-- The index of a negative offset. -/
theorem index_high (p : Nat) : u32 ((p : Int) - 18446744073709551616) = p % 4294967296 := by
  unfold u32
  omega

section

variable {p : Nat}

theorem write_high_inside (hp : 9223372036854775808 ≤ p) (hp' : p < 18446744073709551616)
    (h : buf = [] ∨ p % 4294967296 + buf.length ≤ buffer.size) :
    ∃ b, write buffer buf ((p : Int) - 18446744073709551616) = .ok (b, buf.length) ∧
      b.toList = overlay 0 buffer.toList (p % 4294967296) buf := by
  have hsize := buffer.size_le_max
  have hmax : Buffer.maxSize = 2147483647 := rfl
  have hsum : buf.length = 0 ∨ p % 4294967296 + buf.length ≤ buffer.size :=
    h.imp_left fun hb => List.length_eq_zero_iff.mpr hb
  have hstop : s64 ((p : Int) - 18446744073709551616 + buf.length) < 0 := by
    rw [s64_of_mem (by omega) (by omega)]
    omega
  have hlen : s32 (buf.length : Int) = buf.length := s32_of_mem (by omega) (by omega)
  obtain ⟨b, hc, hlist⟩ := copyIn_inside buffer buf
    ((p : Int) - 18446744073709551616) (by rw [index_high]; exact h)
  refine ⟨b, ?_, ?_⟩
  · simp only [write, hc, hlen]
    rw [if_neg (by omega)]
  · rw [hlist, index_high]

theorem write_high_full (hp : p < 18446744073709551616) (hlen : buf.length < 4294967296)
    (h : 18446744075857035264 ≤ p + buf.length) :
    write buffer buf ((p : Int) - 18446744073709551616) = .ok (buffer, Errno.io.neg) := by
  have hsize := buffer.size_le_max
  have hmax : Buffer.maxSize = 2147483647 := rfl
  have hstop : s64 ((p : Int) - 18446744073709551616 + buf.length) =
      (p : Int) - 18446744073709551616 + buf.length := s64_of_mem (by omega) (by omega)
  simp only [write, hstop]
  rw [if_pos (by omega), if_pos (by omega)]

theorem write_high_outside (hp : 9223372036854775808 ≤ p) (hp' : p < 18446744073709551616)
    (hlen : buf.length < 4294967296) (hb : buf ≠ [])
    (hout : buffer.size < p % 4294967296 + buf.length)
    (h : p + buf.length < 18446744075857035264) :
    write buffer buf ((p : Int) - 18446744073709551616) = .error .outOfBounds := by
  have hsize := buffer.size_le_max
  have hmax : Buffer.maxSize = 2147483647 := rfl
  have hstop : s64 ((p : Int) - 18446744073709551616 + buf.length) =
      (p : Int) - 18446744073709551616 + buf.length := s64_of_mem (by omega) (by omega)
  simp only [write, hstop]
  split
  · -- the buffer grows, but not as far as the index
    rename_i hgrow
    have hnat : (p : Int) - 18446744073709551616 + buf.length =
        (p + buf.length - 18446744073709551616 : Nat) := by omega
    obtain ⟨w, hw, hlist⟩ := resize_fits buffer
      (n := p + buf.length - 18446744073709551616) (by omega)
    have hsize' := size_of_resize _ hlist
    rw [if_neg (by omega), hnat, hw]
    simp only
    rw [copyIn_outside _ hb (by rw [index_high]; omega)]
  · rw [copyIn_outside _ hb (by rw [index_high]; exact hout)]

theorem read_high_inside {len : Nat} (hp : 9223372036854775808 ≤ p)
    (hp' : p < 18446744073709551616) (h : len = 0 ∨ p % 4294967296 + len ≤ buffer.size) :
    ∃ bytes, read buffer len ((p : Int) - 18446744073709551616) = .ok (bytes, len) := by
  have hsize := buffer.size_le_max
  have hmax : Buffer.maxSize = 2147483647 := rfl
  have hcount : readLength buffer len ((p : Int) - 18446744073709551616) = len := by
    simp only [readLength]
    rw [if_neg (by omega), s64_of_mem (by omega) (by omega), if_neg (by omega)]
  have hlen : s32 (len : Int) = len := s32_of_mem (by omega) (by omega)
  refine ⟨slice buffer.toList (p % 4294967296) len, ?_⟩
  simp only [read, hcount, hlen]
  rw [copyOut_inside _ (by rw [index_high]; exact h), index_high]

theorem read_high_outside (len : Nat) (hp : 9223372036854775808 ≤ p)
    (hp' : p < 18446744073709551616) (hlen : len < 4294967296) (hpos : len ≠ 0)
    (hout : buffer.size < p % 4294967296 + len) :
    read buffer len ((p : Int) - 18446744073709551616) = .error .outOfBounds := by
  have hsize := buffer.size_le_max
  have hmax : Buffer.maxSize = 2147483647 := rfl
  have hcount : readLength buffer len ((p : Int) - 18446744073709551616) ≠ 0 ∧
      buffer.size < p % 4294967296 +
        readLength buffer len ((p : Int) - 18446744073709551616) := by
    simp only [readLength]
    rw [if_neg (by omega), s64_of_mem (by omega) (by omega)]
    split
    · -- the number of bytes up to the end of the buffer wraps around
      unfold u32
      omega
    · exact ⟨hpos, hout⟩
  simp only [read]
  rw [copyOut_outside _ hcount.1 (by rw [index_high]; exact hcount.2)]

end

end MemoryDataFile

end WasmFS
