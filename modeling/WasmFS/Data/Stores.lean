import WasmFS.Data.Loops

/-!
# What a write stores

A segment of a write to a memory file fits, is refused, or makes the copy leave the
buffer (`Fits`, `Refuses`).  Below 2^63 a segment that fits is a placement, so an empty
segment beyond the end grows the file.  From 2^63 on it is an overlay at the offset
modulo 2^32.  The segments that are stored before the loop ends are one segment
(`writeLoop_stored`), and what is stored when it ends, and why it ends, is said once for
all its exits (`writeLoop_stores`).
-/

namespace WasmFS

open Lists

variable {host : Host} {s s' : State} {f : FileId} {buffer : Buffer}

/-! ## One segment -/

namespace MemoryDataFile

/-- A segment of `len` bytes at `p` is stored in a buffer of `size` bytes. -/
def Fits (size p len : Nat) : Prop :=
  if p < 9223372036854775808 then p + len ≤ Buffer.maxSize
  else len = 0 ∨ p % 4294967296 + len ≤ size

/-- A segment of `len` bytes at `p` is refused. -/
def Refuses (p len : Nat) : Prop :=
  if p < 9223372036854775808 then
    Buffer.maxSize < p + len ∧ p + len < 9223372036854775808
  else 18446744075857035264 ≤ p + len

/-- The bytes of the file after the segment `ys` is stored at `p`. -/
def put (xs : List UInt8) (p : Nat) (ys : List UInt8) : List UInt8 :=
  if p < 9223372036854775808 then place 0 xs p ys else overlay 0 xs (p % 4294967296) ys

theorem put_low {p : Nat} (xs ys : List UInt8) (h : p < 9223372036854775808) :
    put xs p ys = place 0 xs p ys := if_pos h

theorem put_high {p : Nat} (xs ys : List UInt8) (h : ¬ p < 9223372036854775808) :
    put xs p ys = overlay 0 xs (p % 4294967296) ys := if_neg h

theorem length_put {xs ys : List UInt8} {p : Nat} (h : Fits xs.length p ys.length) :
    (put xs p ys).length =
      if p < 9223372036854775808 then max xs.length (p + ys.length) else xs.length := by
  simp only [Fits] at h
  simp only [put]
  split at h
  · rename_i hlow
    rw [if_pos hlow, if_pos hlow, length_place]
  · rename_i hhigh
    rw [if_neg hhigh, if_neg hhigh, length_overlay_inside 0 (h.imp_left List.length_eq_zero_iff.mp)]

/-- Nothing fits after a segment that fits. -/
theorem Fits.nothing {size p len : Nat} (h : Fits size p len) (size' : Nat) :
    Fits size' (p + len) 0 := by
  have hmax : Buffer.maxSize = 2147483647 := rfl
  unfold Fits at h ⊢
  split at h <;> split <;> omega

/-- Two segments fit if the first fits and then the second. -/
theorem fits_add_iff {xs ys : List UInt8} {p n : Nat} (hsize : xs.length ≤ Buffer.maxSize) :
    Fits xs.length p (ys.length + n) ↔
      Fits xs.length p ys.length ∧ Fits (put xs p ys).length (p + ys.length) n := by
  have hmax : Buffer.maxSize = 2147483647 := rfl
  constructor
  · intro h
    have hfirst : Fits xs.length p ys.length := by
      unfold Fits at h ⊢
      split at h <;> split <;> omega
    refine ⟨hfirst, ?_⟩
    rw [length_put hfirst]
    unfold Fits at h ⊢
    split at h <;> split <;> omega
  · rintro ⟨hfirst, hrest⟩
    rw [length_put hfirst] at hrest
    unfold Fits at hfirst hrest ⊢
    split at hfirst <;> split at hrest <;> split <;> omega

theorem put_append {xs ys : List UInt8} {p : Nat} (zs : List UInt8)
    (hsize : xs.length ≤ Buffer.maxSize) (h : Fits xs.length p ys.length) :
    put (put xs p ys) (p + ys.length) zs = put xs p (ys ++ zs) := by
  have hmax : Buffer.maxSize = 2147483647 := rfl
  unfold Fits at h
  by_cases hlow : p < 9223372036854775808
  · rw [if_pos hlow] at h
    rw [put_low _ _ hlow, put_low _ _ (by omega), put_low _ _ hlow, place_append]
  · rw [if_neg hlow] at h
    rw [put_high _ _ hlow, put_high _ _ (by omega), put_high _ _ hlow]
    rcases h with hnil | hin
    · rw [List.length_eq_zero_iff.mp hnil, overlay_nil]
      rfl
    · have hmod : (p + ys.length) % 4294967296 = p % 4294967296 + ys.length := by
        have hle := Nat.le_trans hin hsize
        omega
      rw [hmod, overlay_append]

/-- Storing a segment changes nothing exactly when its bytes are there and, below 2^63,
it does not lie beyond the end. -/
theorem put_eq_self_iff {xs ys : List UInt8} {p : Nat}
    (h : Fits xs.length p ys.length) : put xs p ys = xs ↔
      (p < 9223372036854775808 → p ≤ xs.length) ∧ ys <+: xs.drop (p % 4294967296) := by
  have hmax : Buffer.maxSize = 2147483647 := rfl
  unfold Fits at h
  by_cases hlow : p < 9223372036854775808
  · rw [if_pos hlow] at h
    rw [put_low _ _ hlow, place_eq_self_iff, Nat.mod_eq_of_lt (by omega), imp_iff_right hlow]
  · rw [if_neg hlow] at h
    rw [put_high _ _ hlow, and_iff_right fun hp => absurd hp hlow]
    by_cases hnil : ys = []
    · subst hnil
      exact iff_of_true (overlay_nil ..) List.nil_prefix
    · have hin := h.resolve_left fun hlen => hnil (List.length_eq_zero_iff.mp hlen)
      rw [overlay_eq_place _ _ _ hnil, place_eq_self_iff, and_iff_right (by omega)]

end MemoryDataFile

open MemoryDataFile

section

variable {offset w : Nat}

/-- The offset that a segment gets. -/
theorem signed_eq (h : offset + w < 18446744073709551616) :
    s64 (u64 ((offset : Int) + w)) =
      if offset + w < 9223372036854775808 then ((offset + w : Nat) : Int)
      else ((offset + w : Nat) : Int) - 18446744073709551616 := by
  split
  · rename_i hlow
    exact signed_low hlow
  · rename_i hhigh
    exact signed_high (Nat.le_of_not_lt hhigh) h

theorem DataFile.write_of_fits (host : Host) {buf : List UInt8}
    (hb : (s.files f).body = .memory buffer) (hp : offset + w < 18446744073709551616)
    (h : Fits buffer.size (offset + w) buf.length) :
    ∃ b, DataFile.write host s f buf (s64 (u64 (offset + w))) =
        .ok (s.modify f fun x => x.setBuffer b, buf.length) ∧
      b.toList = put buffer.toList (offset + w) buf := by
  unfold Fits at h
  by_cases hlow : offset + w < 9223372036854775808
  · rw [if_pos hlow] at h
    obtain ⟨b, hw, hlist⟩ := MemoryDataFile.write_place buffer buf h
    rw [signed_eq hp, if_pos hlow, put_low _ _ hlow]
    exact ⟨b, DataFile.write_memory hb hw, hlist⟩
  · rw [if_neg hlow] at h
    obtain ⟨b, hw, hlist⟩ := MemoryDataFile.write_high_inside buffer (Nat.le_of_not_lt hlow) hp
      (h.imp_left List.length_eq_zero_iff.mp)
    rw [signed_eq hp, if_neg hlow, put_high _ _ hlow]
    exact ⟨b, DataFile.write_memory hb hw, hlist⟩

theorem DataFile.write_of_refuses (host : Host) {buf : List UInt8}
    (hb : (s.files f).body = .memory buffer) (hp : offset + w < 18446744073709551616)
    (hlen : buf.length < 4294967296) (h : Refuses (offset + w) buf.length) :
    DataFile.write host s f buf (s64 (u64 (offset + w))) = .ok (s, Errno.io.neg) := by
  have hself := State.setBuffer_self hb
  unfold Refuses at h
  by_cases hlow : offset + w < 9223372036854775808
  · rw [if_pos hlow] at h
    rw [signed_eq hp, if_pos hlow,
      DataFile.write_memory hb (MemoryDataFile.write_full buffer h.1 h.2), hself]
  · rw [if_neg hlow] at h
    rw [signed_eq hp, if_neg hlow,
      DataFile.write_memory hb (MemoryDataFile.write_high_full buffer hp hlen h), hself]

/-- A segment that neither fits nor is refused leaves the buffer. -/
theorem DataFile.write_of_neither (host : Host) {buf : List UInt8}
    (hb : (s.files f).body = .memory buffer) (hp : offset + w < 18446744073709551616)
    (hlen : buf.length < 4294967296) (hfits : ¬ Fits buffer.size (offset + w) buf.length)
    (hrefuses : ¬ Refuses (offset + w) buf.length) :
    DataFile.write host s f buf (s64 (u64 (offset + w))) = .error .outOfBounds := by
  have hmax : Buffer.maxSize = 2147483647 := rfl
  unfold Fits at hfits
  unfold Refuses at hrefuses
  by_cases hlow : offset + w < 9223372036854775808
  · rw [if_pos hlow] at hfits hrefuses
    rw [signed_eq hp, if_pos hlow]
    exact DataFile.write_memory_fault hb
      (MemoryDataFile.write_wraps buffer hlow (by omega) hlen)
  · rw [if_neg hlow] at hfits hrefuses
    rw [signed_eq hp, if_neg hlow]
    refine DataFile.write_memory_fault hb
      (MemoryDataFile.write_high_outside buffer (by omega) hp hlen ?_ (by omega) (by omega))
    rintro rfl
    exact hfits (Or.inl rfl)

end

/-! ## The loop -/

/-- The bytes of the file after the segments `pre` are stored from `p` on. -/
def putAll (xs : List UInt8) (p : Nat) (pre : List CIovec) : List UInt8 :=
  if pre = [] then xs else put xs p (CIovec.concat pre)

/-- The segments pass the null check, and all of them fit. -/
structure Storable (size p : Nat) (pre : List CIovec) : Prop where
  readable : ∀ iov ∈ pre, ¬ iov.Unreadable
  fits : pre = [] ∨ Fits size p (CIovec.concat pre).length

theorem storable_cons_iff {xs : List UInt8} {p : Nat} {iov : CIovec} {pre : List CIovec}
    (hsize : xs.length ≤ Buffer.maxSize) : Storable xs.length p (iov :: pre) ↔
      ¬ iov.Unreadable ∧ Fits xs.length p iov.bytes.length ∧
        Storable (put xs p iov.bytes).length (p + iov.bytes.length) pre := by
  have hmax : Buffer.maxSize = 2147483647 := rfl
  have hadd : Fits xs.length p (iov.bytes.length + (CIovec.concat pre).length) ↔ _ :=
    fits_add_iff hsize
  constructor
  · rintro ⟨hreadable, hfits⟩
    have hboth := hfits.resolve_left (List.cons_ne_nil _ _)
    rw [CIovec.concat_cons, List.length_append, hadd] at hboth
    exact ⟨hreadable iov List.mem_cons_self, hboth.1,
      fun iov' h' => hreadable iov' (.tail _ h'), Or.inr hboth.2⟩
  · rintro ⟨hiov, hfirst, hreadable, hrest⟩
    refine ⟨fun iov' h' => ?_, Or.inr ?_⟩
    · cases h' with
      | head => exact hiov
      | tail _ h' => exact hreadable iov' h'
    · rw [CIovec.concat_cons, List.length_append, hadd]
      refine ⟨hfirst, hrest.elim (fun hnil => ?_) id⟩
      subst hnil
      exact hfirst.nothing _

theorem putAll_cons {xs : List UInt8} {p : Nat} {iov : CIovec} (pre : List CIovec)
    (hsize : xs.length ≤ Buffer.maxSize) (h : Fits xs.length p iov.bytes.length) :
    putAll (put xs p iov.bytes) (p + iov.bytes.length) pre = putAll xs p (iov :: pre) := by
  unfold putAll
  rw [if_neg (List.cons_ne_nil _ _), CIovec.concat_cons]
  split
  · rename_i hnil
    subst hnil
    simp [CIovec.concat]
  · exact put_append _ hsize h

/-- What a segment that fits adds to a count leaves it in bounds. -/
theorem count_bounds {size offset w len : Nat} (hsize : size ≤ Buffer.maxSize)
    (hp : offset + w < 18446744073709551616) (hw : w ≤ (offset + w) % 4294967296)
    (h : Fits size (offset + w) len) : w + len < 4294967296 ∧
      offset + (w + len) < 18446744073709551616 ∧ w + len ≤ (offset + (w + len)) % 4294967296 := by
  have hmax : Buffer.maxSize = 2147483647 := rfl
  unfold Fits at h
  split at h <;> omega

/-- The segments before the loop ends are stored as one. -/
theorem writeLoop_stored (host : Host) {offset w : Nat} {pre : List CIovec}
    (rest : List CIovec) (hb : (s.files f).body = .memory buffer)
    (hp : offset + w < 18446744073709551616) (hw : w ≤ (offset + w) % 4294967296)
    (h : Storable buffer.size (offset + w) pre) :
    ∃ b, writeLoop host f offset (pre ++ rest) w s =
        writeLoop host f offset rest (w + (CIovec.concat pre).length)
          (s.modify f fun x => x.setBuffer b) ∧
      b.toList = putAll buffer.toList (offset + w) pre := by
  induction pre generalizing s buffer w with
  | nil => exact ⟨buffer, by rw [State.setBuffer_self hb]; rfl, rfl⟩
  | cons iov pre ih =>
      have hsize := buffer.size_le
      obtain ⟨hiov, hfirst, hrest⟩ := (storable_cons_iff hsize).mp h
      obtain ⟨b₁, hstore, hlist₁⟩ := DataFile.write_of_fits host hb hp hfirst
      obtain ⟨hsum, hp₁, hw₁⟩ := count_bounds hsize hp hw hfirst
      rw [Nat.add_assoc, ← hlist₁] at hrest
      obtain ⟨b, hloop, hlist⟩ := ih (State.body_setBuffer hb) hp₁ hw₁ hrest
      refine ⟨b, ?_, ?_⟩
      · rw [List.cons_append, writeLoop_go hiov (addWillOverFlow_eq_false hp) hstore hsum, hloop,
          State.setBuffer_setBuffer, CIovec.concat_cons, List.length_append, Nat.add_assoc]
      · rw [hlist, hlist₁, ← Nat.add_assoc, putAll_cons pre hsize hfirst]

/-- How the loop ends in front of `rest`, when it is at the offset `p` and has written `w`
bytes. -/
inductive LoopEnds (p w : Nat) : List CIovec → Except Int Nat → Prop where
  | done : LoopEnds p w [] (.ok w)
  | unreadable {iov : CIovec} {rest : List CIovec} : iov.Unreadable →
      LoopEnds p w (iov :: rest) (.error Errno.inval.code)
  | refused {iov : CIovec} {rest : List CIovec} : ¬ iov.Unreadable →
      Refuses p iov.bytes.length →
      LoopEnds p w (iov :: rest) (if w > 0 then .ok w else .error Errno.io.code)

theorem writeLoop_of_ends (host : Host) {offset w : Nat} {rest : List CIovec}
    {out : Except Int Nat} (hb : (s.files f).body = .memory buffer)
    (hp : offset + w < 18446744073709551616) (h : LoopEnds (offset + w) w rest out) :
    writeLoop host f offset rest w s = .ok (s, out) := by
  cases h with
  | done => rfl
  | unreadable hiov =>
      simp only [writeLoop]
      rw [if_pos hiov]
  | @refused iov rest hiov hrefuses =>
      have hw := DataFile.write_of_refuses host hb hp iov.len_lt hrefuses
      exact writeLoop_refused rest hiov (addWillOverFlow_eq_false hp) hw

/-- Some segments are stored, and the loop ends in front of the next. -/
def LoopStores (s s' : State) (f : FileId) (buffer : Buffer) (p w : Nat) (iovs : List CIovec)
    (out : Except Int Nat) : Prop :=
  ∃ pre rest b, iovs = pre ++ rest ∧ Storable buffer.size p pre ∧
    b.toList = putAll buffer.toList p pre ∧ s' = (s.modify f fun x => x.setBuffer b) ∧
    LoopEnds (p + (CIovec.concat pre).length) (w + (CIovec.concat pre).length) rest out

/-- The loop ends at once. -/
theorem LoopStores.stop {p w : Nat} {iovs : List CIovec} {out : Except Int Nat}
    (hb : (s.files f).body = .memory buffer) (h : LoopEnds p w iovs out) :
    LoopStores s s f buffer p w iovs out :=
  ⟨[], iovs, buffer, rfl, ⟨nofun, Or.inl rfl⟩, rfl, (State.setBuffer_self hb).symm, h⟩

/-- A segment is stored, and then what the rest of the loop stores. -/
theorem LoopStores.cons {p w : Nat} {iov : CIovec} {iovs : List CIovec} {out : Except Int Nat}
    {b : Buffer} (hiov : ¬ iov.Unreadable) (hfits : Fits buffer.size p iov.bytes.length)
    (hlist : b.toList = put buffer.toList p iov.bytes)
    (h : LoopStores (s.modify f fun x => x.setBuffer b) s' f b (p + iov.bytes.length)
      (w + iov.bytes.length) iovs out) : LoopStores s s' f buffer p w (iov :: iovs) out := by
  obtain ⟨pre, rest, b', rfl, hpre, hlist', rfl, hends⟩ := h
  have hsize := buffer.size_le
  refine ⟨iov :: pre, rest, b', rfl, ?_, ?_, State.setBuffer_setBuffer s f b b', ?_⟩
  · refine (storable_cons_iff hsize).mpr ⟨hiov, hfits, ?_⟩
    rw [← hlist]
    exact hpre
  · rw [hlist', hlist, putAll_cons pre hsize hfits]
  · rw [CIovec.concat_cons, List.length_append, ← Nat.add_assoc, ← Nat.add_assoc]
    exact hends

/-- Every exit of the loop is of this kind. -/
theorem writeLoop_stores {offset w : Nat} {iovs : List CIovec} {out : Except Int Nat}
    (hb : (s.files f).body = .memory buffer) (hp : offset + w < 18446744073709551616)
    (hw : w ≤ (offset + w) % 4294967296)
    (h : writeLoop host f offset iovs w s = .ok (s', out)) :
    LoopStores s s' f buffer (offset + w) w iovs out := by
  induction iovs generalizing s buffer w with
  | nil =>
      cases h
      exact .stop hb .done
  | cons iov iovs ih =>
      have hsize := buffer.size_le
      have hover := addWillOverFlow_eq_false hp
      by_cases hiov : iov.Unreadable
      · simp only [writeLoop] at h
        rw [if_pos hiov] at h
        cases h
        exact .stop hb (.unreadable hiov)
      by_cases hfits : Fits buffer.size (offset + w) iov.bytes.length
      · obtain ⟨b, hstore, hlist⟩ := DataFile.write_of_fits host hb hp hfits
        obtain ⟨hsum, hp', hw'⟩ := count_bounds hsize hp hw hfits
        rw [writeLoop_go hiov hover hstore hsum] at h
        have hrest := ih (State.body_setBuffer hb) hp' hw' h
        rw [← Nat.add_assoc] at hrest
        exact hrest.cons hiov hfits hlist
      by_cases hrefuses : Refuses (offset + w) iov.bytes.length
      · have hwrite := DataFile.write_of_refuses host hb hp iov.len_lt hrefuses
        rw [writeLoop_refused iovs hiov hover hwrite] at h
        cases h
        exact .stop hb (.refused hiov hrefuses)
      · have hwrite := DataFile.write_of_neither host hb hp iov.len_lt hfits hrefuses
        rw [writeLoop_fault hiov hover hwrite] at h
        cases h

end WasmFS
