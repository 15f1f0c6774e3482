import Mathlib.Data.List.Basic

/-!
# Writing into and reading from a list at an offset

*Overlays.*  `overlay fill xs o ys` is the list `xs` after `ys` is written at
offset `o`: a gap between the end of `xs` and `o` is filled, elements at `o`
and after are replaced, and the list grows when `ys` reaches past its end.
Writing nothing changes nothing.  Two consecutive overlays are one overlay of the
concatenation (`overlay_append`).  A *placement* `place fill xs o ys` is the same,
except that placing nothing beyond the end fills the gap as well.  It is determined by
its elements (`getElem?_place`).

*Slices.*  `slice xs o n` is the longest prefix of `xs` from offset `o` that has
at most `n` elements.  Two consecutive slices are one slice of the sum
(`slice_append`).

*Vectors.*  `Vec α m` is a list that carries a proof that it never exceeds the
maximum size `m`.  Its operations answer `none` when they would leave the
vector (`Vec.copyIn`, `Vec.copyOut`) or exceed the maximum (`Vec.resize`).
Growing a vector and copying into it is an overlay (`Vec.toList_grow_copyIn`).
-/

namespace Lists

variable {α : Type}

/-! ## Overlays -/

/-- `xs` cut or filled to length `n`. -/
def resize (fill : α) (xs : List α) (n : Nat) : List α :=
  xs.take n ++ List.replicate (n - xs.length) fill

/-- `xs` after `ys` is written at offset `o`. -/
def overlay (fill : α) (xs : List α) (o : Nat) (ys : List α) : List α :=
  if ys = [] then xs
  else (resize fill xs o) ++ ys ++ xs.drop (o + ys.length)

@[simp] theorem length_resize (fill : α) (xs : List α) (n : Nat) :
    (resize fill xs n).length = n := by
  simp only [resize, List.length_append, List.length_take, List.length_replicate]
  omega

theorem getElem?_resize (fill : α) (xs : List α) (n i : Nat) :
    (resize fill xs n)[i]? = if i < n then some (xs[i]?.getD fill) else none := by
  unfold resize
  by_cases hi : i < (xs.take n).length
  · rw [List.getElem?_append_left hi]
    rw [List.length_take] at hi
    rw [List.getElem?_take_of_lt (by omega), if_pos (by omega),
      List.getElem?_eq_getElem (by omega)]
    rfl
  · rw [List.getElem?_append_right (by omega), List.getElem?_replicate]
    rw [List.length_take] at hi ⊢
    by_cases hn : i < n
    · rw [if_pos (by omega), if_pos hn, List.getElem?_eq_none (by omega)]
      rfl
    · rw [if_neg (by omega), if_neg hn]

@[simp] theorem overlay_nil (fill : α) (xs : List α) (o : Nat) : overlay fill xs o [] = xs :=
  if_pos rfl

theorem overlay_of_ne_nil (fill : α) (xs : List α) (o : Nat) {ys : List α} (h : ys ≠ []) :
    overlay fill xs o ys = resize fill xs o ++ ys ++ xs.drop (o + ys.length) :=
  if_neg h

/-! ## Placements -/

/-- `xs` with `ys` written at offset `o`, where a gap before `o` is filled even if `ys`
is empty. -/
def place (fill : α) (xs : List α) (o : Nat) (ys : List α) : List α :=
  resize fill xs o ++ ys ++ xs.drop (o + ys.length)

@[simp] theorem length_place (fill : α) (xs : List α) (o : Nat) (ys : List α) :
    (place fill xs o ys).length = max xs.length (o + ys.length) := by
  simp only [place, List.length_append, length_resize, List.length_drop]
  omega

/-- The elements of a placement: those of `ys` where it lies, those of `xs`
elsewhere, and the fill in the gap before it. -/
theorem getElem?_place (fill : α) (xs : List α) (o : Nat) (ys : List α) (i : Nat) :
    (place fill xs o ys)[i]? =
      if i < o then some (xs[i]?.getD fill)
      else if i < o + ys.length then ys[i - o]? else xs[i]? := by
  rw [place, List.append_assoc]
  by_cases ho : i < o
  · rw [List.getElem?_append_left (by simpa using ho), getElem?_resize, if_pos ho, if_pos ho]
  · rw [List.getElem?_append_right (by simpa using ho), length_resize, if_neg ho]
    by_cases hy : i < o + ys.length
    · rw [List.getElem?_append_left (by omega), if_pos hy]
    · rw [List.getElem?_append_right (by omega), if_neg hy, List.getElem?_drop]
      congr 1
      omega

/-- Two consecutive placements are one placement of the concatenation. -/
theorem place_append (fill : α) (xs : List α) (o : Nat) (ys zs : List α) :
    place fill (place fill xs o ys) (o + ys.length) zs = place fill xs o (ys ++ zs) := by
  apply List.ext_getElem?
  intro i
  rw [getElem?_place, getElem?_place, getElem?_place, List.length_append]
  by_cases h₁ : i < o
  · have h₂ : i < o + ys.length := by omega
    simp only [if_pos h₁, if_pos h₂]
    rfl
  by_cases h₂ : i < o + ys.length
  · have h₃ : i < o + (ys.length + zs.length) := by omega
    simp only [if_neg h₁, if_pos h₂, if_pos h₃]
    rw [List.getElem?_append_left (by omega), List.getElem?_eq_getElem (by omega)]
    rfl
  by_cases h₃ : i < o + (ys.length + zs.length)
  · have h₄ : i < o + ys.length + zs.length := by omega
    simp only [if_neg h₁, if_neg h₂, if_pos h₃, if_pos h₄]
    rw [List.getElem?_append_right (by omega)]
    congr 1
    omega
  · have h₄ : ¬ i < o + ys.length + zs.length := by omega
    simp only [if_neg h₁, if_neg h₂, if_neg h₃, if_neg h₄]

/-- A placement changes nothing exactly when there is no gap and the elements are
already there. -/
theorem place_eq_self_iff (fill : α) (xs : List α) (o : Nat) (ys : List α) :
    place fill xs o ys = xs ↔ o ≤ xs.length ∧ ys <+: xs.drop o := by
  constructor
  · intro h
    have hlen : o + ys.length ≤ xs.length := by
      have := length_place fill xs o ys
      rw [h] at this
      omega
    refine ⟨by omega, xs.drop (o + ys.length), ?_⟩
    have hdrop := congrArg (List.drop o) h
    rw [place, List.append_assoc, List.drop_append_of_le_length (by simp),
      List.drop_of_length_le (by simp), List.nil_append] at hdrop
    exact hdrop
  · rintro ⟨ho, rest, hrest⟩
    have hrest' : xs.drop (o + ys.length) = rest := by
      rw [← List.drop_drop, ← hrest, List.drop_left]
    rw [place, hrest', List.append_assoc, hrest, resize, Nat.sub_eq_zero_of_le ho,
      List.replicate_zero, List.append_nil, List.take_append_drop]

/-- Of something, a placement is an overlay. -/
theorem overlay_eq_place (fill : α) (xs : List α) (o : Nat) {ys : List α} (h : ys ≠ []) :
    overlay fill xs o ys = place fill xs o ys := overlay_of_ne_nil fill xs o h

theorem length_overlay (fill : α) (xs : List α) (o : Nat) {ys : List α} (h : ys ≠ []) :
    (overlay fill xs o ys).length = max xs.length (o + ys.length) := by
  rw [overlay_eq_place fill xs o h, length_place]

/-- An overlay inside the list keeps its length. -/
theorem length_overlay_inside (fill : α) {xs : List α} {o : Nat} {ys : List α}
    (h : ys = [] ∨ o + ys.length ≤ xs.length) : (overlay fill xs o ys).length = xs.length := by
  by_cases hy : ys = []
  · rw [hy, overlay_nil]
  · rw [length_overlay fill xs o hy]
    exact Nat.max_eq_left (h.resolve_left hy)

/-- Two consecutive writes are one write of the concatenation. -/
theorem overlay_append (fill : α) (xs : List α) (o : Nat) (ys zs : List α) :
    overlay fill (overlay fill xs o ys) (o + ys.length) zs = overlay fill xs o (ys ++ zs) := by
  by_cases hy : ys = []
  · subst hy
    simp
  by_cases hz : zs = []
  · subst hz
    simp
  have hyz : ys ++ zs ≠ [] := by simp [hy]
  rw [overlay_eq_place _ _ _ hz, overlay_eq_place _ _ _ hy, overlay_eq_place _ _ _ hyz,
    place_append]

/-! ## Slices -/

/-- The longest prefix of `xs` from offset `o` with at most `n` elements. -/
def slice (xs : List α) (o n : Nat) : List α := (xs.drop o).take n

@[simp] theorem length_slice (xs : List α) (o n : Nat) :
    (slice xs o n).length = min n (xs.length - o) := by
  simp [slice]

@[simp] theorem slice_zero (xs : List α) (o : Nat) : slice xs o 0 = [] := by
  simp [slice]

/-- A slice has as many elements as one that asks for just those. -/
theorem slice_length (xs : List α) (o n : Nat) :
    slice xs o (slice xs o n).length = slice xs o n := by
  rw [length_slice]
  by_cases h : n ≤ xs.length - o
  · rw [Nat.min_eq_left h]
  · rw [Nat.min_eq_right (by omega)]
    simp only [slice]
    rw [List.take_of_length_le (Nat.le_of_eq List.length_drop),
      List.take_of_length_le (by rw [List.length_drop]; omega)]

/-- Two consecutive reads are one read of the total length. -/
theorem slice_append (xs : List α) (o n m : Nat) :
    slice xs o n ++ slice xs (o + n) m = slice xs o (n + m) := by
  rw [slice, slice, slice, ← List.drop_drop, List.take_add]

/-- A read that stops short has reached the end. -/
theorem slice_of_short (xs : List α) (o n m : Nat) (h : xs.length - o ≤ n) :
    slice xs o (n + m) = slice xs o n := by
  rw [slice, slice, List.take_of_length_le (by simp; omega),
    List.take_of_length_le (by simp; omega)]

end Lists

/-! ## Vectors of bounded size -/

/-- A vector that never exceeds the maximum size `m`. -/
structure Vec (α : Type) (m : Nat) where
  /-- The elements. -/
  toList : List α
  /-- They fit in the container. -/
  size_le : toList.length ≤ m
deriving DecidableEq

namespace Vec

open Lists

variable {α : Type} {m : Nat}

@[ext] theorem ext {v w : Vec α m} (h : v.toList = w.toList) : v = w := by
  cases v
  cases w
  cases h
  rfl

/-- The empty vector. -/
def empty : Vec α m := ⟨[], Nat.zero_le m⟩

/-- The number of elements. -/
def size (v : Vec α m) : Nat := v.toList.length

theorem size_le_max (v : Vec α m) : v.size ≤ m := v.size_le

/-- Cut or fill the vector to `n` elements, if that many fit. -/
def resize? (fill : α) (v : Vec α m) (n : Nat) : Option (Vec α m) :=
  if h : n ≤ m then some ⟨resize fill v.toList n, by rw [length_resize]; exact h⟩ else none

/-- Copy `xs` over the elements from `i` on, if they all lie in the vector.
Copying nothing is always possible. -/
def copyIn? (v : Vec α m) (i : Nat) (xs : List α) : Option (Vec α m) :=
  if h : xs = [] ∨ i + xs.length ≤ v.size then
    some ⟨if xs = [] then v.toList else v.toList.take i ++ xs ++ v.toList.drop (i + xs.length), by
      have hv := v.size_le
      unfold size at h
      split
      · exact hv
      · simp only [List.length_append, List.length_take, List.length_drop]
        rcases h with h | h
        · contradiction
        · omega⟩
  else none

/-- Copy out the `n` elements from `i` on, if they all lie in the vector. -/
def copyOut? (v : Vec α m) (i n : Nat) : Option (List α) :=
  if n = 0 ∨ i + n ≤ v.size then some (slice v.toList i n) else none

theorem resize?_isSome (fill : α) (v : Vec α m) (n : Nat) :
    (v.resize? fill n).isSome ↔ n ≤ m := by
  unfold resize?
  split <;> simp_all

theorem toList_of_resize? {fill : α} {v w : Vec α m} {n : Nat} (h : v.resize? fill n = some w) :
    w.toList = resize fill v.toList n := by
  unfold resize? at h
  split at h
  · cases h
    rfl
  · cases h

/-- A copy into the vector is possible exactly when every index it touches is
an index of the vector. -/
theorem copyIn?_isSome (v : Vec α m) (i : Nat) (xs : List α) :
    (v.copyIn? i xs).isSome ↔ ∀ j, j < xs.length → i + j < v.size := by
  have hiff : (xs = [] ∨ i + xs.length ≤ v.size) ↔ ∀ j, j < xs.length → i + j < v.size := by
    constructor
    · rintro (rfl | h) j hj
      · cases hj
      · omega
    · intro h
      by_cases hx : xs = []
      · exact Or.inl hx
      · have hpos := List.length_pos_of_ne_nil hx
        have := h (xs.length - 1) (by omega)
        exact Or.inr (by omega)
  rw [← hiff]
  unfold copyIn?
  split <;> simp_all

theorem copyOut?_isSome (v : Vec α m) (i n : Nat) :
    (v.copyOut? i n).isSome ↔ ∀ j, j < n → i + j < v.size := by
  have hiff : (n = 0 ∨ i + n ≤ v.size) ↔ ∀ j, j < n → i + j < v.size := by
    constructor
    · rintro (rfl | h) j hj
      · cases hj
      · omega
    · intro h
      by_cases hn : n = 0
      · exact Or.inl hn
      · have := h (n - 1) (by omega)
        exact Or.inr (by omega)
  rw [← hiff]
  unfold copyOut?
  split <;> simp_all

theorem copyIn?_eq_none (v : Vec α m) (i : Nat) (xs : List α) :
    v.copyIn? i xs = none ↔ xs ≠ [] ∧ v.size < i + xs.length := by
  unfold copyIn?
  split
  · rename_i h
    simp only [reduceCtorEq, false_iff, not_and, Nat.not_lt]
    exact h.resolve_left
  · simp_all

theorem toList_of_copyIn? {v w : Vec α m} {i : Nat} {xs : List α} (fill : α)
    (h : v.copyIn? i xs = some w) : w.toList = overlay fill v.toList i xs := by
  unfold copyIn? at h
  split at h
  · rename_i hc
    cases h
    unfold size at hc
    by_cases hx : xs = []
    · simp [hx]
    · have hle : i ≤ v.toList.length := by
        rcases hc with hc | hc
        · contradiction
        · omega
      rw [overlay_of_ne_nil fill _ _ hx]
      simp [hx, resize, show i - v.toList.length = 0 by omega]
  · cases h

/-- Growing a vector up to the end of `xs` and copying `xs` there is writing
`xs` at that offset. -/
theorem toList_grow_copyIn {v w u : Vec α m} {fill : α} {i : Nat} {xs : List α} (hx : xs ≠ [])
    (hgrow : v.size ≤ i + xs.length) (hw : w.toList = resize fill v.toList (i + xs.length))
    (hu : w.copyIn? i xs = some u) : u.toList = overlay fill v.toList i xs := by
  rw [toList_of_copyIn? fill hu, hw]
  unfold size at hgrow
  rw [overlay_of_ne_nil fill _ _ hx, overlay_of_ne_nil fill _ _ hx,
    List.drop_of_length_le (by simp), List.drop_of_length_le (by omega)]
  congr 2
  apply List.ext_getElem?
  intro j
  rw [getElem?_resize, getElem?_resize, getElem?_resize]
  by_cases hj : j < i
  · rw [if_pos hj, if_pos hj, if_pos (by omega)]
    rfl
  · rw [if_neg hj, if_neg hj]

end Vec
