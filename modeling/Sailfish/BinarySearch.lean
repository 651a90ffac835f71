import Sailfish.Crypto

/-!
# Binary search

`VotesAggregator::append` finds a voter's bit with `slice::binary_search` on the sorted
BLS keys.  This module models the standard library's loop: a half-open window
`[left, right)`, the midpoint `left + size / 2`, a three-way comparison, `Ok(mid)` on a
match and `Err(left)` once the window is empty.  On a slice sorted without repeats, a
key that occurs is found at its index.
-/

namespace Sailfish

section BinarySearch

variable {α : Type} [LinearOrder α]

/-- The `while left < right` loop of `binary_search`.  The bound `right ≤ s.length`
keeps every read in bounds. -/
def binarySearchLoop (s : List α) (key : α) (left right : Nat) (h : right ≤ s.length) :
    Except Nat Nat :=
  if hlt : left < right then
    let mid := left + (right - left) / 2
    have hmid : mid < s.length := by omega
    match compare s[mid] key with
    | .lt => binarySearchLoop s key (mid + 1) right h
    | .gt => binarySearchLoop s key left mid (by omega)
    | .eq => .ok mid
  else .error left
termination_by right - left

/-- `<[T]>::binary_search`. -/
def binarySearch (s : List α) (key : α) : Except Nat Nat :=
  binarySearchLoop s key 0 s.length (Nat.le_refl _)

/-- An index the loop returns holds the key, whether or not the slice is sorted. -/
theorem binarySearchLoop_ok {s : List α} {key : α} {left right : Nat}
    {h : right ≤ s.length} {i : Nat} (hok : binarySearchLoop s key left right h = .ok i) :
    s[i]? = some key := by
  induction left, right, h using binarySearchLoop.induct s key with
  | case1 left right h hlt mid hmid hcmp ih =>
      rw [binarySearchLoop, dif_pos hlt] at hok
      simp only [hcmp] at hok
      exact ih hok
  | case2 left right h hlt mid hmid hcmp ih =>
      rw [binarySearchLoop, dif_pos hlt] at hok
      simp only [hcmp] at hok
      exact ih hok
  | case3 left right h hlt mid hmid hcmp =>
      rw [binarySearchLoop, dif_pos hlt] at hok
      simp only [hcmp, Except.ok.injEq] at hok
      subst hok
      rw [List.getElem?_eq_getElem hmid, compare_eq_iff_eq.mp hcmp]
  | case4 left right h hlt =>
      rw [binarySearchLoop, dif_neg hlt] at hok
      cases hok

theorem getElem_le_getElem_of_pairwise_lt {s : List α} (hs : s.Pairwise (· < ·)) {i j : Nat}
    (hi : i < s.length) (hj : j < s.length) (hij : i ≤ j) : s[i] ≤ s[j] := by
  rcases Nat.lt_or_eq_of_le hij with hlt | rfl
  · exact (List.pairwise_iff_getElem.mp hs _ _ hi hj hlt).le
  · rfl

theorem binarySearchLoop_isOk {s : List α} (hs : s.Pairwise (· < ·)) {key : α}
    {left right : Nat} {h : right ≤ s.length} {k : Nat} (hleft : left ≤ k) (hright : k < right)
    (hk : s[k]? = some key) : ∃ i, binarySearchLoop s key left right h = .ok i := by
  have hkl : k < s.length := by omega
  have hkey : s[k] = key := by simpa [List.getElem?_eq_getElem hkl] using hk
  induction left, right, h using binarySearchLoop.induct s key with
  | case1 left right h hlt mid hmid hcmp ih =>
      rw [binarySearchLoop, dif_pos hlt]
      simp only [hcmp]
      refine ih (Nat.lt_of_not_le fun hkm => ?_) hright
      exact not_lt.mpr (hkey ▸ getElem_le_getElem_of_pairwise_lt hs hkl hmid hkm)
        (compare_lt_iff_lt.mp hcmp)
  | case2 left right h hlt mid hmid hcmp ih =>
      rw [binarySearchLoop, dif_pos hlt]
      simp only [hcmp]
      refine ih hleft (Nat.lt_of_not_le fun hmk => ?_)
      exact not_lt.mpr (hkey ▸ getElem_le_getElem_of_pairwise_lt hs hmid hkl hmk)
        (compare_gt_iff_gt.mp hcmp)
  | case3 left right h hlt mid hmid hcmp =>
      rw [binarySearchLoop, dif_pos hlt]
      simp only [hcmp]
      exact ⟨mid, rfl⟩
  | case4 left right h hlt => omega

theorem binarySearch_eq_ok_of_mem {s : List α} (hs : s.Pairwise (· < ·)) {key : α}
    (hkey : key ∈ s) : ∃ i, binarySearch s key = .ok i ∧ s[i]? = some key := by
  obtain ⟨k, hk, rfl⟩ := List.getElem_of_mem hkey
  obtain ⟨i, hi⟩ := binarySearchLoop_isOk (h := Nat.le_refl _) hs (Nat.zero_le k) hk
    (List.getElem?_eq_getElem hk)
  exact ⟨i, hi, binarySearchLoop_ok hi⟩

theorem binarySearchLoop_error {s : List α} (hs : s.Pairwise (· < ·)) {key : α}
    {left right : Nat} {h : right ≤ s.length} {i : Nat} (hle : left ≤ right)
    (hbelow : ∀ j (hj : j < s.length), j < left → s[j] < key)
    (habove : ∀ j (hj : j < s.length), right ≤ j → key < s[j])
    (herr : binarySearchLoop s key left right h = .error i) :
    i ≤ s.length ∧ (∀ j (hj : j < s.length), j < i → s[j] < key) ∧
      ∀ j (hj : j < s.length), i ≤ j → key < s[j] := by
  induction left, right, h using binarySearchLoop.induct s key with
  | case1 left right h hlt mid hmid hcmp ih =>
      rw [binarySearchLoop, dif_pos hlt] at herr
      simp only [hcmp] at herr
      have hless : s[mid] < key := compare_lt_iff_lt.mp hcmp
      exact ih (by omega) (fun j hj hjm =>
        lt_of_le_of_lt (getElem_le_getElem_of_pairwise_lt hs hj hmid (by omega)) hless) habove herr
  | case2 left right h hlt mid hmid hcmp ih =>
      rw [binarySearchLoop, dif_pos hlt] at herr
      simp only [hcmp] at herr
      have hmore : key < s[mid] := compare_gt_iff_gt.mp hcmp
      exact ih (by omega) hbelow
        (fun j hj hmj => lt_of_lt_of_le hmore (getElem_le_getElem_of_pairwise_lt hs hmid hj hmj))
        herr
  | case3 left right h hlt mid hmid hcmp =>
      rw [binarySearchLoop, dif_pos hlt] at herr
      simp only [hcmp] at herr
      cases herr
  | case4 left right h hlt =>
      rw [binarySearchLoop, dif_neg hlt] at herr
      cases herr
      exact ⟨by omega, hbelow, fun j hj hij => habove j hj (by omega)⟩

theorem binarySearch_ok_or_insertion_point {s : List α} (hs : s.Pairwise (· < ·)) (key : α) :
    (key ∈ s → ∃ i, binarySearch s key = .ok i ∧ s[i]? = some key) ∧
    (key ∉ s → ∃ i, binarySearch s key = .error i ∧ i ≤ s.length ∧
      (∀ j (hj : j < s.length), j < i → s[j] < key) ∧
      ∀ j (hj : j < s.length), i ≤ j → key < s[j]) := by
  refine ⟨binarySearch_eq_ok_of_mem hs, fun hkey => ?_⟩
  cases hsearch : binarySearch s key with
  | ok i => exact absurd (List.getElem?_mem (binarySearchLoop_ok hsearch)) hkey
  | error i =>
      exact ⟨i, rfl, binarySearchLoop_error hs (Nat.zero_le _)
        (fun _ _ hj => absurd hj (Nat.not_lt_zero _)) (fun _ hj hle => absurd hj (by omega))
        hsearch⟩

end BinarySearch

/-- Searching `[1, 3, 5]` for 4, which it lacks. -/
theorem binarySearch_one_three_five_four :
    [1, 3, 5].Pairwise (· < ·) ∧
      ((4 : Nat) ∈ [1, 3, 5] → ∃ i, binarySearch [1, 3, 5] 4 = .ok i ∧ [1, 3, 5][i]? = some 4) ∧
      ((4 : Nat) ∉ [1, 3, 5] → ∃ i, binarySearch [1, 3, 5] 4 = .error i ∧ i ≤ [1, 3, 5].length ∧
        (∀ j (hj : j < [1, 3, 5].length), j < i → [1, 3, 5][j] < 4) ∧
        ∀ j (hj : j < [1, 3, 5].length), i ≤ j → 4 < [1, 3, 5][j]) :=
  ⟨by decide, binarySearch_ok_or_insertion_point (by decide) 4⟩

end Sailfish
