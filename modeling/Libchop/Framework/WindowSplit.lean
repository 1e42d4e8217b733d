import Mathlib.Algebra.GroupWithZero.Nat
import Mathlib.Tactic.Common

/-!
# Splitting a list at windows

A list is cut after the first window of a given width that a predicate accepts, and what is left
is split again; without such a window the rest is one piece.
-/

namespace WindowSplit

variable {α : Type} (anchor : List α → Bool) (width : Nat)

def window (xs : List α) (p : Nat) : List α := (xs.drop p).take width

def cut (xs : List α) : Nat :=
  match (List.range (xs.length + 1 - width)).find? fun p => anchor (window width xs p) with
  | some p => p + width
  | none => xs.length

def splitWithin : Nat → List α → List (List α)
  | 0, _ => []
  | _ + 1, [] => []
  | n + 1, x :: xs =>
    (x :: xs).take (cut anchor width (x :: xs)) ::
      splitWithin n ((x :: xs).drop (cut anchor width (x :: xs)))

/-- The pieces of a list; their number is at most its length. -/
def split (xs : List α) : List (List α) := splitWithin anchor width xs.length xs

variable {anchor width}

theorem cut_of_anchor {xs : List α} {p : Nat} (hfits : p + width ≤ xs.length)
    (hanchor : anchor (window width xs p) = true)
    (hfirst : ∀ q < p, anchor (window width xs q) = false) : cut anchor width xs = p + width := by
  have hfind : (List.range (xs.length + 1 - width)).find?
      (fun p => anchor (window width xs p)) = some p := by
    rw [List.find?_range_eq_some]
    refine ⟨hanchor, List.mem_range.mpr (by omega), ?_⟩
    intro q hq
    simp [hfirst q hq]
  simp [cut, hfind]

theorem cut_of_no_anchor {xs : List α}
    (hnone : ∀ q, q + width ≤ xs.length → anchor (window width xs q) = false) :
    cut anchor width xs = xs.length := by
  have hfind : (List.range (xs.length + 1 - width)).find?
      (fun p => anchor (window width xs p)) = none := by
    rw [List.find?_range_eq_none]
    intro q hq
    simp [hnone q (by omega)]
  simp [cut, hfind]

/-- With windows of positive width every piece takes something. -/
theorem cut_pos (anchor : List α → Bool) (hwidth : 0 < width) {xs : List α} (hne : xs ≠ []) :
    0 < cut anchor width xs := by
  unfold cut
  split
  · omega
  · exact List.length_pos_iff.mpr hne

theorem splitWithin_eq (hwidth : 0 < width) {n m : Nat} {xs : List α} (hn : xs.length ≤ n)
    (hm : xs.length ≤ m) : splitWithin anchor width n xs = splitWithin anchor width m xs := by
  induction n generalizing m xs with
  | zero =>
    have hnil : xs = [] := List.eq_nil_of_length_eq_zero (by omega)
    subst hnil
    cases m with
    | zero => rfl
    | succ m => rfl
  | succ n ih =>
    cases xs with
    | nil =>
      cases m with
      | zero => rfl
      | succ m => rfl
    | cons x xs =>
      cases m with
      | zero => simp at hm
      | succ m =>
        have hpos := cut_pos anchor hwidth (List.cons_ne_nil x xs)
        rw [splitWithin, splitWithin]
        rw [List.length_cons] at hn hm
        congr 1
        apply ih
        · rw [List.length_drop, List.length_cons]
          omega
        · rw [List.length_drop, List.length_cons]
          omega

@[simp] theorem split_nil : split anchor width ([] : List α) = [] := rfl

theorem split_eq (hwidth : 0 < width) {xs : List α} (hne : xs ≠ []) :
    split anchor width xs = xs.take (cut anchor width xs) ::
      split anchor width (xs.drop (cut anchor width xs)) := by
  cases xs with
  | nil => exact (hne rfl).elim
  | cons x xs =>
    have hpos := cut_pos anchor hwidth hne
    unfold split
    rw [List.length_cons, splitWithin]
    congr 1
    apply splitWithin_eq hwidth
    · rw [List.length_drop, List.length_cons]
      omega
    · exact Nat.le_refl _

theorem split_flatten (hwidth : 0 < width) (xs : List α) :
    (split anchor width xs).flatten = xs := by
  induction hlen : xs.length using Nat.strongRecOn generalizing xs with
  | ind n ih =>
    by_cases hne : xs = []
    · simp [hne]
    · have hpos := cut_pos anchor hwidth hne
      have hlt : (xs.drop (cut anchor width xs)).length < n := by
        have hxs := List.length_pos_iff.mpr hne
        rw [List.length_drop]
        omega
      rw [split_eq hwidth hne, List.flatten_cons, ih _ hlt _ rfl, List.take_append_drop]

theorem ne_nil_of_mem_split (hwidth : 0 < width) {xs piece : List α}
    (hmem : piece ∈ split anchor width xs) : piece ≠ [] := by
  induction hlen : xs.length using Nat.strongRecOn generalizing xs with
  | ind n ih =>
    by_cases hne : xs = []
    · simp [hne] at hmem
    · have hpos := cut_pos anchor hwidth hne
      have hxs := List.length_pos_iff.mpr hne
      rw [split_eq hwidth hne, List.mem_cons] at hmem
      cases hmem with
      | inl hhead =>
        rw [hhead, ← List.length_pos_iff, List.length_take]
        omega
      | inr htail =>
        apply ih _ _ htail rfl
        rw [List.length_drop]
        omega

/-- What decides where the first piece ends. -/
theorem cut_cases (anchor : List α → Bool) (width : Nat) (xs : List α) :
    (∃ p, p + width ≤ xs.length ∧ anchor (window width xs p) = true ∧
        (∀ q < p, anchor (window width xs q) = false) ∧ cut anchor width xs = p + width) ∨
      ((∀ q, q + width ≤ xs.length → anchor (window width xs q) = false) ∧
        cut anchor width xs = xs.length) := by
  cases hfind : (List.range (xs.length + 1 - width)).find?
      (fun p => anchor (window width xs p)) with
  | some p =>
    rw [List.find?_range_eq_some, List.mem_range] at hfind
    have hfirst : ∀ q < p, anchor (window width xs q) = false := by
      intro q hq
      simpa using hfind.2.2 q hq
    exact .inl ⟨p, by omega, hfind.1, hfirst, cut_of_anchor (by omega) hfind.1 hfirst⟩
  | none =>
    rw [List.find?_range_eq_none] at hfind
    have hnone : ∀ q, q + width ≤ xs.length → anchor (window width xs q) = false := by
      intro q hq
      simpa using hfind q (by omega)
    exact .inr ⟨hnone, cut_of_no_anchor hnone⟩

theorem cut_le (anchor : List α → Bool) (width : Nat) (xs : List α) :
    cut anchor width xs ≤ xs.length := by
  rcases cut_cases anchor width xs with ⟨p, hfits, _, _, hcut⟩ | ⟨_, hcut⟩
  · rw [hcut]
    exact hfits
  · exact Nat.le_of_eq hcut

theorem split_length_le (hwidth : 0 < width) (xs : List α) :
    (split anchor width xs).length ≤ xs.length := by
  induction hlen : xs.length using Nat.strongRecOn generalizing xs with
  | ind n ih =>
    by_cases hne : xs = []
    · simp [hne]
    · have hpos := cut_pos anchor hwidth hne
      have hlt : (xs.drop (cut anchor width xs)).length < n := by
        have hxs := List.length_pos_iff.mpr hne
        rw [List.length_drop]
        omega
      have hrest := ih _ hlt _ rfl
      rw [split_eq hwidth hne, List.length_cons]
      omega

/-- The total length of the first pieces. -/
def piecesLength (k : Nat) (pieces : List (List α)) : Nat := ((pieces.take k).map List.length).sum

theorem piecesLength_min (k : Nat) (pieces : List (List α)) :
    piecesLength (min k pieces.length) pieces = piecesLength k pieces := by
  rw [piecesLength, ← List.take_take, List.take_length, piecesLength]

/-- The first pieces of the list, however many, end at the position.  Its start counts as well. -/
def Boundary (anchor : List α → Bool) (width : Nat) (xs : List α) (b : Nat) : Prop :=
  ∃ k, piecesLength k (split anchor width xs) = b

theorem boundary_zero (anchor : List α → Bool) (width : Nat) (xs : List α) :
    Boundary anchor width xs 0 := ⟨0, rfl⟩

theorem piecesLength_split (hwidth : 0 < width) (k : Nat) {xs : List α} (hne : xs ≠ []) :
    piecesLength (k + 1) (split anchor width xs) = cut anchor width xs +
      piecesLength k (split anchor width (xs.drop (cut anchor width xs))) := by
  rw [piecesLength, split_eq hwidth hne, List.take_succ_cons, List.map_cons, List.sum_cons,
    List.length_take, Nat.min_eq_left (cut_le anchor width xs), piecesLength]

/-- What comes after the first pieces is the split of the rest of the list. -/
theorem drop_split (hwidth : 0 < width) (k : Nat) (xs : List α) :
    (split anchor width xs).drop k =
      split anchor width (xs.drop (piecesLength k (split anchor width xs))) := by
  induction k generalizing xs with
  | zero => rfl
  | succ k ih =>
    by_cases hne : xs = []
    · simp [hne]
    · rw [piecesLength_split hwidth k hne, split_eq hwidth hne, List.drop_succ_cons, ih,
        List.drop_drop]

/-- A position other than the start is a boundary if it is the end of the first piece or a
boundary of what comes after it. -/
theorem boundary_iff (hwidth : 0 < width) {xs : List α} (hne : xs ≠ []) {b : Nat} :
    Boundary anchor width xs b ↔ b = 0 ∨ cut anchor width xs ≤ b ∧
      Boundary anchor width (xs.drop (cut anchor width xs)) (b - cut anchor width xs) := by
  constructor
  · intro ⟨k, hk⟩
    cases k with
    | zero => exact .inl hk.symm
    | succ k =>
      rw [piecesLength_split hwidth k hne] at hk
      exact .inr ⟨by omega, k, by omega⟩
  · intro h
    rcases h with rfl | ⟨hle, k, hk⟩
    · exact boundary_zero anchor width xs
    · refine ⟨k + 1, ?_⟩
      rw [piecesLength_split hwidth k hne]
      omega

@[simp] theorem boundary_nil {b : Nat} : Boundary anchor width [] b ↔ b = 0 := by
  simp [Boundary, piecesLength, eq_comm]

/-- From a boundary on, the boundaries are those of the rest of the list. -/
theorem Boundary.add_iff (hwidth : 0 < width) {xs : List α} {b : Nat}
    (h : Boundary anchor width xs b) (e : Nat) :
    Boundary anchor width xs (b + e) ↔ Boundary anchor width (xs.drop b) e := by
  induction hlen : xs.length using Nat.strongRecOn generalizing xs b with
  | ind n ih =>
    by_cases hne : xs = []
    · rw [hne, boundary_nil] at h
      rw [hne, h, Nat.zero_add, List.drop_nil]
    · have hpos := cut_pos anchor hwidth hne
      have hxs := List.length_pos_iff.mpr hne
      rcases (boundary_iff hwidth hne).mp h with rfl | ⟨hle, hrest⟩
      · rw [Nat.zero_add, List.drop_zero]
      · have hlt : (xs.drop (cut anchor width xs)).length < n := by
          rw [List.length_drop]
          omega
        have hnext := ih _ hlt hrest rfl
        rw [List.drop_drop, Nat.add_sub_cancel' hle] at hnext
        rw [boundary_iff hwidth hne, ← hnext, show b + e - cut anchor width xs =
          b - cut anchor width xs + e by omega]
        constructor
        · intro hadd
          rcases hadd with hzero | hadd
          · omega
          · exact hadd.2
        · intro hadd
          exact .inr ⟨by omega, hadd⟩

/-- Windows within a common prefix agree. -/
theorem window_eq_of_take_eq {xs ys : List α} {b p : Nat} (h : xs.take b = ys.take b)
    (hfits : p + width ≤ b) : window width xs p = window width ys p := by
  have hwindow : ∀ zs : List α, window width zs p = window width (zs.take b) p := by
    intro zs
    rw [window, window, List.drop_take, List.take_take, Nat.min_eq_left (by omega)]
  rw [hwindow xs, hwindow ys, h]

/-- An anchor that ends the first piece also ends that of a list with the same beginning. -/
theorem cut_eq_of_take_eq {xs ys : List α} {b : Nat} (h : xs.take b = ys.take b)
    (hb : b ≤ ys.length) (hcut : cut anchor width xs ≤ b) (hlt : cut anchor width xs < xs.length) :
    cut anchor width ys = cut anchor width xs := by
  rcases cut_cases anchor width xs with ⟨p, hfits, hanchor, hfirst, heq⟩ | ⟨_, heq⟩
  · rw [heq] at hcut ⊢
    apply cut_of_anchor (by omega)
    · rw [← window_eq_of_take_eq h hcut]
      exact hanchor
    · intro q hq
      rw [← window_eq_of_take_eq h (by omega)]
      exact hfirst q hq
  · omega

/-- The boundaries within a common prefix agree, but for the end of the list. -/
theorem Boundary.of_take_eq (hwidth : 0 < width) {xs ys : List α} {b : Nat}
    (h : Boundary anchor width xs b) (htake : xs.take b = ys.take b) (hlt : b < xs.length) :
    Boundary anchor width ys b := by
  have hb : b ≤ ys.length := by
    have hlength := congrArg List.length htake
    rw [List.length_take, List.length_take] at hlength
    omega
  induction hlen : xs.length using Nat.strongRecOn generalizing xs ys b with
  | ind n ih =>
    have hne : xs ≠ [] := List.length_pos_iff.mp (by omega)
    have hpos := cut_pos anchor hwidth hne
    rcases (boundary_iff hwidth hne).mp h with rfl | ⟨hle, hrest⟩
    · exact boundary_zero anchor width ys
    · have hcut := cut_eq_of_take_eq htake hb hle (by omega)
      have hys : ys ≠ [] := List.length_pos_iff.mp (by omega)
      rw [boundary_iff hwidth hys, hcut]
      right
      refine ⟨hle, ih _ ?_ hrest ?_ ?_ ?_ rfl⟩
      · rw [List.length_drop]
        omega
      · rw [← List.drop_take, ← List.drop_take, htake]
      · rw [List.length_drop]
        omega
      · rw [List.length_drop]
        omega

/-- An anchor with no other one close before it ends a piece, whatever comes before. -/
theorem boundary_of_isolated_anchor (hwidth : 0 < width) {xs : List α} {p : Nat}
    (hfits : p + width ≤ xs.length) (hanchor : anchor (window width xs p) = true)
    (hisolated : ∀ q < p, p < q + width → anchor (window width xs q) = false) :
    Boundary anchor width xs (p + width) := by
  induction hlen : xs.length using Nat.strongRecOn generalizing xs p with
  | ind n ih =>
    have hne : xs ≠ [] := List.length_pos_iff.mp (by omega)
    have hpos := cut_pos anchor hwidth hne
    rw [boundary_iff hwidth hne]
    right
    rcases cut_cases anchor width xs with ⟨p', hfits', hanchor', hfirst, hcut⟩ | ⟨hnone, _⟩
    · have hle : p' ≤ p := by
        by_contra hlt
        rw [hfirst p (by omega)] at hanchor
        cases hanchor
      by_cases heq : p' = p
      · rw [hcut, heq, Nat.sub_self]
        exact ⟨Nat.le_refl _, boundary_zero anchor width _⟩
      · have hfar : p' + width ≤ p := by
          by_contra hclose
          rw [hisolated p' (by omega) (by omega)] at hanchor'
          cases hanchor'
        have hwindow : ∀ q, window width (xs.drop (p' + width)) q =
            window width xs (p' + width + q) := by
          intro q
          rw [window, window, List.drop_drop]
        have hrest : Boundary anchor width (xs.drop (p' + width)) (p - (p' + width) + width) := by
          apply ih _ _ _ _ _ rfl
          · rw [List.length_drop]
            omega
          · rw [List.length_drop]
            omega
          · rw [hwindow, Nat.add_sub_cancel' hfar]
            exact hanchor
          · intro q hq hclose
            rw [hwindow]
            exact hisolated _ (by omega) (by omega)
        rw [hcut, show p + width - (p' + width) = p - (p' + width) + width by omega]
        exact ⟨by omega, hrest⟩
    · rw [hnone p hfits] at hanchor
      cases hanchor

/-- The pieces up to a boundary, and those of the rest of the list. -/
theorem Boundary.split_eq (hwidth : 0 < width) {xs : List α} {b : Nat}
    (h : Boundary anchor width xs b) :
    ∃ first, split anchor width xs = first ++ split anchor width (xs.drop b) ∧
      first.flatten = xs.take b := by
  obtain ⟨k, hk⟩ := h
  have hrest : (split anchor width xs).drop k =
      split anchor width (xs.drop (piecesLength k (split anchor width xs))) := drop_split hwidth k xs
  rw [hk] at hrest
  have hsplit : split anchor width xs =
      (split anchor width xs).take k ++ split anchor width (xs.drop b) := by
    rw [← hrest, List.take_append_drop]
  have hxs : xs = ((split anchor width xs).take k).flatten ++ xs.drop b := by
    have hflatten := congrArg List.flatten hsplit
    rw [List.flatten_append, split_flatten hwidth, split_flatten hwidth] at hflatten
    exact hflatten
  have hlength : ((split anchor width xs).take k).flatten.length = b := by
    rw [List.length_flatten]
    exact hk
  refine ⟨_, hsplit, ?_⟩
  have htake := congrArg (List.take b) hxs
  rw [List.take_left' hlength] at htake
  exact htake.symm

/-- From an isolated anchor on, a list is split in one way, whatever comes before. -/
theorem split_append_of_isolated_anchor (hwidth : 0 < width) (before : List α) {xs : List α} {q : Nat}
    (hlow : width - 1 ≤ q) (hfits : q + width ≤ xs.length) (hanchor : anchor (window width xs q) = true)
    (hisolated : ∀ p < q, q < p + width → anchor (window width xs p) = false) :
    ∃ first, split anchor width (before ++ xs) = first ++ split anchor width (xs.drop (q + width)) ∧
      first.flatten = before ++ xs.take (q + width) := by
  have hwindow : ∀ p, window width (before ++ xs) (before.length + p) = window width xs p := by
    intro p
    rw [window, window, List.drop_length_add_append]
  have hboundary : Boundary anchor width (before ++ xs) (before.length + q + width) := by
    apply boundary_of_isolated_anchor hwidth
    · rw [List.length_append]
      omega
    · rw [hwindow]
      exact hanchor
    · intro p hp hclose
      obtain ⟨p, rfl⟩ : ∃ p', p = before.length + p' := Nat.exists_eq_add_of_le (by omega)
      rw [hwindow]
      exact hisolated p (by omega) (by omega)
  obtain ⟨first, hsplit, hflatten⟩ := hboundary.split_eq hwidth
  rw [Nat.add_assoc, List.drop_length_add_append] at hsplit
  rw [Nat.add_assoc, List.take_length_add_append] at hflatten
  exact ⟨first, hsplit, hflatten⟩

end WindowSplit
