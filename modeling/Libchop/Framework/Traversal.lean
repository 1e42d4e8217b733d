import Libchop.Framework.Outcome
import Mathlib.Data.List.Basic
import Mathlib.Data.List.Count
import Mathlib.Logic.Relation

/-!
# Depth-first search that marks late

Going on from a node to the next ones, a search marks the node.  Nodes from which nothing follows are never
marked, and may be opened again.  The search opens whatever can be reached, also where there are cycles.
-/

namespace Traversal

section Search

variable {α : Type} [DecidableEq α]

/-- The nodes after `x`, one by one. -/
def visitAll (visit : α → List α → Outcome (List α × List α)) (x : α) :
    List α → List α → Outcome (List α × List α)
  | [], marked => .done (marked, [])
  | y :: ys, marked =>
    visit y (x :: marked) >>= fun (marked, first) =>
      visitAll visit x ys marked >>= fun (marked, rest) => .done (marked, first ++ rest)

/-- The marked nodes after a search, and the nodes that it opened. -/
def visit (next : α → List α) : Nat → α → List α → Outcome (List α × List α)
  | 0, _, _ => .outOfFuel
  | fuel + 1, x, marked =>
    if x ∈ marked then .done (marked, [])
    else
      visitAll (visit next fuel) x (next x) marked >>= fun (marked, opened) => .done (marked, x :: opened)

def Reaches (next : α → List α) : α → α → Prop := Relation.ReflTransGen fun x y => y ∈ next x

omit [DecidableEq α] in
theorem visitAll_append (search : α → List α → Outcome (List α × List α)) (x : α) (ys zs marked : List α) :
    visitAll search x (ys ++ zs) marked =
      (visitAll search x ys marked >>= fun (marked, first) =>
        visitAll search x zs marked >>= fun (marked, rest) => .done (marked, first ++ rest)) := by
  induction ys generalizing marked with
  | nil =>
    rw [List.nil_append, visitAll, Outcome.done_bind]
    dsimp only
    cases hrun : visitAll search x zs marked with
    | done result => rfl
    | abort => rfl
    | outOfFuel => rfl
  | cons y ys ih =>
    rw [List.cons_append, visitAll, visitAll, Outcome.bind_assoc]
    cases hfirst : search y (x :: marked) with
    | abort => rfl
    | outOfFuel => rfl
    | done result =>
      obtain ⟨marked₁, first⟩ := result
      simp only [Outcome.done_bind, ih]
      cases hsecond : visitAll search x ys marked₁ with
      | abort => rfl
      | outOfFuel => rfl
      | done result =>
        obtain ⟨marked₂, second⟩ := result
        simp only [Outcome.done_bind]
        cases hthird : visitAll search x zs marked₂ with
        | abort => rfl
        | outOfFuel => rfl
        | done result => simp only [Outcome.done_bind, List.append_assoc]

/-- What a search from some roots has done. -/
structure Visited (next : α → List α) (roots marked marked' opened : List α) : Prop where
  subset : marked ⊆ marked'
  marks : ∀ z ∈ marked', z ∈ marked ∨ z ∈ opened
  fresh : ∀ z ∈ opened, z ∉ marked
  goesOn : ∀ z ∈ opened, next z ≠ [] → z ∈ marked' ∧ opened.count z = 1
  starts : ∀ r ∈ roots, r ∈ marked ∨ r ∈ opened
  closed : ∀ z ∈ opened, ∀ y ∈ next z, y ∈ marked ∨ y ∈ opened
  reached : ∀ z ∈ opened, ∃ r ∈ roots, Reaches next r z

variable {next : α → List α}

/-- One search after another. -/
theorem Visited.trans {roots roots' marked marked₁ marked₂ first rest : List α}
    (h : Visited next roots marked marked₁ first) (h' : Visited next roots' marked₁ marked₂ rest) :
    Visited next (roots ++ roots') marked marked₂ (first ++ rest) where
  subset := List.Subset.trans h.subset h'.subset
  marks := by
    intro z hz
    rw [List.mem_append]
    rcases h'.marks z hz with hz | hz
    · exact (h.marks z hz).imp_right .inl
    · exact .inr (.inr hz)
  fresh := by
    intro z hz hmarked
    rcases List.mem_append.mp hz with hz | hz
    · exact h.fresh z hz hmarked
    · exact h'.fresh z hz (h.subset hmarked)
  goesOn := by
    intro z hz hnext
    rw [List.count_append]
    by_cases hfirst : z ∈ first
    · obtain ⟨hmarked, hcount⟩ := h.goesOn z hfirst hnext
      have hnot : z ∉ rest := fun hrest => h'.fresh z hrest hmarked
      rw [hcount, List.count_eq_zero.mpr hnot]
      exact ⟨h'.subset hmarked, rfl⟩
    · obtain ⟨hmarked, hcount⟩ := h'.goesOn z ((List.mem_append.mp hz).resolve_left hfirst) hnext
      rw [hcount, List.count_eq_zero.mpr hfirst]
      exact ⟨hmarked, rfl⟩
  starts := by
    intro r hr
    rw [List.mem_append]
    rcases List.mem_append.mp hr with hr | hr
    · exact (h.starts r hr).imp_right .inl
    · rcases h'.starts r hr with hr | hr
      · exact (h.marks r hr).imp_right .inl
      · exact .inr (.inr hr)
  closed := by
    intro z hz y hy
    rw [List.mem_append]
    rcases List.mem_append.mp hz with hz | hz
    · exact (h.closed z hz y hy).imp_right .inl
    · rcases h'.closed z hz y hy with hy | hy
      · exact (h.marks y hy).imp_right .inl
      · exact .inr (.inr hy)
  reached := by
    intro z hz
    rcases List.mem_append.mp hz with hz | hz
    · obtain ⟨r, hr, hreaches⟩ := h.reached z hz
      exact ⟨r, List.mem_append_left _ hr, hreaches⟩
    · obtain ⟨r, hr, hreaches⟩ := h'.reached z hz
      exact ⟨r, List.mem_append_right _ hr, hreaches⟩

/-- A node may be marked again. -/
theorem Visited.of_marked {roots marked marked' opened : List α} {x : α} (hx : x ∈ marked)
    (h : Visited next roots (x :: marked) marked' opened) : Visited next roots marked marked' opened := by
  have hsame : ∀ z, z ∈ x :: marked ↔ z ∈ marked := by
    intro z
    rw [List.mem_cons]
    refine ⟨?_, .inr⟩
    rintro (rfl | hz)
    · exact hx
    · exact hz
  obtain ⟨hsubset, hmarked, hfresh, hgoesOn, hroots, hclosed, hreached⟩ := h
  simp only [hsame] at hmarked hfresh hroots hclosed
  exact ⟨fun z hz => hsubset (List.mem_cons_of_mem _ hz), hmarked, hfresh, hgoesOn, hroots, hclosed, hreached⟩

/-- The node is marked as soon as the search goes on. -/
theorem visitAll_visited {search : α → List α → Outcome (List α × List α)}
    (hsearch : ∀ {y marked marked' opened}, search y marked = .done (marked', opened) →
      Visited next [y] marked marked' opened)
    {x : α} {ys marked marked' opened : List α} (hys : ys ≠ [])
    (h : visitAll search x ys marked = .done (marked', opened)) :
    Visited next ys (x :: marked) marked' opened := by
  induction ys generalizing marked opened with
  | nil => exact (hys rfl).elim
  | cons y ys ih =>
    obtain ⟨⟨marked₁, first⟩, hfirst, h⟩ := Outcome.bind_eq_done.mp h
    obtain ⟨⟨marked₂, rest⟩, hrest, h⟩ := Outcome.bind_eq_done.mp h
    cases h
    have hfirst := hsearch hfirst
    cases ys with
    | nil =>
      cases hrest
      rw [List.append_nil]
      exact hfirst
    | cons y' ys =>
      have hmarked : x ∈ marked₁ := hfirst.subset List.mem_cons_self
      exact hfirst.trans ((ih (List.cons_ne_nil _ _) hrest).of_marked hmarked)

theorem visit_visited {fuel : Nat} {x : α} {marked marked' opened : List α}
    (h : visit next fuel x marked = .done (marked', opened)) :
    Visited next [x] marked marked' opened := by
  induction fuel generalizing x marked marked' opened with
  | zero => cases h
  | succ fuel ih =>
    rw [visit] at h
    by_cases hx : x ∈ marked
    · rw [if_pos hx] at h
      cases h
      refine ⟨List.Subset.refl _, fun z hz => .inl hz, ?_, ?_, ?_, ?_, ?_⟩
      · intro z hz
        cases hz
      · intro z hz
        cases hz
      · intro r hr
        rw [List.mem_singleton.mp hr]
        exact .inl hx
      · intro z hz
        cases hz
      · intro z hz
        cases hz
    · rw [if_neg hx] at h
      obtain ⟨⟨marked₁, later⟩, hlater, h⟩ := Outcome.bind_eq_done.mp h
      cases h
      by_cases hnext : next x = []
      · rw [hnext] at hlater
        cases hlater
        refine ⟨List.Subset.refl _, fun z hz => .inl hz, ?_, ?_, ?_, ?_, ?_⟩
        · intro z hz
          rw [List.mem_singleton.mp hz]
          exact hx
        · intro z hz hgoes
          rw [List.mem_singleton.mp hz] at hgoes
          exact (hgoes hnext).elim
        · exact fun r hr => .inr hr
        · intro z hz y hy
          rw [List.mem_singleton.mp hz, hnext] at hy
          cases hy
        · intro z hz
          rw [List.mem_singleton.mp hz]
          exact ⟨x, List.mem_singleton_self x, .refl⟩
      · have hvisited := visitAll_visited ih hnext hlater
        have hxlater : x ∉ later := fun hmem => hvisited.fresh x hmem List.mem_cons_self
        have hback : ∀ z, z ∈ x :: marked ∨ z ∈ later → z ∈ marked ∨ z ∈ x :: later := by
          rintro z (hz | hz)
          · rcases List.mem_cons.mp hz with rfl | hz
            · exact .inr List.mem_cons_self
            · exact .inl hz
          · exact .inr (List.mem_cons_of_mem _ hz)
        constructor
        · exact fun z hz => hvisited.subset (List.mem_cons_of_mem _ hz)
        · exact fun z hz => hback z (hvisited.marks z hz)
        · intro z hz hmarked
          rcases List.mem_cons.mp hz with rfl | hz
          · exact hx hmarked
          · exact hvisited.fresh z hz (List.mem_cons_of_mem _ hmarked)
        · intro z hz hgoes
          by_cases hzx : z = x
          · subst hzx
            rw [List.count_cons_self, List.count_eq_zero.mpr hxlater]
            exact ⟨hvisited.subset List.mem_cons_self, rfl⟩
          · rw [List.count_cons_of_ne (Ne.symm hzx)]
            exact hvisited.goesOn z ((List.mem_cons.mp hz).resolve_left hzx) hgoes
        · intro r hr
          rw [List.mem_singleton.mp hr]
          exact .inr List.mem_cons_self
        · intro z hz y hy
          rcases List.mem_cons.mp hz with rfl | hz
          · exact hback y (hvisited.starts y hy)
          · exact hback y (hvisited.closed z hz y hy)
        · intro z hz
          refine ⟨x, List.mem_singleton_self x, ?_⟩
          rcases List.mem_cons.mp hz with rfl | hz
          · exact .refl
          · obtain ⟨r, hr, hreaches⟩ := hvisited.reached z hz
            exact .head hr hreaches

def unmarked (nodes marked : List α) : Nat := (nodes.filter fun z => z ∉ marked).length

theorem unmarked_le {nodes marked marked' : List α} (h : marked ⊆ marked') :
    unmarked nodes marked' ≤ unmarked nodes marked := by
  refine (List.monotone_filter_right nodes fun z hz => ?_).length_le
  exact decide_eq_true fun hmarked => of_decide_eq_true hz (h hmarked)

theorem unmarked_lt {nodes marked : List α} {x : α} (hx : x ∈ nodes) (hnew : x ∉ marked) :
    unmarked nodes (x :: marked) < unmarked nodes marked := by
  have hsplit : (nodes.filter fun z => z ∉ x :: marked) =
      (nodes.filter fun z => z ∉ marked).filter fun z => z ≠ x := by
    rw [List.filter_filter]
    refine List.filter_congr fun z _ => ?_
    simp [List.mem_cons, not_or]
  rw [unmarked, unmarked, hsplit]
  refine List.length_filter_lt_length_iff_exists.mpr ⟨x, ?_, by simp⟩
  exact List.mem_filter.mpr ⟨hx, decide_eq_true hnew⟩

/-- A search comes to its end, with fuel for each node that can be reached. -/
theorem visit_returns {nodes : List α} {fuel : Nat} {x : α} {marked : List α}
    (hnodes : ∀ z, Reaches next x z → z ∈ nodes) (hfuel : unmarked nodes marked < fuel) :
    (visit next fuel x marked).Returns := by
  induction fuel generalizing x marked with
  | zero => exact (Nat.not_lt_zero _ hfuel).elim
  | succ fuel ih =>
    rw [visit]
    by_cases hx : x ∈ marked
    · rw [if_pos hx]
      exact ⟨_, rfl⟩
    · rw [if_neg hx]
      have hless := unmarked_lt (hnodes x .refl) hx
      have hall : ∀ ys, (∀ y ∈ ys, y ∈ next x) → ∀ later, marked ⊆ later →
          (visitAll (visit next fuel) x ys later).Returns := by
        intro ys hys
        induction ys with
        | nil => exact fun later _ => ⟨_, rfl⟩
        | cons y ys ihys =>
          intro later hlater
          have hmore : unmarked nodes (x :: later) ≤ unmarked nodes (x :: marked) :=
            unmarked_le (List.cons_subset_cons x hlater)
          obtain ⟨⟨marked₁, first⟩, hfirst⟩ := ih
            (fun z hz => hnodes z (.head (hys y List.mem_cons_self) hz))
            (Nat.lt_of_le_of_lt hmore (Nat.lt_of_lt_of_le hless (Nat.le_of_lt_succ hfuel)))
          have hsubset := (visit_visited hfirst).subset
          obtain ⟨⟨marked₂, rest⟩, hrest⟩ := ihys (fun y' hy' => hys y' (List.mem_cons_of_mem _ hy')) marked₁
            (fun z hz => hsubset (List.mem_cons_of_mem _ (hlater hz)))
          rw [visitAll, hfirst, Outcome.done_bind]
          dsimp only
          rw [hrest]
          exact ⟨_, rfl⟩
      obtain ⟨⟨marked', opened⟩, hopened⟩ := hall (next x) (fun _ hy => hy) marked (List.Subset.refl _)
      rw [hopened]
      exact ⟨_, rfl⟩

/-- A search that starts without marks opens what can be reached, and what it goes on from just once. -/
theorem visit_opens {nodes : List α} {fuel : Nat} {root : α}
    (hnodes : ∀ z, Reaches next root z → z ∈ nodes) (hfuel : nodes.length < fuel) :
    ∃ marked opened, visit next fuel root [] = .done (marked, opened) ∧
      (∀ z, z ∈ opened ↔ Reaches next root z) ∧
      ∀ z ∈ opened, next z ≠ [] → opened.count z = 1 := by
  have hunmarked : unmarked nodes [] ≤ nodes.length := List.length_filter_le _ _
  obtain ⟨⟨marked, opened⟩, hrun⟩ := visit_returns hnodes (Nat.lt_of_le_of_lt hunmarked hfuel)
  have hvisited := visit_visited hrun
  refine ⟨marked, opened, hrun, fun z => ⟨fun hz => ?_, fun hz => ?_⟩, fun z hz hnext =>
    (hvisited.goesOn z hz hnext).2⟩
  · obtain ⟨r, hr, hreaches⟩ := hvisited.reached z hz
    rw [List.mem_singleton.mp hr] at hreaches
    exact hreaches
  · induction hz with
    | refl =>
      exact (hvisited.starts root (List.mem_singleton_self root)).resolve_left List.not_mem_nil
    | tail _ hy ih => exact (hvisited.closed _ ih _ hy).resolve_left List.not_mem_nil

end Search

end Traversal
