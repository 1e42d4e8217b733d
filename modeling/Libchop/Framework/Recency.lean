import Mathlib.Data.List.Basic
import Mathlib.Data.List.TakeWhile

/-!
# Most recent first

A history lists what happened, the last first.  What is kept of it are the most recent different values, up
to a bound.  Of a history of keys and values, a table keeps these for each key, the key that came last first.
-/

namespace Recency

section EraseDups

variable {α : Type} [BEq α] [LawfulBEq α]

theorem eraseDups_filter (p : α → Bool) (xs : List α) :
    (xs.filter p).eraseDups = xs.eraseDups.filter p := by
  induction h : xs.length using Nat.strong_induction_on generalizing xs with
  | _ n ih =>
    subst h
    cases xs with
    | nil => rfl
    | cons x xs =>
      have hlength : (xs.filter fun b => !b == x).length < (x :: xs).length :=
        Nat.lt_succ_of_le (List.length_filter_le _ _)
      have hrest := ih _ hlength _ rfl
      rw [List.filter_filter] at hrest
      rw [List.eraseDups_cons]
      by_cases hx : p x = true
      · rw [List.filter_cons_of_pos hx, List.filter_cons_of_pos hx, List.eraseDups_cons, ← hrest,
          List.filter_filter]
        congr 3
        funext b
        exact Bool.and_comm _ _
      · rw [List.filter_cons_of_neg hx, List.filter_cons_of_neg hx, ← hrest]
        congr 1
        refine List.filter_congr fun b _ => ?_
        by_cases hb : b = x
        · simp [hb, hx]
        · simp [hb]

theorem eraseDups_cons_eq (x : α) (xs : List α) :
    (x :: xs).eraseDups = x :: xs.eraseDups.filter fun b => !b == x := by
  rw [List.eraseDups_cons, eraseDups_filter]

theorem nodup_eraseDups (xs : List α) : xs.eraseDups.Nodup := by
  induction xs with
  | nil => exact List.nodup_nil
  | cons x xs ih =>
    rw [eraseDups_cons_eq]
    refine List.nodup_cons.mpr ⟨fun hmem => ?_, ih.filter _⟩
    have hx := (List.mem_filter.mp hmem).2
    rw [beq_self_eq_true] at hx
    cases hx

theorem filter_ne_of_notMem {x : α} {xs : List α} (h : x ∉ xs) : (xs.filter fun b => !b == x) = xs := by
  refine List.filter_eq_self.mpr fun b hb => ?_
  have hne : b ≠ x := by
    rintro rfl
    exact h hb
  rw [beq_false_of_ne hne]
  rfl

theorem eraseDups_of_nodup {xs : List α} (h : xs.Nodup) : xs.eraseDups = xs := by
  induction xs with
  | nil => rfl
  | cons x xs ih =>
    obtain ⟨hx, hxs⟩ := List.nodup_cons.mp h
    rw [eraseDups_cons_eq, ih hxs, filter_ne_of_notMem hx]

/-- The first element with a property is the first of its duplicates. -/
theorem find?_eraseDups (p : α → Bool) (xs : List α) : xs.eraseDups.find? p = xs.find? p := by
  induction xs with
  | nil => rfl
  | cons x xs ih =>
    rw [eraseDups_cons_eq]
    by_cases hx : p x = true
    · rw [List.find?_cons_of_pos hx, List.find?_cons_of_pos hx]
    · rw [List.find?_cons_of_neg hx, List.find?_cons_of_neg hx, List.find?_filter, ← ih]
      congr 1
      funext b
      by_cases hb : b = x
      · simp [hb, hx]
      · simp [hb]

/-- An element comes before the first of its duplicates if and only if it comes before all of them. -/
theorem mem_takeWhile_eraseDups {x y : α} {xs : List α} :
    y ∈ xs.eraseDups.takeWhile (fun b => !b == x) ↔ y ∈ xs.takeWhile fun b => !b == x := by
  induction xs with
  | nil => exact Iff.rfl
  | cons b xs ih =>
    rw [eraseDups_cons_eq]
    by_cases hb : b = x
    · subst hb
      simp
    · have hkeep : (!b == x) = true := by simp [hb]
      have hcommutes : ∀ zs : List α, y ≠ b →
          (y ∈ (zs.filter fun c => !c == b).takeWhile (fun c => !c == x) ↔
            y ∈ zs.takeWhile fun c => !c == x) := by
        intro zs hy
        induction zs with
        | nil => exact Iff.rfl
        | cons z zs ihz =>
          by_cases hz : z = b
          · subst hz
            simp [hb, hy, ihz]
          · by_cases hzx : z = x
            · simp [hzx, Ne.symm hb]
            · simp [hz, hzx, ihz]
      by_cases hy : y = b
      · simp [hy, hkeep]
      · simp only [List.takeWhile_cons, hkeep, if_true, List.mem_cons, hy, false_or, hcommutes _ hy, ih]

end EraseDups

section Bounded

variable {α κ : Type} [DecidableEq α] [DecidableEq κ]

def recent (bound : Nat) (history : List α) : List α := history.eraseDups.take bound

theorem recent_nodup (bound : Nat) (history : List α) : (recent bound history).Nodup :=
  (nodup_eraseDups history).sublist (List.take_sublist _ _)

private theorem take_filter_take {x : α} {xs : List α} (h : xs.Nodup) (n : Nat) :
    ((xs.take (n + 1)).filter fun b => !b == x).take n = (xs.filter fun b => !b == x).take n := by
  induction xs generalizing n with
  | nil => rfl
  | cons y xs ih =>
    obtain ⟨hy, hxs⟩ := List.nodup_cons.mp h
    by_cases hx : y = x
    · subst hx
      have htake : y ∉ xs.take n := fun hmem => hy (List.mem_of_mem_take hmem)
      rw [List.take_succ_cons, List.filter_cons_of_neg (by simp), List.filter_cons_of_neg (by simp),
        filter_ne_of_notMem htake, filter_ne_of_notMem hy, List.take_take, Nat.min_self]
    · have hkeep : (!y == x) = true := by simp [hx]
      cases n with
      | zero => rfl
      | succ n => simp only [List.take_succ_cons, List.filter_cons, hkeep, if_true, ih hxs]

/-- What is kept follows from what was kept before. -/
theorem recent_cons (bound : Nat) (x : α) (history : List α) :
    recent bound (x :: history) = recent bound (x :: recent bound history) := by
  cases bound with
  | zero => rfl
  | succ n =>
    have hkept := recent_nodup (n + 1) history
    rw [recent, recent, eraseDups_cons_eq, eraseDups_cons_eq, eraseDups_of_nodup hkept, recent,
      List.take_succ_cons, List.take_succ_cons, take_filter_take (nodup_eraseDups history)]

theorem find?_recent {bound : Nat} {p : α → Bool} {history : List α} {x : α}
    (h : history.find? p = some x) (hmem : x ∈ recent bound history) :
    (recent bound history).find? p = some x := by
  rw [← find?_eraseDups] at h
  obtain ⟨hx, before, after, hsplit, hbefore⟩ := List.find?_eq_some_iff_append.mp h
  rw [recent, hsplit] at hmem ⊢
  have hnodup := nodup_eraseDups history
  rw [hsplit] at hnodup
  have hnot : x ∉ before := by
    intro hin
    exact (List.nodup_append.mp hnodup).2.2 x hin x List.mem_cons_self rfl
  rw [List.take_append] at hmem ⊢
  rcases List.mem_append.mp hmem with hin | hin
  · exact (hnot (List.mem_of_mem_take hin)).elim
  · cases hrest : bound - before.length with
    | zero =>
      rw [hrest] at hin
      cases hin
    | succ n =>
      have hnone : (before.take bound).find? p = none := by
        refine List.find?_eq_none.mpr fun y hy => ?_
        have hfalse := hbefore y (List.mem_of_mem_take hy)
        simpa using hfalse
      rw [List.find?_append, hnone, List.take_succ_cons, List.find?_cons_of_pos hx]
      rfl

def values (key : κ) (history : List (κ × α)) : List α :=
  (history.filter fun entry => entry.1 = key).map Prod.snd

/-- The keys of a history with the most recent values of each. -/
def table (bound : Nat) (history : List (κ × α)) : List (κ × List α) :=
  (history.map Prod.fst).eraseDups.map fun key => (key, recent bound (values key history))

def lookup (key : κ) (entries : List (κ × List α)) : List α :=
  ((entries.find? fun entry => entry.1 = key).map Prod.snd).getD []

omit [DecidableEq α] in
theorem values_cons_self (key : κ) (value : α) (history : List (κ × α)) :
    values key ((key, value) :: history) = value :: values key history := by
  simp [values]

omit [DecidableEq α] in
theorem values_cons_of_ne {key other : κ} (h : other ≠ key) (value : α) (history : List (κ × α)) :
    values key ((other, value) :: history) = values key history := by
  simp [values, h]

omit [DecidableEq α] in
theorem values_eq_nil {key : κ} {history : List (κ × α)} (h : key ∉ history.map Prod.fst) :
    values key history = [] := by
  refine List.map_eq_nil_iff.mpr (List.filter_eq_nil_iff.mpr fun entry hmem hentry => h ?_)
  exact List.mem_map.mpr ⟨entry, hmem, of_decide_eq_true hentry⟩

theorem lookup_table (bound : Nat) (key : κ) (history : List (κ × α)) :
    lookup key (table bound history) = recent bound (values key history) := by
  rw [lookup, table, List.find?_map]
  by_cases hkey : key ∈ history.map Prod.fst
  · have hfind : (history.map Prod.fst).eraseDups.find? (fun k => decide (k = key)) = some key := by
      cases hfound : (history.map Prod.fst).eraseDups.find? (fun k => decide (k = key)) with
      | none =>
        have hnot := List.find?_eq_none.mp hfound key (List.mem_eraseDups.mpr hkey)
        exact (hnot (decide_eq_true rfl)).elim
      | some k =>
        have hk := List.find?_some hfound
        exact congrArg some (of_decide_eq_true hk)
    change (((List.find? (fun k => decide (k = key)) _).map _).map Prod.snd).getD [] = _
    rw [hfind]
    rfl
  · have hfind : (history.map Prod.fst).eraseDups.find? (fun k => decide (k = key)) = none := by
      refine List.find?_eq_none.mpr fun k hk heq => hkey ?_
      rw [← of_decide_eq_true heq]
      exact List.mem_eraseDups.mp hk
    change (((List.find? (fun k => decide (k = key)) _).map _).map Prod.snd).getD [] = _
    rw [hfind, values_eq_nil hkey]
    cases bound with
    | zero => rfl
    | succ n => rfl

/-- A table after one more value, from the table before. -/
theorem table_cons (bound : Nat) (key : κ) (value : α) (history : List (κ × α)) :
    table bound ((key, value) :: history) =
      (key, recent bound (value :: lookup key (table bound history))) ::
        (table bound history).filter fun entry => !entry.1 == key := by
  rw [lookup_table, ← recent_cons, ← values_cons_self, table, List.map_cons, eraseDups_cons_eq,
    List.map_cons, table, List.filter_map]
  congr 1
  refine List.map_congr_left fun other hother => ?_
  have hne : key ≠ other := by
    rintro rfl
    simpa using (List.mem_filter.mp hother).2
  rw [values_cons_of_ne hne]

omit [DecidableEq α] in
/-- The last value with a property, among all keys, is also the last one of its key. -/
theorem find?_values {p : α → Bool} {history : List (κ × α)} {key : κ} {value : α}
    (h : (history.find? fun entry => p entry.2) = some (key, value)) :
    (values key history).find? p = some value := by
  induction history with
  | nil => cases h
  | cons entry history ih =>
    obtain ⟨other, v⟩ := entry
    rw [List.find?_cons] at h
    cases hv : p v with
    | true =>
      simp only [hv] at h
      cases h
      rw [values_cons_self, List.find?_cons, hv]
    | false =>
      simp only [hv] at h
      by_cases hkey : other = key
      · subst hkey
        rw [values_cons_self, List.find?_cons, hv]
        exact ih h
      · rw [values_cons_of_ne hkey]
        exact ih h

omit [DecidableEq α] in
/-- A search by keys stops at a key if and only if it finds nothing for those before. -/
theorem findSome?_keys {f : κ → Option α} {keys : List κ} {key : κ} {value : α} (hkey : key ∈ keys) :
    (keys.findSome? fun k => (f k).map fun v => (k, v)) = some (key, value) ↔
      f key = some value ∧ ∀ earlier ∈ keys.takeWhile (fun k => !k == key), f earlier = none := by
  induction keys with
  | nil => cases hkey
  | cons k keys ih =>
    rw [List.findSome?_cons]
    by_cases hk : k = key
    · subst hk
      cases hf : f k with
      | some v => simp
      | none =>
        simp only [Option.map_none, reduceCtorEq, false_and, iff_false]
        intro hfound
        obtain ⟨other, -, hother⟩ := List.exists_of_findSome?_eq_some hfound
        obtain ⟨v, hv, hpair⟩ := Option.map_eq_some_iff.mp hother
        cases hpair
        rw [hf] at hv
        cases hv
    · have hmem : key ∈ keys := (List.mem_cons.mp hkey).resolve_left (Ne.symm hk)
      have hkeep : (!k == key) = true := by simp [hk]
      simp only [List.takeWhile_cons, hkeep, if_true, List.forall_mem_cons]
      cases hf : f k with
      | some v => simp [hk]
      | none =>
        simp only [Option.map_none, true_and]
        exact ih hmem

/-- The first value with a property that a search through a table finds: none is kept for a key that came
later. -/
theorem findSome?_table {bound : Nat} {p : α → Bool} {history : List (κ × α)} {key : κ} {value : α}
    (hkey : key ∈ history.map Prod.fst) :
    ((table bound history).findSome? fun entry => (entry.2.find? p).map fun v => (entry.1, v)) =
        some (key, value) ↔
      (recent bound (values key history)).find? p = some value ∧
        ∀ later ∈ (history.map Prod.fst).takeWhile (fun k => !k == key),
          ∀ v ∈ recent bound (values later history), p v = false := by
  rw [table, List.findSome?_map]
  refine (findSome?_keys (List.mem_eraseDups.mpr hkey)).trans
    (and_congr_right fun _ => forall_congr' fun later => ?_)
  rw [mem_takeWhile_eraseDups, List.find?_eq_none]
  simp only [Bool.not_eq_true]

end Bounded

end Recency
