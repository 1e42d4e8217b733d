import Libchop.Tree.KeyBlock
import Mathlib.Data.List.Forall2
import Mathlib.Data.Nat.Digits.Defs
import Mathlib.Tactic.Ring
import Mathlib.Tactic.Linarith

/-!
# What a stored hash tree stands for

`Encodes` says, of the blocks that can be fetched, that a handle leads through a number of
levels of key blocks to a byte string.  The writer establishes it and the reader consumes it.
-/

namespace Libchop

variable {H : Type}

def keyBlockBytes (serialize : H → Bytes) (depth : Nat) (hs : List H) : Bytes :=
  keyBlockHeader hs.length depth ++ hs.flatMap serialize

/-- The blocks a handle can be resolved to, in each of the two stores. -/
abbrev Holds (H : Type) := StoreRole → H → Bytes → Prop

/-- The handle leads, through `levels` levels of key blocks, to the given non-empty data. -/
def Encodes (holds : Holds H) (serialize : H → Bytes) : Nat → H → Bytes → Prop
  | 0, h, xs => holds .data h xs ∧ xs ≠ []
  | depth + 1, h, xs => ∃ hs xss, hs ≠ [] ∧ hs.length < 2 ^ 32 ∧ depth < 2 ^ 16 ∧
      holds .metadata h (keyBlockBytes serialize depth hs) ∧
      List.Forall₂ (Encodes holds serialize depth) hs xss ∧ xs = xss.flatten

theorem Encodes.ne_nil {holds : Holds H} {serialize : H → Bytes} {levels : Nat} {h : H}
    {xs : Bytes} (he : Encodes holds serialize levels h xs) : xs ≠ [] := by
  induction levels generalizing h xs with
  | zero => exact he.2
  | succ depth ih =>
    obtain ⟨hs, xss, hne, _, _, _, hall, rfl⟩ := he
    cases hall with
    | nil => exact (hne rfl).elim
    | cons hhead _ => simp [ih hhead]

theorem Encodes.mono {holds holds' : Holds H} {serialize : H → Bytes}
    (hkeep : ∀ role h b, holds role h b → holds' role h b) {levels : Nat} {h : H} {xs : Bytes}
    (he : Encodes holds serialize levels h xs) : Encodes holds' serialize levels h xs := by
  induction levels generalizing h xs with
  | zero => exact ⟨hkeep _ _ _ he.1, he.2⟩
  | succ depth ih =>
    obtain ⟨hs, xss, hne, hlen, hdepth, hblock, hall, rfl⟩ := he
    exact ⟨hs, xss, hne, hlen, hdepth, hkeep _ _ _ hblock, hall.imp fun _ _ => ih, rfl⟩

@[simp] theorem keyBlockHeader_length (count depth : Nat) :
    (keyBlockHeader count depth).length = 10 := rfl

/-- A chain of key blocks under construction, bottom-most first: consecutive depths from `d`,
between one and `fanOut` keys in each block, and room for each header. -/
def Shaped (fanOut : Nat) : Nat → List KeyBlock → Prop
  | _, [] => True
  | d, block :: parents => block.depth = d ∧ 1 ≤ block.keyCount ∧ block.keyCount ≤ fanOut ∧
      keyBlockHeaderSize ≤ block.keys.length ∧ Shaped fanOut (d + 1) parents

/-- The number of bottom-level keys a chain of pending key blocks accounts for: its key counts
read as digits in base `fanOut`. -/
def chainWeight (fanOut : Nat) (blocks : List KeyBlock) : Nat :=
  Nat.ofDigits fanOut (blocks.map KeyBlock.keyCount)

@[simp] theorem chainWeight_nil (fanOut : Nat) : chainWeight fanOut [] = 0 := by
  simp [chainWeight]

@[simp] theorem chainWeight_cons (fanOut : Nat) (block : KeyBlock) (parents : List KeyBlock) :
    chainWeight fanOut (block :: parents) = block.keyCount + fanOut * chainWeight fanOut parents := by
  simp [chainWeight, Nat.ofDigits_cons]

/-- Every level of a chain multiplies what it accounts for by the fan-out. -/
theorem pow_length_le_chainWeight {fanOut d : Nat} {blocks : List KeyBlock}
    (hshape : Shaped fanOut d blocks) (hne : blocks ≠ []) :
    fanOut ^ blocks.length ≤ fanOut * chainWeight fanOut blocks := by
  induction blocks generalizing d with
  | nil => exact (hne rfl).elim
  | cons block parents ih =>
    obtain ⟨_, hone, _, _, htail⟩ := hshape
    rw [chainWeight_cons, List.length_cons, pow_succ, Nat.mul_comm]
    apply Nat.mul_le_mul_left
    by_cases hp : parents = []
    · subst hp
      simp only [List.length_nil, pow_zero]
      omega
    · have h := ih htail hp
      omega

theorem one_le_chainWeight {fanOut d : Nat} {blocks : List KeyBlock}
    (hshape : Shaped fanOut d blocks) (hne : blocks ≠ []) : 1 ≤ chainWeight fanOut blocks := by
  obtain ⟨block, parents, rfl⟩ := List.exists_cons_of_ne_nil hne
  have hone := hshape.2.1
  rw [chainWeight_cons]
  omega

/-- With a fan-out of one, a chain that accounts for less than one key is empty. -/
theorem chain_length_le {fanOut d k : Nat} {blocks : List KeyBlock} (hfan : 1 ≤ fanOut)
    (hshape : Shaped fanOut d blocks) (hweight : chainWeight fanOut blocks < fanOut ^ k) :
    blocks.length ≤ k := by
  by_cases hne : blocks = []
  · simp [hne]
  · rcases Nat.eq_or_lt_of_le hfan with rfl | hfan
    · have hone := one_le_chainWeight hshape hne
      rw [one_pow] at hweight
      omega
    · have h := pow_length_le_chainWeight hshape hne
      have hlt : fanOut ^ blocks.length < fanOut ^ (k + 1) := by
        rw [pow_succ, Nat.mul_comm]
        exact lt_of_le_of_lt h (Nat.mul_lt_mul_of_pos_left hweight (by omega))
      exact Nat.lt_succ_iff.mp ((Nat.pow_lt_pow_iff_right hfan).mp hlt)

/-- The data a chain of pending key blocks stands for: that of the topmost block first. -/
def Pending (holds : Holds H) (serialize : H → Bytes) : Nat → List KeyBlock → Bytes → Prop
  | _, [], xs => xs = []
  | d, block :: parents, xs => ∃ hs xss ys, block.keyCount = hs.length ∧
      block.keys.drop keyBlockHeaderSize = hs.flatMap serialize ∧
      List.Forall₂ (Encodes holds serialize d) hs xss ∧
      Pending holds serialize (d + 1) parents ys ∧ xs = ys ++ xss.flatten

theorem Pending.mono {holds holds' : Holds H} {serialize : H → Bytes}
    (hkeep : ∀ role h b, holds role h b → holds' role h b) {d : Nat} {blocks : List KeyBlock}
    {xs : Bytes} (hp : Pending holds serialize d blocks xs) :
    Pending holds' serialize d blocks xs := by
  induction blocks generalizing d xs with
  | nil => exact hp
  | cons block parents ih =>
    obtain ⟨hs, xss, ys, hcount, hkeys, hall, hparents, rfl⟩ := hp
    exact ⟨hs, xss, ys, hcount, hkeys, hall.imp fun _ _ => Encodes.mono hkeep, ih hparents, rfl⟩

end Libchop
