/-! # Similar texts

How much two texts share is found block by block: take the longest block of
characters that stands in both, then go on with what is in front of it in both
and with what is behind it in both. Of two longest blocks the one that starts
earlier in the first text counts, then the one that starts earlier in the second.
The parts in front and behind are shorter than the first text, by
`Block.fits_longestBlock`, so the search ends. Since the order of the texts
decides between blocks, `shared xs ys` and `shared ys xs` may differ. -/
namespace Parlance.Text

/-! ## Shared blocks -/

/-- A block that two texts share: where it starts in each, and its length. -/
structure Block where
  left : Nat
  right : Nat
  size : Nat
deriving DecidableEq

/-- How many characters two texts share at their start. -/
def agreement : List Char → List Char → Nat
  | x :: xs, y :: ys => if x = y then agreement xs ys + 1 else 0
  | _, _ => 0

theorem agreement_le_length (xs ys : List Char) : agreement xs ys ≤ xs.length := by
  induction xs generalizing ys with
  | nil => simp [agreement]
  | cons x xs ih =>
    cases ys with
    | nil => simp [agreement]
    | cons y ys =>
      have := ih ys
      simp only [agreement, List.length_cons]
      split <;> omega

namespace Block

/-- The longer of two blocks, and the first if they are equally long. -/
def longer (b c : Block) : Block := if b.size < c.size then c else b

/-- The longest of `best` and the blocks that start with `xs`, at place `i` of the
first text, and in `ys`, at place `j` or later of the second. -/
def longestAt (xs : List Char) (i : Nat) : Nat → List Char → Block → Block
  | _, [], best => best
  | j, y :: ys, best => longestAt xs i (j + 1) ys (best.longer ⟨i, j, agreement xs (y :: ys)⟩)

/-- The longest of `best` and the blocks that start in `xs`, at place `i` or later
of the first text, and anywhere in the second. -/
def longestFrom (ys : List Char) : Nat → List Char → Block → Block
  | _, [], best => best
  | i, x :: xs, best => longestFrom ys (i + 1) xs (longestAt (x :: xs) i 0 ys best)

/-- Does the block end within the first `n` characters of the first text? -/
def Fits (n : Nat) (b : Block) : Prop := b.left + b.size ≤ n

theorem fits_longer {n : Nat} {b c : Block} (hb : b.Fits n) (hc : c.Fits n) :
    (b.longer c).Fits n := by
  unfold longer
  split
  · exact hc
  · exact hb

theorem fits_longestAt {n i : Nat} {xs : List Char} (hn : i + xs.length ≤ n)
    (ys : List Char) (j : Nat) {best : Block} (hb : best.Fits n) :
    (longestAt xs i j ys best).Fits n := by
  induction ys generalizing j best with
  | nil => exact hb
  | cons y ys ih =>
    have hc := agreement_le_length xs (y :: ys)
    exact ih (j + 1) (fits_longer hb (by simp only [Fits]; omega))

theorem fits_longestFrom {n : Nat} (ys xs : List Char) {i : Nat} (hn : i + xs.length ≤ n)
    {best : Block} (hb : best.Fits n) : (longestFrom ys i xs best).Fits n := by
  induction xs generalizing i best with
  | nil => exact hb
  | cons x xs ih =>
    have hi : i + 1 + xs.length ≤ n := by
      simp only [List.length_cons] at hn
      omega
    exact ih hi (fits_longestAt hn ys 0 hb)

end Block

/-- The first of the longest blocks that two texts share. -/
def longestBlock (xs ys : List Char) : Block := Block.longestFrom ys 0 xs ⟨0, 0, 0⟩

/-- The longest shared block lies within the first text. -/
theorem Block.fits_longestBlock (xs ys : List Char) : (longestBlock xs ys).Fits xs.length :=
  Block.fits_longestFrom ys xs (by omega) (Nat.zero_le _)

/-- How many characters two texts share, block by block. -/
def shared (xs ys : List Char) : Nat :=
  let block := longestBlock xs ys
  if block.size = 0 then 0
  else
    shared (xs.take block.left) (ys.take block.right) + block.size +
      shared (xs.drop (block.left + block.size)) (ys.drop (block.right + block.size))
termination_by xs.length
decreasing_by
  all_goals
    have hfits : (longestBlock xs ys).left + (longestBlock xs ys).size ≤ xs.length :=
      Block.fits_longestBlock xs ys
    have hsize : (longestBlock xs ys).size ≠ 0 := ‹_›
    simp only [List.length_take, List.length_drop]
    omega

/-! ## The closest words -/

/-- Do two texts share at least three fifths of their characters? -/
def isSimilar (xs ys : List Char) : Bool := 3 * (xs.length + ys.length) ≤ 10 * shared xs ys

/-- The order of a dictionary by code points. -/
def inOrder : List Char → List Char → Bool
  | [], _ => true
  | _ :: _, [] => false
  | x :: xs, y :: ys => x.toNat < y.toNat || (x = y && inOrder xs ys)

/-- Is `xs` at least as close to the word as `ys`? The share of shared characters
decides, and between equals the later in the dictionary is closer. -/
def isCloser (word xs ys : List Char) : Bool :=
  let share := shared xs word * (ys.length + word.length)
  let other := shared ys word * (xs.length + word.length)
  other < share || (other = share && inOrder ys xs)

/-- The candidates that are similar to a word, the `count` closest of them, in the
order of a dictionary. -/
def closest (count : Nat) (word : String) (candidates : List String) : List String :=
  let similar := (candidates.map String.toList).filter (isSimilar · word.toList)
  let best := (similar.mergeSort (isCloser word.toList)).take count
  (best.mergeSort inOrder).map String.ofList

end Parlance.Text
