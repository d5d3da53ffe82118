/-
# Blocks of one size in a stream

A sender puts blocks of one size into a stream that keeps their order but not their
ends, and a receiver takes pieces from its front. What is left is the concatenation of
all blocks without what was taken. As long as whole blocks were taken, the next piece of
the size of a block is the next block.
-/

import Mathlib.Data.List.Basic

namespace BliveQueue.Math

universe u

variable {α : Type u} {n taken k : ℕ} {blocks : List (List α)} {block chunk rest : List α}

/-- What is left of a stream of blocks of one size after some items have been taken. -/
structure BlockStream (n : ℕ) (blocks : List (List α)) (taken : ℕ) (rest : List α) : Prop where
  length : ∀ block ∈ blocks, block.length = n
  taken_le : taken ≤ blocks.flatten.length
  rest_eq : rest = blocks.flatten.drop taken

/-- Whole blocks at the front of a stream are dropped one by one. -/
theorem drop_flatten_mul (h : ∀ block ∈ blocks, block.length = n) (k : ℕ) :
    blocks.flatten.drop (n * k) = (blocks.drop k).flatten := by
  induction k generalizing blocks with
  | zero => rfl
  | succ k ih =>
      cases blocks with
      | nil => simp
      | cons block blocks =>
          have hlen : block.length = n := h block List.mem_cons_self
          have hrest : ∀ b ∈ blocks, b.length = n := fun b hb => h b (List.mem_cons_of_mem _ hb)
          calc (block :: blocks).flatten.drop (n * (k + 1))
            _ = ((block ++ blocks.flatten).drop block.length).drop (n * k) := by
              rw [List.flatten_cons, List.drop_drop, hlen, Nat.mul_succ, Nat.add_comm]
            _ = (blocks.drop k).flatten := by rw [List.drop_left, ih hrest]
            _ = ((block :: blocks).drop (k + 1)).flatten := rfl

namespace BlockStream

/-- The stream before the first block. -/
theorem nil : BlockStream n ([] : List (List α)) 0 [] where
  length := by simp
  taken_le := Nat.le_refl 0
  rest_eq := rfl

/-- A block that is sent comes last. -/
theorem send (h : BlockStream n blocks taken rest) (hblock : block.length = n) :
    BlockStream n (blocks ++ [block]) taken (rest ++ block) where
  length := by
    rw [List.forall_mem_append, List.forall_mem_singleton]
    exact ⟨h.length, hblock⟩
  taken_le := by
    rw [List.flatten_append, List.length_append]
    exact Nat.le_add_right_of_le h.taken_le
  rest_eq := by
    rw [List.flatten_append, List.flatten_singleton, List.drop_append_of_le_length h.taken_le,
      h.rest_eq]

/-- Any piece may be taken from the front. -/
theorem take (h : BlockStream n blocks taken rest) (hchunk : chunk <+: rest) :
    BlockStream n blocks (taken + chunk.length) (rest.drop chunk.length) where
  length := h.length
  taken_le := by
    have hlen : chunk.length ≤ rest.length := hchunk.length_le
    rw [h.rest_eq, List.length_drop] at hlen
    exact Nat.add_le_of_le_sub' h.taken_le hlen
  rest_eq := by rw [h.rest_eq, List.drop_drop]

/-- A piece that has the size of a block and begins where a block begins is that block. -/
theorem getElem?_of_prefix (h : BlockStream n blocks (n * k) rest) (hn : 0 < n)
    (hchunk : chunk <+: rest) (hlen : chunk.length = n) : blocks[k]? = some chunk := by
  rw [h.rest_eq, drop_flatten_mul h.length] at hchunk
  rw [← List.head?_drop]
  cases hdrop : blocks.drop k with
  | nil =>
      rw [hdrop, List.flatten_nil, List.prefix_nil] at hchunk
      rw [hchunk, List.length_nil] at hlen
      omega
  | cons block later =>
      have hmem : block ∈ blocks := List.mem_of_mem_drop (hdrop ▸ List.mem_cons_self)
      rw [hdrop, List.flatten_cons] at hchunk
      have hsame : chunk.length = block.length := hlen.trans (h.length block hmem).symm
      obtain ⟨tail, htail⟩ := hchunk
      have heq : chunk = block := List.append_inj_left htail hsame
      rw [heq, List.head?_cons]

end BlockStream

end BliveQueue.Math
