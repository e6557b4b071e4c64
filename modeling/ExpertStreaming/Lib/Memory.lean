import ExpertStreaming.Lib.Region

/-! # Flat memory

A memory maps every address to a byte. A write replaces the bytes of one region
and nothing else; reads are compared as lists, so a partially filled region is
described by the prefix already written.
-/
namespace ExpertStreaming.Lib

/-- Memory with contents in `β`; nothing here depends on what a byte is. -/
def Memory (β : Type) := Nat → β

namespace Memory

variable {β : Type}

variable (m : Memory β)

def read (off len : Nat) : List β := (List.range len).map fun i => m (off + i)

def write (off : Nat) (bs : List β) : Memory β := fun a =>
  if off ≤ a then (bs[a - off]?).getD (m a) else m a

@[simp] theorem length_read (off len : Nat) : (m.read off len).length = len := by
  simp [read]

@[simp] theorem read_zero (off : Nat) : m.read off 0 = [] := rfl

theorem getElem?_read (off len i : Nat) :
    (m.read off len)[i]? = if i < len then some (m (off + i)) else none := by
  by_cases h : i < len
  · simp [read, h]
  · simp [read, h]

theorem read_add (off a b : Nat) :
    m.read off (a + b) = m.read off a ++ m.read (off + a) b := by
  simp [read, List.range_add, Nat.add_assoc]

theorem read_congr {m m' : Memory β} {off len : Nat}
    (h : ∀ a, off ≤ a → a < off + len → m a = m' a) : m.read off len = m'.read off len := by
  apply List.map_congr_left
  intro i hi
  exact h _ (by omega) (by have := List.mem_range.mp hi; omega)

theorem write_outside {off a bs} (h : a < off ∨ off + bs.length ≤ a) :
    m.write off bs a = m a := by
  unfold write
  split
  · rw [List.getElem?_eq_none (by omega)]; rfl
  · rfl

theorem read_write_self (off : Nat) (bs : List β) :
    (m.write off bs).read off bs.length = bs := by
  apply List.ext_getElem?
  intro i
  rw [getElem?_read]
  by_cases h : i < bs.length
  · simp [h, write]
  · simp [h]

theorem read_write_apart {off len off' : Nat} {bs : List β}
    (h : Region.Apart ⟨off, len⟩ ⟨off', bs.length⟩) :
    (m.write off' bs).read off len = m.read off len := by
  apply read_congr
  intro a h₁ h₂
  apply write_outside
  unfold Region.Apart Region.stop at h
  simp only at h
  omega

/-- Extending a filled prefix by the next bytes. -/
theorem read_write_append {m : Memory β} {off n : Nat} {done : List β} (bs : List β)
    (h : m.read off n = done) : (m.write (off + n) bs).read off (n + bs.length) = done ++ bs := by
  rw [read_add, read_write_self, read_write_apart, h]
  left; simp [Region.stop]

end Memory

end ExpertStreaming.Lib
