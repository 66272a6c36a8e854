import MonkeySyntax.Files

/-!
# Files after a write

A write moves no directory, and so every path leads where it led before. Paths that lead to the
place of the write read what was written, however they are spelt; all others read what they read
before.
-/

namespace MonkeySyntax.Files

variable {fs before after : Files} {s t : String} {p q : Place} {bytes : ByteArray}

/-- The files differ at one place, which holds the given contents. -/
structure Overwritten (before after : Files) (p : Place) (bytes : ByteArray) : Prop where
  written : after.get? p = some bytes
  others : ∀ q, q ≠ p → after.get? q = before.get? q
  directories : after.directories = before.directories
  here : after.here = before.here

theorem write_eq_error_iff {e : FileFault} :
    fs.write s bytes = .error e ↔ fs.target s = .error e := by
  unfold write
  cases fs.target s <;> simp

theorem overwritten_of_write (h : before.write s bytes = .ok after) :
    ∃ p, before.target s = .ok p ∧ Overwritten before after p bytes := by
  obtain ⟨p, htarget, hafter⟩ := write_eq_ok_iff.mp h
  refine ⟨p, htarget, ?_⟩
  constructor
  · exact get?_write h htarget
  · intro q hq
    exact get?_write_of_ne h htarget hq
  · rw [hafter]
  · rw [hafter]

namespace Overwritten

end Overwritten

end MonkeySyntax.Files
