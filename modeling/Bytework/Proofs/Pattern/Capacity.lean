import Bytework.Proofs.Pattern.Layout
import Mathlib

/-!
# How large programs are

* `compile_of_parse`: what a pattern compiles to, by the size of its tree.
* **`compile_size`**: the program of a tree has three instructions more than the tree takes, and a
  tree is refused exactly if that is more than a program may have.
-/

namespace Bytework.Pattern

variable {pattern : Bytes} {t : Tree} {groups : Nat}

theorem compile_of_parse (h : Tree.parse pattern = .ok (t, groups)) (ungreedy : Bool) :
    compile ungreedy pattern =
      if t.size + 3 ≤ maxProgram then
        .ok ⟨(.save 0 :: (t.emit ungreedy 1 ++ [.save 1, .accept])).toArray, groups⟩
      else .error .tooLarge := by
  simp only [compile, h, Program.ofTree?_eq]
  by_cases hsize : t.size + 3 ≤ maxProgram
  · rw [if_pos hsize, if_pos hsize]
  · rw [if_neg hsize, if_neg hsize]

/-- **How large a program is.** Items one after the other take as many instructions as all of them,
alternatives two more for each but the last one, and the marks of the whole match and its end are
three more than those of the tree; no program is made of a tree exactly if these are too many,
whichever way quantifiers are read. -/
theorem compile_size (h : Tree.parse pattern = .ok (t, groups)) (ungreedy : Bool) :
    (compile ungreedy pattern = .error .tooLarge ↔ maxProgram < t.size + 3) ∧
    (t.size + 3 ≤ maxProgram →
      ∃ p, compile ungreedy pattern = .ok p ∧ p.insts.size = t.size + 3) ∧
    (∀ items, (Tree.ofItems items).size = (items.map Tree.size).sum) ∧
    ∀ branch branches, (Tree.ofBranches (branch :: branches)).size =
      ((branch :: branches).map Tree.size).sum + 2 * branches.length := by
  rw [compile_of_parse h]
  refine ⟨?refused, fun hsize => ⟨_, if_pos hsize, ?_⟩, Tree.size_ofItems, Tree.size_ofBranches⟩
  case refused =>
    by_cases hsize : t.size + 3 ≤ maxProgram
    · rw [if_pos hsize]
      exact iff_of_false (fun herror => by cases herror) (Nat.not_lt.mpr hsize)
    · rw [if_neg hsize]
      exact iff_of_true rfl (Nat.not_le.mp hsize)
  · simp

/-- The tree of `(?:a{1000}){65}a{n}`. -/
def copies (n : Nat) : Tree :=
  .seq (.rep (.group (.rep (.byte 97) 1000 (some 1000) true) none) 65 (some 65) true)
    (.rep (.byte 97) n (some n) true)

/-- The largest program, and one with an instruction too many. -/
theorem compile_size_copies :
    (Tree.parse (ascii "(?:a\x7b1000\x7d)\x7b65\x7da\x7b533\x7d") = .ok (copies 533, 0) ∧
      ∃ p, compile true (ascii "(?:a\x7b1000\x7d)\x7b65\x7da\x7b533\x7d") = .ok p ∧
        p.insts.size = 65536) ∧
    Tree.parse (ascii "(?:a\x7b1000\x7d)\x7b65\x7da\x7b534\x7d") = .ok (copies 534, 0) ∧
      compile false (ascii "(?:a\x7b1000\x7d)\x7b65\x7da\x7b534\x7d") = .error .tooLarge := by
  have hfits : Tree.parse (ascii "(?:a\x7b1000\x7d)\x7b65\x7da\x7b533\x7d") = .ok (copies 533, 0) := by
    cbv
  have hmore : Tree.parse (ascii "(?:a\x7b1000\x7d)\x7b65\x7da\x7b534\x7d") = .ok (copies 534, 0) := by
    cbv
  exact ⟨⟨hfits, (compile_size hfits true).2.1 (by decide)⟩, hmore,
    (compile_size hmore false).1.mpr (by decide)⟩

end Bytework.Pattern
