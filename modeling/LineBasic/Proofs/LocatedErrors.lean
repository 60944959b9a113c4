import LineBasic.Proofs.Concatenation
import LineBasic.Proofs.Rows
import LineBasic.Proofs.SoundReading

/-!
# Complaints point into the source

A program that cannot be read is at fault over a token or over its grammar, and the complaint says where
in the source. That no source makes the readers themselves fail is known from the sizes of lexers, and so
no larger bound on their turns would make a difference.
-/

namespace LineBasic

set_option autoImplicit false

theorem Error.About.withSource {text : List Char} {e : Error} (h : e.About text) (source : String) :
    (e.withSource source).About text := by
  unfold Error.withSource
  split
  · exact ⟨h.kind_ne, h.pos_in⟩
  · exact h

/-- The code that is read when the readers may nest and repeat up to `bound` times. -/
def ReadsWithin (bound : Nat) (source : String) (code : Code) : Prop :=
  ∃ d l, Build.program bound {} (Lexer.ofSource source) = .ok (((), d), l) ∧ d.finish = .ok code

/-- Bounds beyond the length of the source all give the same code. The two runs are those of one
source beside itself. -/
theorem ReadsWithin.of_lt {source : String} {code : Code} {m n : Nat} (hm : source.length < m)
    (hn : source.length < n) (h : ReadsWithin m source code) : ReadsWithin n source code := by
  obtain ⟨d, l, hrun, hfinish⟩ := h
  let K := Coupling.below 0 {} rfl
  have hlinked : K.Linked (Cursor.ofSource source) (Cursor.ofSource source) := rfl
  have hran : K.Ran _ _ := Coupling.ran_source (Coupling.beside_of_linked hlinked none none) hm hn
  rcases hran.both rfl with ⟨d', l', r, hd, hr, -⟩ | ⟨e, -, he, -⟩
  · rw [hrun] at hd
    cases hd
    have hdraft : K.draft d = d := d.empty_behind_id
    rw [hdraft] at hr
    exact ⟨d, r, hr, hfinish⟩
  · rw [hrun] at he
    cases he

end LineBasic
