import ExactCover.Proofs.Matrix.InPlace
import ExactCover.Proofs.Search.Refinement

/-!
# A search ends, and nothing in it goes wrong

There is no measure to be seen in the loops of a search. Each follows links until they lead back to
its start, along lists that the search takes apart meanwhile, and the loop over the rows of a column
goes on from whatever link the search below a row has left there. All of them end nevertheless, on
every matrix that can be built and for every puzzle.

To say so, the search runs here on the loops that read each link only when they come to it, and with
nothing to spare: each loop, the one over the rows included, may take no more steps than a given
number, and the search may go no deeper than there are live columns after the initial moves were
covered. Whatever goes wrong is a `Fault`: a node or a column that is not there, a list that does
not close, a size that would fall below zero, a search that is too deep. An answer is therefore the
absence of all of them. It does not depend on the number either, so loops without any bound come to
the same answer.

* **`CoverOps.inPlace`**: the operations, within a number of steps.
* **`CoverOps.inPlace_sound`**: as many steps as there are nodes are enough for them.
* **`solveWith_ends`**: a whole search, on every matrix that can be built.
-/

namespace ExactCover

variable {L : Layout} {bound : Nat}

/-- The operations that follow links as they change, where no loop takes more steps than `bound` and
the search goes no deeper than there are live columns. -/
def CoverOps.inPlace (bound : Nat) : CoverOps where
  cover := InPlace.cover bound
  uncover := InPlace.uncover bound
  coverRow := InPlace.coverRow bound
  uncoverRow := InPlace.uncoverRow bound
  steps _ := bound
  depth _ _ live := live

/-- These are sound if the loops may take as many steps as there are nodes. -/
theorem CoverOps.inPlace_sound (hbound : L.ids.length ≤ bound) :
    (CoverOps.inPlace bound).Sound L where
  cover := InPlace.covers hbound
  coverRow h hr hlive := InPlace.coverRow_eq hbound h hr hlive
  steps h hc := Nat.lt_of_lt_of_le (h.length_through_lt hc) (h.size ▸ hbound)
  depth _ _ _ := Nat.le_refl _

/-- **A search ends, and nothing in it goes wrong.** On every matrix that can be built, for every
puzzle, either rule of branching and every budget, it answers within as many steps of each loop as
there are nodes, no deeper than there are columns left when it starts. Any number of further steps
leads to the same answer, which is also the one of the search that lists nodes beforehand. -/
theorem solveWith_ends {σ μ : Type} [Move μ] [Puzzle σ μ] (additions : List Addition) (p : σ)
    (o : Search.Options) :
    ∃ m out, Matrix.build additions = .ok m ∧ Search.solveWith p o m = .ok out ∧
      ∀ more, (CoverOps.inPlace (m.mesh.size + more)).solveWith p o m = .ok out := by
  obtain ⟨L, m, hbuild, hm, -⟩ := Represents.build additions
  refine ⟨m, _, hbuild, solveWith_eq hm p o, fun more => ?_⟩
  have hsound : (CoverOps.inPlace (m.mesh.size + more)).Sound L :=
    CoverOps.inPlace_sound (hm.size ▸ Nat.le_add_right _ _)
  exact hsound.solveWith_eq hm p o

end ExactCover
