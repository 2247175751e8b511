import Mathlib

set_option autoImplicit false

/- The triangle kernel reads an `UndirectedCsrGraph<NI>` through two methods only:
`node_count()` and `neighbors_iter(u)`, the slice `targets[offsets[u]..offsets[u + 1]]`.
The graph is modelled by exactly these two; node ids are `Nat` here, and the
width of `NI` is brought back where it matters (`GraphKernels.Overflow`). -/
namespace GraphKernels

/-- The kernel's view of `UndirectedCsrGraph<NI>`. -/
structure UndirectedCsrGraph where
  nodeCount : Nat
  neighbors : Nat → List Nat

namespace UndirectedCsrGraph

/-- `b` appears in the neighbour slice of `a`. -/
def Adjacent (g : UndirectedCsrGraph) (a b : Nat) : Prop := b ∈ g.neighbors a

instance (g : UndirectedCsrGraph) (a b : Nat) : Decidable (g.Adjacent a b) :=
  inferInstanceAs (Decidable (b ∈ g.neighbors a))

/-- The undirected `Deduplicated` layout over the nodes `0..node_count` as the spec describes
the `graph` crate's builder, which is not in `src/`: strictly ascending slices of ids below
`node_count`, adjacency symmetric, a self-loop stored once. -/
structure Deduplicated (g : UndirectedCsrGraph) : Prop where
  ascending : ∀ u < g.nodeCount, (g.neighbors u).Sorted (· < ·)
  bounded : ∀ u < g.nodeCount, ∀ v ∈ g.neighbors u, v < g.nodeCount
  symmetric : ∀ a < g.nodeCount, ∀ b < g.nodeCount, g.Adjacent a b → g.Adjacent b a

/-- The layout the triangle counter is meant for: deduplicated and without self-loops. -/
structure WellFormed (g : UndirectedCsrGraph) extends g.Deduplicated : Prop where
  loopFree : ∀ a < g.nodeCount, ¬ g.Adjacent a a

theorem Deduplicated.ascending_le {g : UndirectedCsrGraph} (dedup : g.Deduplicated) {u : Nat}
    (hu : u < g.nodeCount) : (g.neighbors u).Sorted (· ≤ ·) :=
  (dedup.ascending u hu).le_of_lt

theorem Deduplicated.nodup {g : UndirectedCsrGraph} (dedup : g.Deduplicated) {u : Nat}
    (hu : u < g.nodeCount) : (g.neighbors u).Nodup :=
  (dedup.ascending u hu).nodup

/-- The unordered triangles: 3-element node sets that are pairwise adjacent. -/
def triangles (g : UndirectedCsrGraph) : Finset (Finset Nat) :=
  ((Finset.range g.nodeCount).powersetCard 3).filter
    fun s => ∀ a ∈ s, ∀ b ∈ s, a ≠ b → g.Adjacent a b

/-- The slices with every self-loop entry `a ∈ neighbors(a)` removed. -/
def withoutLoops (g : UndirectedCsrGraph) : UndirectedCsrGraph :=
  { g with neighbors := fun a => (g.neighbors a).filter (· ≠ a) }

end UndirectedCsrGraph

end GraphKernels
