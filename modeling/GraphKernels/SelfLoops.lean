import GraphKernels.Dispatch

set_option autoImplicit false

/- Self-loops, which the undirected `Deduplicated` layout stores once in the node's own
slice by the spec's account of the builder (the builder is not in `src/`). The breaks `if v > u` and `if w > v` let `v = u` and `w = v` through, so the
intersection matches a loop: a loop at `a` adds the length of the slice of `a` to the count. -/
namespace GraphKernels.SelfLoops

open Dispatch UndirectedCsrGraph

theorem exists_finished {g : UndirectedCsrGraph} {chunkSize T : Nat} (positive : 0 < chunkSize) :
    ∃ s : State T, Reachable (· + ·) g chunkSize s ∧ Finished s :=
  (completes positive (init T)).imp fun _ done => done

theorem total_of_finished {g : UndirectedCsrGraph} {chunkSize T : Nat} {s : State T}
    (reach : Reachable (· + ·) g chunkSize s) (fin : Finished s) (i₀ : Fin T) :
    s.totalTriangles = ∑ u ∈ Finset.range g.nodeCount, nodeTriangles g u :=
  (reach.inv.finished fin i₀).2

section Deduplicated

open Finset

variable {g : UndirectedCsrGraph} (dedup : g.Deduplicated)
include dedup

/-- On every deduplicated layout a self-loop at `a` is counted once for each entry of the
slice of `a`, the loop included. -/
theorem sum_nodeTriangles_with_loops :
    ∑ u ∈ range g.nodeCount, nodeTriangles g u =
      (triangles g).card +
        ∑ a ∈ (range g.nodeCount).filter (fun a => g.Adjacent a a), (g.neighbors a).length := by
  have symm : ∀ a b, a < g.nodeCount → b < g.nodeCount → (g.Adjacent a b ↔ g.Adjacent b a) :=
    fun a b ha hb => ⟨dedup.symmetric a ha b hb, dedup.symmetric b hb a ha⟩
  have strict : ∑ u ∈ range g.nodeCount, ∑ v ∈ (range u).filter (g.Adjacent u),
      ((range v).filter fun w => g.Adjacent v w ∧ g.Adjacent u w).card = (triangles g).card := by
    rw [← card_orderedTriangles dedup, orderedTriangles, card_sigma]
    exact sum_congr rfl fun u _ => (card_sigma _ _).symm
  -- a loop at `v` is met once from each neighbour `u > v`
  have above : ∑ u ∈ range g.nodeCount,
      ((range u).filter fun v => g.Adjacent u v ∧ g.Adjacent v v).card =
      ∑ a ∈ (range g.nodeCount).filter (fun a => g.Adjacent a a),
        ((range g.nodeCount).filter fun x => a < x ∧ g.Adjacent a x).card := by
    simp only [card_eq_sum_ones]
    refine sum_comm' fun u v => ?_
    simp only [mem_filter, mem_range]
    constructor
    · rintro ⟨hu, vu, uv, loop⟩
      exact ⟨⟨hu, vu, (symm u v hu (by omega)).mp uv⟩, by omega, loop⟩
    · rintro ⟨⟨hu, vu, vu'⟩, hv, loop⟩
      exact ⟨hu, vu, (symm v u hv hu).mp vu', loop⟩
  have split : ∀ a ∈ (range g.nodeCount).filter (fun a => g.Adjacent a a),
      ((range g.nodeCount).filter fun x => a < x ∧ g.Adjacent a x).card +
        ((range (a + 1)).filter (g.Adjacent a)).card = (g.neighbors a).length := by
    intro a mem
    have ha := mem_range.mp (mem_filter.mp mem).1
    have slice : (g.neighbors a).toFinset = (range g.nodeCount).filter (g.Adjacent a) := by
      ext x
      simp only [List.mem_toFinset, mem_filter, mem_range, UndirectedCsrGraph.Adjacent]
      exact ⟨fun adj => ⟨dedup.bounded a ha x adj, adj⟩, And.right⟩
    have below : ((range (a + 1)).filter (g.Adjacent a)) =
        ((range g.nodeCount).filter (g.Adjacent a)).filter fun x => ¬ a < x := by
      ext x
      simp only [mem_filter, mem_range, not_lt, Nat.lt_succ_iff]
      exact ⟨fun ⟨le, adj⟩ => ⟨⟨by omega, adj⟩, le⟩, fun ⟨⟨_, adj⟩, le⟩ => ⟨le, adj⟩⟩
    have parts := @filter_card_add_filter_neg_card_eq_card _
      ((range g.nodeCount).filter (g.Adjacent a)) (fun x => a < x) _ _
    rw [filter_filter] at parts
    rw [← List.toFinset_card_of_nodup (dedup.nodup ha), slice, below,
      filter_congr fun x _ => and_comm, parts]
  rw [sum_congr rfl fun u mem => nodeTriangles_eq_strict_add dedup (mem_range.mp mem),
    sum_add_distrib, sum_add_distrib, strict, above, ← sum_filter, add_assoc, ← sum_add_distrib,
    sum_congr rfl split]

end Deduplicated

/-- On every deduplicated layout, self-loops allowed, `global_triangle_count` returns in every
interleaving: no run is infinite and from every state the workers can run until all have
returned. It then returns the number of triangles plus, for each node with a self-loop, the
length of its neighbour slice. -/
theorem global_triangle_count_with_loops (g : UndirectedCsrGraph) (dedup : g.Deduplicated)
    (chunkSize T : Nat) (positive : 0 < chunkSize) (workers : 0 < T) :
    (∀ run : ℕ → State T, ¬ ∀ k, Step (· + ·) g chunkSize (run k) (run (k + 1))) ∧
    (∀ s : State T, ∃ s', Relation.ReflTransGen (Step (· + ·) g chunkSize) s s' ∧ Finished s') ∧
      ∀ s : State T, Reachable (· + ·) g chunkSize s → Finished s →
        s.totalTriangles = (triangles g).card +
          ∑ a ∈ (Finset.range g.nodeCount).filter (fun a => g.Adjacent a a), (g.neighbors a).length :=
  ⟨no_infinite_run positive, completes positive, fun _ reach fin =>
    (total_of_finished reach fin ⟨0, workers⟩).trans (sum_nodeTriangles_with_loops dedup)⟩

def loopedTriangle : UndirectedCsrGraph := ⟨3, fun u => [[0, 1, 2], [0, 2], [0, 1]].getD u []⟩

theorem global_triangle_count_with_loops_on_looped_triangle :
    loopedTriangle.Deduplicated ∧ 0 < CHUNK_SIZE ∧ 0 < 2 ∧
      ∀ s : State 2, Reachable (· + ·) loopedTriangle CHUNK_SIZE s → Finished s →
        s.totalTriangles = 4 :=
  have dedup : loopedTriangle.Deduplicated := ⟨by decide, by decide, by decide⟩
  ⟨dedup, by decide, by decide, fun s reach fin =>
    ((global_triangle_count_with_loops loopedTriangle dedup CHUNK_SIZE 2 (by decide)
      (by decide)).2.2 s reach fin).trans (by decide)⟩

/-- One node with a self-loop: the edge list `[(0, 0)]`. -/
def loopGraph : UndirectedCsrGraph := ⟨1, fun _ => [0]⟩

/-- On the one-node graph with a self-loop every run returns `1`, and `0` once the loop is
removed. -/
theorem global_triangle_count_counts_self_loop :
    loopGraph.Deduplicated ∧
    (∃ s : State 1, Reachable (· + ·) loopGraph CHUNK_SIZE s ∧ Finished s) ∧
    (∀ s : State 1, Reachable (· + ·) loopGraph CHUNK_SIZE s → Finished s →
      s.totalTriangles = 1) ∧
    (∃ s : State 1, Reachable (· + ·) loopGraph.withoutLoops CHUNK_SIZE s ∧ Finished s) ∧
    (∀ s : State 1, Reachable (· + ·) loopGraph.withoutLoops CHUNK_SIZE s → Finished s →
      s.totalTriangles = 0) :=
  ⟨⟨by decide, by decide, by decide⟩, exists_finished (by decide),
    fun _ reach fin => (total_of_finished reach fin 0).trans (by decide),
    exists_finished (by decide),
    fun _ reach fin => (total_of_finished reach fin 0).trans (by decide)⟩

end GraphKernels.SelfLoops
