import GraphKernels.Enumerate

set_option autoImplicit false

/- On a deduplicated, loop-free, symmetric layout the enumeration visits each unordered
triangle `{a, b, c}` exactly once, as its ordering `w < v < u`: the count needs no
division. Where the layout stores self-loops the enumeration also meets `v = u` and
`w = v`, split off here for `GraphKernels.SelfLoops`. -/
namespace GraphKernels

open UndirectedCsrGraph Finset

/-- The triples `w < v < u` the enumeration looks for: `v` and `w` neighbours of `u`,
`w` a neighbour of `v`. -/
def orderedTriangles (g : UndirectedCsrGraph) : Finset (Σ _ : Nat, Σ _ : Nat, Nat) :=
  (range g.nodeCount).sigma fun u => ((range u).filter (g.Adjacent u)).sigma fun v =>
    (range v).filter fun w => g.Adjacent v w ∧ g.Adjacent u w

theorem eq_of_sorted_triple {u v w u' v' w' : Nat} (wv : w < v) (vu : v < u)
    (wv' : w' < v') (vu' : v' < u') (same : ({u, v, w} : Finset Nat) = {u', v', w'}) :
    u = u' ∧ v = v' ∧ w = w' := by
  have mem : ∀ a, a = u ∨ a = v ∨ a = w ↔ a = u' ∨ a = v' ∨ a = w' := fun a => by
    simpa only [mem_insert, mem_singleton] using Finset.ext_iff.mp same a
  have top : u = u' := by
    have := (mem u).mp (Or.inl rfl)
    have := (mem u').mpr (Or.inl rfl)
    omega
  have bottom : w = w' := by
    have := (mem w).mp (Or.inr (Or.inr rfl))
    have := (mem w').mpr (Or.inr (Or.inr rfl))
    omega
  have := (mem v).mp (Or.inr (Or.inl rfl))
  exact ⟨top, by omega, bottom⟩

theorem exists_sorted_triple {x y z : Nat} (xy : x ≠ y) (xz : x ≠ z) (yz : y ≠ z) :
    ∃ u v w, w < v ∧ v < u ∧ ({u, v, w} : Finset Nat) = {x, y, z} := by
  have perm : ∀ {a b c : Nat}, (a = x ∨ a = y ∨ a = z) → (b = x ∨ b = y ∨ b = z) →
      (c = x ∨ c = y ∨ c = z) → a ≠ b → a ≠ c → b ≠ c →
      ({a, b, c} : Finset Nat) = {x, y, z} := by
    intro a b c ha hb hc ab ac bc
    apply eq_of_subset_of_card_le
    · intro t mem
      simp only [mem_insert, mem_singleton] at mem ⊢
      rcases mem with rfl | rfl | rfl <;> assumption
    · rw [card_eq_three.mpr ⟨a, b, c, ab, ac, bc, rfl⟩, card_eq_three.mpr ⟨x, y, z, xy, xz, yz, rfl⟩]
  rcases Nat.lt_or_gt_of_ne xy with h₁ | h₁ <;> rcases Nat.lt_or_gt_of_ne xz with h₂ | h₂ <;>
    rcases Nat.lt_or_gt_of_ne yz with h₃ | h₃
  · exact ⟨z, y, x, h₁, h₃, perm (by omega) (by omega) (by omega) (by omega) (by omega) (by omega)⟩
  · exact ⟨y, z, x, h₂, h₃, perm (by omega) (by omega) (by omega) (by omega) (by omega) (by omega)⟩
  · omega
  · exact ⟨y, x, z, h₂, h₁, perm (by omega) (by omega) (by omega) (by omega) (by omega) (by omega)⟩
  · exact ⟨z, x, y, h₁, h₂, perm (by omega) (by omega) (by omega) (by omega) (by omega) (by omega)⟩
  · omega
  · exact ⟨x, z, y, h₃, h₂, perm (by omega) (by omega) (by omega) (by omega) (by omega) (by omega)⟩
  · exact ⟨x, y, z, h₃, h₁, perm (by omega) (by omega) (by omega) (by omega) (by omega) (by omega)⟩

section Deduplicated

variable {g : UndirectedCsrGraph} (dedup : g.Deduplicated)
include dedup

/-- Each unordered triangle is enumerated by exactly one ordering `w < v < u`. -/
theorem card_orderedTriangles : (orderedTriangles g).card = (triangles g).card := by
  refine card_bij (fun t _ => {t.1, t.2.1, t.2.2}) ?_ ?_ ?_
  · rintro ⟨u, v, w⟩ mem
    simp only [orderedTriangles, mem_sigma, mem_range, mem_filter] at mem
    obtain ⟨hu, ⟨vu, uv⟩, wv, vw, uw⟩ := mem
    have symm := fun a b (ha : a < g.nodeCount) (hb : b < g.nodeCount) => dedup.symmetric a ha b hb
    simp only [triangles, mem_filter, mem_powersetCard, mem_insert, mem_singleton]
    refine ⟨⟨fun a ha => ?_, card_eq_three.mpr ⟨u, v, w, by omega, by omega, by omega, rfl⟩⟩, ?_⟩
    · simp only [mem_insert, mem_singleton] at ha
      simp only [mem_range]
      omega
    · rintro a (rfl | rfl | rfl) b (rfl | rfl | rfl) ne
      all_goals first
        | exact absurd rfl ne
        | assumption
        | exact symm _ _ (by omega) (by omega) ‹_›
  · rintro ⟨u, v, w⟩ mem ⟨u', v', w'⟩ mem' same
    simp only [orderedTriangles, mem_sigma, mem_range, mem_filter] at mem mem'
    obtain ⟨rfl, rfl, rfl⟩ :=
      eq_of_sorted_triple mem.2.2.1 mem.2.1.1 mem'.2.2.1 mem'.2.1.1 same
    rfl
  · intro S mem
    simp only [triangles, mem_filter, mem_powersetCard] at mem
    obtain ⟨⟨within, three⟩, clique⟩ := mem
    obtain ⟨x, y, z, xy, xz, yz, rfl⟩ := card_eq_three.mp three
    obtain ⟨u, v, w, wv, vu, same⟩ := exists_sorted_triple xy xz yz
    rw [← same] at within clique
    have hu : u < g.nodeCount := mem_range.mp (within (by simp))
    have adj : ∀ a ∈ ({u, v, w} : Finset Nat), ∀ b ∈ ({u, v, w} : Finset Nat), a ≠ b →
        g.Adjacent a b := clique
    refine ⟨⟨u, v, w⟩, ?_, same⟩
    simp only [orderedTriangles, mem_sigma, mem_range, mem_filter]
    exact ⟨hu, ⟨vu, adj u (by simp) v (by simp) (by omega)⟩, wv,
      adj v (by simp) w (by simp) (by omega), adj u (by simp) w (by simp) (by omega)⟩

/-- The enumeration of `u`, as a count over the neighbours `v ≤ u` of `u` and their
neighbours `w ≤ v` that are neighbours of `u`. -/
theorem nodeTriangles_eq_sum {u : Nat} (hu : u < g.nodeCount) :
    nodeTriangles g u = ∑ v ∈ (range (u + 1)).filter (g.Adjacent u),
      ((range (v + 1)).filter fun w => g.Adjacent v w ∧ g.Adjacent u w).card := by
  have bounded := dedup.bounded u hu
  have lower : ((g.neighbors u).filter (· ≤ u)).toFinset = (range (u + 1)).filter (g.Adjacent u) := by
    ext v
    simp only [List.mem_toFinset, List.mem_filter, mem_filter, mem_range, decide_eq_true_eq,
      Nat.lt_succ_iff, UndirectedCsrGraph.Adjacent, and_comm]
  rw [nodeTriangles, nodeLoop_eq_sum g u _ 0 (dedup.ascending_le hu) (dedup.ascending_le hu)
    fun v mem => dedup.ascending_le (bounded v mem), Nat.zero_add,
    ← List.sum_toFinset _ ((dedup.nodup hu).filter _), lower]
  refine sum_congr rfl fun v mem => ?_
  have hv := bounded v (mem_filter.mp mem).2
  have common : ((g.neighbors v).filter fun w => w ≤ v ∧ w ∈ g.neighbors u).toFinset =
      (range (v + 1)).filter fun w => g.Adjacent v w ∧ g.Adjacent u w := by
    ext w
    simp only [List.mem_toFinset, List.mem_filter, mem_filter, mem_range, decide_eq_true_eq,
      Nat.lt_succ_iff, UndirectedCsrGraph.Adjacent]
    tauto
  rw [List.countP_eq_length_filter, ← List.toFinset_card_of_nodup ((dedup.nodup hv).filter _),
    common]

/-- Splitting off `v = u` and `w = v`: the orderings `w < v < u`, one more for each
neighbour `v < u` of `u` with a self-loop, and, when `u` has a self-loop, its neighbours
`w ≤ u`. -/
theorem nodeTriangles_eq_strict_add {u : Nat} (hu : u < g.nodeCount) :
    nodeTriangles g u =
      (∑ v ∈ (range u).filter (g.Adjacent u),
        ((range v).filter fun w => g.Adjacent v w ∧ g.Adjacent u w).card) +
      ((range u).filter fun v => g.Adjacent u v ∧ g.Adjacent v v).card +
      if g.Adjacent u u then ((range (u + 1)).filter (g.Adjacent u)).card else 0 := by
  have inner : ∀ v ∈ (range u).filter (g.Adjacent u),
      ((range (v + 1)).filter fun w => g.Adjacent v w ∧ g.Adjacent u w).card =
        ((range v).filter fun w => g.Adjacent v w ∧ g.Adjacent u w).card +
          if g.Adjacent v v then 1 else 0 := by
    intro v mem
    have uv : g.Adjacent u v := (mem_filter.mp mem).2
    rw [range_succ, filter_insert]
    by_cases loop : g.Adjacent v v
    · rw [if_pos ⟨loop, uv⟩, card_insert_of_not_mem (by simp), if_pos loop]
    · rw [if_neg fun h => loop h.1, if_neg loop, Nat.add_zero]
  have loops : ((range u).filter fun v => g.Adjacent u v ∧ g.Adjacent v v) =
      ((range u).filter (g.Adjacent u)).filter fun v => g.Adjacent v v := by
    rw [filter_filter]
  rw [nodeTriangles_eq_sum dedup hu, range_succ, filter_insert]
  by_cases loop : g.Adjacent u u
  · rw [if_pos loop, sum_insert (by simp), sum_congr rfl inner, sum_add_distrib, sum_boole,
      loops, if_pos loop]
    simp only [and_self, Nat.cast_id]
    rw [range_succ, filter_insert, if_pos loop]
    exact Nat.add_comm _ _
  · rw [if_neg loop, sum_congr rfl inner, sum_add_distrib, sum_boole, loops, if_neg loop]
    rfl

end Deduplicated

section WellFormed

variable {g : UndirectedCsrGraph} (wf : g.WellFormed)
include wf

/-- The per-node counts of all nodes add up to the number of unordered triangles. -/
theorem sum_nodeTriangles : ∑ u ∈ range g.nodeCount, nodeTriangles g u = (triangles g).card := by
  rw [← card_orderedTriangles wf.toDeduplicated, orderedTriangles, card_sigma]
  refine sum_congr rfl fun u mem => ?_
  have hu := mem_range.mp mem
  have noLoops : ∀ a ∈ range u, ¬ (g.Adjacent u a ∧ g.Adjacent a a) :=
    fun a lt ⟨_, loop⟩ => wf.loopFree a (by simp at lt; omega) loop
  rw [nodeTriangles_eq_strict_add wf.toDeduplicated hu, filter_false_of_mem noLoops, card_empty,
    if_neg (wf.loopFree u hu), card_sigma]
  rfl

end WellFormed

end GraphKernels
