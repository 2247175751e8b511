import GraphKernels.Dispatch

set_option autoImplicit false

/- `NI` as a `w`-bit word: `NI::fetch_add` on `next_chunk` and `start + NI::new(CHUNK_SIZE)`
wrap modulo `2^w`, as in a release build. The atomic `fetch_add` wraps in every build, but a
debug build panics where `start + NI::new(CHUNK_SIZE)` overflows, so a run past that point
(the infinite run of `claim_loop_wraps_at_max`) exists only in a release build; the claim
whose `fetch_add` passes `NI::MAX` is reached in both. Every `fetch_add`, whether it claims a chunk or sends its worker out of
`loop`, moves the cursor by one chunk; the cursor reaches `NI::MAX` unless the chunks that
cover the nodes and one extra per worker fit below it. While no addition wraps, the word
system takes exactly the steps of the unbounded one. -/
namespace GraphKernels.Overflow

open Dispatch

/-- `NI`'s addition on a `w`-bit word as a release build computes it, wrapping. -/
def wrappingAdd (w a b : Nat) : Nat := (a + b) % 2 ^ w

/-- `⌈node_count / CHUNK_SIZE⌉`, the number of chunks that cover the nodes. -/
def chunkCount (nodeCount chunkSize : Nat) : Nat := (nodeCount + chunkSize - 1) / chunkSize

/-- One for a worker that has left `loop`. -/
def exits : Phase → Nat
  | .publish => 1
  | .done => 1
  | _ => 0

theorem exits_le_one (p : Phase) : exits p ≤ 1 := by
  cases p <;> simp [exits]

variable {T : Nat}

/-- How many workers have left `loop`, each after one `fetch_add` past the nodes. -/
def exited (workers : Fin T → Worker) : Nat := ∑ i, exits (workers i).phase

/-- The cursor has moved by one chunk per `fetch_add`: at most once per chunk covering the
nodes and once more per worker that has left `loop`. -/
structure CursorInv (g : UndirectedCsrGraph) (chunkSize : Nat) (s : State T) : Prop where
  aligned : chunkSize ∣ s.nextChunk
  bounded : s.nextChunk ≤ chunkSize * (chunkCount g.nodeCount chunkSize + exited s.workers)

theorem add_le_chunkCount {start chunkSize nodeCount : Nat} (positive : 0 < chunkSize)
    (aligned : chunkSize ∣ start) (below : start < nodeCount) :
    start + chunkSize ≤ chunkSize * chunkCount nodeCount chunkSize := by
  obtain ⟨k, rfl⟩ := aligned
  have within : k + 1 ≤ chunkCount nodeCount chunkSize := by
    rw [chunkCount, Nat.le_div_iff_mul_le positive, Nat.succ_mul, Nat.mul_comm]
    omega
  calc chunkSize * k + chunkSize = chunkSize * (k + 1) := (Nat.mul_succ _ _).symm
    _ ≤ chunkSize * chunkCount nodeCount chunkSize := Nat.mul_le_mul_left _ within

section Cursor

variable {g : UndirectedCsrGraph} {chunkSize : Nat} {s s' : State T} {i : Fin T}

theorem exited_update (ws : Fin T → Worker) (w : Worker) :
    exited (Function.update ws i w) + exits (ws i).phase = exited ws + exits w.phase :=
  sum_update_add ws i w fun w => exits w.phase

theorem CursorInv.step (positive : 0 < chunkSize) (inv : CursorInv g chunkSize s)
    (h : step (· + ·) g chunkSize s i = some s') : CursorInv g chunkSize s' := by
  have bounded := inv.bounded
  rcases step_cases h with ⟨claim, rfl⟩ | ⟨start, stop, work, rfl⟩ | ⟨publish, rfl⟩
  · refine ⟨Nat.dvd_add inv.aligned (Nat.dvd_refl _), ?_⟩
    by_cases full : g.nodeCount ≤ s.nextChunk
    · have more := exited_update (i := i) s.workers { s.workers i with phase := .publish }
      simp only [claim, exits] at more
      simp only [fetchChunk, if_pos full]
      rw [show exited _ = exited s.workers + 1 by omega, ← Nat.add_assoc, Nat.mul_succ]
      omega
    · have same := exited_update (i := i) s.workers { s.workers i with
        phase := .work s.nextChunk (min (s.nextChunk + chunkSize) g.nodeCount) }
      simp only [claim, exits] at same
      have fits := add_le_chunkCount positive inv.aligned (Nat.lt_of_not_le full)
      have grow := Nat.mul_le_mul_left chunkSize
        (Nat.le_add_right (chunkCount g.nodeCount chunkSize) (exited s.workers))
      simp only [fetchChunk, if_neg full]
      rw [show exited _ = exited s.workers by omega]
      omega
  · have same := exited_update (i := i) s.workers ⟨.claim, chunkLoop g start stop
      (s.workers i).triangles, (s.workers i).chunks ++ [(start, stop)]⟩
    simp only [work, exits] at same
    refine ⟨inv.aligned, ?_⟩
    simp only [enumerateChunk]
    rwa [show exited _ = exited s.workers by omega]
  · have same := exited_update (i := i) s.workers { s.workers i with phase := .done }
    simp only [publish, exits] at same
    refine ⟨inv.aligned, ?_⟩
    simp only [publishCount]
    rwa [show exited _ = exited s.workers by omega]

theorem Reachable.cursorInv (positive : 0 < chunkSize) (reach : Reachable (· + ·) g chunkSize s) :
    CursorInv g chunkSize s := by
  induction reach with
  | refl => exact ⟨Nat.dvd_zero _, Nat.zero_le _⟩
  | tail _ next ih =>
    obtain ⟨i, h⟩ := next
    exact ih.step positive h

/-- A worker about to `fetch_add` has not left `loop`, so at most `T - 1` have. -/
theorem CursorInv.claim_fits (inv : CursorInv g chunkSize s) (claim : (s.workers i).phase = .claim) :
    s.nextChunk + chunkSize ≤ chunkSize * (chunkCount g.nodeCount chunkSize + T) := by
  have fewer : exited s.workers < T := by
    have lt := Finset.sum_lt_sum (s := Finset.univ) (f := fun j => exits (s.workers j).phase)
      (g := fun _ => 1) (fun j _ => exits_le_one _)
      ⟨i, Finset.mem_univ i, by simp [claim, exits]⟩
    simpa [exited] using lt
  calc s.nextChunk + chunkSize
      ≤ chunkSize * (chunkCount g.nodeCount chunkSize + exited s.workers) + chunkSize :=
        Nat.add_le_add_right inv.bounded _
    _ = chunkSize * (chunkCount g.nodeCount chunkSize + (exited s.workers + 1)) := by
        rw [← Nat.add_assoc, Nat.mul_succ]
    _ ≤ chunkSize * (chunkCount g.nodeCount chunkSize + T) :=
        Nat.mul_le_mul_left _ (Nat.add_le_add_left fewer _)

end Cursor

section Simulation

variable {w : Nat} {g : UndirectedCsrGraph} {chunkSize : Nat} {s : State T}

/-- While the cursor plus a chunk stays below `2^w`, the word system steps like the
unbounded one. -/
theorem step_wrappingAdd (i : Fin T)
    (fits : (s.workers i).phase = .claim → s.nextChunk + chunkSize < 2 ^ w) :
    step (wrappingAdd w) g chunkSize s i = step (· + ·) g chunkSize s i := by
  unfold step
  split
  · rename_i claim
    simp only [fetchChunk, wrappingAdd, Nat.mod_eq_of_lt (fits claim)]
  all_goals rfl

theorem step_wrappingAdd_of_reachable (positive : 0 < chunkSize)
    (fits : chunkSize * (chunkCount g.nodeCount chunkSize + T) ≤ 2 ^ w - 1)
    (reach : Reachable (· + ·) g chunkSize s) (i : Fin T) :
    step (wrappingAdd w) g chunkSize s i = step (· + ·) g chunkSize s i :=
  step_wrappingAdd i fun claim => by
    have := (Reachable.cursorInv positive reach).claim_fits claim
    have := Nat.two_pow_pos w
    omega

/-- Below the bound every interleaving of the word system is one of the unbounded system. -/
theorem Reachable.of_fits (positive : 0 < chunkSize)
    (fits : chunkSize * (chunkCount g.nodeCount chunkSize + T) ≤ 2 ^ w - 1)
    (reach : Reachable (wrappingAdd w) g chunkSize s) : Reachable (· + ·) g chunkSize s := by
  induction reach with
  | refl => exact .refl
  | @tail b _ _ next ih =>
    obtain ⟨i, h⟩ := next
    rw [step_wrappingAdd_of_reachable positive fits ih i] at h
    exact ih.tail ⟨i, h⟩

/-- Below the bound, every run of the unbounded system from a state of an interleaving is a
run of the word system. -/
theorem path_wrappingAdd_of_fits {s' : State T} (positive : 0 < chunkSize)
    (fits : chunkSize * (chunkCount g.nodeCount chunkSize + T) ≤ 2 ^ w - 1)
    (reach : Reachable (· + ·) g chunkSize s)
    (path : Relation.ReflTransGen (Step (· + ·) g chunkSize) s s') :
    Relation.ReflTransGen (Step (wrappingAdd w) g chunkSize) s s' := by
  induction path with
  | refl => exact .refl
  | @tail b _ prior next ih =>
    obtain ⟨i, h⟩ := next
    rw [← step_wrappingAdd_of_reachable positive fits
      (Relation.ReflTransGen.trans reach prior) i] at h
    exact ih.tail ⟨i, h⟩

/-- A run of the word system from the start that never ends passes a `fetch_add` that
goes beyond `NI::MAX`. -/
theorem wraps_of_infinite_run (positive : 0 < chunkSize) (run : ℕ → State T)
    (start : run 0 = init T) (steps : ∀ k, Step (wrappingAdd w) g chunkSize (run k) (run (k + 1))) :
    ∃ s : State T, Reachable (wrappingAdd w) g chunkSize s ∧
      ∃ i, (s.workers i).phase = .claim ∧ 2 ^ w ≤ s.nextChunk + chunkSize := by
  by_contra never
  push_neg at never
  have reach : ∀ k, Reachable (wrappingAdd w) g chunkSize (run k) := by
    intro k
    induction k with
    | zero => rw [start]; exact .refl
    | succ k ih => exact ih.tail (steps k)
  refine absurd (fun k => ?_ : ∀ k, Step (· + ·) g chunkSize (run k) (run (k + 1)))
    (no_infinite_run positive run)
  obtain ⟨i, h⟩ := steps k
  exact ⟨i, (step_wrappingAdd i (never _ (reach k) i)).symm.trans h⟩

end Simulation

/-- With `NI` a `w`-bit word, when the chunks covering the nodes and one more per worker fit
below `NI::MAX`: in every interleaving no `fetch_add` on `next_chunk` and no
`start + CHUNK_SIZE` goes beyond `NI::MAX`, no run from the start is infinite, and no node
is claimed by two chunks. -/
theorem claim_loop_fits (w : Nat) (g : UndirectedCsrGraph) (chunkSize T : Nat)
    (positive : 0 < chunkSize)
    (fits : chunkSize * (chunkCount g.nodeCount chunkSize + T) ≤ 2 ^ w - 1) :
    (∀ s : State T, Reachable (wrappingAdd w) g chunkSize s → ∀ i,
      (s.workers i).phase = .claim → s.nextChunk + chunkSize ≤ 2 ^ w - 1) ∧
    (∀ run : ℕ → State T, run 0 = init T →
      ¬ ∀ k, Step (wrappingAdd w) g chunkSize (run k) (run (k + 1))) ∧
    (∀ s : State T, Reachable (wrappingAdd w) g chunkSize s →
      (∑ i, (s.workers i).claimed).Nodup) := by
  have bound : ∀ s : State T, Reachable (wrappingAdd w) g chunkSize s → ∀ i,
      (s.workers i).phase = .claim → s.nextChunk + chunkSize ≤ 2 ^ w - 1 :=
    fun s reach i claim =>
      ((Reachable.cursorInv positive (Reachable.of_fits positive fits reach)).claim_fits
        claim).trans fits
  refine ⟨bound, fun run start steps => ?_, fun s reach => ?_⟩
  · obtain ⟨s, reach, i, claim, over⟩ := wraps_of_infinite_run positive run start steps
    have := bound s reach i claim
    have := Nat.two_pow_pos w
    omega
  · rw [(Reachable.of_fits positive fits reach).inv.claimed]
    exact Multiset.nodup_range _

theorem claim_loop_fits_on_triangle :
    0 < CHUNK_SIZE ∧ CHUNK_SIZE * (chunkCount triangleGraph.nodeCount CHUNK_SIZE + 2) ≤ 2 ^ 8 - 1 ∧
      ∀ s : State 2, Reachable (wrappingAdd 8) triangleGraph CHUNK_SIZE s → ∀ i,
        (s.workers i).phase = .claim → s.nextChunk + CHUNK_SIZE ≤ 2 ^ 8 - 1 :=
  ⟨by decide, by decide, (claim_loop_fits 8 triangleGraph CHUNK_SIZE 2 (by decide) (by decide)).1⟩

/-- `NI::MAX` isolated nodes for 32-bit ids. -/
def maxGraph : UndirectedCsrGraph := ⟨2 ^ 32 - 1, fun _ => []⟩

def soloNext (s : State 1) : State 1 :=
  (step (wrappingAdd 32) maxGraph CHUNK_SIZE s 0).getD s

/-- Every cursor value is a multiple of `64` below `2^32`, so below `node_count`: the
worker always gets a chunk and never leaves `loop`. -/
def Looping (s : State 1) : Prop :=
  ((s.workers 0).phase = .claim ∨ ∃ a b, (s.workers 0).phase = .work a b) ∧
    s.nextChunk % 64 = 0 ∧ s.nextChunk < 2 ^ 32

theorem Looping.step {s : State 1} (looping : Looping s) :
    ∃ s', step (wrappingAdd 32) maxGraph CHUNK_SIZE s 0 = some s' ∧ Looping s' := by
  obtain ⟨claim | ⟨a, b, work⟩, aligned, below⟩ := looping
  · have room : ¬ maxGraph.nodeCount ≤ s.nextChunk := by simp only [maxGraph]; omega
    refine ⟨fetchChunk (wrappingAdd 32) maxGraph CHUNK_SIZE s 0,
      by simp only [Dispatch.step, claim], ?_⟩
    simp only [Looping, fetchChunk, if_neg room, Function.update_same, wrappingAdd, CHUNK_SIZE]
    exact ⟨.inr ⟨_, _, rfl⟩, by omega, Nat.mod_lt _ (Nat.two_pow_pos 32)⟩
  · refine ⟨enumerateChunk maxGraph s 0 a b, by simp only [Dispatch.step, work], ?_⟩
    simp only [Looping, enumerateChunk, Function.update_same]
    exact ⟨.inl trivial, aligned, below⟩

/-- With 32-bit ids, one worker and `node_count = NI::MAX`, a `fetch_add` on `next_chunk`
goes beyond `NI::MAX`, and in a release build the worker claims chunks forever. -/
theorem claim_loop_wraps_at_max :
    (∃ run : ℕ → State 1, run 0 = init 1 ∧
      ∀ k, Step (wrappingAdd 32) maxGraph CHUNK_SIZE (run k) (run (k + 1))) ∧
    ∃ s : State 1, Reachable (wrappingAdd 32) maxGraph CHUNK_SIZE s ∧
      (s.workers 0).phase = .claim ∧ 2 ^ 32 - 1 < s.nextChunk + CHUNK_SIZE := by
  have looping : ∀ k, Looping (soloNext^[k] (init 1)) := by
    intro k
    induction k with
    | zero => exact ⟨.inl rfl, rfl, by decide⟩
    | succ k ih =>
      obtain ⟨s', h, next⟩ := ih.step
      rw [Function.iterate_succ_apply', soloNext, h]
      exact next
  have steps : ∀ k, Step (wrappingAdd 32) maxGraph CHUNK_SIZE (soloNext^[k] (init 1))
      (soloNext^[k + 1] (init 1)) := by
    intro k
    obtain ⟨s', h, -⟩ := (looping k).step
    rw [Function.iterate_succ_apply', soloNext, h]
    exact ⟨0, h⟩
  refine ⟨⟨_, rfl, steps⟩, ?_⟩
  obtain ⟨s, reach, i, claim, over⟩ := wraps_of_infinite_run (by decide) _ rfl steps
  exact ⟨s, reach, Fin.fin_one_eq_zero i ▸ claim, by omega⟩

/-- With `NI` a `w`-bit word, when the chunks covering the nodes and one more per worker fit
below `NI::MAX`: on every graph the word system reaches exactly the states of the unbounded
one, and from each of them the workers can run until all have returned; on a deduplicated,
loop-free, symmetric graph with at least one worker every run that ends leaves the number of
unordered triangles in `total_triangles`. -/
theorem word_ids_count_exactly (w : Nat) (g : UndirectedCsrGraph) (chunkSize T : Nat)
    (positive : 0 < chunkSize)
    (fits : chunkSize * (chunkCount g.nodeCount chunkSize + T) ≤ 2 ^ w - 1) :
    (∀ s : State T, Reachable (wrappingAdd w) g chunkSize s ↔ Reachable (· + ·) g chunkSize s) ∧
    (∀ s : State T, Reachable (wrappingAdd w) g chunkSize s →
      ∃ s', Relation.ReflTransGen (Step (wrappingAdd w) g chunkSize) s s' ∧ Finished s') ∧
    (g.WellFormed → 0 < T → ∀ s : State T, Reachable (wrappingAdd w) g chunkSize s →
      Finished s → s.totalTriangles = (UndirectedCsrGraph.triangles g).card) := by
  have same : ∀ s : State T,
      Reachable (wrappingAdd w) g chunkSize s ↔ Reachable (· + ·) g chunkSize s := fun s =>
    ⟨Reachable.of_fits positive fits, (path_wrappingAdd_of_fits positive fits .refl ·)⟩
  refine ⟨same, fun s reach => ?_, fun wf workers s reach fin => ?_⟩
  · obtain ⟨s', path, done⟩ := completes (g := g) positive s
    exact ⟨s', path_wrappingAdd_of_fits positive fits ((same s).mp reach) path, done⟩
  · obtain ⟨-, total⟩ := ((same s).mp reach).inv.finished fin ⟨0, workers⟩
    rw [total, sum_nodeTriangles wf]

theorem word_ids_count_exactly_on_triangle :
    0 < CHUNK_SIZE ∧ CHUNK_SIZE * (chunkCount triangleGraph.nodeCount CHUNK_SIZE + 2) ≤
      2 ^ 8 - 1 ∧ ∀ s : State 2, Reachable (wrappingAdd 8) triangleGraph CHUNK_SIZE s →
        Finished s → s.totalTriangles = 1 :=
  have wf : triangleGraph.WellFormed := ⟨⟨by decide, by decide, by decide⟩, by decide⟩
  ⟨by decide, by decide, fun s reach fin => ((word_ids_count_exactly 8 triangleGraph CHUNK_SIZE 2
    (by decide) (by decide)).2.2 wf (by decide) s reach fin).trans (by decide)⟩

end GraphKernels.Overflow
