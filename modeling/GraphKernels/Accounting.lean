import GraphKernels.Overflow

set_option autoImplicit false

/- What an interleaving of the workers of `global_triangle_count` costs. A worker's atomic
steps are counted from its own state: one `fetch_add` on `next_chunk` per chunk it has
claimed and one more when it leaves `loop`, one enumeration per chunk, and the final
`fetch_add` on `total_triangles`. The cursor is `CHUNK_SIZE` times the `fetch_add`s made so
far, and of these exactly the first `⌈node_count / CHUNK_SIZE⌉` claim a chunk; so every
interleaving that ends has taken the same number of steps. -/
namespace GraphKernels.Accounting

open Dispatch Overflow

variable {T : Nat}

/-- The chunks a worker has claimed: those it has enumerated and the one it holds. -/
def claims (w : Worker) : Nat := w.chunks.length + w.phase.inflight.length

/-- The `fetch_add`s a worker has made on `next_chunk`. -/
def fetches (w : Worker) : Nat := claims w + exits w.phase

/-- The atomic steps a worker has taken. -/
def stepsTaken (w : Worker) : Nat := w.chunks.length + fetches w + if w.phase = .done then 1 else 0

/-- The atomic steps all workers have taken. -/
def totalSteps (s : State T) : Nat := ∑ i, stepsTaken (s.workers i)

/-- Every chunk a worker has claimed starts at a multiple of `CHUNK_SIZE`. -/
def Aligned (chunkSize : Nat) (w : Worker) : Prop :=
  ∀ c ∈ w.chunks ++ w.phase.inflight, chunkSize ∣ c.1

/-- The cursor counts the `fetch_add`s, and the ones that claimed a chunk are the first
`⌈node_count / CHUNK_SIZE⌉` of them. -/
structure WorkInv (g : UndirectedCsrGraph) (chunkSize : Nat) (s : State T) : Prop where
  cursor : s.nextChunk = chunkSize * ∑ i, fetches (s.workers i)
  claimed : ∑ i, claims (s.workers i) =
    min (∑ i, fetches (s.workers i)) (chunkCount g.nodeCount chunkSize)
  aligned : ∀ i, Aligned chunkSize (s.workers i)

/-- The `f`-th `fetch_add` claims a chunk exactly when `f` is below the chunk count. -/
theorem lt_chunkCount_iff {chunkSize : Nat} (positive : 0 < chunkSize) (nodeCount f : Nat) :
    chunkSize * f < nodeCount ↔ f < chunkCount nodeCount chunkSize := by
  rw [chunkCount, show f < (nodeCount + chunkSize - 1) / chunkSize ↔
    (f + 1) * chunkSize ≤ nodeCount + chunkSize - 1 from Nat.le_div_iff_mul_le positive,
    Nat.succ_mul, Nat.mul_comm]
  omega

section Step

variable {add : Nat → Nat → Nat} {g : UndirectedCsrGraph} {chunkSize : Nat} {s s' : State T}
  {i : Fin T}

theorem totalSteps_step (h : step add g chunkSize s i = some s') :
    totalSteps s' = totalSteps s + 1 := by
  rcases step_cases h with ⟨claim, rfl⟩ | ⟨start, stop, work, rfl⟩ | ⟨publish, rfl⟩ <;>
    refine sum_update_of_eq_add _ _ _ _ 1 ?_
  · split_ifs <;> simp [stepsTaken, fetches, claims, exits, claim] <;> omega
  · simp [stepsTaken, fetches, claims, exits, work]
    omega
  · simp [stepsTaken, fetches, claims, exits, publish]

theorem WorkInv.fetchChunk (positive : 0 < chunkSize) (inv : WorkInv g chunkSize s)
    (claim : (s.workers i).phase = .claim) :
    WorkInv g chunkSize (fetchChunk (· + ·) g chunkSize s i) := by
  have ⟨cursor, claimed, aligned⟩ := inv
  have fetched : ∑ j, fetches ((Dispatch.fetchChunk (· + ·) g chunkSize s i).workers j) =
      ∑ j, fetches (s.workers j) + 1 :=
    sum_update_of_eq_add _ _ _ _ 1 (by split_ifs <;> simp [fetches, claims, exits, claim])
  have grew : ∑ j, claims ((Dispatch.fetchChunk (· + ·) g chunkSize s i).workers j) =
      ∑ j, claims (s.workers j) + if g.nodeCount ≤ s.nextChunk then 0 else 1 :=
    sum_update_of_eq_add _ _ _ _ _ (by split_ifs <;> simp [claims, claim])
  have first := lt_chunkCount_iff positive g.nodeCount (∑ j, fetches (s.workers j))
  refine ⟨?_, ?_, ?_⟩
  · rw [fetched, Nat.mul_succ, ← cursor]
    rfl
  · rw [fetched, grew, claimed, cursor]
    split_ifs <;> omega
  · dsimp only [GraphKernels.Dispatch.fetchChunk]
    refine (Function.forall_update_iff _ fun _ => Aligned chunkSize).mpr
      ⟨fun c mem => ?_, fun j _ => aligned j⟩
    rcases List.mem_append.mp mem with mem | mem
    · exact aligned i c (List.mem_append_left _ mem)
    · split_ifs at mem
      · exact absurd mem (List.not_mem_nil c)
      · rw [Phase.inflight_work, List.mem_singleton] at mem
        exact mem ▸ ⟨_, cursor⟩

theorem sum_update_of_eq {ws : Fin T → Worker} {w : Worker} (f : Worker → Nat)
    (same : f w = f (ws i)) : ∑ j, f (Function.update ws i w j) = ∑ j, f (ws j) :=
  sum_update_of_eq_add ws i w f 0 same

/-- A step that makes no `fetch_add` on `next_chunk` and claims nothing keeps the invariant
once it keeps the chunks aligned. -/
theorem WorkInv.of_sums (inv : WorkInv g chunkSize s) (cursor : s'.nextChunk = s.nextChunk)
    (fetched : ∑ j, fetches (s'.workers j) = ∑ j, fetches (s.workers j))
    (claimed : ∑ j, claims (s'.workers j) = ∑ j, claims (s.workers j))
    (aligned : ∀ j, Aligned chunkSize (s'.workers j)) : WorkInv g chunkSize s' :=
  ⟨by rw [cursor, fetched, inv.cursor], by rw [claimed, fetched, inv.claimed], aligned⟩

theorem WorkInv.enumerateChunk {start stop : Nat} (inv : WorkInv g chunkSize s)
    (work : (s.workers i).phase = .work start stop) :
    WorkInv g chunkSize (enumerateChunk g s i start stop) := by
  have held : (s.workers i).phase.inflight = [(start, stop)] := by rw [work]; rfl
  refine inv.of_sums rfl (sum_update_of_eq _ (by simp [fetches, claims, exits, work]))
    (sum_update_of_eq _ (by simp [claims, work]))
    ((Function.forall_update_iff _ fun _ => Aligned chunkSize).mpr
      ⟨fun c mem => ?_, fun j _ => inv.aligned j⟩)
  exact inv.aligned i c (by simpa [held] using mem)

theorem WorkInv.publishCount (inv : WorkInv g chunkSize s)
    (publish : (s.workers i).phase = .publish) : WorkInv g chunkSize (publishCount s i) := by
  have held : (s.workers i).phase.inflight = [] := by rw [publish]; rfl
  refine inv.of_sums rfl (sum_update_of_eq _ (by simp [fetches, claims, exits, publish]))
    (sum_update_of_eq _ (by simp [claims, publish]))
    ((Function.forall_update_iff _ fun _ => Aligned chunkSize).mpr
      ⟨fun c mem => ?_, fun j _ => inv.aligned j⟩)
  exact inv.aligned i c (by simpa [held] using mem)

theorem WorkInv.init : WorkInv g chunkSize (init T) :=
  ⟨by simp [Dispatch.init, fetches, claims, exits],
    by simp [Dispatch.init, fetches, claims, exits],
    fun _ c mem => by simp [Dispatch.init] at mem⟩

theorem WorkInv.step (positive : 0 < chunkSize) (inv : WorkInv g chunkSize s)
    (h : step (· + ·) g chunkSize s i = some s') : WorkInv g chunkSize s' := by
  rcases step_cases h with ⟨claim, rfl⟩ | ⟨start, stop, work, rfl⟩ | ⟨publish, rfl⟩
  · exact inv.fetchChunk positive claim
  · exact inv.enumerateChunk work
  · exact inv.publishCount publish

theorem Reachable.workInv (positive : 0 < chunkSize)
    (reach : Reachable (· + ·) g chunkSize s) : WorkInv g chunkSize s := by
  induction reach with
  | refl => exact WorkInv.init
  | tail _ next ih =>
    obtain ⟨i, h⟩ := next
    exact ih.step positive h

theorem run_totalSteps (run : ℕ → State T) (start : run 0 = init T) (k : ℕ)
    (moves : ∀ j < k, Step add g chunkSize (run j) (run (j + 1))) : totalSteps (run k) = k := by
  induction k with
  | zero => simp [start, totalSteps, Dispatch.init, stepsTaken, fetches, claims, exits]
  | succ k ih =>
    obtain ⟨i, h⟩ := moves k (Nat.lt_succ_self k)
    rw [totalSteps_step h, ih fun j lt => moves j (Nat.lt_succ_of_lt lt)]

end Step

/-! ## Complete runs -/

section Runs

variable {g : UndirectedCsrGraph} {chunkSize : Nat} {s : State T}

theorem stepsTaken_le (w : Worker) : stepsTaken w ≤ 2 * claims w + 2 * exits w.phase := by
  rcases w with ⟨phase, triangles, chunks⟩
  cases phase <;> simp [stepsTaken, fetches, claims, exits] <;> omega

/-- No interleaving has taken more than two steps per chunk covering the nodes and two per
worker. -/
theorem WorkInv.totalSteps_le (inv : WorkInv g chunkSize s) :
    totalSteps s ≤ 2 * chunkCount g.nodeCount chunkSize + 2 * T := by
  have left : exited s.workers ≤ T := by
    simpa using Finset.sum_le_sum fun i (_ : i ∈ Finset.univ) => exits_le_one (s.workers i).phase
  have claimed := inv.claimed
  calc totalSteps s ≤ ∑ i, (2 * claims (s.workers i) + 2 * exits (s.workers i).phase) :=
        Finset.sum_le_sum fun i _ => stepsTaken_le _
    _ = 2 * ∑ i, claims (s.workers i) + 2 * exited s.workers := by
        rw [Finset.sum_add_distrib, ← Finset.mul_sum, ← Finset.mul_sum, exited]
    _ ≤ 2 * chunkCount g.nodeCount chunkSize + 2 * T := by omega

/-- Once every worker has returned, each has made one `fetch_add` past its chunks: exactly
`⌈node_count / CHUNK_SIZE⌉` chunks were claimed, twice that plus two per worker steps were
taken, and the cursor stands one chunk per worker past them. -/
theorem WorkInv.finished (inv : WorkInv g chunkSize s) (fin : Finished s) (workers : 0 < T) :
    ∑ i, (s.workers i).chunks.length = chunkCount g.nodeCount chunkSize ∧
      totalSteps s = 2 * chunkCount g.nodeCount chunkSize + 2 * T ∧
      s.nextChunk = chunkSize * (chunkCount g.nodeCount chunkSize + T) := by
  have done : ∀ i, (s.workers i).phase = .done := fin
  have fetched : ∑ i, fetches (s.workers i) = ∑ i, (s.workers i).chunks.length + T := by
    simp [fetches, claims, exits, done, Finset.sum_add_distrib]
  have claimed := inv.claimed
  simp only [claims, done, Phase.inflight_done, List.length_nil, add_zero, fetched] at claimed
  have total : ∑ i, (s.workers i).chunks.length = chunkCount g.nodeCount chunkSize := by omega
  refine ⟨total, ?_, by rw [inv.cursor, fetched, total]⟩
  simp [totalSteps, stepsTaken, fetches, claims, exits, done, Finset.sum_add_distrib, total]
  omega

end Runs

/-- Whatever the order of the workers' steps, no interleaving of `global_triangle_count`
takes more than `2 ⌈node_count / CHUNK_SIZE⌉ + 2 T` atomic steps, and every one that runs to
the end takes exactly that many: the workers claim `⌈node_count / CHUNK_SIZE⌉` chunks in
all, and `next_chunk` ends at `CHUNK_SIZE * (⌈node_count / CHUNK_SIZE⌉ + T)`. -/
theorem complete_runs_take_equal_maximal_work (g : UndirectedCsrGraph) (chunkSize T : Nat)
    (positive : 0 < chunkSize) (workers : 0 < T) (run : ℕ → State T) (k : ℕ)
    (start : run 0 = init T) (moves : ∀ j < k, Step (· + ·) g chunkSize (run j) (run (j + 1))) :
    k ≤ 2 * chunkCount g.nodeCount chunkSize + 2 * T ∧
    (Finished (run k) → k = 2 * chunkCount g.nodeCount chunkSize + 2 * T ∧
      ∑ i, ((run k).workers i).chunks.length = chunkCount g.nodeCount chunkSize ∧
      (run k).nextChunk = chunkSize * (chunkCount g.nodeCount chunkSize + T)) := by
  have taken := run_totalSteps run start k moves
  have inv := Reachable.workInv positive (reachable_of_run run start k moves)
  refine ⟨taken ▸ inv.totalSteps_le, fun fin => ?_⟩
  obtain ⟨chunks, total, cursor⟩ := inv.finished fin workers
  exact ⟨taken.symm.trans total, chunks, cursor⟩

theorem complete_runs_take_equal_maximal_work_on_triangle :
    (∀ j < 4, Step (· + ·) triangleGraph CHUNK_SIZE (soloRun triangleGraph j)
      (soloRun triangleGraph (j + 1))) ∧ Finished (soloRun triangleGraph 4) ∧
    (soloRun triangleGraph 4).nextChunk = CHUNK_SIZE * (1 + 1) :=
  have moves : ∀ j < 4, Step (· + ·) triangleGraph CHUNK_SIZE (soloRun triangleGraph j)
      (soloRun triangleGraph (j + 1)) := by
    intro j lt
    interval_cases j <;> exact ⟨0, rfl⟩
  have fin : Finished (soloRun triangleGraph 4) := fun i => by rw [Fin.fin_one_eq_zero i]; rfl
  ⟨moves, fin, ((complete_runs_take_equal_maximal_work triangleGraph CHUNK_SIZE 1 (by decide)
    (by decide) _ 4 rfl moves).2 fin).2.2⟩

/-- In every interleaving, at every moment: the chunks the workers have claimed, enumerated
or held, cover `0..min(next_chunk, node_count)` with each node once; each is
`start..min(start + CHUNK_SIZE, node_count)` with `start` a multiple of `CHUNK_SIZE`; and
`total_triangles` is the sum, over the workers that have published, of the triangles at
the nodes they enumerated. -/
theorem interleavings_claim_disjoint_chunks (g : UndirectedCsrGraph) (chunkSize T : Nat)
    (positive : 0 < chunkSize) (s : State T) (reach : Reachable (· + ·) g chunkSize s) :
    ∑ i, (s.workers i).claimed = Multiset.range (min s.nextChunk g.nodeCount) ∧
    (∀ i, ∀ c ∈ (s.workers i).chunks ++ (s.workers i).phase.inflight,
      chunkSize ∣ c.1 ∧ c.2 = min (c.1 + chunkSize) g.nodeCount) ∧
    s.totalTriangles = ∑ i, if (s.workers i).phase = .done then
      ((s.workers i).nodes.map (nodeTriangles g)).sum else 0 := by
  have inv := reach.inv
  refine ⟨inv.claimed, fun i c mem =>
    ⟨(Reachable.workInv positive reach).aligned i c mem, (inv.workers i).shape c mem⟩, ?_⟩
  rw [inv.published]
  exact Finset.sum_congr rfl fun i _ => by rw [Worker.published, (inv.workers i).counted]

theorem interleavings_claim_disjoint_chunks_on_triangle :
    Reachable (· + ·) triangleGraph CHUNK_SIZE (soloRun triangleGraph 1) ∧
      ∑ i, ((soloRun triangleGraph 1).workers i).claimed = Multiset.range 3 :=
  have reach : Reachable (· + ·) triangleGraph CHUNK_SIZE (soloRun triangleGraph 1) :=
    .single ⟨0, rfl⟩
  ⟨reach, (interleavings_claim_disjoint_chunks triangleGraph CHUNK_SIZE 1 (by decide) _ reach).1⟩

end GraphKernels.Accounting
