import HorizonNewDawn.Collections.Assignments
import Mathlib.Data.List.Forall2
import Mathlib.Data.List.Perm.Basic
import Mathlib.Data.NNRat.Floor

/-! # The scaling of a supervisor

The dashboard projects how many processes a supervisor with automatic balancing will have after its
next step: the pools are gone through in the order of the processes they would need, and each is
moved towards that number as far as the limits of the supervisor allow. `Projects` says what a
projection may be; the order of the pools does not matter for it. -/

namespace HorizonNewDawn

namespace DashboardData

/-! ## The methods -/

/-- The strategies a supervisor scales by. -/
inductive AutoScalingStrategy
  | size
  | time
  deriving DecidableEq

/-- The options of a supervisor that are read: strings, and what numbers are cast to. -/
structure SupervisorOptions where
  balance : Option String
  connection : Option String
  autoScalingStrategy : Option String
  minProcesses : Option ℤ
  maxProcesses : Option ℤ
  balanceMaxShift : Option ℤ

/-- `max(0, (int) ($options[…] ?? 1))` -/
def optionCount (option : Option ℤ) : ℕ := (option.getD 1).toNat

/-- The work that waits for a pool of processes. -/
structure PoolWorkload where
  processes : ℕ
  readyJobs : ℕ
  timeToClear : ℚ≥0

/-- The limits of a projection. -/
structure ScalingLimits where
  minimumProcesses : ℕ
  maximumProcesses : ℕ
  maximumShift : ℕ

/-- The limits among the options. -/
def SupervisorOptions.limits (options : SupervisorOptions) : ScalingLimits where
  minimumProcesses := optionCount options.minProcesses
  maximumProcesses := optionCount options.maxProcesses
  maximumShift := optionCount options.balanceMaxShift

/-- `$maximumPoolProcesses`, for a number of pools -/
def ScalingLimits.maximumPoolProcesses (limits : ScalingLimits) (pools : ℕ) : ℤ :=
  max (limits.minimumProcesses : ℤ)
    (limits.maximumProcesses - ((pools : ℤ) - 1) * limits.minimumProcesses)

/-- The processes a pool would need, before they are rounded up. -/
def desiredPoolProcesses (limits : ScalingLimits) (strategy : AutoScalingStrategy)
    (poolWorkloads : List (String × PoolWorkload)) (workload : PoolWorkload) : ℚ≥0 :=
  let totalReadyJobs : ℕ := (poolWorkloads.map fun pool => pool.2.readyJobs).sum
  let totalTimeToClear : ℚ≥0 := (poolWorkloads.map fun pool => pool.2.timeToClear).sum
  if 0 < totalTimeToClear then
    let ratio : ℚ≥0 := match strategy with
      | .size => workload.readyJobs / (max 1 totalReadyJobs : ℕ)
      | .time => workload.timeToClear / totalTimeToClear
    ratio * limits.maximumProcesses
  else if 0 < workload.readyJobs then limits.maximumProcesses
  else limits.minimumProcesses

/-- `$desiredProcesses`: every pool with the processes it would need. -/
def desiredProcesses (limits : ScalingLimits) (strategy : AutoScalingStrategy)
    (poolWorkloads : List (String × PoolWorkload)) : List (PoolWorkload × ℚ≥0) :=
  poolWorkloads.map fun pool =>
    (pool.2, desiredPoolProcesses limits strategy poolWorkloads pool.2)

/-- `$nextPoolProcesses` -/
def nextPoolProcesses (limits : ScalingLimits) (maximumPoolProcesses projectedProcesses : ℤ)
    (currentPoolProcesses desiredPoolProcesses : ℤ) : ℤ :=
  if desiredPoolProcesses > currentPoolProcesses then
    let upShift : ℤ :=
      min (max 0 (limits.maximumProcesses - projectedProcesses)) limits.maximumShift
    min (min (currentPoolProcesses + upShift) maximumPoolProcesses) desiredPoolProcesses
  else if desiredPoolProcesses < currentPoolProcesses then
    let downShift : ℤ :=
      min (max 0 (projectedProcesses - limits.minimumProcesses)) limits.maximumShift
    max (max (currentPoolProcesses - downShift) limits.minimumProcesses) desiredPoolProcesses
  else currentPoolProcesses

/-- The loop over the desired processes. -/
def projectProcesses (limits : ScalingLimits) (maximumPoolProcesses : ℤ)
    (desired : List (PoolWorkload × ℚ≥0)) (projectedProcesses : ℤ) : ℤ :=
  desired.foldl (fun projected pool =>
    projected + (nextPoolProcesses limits maximumPoolProcesses projected pool.1.processes
      (⌈pool.2⌉₊ : ℕ) - pool.1.processes)) projectedProcesses

/-- The processes a supervisor has now. -/
def currentProcesses (poolWorkloads : List (String × PoolWorkload)) : ℤ :=
  (poolWorkloads.map fun pool => (pool.2.processes : ℤ)).sum

/-- `projectedSupervisorProcesses` -/
def projectedSupervisorProcesses (options : SupervisorOptions)
    (poolWorkloads : List (String × PoolWorkload)) (strategy : AutoScalingStrategy) : ℤ :=
  let limits := options.limits
  let desired := (desiredProcesses limits strategy poolWorkloads).mergeSort fun a b =>
    decide (a.2 ≤ b.2)
  projectProcesses limits (limits.maximumPoolProcesses poolWorkloads.length) desired
    (currentProcesses poolWorkloads)

/-- `Str::after` with a colon: the whole text where there is none. -/
def afterColon (descriptor : String) : String :=
  match descriptor.toList.dropWhile (· ≠ ':') with
  | _ :: rest => String.ofList rest
  | [] => descriptor

/-- `supervisorProcessPools`; a count is `none` where it is not numeric. -/
def supervisorProcessPools (processes : List (String × Option ℤ)) : List (String × ℕ) :=
  processes.foldl (fun processPools process =>
    match process.2 with
    | none => processPools
    | some processCount =>
        let pool := afterColon process.1
        if pool ≠ "" then Assignments.put pool processCount.toNat processPools
        else processPools) []

/-- The directions a supervisor scales in. -/
inductive SupervisorScalingState
  | up
  | down
  | steady
  deriving DecidableEq

/-- What the dashboard shows of the scaling. -/
structure SupervisorScalingData where
  readyJobs : ℕ
  state : SupervisorScalingState
  strategy : AutoScalingStrategy
  targetProcesses : ℤ

/-- What is read of the queues and the metrics while a page is made, each once. `none` is an
exception. -/
structure QueueReadings where
  connection : String → Option Unit
  readyNow : String → String → Option ℕ
  runtimeForQueue : String → Option ℚ

/-- The workload of a pool, whose name lists its queues. -/
def poolWorkload (readings : QueueReadings) (connection : String) (pool : String × ℕ) :
    Option (String × PoolWorkload) := do
  let queues ← (pool.1.splitOn ",").mapM fun queueName => do
    let readyJobs ← readings.readyNow connection queueName
    let runtime ← readings.runtimeForQueue queueName
    return (readyJobs, (readyJobs : ℚ≥0) * runtime.toNNRat)
  return (pool.1, ⟨pool.2, (queues.map Prod.fst).sum, (queues.map Prod.snd).sum⟩)

/-- `supervisorScaling` -/
def supervisorScaling (readings : QueueReadings) (options : SupervisorOptions)
    (processes : List (String × Option ℤ)) (status : String) : Option SupervisorScalingData := do
  if options.balance ≠ some "auto" ∨ status ≠ "running" then none
  else
    let connection ← options.connection
    if connection = "" then none
    else
      let processPools := supervisorProcessPools processes
      if processPools = [] then none
      else
        readings.connection connection
        let poolWorkloads ← processPools.mapM (poolWorkload readings connection)
        let strategy : AutoScalingStrategy :=
          if options.autoScalingStrategy = some "size" then .size else .time
        let current := currentProcesses poolWorkloads
        let target := projectedSupervisorProcesses options poolWorkloads strategy
        return {
          readyJobs := (poolWorkloads.map fun pool => pool.2.readyJobs).sum
          state := if target > current then .up else if target < current then .down else .steady
          strategy := strategy
          targetProcesses := target }

/-! ## One pool -/

/-- A size a pool may have next: not below the minimum, and moved by the shift at most unless the
maximum of a pool cuts it down. -/
structure NextSize (limits : ScalingLimits) (maximumPoolProcesses : ℤ) (workload : PoolWorkload)
    (next : ℤ) : Prop where
  minimum : (limits.minimumProcesses : ℤ) ≤ next
  shift : |next - workload.processes| ≤ limits.maximumShift ∨
    next = maximumPoolProcesses ∧ maximumPoolProcesses < workload.processes

variable {limits : ScalingLimits} {maximum projected desired : ℤ} {workload : PoolWorkload}

/-- **One pool**: its next size is allowed, whatever it would need. -/
theorem nextSize_nextPoolProcesses (hmaximum : (limits.minimumProcesses : ℤ) ≤ maximum)
    (hcurrent : limits.minimumProcesses ≤ workload.processes) :
    NextSize limits maximum workload
      (nextPoolProcesses limits maximum projected workload.processes desired) := by
  have hminimum : (limits.minimumProcesses : ℤ) ≤ workload.processes := by exact_mod_cast hcurrent
  have hshift : (0 : ℤ) ≤ limits.maximumShift := Int.natCast_nonneg _
  unfold nextPoolProcesses
  dsimp only
  split_ifs with hup hdown
  · constructor
    · omega
    · by_cases hcut : maximum < workload.processes
      · right
        omega
      · left
        rw [abs_le]
        omega
  · constructor
    · omega
    · left
      rw [abs_le]
      omega
  · constructor
    · exact hminimum
    · left
      rw [sub_self, abs_zero]
      exact hshift

/-- The total does not grow beyond the maximum. -/
theorem projected_add_le :
    projected + (nextPoolProcesses limits maximum projected workload.processes desired -
      workload.processes) ≤ max projected limits.maximumProcesses ∨
    workload.processes < limits.minimumProcesses := by
  unfold nextPoolProcesses
  dsimp only
  split_ifs with hup hdown <;> omega

/-! ## All pools -/

/-- What a projection may be: the sum of sizes the pools may have next, not below what the minimum
of the pools asks for, and not above the maximum unless the supervisor is already. -/
structure Projects (limits : ScalingLimits) (poolWorkloads : List (String × PoolWorkload))
    (projected : ℤ) : Prop where
  sizes : ∃ nexts : List ℤ,
    List.Forall₂ (fun pool next =>
      NextSize limits (limits.maximumPoolProcesses poolWorkloads.length) pool.2 next)
      poolWorkloads nexts ∧ projected = nexts.sum
  minimum : (poolWorkloads.length : ℤ) * limits.minimumProcesses ≤ projected
  maximum : projected ≤ max (currentProcesses poolWorkloads) limits.maximumProcesses

/-- **The loop**: what each pool becomes, and what that makes of the total. -/
theorem projectProcesses_sizes (hmaximum : (limits.minimumProcesses : ℤ) ≤ maximum)
    {pools : List (PoolWorkload × ℚ≥0)}
    (hcurrent : ∀ pool ∈ pools, limits.minimumProcesses ≤ pool.1.processes) :
    ∃ nexts : List ℤ, List.Forall₂ (fun pool next => NextSize limits maximum pool.1 next) pools nexts ∧
      projectProcesses limits maximum pools projected =
        projected + nexts.sum - (pools.map fun pool => (pool.1.processes : ℤ)).sum ∧
      projectProcesses limits maximum pools projected ≤
        max projected limits.maximumProcesses := by
  induction pools generalizing projected with
  | nil => exact ⟨[], .nil, by simp [projectProcesses], le_max_left _ _⟩
  | cons pool pools ih =>
      have hpool := hcurrent pool List.mem_cons_self
      have hrest : ∀ pool ∈ pools, limits.minimumProcesses ≤ pool.1.processes :=
        fun pool' hpool' => hcurrent pool' (List.mem_cons_of_mem pool hpool')
      have hnext := @nextSize_nextPoolProcesses limits maximum projected (⌈pool.2⌉₊ : ℕ) pool.1
        hmaximum hpool
      have hgrown := (@projected_add_le limits maximum projected (⌈pool.2⌉₊ : ℕ)
        pool.1).resolve_right (by omega)
      set next := nextPoolProcesses limits maximum projected pool.1.processes (⌈pool.2⌉₊ : ℕ)
        with hdefinition
      obtain ⟨nexts, hsizes, hsum, hbound⟩ := @ih (projected + (next - pool.1.processes)) hrest
      have hstep : projectProcesses limits maximum (pool :: pools) projected =
          projectProcesses limits maximum pools (projected + (next - pool.1.processes)) := rfl
      refine ⟨next :: nexts, .cons hnext hsizes, ?_, ?_⟩
      · rw [hstep, hsum, List.sum_cons, List.map_cons, List.sum_cons]
        ring
      · rw [hstep]
        omega

/-- Every pool has at least the minimum, so all of them have. -/
theorem length_mul_le_sum {pools : List (String × PoolWorkload)} {nexts : List ℤ}
    (h : List.Forall₂ (fun pool next => NextSize limits maximum pool.2 next) pools nexts) :
    (pools.length : ℤ) * limits.minimumProcesses ≤ nexts.sum := by
  induction h with
  | nil => simp
  | cons hnext _ ih =>
      have hminimum := hnext.minimum
      rw [List.length_cons, List.sum_cons]
      push_cast
      linarith

/-- **The projection in any order of the pools.** -/
theorem projects_of_perm {poolWorkloads : List (String × PoolWorkload)}
    {strategy : AutoScalingStrategy} {order : List (PoolWorkload × ℚ≥0)}
    (hcurrent : ∀ pool ∈ poolWorkloads, limits.minimumProcesses ≤ pool.2.processes)
    (horder : order.Perm (desiredProcesses limits strategy poolWorkloads)) :
    Projects limits poolWorkloads (projectProcesses limits
      (limits.maximumPoolProcesses poolWorkloads.length) order
      (currentProcesses poolWorkloads)) := by
  have hpools : ∀ pool ∈ order, limits.minimumProcesses ≤ pool.1.processes := by
    intro pool hpool
    obtain ⟨named, hnamed, rfl⟩ := List.mem_map.mp (horder.mem_iff.mp hpool)
    exact hcurrent named hnamed
  have hmaximum : (limits.minimumProcesses : ℤ) ≤
      limits.maximumPoolProcesses poolWorkloads.length := le_max_left _ _
  obtain ⟨nexts, hsizes, hsum, hbound⟩ :=
    @projectProcesses_sizes limits _ (currentProcesses poolWorkloads) hmaximum order hpools
  -- The sizes in the order of the pools.
  obtain ⟨sizes, hallowed, hperm⟩ := List.perm_comp_forall₂ horder.symm hsizes
  have hforall : List.Forall₂ (fun pool next => NextSize limits
      (limits.maximumPoolProcesses poolWorkloads.length) pool.2 next) poolWorkloads sizes := by
    rw [desiredProcesses, List.forall₂_map_left_iff] at hallowed
    exact hallowed
  have hcurrents : (order.map fun pool => (pool.1.processes : ℤ)).sum =
      currentProcesses poolWorkloads := by
    rw [(horder.map _).sum_eq, desiredProcesses, List.map_map]
    rfl
  have htotal : projectProcesses limits (limits.maximumPoolProcesses poolWorkloads.length) order
      (currentProcesses poolWorkloads) = sizes.sum := by
    rw [hsum, hcurrents, hperm.sum_eq]
    ring
  constructor
  · exact ⟨sizes, hforall, htotal⟩
  · rw [htotal]
    exact length_mul_le_sum hforall
  · exact hbound

/-- **The projection of a supervisor** whose pools have the minimum of processes: it is the sum of
sizes the pools may have next, between the minimum for all pools and the larger of the processes
there are and the maximum, and no order of the pools takes a supervisor within its maximum beyond
it. -/
theorem projectedSupervisorProcesses_projects (options : SupervisorOptions)
    (poolWorkloads : List (String × PoolWorkload)) (strategy : AutoScalingStrategy)
    (hcurrent : ∀ pool ∈ poolWorkloads,
      options.limits.minimumProcesses ≤ pool.2.processes) :
    Projects options.limits poolWorkloads
        (projectedSupervisorProcesses options poolWorkloads strategy) ∧
      ∀ order : List (PoolWorkload × ℚ≥0),
        order.Perm (desiredProcesses options.limits strategy poolWorkloads) →
          currentProcesses poolWorkloads ≤ options.limits.maximumProcesses →
            projectProcesses options.limits
              (options.limits.maximumPoolProcesses poolWorkloads.length) order
              (currentProcesses poolWorkloads) ≤ options.limits.maximumProcesses := by
  constructor
  · exact projects_of_perm hcurrent (List.mergeSort_perm _ _)
  · intro order horder htotal
    have hbound := (projects_of_perm hcurrent horder).maximum
    rwa [max_eq_right htotal] at hbound

/-- The options of a supervisor with at most four processes, one in every pool. -/
def fourProcesses : SupervisorOptions where
  balance := some "auto"
  connection := some "redis"
  autoScalingStrategy := none
  minProcesses := none
  maxProcesses := some 4
  balanceMaxShift := some 2

/-- Two pools, of which one has all the work. -/
def busyPool : List (String × PoolWorkload) := [("imports", ⟨1, 3, 60⟩), ("default", ⟨2, 0, 0⟩)]

/-- Four processes for one busy pool. -/
theorem projectedSupervisorProcesses_projects_busyPool :
    Projects fourProcesses.limits busyPool
        (projectedSupervisorProcesses fourProcesses busyPool .time) ∧
      ∀ order : List (PoolWorkload × ℚ≥0),
        order.Perm (desiredProcesses fourProcesses.limits .time busyPool) →
          currentProcesses busyPool ≤ fourProcesses.limits.maximumProcesses →
            projectProcesses fourProcesses.limits
              (fourProcesses.limits.maximumPoolProcesses busyPool.length) order
              (currentProcesses busyPool) ≤ fourProcesses.limits.maximumProcesses := by
  apply projectedSupervisorProcesses_projects
  simp [busyPool, fourProcesses, SupervisorOptions.limits, optionCount]

/-! ## What the dashboard shows -/

/-- What is read for a list of pools belongs to these pools. -/
theorem map_of_mapM_poolWorkload {readings : QueueReadings} {connection : String}
    {processPools : List (String × ℕ)} {poolWorkloads : List (String × PoolWorkload)}
    (h : processPools.mapM (poolWorkload readings connection) = some poolWorkloads) :
    poolWorkloads.map (fun pool => (pool.1, pool.2.processes)) = processPools := by
  induction processPools generalizing poolWorkloads with
  | nil =>
      rw [List.mapM_nil] at h
      rw [← Option.some.inj h]
      rfl
  | cons pool processPools ih =>
      rw [List.mapM_cons] at h
      obtain ⟨first, hfirst, h⟩ := Option.bind_eq_some_iff.mp h
      obtain ⟨rest, hrest, h⟩ := Option.bind_eq_some_iff.mp h
      rw [← Option.some.inj h, List.map_cons, ih hrest]
      unfold poolWorkload at hfirst
      obtain ⟨queues, -, hfirst⟩ := Option.bind_eq_some_iff.mp hfirst
      rw [← Option.some.inj hfirst]

/-- **What the dashboard shows of a supervisor**: a projection for its pools, and the direction from
the processes there are towards it. -/
theorem supervisorScaling_projects {readings : QueueReadings} {options : SupervisorOptions}
    {processes : List (String × Option ℤ)} {status : String} {data : SupervisorScalingData}
    (h : supervisorScaling readings options processes status = some data)
    (hcurrent : ∀ pool ∈ supervisorProcessPools processes,
      options.limits.minimumProcesses ≤ pool.2) :
    ∃ poolWorkloads : List (String × PoolWorkload),
      poolWorkloads.map (fun pool => (pool.1, pool.2.processes)) =
          supervisorProcessPools processes ∧
        Projects options.limits poolWorkloads data.targetProcesses ∧
        (data.state = .up ↔ currentProcesses poolWorkloads < data.targetProcesses) ∧
        (data.state = .down ↔ data.targetProcesses < currentProcesses poolWorkloads) := by
  unfold supervisorScaling at h
  by_cases hhidden : options.balance ≠ some "auto" ∨ status ≠ "running"
  · rw [if_pos hhidden] at h
    cases h
  rw [if_neg hhidden] at h
  obtain ⟨connection, -, h⟩ := Option.bind_eq_some_iff.mp h
  by_cases hconnection : connection = ""
  · rw [if_pos hconnection] at h
    cases h
  rw [if_neg hconnection] at h
  dsimp only at h
  by_cases hpools : supervisorProcessPools processes = []
  · rw [if_pos hpools] at h
    cases h
  rw [if_neg hpools] at h
  obtain ⟨-, -, h⟩ := Option.bind_eq_some_iff.mp h
  obtain ⟨poolWorkloads, hpoolWorkloads, h⟩ := Option.bind_eq_some_iff.mp h
  -- The pools of the workloads are the ones that were counted.
  have hmap := map_of_mapM_poolWorkload hpoolWorkloads
  have hworkloads : ∀ pool ∈ poolWorkloads,
      options.limits.minimumProcesses ≤ pool.2.processes := by
    intro pool hpool
    apply hcurrent (pool.1, pool.2.processes)
    rw [← hmap]
    exact List.mem_map.mpr ⟨pool, hpool, rfl⟩
  rw [← Option.some.inj h]
  -- The projection does not depend on the order the pools are sorted in.
  refine ⟨poolWorkloads, hmap, projects_of_perm hworkloads (List.mergeSort_perm _ _), ?_, ?_⟩
  · dsimp only
    by_cases hup : currentProcesses poolWorkloads <
        projectedSupervisorProcesses options poolWorkloads
          (if options.autoScalingStrategy = some "size" then .size else .time)
    · simp [hup]
    · simp only [gt_iff_lt, hup, if_false, iff_false]
      split_ifs <;> simp
  · dsimp only
    rcases lt_trichotomy (currentProcesses poolWorkloads)
      (projectedSupervisorProcesses options poolWorkloads
        (if options.autoScalingStrategy = some "size" then .size else .time)) with hup | heq | hdown
    · simp [hup, hup.le]
    · simp [heq]
    · simp [hdown, hdown.le]

end DashboardData

end HorizonNewDawn
